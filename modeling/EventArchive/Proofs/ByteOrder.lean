import Mathlib
import EventArchive.Data.Bytes

/-! # The order of byte strings

Keys are compared byte by byte, and numbers inside keys are written big-endian.
Two facts carry every range of the key space: the keys between a beginning `p`
and an extension `p ++ t` are exactly the extensions `p ++ r` with `r` before
`t` (`exists_append_of_between`), and at a fixed width the order of written
numbers is the order of the numbers (`compare_bigEndian_append`).
-/
namespace EventArchive
namespace Bytes

/-! ### Extensions of a beginning -/

theorem compare_append_left (p a b : Bytes) : compare (p ++ a) (p ++ b) = compare a b := by
  induction p with
  | nil => rfl
  | cons x p ih =>
    rw [List.cons_append, List.cons_append, List.compare_cons_cons, ih, Std.ReflOrd.compare_self]
    rfl

theorem isLE_compare_append (p r : Bytes) : (compare p (p ++ r)).isLE := by
  have h := compare_append_left p [] r
  rw [List.append_nil] at h
  rw [h]
  exact List.isLE_compare_nil_left

/-- Whatever is not before a beginning and not after one of its extensions begins
with it. -/
theorem exists_append_of_isLE {p key t : Bytes} (hlower : (compare p key).isLE)
    (hupper : (compare key (p ++ t)).isLE) : ∃ r, key = p ++ r := by
  induction p generalizing key with
  | nil => exact ⟨key, rfl⟩
  | cons x p ih =>
    cases key with
    | nil => simp at hlower
    | cons y key =>
      rw [List.compare_cons_cons] at hlower
      rw [List.cons_append, List.compare_cons_cons] at hupper
      cases hxy : compare x y with
      | lt =>
        rw [Std.OrientedCmp.gt_of_lt hxy] at hupper
        cases hupper
      | gt =>
        rw [hxy] at hlower
        cases hlower
      | eq =>
        obtain rfl := Std.LawfulEqCmp.eq_of_compare hxy
        rw [hxy] at hlower hupper
        obtain ⟨r, rfl⟩ := ih hlower hupper
        exact ⟨r, rfl⟩

/-- The keys from a beginning up to an extension are extensions before that one. -/
theorem exists_append_of_between {p key t : Bytes} :
    ((compare p key).isLE ∧ compare key (p ++ t) = .lt) ↔
      ∃ r, key = p ++ r ∧ compare r t = .lt := by
  constructor
  · rintro ⟨hlower, hupper⟩
    obtain ⟨r, rfl⟩ := exists_append_of_isLE hlower (t := t) (by rw [hupper]; rfl)
    exact ⟨r, rfl, by rwa [compare_append_left] at hupper⟩
  · rintro ⟨r, rfl, hr⟩
    exact ⟨isLE_compare_append p r, by rwa [compare_append_left]⟩

/-- The keys from a beginning through an extension are extensions up to that one. -/
theorem exists_append_of_through {p key t : Bytes} :
    ((compare p key).isLE ∧ (compare key (p ++ t)).isLE) ↔
      ∃ r, key = p ++ r ∧ (compare r t).isLE := by
  constructor
  · rintro ⟨hlower, hupper⟩
    obtain ⟨r, rfl⟩ := exists_append_of_isLE hlower hupper
    exact ⟨r, rfl, by rwa [compare_append_left] at hupper⟩
  · rintro ⟨r, rfl, hr⟩
    exact ⟨isLE_compare_append p r, by rwa [compare_append_left]⟩

/-! ### The highest bytes -/

theorem compare_uint8 (a b : UInt8) : compare a b = compare a.toNat b.toNat := by
  simp [compare, compareOfLessAndEq, UInt8.lt_iff_toNat_lt, ← UInt8.toNat_inj]

theorem isLE_compare_high (b : UInt8) : (compare b 0xff).isLE := by
  rw [compare_uint8, Nat.isLE_compare]
  have := b.toNat_lt
  have htop : (0xff : UInt8).toNat = 255 := rfl
  omega

/-- No string of at most `n` bytes comes after `n` high bytes. -/
theorem isLE_compare_replicate {r : Bytes} {n : Nat} (h : r.length ≤ n) :
    (compare r (List.replicate n 0xff)).isLE := by
  induction r generalizing n with
  | nil => exact List.isLE_compare_nil_left
  | cons b r ih =>
    obtain ⟨n, rfl⟩ : ∃ m, n = m + 1 := ⟨n - 1, by simp at h; omega⟩
    rw [List.replicate_succ, List.compare_cons_cons]
    cases hb : compare b 0xff with
    | lt => rfl
    | eq => exact ih (by simpa using h)
    | gt =>
      have hle := isLE_compare_high b
      rw [hb] at hle
      cases hle

/-- A shorter string comes before `n` high bytes. -/
theorem compare_replicate_lt {r : Bytes} {n : Nat} (h : r.length < n) :
    compare r (List.replicate n 0xff) = .lt := by
  refine Std.OrientedCmp.lt_of_not_isLE fun hge => ?_
  have heq := Std.OrientedCmp.isLE_antisymm hge (isLE_compare_replicate (Nat.le_of_lt h))
  have hlen := congrArg List.length (Std.LawfulEqCmp.eq_of_compare heq)
  rw [List.length_replicate] at hlen
  omega

/-! ### Big-endian numbers -/

theorem toNatBE_bigEndian {width n : Nat} (h : n < 256 ^ width) :
    toNatBE (bigEndian width n) = n := by
  induction width generalizing n with
  | zero => simp_all [bigEndian, toNatBE]
  | succ width ih =>
    have hq : n / 256 < 256 ^ width := by
      rw [Nat.div_lt_iff_lt_mul (by decide)]
      simpa [Nat.pow_succ] using h
    rw [bigEndian, toNatBE_append_singleton, ih hq]
    simp [UInt8.toNat_ofNat']
    omega

theorem bigEndian_inj {width a b : Nat} (ha : a < 256 ^ width) (hb : b < 256 ^ width)
    (h : bigEndian width a = bigEndian width b) : a = b := by
  rw [← toNatBE_bigEndian ha, h, toNatBE_bigEndian hb]

theorem toNatBE_lt (bytes : Bytes) : toNatBE bytes < 256 ^ bytes.length := by
  induction bytes using List.reverseRecOn with
  | nil => simp [toNatBE]
  | append_singleton bytes b ih =>
    rw [toNatBE_append_singleton, List.length_append, List.length_singleton, Nat.pow_succ]
    have := b.toNat_lt
    omega

/-- Every string of `width` bytes is a written number. -/
theorem bigEndian_toNatBE {bytes : Bytes} {width : Nat} (h : bytes.length = width) :
    bigEndian width (toNatBE bytes) = bytes := by
  subst h
  induction bytes using List.reverseRecOn with
  | nil => rfl
  | append_singleton bytes b ih =>
    have hb := b.toNat_lt
    have hquot : (toNatBE bytes * 256 + b.toNat) / 256 = toNatBE bytes := by omega
    have hrem : (toNatBE bytes * 256 + b.toNat) % 256 = b.toNat := by omega
    rw [List.length_append, List.length_singleton, bigEndian, toNatBE_append_singleton, hquot,
      hrem, ih, UInt8.ofNat_toNat]

/-- **Written numbers compare as numbers**, and only equal ones leave the decision
to what follows them. -/
theorem compare_bigEndian_append {width a b : Nat} (ha : a < 256 ^ width) (hb : b < 256 ^ width)
    (x y : Bytes) :
    compare (bigEndian width a ++ x) (bigEndian width b ++ y) =
      (compare a b).then (compare x y) := by
  induction width generalizing a b x y with
  | zero =>
    obtain rfl : a = 0 := by simpa using ha
    obtain rfl : b = 0 := by simpa using hb
    rfl
  | succ width ih =>
    have bound : ∀ {n}, n < 256 ^ (width + 1) → n / 256 < 256 ^ width := fun h => by
      rw [Nat.div_lt_iff_lt_mul (by decide)]
      rwa [Nat.pow_succ] at h
    have digit : ∀ n : Nat, (UInt8.ofNat (n % 256)).toNat = n % 256 := fun n => by
      rw [UInt8.toNat_ofNat']
      omega
    rw [bigEndian, bigEndian, List.append_assoc, List.append_assoc, ih (bound ha) (bound hb),
      List.singleton_append, List.singleton_append, List.compare_cons_cons, compare_uint8, digit,
      digit, ← Ordering.then_assoc]
    congr 1
    -- the quotients decide unless they agree, and then the remainders do
    rcases Nat.lt_trichotomy a b with hab | rfl | hab
    · rw [Nat.compare_eq_lt.mpr hab]
      rcases Nat.lt_or_ge (a / 256) (b / 256) with hq | hq
      · rw [Nat.compare_eq_lt.mpr hq]
        rfl
      · rw [Nat.compare_eq_eq.mpr (show a / 256 = b / 256 by omega),
          Nat.compare_eq_lt.mpr (show a % 256 < b % 256 by omega)]
        rfl
    · simp
    · rw [Nat.compare_eq_gt.mpr hab]
      rcases Nat.lt_or_ge (b / 256) (a / 256) with hq | hq
      · rw [Nat.compare_eq_gt.mpr hq]
        rfl
      · rw [Nat.compare_eq_eq.mpr (show a / 256 = b / 256 by omega),
          Nat.compare_eq_gt.mpr (show b % 256 < a % 256 by omega)]
        rfl

end Bytes
end EventArchive
