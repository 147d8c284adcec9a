import EventArchive.Proofs.Lookup
import EventArchive.Query.Scan

/-! # What a scan finds

A scan reads the keys of one beginning backwards, page by page, and stops at the
first key that is too old.  Reading in pages is reading at once
(`Scan.hits_eq_onePass`); and since the time stands before the serial in every
key of the scan, stopping early leaves out exactly the keys that are too old, and
the hits come newest first.
-/
namespace EventArchive

/-! ### Keys that end in a time and a serial -/

namespace Key

/-- A key that ends in a time as keys hold it and a serial. -/
def stamped (stem : Bytes) (t : UInt64) (s : Serial) : Bytes :=
  stem ++ (Bytes.bigEndian 8 t.toNat ++ Bytes.bigEndian 8 s.toNat)

theorem timed_eq_stamped (stem : Bytes) (t : Int64) (s : Serial) :
    timed stem t s = stamped stem (clampTime t) s :=
  timed_eq stem t s

@[simp] theorem length_stamped (stem : Bytes) (t : UInt64) (s : Serial) :
    (stamped stem t s).length = stem.length + 16 := by
  simp [stamped, Bytes.length_bigEndian]

@[simp] theorem serial?_stamped (stem : Bytes) (t : UInt64) (s : Serial) :
    serial? (stamped stem t s) = some s := by
  rw [stamped, ← List.append_assoc, serial?_append]

@[simp] theorem timestamp?_stamped (stem : Bytes) (t : UInt64) (s : Serial) :
    timestamp? (stamped stem t s) = some t := by
  have htake : ((stamped stem t s).drop stem.length).take 8 = Bytes.bigEndian 8 t.toNat := by
    rw [stamped, List.drop_left, List.take_left' (Bytes.length_bigEndian _ _)]
  rw [timestamp?, if_pos (by simp), length_stamped, Nat.add_sub_cancel, htake,
    Bytes.toNatBE_bigEndian (uint64_lt _), UInt64.ofNat_toNat]

/-- Every eight bytes are a number. -/
theorem exists_bigEndian {bytes : Bytes} (h : bytes.length = 8) :
    ∃ n : UInt64, bytes = Bytes.bigEndian 8 n.toNat := by
  have hlt : Bytes.toNatBE bytes < 2 ^ 64 := by
    have := Bytes.toNatBE_lt bytes
    rwa [h] at this
  refine ⟨UInt64.ofNat (Bytes.toNatBE bytes), ?_⟩
  rw [UInt64.toNat_ofNat', Nat.mod_eq_of_lt hlt, Bytes.bigEndian_toNatBE h]

/-- Sixteen bytes are a time and a serial. -/
theorem exists_stamped (stem : Bytes) {r : Bytes} (h : r.length = 16) :
    ∃ t s, stem ++ r = stamped stem t s := by
  have htake : (r.take 8).length = 8 := by
    rw [List.length_take]
    omega
  have hdrop : (r.drop 8).length = 8 := by
    rw [List.length_drop]
    omega
  obtain ⟨t, ht⟩ := exists_bigEndian htake
  obtain ⟨s, hs⟩ := exists_bigEndian hdrop
  exact ⟨t, s, by rw [stamped, ← ht, ← hs, List.take_append_drop]⟩

theorem stamped_inj {stem stem' : Bytes} {t t' : UInt64} {s s' : Serial}
    (h : stamped stem t s = stamped stem' t' s') : stem = stem' ∧ t = t' ∧ s = s' := by
  have htime := timestamp?_stamped stem t s
  have hserial := serial?_stamped stem t s
  rw [h, timestamp?_stamped] at htime
  rw [h, serial?_stamped] at hserial
  have hlen : stem.length = stem'.length := by
    have := congrArg List.length h
    simpa using this
  exact ⟨(List.append_inj h hlen).1, (Option.some.inj htime).symm, (Option.some.inj hserial).symm⟩

/-- Keys that differ in the serial alone are in the order of their serials. -/
theorem compare_serial_lt_iff {p : Bytes} {s s' : Serial} :
    compare (p ++ Bytes.bigEndian 8 s.toNat) (p ++ Bytes.bigEndian 8 s'.toNat) = .lt ↔ s < s' := by
  rw [Bytes.compare_append_left, ← List.append_nil (Bytes.bigEndian 8 s.toNat),
    ← List.append_nil (Bytes.bigEndian 8 s'.toNat),
    Bytes.compare_bigEndian_append (uint64_lt _) (uint64_lt _), Std.ReflOrd.compare_self,
    Ordering.then_eq, Nat.compare_eq_lt, UInt64.lt_iff_toNat_lt]

/-- **Keys of one beginning are in the order of their times**, and those of one time in the order
of their serials. -/
theorem compare_stamped_lt_iff {stem : Bytes} {t t' : UInt64} {s s' : Serial} :
    compare (stamped stem t s) (stamped stem t' s') = .lt ↔ t < t' ∨ t = t' ∧ s < s' := by
  rw [stamped, stamped, Bytes.compare_append_left,
    Bytes.compare_bigEndian_append (uint64_lt _) (uint64_lt _), Ordering.then_eq_lt,
    Nat.compare_eq_lt, Nat.compare_eq_eq, UInt64.toNat_inj, ← UInt64.lt_iff_toNat_lt]
  exact or_congr_right (and_congr_right fun _ => compare_serial_lt_iff (p := []))

theorem le_of_compare_stamped {stem : Bytes} {t t' : UInt64} {s s' : Serial}
    (h : compare (stamped stem t s) (stamped stem t' s') = .lt) : t ≤ t' := by
  rcases compare_stamped_lt_iff.mp h with hlt | ⟨rfl, -⟩
  · exact UInt64.le_of_lt hlt
  · exact UInt64.le_refl t

theorem lt_of_compare_stamped {stem : Bytes} {t : UInt64} {s s' : Serial}
    (h : compare (stamped stem t s) (stamped stem t s') = .lt) : s < s' :=
  ((compare_stamped_lt_iff.mp h).resolve_left (UInt64.lt_irrefl t)).2

end Key

namespace Scan
variable {s : Scan} {k : Keyspace} {key : Bytes}

/-! ### The keys of a scan -/

theorem owns_stamped (hs : s.untimed = false) (t : UInt64) (ser : Serial) :
    s.owns (Key.stamped s.stem t ser) = true := by
  simp [owns, keyLength, hs]

theorem isPast_stamped (hs : s.untimed = false) (since t : UInt64) (ser : Serial) :
    s.isPast since (Key.stamped s.stem t ser) = decide (t < since) := by
  rw [isPast, owns_stamped hs, timeOf, hs]
  simp

theorem toNat_maxUInt64 : maxUInt64.toNat = 2 ^ 64 - 1 := rfl

/-- A scan starts before the first time that is too late. -/
theorem compare_upper (hs : s.untimed = false) (t : UInt64) (ser : Serial) :
    compare (Key.stamped s.stem t ser) s.upper = .lt ↔ t ≤ s.till := by
  have ht := t.toNat_lt
  -- the last time has no successor, so there the bound is longer than a key instead
  by_cases htill : s.till = maxUInt64
  · have hupper : s.upper = s.stem ++ List.replicate 17 0xff := by rw [upper, if_pos (.inr htill)]
    have hlen : (Bytes.bigEndian 8 t.toNat ++ Bytes.bigEndian 8 ser.toNat).length < 17 := by
      simp [Bytes.length_bigEndian]
    rw [hupper, Key.stamped, Bytes.compare_append_left, Bytes.compare_replicate_lt hlen, htill,
      UInt64.le_iff_toNat_le, toNat_maxUInt64]
    refine iff_of_true rfl ?_
    omega
  · have hupper : s.upper = s.stem ++ (Bytes.bigEndian 8 (s.till.toNat + 1) ++ []) := by
      rw [upper, if_neg (by simp [hs, htill]), List.append_nil]
    have htop : s.till.toNat + 1 < 256 ^ 8 := by
      have hlt := s.till.toNat_lt
      have hne : s.till.toNat ≠ maxUInt64.toNat := fun h => htill (UInt64.toNat_inj.mp h)
      rw [toNat_maxUInt64] at hne
      omega
    have hser : compare (Bytes.bigEndian 8 ser.toNat) [] = .gt := by
      cases hb : Bytes.bigEndian 8 ser.toNat with
      | nil =>
        have := Bytes.length_bigEndian 8 ser.toNat
        rw [hb] at this
        cases this
      | cons b rest => rfl
    rw [hupper, Key.stamped, Bytes.compare_append_left,
      Bytes.compare_bigEndian_append (Key.uint64_lt t) htop, hser, UInt64.le_iff_toNat_le]
    rcases Nat.lt_trichotomy t.toNat (s.till.toNat + 1) with h | h | h
    · rw [Nat.compare_eq_lt.mpr h]
      exact iff_of_true rfl (by omega)
    · rw [Nat.compare_eq_eq.mpr h]
      exact iff_of_false nofun (by omega)
    · rw [Nat.compare_eq_gt.mpr h]
      exact iff_of_false nofun (by omega)

theorem mem_keysBelow {u : Bytes} : key ∈ s.keysBelow k u ↔
    (∃ v, k.get? key = some v) ∧ (compare s.stem key).isLE ∧ compare key u = .lt := by
  rw [keysBelow, List.mem_reverse, List.mem_map]
  constructor
  · rintro ⟨⟨key, v⟩, hmem, rfl⟩
    obtain ⟨hv, hrange⟩ := SortedMap.mem_range.mp hmem
    exact ⟨⟨v, hv⟩, hrange⟩
  · rintro ⟨⟨v, hv⟩, hrange⟩
    exact ⟨(key, v), SortedMap.mem_range.mpr ⟨hv, hrange⟩, rfl⟩

/-- The range of a scan holds extensions of its beginning only. -/
theorem exists_append_of_range (hle : (compare s.stem key).isLE)
    (hlt : compare key s.upper = .lt) : ∃ r, key = s.stem ++ r := by
  have hextends : ∃ tail, s.upper = s.stem ++ tail := by
    rw [upper]
    split
    · exact ⟨_, rfl⟩
    · exact ⟨_, rfl⟩
  obtain ⟨tail, htail⟩ := hextends
  obtain ⟨r, hr, -⟩ := Bytes.exists_append_of_between.mp ⟨hle, htail ▸ hlt⟩
  exact ⟨r, hr⟩

theorem exists_append_of_mem_keysBelow (hmem : key ∈ s.keysBelow k s.upper) :
    ∃ r, key = s.stem ++ r := by
  obtain ⟨-, hle, hlt⟩ := mem_keysBelow.mp hmem
  exact exists_append_of_range hle hlt

/-- A key is in the range of a scan, and has the length of the keys of the scan. -/
structure Selects (s : Scan) (key : Bytes) : Prop where
  lower : (compare s.stem key).isLE
  upper : compare key s.upper = .lt
  length : key.length = s.keyLength

instance (s : Scan) (key : Bytes) : Decidable (s.Selects key) :=
  decidable_of_iff ((compare s.stem key).isLE ∧ compare key s.upper = .lt ∧
    key.length = s.keyLength) ⟨fun ⟨h, h', h''⟩ => ⟨h, h', h''⟩, fun ⟨h, h', h''⟩ => ⟨h, h', h''⟩⟩

/-- **What a scan of timed keys selects** are the keys of its beginning up to its latest time. -/
theorem selects_iff (hs : s.untimed = false) :
    s.Selects key ↔ ∃ t ser, key = Key.stamped s.stem t ser ∧ t ≤ s.till := by
  constructor
  · rintro ⟨hle, hlt, hlength⟩
    obtain ⟨r, rfl⟩ := exists_append_of_range hle hlt
    -- a longer key with the same beginning belongs to a longer tag value
    have hlen : r.length = 16 := by
      rw [keyLength, hs, List.length_append] at hlength
      simp only [Bool.false_eq_true, if_false] at hlength
      omega
    obtain ⟨t, ser, hkey⟩ := Key.exists_stamped s.stem hlen
    rw [hkey] at hlt
    exact ⟨t, ser, hkey, (compare_upper hs t ser).mp hlt⟩
  · rintro ⟨t, ser, rfl, htill⟩
    exact ⟨Bytes.isLE_compare_append _ _, (compare_upper hs t ser).mpr htill,
      beq_iff_eq.mp (owns_stamped hs t ser)⟩

/-- What a scan of keys without a time selects are the keys of its beginning. -/
theorem selects_untimed_iff (hs : s.untimed = true) :
    s.Selects key ↔ ∃ ser : Serial, key = s.stem ++ Bytes.bigEndian 8 ser.toNat := by
  have hlength : ∀ r : Bytes, (s.stem ++ r).length = s.keyLength ↔ r.length = 8 := by
    intro r
    rw [keyLength, if_pos hs, List.length_append]
    omega
  constructor
  · rintro ⟨hle, hlt, hlen⟩
    obtain ⟨r, rfl⟩ := exists_append_of_range hle hlt
    obtain ⟨ser, rfl⟩ := Key.exists_bigEndian ((hlength r).mp hlen)
    exact ⟨ser, rfl⟩
  · rintro ⟨ser, rfl⟩
    have height := Bytes.length_bigEndian 8 ser.toNat
    refine ⟨Bytes.isLE_compare_append _ _, ?_, (hlength _).mpr height⟩
    rw [upper, if_pos (.inl hs), Bytes.compare_append_left]
    exact Bytes.compare_replicate_lt (by omega)

/-- The keys of a table that a scan goes through and that belong to it. -/
theorem mem_keysBelow_iff_selects : (key ∈ s.keysBelow k s.upper ∧ s.owns key = true) ↔
    s.Selects key ∧ ∃ v, k.get? key = some v := by
  rw [mem_keysBelow, owns, beq_iff_eq]
  constructor
  · rintro ⟨⟨hv, hle, hlt⟩, hlength⟩
    exact ⟨⟨hle, hlt, hlength⟩, hv⟩
  · rintro ⟨⟨hle, hlt, hlength⟩, hv⟩
    exact ⟨⟨hv, hle, hlt⟩, hlength⟩

/-- The keys that belong to a scan are those of its beginning up to its latest time. -/
theorem mem_keysBelow_upper (hs : s.untimed = false) :
    (key ∈ s.keysBelow k s.upper ∧ s.owns key = true) ↔
      ∃ t ser, key = Key.stamped s.stem t ser ∧ t ≤ s.till ∧ ∃ v, k.get? key = some v := by
  rw [mem_keysBelow_iff_selects, selects_iff hs]
  constructor
  · rintro ⟨⟨t, ser, hkey, htill⟩, hv⟩
    exact ⟨t, ser, hkey, htill, hv⟩
  · rintro ⟨t, ser, hkey, htill, hv⟩
    exact ⟨⟨t, ser, hkey, htill⟩, hv⟩

theorem keysBelow_sorted (s : Scan) (k : Keyspace) (u : Bytes) :
    (s.keysBelow k u).Pairwise (fun a b => compare b a = .lt) := by
  rw [keysBelow, List.pairwise_reverse, List.pairwise_map]
  exact k.range_sorted s.stem u

/-- The keys below a smaller bound. -/
theorem keysBelow_filter {u u' : Bytes} (h : compare u' u = .lt) :
    s.keysBelow k u' = (s.keysBelow k u).filter fun key => compare key u' == .lt := by
  rw [keysBelow, keysBelow, List.filter_reverse, List.filter_map, SortedMap.range,
    SortedMap.range, List.filter_filter]
  congr 2
  refine List.filter_congr fun e _ => ?_
  rw [Bool.eq_iff_iff]
  simp only [Bool.and_eq_true, beq_iff_eq, Function.comp_apply]
  constructor
  · rintro ⟨hlower, hlt⟩
    exact ⟨hlt, hlower, Std.TransCmp.lt_trans hlt h⟩
  · rintro ⟨hlt, hlower, -⟩
    exact ⟨hlower, hlt⟩

/-- Below a key of a scan are the keys that come after it. -/
theorem keysBelow_of_append {u : Bytes} {pre suf : List Bytes}
    (h : s.keysBelow k u = pre ++ key :: suf) : s.keysBelow k key = suf := by
  have hsorted := s.keysBelow_sorted k u
  rw [h, List.pairwise_append, List.pairwise_cons] at hsorted
  obtain ⟨-, ⟨hsuf, -⟩, hpre⟩ := hsorted
  have hmem : key ∈ s.keysBelow k u := by
    rw [h]
    exact List.mem_append_right _ List.mem_cons_self
  have hpre' : pre.filter (fun x => compare x key == .lt) = [] := by
    rw [List.filter_eq_nil_iff]
    intro x hx hlt
    have hgt := Std.OrientedCmp.gt_of_lt (hpre x hx key List.mem_cons_self)
    rw [hgt] at hlt
    cases hlt
  have hsuf' : suf.filter (fun x => compare x key == .lt) = suf := by
    rw [List.filter_eq_self]
    intro x hx
    rw [hsuf x hx]
    rfl
  have hself : (compare key key == .lt) = false := by
    rw [Std.ReflOrd.compare_self]
    rfl
  rw [keysBelow_filter (mem_keysBelow.mp hmem).2.2, h, List.filter_append, hpre', List.nil_append,
    List.filter_cons_of_neg (by rw [hself]; nofun), hsuf']

/-! ### Pages -/

section Pages
variable (s k) (residual : Option Filter) (since : UInt64)

/-- The keys that a page sees of some: those up to the first that is too old, as far as there is
room for them. -/
def seenKeys (room : Nat) (keys : List Bytes) : List Bytes :=
  (keys.takeWhile (!s.isPast since ·)).take (max room 1)

variable {s since} in
theorem recent_of_mem_seenKeys {room : Nat} {keys : List Bytes}
    (h : key ∈ s.seenKeys since room keys) : (!s.isPast since key) = true := by
  have hrecent := List.mem_takeWhile_imp (List.mem_of_mem_take h)
  exact hrecent

/-- A page either ends the scan, or is full and stops at the last key that it sees. -/
theorem readKeys_cases (room : Nat) (keys : List Bytes) :
    (∃ pre key suf, keys = pre ++ key :: suf ∧ s.seenKeys since room keys = pre ++ [key] ∧
      s.readKeys k residual since room keys =
        ⟨(pre ++ [key]).filterMap (s.hit? k residual), some key⟩) ∨
    (s.seenKeys since room keys = keys.takeWhile (!s.isPast since ·) ∧
      s.readKeys k residual since room keys =
        ⟨(keys.takeWhile (!s.isPast since ·)).filterMap (s.hit? k residual), none⟩) := by
  induction keys generalizing room with
  | nil =>
    refine .inr ?_
    rw [readKeys, seenKeys]
    exact ⟨List.take_nil, rfl⟩
  | cons key keys ih =>
    by_cases hpast : s.isPast since key = true
    · refine .inr ?_
      rw [readKeys.eq_def, seenKeys]
      simp [hpast]
    · have hfound : ∀ keys, (key :: keys).filterMap (s.hit? k residual) =
          (s.hit? k residual key).toList ++ keys.filterMap (s.hit? k residual) := by
        intro keys
        cases hhit : s.hit? k residual key <;> simp [hhit]
      rw [seenKeys, List.takeWhile_cons_of_pos (by simpa using hpast)]
      -- a page of size zero reads one key, as one of size one does
      match room with
      | 0 | 1 =>
        refine .inl ⟨[], key, keys, rfl, rfl, ?_⟩
        rw [readKeys, if_neg hpast, List.nil_append, hfound, List.filterMap_nil, List.append_nil]
      | room + 2 =>
        have hroom : max (room + 2) 1 = max (room + 1) 1 + 1 := by omega
        rw [readKeys, if_neg hpast, hroom, List.take_succ_cons]
        dsimp only
        rw [← seenKeys]
        rcases ih (room + 1) with ⟨pre, next, suf, rfl, hseen, hpage⟩ | ⟨hseen, hpage⟩
        · refine .inl ⟨key :: pre, next, suf, rfl, ?_, ?_⟩
          · rw [hseen, List.cons_append]
          · rw [hpage, List.cons_append, hfound]
        · refine .inr ⟨?_, ?_⟩
          · rw [hseen]
          · rw [hpage, hfound]

/-- The hits of a scan that starts below a bound and reads all its keys at once. -/
def hitsBelow (u : Bytes) : List Hit :=
  ((s.keysBelow k u).takeWhile (!s.isPast since ·)).filterMap (s.hit? k residual)

/-- The hits of a page come first, and those below the next page follow. -/
theorem readPage_cases (pageSize : Nat) (u : Bytes) :
    (∃ next, (s.readPage k residual since pageSize u).resume = some next ∧
      (s.keysBelow k next).length < (s.keysBelow k u).length ∧
      (s.readPage k residual since pageSize u).hits ++ s.hitsBelow k residual since next =
        s.hitsBelow k residual since u) ∨
    ((s.readPage k residual since pageSize u).resume = none ∧
      (s.readPage k residual since pageSize u).hits = s.hitsBelow k residual since u) := by
  unfold readPage hitsBelow
  rcases readKeys_cases s k residual since pageSize (s.keysBelow k u) with
    ⟨pre, key, suf, hkeys, hseen, hpage⟩ | ⟨-, hpage⟩
  · -- the next page starts at the key where this one stopped
    have hsuf := keysBelow_of_append hkeys
    have hrecent : ∀ x ∈ pre ++ [key], (!s.isPast since x) = true := fun x hx =>
      recent_of_mem_seenKeys (hseen ▸ hx)
    refine .inl ⟨key, ?_, ?_, ?_⟩
    · rw [hpage]
    · rw [hsuf, hkeys, List.length_append, List.length_cons]
      omega
    · rw [hpage, hsuf, hkeys, List.append_cons pre key suf, List.takeWhile_append_of_pos hrecent,
        ← List.filterMap_append]
  · refine .inr ⟨?_, ?_⟩
    · rw [hpage]
    · rw [hpage]

/-- Reading in pages finds what reading at once finds. -/
theorem readPages_eq (pageSize fuel : Nat) (u : Bytes) (h : (s.keysBelow k u).length < fuel) :
    s.readPages k residual since pageSize fuel u = s.hitsBelow k residual since u := by
  induction fuel generalizing u with
  | zero => omega
  | succ fuel ih =>
    unfold readPages
    dsimp only
    rcases readPage_cases s k residual since pageSize u with
      ⟨next, hresume, hfewer, hhits⟩ | ⟨hend, hhits⟩
    · rw [hresume]
      dsimp only
      rw [ih next (by omega), hhits]
    · rw [hend, ← hhits]

/-- **The size of a page does not matter.** -/
theorem hits_eq_onePass (pageSize : Nat) :
    s.hits k residual since pageSize = s.onePass k residual since :=
  readPages_eq s k residual since pageSize _ _ (Nat.lt_succ_self _)

end Pages

/-! ### Stopping early -/

/-- Stopping at the first member that fails a test leaves out nothing that counts, if nothing that
counts passes the test behind one that fails it. -/
theorem filterMap_takeWhile {α β : Type} {p : α → Bool} {f : α → Option β} {l : List α}
    (h : l.Pairwise fun a b => p a = false → (f b).isSome → p b = false) :
    (l.takeWhile p).filterMap f = (l.filter p).filterMap f := by
  induction l with
  | nil => rfl
  | cons a l ih =>
    obtain ⟨ha, hl⟩ := List.pairwise_cons.mp h
    cases hp : p a with
    | true =>
      rw [List.takeWhile_cons_of_pos hp, List.filter_cons_of_pos hp]
      cases hf : f a with
      | none => rw [List.filterMap_cons_none hf, List.filterMap_cons_none hf, ih hl]
      | some b => rw [List.filterMap_cons_some hf, List.filterMap_cons_some hf, ih hl]
    | false =>
      rw [List.takeWhile_cons_of_neg (by simp [hp]), List.filter_cons_of_neg (by simp [hp]),
        List.filterMap_nil, eq_comm, List.filterMap_eq_nil_iff]
      intro b hb
      obtain ⟨hmem, hpass⟩ := List.mem_filter.mp hb
      by_contra hne
      have hfail := ha b hmem hp (Option.isSome_iff_ne_none.mpr hne)
      rw [hpass] at hfail
      cases hfail

variable {residual : Option Filter} {since : UInt64}

theorem owns_of_hit? {hit : Hit} (h : s.hit? k residual key = some hit) : s.owns key = true := by
  rw [hit?] at h
  exact (Option.ite_none_right_eq_some.mp h).1

/-- Two keys of a scan that belong to it hold their times in the order of the keys. -/
theorem exists_of_compare {a b : Bytes} (hs : s.untimed = false)
    (ha : a ∈ s.keysBelow k s.upper) (hb : b ∈ s.keysBelow k s.upper)
    (howns : s.owns a = true) (howns' : s.owns b = true) (hlt : compare b a = .lt) :
    ∃ t ser t' ser', a = Key.stamped s.stem t ser ∧ b = Key.stamped s.stem t' ser' ∧ t' ≤ t := by
  obtain ⟨t, ser, rfl, -⟩ := (mem_keysBelow_upper hs).mp ⟨ha, howns⟩
  obtain ⟨t', ser', rfl, -⟩ := (mem_keysBelow_upper hs).mp ⟨hb, howns'⟩
  exact ⟨t, ser, t', ser', rfl, rfl, Key.le_of_compare_stamped hlt⟩

/-- Stopping at the first key that is too old leaves out those keys alone, whatever is made of the
keys that belong to the scan. -/
theorem filterMap_recent {β : Type} {g : Bytes → Option β}
    (howns : ∀ key, (g key).isSome → s.owns key = true) :
    ((s.keysBelow k s.upper).takeWhile (!s.isPast since ·)).filterMap g =
      ((s.keysBelow k s.upper).filter (!s.isPast since ·)).filterMap g := by
  refine filterMap_takeWhile ?_
  refine (s.keysBelow_sorted k s.upper).imp_of_mem fun {a b} ha hb hlt hpast hsome => ?_
  rw [Bool.not_eq_false', isPast, Bool.and_eq_true] at hpast
  -- a key that is too old belongs to the scan, so it has a time to compare
  obtain ⟨howns', htime⟩ := hpast
  cases hs : s.untimed with
  | true =>
    rw [timeOf, if_pos hs] at htime
    cases htime
  | false =>
    obtain ⟨t, ser, t', ser', rfl, rfl, hle⟩ :=
      exists_of_compare hs ha hb howns' (howns b hsome) hlt
    have hpast : s.isPast since (Key.stamped s.stem t ser) = true := by
      rw [isPast, howns', htime]
      rfl
    rw [isPast_stamped hs, decide_eq_true_eq] at hpast
    rw [Bool.not_eq_false', isPast_stamped hs, decide_eq_true_eq]
    exact UInt64.lt_of_le_of_lt hle hpast

theorem onePass_eq_filter : s.onePass k residual since =
    ((s.keysBelow k s.upper).filter (!s.isPast since ·)).filterMap (s.hit? k residual) := by
  refine filterMap_recent fun key hsome => ?_
  obtain ⟨hit, hhit⟩ := Option.isSome_iff_exists.mp hsome
  exact owns_of_hit? hhit

/-- The hit of a key that belongs to the scan is what the key leads to. -/
theorem hit?_stamped (hs : s.untimed = false) (t : UInt64) (ser : Serial) :
    s.hit? k residual (Key.stamped s.stem t ser) =
      resolve k residual (some t) (Key.stamped s.stem t ser) := by
  rw [hit?, if_pos (owns_stamped hs t ser), timeOf, hs]
  simp

end Scan
end EventArchive
