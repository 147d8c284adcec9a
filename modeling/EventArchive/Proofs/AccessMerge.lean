import EventArchive.Proofs.SortedMap
import EventArchive.Proofs.StoredRoundTrip
import EventArchive.Store.Access

/-! # Noting accesses is a merge

Batches of accesses come from many queries, in any order, and name whole records,
demoted ones and removed ones alike.  Noting a batch stamps the counters that it
names and that are there (`Keyspace.Stamps`), or nothing at all if one of them is
damaged (`Keyspace.touch_cases`).  A stamp never goes back in time, so what a
sequence of batches leaves is known by the times at which each counter was named
alone: the greatest of them and of the time that it held (`Keyspace.Merges`).
Neither the order of the batches nor how the accesses are dealt out to them
matters (`Keyspace.touchAll_merges`).
-/
namespace EventArchive

/-! ### Stamps -/

namespace Counter

/-- A counter has one written form. -/
theorem encode_of_decode {v : Bytes} {c : Counter} (h : decode v = .ok c) : c.encode = v := by
  rw [decode] at h
  split at h
  · rename_i hlen
    have hfirst : (v.take 8).length = 8 := by
      rw [List.length_take]
      omega
    have hlast : (v.drop 8).length = 4 := by
      rw [List.length_drop]
      omega
    have htime : Bytes.toNatBE (v.take 8) < 2 ^ 64 := by
      have := Bytes.toNatBE_lt (v.take 8)
      rwa [hfirst] at this
    have hsize : Bytes.toNatBE (v.drop 8) < 2 ^ 32 := by
      have := Bytes.toNatBE_lt (v.drop 8)
      rwa [hlast] at this
    cases h
    rw [encode_eq, UInt64.toNat_ofNat', UInt32.toNat_ofNat', Nat.mod_eq_of_lt htime,
      Nat.mod_eq_of_lt hsize, Bytes.bigEndian_toNatBE hfirst, Bytes.bigEndian_toNatBE hlast,
      List.take_append_drop]
  · split at h <;> cases h

/-- A counter after an access at a time. -/
def stamped (at_ : UInt64) (c : Counter) : Counter :=
  if c.lastAccess < at_ then { c with lastAccess := at_ } else c

variable {at_ : UInt64} {c : Counter}

theorem size_stamped : (c.stamped at_).size = c.size := by
  rw [stamped]
  split <;> rfl

theorem le_lastAccess_stamped : c.lastAccess ≤ (c.stamped at_).lastAccess := by
  rw [stamped]
  split
  · rename_i hlt
    exact UInt64.le_of_lt hlt
  · exact UInt64.le_refl _

theorem le_stamped : at_ ≤ (c.stamped at_).lastAccess := by
  rw [stamped]
  split
  · exact UInt64.le_refl _
  · rename_i hle
    exact UInt64.not_lt.mp hle

theorem lastAccess_stamped_eq_or (c : Counter) (at_ : UInt64) :
    (c.stamped at_).lastAccess = c.lastAccess ∨ (c.stamped at_).lastAccess = at_ := by
  rw [stamped]
  split
  · exact .inr rfl
  · exact .inl rfl

theorem stamped_of_le (h : at_ ≤ c.lastAccess) : c.stamped at_ = c :=
  if_neg (UInt64.not_lt.mpr h)

/-- A second access at the same time changes nothing more. -/
theorem stamped_stamped : (c.stamped at_).stamped at_ = c.stamped at_ :=
  stamped_of_le le_stamped

end Counter

/-! ### The counters of a table -/

/-- Accesses that are noted together at a time. -/
structure AccessBatch where
  accesses : List Access
  time : UInt64

/-- The counters that a batch names. -/
def AccessBatch.keys (b : AccessBatch) : List Bytes :=
  b.accesses.map fun a => Key.counter a.id a.serial

namespace Keyspace

/-- The counter under a key. -/
def counter? (k : Keyspace) (key : Bytes) : Option Counter :=
  (k.get? key).bind fun v => (Counter.decode v).toOption

/-- None of the counters under some keys is damaged. -/
def CanRead (k : Keyspace) (keys : List Bytes) : Prop :=
  ∀ key ∈ keys, (k.get? key).isSome → (k.counter? key).isSome

instance (k : Keyspace) (keys : List Bytes) : Decidable (k.CanRead keys) :=
  inferInstanceAs (Decidable (∀ key ∈ keys, (k.get? key).isSome → (k.counter? key).isSome))

/-- Whether the counter under a key was last accessed before a time. -/
def isBefore (k : Keyspace) (at_ : UInt64) (key : Bytes) : Bool :=
  (k.counter? key).any (·.lastAccess < at_)

/-- Whether the counter under a key holds a later time in a second table. -/
def raises (k k' : Keyspace) (key : Bytes) : Bool :=
  (k'.counter? key).any fun c => k.isBefore c.lastAccess key

/-- A table has an access at a time in the counters under some keys, and is another one
otherwise. -/
structure Stamps (k : Keyspace) (keys : List Bytes) (at_ : UInt64) (k' : Keyspace) : Prop where
  counters : ∀ key ∈ keys, k'.counter? key = (k.counter? key).map (Counter.stamped at_)
  others : ∀ key, (key ∈ keys → k.counter? key = none) → k'.get? key = k.get? key

section
variable {k k' k'' : Keyspace} {keys : List Bytes} {key : Bytes} {at_ : UInt64} {c : Counter}

theorem counter?_of_get? {v : Bytes} (hv : k.get? key = some v) :
    k.counter? key = (Counter.decode v).toOption := by
  rw [counter?, hv, Option.bind_some]

/-- What is under a key is the written form of its counter. -/
theorem get?_of_counter? (h : k.counter? key = some c) : k.get? key = some c.encode := by
  obtain ⟨v, hv, hc⟩ := Option.bind_eq_some_iff.mp h
  cases hdecode : Counter.decode v with
  | error e =>
    rw [hdecode] at hc
    cases hc
  | ok c' =>
    rw [hdecode] at hc
    cases hc
    rw [hv, Counter.encode_of_decode hdecode]

theorem counter?_congr (h : k'.get? key = k.get? key) : k'.counter? key = k.counter? key := by
  rw [counter?, counter?, h]

namespace Stamps

theorem counter?_eq (h : k.Stamps keys at_ k') (key : Bytes) : k'.counter? key =
    if key ∈ keys then (k.counter? key).map (Counter.stamped at_) else k.counter? key := by
  split
  · rename_i hmem
    exact h.counters key hmem
  · rename_i hmem
    exact counter?_congr (h.others key fun hin => absurd hin hmem)

/-- No entry appears and none goes. -/
theorem isSome_get?_eq (h : k.Stamps keys at_ k') (key : Bytes) :
    (k'.get? key).isSome = (k.get? key).isSome := by
  by_cases hkey : key ∈ keys → k.counter? key = none
  · rw [h.others key hkey]
  · obtain ⟨hmem, hne⟩ := Classical.not_imp.mp hkey
    obtain ⟨c, hc⟩ := Option.ne_none_iff_exists'.mp hne
    have hc' : k'.counter? key = some (c.stamped at_) := by
      rw [h.counters key hmem, hc, Option.map_some]
    rw [get?_of_counter? hc, get?_of_counter? hc']
    rfl

theorem isSome_counter?_eq (h : k.Stamps keys at_ k') (key : Bytes) :
    (k'.counter? key).isSome = (k.counter? key).isSome := by
  rw [h.counter?_eq key]
  split
  · exact Option.isSome_map
  · rfl

/-- Whether counters are damaged does not change. -/
theorem canRead_iff (h : k.Stamps keys at_ k') (keys' : List Bytes) :
    k'.CanRead keys' ↔ k.CanRead keys' := by
  simp only [CanRead, h.isSome_get?_eq, h.isSome_counter?_eq]

theorem refl (k : Keyspace) (at_ : UInt64) : k.Stamps [] at_ k := ⟨nofun, fun _ _ => rfl⟩

theorem trans {keys' : List Bytes} (h : k.Stamps keys at_ k') (h' : k'.Stamps keys' at_ k'') :
    k.Stamps (keys ++ keys') at_ k'' := by
  refine ⟨fun key hmem => ?_, fun key hnone => ?_⟩
  · rw [h'.counter?_eq, h.counter?_eq]
    -- a key of both lists is stamped twice
    by_cases hin : key ∈ keys <;> by_cases hin' : key ∈ keys'
    · rw [if_pos hin', if_pos hin, Option.map_map]
      congr 1
      funext c
      exact Counter.stamped_stamped
    · rw [if_neg hin', if_pos hin]
    · rw [if_pos hin', if_neg hin]
    · exact absurd (List.mem_append.mp hmem) (not_or.mpr ⟨hin, hin'⟩)
  · have hfirst := h.others key fun hin => hnone (List.mem_append_left _ hin)
    rw [← hfirst]
    refine h'.others key fun hin => ?_
    rw [counter?_congr hfirst]
    exact hnone (List.mem_append_right _ hin)

/-- A counter was raised if it was named and held an earlier time. -/
theorem raises_eq (h : k.Stamps keys at_ k') (key : Bytes) :
    k.raises k' key = (decide (key ∈ keys) && k.isBefore at_ key) := by
  rw [raises, h.counter?_eq key]
  cases hc : k.counter? key with
  | none => simp [isBefore, hc]
  | some c =>
    by_cases hmem : key ∈ keys
    · simp only [hmem, if_true, Option.map_some, Option.any_some, isBefore, hc, decide_true,
        Bool.true_and, decide_eq_decide]
      refine ⟨fun hlt => ?_, fun hlt => UInt64.lt_of_lt_of_le hlt Counter.le_stamped⟩
      rcases c.lastAccess_stamped_eq_or at_ with heq | heq
      · rw [heq] at hlt
        exact absurd hlt (UInt64.lt_irrefl _)
      · rwa [heq] at hlt
    · simp [hmem, isBefore, hc]

end Stamps
end

/-! ### One batch -/

section
variable {k k' : Keyspace} {keys : List Bytes} {key : Bytes} {at_ : UInt64}

theorem canRead_cons : k.CanRead (key :: keys) ↔
    ((k.get? key).isSome → (k.counter? key).isSome) ∧ k.CanRead keys :=
  List.forall_mem_cons

/-- An access stamps the counter that it names, if there is one, and fails if it is damaged. -/
theorem touchOne_cases (k : Keyspace) (at_ : UInt64) (n : Nat) (a : Access) :
    (¬ k.CanRead [Key.counter a.id a.serial] ∧ ∃ e, touchOne at_ (n, k) a = .error e) ∨
    (k.CanRead [Key.counter a.id a.serial] ∧ ∃ k', k.Stamps [Key.counter a.id a.serial] at_ k' ∧
      touchOne at_ (n, k) a =
        .ok (n + if k.isBefore at_ (Key.counter a.id a.serial) then 1 else 0, k')) := by
  rw [touchOne]
  generalize Key.counter a.id a.serial = key
  cases hv : k.get? key with
  | none =>
    have hc : k.counter? key = none := by rw [counter?, hv, Option.bind_none]
    refine .inr ⟨by simp [CanRead, hv], k, ⟨by simp [hc], fun _ _ => rfl⟩, ?_⟩
    simp [isBefore, hc]
  | some v =>
    have hc := counter?_of_get? hv
    cases hdecode : Counter.decode v with
    | error e =>
      rw [hdecode] at hc
      refine .inl ⟨fun hread => ?_, e, by simp [hdecode, Bind.bind, Except.bind]⟩
      have hsome := hread key (List.mem_singleton_self key) (by rw [hv]; rfl)
      rw [hc] at hsome
      cases hsome
    | ok c =>
      rw [hdecode] at hc
      replace hc : k.counter? key = some c := hc
      refine .inr ⟨by simp [CanRead, hc], ?_⟩
      simp only [hdecode, Bind.bind, Except.bind, isBefore, hc, Option.any_some]
      by_cases hle : at_ ≤ c.lastAccess
      · refine ⟨k, ⟨by simp [hc, Counter.stamped_of_le hle], fun _ _ => rfl⟩, ?_⟩
        simp [hle, UInt64.not_lt.mpr hle, pure, Except.pure]
      · have hlt := UInt64.not_le.mp hle
        refine ⟨k.insert key { c with lastAccess := at_ }.encode, ⟨?_, fun key' hkey' => ?_⟩, ?_⟩
        · rintro key' hmem
          obtain rfl := List.mem_singleton.mp hmem
          rw [counter?, SortedMap.get?_insert, if_pos rfl, Option.bind_some,
            Counter.decode_encode, hc, Option.map_some, Counter.stamped, if_pos hlt]
          rfl
        · rw [SortedMap.get?_insert, if_neg]
          rintro rfl
          cases hc.symm.trans (hkey' (List.mem_singleton_self _))
        · simp [hle, hlt, pure, Except.pure]

/-- The counters that were before a time, after an access at it. -/
theorem card_isBefore (h : k.Stamps [key] at_ k') (keys : List Bytes) :
    (if k.isBefore at_ key then 1 else 0) + (keys.toFinset.filter (k'.isBefore at_ ·)).card =
      ((key :: keys).toFinset.filter (k.isBefore at_ ·)).card := by
  have hafter : ∀ x, k'.isBefore at_ x = true ↔ x ≠ key ∧ k.isBefore at_ x = true := by
    intro x
    simp only [isBefore, h.counter?_eq x, List.mem_singleton]
    by_cases hx : x = key
    · cases k.counter? x <;> simp [hx, UInt64.not_lt.mpr Counter.le_stamped]
    · simp [hx]
  by_cases hbefore : k.isBefore at_ key = true
  · -- the access takes its counter out of those that are left to be raised
    have hinsert : (key :: keys).toFinset.filter (k.isBefore at_ ·) =
        insert key (keys.toFinset.filter (k'.isBefore at_ ·)) := by
      ext x
      rw [List.toFinset_cons, Finset.filter_insert, if_pos hbefore, Finset.mem_insert,
        Finset.mem_insert, Finset.mem_filter, Finset.mem_filter, hafter]
      tauto
    have hout : key ∉ keys.toFinset.filter (k'.isBefore at_ ·) := fun hin =>
      ((hafter key).mp (Finset.mem_filter.mp hin).2).1 rfl
    rw [if_pos hbefore, hinsert, Finset.card_insert_of_notMem hout, Nat.add_comm]
  · have hsame : keys.toFinset.filter (k'.isBefore at_ ·) =
        keys.toFinset.filter (k.isBefore at_ ·) := by
      refine Finset.filter_congr fun x _ => ?_
      rw [hafter]
      refine and_iff_right_of_imp fun hx hkey => hbefore ?_
      rwa [hkey] at hx
    rw [if_neg hbefore, Nat.zero_add, hsame, List.toFinset_cons, Finset.filter_insert,
      if_neg hbefore]

/-- A batch stamps the counters that it names, or fails if one of them is damaged. -/
theorem touches_cases (k : Keyspace) (at_ : UInt64) (n : Nat) (batch : List Access) :
    let keys := batch.map fun a => Key.counter a.id a.serial
    (¬ k.CanRead keys ∧ ∃ e, batch.foldlM (touchOne at_) (n, k) = .error e) ∨
    (k.CanRead keys ∧ ∃ k', k.Stamps keys at_ k' ∧ batch.foldlM (touchOne at_) (n, k) =
      .ok (n + (keys.toFinset.filter (k.isBefore at_ ·)).card, k')) := by
  induction batch generalizing n k with
  | nil => exact .inr ⟨nofun, k, .refl k at_, rfl⟩
  | cons a batch ih =>
    dsimp only at ih ⊢
    rw [List.map_cons, canRead_cons, List.foldlM_cons]
    rcases touchOne_cases k at_ n a with ⟨hdamaged, e, herror⟩ | ⟨hread, k', hstamps, hok⟩
    · refine .inl ⟨fun h => hdamaged (canRead_cons.mpr ⟨h.1, nofun⟩), e, ?_⟩
      rw [herror]
      rfl
    · have hfirst := (canRead_cons.mp hread).1
      rw [hok]
      rcases ih k' (n + if k.isBefore at_ (Key.counter a.id a.serial) then 1 else 0) with
        ⟨hdamaged, e, herror⟩ | ⟨hrest, k'', hstamps', hok'⟩
      · exact .inl ⟨fun h => hdamaged ((hstamps.canRead_iff _).mpr h.2), e, herror⟩
      · refine .inr ⟨⟨hfirst, (hstamps.canRead_iff _).mp hrest⟩, k'', hstamps.trans hstamps', ?_⟩
        rw [← card_isBefore hstamps, ← Nat.add_assoc]
        exact hok'

theorem keys_nodup (k : Keyspace) : k.keys.Nodup := by
  refine List.pairwise_map.mpr (k.sorted.imp fun {a b} hlt heq => ?_)
  rw [heq] at hlt
  exact SortedMap.not_compare_self_lt _ hlt

/-- The counters that a stamp raises are those that were before its time. -/
theorem length_raises (h : k.Stamps keys at_ k') :
    (k.keys.filter (k.raises k')).length = (keys.toFinset.filter (k.isBefore at_ ·)).card := by
  rw [← List.toFinset_card_of_nodup (k.keys_nodup.filter _)]
  congr 1
  ext key
  rw [List.mem_toFinset, List.mem_filter, Finset.mem_filter, List.mem_toFinset, h.raises_eq,
    Bool.and_eq_true, decide_eq_true_eq, and_iff_right_of_imp]
  -- what has a counter has a value
  rintro ⟨-, hbefore⟩
  rw [isBefore, Option.any_eq_true] at hbefore
  obtain ⟨c, hc, -⟩ := hbefore
  exact SortedMap.mem_keys.mpr (by rw [get?_of_counter? hc]; rfl)

/-- **A batch is noted as a whole or not at all.** -/
theorem touch_cases (k : Keyspace) (b : AccessBatch) :
    (k.CanRead b.keys ∧ k.Stamps b.keys b.time (k.touchOrDrop b.accesses b.time) ∧
      k.touch b.accesses b.time =
        .ok ((k.keys.filter (k.raises (k.touchOrDrop b.accesses b.time))).length,
          k.touchOrDrop b.accesses b.time)) ∨
    (¬ k.CanRead b.keys ∧ k.touchOrDrop b.accesses b.time = k ∧
      ∃ e, k.touch b.accesses b.time = .error (Counter.corrupt e)) := by
  rcases touches_cases k b.time 0 b.accesses with ⟨hdamaged, e, herror⟩ | ⟨hread, k', hstamps, hok⟩
  · have htouch : k.touch b.accesses b.time = .error (Counter.corrupt e) := by rw [touch, herror]
    exact .inr ⟨hdamaged, by rw [touchOrDrop, htouch], e, htouch⟩
  · have hstamps : k.Stamps b.keys b.time k' := hstamps
    have htouch : k.touch b.accesses b.time =
        .ok (0 + (b.keys.toFinset.filter (k.isBefore b.time ·)).card, k') := by
      rw [touch, hok]
      rfl
    have hdrop : k.touchOrDrop b.accesses b.time = k' := by rw [touchOrDrop, htouch]
    rw [hdrop, htouch, Nat.zero_add, ← length_raises hstamps]
    exact .inl ⟨hread, hstamps, rfl⟩

end

/-! ### Sequences of batches -/

/-- Note batches one after the other; one that fails changes nothing. -/
def touchAll (k : Keyspace) (bs : List AccessBatch) : Keyspace :=
  bs.foldl (fun k b => k.touchOrDrop b.accesses b.time) k

/-- Whether one of several batches that do not fail names a counter at a time.  A batch fails for
what it names alone, since no batch damages or mends a counter. -/
def Noted (k : Keyspace) (bs : List AccessBatch) (key : Bytes) (time : UInt64) : Prop :=
  ∃ b ∈ bs, k.CanRead b.keys ∧ key ∈ b.keys ∧ b.time = time

/-- A table holds what is in another one, with the counters at the greatest of the times at which
they were noted and of the time that they held. -/
structure Merges (k : Keyspace) (noted : Bytes → UInt64 → Prop) (k' : Keyspace) : Prop where
  counters : ∀ key c, k.counter? key = some c → ∃ c', k'.counter? key = some c' ∧
    c'.size = c.size ∧ IsGreatest {time | time = c.lastAccess ∨ noted key time} c'.lastAccess
  others : ∀ key, (∀ time, noted key time → k.counter? key = none) → k'.get? key = k.get? key

section
variable {k k' k'' : Keyspace} {noted : Bytes → UInt64 → Prop} {keys : List Bytes} {at_ : UInt64}

namespace Merges

theorem refl (k : Keyspace) : k.Merges (fun _ _ => False) k := by
  refine ⟨fun key c hc => ⟨c, hc, rfl, .inl rfl, ?_⟩, fun _ _ => rfl⟩
  rintro time (rfl | hnone)
  · exact UInt64.le_refl _
  · exact hnone.elim

theorem isSome_counter?_eq (h : k.Merges noted k') (key : Bytes) :
    (k'.counter? key).isSome = (k.counter? key).isSome := by
  cases hc : k.counter? key with
  | none => rw [counter?_congr (h.others key fun _ _ => hc), hc]
  | some c =>
    obtain ⟨c', hc', -⟩ := h.counters key c hc
    rw [hc']
    rfl

theorem isSome_get?_eq (h : k.Merges noted k') (key : Bytes) :
    (k'.get? key).isSome = (k.get? key).isSome := by
  cases hc : k.counter? key with
  | none => rw [h.others key fun _ _ => hc]
  | some c =>
    obtain ⟨c', hc', -⟩ := h.counters key c hc
    rw [get?_of_counter? hc, get?_of_counter? hc']
    rfl

theorem canRead_iff (h : k.Merges noted k') (keys : List Bytes) :
    k'.CanRead keys ↔ k.CanRead keys := by
  simp only [CanRead, h.isSome_get?_eq, h.isSome_counter?_eq]

/-- A stamp adds its time to those of the counters that it names. -/
theorem stamps (h : k.Merges noted k') (h' : k'.Stamps keys at_ k'') :
    k.Merges (fun key time => noted key time ∨ key ∈ keys ∧ at_ = time) k'' := by
  refine ⟨fun key c hc => ?_, fun key hnone => ?_⟩
  · obtain ⟨c', hc', hsize, hin, hgreatest⟩ := h.counters key c hc
    by_cases hmem : key ∈ keys
    · refine ⟨c'.stamped at_, ?_, Counter.size_stamped.trans hsize, ?_, ?_⟩
      · rw [h'.counters key hmem, hc', Option.map_some]
      · rcases c'.lastAccess_stamped_eq_or at_ with heq | heq
        · rw [heq]
          exact hin.imp_right .inl
        · exact .inr (.inr ⟨hmem, heq.symm⟩)
      · rintro time (rfl | hnoted | ⟨-, rfl⟩)
        · exact UInt64.le_trans (hgreatest (.inl rfl)) Counter.le_lastAccess_stamped
        · exact UInt64.le_trans (hgreatest (.inr hnoted)) Counter.le_lastAccess_stamped
        · exact Counter.le_stamped
    · refine ⟨c', ?_, hsize, hin.imp_right .inl, ?_⟩
      · rw [h'.counter?_eq, if_neg hmem, hc']
      · rintro time (rfl | hnoted | ⟨hmem', -⟩)
        · exact hgreatest (.inl rfl)
        · exact hgreatest (.inr hnoted)
        · exact absurd hmem' hmem
  · have hfirst := h.others key fun time hnoted => hnone time (.inl hnoted)
    rw [← hfirst]
    refine h'.others key fun hmem => ?_
    rw [counter?_congr hfirst]
    exact hnone at_ (.inr ⟨hmem, rfl⟩)

theorem congr {noted' : Bytes → UInt64 → Prop} (h : k.Merges noted k')
    (hsame : ∀ key time, noted key time ↔ noted' key time) : k.Merges noted' k' := by
  have heq : noted = noted' := by
    funext key time
    exact propext (hsame key time)
  rwa [← heq]

/-- **What is noted determines the table**, whatever the order. -/
theorem unique (h : k.Merges noted k') (h' : k.Merges noted k'') : k' = k'' := by
  refine SortedMap.ext_get? fun key => ?_
  cases hc : k.counter? key with
  | none => rw [h.others key fun _ _ => hc, h'.others key fun _ _ => hc]
  | some c =>
    obtain ⟨⟨t, n⟩, hc', hsize, hin, hgreatest⟩ := h.counters key c hc
    obtain ⟨⟨t', n'⟩, hc'', hsize', hin', hgreatest'⟩ := h'.counters key c hc
    obtain rfl : n = n' := hsize.trans hsize'.symm
    obtain rfl : t = t' := UInt64.le_antisymm (hgreatest' hin) (hgreatest hin')
    rw [get?_of_counter? hc', get?_of_counter? hc'']

end Merges

theorem touchAll_append (k : Keyspace) (bs bs' : List AccessBatch) :
    k.touchAll (bs ++ bs') = (k.touchAll bs).touchAll bs' :=
  List.foldl_append

theorem noted_append_singleton {bs : List AccessBatch} {b : AccessBatch} {key : Bytes}
    {time : UInt64} : k.Noted (bs ++ [b]) key time ↔
      k.Noted bs key time ∨ k.CanRead b.keys ∧ key ∈ b.keys ∧ b.time = time := by
  simp only [Noted, List.mem_append, List.mem_singleton, or_and_right, exists_or,
    exists_eq_left]

/-- What batches leave is the merge of what those that do not fail note. -/
theorem merges_touchAll (k : Keyspace) (bs : List AccessBatch) :
    k.Merges (k.Noted bs) (k.touchAll bs) := by
  induction bs using List.reverseRecOn with
  | nil => exact (Merges.refl k).congr fun key time => by simp [Noted]
  | append_singleton bs b ih =>
    rw [touchAll_append]
    rcases touch_cases (k.touchAll bs) b with ⟨hread, hstamps, -⟩ | ⟨hdamaged, hsame, -⟩
    · refine (ih.stamps hstamps).congr fun key time => ?_
      rw [noted_append_singleton, and_iff_right ((ih.canRead_iff _).mp hread)]
    · have hleft : (k.touchAll bs).touchAll [b] = k.touchAll bs := hsame
      rw [hleft]
      refine ih.congr fun key time => ?_
      rw [noted_append_singleton, or_iff_left fun h => hdamaged ((ih.canRead_iff _).mpr h.1)]

/-- **Noting accesses is a monotone merge that no order matters to.**  Batches leave every counter
with its size and the greatest of its time and of those at which it was named, and everything else
as it was.  Others that name the same counters at the same times leave the same table.  Each answers
with the number of counters that it raised; one that meets a damaged counter answers that it is
damaged and changes nothing. -/
theorem touchAll_merges (k : Keyspace) (bs : List AccessBatch) :
    k.Merges (k.Noted bs) (k.touchAll bs) ∧
    (∀ bs', (∀ key time, k.Noted bs' key time ↔ k.Noted bs key time) →
      k.touchAll bs' = k.touchAll bs) ∧
    ∀ earlier b later, bs = earlier ++ b :: later →
      let before := k.touchAll earlier
      let after := k.touchAll (earlier ++ [b])
      (k.CanRead b.keys → before.touch b.accesses b.time =
        .ok ((before.keys.filter (before.raises after)).length, after)) ∧
      (¬ k.CanRead b.keys → after = before ∧
        ∃ e, before.touch b.accesses b.time = .error (Counter.corrupt e)) := by
  refine ⟨merges_touchAll k bs, fun bs' hsame => ?_, fun earlier b later _ => ?_⟩
  · exact ((merges_touchAll k bs').congr hsame).unique (merges_touchAll k bs)
  · intro before after
    have hafter : after = before.touchOrDrop b.accesses b.time := touchAll_append k earlier [b]
    have hread : before.CanRead b.keys ↔ k.CanRead b.keys :=
      (merges_touchAll k earlier).canRead_iff _
    rw [hafter, ← hread]
    rcases touch_cases before b with ⟨hb, -, hok⟩ | ⟨hb, hdropped, herror⟩
    · exact ⟨fun _ => hok, fun hdamaged => absurd hb hdamaged⟩
    · exact ⟨fun hok => absurd hok hb, fun _ => ⟨hdropped, herror⟩⟩

/-- Two batches name one counter at two times, the first one twice and next to a record without a
counter.  A third one names it together with a damaged counter, and counts for nothing. -/
theorem touchAll_merges_damaged :
    let live : EventId := ⟨List.replicate 32 1, rfl⟩
    let gone : EventId := ⟨List.replicate 32 2, rfl⟩
    let damaged : EventId := ⟨List.replicate 32 3, rfl⟩
    let k : Keyspace := .ofList [(Key.counter live 10, (Counter.mk 100 64).encode),
      (Key.counter damaged 12, [0])]
    let first : AccessBatch := ⟨[⟨live, 10⟩, ⟨gone, 11⟩, ⟨live, 10⟩], 500⟩
    let second : AccessBatch := ⟨[⟨live, 10⟩], 300⟩
    let third : AccessBatch := ⟨[⟨live, 10⟩, ⟨damaged, 12⟩], 900⟩
    k.touchAll [third, second, first] = k.touchAll [first, second, third] ∧
      (∃ c, (k.touchAll [first, second, third]).counter? (Key.counter live 10) = some c ∧
        c.size = 64 ∧ c.lastAccess = 500) ∧
      (k.touchAll [first, second, third]).get? (Key.counter gone 11) = none ∧
      (k.touch first.accesses first.time).toOption.map (·.1) = some 1 ∧
      ∃ e, (k.touchAll [first, second]).touch third.accesses third.time =
        .error (Counter.corrupt e) := by
  intro live gone damaged k first second third
  obtain ⟨hmerges, hsame, hanswers⟩ := touchAll_merges k [first, second, third]
  have hthird : ¬ k.CanRead third.keys := by decide +kernel
  refine ⟨hsame _ fun key time => ?_, ?_, ?_, ?_, ?_⟩
  · simp only [Noted, List.mem_cons, List.not_mem_nil, or_false, exists_eq_or_imp,
      exists_eq_left]
    tauto
  · obtain ⟨c, hc, hsize, hin, hgreatest⟩ :=
      hmerges.counters (Key.counter live 10) ⟨100, 64⟩ (by decide +kernel)
    have hfirst : 500 ≤ c.lastAccess := hgreatest
      (.inr ⟨first, List.mem_cons_self, by decide +kernel, by decide +kernel, rfl⟩)
    refine ⟨c, hc, hsize, UInt64.le_antisymm ?_ hfirst⟩
    rcases hin with heq | ⟨b, hb, hread, -, htime⟩
    · rw [heq]
      decide
    · simp only [List.mem_cons, List.not_mem_nil, or_false] at hb
      rcases hb with rfl | rfl | rfl
      · exact UInt64.le_of_eq htime.symm
      · rw [← htime]
        decide
      · exact absurd hread hthird
  · rw [hmerges.others]
    · decide +kernel
    · exact fun _ _ => by decide +kernel
  · have hok := (hanswers [] first _ rfl).1 (by decide +kernel)
    change k.touch first.accesses first.time = _ at hok
    rw [hok]
    decide +kernel
  · exact ((hanswers [first, second] third [] rfl).2 hthird).2

end
end Keyspace
end EventArchive
