import EventArchive.Proofs.Meets
import EventArchive.Proofs.Reachable

/-! # Scans of a table that changes

Each page of a scan is read from the table as it is then, and the next page starts
below the last key that this one saw.  A scan of a table that stays as it is finds
what one pass finds.  Of a table that changes between the pages as it likes, the
scan still goes down through the keys: what it yields has strictly descending keys,
and a record that stays throughout, with its key, is yielded once
(`Scan.pages_complete`).

A page sees the keys below its bound up to the first that is too old, as far as there
is room (`Scan.seenKeys`).  Every statement about a page is read off that list, and
every one about a scan is an induction over its pages.
-/
namespace EventArchive

/-- In a list without repetitions, what passes a test that one member alone passes. -/
theorem filter_eq_singleton {α : Type} {p : α → Bool} {l : List α} {a : α} (hl : l.Nodup)
    (ha : a ∈ l) (hp : ∀ b ∈ l, p b = true ↔ b = a) : l.filter p = [a] := by
  obtain ⟨pre, suf, rfl⟩ := List.append_of_mem ha
  have hmid := List.nodup_middle.mp hl
  obtain ⟨hnot, -⟩ := List.nodup_cons.mp hmid
  have hpre : pre.filter p = [] := by
    rw [List.filter_eq_nil_iff]
    intro b hb hpass
    have heq := (hp b (List.mem_append_left _ hb)).mp hpass
    exact hnot (List.mem_append_left _ (heq ▸ hb))
  have hsuf : suf.filter p = [] := by
    rw [List.filter_eq_nil_iff]
    intro b hb hpass
    have heq := (hp b (List.mem_append_right _ (List.mem_cons_of_mem _ hb))).mp hpass
    exact hnot (List.mem_append_right _ (heq ▸ hb))
  rw [List.filter_append, hpre, List.filter_cons_of_pos ((hp a ha).mpr rfl), hsuf]
  rfl

namespace Scan
variable {s : Scan} {k : Keyspace} {residual : Option Filter} {since : UInt64} {pageSize : Nat}
  {u next key : Bytes} {hit : Hit} {y : Bytes × Hit}

/-! ### One page -/

/-- The keys that a page sees. -/
def pageKeys (s : Scan) (k : Keyspace) (since : UInt64) (pageSize : Nat) (u : Bytes) :
    List Bytes :=
  s.seenKeys since pageSize (s.keysBelow k u)

/-- What a page yields: its hits, each with the key that led to it. -/
def yielded (s : Scan) (k : Keyspace) (residual : Option Filter) (since : UInt64)
    (pageSize : Nat) (u : Bytes) : List (Bytes × Hit) :=
  (s.pageKeys k since pageSize u).filterMap fun key => (s.hit? k residual key).map (key, ·)

theorem mem_yielded : y ∈ s.yielded k residual since pageSize u ↔
    y.1 ∈ s.pageKeys k since pageSize u ∧ s.hit? k residual y.1 = some y.2 := by
  obtain ⟨key, hit⟩ := y
  rw [yielded, List.mem_filterMap]
  constructor
  · rintro ⟨key', hmem, hy⟩
    obtain ⟨hit', hhit, heq⟩ := Option.map_eq_some_iff.mp hy
    obtain ⟨rfl, rfl⟩ := Prod.mk.inj heq
    exact ⟨hmem, hhit⟩
  · rintro ⟨hmem, hhit⟩
    exact ⟨key, hmem, Option.map_eq_some_iff.mpr ⟨hit, hhit, rfl⟩⟩

/-- A page is full, and the next one starts at the last key that it sees, or it is the last. -/
theorem pageKeys_cases (s : Scan) (k : Keyspace) (residual : Option Filter) (since : UInt64)
    (pageSize : Nat) (u : Bytes) :
    (∃ pre key suf, s.keysBelow k u = pre ++ key :: suf ∧
      s.pageKeys k since pageSize u = pre ++ [key] ∧
      (s.readPage k residual since pageSize u).resume = some key) ∨
    (s.pageKeys k since pageSize u = (s.keysBelow k u).takeWhile (!s.isPast since ·) ∧
      (s.readPage k residual since pageSize u).resume = none) := by
  unfold pageKeys readPage
  rcases readKeys_cases s k residual since pageSize (s.keysBelow k u) with
    ⟨pre, key, suf, hkeys, hseen, hpage⟩ | ⟨hseen, hpage⟩
  · refine .inl ⟨pre, key, suf, hkeys, hseen, ?_⟩
    rw [hpage]
  · refine .inr ⟨hseen, ?_⟩
    rw [hpage]

/-- What a page yields are its hits. -/
theorem map_snd_yielded : (s.yielded k residual since pageSize u).map Prod.snd =
    (s.readPage k residual since pageSize u).hits := by
  have hyielded : (s.yielded k residual since pageSize u).map Prod.snd =
      (s.pageKeys k since pageSize u).filterMap (s.hit? k residual) := by
    rw [yielded, List.map_filterMap]
    refine List.filterMap_congr fun key _ => ?_
    rw [Option.map_map]
    exact Option.map_id_apply
  rw [hyielded, pageKeys, readPage]
  rcases readKeys_cases s k residual since pageSize (s.keysBelow k u) with
    ⟨pre, key, suf, -, hseen, hpage⟩ | ⟨hseen, hpage⟩
  · rw [hseen, hpage]
  · rw [hseen, hpage]

theorem mem_keysBelow_of_mem_pageKeys (h : key ∈ s.pageKeys k since pageSize u) :
    key ∈ s.keysBelow k u :=
  (List.takeWhile_sublist _).subset (List.mem_of_mem_take h)

/-- A page yields its hits in descending order of their keys. -/
theorem yielded_descending :
    (s.yielded k residual since pageSize u).Pairwise fun a b => compare b.1 a.1 = .lt := by
  have hsorted : (s.pageKeys k since pageSize u).Pairwise fun a b => compare b a = .lt :=
    (s.keysBelow_sorted k u).sublist ((List.take_sublist _ _).trans (List.takeWhile_sublist _))
  rw [yielded, List.pairwise_filterMap]
  refine hsorted.imp fun {a b} hlt x hx y hy => ?_
  obtain ⟨-, -, rfl⟩ := Option.map_eq_some_iff.mp hx
  obtain ⟨-, -, rfl⟩ := Option.map_eq_some_iff.mp hy
  exact hlt

section Resume
variable (hresume : (s.readPage k residual since pageSize u).resume = some next)
include hresume

/-- The next page starts at a key of this one, below its bound. -/
theorem resume_lt : (compare s.stem next).isLE = true ∧ compare next u = .lt := by
  rcases pageKeys_cases s k residual since pageSize u with
    ⟨pre, key, suf, hkeys, -, hpage⟩ | ⟨-, hpage⟩
  · obtain rfl := Option.some.inj (hresume.symm.trans hpage)
    have hmem : next ∈ s.keysBelow k u := by
      rw [hkeys]
      exact List.mem_append_right _ List.mem_cons_self
    exact (mem_keysBelow.mp hmem).2
  · rw [hpage] at hresume
    cases hresume

/-- No key that a page sees is below the bound of the next page. -/
theorem resume_le (hkey : key ∈ s.pageKeys k since pageSize u) :
    (compare next key).isLE = true := by
  rcases pageKeys_cases s k residual since pageSize u with
    ⟨pre, last, suf, hkeys, hseen, hpage⟩ | ⟨-, hpage⟩
  · obtain rfl := Option.some.inj (hresume.symm.trans hpage)
    have hsorted := s.keysBelow_sorted k u
    rw [hkeys, List.pairwise_append] at hsorted
    rw [hseen, List.mem_append, List.mem_singleton] at hkey
    rcases hkey with hpre | rfl
    · have hlt := hsorted.2.2 key hpre next List.mem_cons_self
      rw [hlt]
      rfl
    · rw [Std.ReflOrd.compare_self]
      rfl
  · rw [hpage] at hresume
    cases hresume

/-- A page leaves out no key above the bound of the next page. -/
theorem seen_or_below (hkey : key ∈ s.keysBelow k u) :
    key ∈ s.pageKeys k since pageSize u ∨ compare key next = .lt := by
  rcases pageKeys_cases s k residual since pageSize u with
    ⟨pre, last, suf, hkeys, hseen, hpage⟩ | ⟨-, hpage⟩
  · obtain rfl := Option.some.inj (hresume.symm.trans hpage)
    have hsorted := s.keysBelow_sorted k u
    rw [hkeys, List.pairwise_append, List.pairwise_cons] at hsorted
    rw [hkeys, List.append_cons, List.mem_append] at hkey
    rcases hkey with hkey | hkey
    · exact .inl (hseen ▸ hkey)
    · exact .inr (hsorted.2.1.1 key hkey)
  · rw [hpage] at hresume
    cases hresume

end Resume

/-- The last page leaves out no key, if none up to there is too old. -/
theorem seen_of_end (hend : (s.readPage k residual since pageSize u).resume = none)
    (hkey : key ∈ s.keysBelow k u)
    (hrecent : ∀ x ∈ s.keysBelow k u, (compare key x).isLE = true → s.isPast since x = false) :
    key ∈ s.pageKeys k since pageSize u := by
  rcases pageKeys_cases s k residual since pageSize u with ⟨_, _, _, -, -, hpage⟩ | ⟨hseen, -⟩
  · rw [hend] at hpage
    cases hpage
  · obtain ⟨pre, suf, hkeys⟩ := List.append_of_mem hkey
    have hsorted := s.keysBelow_sorted k u
    rw [hkeys, List.pairwise_append] at hsorted
    have hpre : ∀ x ∈ pre ++ [key], (!s.isPast since x) = true := by
      intro x hx
      have hmem : x ∈ s.keysBelow k u := by
        rw [hkeys, List.append_cons]
        exact List.mem_append_left _ hx
      rw [hrecent x hmem]
      · rfl
      rw [List.mem_append, List.mem_singleton] at hx
      rcases hx with hx | rfl
      · rw [hsorted.2.2 x hx key List.mem_cons_self]
        rfl
      · rw [Std.ReflOrd.compare_self]
        rfl
    rw [hseen, hkeys, List.append_cons, List.takeWhile_append_of_pos hpre]
    exact List.mem_append_left _ (List.mem_append_right _ (List.mem_singleton_self key))

/-! ### A scan read to its end -/

/-- **A scan that runs to its end**, page by page, each page read from a table of its own: the
tables in their order, the bound of the first page, and what the pages yield. -/
inductive Reads (s : Scan) (residual : Option Filter) (since : UInt64) (pageSize : Nat) :
    List Keyspace → Bytes → List (Bytes × Hit) → Prop
  | last {k : Keyspace} {u : Bytes}
      (hend : (s.readPage k residual since pageSize u).resume = none) :
      Reads s residual since pageSize [k] u (s.yielded k residual since pageSize u)
  | next {k : Keyspace} {u next : Bytes} {tables : List Keyspace} {ys : List (Bytes × Hit)}
      (hresume : (s.readPage k residual since pageSize u).resume = some next)
      (hrest : Reads s residual since pageSize tables next ys) :
      Reads s residual since pageSize (k :: tables) u
        (s.yielded k residual since pageSize u ++ ys)

variable {tables : List Keyspace} {ys : List (Bytes × Hit)}

namespace Reads

/-- Every hit comes from a key below the bound, in the table that its page was read from. -/
theorem sound (h : s.Reads residual since pageSize tables u ys) (hy : y ∈ ys) :
    ∃ k ∈ tables, y.1 ∈ s.keysBelow k u ∧ s.isPast since y.1 = false ∧
      s.hit? k residual y.1 = some y.2 := by
  have hpage : ∀ {k u}, y ∈ s.yielded k residual since pageSize u →
      y.1 ∈ s.keysBelow k u ∧ s.isPast since y.1 = false ∧ s.hit? k residual y.1 = some y.2 := by
    intro k u hmem
    obtain ⟨hseen, hhit⟩ := mem_yielded.mp hmem
    have hrecent := recent_of_mem_seenKeys hseen
    exact ⟨mem_keysBelow_of_mem_pageKeys hseen, by simpa using hrecent, hhit⟩
  induction h with
  | last hend => exact ⟨_, List.mem_cons_self, hpage hy⟩
  | next hresume hrest ih =>
    rcases List.mem_append.mp hy with hy | hy
    · exact ⟨_, List.mem_cons_self, hpage hy⟩
    · obtain ⟨k, hk, hbelow, hrecent, hhit⟩ := ih hy
      obtain ⟨hv, hle, hlt⟩ := mem_keysBelow.mp hbelow
      have hlt' := Std.TransCmp.lt_trans hlt (resume_lt hresume).2
      exact ⟨k, List.mem_cons_of_mem _ hk, mem_keysBelow.mpr ⟨hv, hle, hlt'⟩, hrecent, hhit⟩

/-- **The keys only go down**, whatever happens to the table between the pages. -/
theorem descending (h : s.Reads residual since pageSize tables u ys) :
    ys.Pairwise fun a b => compare b.1 a.1 = .lt := by
  induction h with
  | last hend => exact yielded_descending
  | next hresume hrest ih =>
    refine List.pairwise_append.mpr ⟨yielded_descending, ih, fun a ha b hb => ?_⟩
    have hle := resume_le hresume (mem_yielded.mp ha).1
    obtain ⟨_, -, hbelow, -⟩ := hrest.sound hb
    exact Std.TransCmp.lt_of_lt_of_isLE (mem_keysBelow.mp hbelow).2.2 hle

/-- **What stays is met**: a key that every table has, up to which none has one that is too old,
leads to a hit if it is one in every table. -/
theorem complete (h : s.Reads residual since pageSize tables u ys)
    (hkey : ∀ k ∈ tables, key ∈ s.keysBelow k u)
    (hrecent : ∀ k ∈ tables, ∀ x ∈ s.keysBelow k u, (compare key x).isLE = true →
      s.isPast since x = false)
    (hhit : ∀ k ∈ tables, s.hit? k residual key = some hit) : (key, hit) ∈ ys := by
  induction h with
  | last hend =>
    have hseen := seen_of_end hend (hkey _ List.mem_cons_self) (hrecent _ List.mem_cons_self)
    exact mem_yielded.mpr ⟨hseen, hhit _ List.mem_cons_self⟩
  | next hresume hrest ih =>
    rcases seen_or_below hresume (hkey _ List.mem_cons_self) with hseen | hbelow
    · exact List.mem_append_left _ (mem_yielded.mpr ⟨hseen, hhit _ List.mem_cons_self⟩)
    · apply List.mem_append_right
      refine ih (fun k hk => ?_) (fun k hk x hx hle => ?_)
        fun k hk => hhit k (List.mem_cons_of_mem _ hk)
      · obtain ⟨hv, hle, -⟩ := mem_keysBelow.mp (hkey k (List.mem_cons_of_mem _ hk))
        exact mem_keysBelow.mpr ⟨hv, hle, hbelow⟩
      · -- the bound only falls, so no key above it comes back
        obtain ⟨hv, hle', hlt⟩ := mem_keysBelow.mp hx
        have hlt' := Std.TransCmp.lt_trans hlt (resume_lt hresume).2
        exact hrecent k (List.mem_cons_of_mem _ hk) x (mem_keysBelow.mpr ⟨hv, hle', hlt'⟩) hle

/-- Of a table that stays as it is, a scan finds what one pass finds. -/
theorem map_snd (h : s.Reads residual since pageSize tables u ys) (hsame : ∀ t ∈ tables, t = k) :
    ys.map Prod.snd = s.hitsBelow k residual since u := by
  induction h with
  | last hend =>
    obtain rfl := hsame _ List.mem_cons_self
    rcases readPage_cases s _ residual since pageSize _ with ⟨_, hresume, -⟩ | ⟨-, hhits⟩
    · rw [hend] at hresume
      cases hresume
    · rw [map_snd_yielded, hhits]
  | next hresume hrest ih =>
    obtain rfl := hsame _ List.mem_cons_self
    rcases readPage_cases s _ residual since pageSize _ with ⟨_, hresume', -, hhits⟩ | ⟨hend, -⟩
    · obtain rfl := Option.some.inj (hresume.symm.trans hresume')
      rw [List.map_append, ih fun t ht => hsame t (List.mem_cons_of_mem _ ht), map_snd_yielded,
        hhits]
    · rw [hresume] at hend
      cases hend

end Reads

/-- A scan of a table that stays as it is ends, since each page but the last takes a key. -/
theorem exists_reads (s : Scan) (k : Keyspace) (residual : Option Filter) (since : UInt64)
    (pageSize : Nat) (u : Bytes) : ∃ n ≤ (s.keysBelow k u).length + 1, ∃ ys,
      s.Reads residual since pageSize (List.replicate n k) u ys := by
  induction hlength : (s.keysBelow k u).length using Nat.strong_induction_on generalizing u with
  | h length ih =>
    subst hlength
    rcases readPage_cases s k residual since pageSize u with ⟨next, hresume, hfewer, -⟩ | ⟨hend, -⟩
    · obtain ⟨n, hn, ys, hreads⟩ := ih _ hfewer next rfl
      exact ⟨n + 1, by omega, _, .next hresume hreads⟩
    · exact ⟨1, by omega, _, .last hend⟩

/-! ### Records that stay -/

/-- A key leads to the record of its serial. -/
theorem serial?_of_hit? (h : s.hit? k residual key = some hit) :
    Key.serial? key = some hit.serial := by
  rw [hit?, if_pos (owns_of_hit? h), resolve] at h
  obtain ⟨ser, hser, h⟩ := Option.bind_eq_some_iff.mp h
  obtain ⟨value, -, h⟩ := Option.bind_eq_some_iff.mp h
  rw [hser]
  split at h
  · obtain ⟨-, h⟩ := Option.ite_none_right_eq_some.mp h
    rw [← Option.some.inj h]
  · obtain ⟨-, h⟩ := Option.ite_none_right_eq_some.mp h
    rw [← Option.some.inj h]
  · cases h

/-- Two tables that hold the same record under the serial of a key make the same of the key. -/
theorem hit?_congr {k' : Keyspace} {ser : Serial} (hser : Key.serial? key = some ser)
    (h : k.record? ser = k'.record? ser) : s.hit? k residual key = s.hit? k' residual key := by
  unfold hit? resolve
  rw [hser]
  dsimp only [Option.bind_eq_bind, Option.bind_some]
  rw [h]

/-- Below a key that is too old is no key of the scan that is not. -/
theorem isPast_of_isLE {k' : Keyspace} {x : Bytes} (hx : x ∈ s.keysBelow k s.upper)
    (hkey : key ∈ s.keysBelow k' s.upper) (howns : s.owns key = true)
    (hpast : s.isPast since x = true) (hle : (compare key x).isLE = true) :
    s.isPast since key = true := by
  have huntimed : s.untimed = false := by
    by_contra huntimed
    rw [isPast, timeOf, if_pos (by simpa using huntimed), Option.any_none, Bool.and_false] at hpast
    cases hpast
  have howns' : s.owns x = true := by
    rw [isPast, Bool.and_eq_true] at hpast
    exact hpast.1
  obtain ⟨t, ser, rfl, -⟩ := (mem_keysBelow_upper huntimed).mp ⟨hx, howns'⟩
  obtain ⟨t', ser', rfl, -⟩ := (mem_keysBelow_upper huntimed).mp ⟨hkey, howns⟩
  rw [isPast_stamped huntimed, decide_eq_true_eq] at hpast ⊢
  rcases Ordering.isLE_iff_eq_lt_or_eq_eq.mp hle with hlt | heq
  · exact UInt64.lt_of_le_of_lt (Key.le_of_compare_stamped hlt) hpast
  · obtain ⟨-, rfl, -⟩ := Key.stamped_inj (Std.LawfulEqCmp.eq_of_compare heq)
    exact hpast

/-- Where the keys of a table are those of its records, a scan has one key of a serial. -/
theorem eq_of_serial? {L : Ledger} {ser : Serial} {x : Bytes} (hr : k.Renders L) (hs : s.Indexed)
    (htimes : s.Timed ∨ s.untimed = true) (hkey : key ∈ s.keysBelow k s.upper)
    (howns : s.owns key = true) (hser : Key.serial? key = some ser)
    (hx : x ∈ s.keysBelow k s.upper) (howns' : s.owns x = true)
    (hser' : Key.serial? x = some ser) : x = key := by
  rcases htimes with htimed | huntimed
  · -- both keys hold the time of the event under the serial
    obtain ⟨ser₁, h, hL, hserial, hown⟩ := hs.exists_holding hr hkey
    obtain rfl := Option.some.inj (hser.symm.trans hserial)
    obtain ⟨ser₂, h', hL', hserial', hown'⟩ := hs.exists_holding hr hx
    obtain rfl := Option.some.inj (hser'.symm.trans hserial')
    obtain rfl := Option.some.inj (hL.symm.trans hL')
    have htime := (timeOf_eq (.inl htimed) hx hown').trans (timeOf_eq (.inl htimed) hkey hown).symm
    obtain ⟨t, ser₁, rfl, -⟩ := (mem_keysBelow_upper htimed.untimed).mp ⟨hkey, howns⟩
    obtain ⟨t', ser₂, rfl, -⟩ := (mem_keysBelow_upper htimed.untimed).mp ⟨hx, howns'⟩
    simp only [timeOf, htimed.untimed, Bool.false_eq_true, if_false, Key.timestamp?_stamped,
      Option.getD_some, Option.some.injEq] at htime
    rw [Key.serial?_stamped] at hser hser'
    rw [htime, Option.some.inj hser, Option.some.inj hser']
  · -- a key without a time is its stem and its serial
    have heq : ∀ {y}, y ∈ s.keysBelow k s.upper → s.owns y = true → Key.serial? y = some ser →
        y = s.stem ++ Bytes.bigEndian 8 ser.toNat := by
      intro y hy hlength hserial
      obtain ⟨n, rfl⟩ := (selects_untimed_iff huntimed).mp
        (mem_keysBelow_iff_selects.mp ⟨hy, hlength⟩).1
      rw [Key.serial?_append] at hserial
      rw [Option.some.inj hserial]
    rw [heq hkey howns hser, heq hx howns' hser']

/-- **A key and its record stay** as they are in some tables: all of them have the key, in the range
of the scan and recent enough, and the same value of the record, which makes a hit. -/
structure Stays (s : Scan) (residual : Option Filter) (since : UInt64) (tables : List Keyspace)
    (key : Bytes) (hit : Hit) : Prop where
  within : (compare s.stem key).isLE = true ∧ compare key s.upper = .lt
  recent : s.isPast since key = false
  entry : ∃ v, ∀ k ∈ tables, k.get? key = some v
  value : ∃ v, ∀ k ∈ tables, k.record? hit.serial = some v
  qualifies : ∃ k ∈ tables, s.hit? k residual key = some hit

namespace Stays
variable (h : s.Stays residual since tables key hit)
include h

theorem mem_keysBelow (hk : k ∈ tables) : key ∈ s.keysBelow k s.upper := by
  obtain ⟨v, hv⟩ := h.entry
  exact Scan.mem_keysBelow.mpr ⟨⟨v, hv k hk⟩, h.within⟩

theorem hit?_eq (hk : k ∈ tables) : s.hit? k residual key = some hit := by
  obtain ⟨k', hk', hhit⟩ := h.qualifies
  obtain ⟨v, hv⟩ := h.value
  rw [← hhit]
  exact hit?_congr (serial?_of_hit? hhit) ((hv k hk).trans (hv k' hk').symm)

/-- What stays is yielded. -/
theorem mem (hreads : s.Reads residual since pageSize tables s.upper ys) : (key, hit) ∈ ys := by
  refine hreads.complete (fun k hk => h.mem_keysBelow hk) (fun k hk x hx hle => ?_)
    fun k hk => h.hit?_eq hk
  by_contra hpast
  have hpast' := isPast_of_isLE hx (h.mem_keysBelow hk) (owns_of_hit? (h.hit?_eq hk))
    (by simpa using hpast) hle
  rw [h.recent] at hpast'
  cases hpast'

end Stays

namespace Reads
variable (h : s.Reads residual since pageSize tables s.upper ys)
include h

theorem keys_nodup : (ys.map Prod.fst).Nodup := by
  rw [List.nodup_iff_pairwise_ne, List.pairwise_map]
  refine h.descending.imp fun {a b} hlt heq => ?_
  rw [heq, Std.ReflOrd.compare_self] at hlt
  cases hlt

/-- Where keys hold a time, the times never increase. -/
theorem times (huntimed : s.untimed = false) : ys.Pairwise fun a b =>
    ∃ t t', Key.timestamp? a.1 = some t ∧ Key.timestamp? b.1 = some t' ∧ t' ≤ t := by
  refine h.descending.imp_of_mem fun {a b} ha hb hlt => ?_
  obtain ⟨k, -, hmem, -, hhit⟩ := h.sound ha
  obtain ⟨k', -, hmem', -, hhit'⟩ := h.sound hb
  obtain ⟨t, ser, heq, -⟩ := (mem_keysBelow_upper huntimed).mp ⟨hmem, owns_of_hit? hhit⟩
  obtain ⟨t', ser', heq', -⟩ := (mem_keysBelow_upper huntimed).mp ⟨hmem', owns_of_hit? hhit'⟩
  rw [heq, heq'] at hlt ⊢
  exact ⟨t, t', Key.timestamp?_stamped .., Key.timestamp?_stamped ..,
    Key.le_of_compare_stamped hlt⟩

/-- What stays is yielded once under its key. -/
theorem filter_key (hstays : s.Stays residual since tables key hit) :
    ys.filter (·.1 == key) = [(key, hit)] := by
  refine filter_eq_singleton (.of_map _ h.keys_nodup) (hstays.mem h) fun b hb => ?_
  rw [beq_iff_eq]
  constructor
  · intro heq
    exact List.inj_on_of_nodup_map h.keys_nodup hb (hstays.mem h) heq
  · rintro rfl
    rfl

/-- What stays is yielded once in all, if the keys of the tables are those of their records. -/
theorem filter_serial (hstays : s.Stays residual since tables key hit) (hs : s.Indexed)
    (htimes : s.Timed ∨ s.untimed = true) (htables : ∀ k ∈ tables, ∃ L, k.Renders L) :
    (ys.map Prod.snd).filter (·.serial == hit.serial) = [hit] := by
  have hserial : ∀ b ∈ ys, (b.2.serial == hit.serial) = (b.1 == key) := by
    intro b hb
    obtain ⟨k, hk, hmem, -, hhit⟩ := h.sound hb
    rw [Bool.eq_iff_iff, beq_iff_eq, beq_iff_eq]
    have hkey := hstays.hit?_eq hk
    obtain ⟨L, hr⟩ := htables k hk
    constructor
    · intro heq
      exact eq_of_serial? hr hs htimes (hstays.mem_keysBelow hk) (owns_of_hit? hkey)
        (serial?_of_hit? hkey) hmem (owns_of_hit? hhit) (heq ▸ serial?_of_hit? hhit)
    · intro heq
      have hsame := serial?_of_hit? hkey
      rw [← heq, serial?_of_hit? hhit] at hsame
      exact Option.some.inj hsame
  rw [List.filter_map]
  have hfilter : ys.filter ((fun x : Hit => x.serial == hit.serial) ∘ Prod.snd) =
      [(key, hit)] := by
    rw [← h.filter_key hstays]
    exact List.filter_congr hserial
  rw [hfilter]
  rfl

end Reads

/-! ### Main result -/

/-- **A scan in pages is complete.**

Of a table that stays as it is, a scan ends after at most one page more than it has keys, and finds
what one pass over them finds.

If the table is another one for each page, and the scan runs to its end: no key is yielded twice;
where keys hold a time, the times never increase; every hit is one of its key, in one of the
tables; and a record that stays throughout, with a key in the range of the scan, is yielded once
under that key.  If the scan is one of a plan, and the tables are those of archives that can be
reached, the record has no other key there, and is yielded once in all. -/
theorem pages_complete (s : Scan) (residual : Option Filter) (since : UInt64) (pageSize : Nat) :
    (∀ k : Keyspace,
      (∃ n ≤ (s.keysBelow k s.upper).length + 1, ∃ ys,
        s.Reads residual since pageSize (List.replicate n k) s.upper ys) ∧
      (∀ n ys, s.Reads residual since pageSize (List.replicate n k) s.upper ys →
        ys.map Prod.snd = s.onePass k residual since) ∧
      s.hits k residual since pageSize = s.onePass k residual since) ∧
    ∀ tables ys, s.Reads residual since pageSize tables s.upper ys →
      (ys.map Prod.fst).Nodup ∧
      (s.untimed = false → ys.Pairwise fun a b =>
        ∃ t t', Key.timestamp? a.1 = some t ∧ Key.timestamp? b.1 = some t' ∧ t' ≤ t) ∧
      (∀ y ∈ ys, ∃ k ∈ tables, y.1 ∈ s.keysBelow k s.upper ∧ s.isPast since y.1 = false ∧
        s.hit? k residual y.1 = some y.2) ∧
      ∀ key hit, s.Stays residual since tables key hit →
        ys.filter (·.1 == key) = [(key, hit)] ∧
        ∀ f p, Plan.ofFilter f = .ok p → s ∈ p.scans →
          (∀ k ∈ tables, ∃ es a, Archive.Reached es a ∧ Identified es ∧ a.db.events = k) →
          (ys.map Prod.snd).filter (·.serial == hit.serial) = [hit] := by
  constructor
  · intro k
    refine ⟨exists_reads s k residual since pageSize s.upper, fun n ys hreads => ?_, ?_⟩
    · exact hreads.map_snd fun t ht => List.eq_of_mem_replicate ht
    · exact hits_eq_onePass s k residual since pageSize
  · intro tables ys hreads
    refine ⟨hreads.keys_nodup, hreads.times, fun y hy => hreads.sound hy, fun key hit hstays => ?_⟩
    refine ⟨hreads.filter_key hstays, fun f p hplan hs htables => ?_⟩
    have hp := Plan.uniform_of_ofFilter hplan
    refine hreads.filter_serial hstays (hp.indexed s hs) (hp.times.imp (· s hs) (· s hs)) ?_
    intro k hk
    obtain ⟨es, a, ha, hid, rfl⟩ := htables k hk
    obtain ⟨L, J, hf, -⟩ := ha.exists_follows hid
    exact ⟨L, hf.db.events⟩

/-- Notes of the times 10, 20 and 30 are read one key at a time.  After the first page that of the
time 20 is deleted, and notes of the times 25 and 40 are saved: the scan finds those of the times
30, 25 and 10, that of the time 10 once. -/
theorem pages_complete_changing :
    let deleted : Event := .uniform 2 7 20 1 []
    let before := Archive.fresh.saveAll 5 [.uniform 1 7 10 1 [], deleted, .uniform 3 7 30 1 []]
    let after := (before.delete deleted).2.saveAll 7 [.uniform 4 7 25 1 [], .uniform 5 7 40 1 []]
    let s : Scan := .timed .createdAt Key.createdAtStem maxUInt64
    let note : Hit := ⟨0, 10, .full (.uniform 1 7 10 1 [])⟩
    ∃ ys, (Plan.choose .any).scans = [s] ∧
      s.Reads none 0 1 [before.db.events, after.db.events, after.db.events, after.db.events]
        s.upper ys ∧
      ys.map (·.2.createdAt) = [30, 25, 10] ∧
      (ys.map Prod.snd).filter (·.serial == 0) = [note] := by
  intro deleted before after s note
  let key := Key.timed Key.createdAtStem 10 0
  let tables := [before.db.events, after.db.events, after.db.events, after.db.events]
  have hfirst : (s.readPage before.db.events none 0 1 s.upper).resume =
      some (Key.timed Key.createdAtStem 30 2) := by decide +kernel
  have hsecond : (s.readPage after.db.events none 0 1 (Key.timed Key.createdAtStem 30 2)).resume =
      some (Key.timed Key.createdAtStem 25 3) := by decide +kernel
  have hthird : (s.readPage after.db.events none 0 1 (Key.timed Key.createdAtStem 25 3)).resume =
      some key := by decide +kernel
  have hend : (s.readPage after.db.events none 0 1 key).resume = none := by decide +kernel
  have hreads : s.Reads none 0 1 tables s.upper _ :=
    .next hfirst (.next hsecond (.next hthird (.last hend)))
  have hstays : s.Stays none 0 tables key note := by
    refine ⟨by decide +kernel, by decide +kernel, ⟨[], by decide +kernel⟩, ?_, ?_⟩
    · exact ⟨StoredValue.encode (.uniform 1 7 10 1 []), by decide +kernel⟩
    · exact ⟨before.db.events, List.mem_cons_self, by decide +kernel⟩
  let es : List Event := [.uniform 1 7 10 1 [], deleted, .uniform 3 7 30 1 []]
  let es' : List Event := [.uniform 4 7 25 1 [], .uniform 5 7 40 1 []]
  have hbefore : Archive.Reached es before := Archive.Reached.fresh.saveAll 5 es
  have hafter : Archive.Reached (es ++ [deleted] ++ es') after :=
    (hbefore.delete deleted).saveAll 7 es'
  have htables : ∀ k ∈ tables, ∃ es a, Archive.Reached es a ∧ Identified es ∧ a.db.events = k := by
    intro k hk
    rcases List.mem_cons.mp hk with hk | hk
    · exact ⟨es, before, hbefore, by decide +kernel, hk.symm⟩
    · have hk : k = after.db.events := List.eq_of_mem_replicate (n := 3) hk
      exact ⟨es ++ [deleted] ++ es', after, hafter, by decide +kernel, hk.symm⟩
  have hscan : (Plan.choose .any).scans = [s] := by decide +kernel
  have hplan : Plan.ofFilter .any = .ok (Plan.choose .any) := rfl
  obtain ⟨-, -, -, honce⟩ := (pages_complete s none 0 1).2 tables _ hreads
  obtain ⟨-, hserial⟩ := honce key note hstays
  exact ⟨_, hscan, hreads, by decide +kernel,
    hserial _ _ hplan (hscan ▸ List.mem_cons_self) htables⟩

end Scan
end EventArchive
