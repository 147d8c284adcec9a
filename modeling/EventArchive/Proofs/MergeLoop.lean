import EventArchive.Proofs.HeapOrder
import EventArchive.Proofs.MergeOrder
import EventArchive.Proofs.Transactions

/-! # Merging hit by hit

A merge that receives its scans hit by hit has at most one hit of each in its heap, the
one at the front of what is left of that scan (`Loop.At`).  A hit that is taken makes
room for the next one of its scan, so the heap always gives out the hit that a step of
the merge takes (`Loop.At.step`).  Whatever is left out on the way, the loop delivers
what a merge of the whole scans delivers, and it ends (`loop_eq_run`).

What it delivers is the union of the scans, cut to a number of records (`Truncates`).
-/
namespace EventArchive
namespace Merge
variable {scans rest : List (List Hit)} {h : Hit} {hs : List Hit} {head : Head} {heads : Heap Head}

/-! ### The loop -/

namespace Loop
variable {m : Loop} {pending : List Nat} {scan limit fuel : Nat}

theorem receive_of_cons (hget : m.unread[scan]? = some (h :: hs)) : m.receive scan = { m with
    heads := m.heads.push Head.precedes ⟨h, scan⟩
    unread := m.unread.set scan hs } := by
  rw [receive, hget]

theorem receive_of_ne (hget : ∀ h hs, m.unread[scan]? ≠ some (h :: hs)) : m.receive scan = m := by
  rw [receive]
  split
  · rename_i h hs heq
    exact absurd heq (hget h hs)
  · rfl

@[simp] theorem seen_receive (m : Loop) (scan : Nat) : (m.receive scan).seen = m.seen := by
  rw [receive]
  split <;> rfl

@[simp] theorem delivered_receive (m : Loop) (scan : Nat) :
    (m.receive scan).delivered = m.delivered := by
  rw [receive]
  split <;> rfl

/-- The loop **is at some scans**, which it has still to merge: the heap holds the fronts, and what
is unread is behind them.  Of the scans that are pending, the front is yet to be received. -/
structure At (m : Loop) (scans : List (List Hit)) (pending : List Nat) : Prop where
  ordered : m.heads.Ordered Head.precedes
  nodup : m.heads.toList.Nodup
  mem_heads : ∀ head, head ∈ m.heads.toList ↔ head.scan ∉ pending ∧ head.IsFront scans
  unread : ∀ i, m.unread[i]? = if i ∈ pending then scans[i]? else scans[i]?.map List.tail

namespace At

/-- After a hit was received, or none was left, the scan is no longer pending. -/
theorem receive (hm : m.At scans (scan :: pending)) (hscan : scan ∉ pending) :
    (m.receive scan).At scans pending := by
  have hget : m.unread[scan]? = scans[scan]? := by
    rw [hm.unread, if_pos List.mem_cons_self]
  have hother : ∀ i ≠ scan, m.unread[i]? =
      if i ∈ pending then scans[i]? else scans[i]?.map List.tail := by
    intro i hi
    rw [hm.unread]
    simp only [List.mem_cons, hi, false_or]
  by_cases hfront : ∃ h hs, scans[scan]? = some (h :: hs)
  · obtain ⟨h, hs, hfront⟩ := hfront
    have hperm : (m.heads.push Head.precedes ⟨h, scan⟩).toList.Perm (⟨h, scan⟩ :: m.heads.toList) :=
      Heap.push_perm m.heads _
    rw [receive_of_cons (hget.trans hfront)]
    refine ⟨hm.ordered.push Head.ranks _, ?_, fun head => ?_, fun i => ?_⟩
    · rw [hperm.nodup_iff, List.nodup_cons]
      exact ⟨fun hmem => ((hm.mem_heads _).mp hmem).1 List.mem_cons_self, hm.nodup⟩
    · rw [hperm.mem_iff, List.mem_cons, hm.mem_heads]
      constructor
      · rintro (rfl | ⟨hpending, hhead⟩)
        · exact ⟨hscan, hs, hfront⟩
        · exact ⟨fun hmem => hpending (List.mem_cons_of_mem _ hmem), hhead⟩
      · rintro ⟨hpending, hhead⟩
        by_cases heq : head.scan = scan
        · exact .inl (hhead.eq ⟨hs, hfront⟩ heq)
        · exact .inr ⟨fun hmem => (List.mem_cons.mp hmem).elim heq hpending, hhead⟩
    · by_cases hi : i = scan
      · subst hi
        have hlt := (List.getElem?_eq_some_iff.mp (hget.trans hfront)).1
        rw [List.getElem?_set_self hlt, if_neg hscan, hfront]
        rfl
      · rw [List.getElem?_set_ne (Ne.symm hi), hother i hi]
  · -- the scan is at its end
    rw [receive_of_ne fun h hs heq => hfront ⟨h, hs, hget.symm.trans heq⟩]
    refine ⟨hm.ordered, hm.nodup, fun head => ?_, fun i => ?_⟩
    · rw [hm.mem_heads]
      refine and_congr_left fun ⟨hs, hhead⟩ => not_congr ?_
      rw [List.mem_cons, or_iff_right]
      exact fun heq => hfront ⟨_, hs, heq ▸ hhead⟩
    · by_cases hi : i = scan
      · subst hi
        rw [hget, if_neg hscan]
        cases hl : scans[i]? with
        | none => rfl
        | some l =>
          cases l with
          | nil => rfl
          | cons h hs => exact absurd ⟨h, hs, hl⟩ hfront
      · exact hother i hi

/-- What is taken off the heap was the front of its scan. -/
theorem take (hm : m.At scans []) (hpop : m.heads.pop? Head.precedes = some (head, heads)) :
    ∃ hs, scans[head.scan]? = some (head.hit :: hs) ∧
      ({ m with heads := heads } : Loop).At (scans.set head.scan hs) [head.scan] := by
  have hperm := Heap.pop?_perm hpop
  obtain ⟨hnot, hnodup⟩ := List.nodup_cons.mp (hperm.nodup_iff.mp hm.nodup)
  have hmem : ∀ x, x ∈ m.heads.toList ↔ x.IsFront scans := fun x =>
    (hm.mem_heads x).trans (and_iff_right List.not_mem_nil)
  have hhead : head.IsFront scans := (hmem head).mp (hperm.mem_iff.mpr List.mem_cons_self)
  obtain ⟨hs, hfront⟩ := id hhead
  have hlt := (List.getElem?_eq_some_iff.mp hfront).1
  refine ⟨hs, hfront, hm.ordered.pop? Head.ranks hpop, hnodup, fun x => ?_, fun i => ?_⟩
  · have hset : x.scan ≠ head.scan → (x.IsFront (scans.set head.scan hs) ↔ x.IsFront scans) := by
      intro hne
      rw [Head.IsFront, Head.IsFront, List.getElem?_set_ne (Ne.symm hne)]
    rw [List.mem_singleton]
    constructor
    · intro hx
      have hfront' : x.IsFront scans := (hmem x).mp (hperm.mem_iff.mpr (List.mem_cons_of_mem _ hx))
      have hne : x.scan ≠ head.scan := fun heq => hnot (hfront'.eq hhead heq ▸ hx)
      exact ⟨hne, (hset hne).mpr hfront'⟩
    · rintro ⟨hne, hx⟩
      have hx' := hperm.mem_iff.mp ((hmem x).mpr ((hset hne).mp hx))
      rcases List.mem_cons.mp hx' with rfl | hx'
      · exact absurd rfl hne
      · exact hx'
  · show m.unread[i]? = _
    rw [hm.unread, if_neg List.not_mem_nil]
    by_cases hi : i = head.scan
    · subst hi
      rw [if_pos List.mem_cons_self, List.getElem?_set_self hlt, hfront]
      rfl
    · rw [if_neg (mt List.mem_singleton.mp hi), List.getElem?_set_ne (Ne.symm hi)]

/-- **The heap gives out the hit that a step of the merge takes**, and once the next one of that
scan is received, the loop is at what the step leaves. -/
theorem step (hm : m.At scans []) (hpop : m.heads.pop? Head.precedes = some (head, heads)) :
    ∃ rest, pop scans = some (head.hit, rest) ∧
      (({ m with heads := heads } : Loop).receive head.scan).At rest [] := by
  obtain ⟨hs, hfront, htaken⟩ := hm.take hpop
  have hhead : head.IsFront scans := ⟨hs, hfront⟩
  cases hstep : pop scans with
  | none =>
    have hmem := hhead.mem
    rw [pop_eq_none hstep] at hmem
    cases hmem
  | some taken =>
    obtain ⟨h, rest⟩ := taken
    obtain ⟨scan, hs', hfront', rfl, hfirst⟩ := exists_front_of_pop hstep
    have hmem : ⟨h, scan⟩ ∈ m.heads.toList :=
      (hm.mem_heads _).mpr ⟨List.not_mem_nil, hs', hfront'⟩
    have hbehind : (⟨h, scan⟩ : Head).precedes head = false :=
      hm.ordered.top_first Head.ranks (Heap.top?_of_pop? hpop) hmem
    have hscan := Head.scan_eq (hfirst head hhead) hbehind
    obtain rfl : head = ⟨h, scan⟩ := hhead.eq ⟨hs', hfront'⟩ hscan
    obtain rfl : hs = hs' := by
      rw [hfront'] at hfront
      cases hfront
      rfl
    exact ⟨_, rfl, htaken.receive List.not_mem_nil⟩

/-- An empty heap is at the end of all scans. -/
theorem pop_eq_none (hm : m.At scans []) (hpop : m.heads.pop? Head.precedes = none) :
    pop scans = none := by
  cases hstep : pop scans with
  | none => rfl
  | some taken =>
    obtain ⟨h, rest⟩ := taken
    obtain ⟨scan, hs, hfront, -⟩ := exists_front_of_pop hstep
    have hmem : ⟨h, scan⟩ ∈ m.heads.toList :=
      (hm.mem_heads _).mpr ⟨List.not_mem_nil, hs, hfront⟩
    rw [Heap.pop?_eq_none hpop] at hmem
    cases hmem

end At

theorem at_start (scans : List (List Hit)) : (start scans).At scans [] := by
  have hall : ∀ (pending : List Nat) (m : Loop), pending.Nodup → m.At scans pending →
      (pending.foldl receive m).At scans [] := by
    intro pending
    induction pending with
    | nil => exact fun m _ hm => hm
    | cons scan pending ih =>
      intro m hnodup hm
      obtain ⟨hscan, hpending⟩ := List.nodup_cons.mp hnodup
      exact ih _ hpending (hm.receive hscan)
  refine hall _ _ List.nodup_range ⟨Heap.ordered_empty, List.nodup_nil, fun head => ?_, fun i => ?_⟩
  · refine iff_of_false List.not_mem_nil fun ⟨hpending, hs, hfront⟩ => hpending ?_
    exact List.mem_range.mpr (List.getElem?_eq_some_iff.mp hfront).1
  · split_ifs with hpending
    · rfl
    · rw [List.mem_range, Nat.not_lt] at hpending
      rw [List.getElem?_eq_none hpending]
      rfl

theorem start_untouched (scans : List (List Hit)) :
    (start scans).seen = [] ∧ (start scans).delivered = [] := by
  have hall : ∀ (pending : List Nat) (m : Loop), (pending.foldl receive m).seen = m.seen ∧
      (pending.foldl receive m).delivered = m.delivered := by
    intro pending
    induction pending with
    | nil => exact fun m => ⟨rfl, rfl⟩
    | cons scan pending ih =>
      intro m
      obtain ⟨hseen, hdelivered⟩ := ih (m.receive scan)
      exact ⟨hseen.trans (seen_receive m scan), hdelivered.trans (delivered_receive m scan)⟩
  exact hall _ _

end Loop

/-- Hits, as many as asked for, and whether that is all of them. -/
def cut (limit : Nat) (hits : List Hit) : List Hit × MergeEnd :=
  (hits.take limit, if (hits.take limit).length < limit then .exhausted else .limit)

theorem run_eq (limit : Nat) (scans : List (List Hit)) : run limit scans = cut limit (all scans) :=
  rfl

theorem cut_of_lt {limit : Nat} {hits : List Hit} (hlt : hits.length < limit) :
    cut limit hits = (hits, .exhausted) := by
  rw [cut, List.take_of_length_le (Nat.le_of_lt hlt), if_pos hlt]

theorem cut_append {limit : Nat} {hits : List Hit} (hlen : hits.length = limit) (more : List Hit) :
    cut limit (hits ++ more) = (hits, .limit) := by
  rw [cut, List.take_left' hlen, if_neg (Nat.not_lt.mpr (Nat.le_of_eq hlen.symm))]

/-- **What is left of the loop** delivers what is left of the merge, but for the records that were
taken before. -/
theorem Loop.At.steps_eq {m : Loop} {limit fuel : Nat} (hm : m.At scans [])
    (hfuel : scans.flatten.length ≤ fuel) (hroom : m.delivered.length < limit) :
    m.steps limit (fuel + 1) = some (cut limit
      (m.delivered.reverse ++ distinctBy Hit.serial m.seen (interleave fuel scans))) := by
  induction fuel generalizing m scans with
  | zero =>
    cases hpop : m.heads.pop? Head.precedes with
    | none =>
      rw [steps, hpop, interleave, distinctBy, List.append_nil,
        cut_of_lt (by rwa [List.length_reverse])]
    | some taken =>
      -- a hit in the heap would be one that is left
      obtain ⟨rest, hstep, -⟩ := hm.step hpop
      have hlen := (pop_perm hstep).length_eq
      rw [List.length_cons] at hlen
      omega
  | succ fuel ih =>
    cases hpop : m.heads.pop? Head.precedes with
    | none =>
      rw [steps, hpop, interleave, hm.pop_eq_none hpop, distinctBy, List.append_nil,
        cut_of_lt (by rwa [List.length_reverse])]
    | some taken =>
      obtain ⟨head, heads⟩ := taken
      obtain ⟨rest, hstep, hrest⟩ := hm.step hpop
      have hlen := (pop_perm hstep).length_eq
      rw [List.length_cons] at hlen
      have hseen := seen_receive { m with heads := heads } head.scan
      have hdelivered := delivered_receive { m with heads := heads } head.scan
      rw [steps, hpop, interleave, hstep, distinctBy]
      dsimp only at hseen hdelivered ⊢
      generalize ({ m with heads := heads } : Loop).receive head.scan = next at *
      rw [← hseen, ← hdelivered]
      rw [← hdelivered] at hroom
      -- the hit has been taken before, or is the last one that is asked for, or one more
      split_ifs with htaken hlimit
      · exact ih hrest (by omega) hroom
      · have hreached : (head.hit :: next.delivered).reverse.length = limit := by
          rw [List.length_reverse]
          exact Nat.le_antisymm hroom hlimit
        rw [← cut_append hreached, List.reverse_cons, List.append_assoc]
        rfl
      · have hmore := ih (m := { next with
          seen := head.hit.serial :: next.seen
          delivered := head.hit :: next.delivered })
          ⟨hrest.ordered, hrest.nodup, hrest.mem_heads, hrest.unread⟩ (by omega)
          (Nat.not_le.mp hlimit)
        rw [List.reverse_cons, List.append_assoc] at hmore
        exact hmore

/-- **The loop ends, and delivers what a merge of the whole scans delivers.** -/
theorem loop_eq_run {limit : Nat} (hlimit : 1 ≤ limit) (scans : List (List Hit)) :
    loop limit scans = some (run limit scans) := by
  obtain ⟨hseen, hdelivered⟩ := Loop.start_untouched scans
  rw [loop, (Loop.at_start scans).steps_eq (Nat.le_refl _) (by rwa [hdelivered]), hseen, hdelivered]
  rfl

/-! ### The union, cut to a number of records -/

/-- Number of records that some scans find together. -/
def recordCount (scans : List (List Hit)) : Nat := (scans.flatten.map Hit.serial).toFinset.card

theorem length_all (scans : List (List Hit)) : (all scans).length = recordCount scans := by
  have hserials : ((all scans).map Hit.serial).toFinset =
      (scans.flatten.map Hit.serial).toFinset := by
    ext serial
    rw [List.mem_toFinset, List.mem_toFinset, all, mem_map_distinctBy,
      and_iff_left List.not_mem_nil]
    exact ((interleave_perm (Nat.le_refl _)).map Hit.serial).mem_iff
  rw [recordCount, ← hserials, List.toFinset_card_of_nodup (all_nodup scans), List.length_map]

/-- Some hits, with how the merge ended, are **the union of some scans, cut to a number of
records**. -/
structure Truncates (limit : Nat) (scans : List (List Hit)) (result : List Hit × MergeEnd) :
    Prop where
  sound : ∀ x ∈ result.1, x ∈ scans.flatten
  once : (result.1.map Hit.serial).Nodup
  newest : NewestFirst result.1
  /-- Unless the limit cuts some off, all hits are there. -/
  complete : recordCount scans ≤ limit → ∀ x ∈ scans.flatten, x ∈ result.1
  length : limit ≤ recordCount scans → result.1.length = limit
  /-- What is left out is not newer than what is there. -/
  missing : ∀ x ∈ scans.flatten, x ∉ result.1 → ∀ y ∈ result.1, x.createdAt ≤ y.createdAt
  ended : result.2 = if result.1.length = limit then .limit else .exhausted
  /-- Scans in the order of delivery stay in it. -/
  ordered : (∀ l ∈ scans, l.Pairwise Hit.NotAfter) → result.1.Pairwise Hit.NotAfter

theorem run_truncates (hsorted : ∀ l ∈ scans, NewestFirst l)
    (hsame : ∀ a ∈ scans.flatten, ∀ b ∈ scans.flatten, a.serial = b.serial → a = b) (limit : Nat) :
    Truncates limit scans (run limit scans) where
  sound x hx := (mem_all hsame).mp (List.mem_of_mem_take hx)
  once := (all_nodup scans).sublist ((List.take_sublist _ _).map _)
  newest := (all_sorted hsorted).sublist (List.take_sublist _ _)
  complete hle x hx := by
    rw [run_eq, cut, List.take_of_length_le (length_all scans ▸ hle)]
    exact (mem_all hsame).mpr hx
  length hle := by
    rw [run_eq, cut, List.length_take, length_all]
    exact Nat.min_eq_left hle
  missing x hx hnot y hy := by
    have hsplit : NewestFirst ((all scans).take limit ++ (all scans).drop limit) := by
      rw [List.take_append_drop]
      exact all_sorted hsorted
    have hmem : x ∈ (all scans).take limit ++ (all scans).drop limit := by
      rw [List.take_append_drop]
      exact (mem_all hsame).mpr hx
    have hdrop := (List.mem_append.mp hmem).resolve_left hnot
    exact (List.pairwise_append.mp hsplit).2.2 y hy x hdrop
  ended := by
    have hle : ((all scans).take limit).length ≤ limit := List.length_take_le _ _
    rw [run_eq, cut]
    dsimp only
    split_ifs with hlt heq heq
    · exact absurd heq (Nat.ne_of_lt hlt)
    · rfl
    · rfl
    · exact absurd (Nat.lt_of_le_of_ne hle heq) hlt
  ordered hscans := by
    have hall : (all scans).Pairwise fun a b => b.precedes a = false :=
      all_pairwise Hit.ranks.agrees fun l hl =>
        (hscans l hl).imp fun hab => Hit.notAfter_iff.mp hab
    exact (hall.sublist (List.take_sublist _ _)).imp fun hab => Hit.notAfter_iff.mpr hab

/-- **A merge delivers the union of its scans, cut to the limit.**  The scans are of any number and
length, each newest first, and a record is the same hit wherever it is found.  Merged hit by hit up
to a limit of at least one, they end at the limit or at the end of all scans, whichever is first.
Each record comes once and the newest first; all are there unless the limit cuts some off, as many
as it says are there if it does, and no hit that is left out is newer.  If the hits of one time are
in the order of their identifiers in each scan, so are those that are delivered. -/
theorem loop_truncates {limit : Nat} (hlimit : 1 ≤ limit) (hsorted : ∀ l ∈ scans, NewestFirst l)
    (hsame : ∀ a ∈ scans.flatten, ∀ b ∈ scans.flatten, a.serial = b.serial → a = b) :
    loop limit scans = some (run limit scans) ∧ Truncates limit scans (run limit scans) :=
  ⟨loop_eq_run hlimit scans, run_truncates hsorted hsame limit⟩

/-- Two scans find the newest record both.  The last one that is delivered is the first of two of
the same time, and the other one of them is left out. -/
theorem loop_truncates_ties :
    let hit : UInt8 → Int64 → Hit := fun i t =>
      ⟨UInt64.ofNat i.toNat, t, .full (.uniform i 7 t 1 [])⟩
    let scans := [[hit 1 300, hit 4 100], [hit 1 300, hit 3 200, hit 2 100]]
    loop 3 scans = some ([hit 1 300, hit 3 200, hit 2 100], .limit) ∧
      Truncates 3 scans ([hit 1 300, hit 3 200, hit 2 100], .limit) := by
  intro hit scans
  have hrun : run 3 scans = ([hit 1 300, hit 3 200, hit 2 100], .limit) := by decide +kernel
  rw [← hrun]
  refine loop_truncates (by decide) (fun l hl => ?_) (by decide +kernel)
  rw [NewestFirst]
  revert l
  decide +kernel

end Merge
end EventArchive
