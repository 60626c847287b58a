import VeritableLasagna.Arena.Basic
import VeritableLasagna.Set.Entries

/-!
# Coalescing free nodes

`vl_HeapCoalesce` starts at a free node, scans right to the end of the run of adjacent nodes around
it, and then merges to the left until the run is one node. Specified against the list of entries of
the free set: a run of abutting nodes becomes one entry, and the entries before and behind the run
stay (`vlHeapCoalesce_spec`).
-/

namespace VeritableLasagna

open Tiling

variable {freeSet : VlSet VlArenaNode} {pre left right post : List (VlPoolIdx × VlArenaNode)}
  {x y : VlPoolIdx × VlArenaNode} {o e : ℕ}

theorem vlArenaNodeCompare_lt {a b : VlArenaNode} :
    vlArenaNodeCompare a b < 0 ↔ a.offset < b.offset := by
  rw [vlArenaNodeCompare]
  split_ifs <;> omega

theorem vlArenaNodeCompare_eq {a b : VlArenaNode} :
    vlArenaNodeCompare a b = 0 ↔ a.offset = b.offset := by
  rw [vlArenaNodeCompare]
  split_ifs <;> omega

/-- **`vl_ArenaNodeCompare`** is a consistent total order. -/
theorem vlArenaNodeCompare_lawful : LawfulComparator vlArenaNodeCompare := by
  constructor
  · intro a b
    simp only [vlArenaNodeCompare]
    split_ifs <;> omega
  · intro a b c
    simp only [vlArenaNodeCompare]
    split_ifs <;> omega

/-- The free set holds the entries `l`, ordered by offset. -/
abbrev FreeHolds (freeSet : VlSet VlArenaNode) (l : List (VlPoolIdx × VlArenaNode)) : Prop :=
  freeSet.Holds vlArenaNodeCompare l

/-- Only the offsets decide about the order. -/
theorem freeSorted_iff {l : List (VlPoolIdx × VlArenaNode)} :
    StrictSorted (entryCompare vlArenaNodeCompare) l ↔
      (l.map fun e => e.2.offset).Pairwise (· < ·) := by
  rw [List.pairwise_map]
  exact List.Pairwise.iff fun _ _ => vlArenaNodeCompare_lt

/-- **Resizing** a free node in place. -/
theorem VlSet.Holds.resize {i : VlPoolIdx} {a : VlArenaNode}
    (h : FreeHolds freeSet (left ++ (i, a) :: right)) (n : ℕ) :
    Returns (freeSet.write (some i) { a with size := n })
      (FreeHolds · (left ++ (i, { a with size := n }) :: right)) := by
  refine h.write ?_
  have hsorted := freeSorted_iff.mp h.sorted
  rw [freeSorted_iff]
  simpa using hsorted

/-- Phase 1 stops at the last node of the run. -/
private theorem vlHeapCoalesceRight_spec (fuel : ℕ)
    (h : FreeHolds freeSet (pre ++ x :: (right ++ post))) (hfuel : (right ++ post).length ≤ fuel)
    (hrun : Abutting x.2.stop (right.map Prod.snd) e) (hpost : ∀ z ∈ post, z.2.offset ≠ e) :
    ∃ init last, x :: right = init ++ [last] ∧
      vlHeapCoalesceRight freeSet fuel (some x.1) (firstIter (right ++ post)) =
        .ok (some last.1) := by
  have hx : vlSetSample freeSet (some x.1) = some x.2 := h.sample (by simp)
  induction right generalizing pre x fuel with
  | nil =>
    refine ⟨[], x, rfl, ?_⟩
    cases post with
    | nil => cases fuel <;> rfl
    | cons z post =>
      obtain ⟨fuel, rfl⟩ : ∃ k, fuel = k + 1 := ⟨fuel - 1, by simp at hfuel; omega⟩
      have hz : vlSetSample freeSet (some z.1) = some z.2 := h.sample (by simp)
      have hne : x.2.offset + x.2.size ≠ z.2.offset := by
        intro heq
        exact hpost z List.mem_cons_self (heq.symm.trans hrun)
      rw [List.nil_append, firstIter_cons, vlHeapCoalesceRight, hz]
      dsimp only
      rw [hx, deref_some, ok_bind, if_pos hne]
      rfl
  | cons r right ih =>
    obtain ⟨fuel, rfl⟩ : ∃ k, fuel = k + 1 := ⟨fuel - 1, by simp at hfuel; omega⟩
    obtain ⟨hoff, hrun⟩ := hrun
    have hr : vlSetSample freeSet (some r.1) = some r.2 := h.sample (by simp)
    have h' : FreeHolds freeSet ((pre ++ [x]) ++ r :: (right ++ post)) := by simpa using h
    obtain ⟨init, last, hsplit, hloop⟩ := ih fuel h' (by simpa using hfuel) hrun hr
    refine ⟨x :: init, last, by rw [hsplit]; rfl, ?_⟩
    rw [List.cons_append, firstIter_cons, vlHeapCoalesceRight, hr]
    dsimp only
    have hadj : x.2.offset + x.2.size = r.2.offset := hoff.symm
    rw [hx, deref_some, ok_bind, if_neg (not_not.mpr hadj), h'.next, ok_bind]
    exact hloop

/-- Phase 2 merges the run into its first node. -/
private theorem vlHeapCoalesceLeft_spec (fuel : ℕ)
    (h : FreeHolds freeSet ((pre ++ left) ++ y :: post)) (hfuel : (pre ++ left).length ≤ fuel)
    (hrun : Abutting o (left.map Prod.snd) y.2.offset) (hpre : ∀ z ∈ pre, z.2.stop ≠ o) :
    Returns (vlHeapCoalesceLeft fuel freeSet (some y.1) (firstIter (pre ++ left).reverse))
      fun s => ∃ j, FreeHolds s (pre ++ (j, ⟨o, y.2.stop - o⟩) :: post) := by
  induction left using List.reverseRecOn generalizing y freeSet fuel with
  | nil =>
    obtain rfl : o = y.2.offset := hrun
    have hmerged : (⟨y.2.offset, y.2.stop - y.2.offset⟩ : VlArenaNode) = y.2 :=
      Block.ext rfl (Nat.add_sub_cancel_left ..)
    rw [List.append_nil] at h ⊢
    have hdone : ∃ j, FreeHolds freeSet (pre ++ (j, ⟨y.2.offset, y.2.stop - y.2.offset⟩) :: post) :=
      ⟨y.1, by rwa [hmerged]⟩
    rcases List.eq_nil_or_concat' pre with rfl | ⟨pre, z, rfl⟩
    · cases fuel with
      | zero => exact returns_ok hdone
      | succ fuel => exact returns_ok hdone
    · obtain ⟨fuel, rfl⟩ : ∃ k, fuel = k + 1 := ⟨fuel - 1, by simp at hfuel; omega⟩
      have hz : vlSetSample freeSet (some z.1) = some z.2 := h.sample (by simp)
      have hy : vlSetSample freeSet (some y.1) = some y.2 := h.sample (by simp)
      have hne : z.2.offset + z.2.size ≠ y.2.offset := hpre z (by simp)
      rw [List.reverse_append, List.reverse_singleton, List.singleton_append, firstIter_cons,
        vlHeapCoalesceLeft, hz]
      dsimp only
      rw [hy, deref_some, ok_bind, if_pos hne]
      exact returns_ok hdone
  | append_singleton left z ih =>
    obtain ⟨fuel, rfl⟩ : ∃ k, fuel = k + 1 := ⟨fuel - 1, by simp at hfuel; omega⟩
    rw [List.map_append, abutting_append] at hrun
    obtain ⟨m, hrun, hoff, hstop⟩ := hrun
    obtain rfl : z.2.offset = m := hoff
    have hadj : z.2.offset + z.2.size = y.2.offset := hstop
    have hz : vlSetSample freeSet (some z.1) = some z.2 := h.sample (by simp)
    have hy : vlSetSample freeSet (some y.1) = some y.2 := h.sample (by simp)
    have hsplit : FreeHolds freeSet ((pre ++ left) ++ (z.1, z.2) :: (y :: post)) := by
      simpa using h
    rw [← List.append_assoc, List.reverse_append, List.reverse_singleton, List.singleton_append,
      firstIter_cons, vlHeapCoalesceLeft, hz]
    dsimp only
    rw [hy, deref_some, ok_bind, if_neg (not_not.mpr hadj)]
    refine (hsplit.resize (z.2.size + y.2.size)).bind fun s₁ h₁ => ?_
    rw [h₁.prev, ok_bind]
    have h₁' : FreeHolds s₁ (((pre ++ left) ++ [(z.1, { z.2 with size := z.2.size + y.2.size })]) ++
        y :: post) := by simpa using h₁
    refine h₁'.remove.bind fun s₂ h₂ => ?_
    have h₂' : FreeHolds s₂ ((pre ++ left) ++
        (z.1, { z.2 with size := z.2.size + y.2.size }) :: post) := by simpa using h₂
    refine (ih fuel h₂' (by simp at hfuel ⊢; omega) hrun).mono fun s₃ ⟨j, h₃⟩ => ⟨j, ?_⟩
    have hend : (⟨z.2.offset, z.2.size + y.2.size⟩ : VlArenaNode).stop = y.2.stop := by
      simp only [Block.stop]
      omega
    rwa [hend] at h₃

/-- **`vl_HeapCoalesce`** merges the run of abutting nodes around a node into one. -/
theorem vlHeapCoalesce_spec (h : FreeHolds freeSet ((pre ++ left) ++ x :: (right ++ post)))
    (hleft : Abutting o (left.map Prod.snd) x.2.offset)
    (hright : Abutting x.2.stop (right.map Prod.snd) e)
    (hpre : ∀ z ∈ pre, z.2.stop ≠ o) (hpost : ∀ z ∈ post, z.2.offset ≠ e) :
    Returns (vlHeapCoalesce freeSet (some x.1))
      fun s => ∃ j, FreeHolds s (pre ++ (j, ⟨o, e - o⟩) :: post) := by
  have hx : vlSetSample freeSet (some x.1) = some x.2 := h.sample (by simp)
  have htotal := h.totalElements
  simp only [List.length_append, List.length_cons] at htotal
  rw [vlHeapCoalesce, if_neg (by simp [hx]), h.next, ok_bind]
  obtain ⟨init, last, hsplit, hloop⟩ := vlHeapCoalesceRight_spec freeSet.totalElements h
    (by rw [List.length_append]; omega) hright hpost
  rw [hloop, ok_bind]
  have hlen := congrArg List.length hsplit
  simp only [List.length_append, List.length_cons, List.length_nil] at hlen
  have hlist : (pre ++ left) ++ x :: (right ++ post) = (pre ++ (left ++ init)) ++ last :: post := by
    rw [← List.cons_append, hsplit]
    simp
  rw [hlist] at h
  rw [h.prev, ok_bind]
  -- the whole run ends where its last node does
  have hrun : Abutting o ((left ++ init ++ [last]).map Prod.snd) e := by
    rw [List.append_assoc, ← hsplit, List.map_append, abutting_append]
    exact ⟨x.2.offset, hleft, rfl, hright⟩
  rw [List.map_append, abutting_append] at hrun
  obtain ⟨m, hrun, hoff, hend⟩ := hrun
  obtain rfl : last.2.offset = m := hoff
  obtain rfl : last.2.stop = e := hend
  exact vlHeapCoalesceLeft_spec _ h (by simp only [List.length_append]; omega) hrun hpre

end VeritableLasagna
