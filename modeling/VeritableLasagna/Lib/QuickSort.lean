import VeritableLasagna.Lib.MergeSort

/-!
# Lomuto partitions

A partition by a **pivot** goes through a list once and keeps what it has seen in two parts: the
elements that do not compare greater than the pivot, and behind them the others. A new element of the
first kind changes places with the first of the others (`List.rotate`), or with itself when there are
none. Sorting both parts sorts the list (`Ascending.partition`).
-/

namespace VeritableLasagna

variable {α : Type*} {cmp : α → α → ℤ} {p : α} {ls gs xs : List α}

/-- Partition the last list by the pivot, when the first two are the parts of what was seen. -/
def lomuto (cmp : α → α → ℤ) (p : α) : List α → List α → List α → List α × List α
  | ls, gs, [] => (ls, gs)
  | ls, gs, x :: xs =>
    if cmp x p ≤ 0 then lomuto cmp p (ls ++ [x]) (gs.rotate 1) xs
    else lomuto cmp p ls (gs ++ [x]) xs

/-- **A partition only moves elements.** -/
theorem lomuto_perm :
    ((lomuto cmp p ls gs xs).1 ++ (lomuto cmp p ls gs xs).2).Perm (ls ++ gs ++ xs) := by
  induction xs generalizing ls gs with
  | nil => rw [lomuto, List.append_nil]
  | cons x xs ih =>
    rw [lomuto]
    split_ifs with hle
    · refine ih.trans ?_
      have hrotate : (ls ++ [x] ++ gs.rotate 1).Perm (ls ++ gs ++ [x]) := by
        rw [List.append_assoc, List.append_assoc]
        exact (((List.rotate_perm gs 1).append_left [x]).trans List.perm_append_comm).append_left ls
      rw [List.append_cons (ls ++ gs) x xs]
      exact hrotate.append_right xs
    · refine ih.trans (List.Perm.of_eq ?_)
      simp

/-- The parts of a whole list. -/
theorem length_lomuto (cmp : α → α → ℤ) (p : α) (xs : List α) :
    (lomuto cmp p [] [] xs).1.length + (lomuto cmp p [] [] xs).2.length = xs.length := by
  have hperm : ((lomuto cmp p [] [] xs).1 ++ (lomuto cmp p [] [] xs).2).Perm ([] ++ [] ++ xs) :=
    lomuto_perm
  rw [← List.length_append]
  exact hperm.length_eq

theorem lomuto_fst_le (h : ∀ a ∈ ls, cmp a p ≤ 0) : ∀ a ∈ (lomuto cmp p ls gs xs).1, cmp a p ≤ 0 := by
  induction xs generalizing ls gs with
  | nil => exact h
  | cons x xs ih =>
    rw [lomuto]
    split_ifs with hle
    · refine ih fun a ha => ?_
      rcases List.mem_append.mp ha with ha | ha
      · exact h a ha
      · rwa [List.mem_singleton.mp ha]
    · exact ih h

theorem lomuto_snd_lt (h : ∀ a ∈ gs, 0 < cmp a p) : ∀ a ∈ (lomuto cmp p ls gs xs).2, 0 < cmp a p := by
  induction xs generalizing ls gs with
  | nil => exact h
  | cons x xs ih =>
    rw [lomuto]
    split_ifs with hle
    · exact ih fun a ha => h a (List.mem_rotate.mp ha)
    · refine ih fun a ha => ?_
      rcases List.mem_append.mp ha with ha | ha
      · exact h a ha
      · rw [List.mem_singleton.mp ha]
        exact not_le.mp hle

/-- There is nothing to sort in a list of less than two elements. -/
theorem Ascending.of_length_lt (h : xs.length < 2) : Ascending cmp xs := by
  match xs with
  | [] => exact List.Pairwise.nil
  | [a] => exact List.pairwise_singleton _ a
  | _ :: _ :: _ => exact absurd h (by simp)

/-- **Sorting the two parts sorts the list.** -/
theorem Ascending.partition (hlaw : LawfulComparator cmp) (hls : Ascending cmp ls)
    (hgs : Ascending cmp gs) (hle : ∀ a ∈ ls, cmp a p ≤ 0) (hgt : ∀ a ∈ gs, 0 < cmp a p) :
    Ascending cmp (ls ++ p :: gs) := by
  have habove : ∀ b ∈ gs, cmp p b ≤ 0 := by
    intro b hb
    have := (hlaw.swap b p).mp (hgt b hb)
    omega
  refine List.pairwise_append.mpr ⟨hls, List.pairwise_cons.mpr ⟨habove, hgs⟩, ?_⟩
  intro a ha b hb
  rcases List.mem_cons.mp hb with rfl | hb
  · exact hle a ha
  · exact hlaw.trans a p b (hle a ha) (habove b hb)

end VeritableLasagna
