import VeritableLasagna.Lib.Comparator

/-!
# Bottom-up merge sort

A list is cut into **runs** of one length, each of them in order. One **pass** merges neighbouring
runs in pairs, which doubles the length of the runs (`Runs.mergePass`) and only moves elements past
others that compare greater (`Runs.rearranges`). When one run is as long as the list, the list is in
order.
-/

namespace VeritableLasagna

variable {α β : Type*} {cmp : α → α → ℤ} {l l' l'' l₁ l₂ xs ys : List α} {k : ℕ}

/-- No element compares greater than a later one. -/
def Ascending (cmp : α → α → ℤ) (l : List α) : Prop := l.Pairwise fun a b => cmp a b ≤ 0

/-- The same elements in another order, those that compare equal in the same one. -/
structure Rearranges (cmp : α → α → ℤ) (l l' : List α) : Prop where
  perm : l'.Perm l
  stable : ∀ e, (l'.filter fun a => cmp e a = 0) = l.filter fun a => cmp e a = 0

namespace Rearranges

theorem refl (l : List α) : Rearranges cmp l l := ⟨.refl l, fun _ => rfl⟩

theorem trans (h : Rearranges cmp l l') (h' : Rearranges cmp l' l'') : Rearranges cmp l l'' :=
  ⟨h'.perm.trans h.perm, fun e => (h'.stable e).trans (h.stable e)⟩

theorem append (h₁ : Rearranges cmp l₁ xs) (h₂ : Rearranges cmp l₂ ys) :
    Rearranges cmp (l₁ ++ l₂) (xs ++ ys) := by
  refine ⟨h₁.perm.append h₂.perm, fun e => ?_⟩
  rw [List.filter_append, List.filter_append, h₁.stable, h₂.stable]

end Rearranges

/-! ### Merging -/

/-- The test of a merge: the first argument goes first, unless it compares greater. -/
def notAbove (cmp : α → α → ℤ) (a b : α) : Bool := cmp a b ≤ 0

theorem notAbove_iff {a b : α} : notAbove cmp a b = true ↔ cmp a b ≤ 0 := decide_eq_true_iff

/-- A merge of two lists in order is in order. -/
theorem Ascending.merge (hlaw : LawfulComparator cmp) (hxs : Ascending cmp xs)
    (hys : Ascending cmp ys) : Ascending cmp (xs.merge ys (notAbove cmp)) := by
  have htrans : ∀ a b c, notAbove cmp a b → notAbove cmp b c → notAbove cmp a c := by
    simp only [notAbove_iff]
    exact hlaw.trans
  have htotal : ∀ a b, (notAbove cmp a b || notAbove cmp b a) = true := by
    intro a b
    rw [Bool.or_eq_true, notAbove_iff, notAbove_iff]
    have := hlaw.swap a b
    omega
  have hmerge := List.pairwise_merge htrans htotal xs ys (hxs.imp notAbove_iff.mpr)
    (hys.imp notAbove_iff.mpr)
  exact hmerge.imp notAbove_iff.mp

/-- **A merge is stable**: it moves no element past one that compares equal. -/
theorem Ascending.filter_merge (hlaw : LawfulComparator cmp) (e : α) (hxs : Ascending cmp xs)
    (hys : Ascending cmp ys) :
    ((xs.merge ys (notAbove cmp)).filter fun a => cmp e a = 0) =
      (xs.filter fun a => cmp e a = 0) ++ ys.filter fun a => cmp e a = 0 := by
  induction xs generalizing ys with
  | nil => rw [List.nil_merge, List.filter_nil, List.nil_append]
  | cons x xs ihx =>
    induction ys with
    | nil => rw [List.merge_right, List.filter_nil, List.append_nil]
    | cons y ys ihy =>
      rw [List.cons_merge_cons]
      split_ifs with hle
      · rw [List.filter_cons, ihx (List.pairwise_cons.mp hxs).2 hys, List.filter_cons (x := x)]
        split_ifs <;> rfl
      · -- everything in the first list is above `y`
        have habove : ∀ a ∈ x :: xs, cmp y a < 0 := by
          intro a ha
          have hyx : cmp y x < 0 := by
            rw [notAbove_iff] at hle
            have := hlaw.swap x y
            omega
          rcases List.mem_cons.mp ha with rfl | ha
          · exact hyx
          · exact hlaw.lt_trans_le hyx ((List.pairwise_cons.mp hxs).1 a ha)
        rw [List.filter_cons, ihy (List.pairwise_cons.mp hys).2, List.filter_cons (x := y)]
        split_ifs with heq
        · have hnone : ((x :: xs).filter fun a => cmp e a = 0) = [] := by
            refine List.filter_eq_nil_iff.mpr fun a ha hea => ?_
            have hya := hlaw.eq_zero_of_eq_zero (of_decide_eq_true heq) (of_decide_eq_true hea)
            exact absurd hya (habove a ha).ne
          rw [hnone, List.nil_append, List.nil_append]
        · rfl

theorem Ascending.rearranges_merge (hlaw : LawfulComparator cmp) (hxs : Ascending cmp xs)
    (hys : Ascending cmp ys) : Rearranges cmp (xs ++ ys) (xs.merge ys (notAbove cmp)) := by
  refine ⟨List.merge_perm_append _, fun e => ?_⟩
  rw [hxs.filter_merge hlaw e hys, List.filter_append]

/-! ### Passes -/

/-- The list is cut into runs of length `k`, the last of which may be shorter, and each run is in
order. -/
inductive Runs (cmp : α → α → ℤ) (k : ℕ) : List α → Prop
  | last {l : List α} : Ascending cmp l → l.length ≤ k → Runs cmp k l
  | cons {r l : List α} : Ascending cmp r → r.length = k → Runs cmp k l → Runs cmp k (r ++ l)

/-- Merge neighbouring runs of length `k` in pairs. -/
def mergePass (cmp : α → α → ℤ) (k : ℕ) (l : List α) : List α :=
  if l.length ≤ k ∨ k = 0 then l
  else (l.take k).merge ((l.drop k).take k) (notAbove cmp) ++ mergePass cmp k ((l.drop k).drop k)
termination_by l.length
decreasing_by
  rw [List.length_drop, List.length_drop]
  omega

@[simp] theorem mergePass_nil : mergePass cmp k [] = [] := by
  rw [mergePass, if_pos (Or.inl (by rw [List.length_nil]; exact Nat.zero_le k))]

/-- One step of a pass, which takes whatever is left of two runs. -/
theorem mergePass_eq (hk : 0 < k) :
    mergePass cmp k l = (l.take k).merge ((l.drop k).take k) (notAbove cmp) ++
      mergePass cmp k ((l.drop k).drop k) := by
  by_cases hlen : l.length ≤ k
  · have hself : mergePass cmp k l = l := by rw [mergePass, if_pos (Or.inl hlen)]
    rw [hself, List.take_of_length_le hlen, List.drop_eq_nil_of_le hlen, List.drop_nil,
      List.take_nil, List.merge_right, mergePass_nil, List.append_nil]
  · rw [mergePass, if_neg (by omega)]

namespace Runs

/-- Every list is cut into runs of one element. -/
theorem one (l : List α) : Runs cmp 1 l := by
  induction l with
  | nil => exact .last List.Pairwise.nil (Nat.zero_le 1)
  | cons a l ih => exact .cons (List.pairwise_singleton _ a) rfl ih

/-- A run as long as the list is the list. -/
theorem ascending (h : Runs cmp k l) (hlen : l.length ≤ k) : Ascending cmp l := by
  cases h with
  | last hl => exact hl
  | @cons r l hr hk hl =>
    rw [List.length_append] at hlen
    obtain rfl : l = [] := List.eq_nil_of_length_eq_zero (by omega)
    rwa [List.append_nil]

/-- The first run, and the rest. -/
theorem split (h : Runs cmp k l) : Ascending cmp (l.take k) ∧ Runs cmp k (l.drop k) := by
  cases h with
  | last hl hlen =>
    rw [List.take_of_length_le hlen, List.drop_eq_nil_of_le hlen]
    exact ⟨hl, .last List.Pairwise.nil (Nat.zero_le k)⟩
  | cons hr hk hl =>
    rw [List.take_left' hk, List.drop_left' hk]
    exact ⟨hr, hl⟩

variable (hlaw : LawfulComparator cmp)

include hlaw in
/-- **A pass rearranges** the list, and doubles the length of the runs. -/
theorem mergePass_spec (hk : 0 < k) (h : Runs cmp k l) :
    Rearranges cmp l (mergePass cmp k l) ∧ Runs cmp (2 * k) (mergePass cmp k l) := by
  induction hn : l.length using Nat.strong_induction_on generalizing l with
  | _ n ih =>
    obtain ⟨hfirst, hrest⟩ := h.split
    obtain ⟨hsecond, hrest'⟩ := hrest.split
    rw [mergePass_eq hk]
    have hmerge := hfirst.rearranges_merge hlaw hsecond
    have hasc := hfirst.merge hlaw hsecond
    have hlen := List.length_merge (notAbove cmp) (l.take k) ((l.drop k).take k)
    have hcut : l.take k ++ (l.drop k).take k ++ (l.drop k).drop k = l := by
      rw [List.append_assoc, List.take_append_drop, List.take_append_drop]
    by_cases hlong : l.length ≤ 2 * k
    · have hnil : (l.drop k).drop k = [] :=
        List.drop_eq_nil_of_le (by rw [List.length_drop]; omega)
      rw [hnil, List.append_nil] at hcut
      rw [hnil, mergePass_nil, List.append_nil]
      rw [hcut] at hmerge
      exact ⟨hmerge, .last hasc (hmerge.perm.length_eq.trans_le hlong)⟩
    · obtain ⟨hrear, hruns⟩ := ih ((l.drop k).drop k).length
        (by rw [List.length_drop, List.length_drop]; omega) hrest' rfl
      have hall := hmerge.append hrear
      rw [hcut] at hall
      refine ⟨hall, .cons hasc ?_ hruns⟩
      rw [hlen, List.length_take, List.length_take, List.length_drop]
      omega

end Runs

end VeritableLasagna
