import VeritableLasagna.Memory.Sort

/-!
# What the memory sort computes, and where it leaves its memory

The top of the stack of `vl_MemSortQuicksort` is a range, and until the loop comes back to what is
below it, it has sorted that range and touched nothing else (**`vlMemSortQuicksortLoop_spec`**). The
proof is by induction on the length of the range. Its invariant says that the stack and the range
together are no longer than the slots: both parts of a range have, without the pivot, one element less
than the range, and a part is pushed only if it has the two elements its two integers stand for. So
the stack is large enough for every comparator.

This needs two elements to begin with, for the first range is pushed without a test: an array of one
element has one slot for its two integers, and an empty one has none (`vlMemSort_inBounds_iff`).
-/

namespace VeritableLasagna

/-- The stack with the range of `len` elements from index `lo` on, if it has two or more. -/
def pendingRange (lo len : ℕ) (rest : List ℤ) : List ℤ :=
  if 2 ≤ len then ((lo : ℤ) + len - 1) :: (lo : ℤ) :: rest else rest

section Pending

variable {lo len slots : ℕ} {rest stack : List ℤ} {low high : ℤ}

/-- A range takes no more slots than it has elements. -/
theorem length_pendingRange_le : (pendingRange lo len rest).length ≤ rest.length + len := by
  rw [pendingRange]
  split_ifs with hlen
  · simp only [List.length_cons]
    omega
  · exact Nat.le_add_right _ _

theorem vlMemSortPushRange_spec (hlow : low = lo) (hhigh : high = (lo : ℤ) + len - 1)
    (hroom : 2 ≤ len → stack.length + 2 ≤ slots) :
    vlMemSortPushRange slots stack low high = .ok (pendingRange lo len stack) := by
  rw [vlMemSortPushRange, pendingRange]
  by_cases hlen : 2 ≤ len
  · have hrange : low < high := by omega
    have hslots := hroom hlen
    have hsecond : (low :: stack).length < slots := by
      rw [List.length_cons]
      omega
    rw [if_pos hrange, if_pos hlen, vlMemSortPush, if_pos (by omega), ok_bind, vlMemSortPush,
      if_pos hsecond, hlow, hhigh]
  · rw [if_neg (by omega), if_neg hlen]

end Pending

section Rounds

variable {slots : ℕ} {buffer : VlSortBuffer} {pre seg post xs : List (List UInt8)} {rest : List ℤ}
  {p : List UInt8}

/-- **One round** partitions the range on top of the stack, and replaces it by its two parts, the
right one on top. -/
theorem vlMemSortQuicksortLoop_round (comparator : List UInt8 → List UInt8 → ℤ)
    (h : buffer.elements = pre ++ xs ++ p :: post) (hxs : 0 < xs.length)
    (hslots : rest.length + (xs.length + 1) ≤ slots) :
    ∃ (b : VlSortBuffer) (ls gs : List (List UInt8)),
      (∀ fuel, vlMemSortQuicksortLoop comparator slots (fuel + 1) buffer
          (pendingRange pre.length (xs.length + 1) rest) =
        vlMemSortQuicksortLoop comparator slots fuel b
          (pendingRange (pre.length + ls.length + 1) gs.length
            (pendingRange pre.length ls.length rest))) ∧
      buffer.Keeps b ∧ b.elements = pre ++ ls ++ p :: gs ++ post ∧ (ls ++ gs).Perm xs ∧
      (∀ a ∈ ls, comparator a p ≤ 0) ∧ ∀ a ∈ gs, 0 < comparator a p := by
  obtain ⟨b, hpartition, hkeeps, helements⟩ := vlMemSortPartition_spec comparator h rfl rfl
  have hperm : ((lomuto comparator p [] [] xs).1 ++ (lomuto comparator p [] [] xs).2).Perm
      ([] ++ [] ++ xs) := lomuto_perm
  have hle : ∀ a ∈ (lomuto comparator p [] [] xs).1, comparator a p ≤ 0 :=
    lomuto_fst_le fun a ha => absurd ha List.not_mem_nil
  have hgt : ∀ a ∈ (lomuto comparator p [] [] xs).2, 0 < comparator a p :=
    lomuto_snd_lt fun a ha => absurd ha List.not_mem_nil
  generalize lomuto comparator p [] [] xs = r at hpartition helements hperm hle hgt
  obtain ⟨ls, gs⟩ := r
  have hrotate : (gs.rotate 1).length = gs.length := List.length_rotate ..
  have hcount : ls.length + gs.length = xs.length := by
    rw [← List.length_append]
    exact hperm.length_eq
  have hstack : (pendingRange pre.length ls.length rest).length ≤ rest.length + ls.length :=
    length_pendingRange_le
  have hpush₁ : vlMemSortPushRange slots rest (pre.length : ℤ)
      ((pre.length : ℤ) + ls.length - 1) = .ok (pendingRange pre.length ls.length rest) :=
    vlMemSortPushRange_spec rfl rfl fun _ => by omega
  have hpush₂ : vlMemSortPushRange slots (pendingRange pre.length ls.length rest)
      ((pre.length : ℤ) + ls.length + 1) ((pre.length + xs.length : ℕ) : ℤ) =
      .ok (pendingRange (pre.length + ls.length + 1) (gs.rotate 1).length
        (pendingRange pre.length ls.length rest)) := by
    refine vlMemSortPushRange_spec (by push_cast; omega) ?_ fun _ => by omega
    rw [hrotate, ← hcount]
    push_cast
    omega
  have htop : ((pre.length : ℤ) + (xs.length + 1 : ℕ) - 1) = ((pre.length + xs.length : ℕ) : ℤ) := by
    push_cast
    omega
  refine ⟨b, ls, gs.rotate 1, fun fuel => ?_, hkeeps, helements,
    ((List.rotate_perm gs 1).append_left ls).trans hperm, hle,
    fun a ha => hgt a (List.mem_rotate.mp ha)⟩
  rw [pendingRange, if_pos (show 2 ≤ xs.length + 1 by omega), htop, vlMemSortQuicksortLoop,
    if_neg (List.cons_ne_nil _ _), vlMemSortPop, ok_bind]
  dsimp only
  rw [vlMemSortPop, ok_bind]
  dsimp only
  rw [hpartition, ok_bind]
  dsimp only
  rw [hpush₁, ok_bind, hpush₂, ok_bind]

/-- **The loop sorts the range on top of the stack**, in at most one round for each of its elements,
and goes on with the rest of the stack. -/
theorem vlMemSortQuicksortLoop_spec (comparator : List UInt8 → List UInt8 → ℤ)
    (h : buffer.elements = pre ++ seg ++ post) (hslots : rest.length + seg.length ≤ slots) :
    ∃ (rounds : ℕ) (b : VlSortBuffer) (seg' : List (List UInt8)), rounds ≤ seg.length ∧
      (∀ fuel, vlMemSortQuicksortLoop comparator slots (fuel + rounds) buffer
          (pendingRange pre.length seg.length rest) =
        vlMemSortQuicksortLoop comparator slots fuel b rest) ∧
      buffer.Keeps b ∧ b.elements = pre ++ seg' ++ post ∧ seg'.Perm seg ∧
      (LawfulComparator comparator → Ascending comparator seg') := by
  induction hlen : seg.length using Nat.strong_induction_on
    generalizing buffer pre seg post rest with
  | _ n ih =>
    by_cases htwo : n < 2
    · refine ⟨0, buffer, seg, Nat.zero_le _, fun fuel => ?_, .refl buffer, h, .refl seg,
        fun _ => .of_length_lt (by omega)⟩
      rw [pendingRange, if_neg (by omega), Nat.add_zero]
    · -- the last element of the range is the pivot
      obtain ⟨xs, p, rfl⟩ : ∃ xs p, seg = xs ++ [p] := by
        refine (List.eq_nil_or_concat' seg).resolve_left fun hnil => htwo ?_
        rw [← hlen, hnil]
        exact Nat.two_pos
      obtain rfl : xs.length + 1 = n := by rw [← hlen, List.length_append, List.length_singleton]
      rw [hlen] at hslots
      have hpivot : buffer.elements = pre ++ xs ++ p :: post := by
        rw [h]
        simp
      obtain ⟨b₁, ls, gs, hround, hkeeps₁, helements₁, hperm, hle, hgt⟩ :=
        vlMemSortQuicksortLoop_round comparator hpivot (by omega) hslots
      have hcount : ls.length + gs.length = xs.length := by
        rw [← List.length_append]
        exact hperm.length_eq
      have hstack : (pendingRange pre.length ls.length rest).length ≤ rest.length + ls.length :=
        length_pendingRange_le
      -- the right part is on top, and the left one is below it
      have hright : b₁.elements = (pre ++ ls ++ [p]) ++ gs ++ post := by
        rw [helements₁]
        simp
      obtain ⟨rounds₂, b₂, gs', hrounds₂, hloop₂, hkeeps₂, helements₂, hperm₂, hasc₂⟩ :=
        ih _ (by omega) hright
          (show (pendingRange pre.length ls.length rest).length + gs.length ≤ slots by omega) rfl
      have hleft : b₂.elements = pre ++ ls ++ (p :: gs' ++ post) := by
        rw [helements₂]
        simp
      obtain ⟨rounds₃, b₃, ls', hrounds₃, hloop₃, hkeeps₃, helements₃, hperm₃, hasc₃⟩ :=
        ih _ (by omega) hleft (show rest.length + ls.length ≤ slots by omega) rfl
      have hstart : (pre ++ ls ++ [p]).length = pre.length + ls.length + 1 := by
        rw [List.length_append, List.length_append, List.length_singleton]
      refine ⟨rounds₃ + rounds₂ + 1, b₃, ls' ++ p :: gs', by omega, fun fuel => ?_,
        (hkeeps₁.trans hkeeps₂).trans hkeeps₃, by rw [helements₃]; simp, ?_, fun hlaw => ?_⟩
      · rw [← Nat.add_assoc, hround, ← Nat.add_assoc, ← hstart, hloop₂, hloop₃]
      · calc (ls' ++ p :: gs').Perm (ls ++ p :: gs) := hperm₃.append (hperm₂.cons p)
          (ls ++ p :: gs).Perm (p :: (ls ++ gs)) := List.perm_middle
          (p :: (ls ++ gs)).Perm (p :: xs) := hperm.cons p
          (p :: xs).Perm (xs ++ [p]) := (List.perm_append_singleton p xs).symm
      · exact (hasc₃ hlaw).partition hlaw (hasc₂ hlaw) (fun a ha => hle a (hperm₃.subset ha))
          fun a ha => hgt a (hperm₂.subset ha)

end Rounds

/-- A sort of two elements or more, whatever the comparator is, returns the same elements in another
order, and the comparator's order if it has one. -/
theorem vlMemSortQuicksort_spec (comparator : List UInt8 → List UInt8 → ℤ) {buffer : VlSortBuffer}
    (htwo : 2 ≤ buffer.numElements) (hbound : buffer.numElements < 2 ^ 31) :
    ∃ b, vlMemSortQuicksort comparator buffer.numElements buffer = .ok b ∧ buffer.Keeps b ∧
      b.elements.Perm buffer.elements ∧
      (LawfulComparator comparator → Ascending comparator b.elements) := by
  have hwhole : buffer.elements = [] ++ buffer.elements ++ [] := by simp
  have hlength : buffer.elements.length = buffer.numElements := VlSortBuffer.length_elements
  have hlast : ((buffer.numElements : ℤ) - 1).bmod (2 ^ 32) = ((0 : ℕ) : ℤ) + buffer.numElements - 1 := by
    rw [Int.bmod_eq_of_le (by push_cast; omega) (by push_cast; omega)]
    push_cast
    omega
  obtain ⟨rounds, b, l', hrounds, hloop, hkeeps, helements, hperm, hasc⟩ :=
    vlMemSortQuicksortLoop_spec comparator hwhole
      (show ([] : List ℤ).length + buffer.elements.length ≤ buffer.numElements by
        rw [hlength, List.length_nil, Nat.zero_add])
  rw [hlength] at hrounds
  have hsorted : b.elements = l' := by
    rw [helements]
    simp
  obtain ⟨spare, hfuel⟩ : ∃ spare, buffer.numElements + 1 = spare + 1 + rounds :=
    ⟨buffer.numElements - rounds, by omega⟩
  refine ⟨b, ?_, hkeeps, hsorted ▸ hperm, fun hlaw => hsorted ▸ hasc hlaw⟩
  have hstack : pendingRange ([] : List (List UInt8)).length buffer.elements.length [] =
      [((buffer.numElements : ℤ) - 1).bmod (2 ^ 32), 0] := by
    rw [pendingRange, if_pos (by rwa [hlength]), hlength, hlast]
    rfl
  have hempty := hloop (spare + 1)
  rw [hstack, ← hfuel] at hempty
  rw [vlMemSortQuicksort, vlMemSortPush, if_pos (by rw [List.length_nil]; omega), ok_bind,
    vlMemSortPush, if_pos (by rw [List.length_singleton]; omega), ok_bind, hempty,
    vlMemSortQuicksortLoop, if_pos rfl]

/-- **`vlMemSort` sorts**: for two elements or more it ends, with the elements it was given, byte for
byte, in an order in which none of them compares greater than its successor. -/
theorem vlMemSort_sorts {comparator : List UInt8 → List UInt8 → ℤ}
    (hlaw : LawfulComparator comparator) {buffer : VlSortBuffer}
    (htwo : 2 ≤ buffer.numElements) (hbound : buffer.numElements < 2 ^ 31) :
    ∃ b, vlMemSort comparator true buffer = .ok b ∧ b.elementSize = buffer.elementSize ∧
      b.numElements = buffer.numElements ∧ b.elements.Perm buffer.elements ∧
      (∀ i x y, b.elements[i]? = some x → b.elements[i + 1]? = some y → comparator x y ≤ 0) ∧
      ∀ q, buffer.numElements * buffer.elementSize ≤ q → b.bytes q = buffer.bytes q := by
  obtain ⟨b, hop, hkeeps, hperm, hasc⟩ := vlMemSortQuicksort_spec comparator htwo hbound
  refine ⟨b, hop, hkeeps.elementSize_eq, hkeeps.numElements_eq, hperm, fun i x y hx hy => ?_,
    hkeeps.frame⟩
  obtain ⟨hi, rfl⟩ := List.getElem?_eq_some_iff.mp hx
  obtain ⟨hi', rfl⟩ := List.getElem?_eq_some_iff.mp hy
  exact List.pairwise_iff_getElem.mp (hasc hlaw) i (i + 1) hi hi' (Nat.lt_succ_self i)

/-- A sort of three numbers of two bytes. -/
theorem vlMemSort_sorts_three :
    ∃ b, vlMemSort (fun x y => (natOfLE x : ℤ) - natOfLE y) true
        ⟨ByteMem.write (fun _ => 0) 0 [7, 1, 5, 0, 6, 0], 2, 3⟩ = .ok b ∧
      b.elements.Perm [[7, 1], [5, 0], [6, 0]] ∧
      ∀ i x y, b.elements[i]? = some x → b.elements[i + 1]? = some y →
        (natOfLE x : ℤ) - natOfLE y ≤ 0 := by
  have hlaw : LawfulComparator fun x y : List UInt8 => (natOfLE x : ℤ) - natOfLE y :=
    lawfulComparator_sub.comap fun x => (natOfLE x : ℤ)
  obtain ⟨b, hop, -, -, hperm, hsorted, -⟩ := vlMemSort_sorts hlaw
    (show 2 ≤ (⟨ByteMem.write (fun _ => 0) 0 [7, 1, 5, 0, 6, 0], 2, 3⟩ : VlSortBuffer).numElements by
      decide) (by decide)
  exact ⟨b, hop, hperm, hsorted⟩

/-- **`vlMemSort` stays in bounds exactly from two elements on**, whatever the comparator and the size
of the elements are, if it sorts at all. -/
theorem vlMemSort_inBounds_iff (comparator : List UInt8 → List UInt8 → ℤ) (served : Bool)
    {buffer : VlSortBuffer} (hbound : buffer.numElements < 2 ^ 31) :
    vlMemSort comparator served buffer ≠ .error .outOfBounds ↔
      served = false ∨ 2 ≤ buffer.numElements := by
  cases served with
  | false =>
    refine iff_of_true (fun hop => ?_) (Or.inl rfl)
    cases hop
  | true =>
    rw [vlMemSort, if_pos rfl]
    constructor
    · intro hop
      by_contra hnot
      have hsmall : buffer.numElements < 2 := by
        have := not_or.mp hnot
        omega
      apply hop
      rcases Nat.eq_zero_or_pos buffer.numElements with hzero | hpos
      · rw [vlMemSortQuicksort, vlMemSortPush, if_neg (by rw [hzero]; exact Nat.lt_irrefl 0)]
        rfl
      · have hone : buffer.numElements = 1 := by omega
        rw [vlMemSortQuicksort, vlMemSortPush, if_pos (by rw [hone]; exact Nat.one_pos), ok_bind,
          vlMemSortPush, if_neg (by rw [hone]; exact Nat.lt_irrefl 1)]
        rfl
    · rintro (hserved | htwo)
      · cases hserved
      · obtain ⟨b, hop, -⟩ := vlMemSortQuicksort_spec comparator htwo hbound
        rw [hop]
        intro hfail
        cases hfail

/-- A sort of two elements of no bytes, by a comparator that is no order. -/
theorem vlMemSort_inBounds_two :
    vlMemSort (fun _ _ => 1) true ⟨fun _ => 0, 0, 2⟩ ≠ .error .outOfBounds :=
  (vlMemSort_inBounds_iff (fun _ _ => 1) true (by decide)).mpr (Or.inr (by decide))

/-- A sort of one element pushes two integers on a stack of one slot. -/
theorem vlMemSort_outOfBounds_one :
    vlMemSort (fun x y => (natOfLE x : ℤ) - natOfLE y) true ⟨fun _ => 0, 4, 1⟩ =
      .error .outOfBounds := rfl

end VeritableLasagna
