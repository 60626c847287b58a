import VeritableLasagna.Lib.QuickSort
import VeritableLasagna.Memory.Basic

/-!
# The memory sort

`vlMemSort` is a quicksort without recursion: the ranges that are still to be sorted lie on a stack
of integers, which has as many slots as the array has elements. Every access to the array goes by an
index that is checked against the elements of the array, and every push is checked against the slots
of the stack, so a sort that returns stayed in bounds.

The array is a piece of memory cut into elements of one size (`VlSortBuffer.elements`). A swap of the
first element of a part with the one right behind the part rotates the part
(`VlSortBuffer.swap_spec`), so `vl_MemSortPartition` is the partition `lomuto` of lists
(**`vlMemSortPartition_spec`**).
-/

namespace VeritableLasagna

/-- The array that is sorted: the memory, and how it is cut into elements. -/
structure VlSortBuffer where
  bytes : ByteMem
  elementSize : ℕ
  numElements : ℕ

namespace VlSortBuffer

/-- Copy the element with index `i` out of the array. -/
def load (buffer : VlSortBuffer) (i : ℤ) : Except Fault (List UInt8) :=
  if 0 ≤ i ∧ i < buffer.numElements then
    .ok (buffer.bytes.slice (i.toNat * buffer.elementSize) buffer.elementSize)
  else .error .outOfBounds

/-- Copy bytes over the element with index `i`. -/
def store (buffer : VlSortBuffer) (i : ℤ) (bs : List UInt8) : Except Fault VlSortBuffer :=
  if 0 ≤ i ∧ i < buffer.numElements then
    .ok { buffer with bytes := buffer.bytes.write (i.toNat * buffer.elementSize) bs }
  else .error .outOfBounds

/-- `vl_MemSortSwap`. -/
def swap (buffer : VlSortBuffer) (a b : ℤ) : Except Fault VlSortBuffer := do
  let temp ← buffer.load a
  let x ← buffer.load b
  let buffer ← buffer.store a x
  buffer.store b temp

/-- The elements of the array. -/
def elements (buffer : VlSortBuffer) : List (List UInt8) :=
  (List.range buffer.numElements).map fun i =>
    buffer.bytes.slice (i * buffer.elementSize) buffer.elementSize

end VlSortBuffer

/-- The loop of `vl_MemSortPartition`, with the rounds that are left. -/
def vlMemSortPartitionLoop (comparator : List UInt8 → List UInt8 → ℤ) (pivot : List UInt8) :
    ℕ → VlSortBuffer → ℤ → ℤ → Except Fault (ℤ × VlSortBuffer)
  | 0, buffer, i, _ => .ok (i, buffer)
  | rounds + 1, buffer, i, j => do
    let x ← buffer.load j
    if comparator x pivot ≤ 0 then
      let buffer ← buffer.swap (i + 1) j
      vlMemSortPartitionLoop comparator pivot rounds buffer (i + 1) (j + 1)
    else vlMemSortPartitionLoop comparator pivot rounds buffer i (j + 1)

/-- `vl_MemSortPartition`: the rounds are those of `for (j = low; j <= high - 1; j++)`. -/
def vlMemSortPartition (comparator : List UInt8 → List UInt8 → ℤ) (buffer : VlSortBuffer)
    (low high : ℤ) : Except Fault (ℤ × VlSortBuffer) := do
  let pivot ← buffer.load high
  let (i, buffer) ← vlMemSortPartitionLoop comparator pivot (high - low).toNat buffer (low - 1) low
  let buffer ← buffer.swap (i + 1) high
  return (i + 1, buffer)

/-- Push an integer on the stack, the top first, of a number of slots. -/
def vlMemSortPush (slots : ℕ) (stack : List ℤ) (x : ℤ) : Except Fault (List ℤ) :=
  if stack.length < slots then .ok (x :: stack) else .error .outOfBounds

/-- Pop an integer off the stack. -/
def vlMemSortPop : List ℤ → Except Fault (ℤ × List ℤ)
  | [] => .error .outOfBounds
  | x :: stack => .ok (x, stack)

/-- Push the range from `low` to `high` when it has two elements or more. -/
def vlMemSortPushRange (slots : ℕ) (stack : List ℤ) (low high : ℤ) : Except Fault (List ℤ) :=
  if low < high then do
    let stack ← vlMemSortPush slots stack low
    vlMemSortPush slots stack high
  else .ok stack

/-- The loop of `vl_MemSortQuicksort`, which ends with an empty stack. -/
def vlMemSortQuicksortLoop (comparator : List UInt8 → List UInt8 → ℤ) (slots : ℕ) :
    ℕ → VlSortBuffer → List ℤ → Except Fault VlSortBuffer
  | 0, _, _ => .error .noReturn
  | fuel + 1, buffer, stack =>
    if stack = [] then .ok buffer
    else do
      let (high, stack) ← vlMemSortPop stack
      let (low, stack) ← vlMemSortPop stack
      let (p, buffer) ← vlMemSortPartition comparator buffer low high
      let stack ← vlMemSortPushRange slots stack low (p - 1)
      let stack ← vlMemSortPushRange slots stack (p + 1) high
      vlMemSortQuicksortLoop comparator slots fuel buffer stack

/-- `vl_MemSortQuicksort`. The last index is converted to a signed integer of 32 bits. Every round
takes an element out of the ranges that are pending, so the fuel is one round for each. -/
def vlMemSortQuicksort (comparator : List UInt8 → List UInt8 → ℤ) (slots : ℕ)
    (buffer : VlSortBuffer) : Except Fault VlSortBuffer := do
  let stack ← vlMemSortPush slots [] 0
  let stack ← vlMemSortPush slots stack (((buffer.numElements : ℤ) - 1).bmod (2 ^ 32))
  vlMemSortQuicksortLoop comparator slots (buffer.numElements + 1) buffer stack

/-- `vlMemSort`. Where the heap does not serve the working memory, the array is left as it is. -/
def vlMemSort (comparator : List UInt8 → List UInt8 → ℤ) (served : Bool) (buffer : VlSortBuffer) :
    Except Fault VlSortBuffer :=
  if served then vlMemSortQuicksort comparator buffer.numElements buffer else .ok buffer

/-! ### The elements of the array -/

namespace VlSortBuffer

variable {buffer b : VlSortBuffer} {pre post gs : List (List UInt8)} {x y : List UInt8} {i : ℕ}

/-- Another array in the same place: nothing behind the array has changed. -/
structure Keeps (buffer b : VlSortBuffer) : Prop where
  elementSize_eq : b.elementSize = buffer.elementSize
  numElements_eq : b.numElements = buffer.numElements
  frame : ∀ q, buffer.numElements * buffer.elementSize ≤ q → b.bytes q = buffer.bytes q

namespace Keeps

theorem refl (buffer : VlSortBuffer) : buffer.Keeps buffer := ⟨rfl, rfl, fun _ _ => rfl⟩

theorem trans {b' : VlSortBuffer} (h : buffer.Keeps b) (h' : b.Keeps b') : buffer.Keeps b' := by
  refine ⟨h'.elementSize_eq.trans h.elementSize_eq, h'.numElements_eq.trans h.numElements_eq,
    fun q hq => ?_⟩
  rw [← h.frame q hq]
  exact h'.frame q (by rwa [h.elementSize_eq, h.numElements_eq])

end Keeps

@[simp] theorem length_elements : buffer.elements.length = buffer.numElements := by simp [elements]

theorem getElem_elements (hi : i < buffer.elements.length) :
    buffer.elements[i] = buffer.bytes.slice (i * buffer.elementSize) buffer.elementSize := by
  simp [elements]

/-- Every element has the bytes of its size. -/
theorem length_of_mem_elements (hx : x ∈ buffer.elements) : x.length = buffer.elementSize := by
  obtain ⟨i, -, rfl⟩ := List.mem_map.mp hx
  exact ByteMem.length_slice

/-- Two elements lie apart. -/
theorem slot_disjoint {j size : ℕ} (h : j ≠ i) :
    j * size + size ≤ i * size ∨ i * size + size ≤ j * size := by
  rcases Nat.lt_or_gt_of_ne h with h | h
  · exact Or.inl (by rw [← Nat.succ_mul]; exact Nat.mul_le_mul_right _ h)
  · exact Or.inr (by rw [← Nat.succ_mul]; exact Nat.mul_le_mul_right _ h)

/-- An element in its place is in bounds. -/
theorem index_lt (h : buffer.elements = pre ++ x :: post) : pre.length < buffer.numElements := by
  rw [← length_elements, h, List.length_append, List.length_cons]
  omega

/-- An element is loaded from its place. -/
theorem load_spec (h : buffer.elements = pre ++ x :: post) : buffer.load pre.length = .ok x := by
  have hlt := index_lt h
  have hin : pre.length < buffer.elements.length := by rwa [length_elements]
  have hx : buffer.elements[pre.length] = x := by
    simp [h]
  rw [getElem_elements] at hx
  rw [load, if_pos ⟨Int.natCast_nonneg _, Int.ofNat_lt.mpr hlt⟩, Int.toNat_natCast, hx]

/-- A store changes the element in its place, and no other one. -/
theorem store_spec (h : buffer.elements = pre ++ x :: post) (hy : y.length = buffer.elementSize) :
    ∃ b, buffer.store pre.length y = .ok b ∧ buffer.Keeps b ∧ b.elements = pre ++ y :: post := by
  have hlt := index_lt h
  have hend : pre.length * buffer.elementSize + y.length ≤
      buffer.numElements * buffer.elementSize := by
    rw [hy, ← Nat.succ_mul]
    exact Nat.mul_le_mul_right _ hlt
  refine ⟨{ buffer with bytes := buffer.bytes.write (pre.length * buffer.elementSize) y }, ?_,
    ⟨rfl, rfl, fun q hq => ByteMem.write_of_ge (hend.trans hq)⟩, ?_⟩
  · rw [store, if_pos ⟨Int.natCast_nonneg _, Int.ofNat_lt.mpr hlt⟩, Int.toNat_natCast]
  · have hset : pre ++ y :: post = buffer.elements.set pre.length y := by
      rw [h, List.set_append_right _ _ le_rfl, Nat.sub_self, List.set_cons_zero]
    rw [hset]
    refine List.ext_getElem (by simp) fun j hj hj' => ?_
    rw [getElem_elements, List.getElem_set]
    split_ifs with heq
    · subst heq
      have hself : (buffer.bytes.write (pre.length * buffer.elementSize) y).slice
          (pre.length * buffer.elementSize) y.length = y := ByteMem.slice_write_self
      rwa [hy] at hself
    · rw [getElem_elements]
      refine ByteMem.slice_write_of_disjoint ?_
      rw [hy]
      exact slot_disjoint (Ne.symm heq)

/-- **A swap rotates**: the element behind a part changes places with the first one of the part. Where
the part is empty, it changes places with itself. -/
theorem swap_spec (h : buffer.elements = pre ++ gs ++ x :: post) :
    ∃ b, buffer.swap pre.length (pre.length + gs.length : ℕ) = .ok b ∧ buffer.Keeps b ∧
      b.elements = pre ++ x :: gs.rotate 1 ++ post := by
  have hsize : ∀ z ∈ buffer.elements, z.length = buffer.elementSize :=
    fun z hz => length_of_mem_elements hz
  have hx : x.length = buffer.elementSize := hsize x (by rw [h]; simp)
  cases gs with
  | nil =>
    rw [List.append_nil] at h
    obtain ⟨b₁, hstore₁, hkeeps₁, helements₁⟩ := store_spec h hx
    obtain ⟨b₂, hstore₂, hkeeps₂, helements₂⟩ :=
      store_spec helements₁ (hx.trans hkeeps₁.elementSize_eq.symm)
    refine ⟨b₂, ?_, hkeeps₁.trans hkeeps₂, ?_⟩
    · rw [List.length_nil, Nat.add_zero, swap, load_spec h, ok_bind, ok_bind, hstore₁, ok_bind,
        hstore₂]
    · rw [helements₂]
      simp
  | cons g gs =>
    have hfirst : buffer.elements = pre ++ g :: (gs ++ x :: post) := by rw [h]; simp
    have hsecond : buffer.elements = (pre ++ g :: gs) ++ x :: post := h
    have hg : g.length = buffer.elementSize := hsize g (by rw [h]; simp)
    have hindex : (pre ++ g :: gs).length = pre.length + (g :: gs).length := List.length_append
    obtain ⟨b₁, hstore₁, hkeeps₁, helements₁⟩ := store_spec hfirst hx
    have hsecond₁ : b₁.elements = (pre ++ x :: gs) ++ x :: post := by rw [helements₁]; simp
    obtain ⟨b₂, hstore₂, hkeeps₂, helements₂⟩ :=
      store_spec hsecond₁ (hg.trans hkeeps₁.elementSize_eq.symm)
    have hindex₁ : (pre ++ x :: gs).length = pre.length + (g :: gs).length := List.length_append
    refine ⟨b₂, ?_, hkeeps₁.trans hkeeps₂, ?_⟩
    · rw [← hindex, swap, load_spec hfirst, ok_bind, load_spec hsecond, ok_bind, hstore₁, ok_bind,
        hindex, ← hindex₁, hstore₂]
    · rw [helements₂]
      simp

end VlSortBuffer

/-! ### The partition -/

section Partition

variable {buffer : VlSortBuffer} {pre post ls gs xs : List (List UInt8)}

/-- **The loop is the partition of lists**: `i` is the index of the last element of the first part, `j`
that of the next element. -/
theorem vlMemSortPartitionLoop_spec (comparator : List UInt8 → List UInt8 → ℤ) (pivot : List UInt8)
    {i j : ℤ} (h : buffer.elements = pre ++ ls ++ gs ++ xs ++ post)
    (hi : i + 1 = (pre.length + ls.length : ℕ))
    (hj : j = (pre.length + ls.length + gs.length : ℕ)) :
    ∃ b, vlMemSortPartitionLoop comparator pivot xs.length buffer i j =
        .ok ((pre.length : ℤ) + (lomuto comparator pivot ls gs xs).1.length - 1, b) ∧
      buffer.Keeps b ∧ b.elements = pre ++ (lomuto comparator pivot ls gs xs).1 ++
        (lomuto comparator pivot ls gs xs).2 ++ post := by
  induction xs generalizing buffer ls gs i j with
  | nil =>
    refine ⟨buffer, ?_, .refl buffer, ?_⟩
    · have hlast : i = (pre.length : ℤ) + ls.length - 1 := by
        push_cast at hi
        omega
      rw [hlast]
      rfl
    · rwa [List.append_nil] at h
  | cons x xs ih =>
    have hindex : ((pre ++ ls ++ gs).length : ℤ) = j := by
      rw [hj, List.length_append, List.length_append]
    have hnext : buffer.elements = (pre ++ ls ++ gs) ++ x :: (xs ++ post) := by rw [h]; simp
    have hload : buffer.load j = .ok x := by rw [← hindex, VlSortBuffer.load_spec hnext]
    rw [List.length_cons, vlMemSortPartitionLoop, hload, ok_bind, lomuto]
    split_ifs with hle
    · obtain ⟨b₁, hswap, hkeeps₁, helements₁⟩ := VlSortBuffer.swap_spec hnext
      have hfirst : ((pre ++ ls).length : ℤ) = i + 1 := by rw [hi, List.length_append]
      have hsecond : (((pre ++ ls).length + gs.length : ℕ) : ℤ) = j := by
        rw [hj, List.length_append]
      rw [hfirst, hsecond] at hswap
      have hseen : b₁.elements = pre ++ (ls ++ [x]) ++ gs.rotate 1 ++ xs ++ post := by
        rw [helements₁]
        simp
      have hi₁ : i + 1 + 1 = (pre.length + (ls ++ [x]).length : ℕ) := by
        rw [hi, List.length_append, List.length_singleton]
        push_cast
        omega
      have hj₁ : j + 1 = (pre.length + (ls ++ [x]).length + (gs.rotate 1).length : ℕ) := by
        rw [hj, List.length_append, List.length_singleton, List.length_rotate]
        push_cast
        omega
      obtain ⟨b₂, hloop, hkeeps₂, helements₂⟩ := ih hseen hi₁ hj₁
      refine ⟨b₂, ?_, hkeeps₁.trans hkeeps₂, helements₂⟩
      rw [hswap, ok_bind, hloop]
    · have hseen : buffer.elements = pre ++ ls ++ (gs ++ [x]) ++ xs ++ post := by
        rw [h]
        simp
      have hj₁ : j + 1 = (pre.length + ls.length + (gs ++ [x]).length : ℕ) := by
        rw [hj, List.length_append, List.length_singleton]
        push_cast
        omega
      exact ih hseen hi hj₁

/-- **`vl_MemSortPartition`** takes the last element of a range as the pivot, and puts it between the
two parts of the rest. It returns the index of the pivot. -/
theorem vlMemSortPartition_spec (comparator : List UInt8 → List UInt8 → ℤ) {low high : ℤ}
    {p : List UInt8} (h : buffer.elements = pre ++ xs ++ p :: post) (hlow : low = pre.length)
    (hhigh : high = (pre.length + xs.length : ℕ)) :
    ∃ b, vlMemSortPartition comparator buffer low high =
        .ok ((pre.length : ℤ) + (lomuto comparator p [] [] xs).1.length, b) ∧ buffer.Keeps b ∧
      b.elements = pre ++ (lomuto comparator p [] [] xs).1 ++
        p :: (lomuto comparator p [] [] xs).2.rotate 1 ++ post := by
  have hload : buffer.load high = .ok p := by
    rw [hhigh, ← List.length_append, VlSortBuffer.load_spec h]
  have hrounds : (high - low).toNat = xs.length := by
    rw [hhigh, hlow]
    push_cast
    omega
  have hstart : buffer.elements = pre ++ [] ++ [] ++ xs ++ (p :: post) := by
    rw [h]
    simp
  have hi : low - 1 + 1 = (pre.length + ([] : List (List UInt8)).length : ℕ) := by
    rw [hlow]
    simp
  have hj : low = (pre.length + ([] : List (List UInt8)).length +
      ([] : List (List UInt8)).length : ℕ) := hlow
  have hcount := length_lomuto comparator p xs
  obtain ⟨b₁, hloop, hkeeps₁, helements₁⟩ :=
    vlMemSortPartitionLoop_spec comparator p hstart hi hj
  obtain ⟨b₂, hswap, hkeeps₂, helements₂⟩ := VlSortBuffer.swap_spec helements₁
  generalize lomuto comparator p [] [] xs = r at hcount hloop hswap helements₂ ⊢
  have hfirst : ((pre ++ r.1).length : ℤ) = (pre.length : ℤ) + r.1.length - 1 + 1 := by
    rw [List.length_append]
    push_cast
    omega
  have hlast : (((pre ++ r.1).length + r.2.length : ℕ) : ℤ) = high := by
    rw [hhigh, List.length_append, ← hcount, Nat.add_assoc]
  rw [hfirst, hlast] at hswap
  refine ⟨b₂, ?_, hkeeps₁.trans hkeeps₂, helements₂⟩
  rw [vlMemSortPartition, hload, ok_bind, hrounds, hloop, ok_bind]
  dsimp only
  rw [hswap, ok_bind, pure_eq_ok]
  congr 2
  omega

end Partition

end VeritableLasagna
