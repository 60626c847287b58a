import VeritableLasagna.Memory.Basic

/-!
# Reversing elements in place

`vlMemReverseSubArraysStride` goes through the elements of an array, which may lie apart, and exchanges the
bytes of each from both ends. What that does to a memory (`ByteMem.reverseElements`) is said byte by byte: a
byte of an element is the one that mirrors it there, and all others stay.
-/

namespace VeritableLasagna

/-- The inner loop of `vlMemReverseSubArraysStride`: the bytes at `first` and `last` are exchanged, and the
pointers converge. -/
def vlMemReverseSteps : ℕ → ℕ → ℕ → VlMemory → Except Fault VlMemory
  | 0, _, _, mem => .ok mem
  | numSteps + 1, first, last, mem => do
    let temp ← mem.load last 1
    let byte ← mem.load first 1
    let mem ← mem.store last byte
    let mem ← mem.store first temp
    vlMemReverseSteps numSteps (first + 1) (last - 1) mem

/-- The outer loop, for the elements from `srcPtr` on. In an element of no bytes `last` is not used. -/
def vlMemReverseElements (srcStride elementSize numSteps : ℕ) :
    ℕ → ℕ → VlMemory → Except Fault VlMemory
  | 0, _, mem => .ok mem
  | numElements + 1, srcPtr, mem => do
    let mem ← vlMemReverseSteps numSteps srcPtr (srcPtr + (elementSize - 1)) mem
    vlMemReverseElements srcStride elementSize numSteps numElements (srcPtr + srcStride) mem

/-- `vlMemReverseSubArraysStride`. The number of steps is a `vl_dsidx_t`, of 32 bits. -/
def vlMemReverseSubArraysStride (mem : VlMemory) (src srcStride elementSize numElements : ℕ) :
    Except Fault VlMemory :=
  vlMemReverseElements srcStride elementSize (elementSize / 2 % 2 ^ 32) numElements src mem

/-! ### What it does to a memory -/

namespace ByteMem

/-- The address is in one of the `n` bytes from `p` on. -/
def InRange (p n q : ℕ) : Prop := p ≤ q ∧ q < p + n

instance (p n q : ℕ) : Decidable (InRange p n q) := inferInstanceAs (Decidable (_ ∧ _))

/-- The `n` bytes from `p` on in reverse order. -/
def reverseRange (m : ByteMem) (p n : ℕ) : ByteMem := fun q =>
  if InRange p n q then m (p + (p + n - 1) - q) else m q

/-- The first and the last `k` bytes of those from `first` to `last` are exchanged. -/
def exchange (m : ByteMem) (first last k : ℕ) : ByteMem := fun q =>
  if InRange first k q ∨ InRange (last + 1 - k) k q then m (first + last - q) else m q

/-- Each of `n` elements in reverse order. -/
def reverseElements (stride size : ℕ) : ℕ → ℕ → ByteMem → ByteMem
  | 0, _, m => m
  | n + 1, p, m => reverseElements stride size n (p + stride) (m.reverseRange p size)

variable {m : ByteMem} {p q size stride n i : ℕ}

/-- **Exchanging half of the bytes** from both ends reverses all. -/
theorem exchange_half (hsize : 0 < size) :
    m.exchange p (p + (size - 1)) (size / 2) = m.reverseRange p size := by
  funext q
  rw [exchange, reverseRange]
  by_cases hin : InRange p size q
  · rw [if_pos hin]
    rw [InRange] at hin
    have hlast : p + size - 1 = p + (size - 1) := by omega
    rw [hlast]
    split_ifs with hends
    · rfl
    · -- the byte in the middle
      simp only [InRange, not_or, not_and, not_lt] at hends
      congr 1
      omega
  · rw [if_neg hin, if_neg]
    simp only [InRange] at hin ⊢
    omega

/-- **A byte that is in no element** stays. -/
theorem reverseElements_of_not (h : ∀ i < n, ¬ InRange (p + i * stride) size q) :
    reverseElements stride size n p m q = m q := by
  induction n generalizing p m with
  | zero => rfl
  | succ n ih =>
    have hfirst := h 0 (Nat.succ_pos n)
    rw [Nat.zero_mul, Nat.add_zero] at hfirst
    rw [reverseElements, ih, reverseRange, if_neg hfirst]
    intro i hi hin
    refine h (i + 1) (by omega) ?_
    rwa [Nat.succ_mul, Nat.add_comm (i * stride), ← Nat.add_assoc]

/-- **A byte of an element** is the one that mirrors it there. -/
theorem reverseElements_of_mem (hstride : size ≤ stride) (hi : i < n) (h : InRange (p + i * stride) size q) :
    reverseElements stride size n p m q = m (2 * (p + i * stride) + size - 1 - q) := by
  induction n generalizing p m i with
  | zero => exact absurd hi (Nat.not_lt_zero _)
  | succ n ih =>
    rw [reverseElements]
    cases i with
    | zero =>
      rw [Nat.zero_mul, Nat.add_zero] at h ⊢
      rw [reverseElements_of_not, reverseRange, if_pos h]
      · rw [InRange] at h
        congr 1
        omega
      · -- the other elements lie behind
        intro j _ hin
        rw [InRange] at h hin
        omega
    | succ i =>
      have hnext : p + stride + i * stride = p + (i + 1) * stride := by
        rw [Nat.succ_mul, Nat.add_comm (i * stride), ← Nat.add_assoc]
      rw [← hnext] at h ⊢
      rw [ih (by omega) h, reverseRange, if_neg]
      rw [InRange] at h ⊢
      omega

/-- **Reversing the elements twice** restores the memory. -/
theorem reverseElements_reverseElements (hstride : size ≤ stride) :
    reverseElements stride size n p (reverseElements stride size n p m) = m := by
  funext q
  by_cases h : ∃ i < n, InRange (p + i * stride) size q
  · obtain ⟨i, hi, hin⟩ := h
    have hmirror : InRange (p + i * stride) size (2 * (p + i * stride) + size - 1 - q) := by
      rw [InRange] at hin ⊢
      omega
    rw [reverseElements_of_mem hstride hi hin, reverseElements_of_mem hstride hi hmirror]
    rw [InRange] at hin
    congr 1
    omega
  · have hnot : ∀ i < n, ¬ InRange (p + i * stride) size q := fun i hi hin => h ⟨i, hi, hin⟩
    rw [reverseElements_of_not hnot, reverseElements_of_not hnot]

/-- **The bytes of an element** are in reverse order. -/
theorem slice_reverseElements (hstride : size ≤ stride) (hi : i < n) :
    (reverseElements stride size n p m).slice (p + i * stride) size =
      (m.slice (p + i * stride) size).reverse := by
  refine List.ext_getElem (by rw [List.length_reverse, length_slice, length_slice]) fun k hk _ => ?_
  rw [length_slice] at hk
  have hin : InRange (p + i * stride) size (p + i * stride + k) := ⟨Nat.le_add_right _ _, by omega⟩
  rw [getElem_slice, List.getElem_reverse, getElem_slice, reverseElements_of_mem hstride hi hin,
    length_slice]
  congr 1
  omega

theorem write_one {b : UInt8} : m.write p [b] q = if q = p then b else m q := by
  rcases lt_trichotomy q p with hlt | rfl | hgt
  · rw [write_of_lt hlt, if_neg hlt.ne]
  · have hself : m.write q [b] (q + 0) = [b][0] := write_add (Nat.one_pos)
    rw [Nat.add_zero] at hself
    rw [hself, if_pos rfl]
    rfl
  · have hlength : [b].length = 1 := rfl
    rw [write_of_ge (by rw [hlength]; omega), if_neg hgt.ne']

/-- **One step of the inner loop.** -/
theorem exchange_succ {first last k : ℕ} (hk : first + 2 * (k + 1) ≤ last + 1) :
    ((m.write last [m first]).write first [m last]).exchange (first + 1) (last - 1) k =
      m.exchange first last (k + 1) := by
  funext q
  rw [exchange, exchange, write_one, write_one, write_one, write_one]
  have hmirror : first + 1 + (last - 1) - q = first + last - q := by omega
  rw [hmirror]
  by_cases hinner : InRange (first + 1) k q ∨ InRange (last - 1 + 1 - k) k q
  · have houter : InRange first (k + 1) q ∨ InRange (last + 1 - (k + 1)) (k + 1) q := by
      simp only [InRange] at hinner ⊢
      omega
    rw [if_pos hinner, if_pos houter]
    simp only [InRange] at hinner
    rw [if_neg (by omega), if_neg (by omega)]
  · rw [if_neg hinner]
    by_cases hfirst : q = first
    · have houter : InRange first (k + 1) q ∨ InRange (last + 1 - (k + 1)) (k + 1) q := by
        simp only [InRange]
        omega
      rw [if_pos hfirst, if_pos houter, hfirst, Nat.add_sub_cancel_left]
    · rw [if_neg hfirst]
      by_cases hlast : q = last
      · have houter : InRange first (k + 1) q ∨ InRange (last + 1 - (k + 1)) (k + 1) q := by
          simp only [InRange]
          omega
        rw [if_pos hlast, if_pos houter, hlast, Nat.add_sub_cancel]
      · have houter : ¬ (InRange first (k + 1) q ∨ InRange (last + 1 - (k + 1)) (k + 1) q) := by
          simp only [InRange] at hinner ⊢
          omega
        rw [if_neg hlast, if_neg houter]

theorem exchange_zero {first last : ℕ} : m.exchange first last 0 = m := by
  funext q
  rw [exchange, if_neg]
  simp only [InRange]
  omega

end ByteMem

/-! ### The loops -/

section Loops

variable {mem : VlMemory} {first last k size stride n p : ℕ}

/-- **The inner loop** exchanges bytes. -/
theorem vlMemReverseSteps_eq (hk : first + 2 * k ≤ last + 1) (hlast : last < mem.size) :
    vlMemReverseSteps k first last mem = .ok { mem with bytes := mem.bytes.exchange first last k } := by
  induction k generalizing first last mem with
  | zero => rw [vlMemReverseSteps, ByteMem.exchange_zero]
  | succ k ih =>
    have hone : ∀ b : UInt8, [b].length = 1 := fun _ => rfl
    rw [vlMemReverseSteps, VlMemory.load_eq (by omega), ok_bind, VlMemory.load_eq (by omega), ok_bind,
      ByteMem.slice_one, ByteMem.slice_one, VlMemory.store_eq (by rw [hone]; omega), ok_bind,
      VlMemory.store_eq (by rw [hone]; dsimp only; omega), ok_bind, ih (by omega) (by dsimp only; omega)]
    dsimp only
    rw [ByteMem.exchange_succ hk]

/-- **The loops** reverse elements. -/
theorem vlMemReverseElements_eq (hsize : size ≤ stride) (hfit : ∀ i < n, p + i * stride + size ≤ mem.size) :
    vlMemReverseElements stride size (size / 2) n p mem =
      .ok { mem with bytes := mem.bytes.reverseElements stride size n p } := by
  induction n generalizing p mem with
  | zero => rfl
  | succ n ih =>
    have hfirst := hfit 0 (Nat.succ_pos n)
    rw [Nat.zero_mul, Nat.add_zero] at hfirst
    have hsteps : vlMemReverseSteps (size / 2) p (p + (size - 1)) mem =
        .ok { mem with bytes := mem.bytes.reverseRange p size } := by
      rcases Nat.eq_zero_or_pos size with rfl | hpos
      · have hnone : mem.bytes.reverseRange p 0 = mem.bytes := by
          funext q
          exact if_neg fun h => absurd h.2 (by have := h.1; omega)
        rw [hnone]
        rfl
      · rw [vlMemReverseSteps_eq (by omega) (by omega), ByteMem.exchange_half hpos]
    rw [vlMemReverseElements, hsteps, ok_bind, ih, ByteMem.reverseElements]
    intro i hi
    have hnext := hfit (i + 1) (by omega)
    rw [Nat.succ_mul] at hnext
    dsimp only
    omega

end Loops

/-- **`vlMemReverseSubArraysStride`** reverses each element, leaves all other bytes as they are, and undoes what
it has done. -/
theorem vlMemReverseSubArraysStride_spec {mem : VlMemory} {src stride size n : ℕ} (hsize : size < 2 ^ 33)
    (hstride : size ≤ stride) (hfit : ∀ i < n, src + i * stride + size ≤ mem.size) :
    Returns (vlMemReverseSubArraysStride mem src stride size n) fun mem' =>
      mem'.size = mem.size ∧
      (∀ i < n, mem'.bytes.slice (src + i * stride) size =
        (mem.bytes.slice (src + i * stride) size).reverse) ∧
      (∀ q, (∀ i < n, ¬ (src + i * stride ≤ q ∧ q < src + i * stride + size)) →
        mem'.bytes q = mem.bytes q) ∧
      vlMemReverseSubArraysStride mem' src stride size n = .ok mem := by
  have hsteps : size / 2 % 2 ^ 32 = size / 2 := Nat.mod_eq_of_lt (by omega)
  rw [vlMemReverseSubArraysStride, hsteps, vlMemReverseElements_eq hstride hfit]
  refine returns_ok ⟨rfl, fun i hi => ByteMem.slice_reverseElements hstride hi,
    fun q hq => ByteMem.reverseElements_of_not hq, ?_⟩
  have htwice : vlMemReverseElements stride size (size / 2) n src
      ⟨mem.bytes.reverseElements stride size n src, mem.size⟩ =
      .ok ⟨(mem.bytes.reverseElements stride size n src).reverseElements stride size n src, mem.size⟩ :=
    vlMemReverseElements_eq hstride hfit
  rw [vlMemReverseSubArraysStride, hsteps, htwice, ByteMem.reverseElements_reverseElements hstride]

/-- Three elements of three bytes, five bytes apart. -/
theorem vlMemReverseSubArraysStride_spec_three : Returns
    (vlMemReverseSubArraysStride ⟨fun q => UInt8.ofNat q, 13⟩ 0 5 3 3) fun mem' => mem'.size = 13 ∧
      (∀ i < 3, mem'.bytes.slice (0 + i * 5) 3 =
        (ByteMem.slice (fun q => UInt8.ofNat q) (0 + i * 5) 3).reverse) ∧
      (∀ q, (∀ i < 3, ¬ (0 + i * 5 ≤ q ∧ q < 0 + i * 5 + 3)) → mem'.bytes q = UInt8.ofNat q) ∧
      vlMemReverseSubArraysStride mem' 0 5 3 3 = .ok ⟨fun q => UInt8.ofNat q, 13⟩ :=
  vlMemReverseSubArraysStride_spec (by norm_num) (by norm_num) (by decide)

end VeritableLasagna
