import VeritableLasagna.Pool.Basic

/-!
# Aligned memory

Where `vlMemAllocAligned` puts the memory it returns, in the memory that `malloc` returned, and how
`VL_MEMORY_PAD_UP` rounds sizes and addresses up.
-/

namespace VeritableLasagna

/-- `sizeof(vl_memory_header)`. -/
def vlMemoryHeaderSize : ℕ := 16

/-- Where `vlMemAllocAligned` puts the memory it returns, when `malloc` returned `origin`. -/
def vlMemAllocAligned (origin align : ℕ) : ℕ :=
  if align ≤ vlDefaultMemoryAlign then origin + vlMemoryHeaderSize
  else
    let userOffset := origin + align + vlMemoryHeaderSize
    userOffset - userOffset % align

/-- `vlMemAllocAligned` returns no null pointer. -/
theorem vlMemAllocAligned_pos (origin align : ℕ) : 0 < vlMemAllocAligned origin align := by
  rw [vlMemAllocAligned]
  split_ifs with halign
  · exact Nat.lt_add_left _ (by decide)
  · have hmod : (origin + align + vlMemoryHeaderSize) % align < align :=
      Nat.mod_lt _ (by omega)
    have hheader : 0 < vlMemoryHeaderSize := by decide
    change 0 < origin + align + vlMemoryHeaderSize - (origin + align + vlMemoryHeaderSize) % align
    omega

theorem dvd_vlMemoryPadUp (len pad : ℕ) : pad ∣ vlMemoryPadUp len pad := Dvd.intro_left _ rfl

/-- **`vlMemAllocAligned` aligns** what it returns, whatever power of two is asked for. -/
theorem vlMemAllocAligned_aligned {origin bits : ℕ} (horigin : origin % 16 = 0) :
    2 ^ bits ∣ vlMemAllocAligned origin (2 ^ bits) := by
  rw [vlMemAllocAligned]
  split_ifs with hsmall
  · have hbits : bits ≤ 3 := by
      by_contra hlt
      have := Nat.pow_lt_pow_right (by norm_num : 1 < 2) (not_le.mp hlt)
      have hdefault : vlDefaultMemoryAlign = 2 ^ 3 := rfl
      omega
    have h16 : 16 ∣ origin + vlMemoryHeaderSize := by
      have : vlMemoryHeaderSize = 16 := rfl
      omega
    exact ((Nat.pow_dvd_pow 2 hbits).trans (by norm_num)).trans h16
  · exact Nat.dvd_sub_mod _

/-- Rounding an aligned address and a length up rounds the length. -/
theorem vlMemoryPadUp_add {base len pad : ℕ} (h : pad ∣ base) (hpad : 0 < pad) :
    vlMemoryPadUp (base + len) pad = base + vlMemoryPadUp len pad := by
  obtain ⟨k, rfl⟩ := h
  have hsum : pad * k + len + pad - 1 = (len + pad - 1) + pad * k := by omega
  rw [vlMemoryPadUp, vlMemoryPadUp, hsum, Nat.add_mul_div_left _ _ hpad, Nat.add_mul,
    Nat.mul_comm k, Nat.add_comm]

/-- Padding adds less than the alignment. -/
theorem vlMemoryPadUp_lt {len pad : ℕ} (hpad : 0 < pad) : vlMemoryPadUp len pad < len + pad := by
  have hdiv := Nat.div_mul_le_self (len + pad - 1) pad
  rw [vlMemoryPadUp]
  omega

/-- The bytes `vlMemAllocAligned` asks `malloc` for. -/
def vlMemAllocAlignedBytes (size align : ℕ) : ℕ :=
  if align ≤ vlDefaultMemoryAlign then size + vlMemoryHeaderSize
  else size + align + vlMemoryHeaderSize

/-- **The memory that is returned** lies in the memory that was asked for. -/
theorem vlMemAllocAligned_inside (origin size align : ℕ) :
    origin ≤ vlMemAllocAligned origin align ∧
      vlMemAllocAligned origin align + size ≤ origin + vlMemAllocAlignedBytes size align := by
  rw [vlMemAllocAligned, vlMemAllocAlignedBytes]
  split_ifs with halign
  · omega
  · have hmod : (origin + align + vlMemoryHeaderSize) % align < align :=
      Nat.mod_lt _ (by omega)
    dsimp only
    omega

end VeritableLasagna
