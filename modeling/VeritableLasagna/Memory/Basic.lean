import VeritableLasagna.Lib.Bytes
import VeritableLasagna.Lib.Machine

/-!
# Memory blocks

`vl_memory` is a block of bytes that knows its size. The model keeps a byte for every address:
those beyond the size are what the heap happens to hold there, and `vlMemRealloc` brings them into
the block. Every access is checked, so a computation that returns never left its block.
-/

namespace VeritableLasagna

/-- `vl_memory`: the bytes, and the length in the header. -/
structure VlMemory where
  bytes : ByteMem
  size : ℕ

/-- `vlMemAlloc`, when the heap holds the bytes `contents` there. -/
def vlMemAlloc (contents : ByteMem) (allocSize : ℕ) : VlMemory := ⟨contents, allocSize⟩

/-- `vlMemRealloc`. -/
def vlMemRealloc (mem : VlMemory) (allocSize : ℕ) : VlMemory := { mem with size := allocSize }

/-- `vlMemSize`. -/
def vlMemSize (mem : VlMemory) : ℕ := mem.size

/-- Reallocate to a size computed by a growth loop, unless the loop left the size alone. -/
def vlMemGrow (mem : VlMemory) (newSize : ℕ) : VlMemory :=
  if newSize ≠ vlMemSize mem then vlMemRealloc mem newSize else mem

theorem vlMemGrow_eq (mem : VlMemory) (newSize : ℕ) :
    vlMemGrow mem newSize = { mem with size := newSize } := by
  rw [vlMemGrow]
  split_ifs with h
  · rfl
  · rw [not_not.mp h]
    rfl

namespace VlMemory

variable {mem : VlMemory} {p n v : ℕ} {bs : List UInt8}

/-- Read the `n` bytes from offset `p` on. -/
def load (mem : VlMemory) (p n : ℕ) : Except Fault (List UInt8) :=
  if p + n ≤ mem.size then .ok (mem.bytes.slice p n) else .error .outOfBounds

/-- Overwrite the bytes from offset `p` on. -/
def store (mem : VlMemory) (p : ℕ) (bs : List UInt8) : Except Fault VlMemory :=
  if p + bs.length ≤ mem.size then .ok { mem with bytes := mem.bytes.write p bs }
  else .error .outOfBounds

/-- The number the `n` bytes at offset `p` stand for, least significant byte first. -/
def number (mem : VlMemory) (p n : ℕ) : ℕ := natOfLE (mem.bytes.slice p n)

/-- Read a number of `n` bytes. -/
def loadNumber (mem : VlMemory) (p n : ℕ) : Except Fault ℕ := do
  let bs ← mem.load p n
  return natOfLE bs

/-- Write a number of `n` bytes. -/
def storeNumber (mem : VlMemory) (p n v : ℕ) : Except Fault VlMemory := mem.store p (natToLE n v)

theorem load_eq (h : p + n ≤ mem.size) : mem.load p n = .ok (mem.bytes.slice p n) := if_pos h

theorem store_eq (h : p + bs.length ≤ mem.size) :
    mem.store p bs = .ok { mem with bytes := mem.bytes.write p bs } := if_pos h

theorem loadNumber_eq (h : p + n ≤ mem.size) : mem.loadNumber p n = .ok (mem.number p n) := by
  rw [loadNumber, load_eq h]
  rfl

/-- A number that was read fits its bytes. -/
theorem loadNumber_lt (h : mem.loadNumber p n = .ok v) : v < 256 ^ n := by
  obtain ⟨bs, hbs, hv⟩ := exists_of_bind_eq_ok h
  obtain rfl := Except.ok.inj hv
  rw [load] at hbs
  split_ifs at hbs
  obtain rfl := Except.ok.inj hbs
  exact natOfLE_lt.trans_eq (by rw [ByteMem.length_slice])

theorem storeNumber_eq (h : p + n ≤ mem.size) :
    mem.storeNumber p n v = .ok { mem with bytes := mem.bytes.write p (natToLE n v) } :=
  store_eq (by rwa [length_natToLE])

theorem number_congr {mem' : VlMemory} (h : mem'.bytes.slice p n = mem.bytes.slice p n) :
    mem'.number p n = mem.number p n := by
  rw [number, number, h]

end VlMemory

/-- The loop `while (newSize <= bound) newSize *= 2;` of every growing container. No allocation of
`2 ^ 63` bytes or more is served (`PTRDIFF_MAX`). -/
def vlMemDouble (bound : ℕ) : ℕ → ℕ → Except Fault ℕ
  | 0, _ => .error .noReturn
  | fuel + 1, newSize =>
    if newSize ≤ bound then
      if 2 ^ 63 ≤ newSize * 2 then .error .outOfMemory else vlMemDouble bound fuel (newSize * 2)
    else .ok newSize

/-- The loop passes its bound, and not by more than a doubling. -/
theorem vlMemDouble_spec {bound size : ℕ} (hpos : 0 < size) (hsize : size < 2 ^ 63) :
    Serves (vlMemDouble bound 65 size) fun r =>
      bound < r ∧ size ≤ r ∧ r < 2 ^ 63 ∧ (r = size ∨ r ≤ 2 * bound) := by
  have hloop : ∀ fuel n, 2 ^ 64 < n * 2 ^ fuel → size ≤ n → n < 2 ^ 63 →
      (n = size ∨ n ≤ 2 * bound) → Serves (vlMemDouble bound fuel n) fun r =>
        bound < r ∧ size ≤ r ∧ r < 2 ^ 63 ∧ (r = size ∨ r ≤ 2 * bound) := by
    intro fuel
    induction fuel with
    | zero =>
      intro n hn _ hlt _
      omega
    | succ fuel ih =>
      intro n hn hle hlt hstart
      rw [vlMemDouble]
      split_ifs with hbound hbig
      · exact Or.inl rfl
      · refine ih _ ?_ (by omega) (by omega) (Or.inr (by omega))
        rwa [Nat.mul_assoc, ← Nat.pow_succ']
      · exact serves_ok ⟨by omega, hle, hlt, hstart⟩
  refine hloop 65 size ?_ le_rfl hsize (Or.inl rfl)
  have : 1 * 2 ^ 65 ≤ size * 2 ^ 65 := Nat.mul_le_mul_right _ hpos
  omega

/-- The loop doubles a number of times. -/
theorem vlMemDouble_pow {bound fuel size r : ℕ} (h : vlMemDouble bound fuel size = .ok r) :
    ∃ j, r = size * 2 ^ j := by
  induction fuel generalizing size with
  | zero => cases h
  | succ fuel ih =>
    rw [vlMemDouble] at h
    split_ifs at h with hle hbig
    · obtain ⟨j, rfl⟩ := ih h
      exact ⟨j + 1, by rw [Nat.mul_assoc, ← Nat.pow_succ']⟩
    · exact ⟨0, by rw [Except.ok.inj h, pow_zero, Nat.mul_one]⟩

/-- A size that is far from the end of the address space is served. -/
theorem vlMemDouble_returns {bound size : ℕ} (hpos : 0 < size) (hsize : size < 2 ^ 63)
    (hbound : bound < 2 ^ 62) : ∃ r, vlMemDouble bound 65 size = .ok r := by
  have hloop : ∀ fuel n, vlMemDouble bound fuel n ≠ .error .outOfMemory := by
    intro fuel
    induction fuel with
    | zero =>
      intro n hop
      cases hop
    | succ fuel ih =>
      intro n hop
      rw [vlMemDouble] at hop
      split_ifs at hop with hle hbig
      · omega
      · exact ih _ hop
  rcases vlMemDouble_spec hpos hsize with hfull | ⟨r, hop, -⟩
  · exact absurd hfull (hloop _ _)
  · exact ⟨r, hop⟩

/-- The loop, far from the end of the address space. -/
theorem vlMemDouble_servesUnless {bound size : ℕ} (hpos : 0 < size) (hsize : size < 2 ^ 63) :
    ServesUnless (2 ^ 62 ≤ bound) (vlMemDouble bound 65 size) fun r =>
      bound < r ∧ size ≤ r ∧ r < 2 ^ 63 ∧ (r = size ∨ r ≤ 2 * bound) := by
  rcases vlMemDouble_spec hpos hsize with hfull | hret
  · refine Or.inl ⟨?_, hfull⟩
    by_contra hbound
    obtain ⟨r, hop⟩ := vlMemDouble_returns hpos hsize (Nat.not_le.mp hbound)
    cases hfull.symm.trans hop
  · exact Or.inr hret

end VeritableLasagna
