import Mathlib

/-!
# Byte memories

A **memory** assigns a byte to every address. All access goes through lists of bytes: `slice`
reads a range, `write` overwrites one, and what a write leaves alone is stated once
(`slice_write_of_disjoint`). A number is stored as the list of its bytes, least significant first
(`natToLE`) or last (`natToBE`).
-/

namespace VeritableLasagna

/-- The byte at every address. -/
abbrev ByteMem := ℕ → UInt8

namespace ByteMem

variable {m m' : ByteMem} {p q n k : ℕ} {bs cs : List UInt8}

/-- The `n` bytes from address `p` on. -/
def slice (m : ByteMem) (p n : ℕ) : List UInt8 := (List.range n).map fun i => m (p + i)

/-- Overwrite the bytes from address `p` on. -/
def write (m : ByteMem) (p : ℕ) (bs : List UInt8) : ByteMem :=
  fun q => if p ≤ q then bs.getD (q - p) (m q) else m q

@[simp] theorem length_slice : (m.slice p n).length = n := by simp [slice]

@[simp] theorem slice_zero : m.slice p 0 = [] := rfl

theorem slice_succ : m.slice p (n + 1) = m p :: m.slice (p + 1) n := by
  rw [slice, List.range_succ_eq_map, List.map_cons, List.map_map]
  refine congrArg₂ _ rfl (List.map_congr_left fun i _ => ?_)
  rw [Function.comp_apply, Nat.succ_eq_add_one, Nat.add_assoc, Nat.add_comm 1]

theorem slice_one : m.slice p 1 = [m p] := slice_succ

theorem getElem_slice {i : ℕ} (h : i < (m.slice p n).length) : (m.slice p n)[i] = m (p + i) := by
  simp [slice]

/-- Reading a range in two parts. -/
theorem slice_add : m.slice p (n + k) = m.slice p n ++ m.slice (p + n) k := by
  rw [slice, List.range_add, List.map_append, List.map_map]
  refine congrArg₂ _ rfl (List.map_congr_left fun i _ => ?_)
  rw [Function.comp_apply, Nat.add_assoc]

/-- A range reads the same in memories that agree on it. -/
theorem slice_congr (h : ∀ q, p ≤ q → q < p + n → m q = m' q) : m.slice p n = m'.slice p n := by
  refine List.map_congr_left fun i hi => ?_
  exact h _ (Nat.le_add_right p i) (Nat.add_lt_add_left (List.mem_range.mp hi) p)

theorem slice_eq_iff :
    m.slice p n = m'.slice p n ↔ ∀ q, p ≤ q → q < p + n → m q = m' q := by
  constructor
  · intro h q hpq hq
    have hi : q - p < n := by omega
    have hget := congrArg (·[q - p]?) h
    simpa [slice, hi, Nat.add_sub_cancel' hpq] using hget
  · exact slice_congr

theorem take_slice (h : k ≤ n) : (m.slice p n).take k = m.slice p k := by
  obtain ⟨j, rfl⟩ := Nat.exists_eq_add_of_le h
  rw [slice_add, List.take_left' length_slice]

/-- A range without its first bytes. -/
theorem drop_slice : (m.slice p n).drop k = m.slice (p + k) (n - k) := by
  rcases Nat.le_total k n with h | h
  · obtain ⟨j, rfl⟩ := Nat.exists_eq_add_of_le h
    rw [slice_add, List.drop_left' length_slice, Nat.add_sub_cancel_left]
  · rw [Nat.sub_eq_zero_of_le h, slice_zero, List.drop_eq_nil_of_le (by rwa [length_slice])]

theorem write_of_lt (h : q < p) : m.write p bs q = m q := if_neg (Nat.not_le.mpr h)

theorem write_of_ge (h : p + bs.length ≤ q) : m.write p bs q = m q := by
  rw [write, if_pos (by omega), List.getD_eq_default _ _ (by omega)]

theorem write_add {i : ℕ} (h : i < bs.length) : m.write p bs (p + i) = bs[i] := by
  rw [write, if_pos (Nat.le_add_right p i), Nat.add_sub_cancel_left, List.getD_eq_getElem _ _ h]

@[simp] theorem write_nil : m.write p [] = m := by
  funext q
  rw [write, List.getD_nil, ite_self]

/-- Two writes, one right behind the other. -/
theorem write_append : m.write p (bs ++ cs) = (m.write p bs).write (p + bs.length) cs := by
  funext q
  rcases Nat.lt_or_ge q p with hq | hq
  · rw [write_of_lt hq, write_of_lt (by omega), write_of_lt hq]
  · obtain ⟨i, rfl⟩ := Nat.exists_eq_add_of_le hq
    rcases Nat.lt_or_ge i bs.length with hi | hi
    · rw [write_of_lt (m := m.write p bs) (by omega), write_add hi,
        write_add (by rw [List.length_append]; omega), List.getElem_append_left hi]
    · obtain ⟨j, rfl⟩ := Nat.exists_eq_add_of_le hi
      rcases Nat.lt_or_ge j cs.length with hj | hj
      · rw [write_add (by rw [List.length_append]; omega), ← Nat.add_assoc, write_add hj,
          List.getElem_append_right (by omega)]
        simp only [Nat.add_sub_cancel_left]
      · rw [write_of_ge (by rw [List.length_append]; omega), write_of_ge (by omega),
          write_of_ge (by omega)]

theorem write_cons {b : UInt8} : m.write p (b :: bs) = (m.write p [b]).write (p + 1) bs := by
  rw [← List.singleton_append, write_append, List.length_singleton]

/-- **Reading back** what was written. -/
theorem slice_write_self : (m.write p bs).slice p bs.length = bs := by
  refine List.ext_getElem (by simp) fun i _ hi => ?_
  rw [getElem_slice, write_add hi]

/-- Writing back what is there. -/
theorem write_slice_self : m.write p (m.slice p n) = m := by
  funext q
  rcases Nat.lt_or_ge q p with hlt | hge
  · exact write_of_lt hlt
  · obtain ⟨i, rfl⟩ := Nat.exists_eq_add_of_le hge
    rcases Nat.lt_or_ge i n with hlt | hge
    · rw [write_add (by rwa [length_slice]), getElem_slice]
    · exact write_of_ge (by rw [length_slice]; omega)

/-- Reading back a part of what was written. -/
theorem slice_write_part (h : k + n ≤ bs.length) : (m.write p bs).slice (p + k) n = (bs.drop k).take n := by
  refine List.ext_getElem (by simp; omega) fun i hi _ => ?_
  rw [length_slice] at hi
  rw [getElem_slice, Nat.add_assoc, write_add (by omega), List.getElem_take, List.getElem_drop]

/-- Overwriting a part of what was written. -/
theorem write_write_part (h : k + cs.length ≤ bs.length) :
    (m.write p bs).write (p + k) cs = m.write p (bs.take k ++ cs ++ bs.drop (k + cs.length)) := by
  have hk : (bs.take k).length = k := List.length_take_of_le (by omega)
  have hfront : (bs.take k ++ cs).length = k + cs.length := by rw [List.length_append, hk]
  have hlength : (bs.take k ++ cs ++ bs.drop (k + cs.length)).length = bs.length := by
    rw [List.length_append, hfront, List.length_drop]
    omega
  funext q
  rcases Nat.lt_or_ge q p with hlt | hge
  · rw [write_of_lt (by omega), write_of_lt hlt, write_of_lt hlt]
  · obtain ⟨i, rfl⟩ := Nat.exists_eq_add_of_le hge
    rcases Nat.lt_or_ge i bs.length with hi | hi
    · rw [write_add (by rwa [hlength])]
      rcases Nat.lt_or_ge i (k + cs.length) with hi' | hi'
      · rw [List.getElem_append_left (by rwa [hfront])]
        rcases Nat.lt_or_ge i k with hik | hik
        · rw [write_of_lt (by omega), write_add hi, List.getElem_append_left (by rwa [hk]),
            List.getElem_take]
        · obtain ⟨j, rfl⟩ := Nat.exists_eq_add_of_le hik
          rw [← Nat.add_assoc, write_add (by omega), List.getElem_append_right (by omega)]
          simp only [hk, Nat.add_sub_cancel_left]
      · rw [write_of_ge (by omega), write_add hi, List.getElem_append_right (by omega), List.getElem_drop]
        congr 1
        omega
    · rw [write_of_ge (by omega), write_of_ge (by omega), write_of_ge (by rw [hlength]; omega)]

/-- **Frame rule**: a write leaves every range it does not touch alone. -/
theorem slice_write_of_disjoint (h : p + n ≤ q ∨ q + bs.length ≤ p) :
    (m.write q bs).slice p n = m.slice p n := by
  refine slice_congr fun r hr hr' => ?_
  rcases h with h | h
  · exact write_of_lt (by omega)
  · exact write_of_ge (by omega)

/-- Overwriting inside a range, or from inside it past its end: what is before and what is behind
stays. -/
theorem slice_write_max (hp : p ≤ n) :
    (m.write p bs).slice 0 (max (p + bs.length) n) =
      (m.slice 0 n).take p ++ bs ++ (m.slice 0 n).drop (p + bs.length) := by
  have hsplit : max (p + bs.length) n = p + bs.length + (n - (p + bs.length)) := by omega
  have hbefore : (m.write p bs).slice 0 p = m.slice 0 p :=
    slice_write_of_disjoint (Or.inl (by omega))
  have hbehind : (m.write p bs).slice (p + bs.length) (n - (p + bs.length)) =
      m.slice (p + bs.length) (n - (p + bs.length)) :=
    slice_write_of_disjoint (Or.inr le_rfl)
  rw [hsplit, slice_add, slice_add]
  simp only [Nat.zero_add]
  rw [hbefore, slice_write_self, hbehind, take_slice hp, drop_slice, Nat.zero_add]

end ByteMem

/-! ### Numbers as bytes -/

/-- The number with the given bytes, least significant first. -/
def natOfLE : List UInt8 → ℕ
  | [] => 0
  | b :: bs => b.toNat + 256 * natOfLE bs

/-- The `n` lowest bytes of a number, least significant first. -/
def natToLE : ℕ → ℕ → List UInt8
  | 0, _ => []
  | n + 1, v => UInt8.ofNat v :: natToLE n (v / 256)

/-- The number with the given bytes, most significant first. -/
def natOfBE (bs : List UInt8) : ℕ := natOfLE bs.reverse

/-- The `n` lowest bytes of a number, most significant first. -/
def natToBE (n v : ℕ) : List UInt8 := (natToLE n v).reverse

section Numbers

variable {n v : ℕ} {bs : List UInt8}

@[simp] theorem length_natToLE : (natToLE n v).length = n := by
  induction n generalizing v with
  | zero => rfl
  | succ n ih => rw [natToLE, List.length_cons, ih]

@[simp] theorem length_natToBE : (natToBE n v).length = n := by simp [natToBE]

theorem natOfLE_lt : natOfLE bs < 256 ^ bs.length := by
  induction bs with
  | nil => exact Nat.one_pos
  | cons b bs ih =>
    have hb : b.toNat < 256 := b.toNat_lt
    rw [natOfLE, List.length_cons, pow_succ]
    omega

theorem natOfBE_lt : natOfBE bs < 256 ^ bs.length := by
  rw [natOfBE, ← List.length_reverse]
  exact natOfLE_lt

/-- Storing and loading a number keeps its low bytes. -/
theorem natOfLE_natToLE : natOfLE (natToLE n v) = v % 256 ^ n := by
  induction n generalizing v with
  | zero => rw [natToLE, natOfLE, pow_zero, Nat.mod_one]
  | succ n ih =>
    have hb : (UInt8.ofNat v).toNat = v % 256 := UInt8.toNat_ofNat'
    rw [natToLE, natOfLE, ih, hb, pow_succ, mul_comm (256 ^ n), Nat.mod_mul]

theorem natOfBE_natToBE : natOfBE (natToBE n v) = v % 256 ^ n := by
  rw [natOfBE, natToBE, List.reverse_reverse, natOfLE_natToLE]

/-- A list of bytes is the representation of its number. -/
theorem natToLE_natOfLE : natToLE bs.length (natOfLE bs) = bs := by
  induction bs with
  | nil => rfl
  | cons b bs ih =>
    have hb : b.toNat < 256 := b.toNat_lt
    have hdiv : (b.toNat + 256 * natOfLE bs) / 256 = natOfLE bs := by omega
    have hmod : UInt8.ofNat (b.toNat + 256 * natOfLE bs) = b := by
      apply UInt8.toNat_inj.mp
      rw [UInt8.toNat_ofNat']
      omega
    rw [natOfLE, List.length_cons, natToLE, hdiv, ih, hmod]

end Numbers

end VeritableLasagna
