import VeritableLasagna.Arena.Realloc
import VeritableLasagna.Lib.Bits

/-!
# Strings in an arena

A C string is the bytes up to the first that is zero. The strings of a file system are in the blocks of its
arena; a block **holds** a string if it starts with its bytes and their terminator
(`VlArena.HoldsString`), and what holds of the other blocks after an allocation or a write, holds of their
strings (`VlArena.Keeps.string`).

Paths are given by their characters elsewhere, one for every byte (`charsOf`).
-/

namespace VeritableLasagna

/-! ### Bytes and characters -/

/-- The character of a byte. -/
def toChar (byte : UInt8) : Char := Char.ofNat byte.toNat

/-- The byte of a character. -/
def toByte (c : Char) : UInt8 := UInt8.ofNat c.toNat

/-- The characters of bytes. -/
def charsOf (bytes : List UInt8) : List Char := bytes.map toChar

theorem toByte_toChar (byte : UInt8) : toByte (toChar byte) = byte :=
  forall_byte (p := fun byte => toByte (toChar byte) = byte) (by decide +kernel) byte

theorem toChar_injective : Function.Injective toChar := Function.LeftInverse.injective toByte_toChar

theorem charsOf_injective : Function.Injective charsOf := List.map_injective_iff.mpr toChar_injective

/-- A character that a byte stands for is among the characters if the byte is among the bytes. -/
theorem toChar_mem_charsOf {byte : UInt8} {bytes : List UInt8} :
    toChar byte ∈ charsOf bytes ↔ byte ∈ bytes := List.mem_map_of_injective toChar_injective

/-! ### Strings -/

namespace VlMemory

/-- The byte at an offset. -/
def loadByte (mem : VlMemory) (p : ℕ) : Except Fault UInt8 :=
  if p < mem.size then .ok (mem.bytes p) else .error .outOfBounds

/-- The string at an offset. -/
def loadString (mem : VlMemory) (p : ℕ) : Except Fault (List UInt8) :=
  let bytes := mem.bytes.slice p (mem.size - p)
  if 0 ∈ bytes then .ok (bytes.takeWhile (· ≠ 0)) else .error .outOfBounds

/-- `strcpy`. -/
def strcpy (mem : VlMemory) (p : ℕ) (str : List UInt8) : Except Fault VlMemory := mem.store p (str ++ [0])

/-- `strcat`. -/
def strcat (mem : VlMemory) (p : ℕ) (str : List UInt8) : Except Fault VlMemory := do
  let dest ← mem.loadString p
  mem.store (p + dest.length) (str ++ [0])

/-- **Reading a string** finds its terminator. -/
theorem loadString_eq {mem : VlMemory} {p : ℕ} {str : List UInt8} (hstr : 0 ∉ str)
    (hslice : mem.bytes.slice p (str.length + 1) = str ++ [0]) (hp : p + (str.length + 1) ≤ mem.size) :
    mem.loadString p = .ok str := by
  obtain ⟨k, hk⟩ := Nat.exists_eq_add_of_le hp
  have hlength : mem.size - p = str.length + 1 + k := by omega
  have hbytes : mem.bytes.slice p (mem.size - p) =
      str ++ 0 :: mem.bytes.slice (p + (str.length + 1)) k := by
    rw [hlength, ByteMem.slice_add, hslice, List.append_assoc, List.singleton_append]
  have hnonzero : ∀ b ∈ str, decide (b ≠ 0) = true := by
    intro b hb
    rw [decide_eq_true_eq]
    rintro rfl
    exact hstr hb
  rw [loadString, hbytes, if_pos (List.mem_append_right _ List.mem_cons_self),
    List.takeWhile_append_of_pos hnonzero, List.takeWhile_cons_of_neg (by simp), List.append_nil]

end VlMemory

/-! ### Blocks that hold a string -/

/-- The payload of the block starts with the string and its terminator. -/
structure VlArena.HoldsString (arena : VlArena) (b : Block) (str : List UInt8) : Prop where
  not_mem : 0 ∉ str
  fits : 8 + (str.length + 1) ≤ b.size
  slice : arena.data.bytes.slice (b.offset + 8) (str.length + 1) = str ++ [0]

instance instDecidableHoldsString (arena : VlArena) (b : Block) (str : List UInt8) :
    Decidable (arena.HoldsString b str) :=
  decidable_of_iff (0 ∉ str ∧ 8 + (str.length + 1) ≤ b.size ∧
      arena.data.bytes.slice (b.offset + 8) (str.length + 1) = str ++ [0])
    ⟨fun h => ⟨h.1, h.2.1, h.2.2⟩, fun h => ⟨h.not_mem, h.fits, h.slice⟩⟩

section HoldsString

variable {arena arena' : VlArena} {live : List Block} {b : Block} {str : List UInt8}

theorem VlArena.HoldsString.load (h : arena.HoldsString b str) (hinv : arena.Inv live) (hb : b ∈ live) :
    arena.data.loadString (b.offset + 8) = .ok str := by
  have hstop := hinv.stop_le hb
  have hfits := h.fits
  rw [Block.stop] at hstop
  exact VlMemory.loadString_eq h.not_mem h.slice (by omega)

/-- A part of a block that keeps its bytes. -/
theorem VlArena.Keeps.payload (h : arena'.Keeps arena live) (hb : b ∈ live) {p n : ℕ} (hp : b.offset ≤ p)
    (hstop : p + n ≤ b.stop) : arena'.data.bytes.slice p n = arena.data.bytes.slice p n := by
  rw [Block.stop] at hstop
  refine ByteMem.slice_congr fun q hq hq' => ?_
  exact ByteMem.slice_eq_iff.mp (h b hb) q (by omega) (by omega)

/-- **A block that keeps its bytes** keeps its string. -/
theorem VlArena.Keeps.string (h : arena'.Keeps arena live) (hb : b ∈ live) (hstr : arena.HoldsString b str) :
    arena'.HoldsString b str := by
  have hfits := hstr.fits
  refine ⟨hstr.not_mem, hfits, ?_⟩
  rw [h.payload hb (by omega) (by rw [Block.stop]; omega), hstr.slice]

end HoldsString

/-! ### Filling new blocks -/

/-- The blocks are new in an arena that is as it was otherwise, and the payload of each starts with its
bytes. -/
structure VlArena.Fills (arena' arena : VlArena) (live : List Block) (own : List (Block × List UInt8)) :
    Prop where
  inv : arena'.Inv (own.map Prod.fst ++ live)
  keeps : arena'.Keeps arena live
  fits : ∀ x ∈ own, 8 + x.2.length ≤ x.1.size
  slice : ∀ x ∈ own, arena'.data.bytes.slice (x.1.offset + 8) x.2.length = x.2

namespace VlArena.Fills

variable {arena arena' arena'' : VlArena} {live : List Block} {own own' : List (Block × List UInt8)}
  {b : Block} {bytes str : List UInt8} {size : ℕ}

theorem nil (h : arena.Inv live) : arena.Fills arena live [] :=
  ⟨h, .refl arena live, fun _ hx => absurd hx List.not_mem_nil, fun _ hx => absurd hx List.not_mem_nil⟩

theorem perm (h : arena'.Fills arena live own) (hp : own.Perm own') : arena'.Fills arena live own' :=
  ⟨h.inv.perm ((hp.map _).append_right _), h.keeps, fun x hx => h.fits x (hp.mem_iff.mpr hx),
    fun x hx => h.slice x (hp.mem_iff.mpr hx)⟩

theorem permLive {live' : List Block} (h : arena'.Fills arena live own) (hp : live.Perm live') :
    arena'.Fills arena live' own :=
  ⟨h.inv.perm (hp.append_left _), h.keeps.subset fun _ hb => hp.mem_iff.mpr hb, h.fits, h.slice⟩

/-- What is in the blocks stays there as long as they keep their bytes. -/
theorem slice_of_keeps (h : arena'.Fills arena live own)
    (hkeeps : arena''.Keeps arena' (own.map Prod.fst ++ live)) :
    ∀ x ∈ own, arena''.data.bytes.slice (x.1.offset + 8) x.2.length = x.2 := by
  intro x hx
  have hfits := h.fits x hx
  have hpayload := hkeeps.payload (List.mem_append_left _ (List.mem_map_of_mem hx)) (p := x.1.offset + 8)
    (n := x.2.length) (by omega) (by rw [Block.stop]; omega)
  rw [hpayload, h.slice x hx]

/-- **Allocating one more.** -/
theorem alloc (h : arena'.Fills arena live own) (hsize : 0 < size) (hlt : size + 8 < 2 ^ 64) :
    Serves (vlArenaMemAlloc arena' size) fun r =>
      ∃ p, r.1 = p + 8 ∧ r.2.Fills arena live ((⟨p, size + 8⟩, []) :: own) := by
  refine (vlArenaMemAlloc_inv h.inv hsize hlt).mono fun r ⟨hr, hinv, hkeeps⟩ => ?_
  refine ⟨r.1 - 8, (Nat.sub_add_cancel hr).symm, hinv,
    (hkeeps.subset fun _ hb => List.mem_append_right _ hb).trans h.keeps, ?_, ?_⟩
  · intro x hx
    rcases List.mem_cons.mp hx with rfl | hx
    · exact Nat.le_add_left _ _
    · exact h.fits x hx
  · intro x hx
    rcases List.mem_cons.mp hx with rfl | hx
    · rfl
    · exact h.slice_of_keeps hkeeps x hx

/-- **Writing into one of them**, inside of what is filled or on from there. -/
theorem store (h : arena'.Fills arena live ((b, bytes) :: own)) {k : ℕ} (hk : k ≤ bytes.length)
    (str : List UInt8) (hfit : 8 + (k + str.length) ≤ b.size) :
    Returns (arena'.data.store (b.offset + 8 + k) str) fun data =>
      VlArena.Fills { arena' with data } arena live
        ((b, bytes.take k ++ str ++ bytes.drop (k + str.length)) :: own) := by
  have hb : 8 + bytes.length ≤ b.size := h.fits _ List.mem_cons_self
  have hslice : arena'.data.bytes.slice (b.offset + 8) bytes.length = bytes := h.slice _ List.mem_cons_self
  have hinv' : arena'.Inv (b :: (own.map Prod.fst ++ live)) := h.inv
  have hstop : b.offset + 8 + k + str.length ≤ b.stop := by
    rw [Block.stop]
    omega
  refine (hinv'.store (by omega) hstop).mono ?_
  rintro data ⟨hinv, hkeeps, rfl⟩
  have hlength : (bytes.take k ++ str ++ bytes.drop (k + str.length)).length =
      k + str.length + (bytes.length - (k + str.length)) := by
    rw [List.length_append, List.length_append, List.length_take_of_le hk, List.length_drop]
  refine ⟨hinv, (hkeeps.subset fun _ hc => List.mem_append_right _ hc).trans h.keeps, ?_, ?_⟩
  · intro x hx
    rcases List.mem_cons.mp hx with rfl | hx
    · simp only at hb ⊢
      omega
    · exact h.fits x (List.mem_cons_of_mem _ hx)
  · intro x hx
    rcases List.mem_cons.mp hx with rfl | hx
    · -- the bytes before the place, those that are written, and those behind
      have hbefore : (arena'.data.bytes.write (b.offset + 8 + k) str).slice (b.offset + 8) k =
          bytes.take k := by
        rw [ByteMem.slice_write_of_disjoint (Or.inl le_rfl)]
        conv_rhs => rw [← hslice]
        rw [ByteMem.take_slice hk]
      have hbehind : (arena'.data.bytes.write (b.offset + 8 + k) str).slice
          (b.offset + 8 + (k + str.length)) (bytes.length - (k + str.length)) =
            bytes.drop (k + str.length) := by
        rw [ByteMem.slice_write_of_disjoint (Or.inr (by omega))]
        conv_rhs => rw [← hslice]
        rw [ByteMem.drop_slice]
      dsimp only
      rw [hlength, ByteMem.slice_add, ByteMem.slice_add, hbefore, ByteMem.slice_write_self, hbehind]
    · have hpayload := hkeeps.payload (p := x.1.offset + 8) (n := x.2.length)
        (List.mem_append_left _ (List.mem_map_of_mem hx)) (by omega)
        (by have hfits := h.fits x (List.mem_cons_of_mem _ hx); rw [Block.stop]; omega)
      rw [hpayload]
      exact h.slice x (List.mem_cons_of_mem _ hx)

/-- **Freeing one of them.** -/
theorem free (h : arena'.Fills arena live ((b, bytes) :: own)) :
    Returns (vlArenaMemFree arena' (b.offset + 8)) fun a => a.Fills arena live own := by
  refine (vlArenaMemFree_inv h.inv).mono fun a ⟨hinv, hdata⟩ => ⟨hinv, ?_, ?_, ?_⟩
  · exact (VlArena.Keeps.of_eq (by rw [hdata])).trans h.keeps
  · exact fun x hx => h.fits x (List.mem_cons_of_mem _ hx)
  · intro x hx
    rw [hdata]
    exact h.slice x (List.mem_cons_of_mem _ hx)

/-- **Freeing one that was there** before. -/
theorem freeLive (h : arena'.Fills arena (b :: live) own) :
    Returns (vlArenaMemFree arena' (b.offset + 8)) fun a => a.Fills arena live own := by
  refine (vlArenaMemFree_inv (h.inv.perm List.perm_middle)).mono fun a ⟨hinv, hdata⟩ => ⟨hinv, ?_, h.fits, ?_⟩
  · exact (VlArena.Keeps.of_eq (by rw [hdata])).trans
      (h.keeps.subset fun _ hc => List.mem_cons_of_mem _ hc)
  · intro x hx
    rw [hdata]
    exact h.slice x hx

/-- A filled block holds a string once there is a terminator. -/
theorem string {rest : List UInt8} (h : arena'.Fills arena live own) (hb : (b, str ++ 0 :: rest) ∈ own)
    (hstr : 0 ∉ str) : arena'.HoldsString b str := by
  have hslice := congrArg (List.take (str.length + 1)) (h.slice _ hb)
  have hfits := h.fits _ hb
  simp only [List.length_append, List.length_cons] at hslice hfits
  rw [ByteMem.take_slice (by omega), List.take_length_add_append, List.take_succ_cons,
    List.take_zero] at hslice
  exact ⟨hstr, by omega, hslice⟩

/-- **`strcpy` into a new block.** -/
theorem strcpy (h : arena'.Fills arena live ((b, []) :: own)) (str : List UInt8)
    (hfit : 8 + (str.length + 1) ≤ b.size) :
    Returns (arena'.data.strcpy (b.offset + 8) str) fun data =>
      VlArena.Fills { arena' with data } arena live ((b, str ++ [0]) :: own) := by
  have hstore := h.store le_rfl (str ++ [0])
    (by rw [List.length_append, List.length_singleton, List.length_nil]; omega)
  rwa [List.length_nil, Nat.add_zero, List.take_nil, List.drop_nil, List.nil_append, List.append_nil] at hstore

/-- **`strcat` to a string** that is there. -/
theorem strcat (h : arena'.Fills arena live ((b, bytes ++ [0]) :: own)) (hbytes : 0 ∉ bytes)
    (str : List UInt8) (hfit : 8 + (bytes.length + str.length + 1) ≤ b.size) :
    Returns (arena'.data.strcat (b.offset + 8) str) fun data =>
      VlArena.Fills { arena' with data } arena live ((b, bytes ++ str ++ [0]) :: own) := by
  have hload := (h.string List.mem_cons_self hbytes).load h.inv (List.mem_append_left _ List.mem_cons_self)
  have hstore := h.store (k := bytes.length) (by rw [List.length_append]; omega) (str ++ [0])
    (by rw [List.length_append, List.length_singleton]; omega)
  have hdrop : (bytes ++ [0]).drop (bytes.length + (str ++ [0]).length) = [] := by
    refine List.drop_of_length_le ?_
    rw [List.length_append, List.length_append, List.length_singleton]
    omega
  rw [List.take_left, hdrop, List.append_nil, ← List.append_assoc] at hstore
  rw [VlMemory.strcat, hload, ok_bind]
  exact hstore

end VlArena.Fills

end VeritableLasagna
