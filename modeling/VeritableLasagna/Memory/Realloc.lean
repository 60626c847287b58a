import VeritableLasagna.Memory.Header

/-!
# Aligned allocation and reallocation

Memory in its block is described by `HeapBlock.Allocated`: where it lies, and what its header says.
`vlMemAllocAligned` establishes it and `vlMemRealloc` keeps it, with the data, wherever the heap puts
the block, as long as two things do not happen: that the number of bytes asked of the heap leaves the
64 bits of its type, and that the alignment leaves the 16 bits as which `vlMemRealloc` reads it. Each
of them breaks what is promised, wherever the block lies (`vlMemRealloc_keeps_iff`).
-/

namespace VeritableLasagna

section Header

variable {m m' : ByteMem} {p : ℕ} {header : VlMemoryHeader}

@[simp] theorem VlMemoryHeader.length_toBytes : header.toBytes.length = vlMemoryHeaderSize := by
  simp [toBytes, vlMemoryHeaderSize]

/-- **Reading back** a header whose numbers fit. -/
theorem VlMemoryHeader.read_write (hlength : header.length < 2 ^ 64)
    (hoffset : header.headOffset < 2 ^ 32) (halign : header.alignment < 2 ^ 32) :
    read (m.write p header.toBytes) p = header := by
  have hlen : (natToLE 8 header.length).length = 8 := length_natToLE
  have hlen' : (natToLE 4 header.headOffset).length = 4 := length_natToLE
  have hlen'' : (natToLE 4 header.alignment).length = 4 := length_natToLE
  have hsplit : m.write p header.toBytes = ((m.write p (natToLE 8 header.length)).write (p + 8)
      (natToLE 4 header.headOffset)).write (p + 12) (natToLE 4 header.alignment) := by
    rw [toBytes, ByteMem.write_append, ByteMem.write_append, hlen, hlen']
  have hfirst : (m.write p header.toBytes).slice p 8 = natToLE 8 header.length := by
    rw [hsplit, ByteMem.slice_write_of_disjoint (Or.inl (by omega)),
      ByteMem.slice_write_of_disjoint (Or.inl le_rfl)]
    have hself : (m.write p (natToLE 8 header.length)).slice p
        (natToLE 8 header.length).length = natToLE 8 header.length := ByteMem.slice_write_self
    rwa [hlen] at hself
  have hsecond : (m.write p header.toBytes).slice (p + 8) 4 = natToLE 4 header.headOffset := by
    rw [hsplit, ByteMem.slice_write_of_disjoint (Or.inl (by omega))]
    have hself : ((m.write p (natToLE 8 header.length)).write (p + 8)
        (natToLE 4 header.headOffset)).slice (p + 8) (natToLE 4 header.headOffset).length =
          natToLE 4 header.headOffset := ByteMem.slice_write_self
    rwa [hlen'] at hself
  have hthird : (m.write p header.toBytes).slice (p + 12) 4 = natToLE 4 header.alignment := by
    rw [hsplit]
    have hself : (((m.write p (natToLE 8 header.length)).write (p + 8)
        (natToLE 4 header.headOffset)).write (p + 12) (natToLE 4 header.alignment)).slice (p + 12)
          (natToLE 4 header.alignment).length = natToLE 4 header.alignment :=
      ByteMem.slice_write_self
    rwa [hlen''] at hself
  rw [read, hfirst, hsecond, hthird, natOfLE_natToLE, natOfLE_natToLE, natOfLE_natToLE,
    Nat.mod_eq_of_lt (by norm_num; omega), Nat.mod_eq_of_lt (by norm_num; omega),
    Nat.mod_eq_of_lt (by norm_num; omega)]

/-- Only the length is written. -/
theorem VlMemoryHeader.read_write_length {n : ℕ} (h : n < 2 ^ 64) :
    read (m.write p (natToLE 8 n)) p = { read m p with length := n } := by
  have hlen : (natToLE 8 n).length = 8 := length_natToLE
  have hself : (m.write p (natToLE 8 n)).slice p (natToLE 8 n).length = natToLE 8 n :=
    ByteMem.slice_write_self
  rw [hlen] at hself
  rw [read, hself, natOfLE_natToLE, Nat.mod_eq_of_lt (by norm_num; omega),
    ByteMem.slice_write_of_disjoint (Or.inr (by omega)),
    ByteMem.slice_write_of_disjoint (Or.inr (by omega))]
  rfl

/-- A header reads the same where memories agree on it. -/
theorem VlMemoryHeader.read_congr {p' : ℕ}
    (h : ∀ i < vlMemoryHeaderSize, m (p + i) = m' (p' + i)) : read m p = read m' p' := by
  have hsize : vlMemoryHeaderSize = 16 := rfl
  have hslice : ∀ k n, k + n ≤ vlMemoryHeaderSize → m.slice (p + k) n = m'.slice (p' + k) n := by
    intro k n hkn
    refine List.map_congr_left fun i hi => ?_
    rw [Nat.add_assoc, Nat.add_assoc]
    exact h _ ((Nat.add_lt_add_left (List.mem_range.mp hi) k).trans_le hkn)
  have hfirst : m.slice p 8 = m'.slice p' 8 := hslice 0 8 (by omega)
  rw [read, read, hfirst, hslice 8 4 (by omega), hslice 12 4 (by omega)]

end Header

namespace HeapBlock

variable {block b : HeapBlock} {contents : ByteMem} {origin moved mem size newSize align p : ℕ}
  {header : VlMemoryHeader}

/-- **Memory in its block**: it is aligned, header and data lie in the block, and the header says how
long the memory is, how far it is from the start of the block, and how it is aligned. It is not
farther from the start than the alignment asks for, and never right behind a header at the start if
it has an alignment of its own. -/
structure Allocated (block : HeapBlock) (mem size align : ℕ) : Prop where
  returnable : Returnable block.origin block.length
  aligned : align ∣ mem
  header_le : block.origin + vlMemoryHeaderSize ≤ mem
  offset_pos : ¬ align ≤ vlDefaultMemoryAlign → block.origin + vlMemoryHeaderSize < mem
  offset_le : mem + size ≤ block.origin + vlMemAllocAlignedBytes size align
  data_le : mem + size ≤ block.origin + block.length
  header_eq : VlMemoryHeader.read block.bytes (mem - vlMemoryHeaderSize) =
    ⟨size, mem - vlMemoryHeaderSize - block.origin, max align vlDefaultMemoryAlign⟩

theorem storeHeader_eq (h : block.origin ≤ p)
    (h' : p + vlMemoryHeaderSize ≤ block.origin + block.length) :
    block.storeHeader p header = .ok { block with bytes := block.bytes.write p header.toBytes } := by
  rw [storeHeader, store, VlMemoryHeader.length_toBytes, if_pos ⟨h, h'⟩]

/-- Rounding an address down to a multiple of the alignment, when the alignment was added. -/
theorem place_aligned (halign : 0 < align)
    (hend : origin + (size + align + vlMemoryHeaderSize) < 2 ^ 64) :
    let userOffset := (origin + align + vlMemoryHeaderSize) % 2 ^ 64
    let user := userOffset - userOffset % align
    align ∣ user ∧ origin + vlMemoryHeaderSize < user ∧
      user + size ≤ origin + (size + align + vlMemoryHeaderSize) := by
  have hmod : (origin + align + vlMemoryHeaderSize) % 2 ^ 64 = origin + align + vlMemoryHeaderSize :=
    Nat.mod_eq_of_lt (by omega)
  have hlt : (origin + align + vlMemoryHeaderSize) % align < align := Nat.mod_lt _ halign
  intro userOffset user
  have huser : user = origin + align + vlMemoryHeaderSize -
      (origin + align + vlMemoryHeaderSize) % align := by
    change (origin + align + vlMemoryHeaderSize) % 2 ^ 64 -
      (origin + align + vlMemoryHeaderSize) % 2 ^ 64 % align = _
    rw [hmod]
  refine ⟨?_, by omega, by omega⟩
  rw [huser]
  exact Nat.dvd_sub_mod _

/-- Work in the block, which asks nothing of the heap and keeps the block where it is. -/
def Within (block : HeapBlock) (m : Except Fault HeapBlock) : Prop :=
  m ≠ .error .outOfMemory ∧ ∀ b, m = .ok b → b.length = block.length

theorem within_ok : block.Within (.ok block) := by
  refine ⟨fun hop => (by cases hop), fun b hop => ?_⟩
  rw [Except.ok.inj hop]

theorem within_store {bs : List UInt8} : block.Within (block.store p bs) := by
  rw [store]
  split_ifs
  · refine ⟨fun hop => (by cases hop), fun b hop => ?_⟩
    obtain rfl := Except.ok.inj hop
    rfl
  · exact ⟨fun hop => (by cases hop), fun b hop => (by cases hop)⟩

theorem within_memmove {dest src n : ℕ} : block.Within (block.memmove dest src n) := by
  rw [memmove, load]
  split_ifs
  · exact within_store
  · exact ⟨fun hop => (by cases hop), fun b hop => (by cases hop)⟩

theorem Within.bind {m : Except Fault HeapBlock} {k : HeapBlock → Except Fault HeapBlock}
    (hm : block.Within m) (hk : ∀ b : HeapBlock, b.Within (k b)) : block.Within (m >>= k) := by
  cases m with
  | error e => exact ⟨hm.1, fun b hop => (by cases hop)⟩
  | ok b => exact ⟨(hk b).1, fun b' hop => ((hk b).2 b' hop).trans (hm.2 b rfl)⟩

/-- The heap is asked for a block of `n` bytes, and all the rest is work in the block. -/
def Asks (heap : ℕ → Except Fault HeapBlock) (n : ℕ) (m : Except Fault (ℕ × HeapBlock)) : Prop :=
  ∃ (k : HeapBlock → Except Fault HeapBlock) (f : HeapBlock → HeapBlock → ℕ),
    (∀ b : HeapBlock, b.Within (k b)) ∧ m = heap n >>= fun b => k b >>= fun b' => .ok (f b b', b')

section Asks

variable {heap : ℕ → Except Fault HeapBlock} {n : ℕ} {m : Except Fault (ℕ × HeapBlock)}

theorem Asks.full (h : Asks heap n m) (hn : heap n = .error .outOfMemory) :
    m = .error .outOfMemory := by
  obtain ⟨k, f, -, rfl⟩ := h
  rw [hn]
  rfl

/-- A block that is served is what the memory lies in. -/
theorem Asks.served (h : Asks heap n m) (hn : heap n = .ok block) {Q : ℕ × HeapBlock → Prop}
    (hm : Serves m Q) : ∃ mem b, m = .ok (mem, b) ∧ b.length = block.length ∧ Q (mem, b) := by
  obtain ⟨k, f, hk, rfl⟩ := h
  rw [hn, ok_bind] at hm ⊢
  obtain ⟨hfull, hlength⟩ := hk block
  cases hop : k block with
  | error e =>
    rw [hop] at hm hfull
    rcases hm with hm | ⟨r, hm, -⟩
    · exact absurd hm fun heq => hfull (congrArg _ (Except.error.inj heq))
    · cases hm
  | ok b =>
    rw [hop, ok_bind] at hm
    exact ⟨f block b, b, rfl, hlength b hop, hm.of_ok rfl⟩

end Asks

theorem two_pow_dvd_default {bits : ℕ} (h : 2 ^ bits ≤ vlDefaultMemoryAlign) :
    2 ^ bits ∣ vlDefaultMemoryAlign := by
  have hdefault : vlDefaultMemoryAlign = 2 ^ 3 := rfl
  rw [hdefault] at h ⊢
  exact Nat.pow_dvd_pow 2 ((Nat.pow_le_pow_iff_right (by norm_num)).mp h)

/-! ### Allocation -/

/-- The heap is asked for the bytes in a number of 64 bits. -/
theorem vlMemAllocAligned_asks :
    Asks (malloc contents origin) (vlMemAllocAlignedBytes size align % 2 ^ 64)
      (vlMemAllocAligned contents origin size align) := by
  rw [vlMemAllocAligned, vlMemAllocAlignedBytes]
  split_ifs with hsmall
  · exact ⟨_, _, fun b => within_store, rfl⟩
  · exact ⟨_, _, fun b => within_store, rfl⟩

/-- **`vlMemAllocAligned` allocates**, wherever the heap puts the block. -/
theorem vlMemAllocAligned_spec (contents : ByteMem) {bits : ℕ} (hbits : bits < 32)
    (h : Returnable origin (vlMemAllocAlignedBytes size (2 ^ bits))) :
    ∃ mem block, vlMemAllocAligned contents origin size (2 ^ bits) = .ok (mem, block) ∧
      block.Allocated mem size (2 ^ bits) := by
  have hreturn := h
  obtain ⟨hpos, hdvd, hend⟩ := h
  have hbound : (2 : ℕ) ^ bits < 2 ^ 32 := Nat.pow_lt_pow_right (by norm_num) hbits
  have hdefault : vlDefaultMemoryAlign = 8 := rfl
  have hheader : vlMemoryHeaderSize = 16 := rfl
  rw [vlMemAllocAligned]
  by_cases hsmall : 2 ^ bits ≤ vlDefaultMemoryAlign
  · have hbytes : vlMemAllocAlignedBytes size (2 ^ bits) = size + vlMemoryHeaderSize := if_pos hsmall
    rw [hbytes] at hend hreturn
    have hmem : (origin + vlMemoryHeaderSize) % 2 ^ 64 = origin + vlMemoryHeaderSize :=
      Nat.mod_eq_of_lt (by omega)
    rw [if_pos hsmall, vlMemAlloc, Nat.mod_eq_of_lt (show size + vlMemoryHeaderSize < 2 ^ 64 by omega),
      malloc, if_pos hreturn, ok_bind, storeHeader_eq le_rfl (by dsimp only; omega), ok_bind, hmem]
    refine ⟨_, _, rfl, hreturn, ?_, le_rfl, fun hlarge => absurd hsmall hlarge, ?_, ?_, ?_⟩
    · have haligned : vlDefaultMemoryAlign ∣ vlMemoryHeaderSize := by decide
      exact (two_pow_dvd_default hsmall).trans (Nat.dvd_add hdvd haligned)
    · rw [hbytes]
      dsimp only
      omega
    · dsimp only
      omega
    · dsimp only
      rw [Nat.add_sub_cancel, Nat.sub_self, max_eq_right hsmall]
      exact VlMemoryHeader.read_write (by dsimp only; omega) (by norm_num) (by norm_num [hdefault])
  · have hbytes : vlMemAllocAlignedBytes size (2 ^ bits) = size + 2 ^ bits + vlMemoryHeaderSize :=
      if_neg hsmall
    rw [hbytes] at hend hreturn
    obtain ⟨haligned, hle, hin⟩ := place_aligned (Nat.two_pow_pos bits) hend
    rw [if_neg hsmall, Nat.mod_eq_of_lt (show size + 2 ^ bits + vlMemoryHeaderSize < 2 ^ 64 by omega),
      malloc, if_pos hreturn, ok_bind]
    dsimp only at haligned hle hin ⊢
    generalize (origin + 2 ^ bits + vlMemoryHeaderSize) % 2 ^ 64 -
      (origin + 2 ^ bits + vlMemoryHeaderSize) % 2 ^ 64 % 2 ^ bits = user at haligned hle hin ⊢
    have hoffset : (user - vlMemoryHeaderSize - origin) % 2 ^ 32 = user - vlMemoryHeaderSize - origin :=
      Nat.mod_eq_of_lt (by omega)
    rw [storeHeader_eq (by dsimp only; omega) (by dsimp only; omega), ok_bind, hoffset]
    refine ⟨user, _, rfl, hreturn, haligned, hle.le, fun _ => hle, by rw [hbytes]; exact hin, hin, ?_⟩
    dsimp only
    rw [max_eq_left (by omega)]
    exact VlMemoryHeader.read_write (by dsimp only; omega) (by dsimp only; omega)
      (by dsimp only; omega)

/-! ### Reallocation -/

/-- What is read and moved by a reallocation is where it was. -/
theorem Allocated.loadHeader_eq (h : block.Allocated mem size align) :
    block.loadHeader (mem - vlMemoryHeaderSize) =
      .ok ⟨size, mem - vlMemoryHeaderSize - block.origin, max align vlDefaultMemoryAlign⟩ := by
  have hle := h.header_le
  have hin := h.data_le
  rw [loadHeader, load, if_pos ⟨by omega, by omega⟩, ok_bind, h.header_eq]
  rfl

/-- A block that was moved has what it had before, as far as both go. -/
theorem realloc_spec (block : HeapBlock) (contents : ByteMem) {n : ℕ} (h : Returnable moved n) :
    ∃ bytes, block.realloc contents moved block.origin n = .ok ⟨bytes, moved, n⟩ ∧
      ∀ i < min block.length n, bytes (moved + i) = block.bytes (block.origin + i) := by
  refine ⟨_, by rw [realloc, if_pos rfl, if_pos h], fun i hi => ?_⟩
  have hlt : i < (block.bytes.slice block.origin (min block.length n)).length := by
    rwa [ByteMem.length_slice]
  rw [ByteMem.write_add hlt, ByteMem.getElem_slice]

/-- Moving bytes from one offset in a block to another, if it is another. -/
theorem memmove_spec (block : HeapBlock) (dest src n : ℕ) (hdest : dest + n ≤ block.length)
    (hsrc : src + n ≤ block.length) :
    ∃ bytes, (if dest ≠ src then block.memmove (block.origin + dest) (block.origin + src) n
        else .ok block) = .ok { block with bytes } ∧
      ∀ i < n, bytes (block.origin + dest + i) = block.bytes (block.origin + src + i) := by
  split_ifs with hmove
  · have hlen : (block.bytes.slice (block.origin + src) n).length = n := ByteMem.length_slice
    refine ⟨block.bytes.write (block.origin + dest) (block.bytes.slice (block.origin + src) n), ?_,
      fun i hi => ?_⟩
    · rw [memmove, load, if_pos ⟨Nat.le_add_right _ _, by omega⟩, ok_bind, store, hlen,
        if_pos ⟨Nat.le_add_right _ _, by omega⟩]
    · rw [ByteMem.write_add (by rwa [hlen]), ByteMem.getElem_slice]
  · rw [not_not.mp hmove]
    exact ⟨block.bytes, rfl, fun _ _ => rfl⟩

/-- **`vlMemRealloc` of memory without an alignment of its own.** -/
theorem Allocated.realloc_small (h : block.Allocated mem size align) (hdvd : align ∣ vlDefaultMemoryAlign)
    (hsmall : align ≤ vlDefaultMemoryAlign)
    (hmoved : Returnable moved (vlMemAllocAlignedBytes newSize align)) :
    ∃ mem' b, block.vlMemRealloc contents moved mem newSize = .ok (mem', b) ∧
      b.Allocated mem' newSize align ∧
      ∀ i < min size newSize, b.bytes (mem' + i) = block.bytes (mem + i) := by
  have hdefault : vlDefaultMemoryAlign = 8 := rfl
  have hheader : vlMemoryHeaderSize = 16 := rfl
  have hbytes : ∀ n, vlMemAllocAlignedBytes n align = n + vlMemoryHeaderSize := fun n => if_pos hsmall
  have hle := h.header_le
  have hoff := h.offset_le
  have hin := h.data_le
  rw [hbytes] at hoff hmoved
  have hend := hmoved.2.2
  have hmem : mem - vlMemoryHeaderSize = block.origin := by omega
  have hmax : max align vlDefaultMemoryAlign = vlDefaultMemoryAlign := max_eq_right hsmall
  obtain ⟨bytes, hrealloc, hcopy⟩ := realloc_spec block contents hmoved
  have hlen : (natToLE 8 newSize).length = 8 := length_natToLE
  have hread := h.header_eq
  rw [hmem, Nat.sub_self, hmax] at hread
  rw [vlMemRealloc, h.loadHeader_eq, ok_bind, hmax]
  dsimp only
  rw [if_pos (show vlDefaultMemoryAlign % 2 ^ 16 ≤ vlDefaultMemoryAlign by decide), hmem,
    Nat.mod_eq_of_lt (show newSize + vlMemoryHeaderSize < 2 ^ 64 by omega), hrealloc, ok_bind]
  dsimp only
  rw [store, hlen, if_pos ⟨le_rfl, by dsimp only; omega⟩, ok_bind]
  dsimp only
  rw [Nat.mod_eq_of_lt (show moved + vlMemoryHeaderSize < 2 ^ 64 by omega)]
  refine ⟨_, _, rfl, ⟨hmoved, ?_, le_rfl, fun hlarge => absurd hsmall hlarge, ?_, ?_, ?_⟩,
    fun i hi => ?_⟩
  · have haligned : vlDefaultMemoryAlign ∣ vlMemoryHeaderSize := by decide
    exact hdvd.trans (Nat.dvd_add hmoved.2.1 haligned)
  · rw [hbytes]
    dsimp only
    omega
  · dsimp only
    omega
  · have hkept : VlMemoryHeader.read bytes moved = VlMemoryHeader.read block.bytes block.origin :=
      VlMemoryHeader.read_congr fun i hi => hcopy i (by omega)
    rw [Nat.add_sub_cancel, Nat.sub_self, VlMemoryHeader.read_write_length (by omega), hkept, hread,
      hmax]
  · dsimp only
    rw [ByteMem.write_of_ge (by omega), Nat.add_assoc, hcopy _ (by omega)]
    congr 1
    omega

/-- **`vlMemRealloc` of memory with an alignment of its own**, which fits in 16 bits. -/
theorem Allocated.realloc_aligned (h : block.Allocated mem size align)
    (hlarge : ¬ align ≤ vlDefaultMemoryAlign) (halign : align < 2 ^ 16)
    (hmoved : Returnable moved (vlMemAllocAlignedBytes newSize align)) :
    ∃ mem' b, block.vlMemRealloc contents moved mem newSize = .ok (mem', b) ∧
      b.Allocated mem' newSize align ∧
      ∀ i < min size newSize, b.bytes (mem' + i) = block.bytes (mem + i) := by
  have hdefault : vlDefaultMemoryAlign = 8 := rfl
  have hheader : vlMemoryHeaderSize = 16 := rfl
  have hbytes : ∀ n, vlMemAllocAlignedBytes n align = n + align + vlMemoryHeaderSize :=
    fun n => if_neg hlarge
  have hle := h.header_le
  have hoff := h.offset_le
  have hin := h.data_le
  have hold := h.returnable.2.2
  rw [hbytes] at hoff hmoved
  have hend := hmoved.2.2
  have hmax : max align vlDefaultMemoryAlign = align := max_eq_left (by omega)
  obtain ⟨bytes₁, hrealloc, hcopy⟩ := realloc_spec block contents hmoved
  obtain ⟨haligned, hle', hin'⟩ := place_aligned (show 0 < align by omega) hend
  rw [vlMemRealloc, h.loadHeader_eq, ok_bind, hmax]
  dsimp only
  have horigin : mem - vlMemoryHeaderSize - (mem - vlMemoryHeaderSize - block.origin) =
      block.origin := by omega
  rw [Nat.mod_eq_of_lt halign, if_neg hlarge, horigin,
    Nat.mod_eq_of_lt (show newSize + vlMemoryHeaderSize < 2 ^ 64 by omega),
    Nat.mod_eq_of_lt (show size + vlMemoryHeaderSize < 2 ^ 64 by omega),
    Nat.mod_eq_of_lt (show newSize + vlMemoryHeaderSize + align < 2 ^ 64 by omega),
    show newSize + vlMemoryHeaderSize + align = newSize + align + vlMemoryHeaderSize by omega,
    hrealloc, ok_bind]
  dsimp only at haligned hle' hin' ⊢
  generalize (moved + align + vlMemoryHeaderSize) % 2 ^ 64 -
    (moved + align + vlMemoryHeaderSize) % 2 ^ 64 % align = user at haligned hle' hin' ⊢
  have hoffset : (user - vlMemoryHeaderSize - moved) % 2 ^ 32 = user - vlMemoryHeaderSize - moved :=
    Nat.mod_eq_of_lt (by omega)
  have hcount : (if size + vlMemoryHeaderSize > newSize + vlMemoryHeaderSize then
      newSize + vlMemoryHeaderSize else size + vlMemoryHeaderSize) =
        min size newSize + vlMemoryHeaderSize := by
    split_ifs <;> omega
  obtain ⟨bytes₂, hmove, hkept⟩ := memmove_spec
    ⟨bytes₁, moved, newSize + align + vlMemoryHeaderSize⟩ (user - vlMemoryHeaderSize - moved)
    (mem - vlMemoryHeaderSize - block.origin) (min size newSize + vlMemoryHeaderSize)
    (by dsimp only; omega) (by dsimp only; omega)
  dsimp only at hmove hkept
  rw [hoffset, hcount, hmove, ok_bind, storeHeader_eq (by dsimp only; omega) (by dsimp only; omega),
    ok_bind]
  refine ⟨user, _, rfl, ⟨hmoved, haligned, hle'.le, fun _ => hle', by rw [hbytes]; exact hin', hin',
    ?_⟩, fun i hi => ?_⟩
  · dsimp only
    rw [hmax]
    exact VlMemoryHeader.read_write (by dsimp only; omega) (by dsimp only; omega)
      (by dsimp only; omega)
  · have hdata : user + i = moved + (user - vlMemoryHeaderSize - moved) + (vlMemoryHeaderSize + i) := by
      omega
    dsimp only
    rw [ByteMem.write_of_ge (by rw [VlMemoryHeader.length_toBytes]; omega), hdata,
      hkept _ (by omega), Nat.add_assoc, hcopy _ (by omega)]
    congr 1
    omega

/-- Where the alignment fits in 16 bits, the heap is asked for the bytes in a number of 64 bits. -/
theorem Allocated.vlMemRealloc_asks (h : block.Allocated mem size align) (halign : align < 2 ^ 16) :
    Asks (block.realloc contents moved block.origin) (vlMemAllocAlignedBytes newSize align % 2 ^ 64)
      (block.vlMemRealloc contents moved mem newSize) := by
  have hdefault : vlDefaultMemoryAlign = 8 := rfl
  have hheader : vlMemoryHeaderSize = 16 := rfl
  have hle := h.header_le
  have hoff := h.offset_le
  rw [vlMemAllocAlignedBytes] at hoff ⊢
  rw [vlMemRealloc, h.loadHeader_eq, ok_bind]
  dsimp only
  rw [Nat.mod_eq_of_lt (show max align vlDefaultMemoryAlign < 2 ^ 16 by omega)]
  by_cases hsmall : align ≤ vlDefaultMemoryAlign
  · rw [if_pos hsmall] at hoff
    rw [if_pos hsmall, if_pos (show max align vlDefaultMemoryAlign ≤ vlDefaultMemoryAlign by omega),
      show mem - vlMemoryHeaderSize = block.origin by omega]
    exact ⟨_, _, fun b => within_store, rfl⟩
  · rw [if_neg hsmall, if_neg (show ¬ max align vlDefaultMemoryAlign ≤ vlDefaultMemoryAlign by omega),
      show mem - vlMemoryHeaderSize - (mem - vlMemoryHeaderSize - block.origin) = block.origin by
        omega, Nat.mod_add_mod, max_eq_left (by omega),
      show newSize + vlMemoryHeaderSize + align = newSize + align + vlMemoryHeaderSize by omega]
    let user (b : HeapBlock) : ℕ := (b.origin + align + vlMemoryHeaderSize) % 2 ^ 64 -
      (b.origin + align + vlMemoryHeaderSize) % 2 ^ 64 % align
    let offset (b : HeapBlock) : ℕ := (user b - vlMemoryHeaderSize - b.origin) % 2 ^ 32
    let count : ℕ := if (size + vlMemoryHeaderSize) % 2 ^ 64 > (newSize + vlMemoryHeaderSize) % 2 ^ 64
      then (newSize + vlMemoryHeaderSize) % 2 ^ 64 else (size + vlMemoryHeaderSize) % 2 ^ 64
    refine ⟨fun b => (if offset b ≠ mem - vlMemoryHeaderSize - block.origin then
        b.memmove (b.origin + offset b) (b.origin + (mem - vlMemoryHeaderSize - block.origin)) count
        else .ok b) >>= fun b' => b'.storeHeader (user b - vlMemoryHeaderSize)
          ⟨newSize, offset b, align⟩, fun b _ => user b, fun b => ?_, ?_⟩
    · refine Within.bind ?_ fun b' => within_store
      split_ifs
      · exact within_memmove
      · exact within_ok
    · simp only [bind_assoc]
      rfl

/-! ### What is promised -/

/-- **What a caller is promised** of memory: it is aligned, header and data lie in the block, its
recorded size is the one that was asked for, its recorded alignment is at least the default one, and
freeing it frees the block. -/
structure Provides (block : HeapBlock) (mem size align : ℕ) : Prop where
  aligned : align ∣ mem
  header_le : block.origin + vlMemoryHeaderSize ≤ mem
  data_le : mem + size ≤ block.origin + block.length
  size_eq : block.vlMemSize mem = .ok size
  alignment_eq : block.vlMemAlignment mem = .ok (max align vlDefaultMemoryAlign)
  free_eq : block.vlMemFree mem = .ok ()

theorem Allocated.provides (h : block.Allocated mem size align) : block.Provides mem size align := by
  have hle := h.header_le
  refine ⟨h.aligned, hle, h.data_le, ?_, ?_, ?_⟩
  · rw [vlMemSize, h.loadHeader_eq]
    rfl
  · rw [vlMemAlignment, h.loadHeader_eq]
    rfl
  · rw [vlMemFree, h.loadHeader_eq, ok_bind, free, if_pos (by dsimp only; omega)]

/-- The data may be written. -/
theorem Allocated.store (h : block.Allocated mem size align) {data : List UInt8}
    (hdata : data.length = size) :
    ∃ b, block.store mem data = .ok b ∧ b.Allocated mem size align ∧
      b.bytes.slice mem size = data := by
  have hle := h.header_le
  have hin := h.data_le
  refine ⟨{ block with bytes := block.bytes.write mem data },
    by rw [HeapBlock.store, if_pos ⟨by omega, by omega⟩],
    ⟨h.returnable, h.aligned, hle, h.offset_pos, h.offset_le, hin, ?_⟩, ?_⟩
  · rw [← h.header_eq]
    refine VlMemoryHeader.read_congr fun i hi => ByteMem.write_of_lt ?_
    omega
  · rw [← hdata]
    exact ByteMem.slice_write_self

/-- **An allocation and a reallocation keep what they promise**, whatever addresses the heap chooses:
either the heap has no room, or the memory is as promised, and after any data was written to it,
either the heap has no room for the new size, or the memory is as promised again and the data is
there, as far as the new size goes. -/
def KeepsPromise (align size newSize : ℕ) : Prop :=
  ∀ (contents : ByteMem) (origin : ℕ),
    Serves (vlMemAllocAligned contents origin size align) fun r => r.2.Provides r.1 size align ∧
      ∀ (data : List UInt8) (contents : ByteMem) (moved : ℕ), data.length = size →
        Returns (r.2.store r.1 data) fun block =>
          Serves (block.vlMemRealloc contents moved r.1 newSize) fun r' =>
            r'.2.Provides r'.1 newSize align ∧
              r'.2.bytes.slice r'.1 (min size newSize) = data.take (min size newSize)

/-- Memory behind its header needs a block that is longer. -/
theorem Provides.size_le (h : block.Provides mem size align) :
    size + vlMemoryHeaderSize ≤ block.length := by
  have hle := h.header_le
  have hin := h.data_le
  omega

/-- A number of bytes that leaves its type leaves nothing for the data. -/
theorem mod_vlMemAllocAlignedBytes_lt (hsize : size < 2 ^ 64) (halign : align < 2 ^ 32)
    (hwrap : ¬ vlMemAllocAlignedBytes size align < 2 ^ 64) :
    vlMemAllocAlignedBytes size align % 2 ^ 64 < size + vlMemoryHeaderSize ∧
      Returnable vlDefaultMemoryAlign (vlMemAllocAlignedBytes size align % 2 ^ 64) := by
  have hheader : vlMemoryHeaderSize = 16 := rfl
  have hdefault : vlDefaultMemoryAlign = 8 := rfl
  rw [vlMemAllocAlignedBytes] at hwrap ⊢
  split_ifs at hwrap ⊢ with hsmall
  · have hmod : (size + vlMemoryHeaderSize) % 2 ^ 64 = size + vlMemoryHeaderSize - 2 ^ 64 := by omega
    rw [hmod]
    exact ⟨by omega, by decide, dvd_rfl, by omega⟩
  · have hmod : (size + align + vlMemoryHeaderSize) % 2 ^ 64 =
        size + align + vlMemoryHeaderSize - 2 ^ 64 := by omega
    rw [hmod]
    exact ⟨by omega, by decide, dvd_rfl, by omega⟩

/-- **`vlMemRealloc` keeps an allocation**, wherever the heap puts the block. -/
theorem Allocated.vlMemRealloc_spec {bits : ℕ} (h : block.Allocated mem size (2 ^ bits))
    (halign : 2 ^ bits < 2 ^ 16) (hwrap : vlMemAllocAlignedBytes newSize (2 ^ bits) < 2 ^ 64) :
    Serves (block.vlMemRealloc contents moved mem newSize) fun r =>
      r.2.Allocated r.1 newSize (2 ^ bits) ∧
        ∀ i < min size newSize, r.2.bytes (r.1 + i) = block.bytes (mem + i) := by
  by_cases hmoved : Returnable moved (vlMemAllocAlignedBytes newSize (2 ^ bits))
  · by_cases hsmall : 2 ^ bits ≤ vlDefaultMemoryAlign
    · obtain ⟨mem', b, hop, hb⟩ := h.realloc_small (two_pow_dvd_default hsmall) hsmall hmoved
      exact Or.inr ⟨(mem', b), hop, hb⟩
    · obtain ⟨mem', b, hop, hb⟩ := h.realloc_aligned hsmall halign hmoved
      exact Or.inr ⟨(mem', b), hop, hb⟩
  · refine Or.inl ((h.vlMemRealloc_asks halign).full ?_)
    rw [Nat.mod_eq_of_lt hwrap, realloc, if_pos rfl, if_neg hmoved]

/-- **An alignment that leaves 16 bits** is read as none: `realloc` is given the address of the header,
which is not the start of the block. -/
theorem Allocated.vlMemRealloc_fault {bits : ℕ} (h : block.Allocated mem size (2 ^ bits))
    (halign : ¬ (2 : ℕ) ^ bits < 2 ^ 16) :
    block.vlMemRealloc contents moved mem newSize = .error .nullDeref := by
  have hdefault : vlDefaultMemoryAlign = 8 := rfl
  have hpos := h.offset_pos (by omega)
  have hbits : 16 ≤ bits := by
    by_contra hlt
    exact halign (Nat.pow_lt_pow_right (by norm_num) (by omega))
  have hmod : (2 : ℕ) ^ bits % 2 ^ 16 = 0 := Nat.mod_eq_zero_of_dvd (Nat.pow_dvd_pow 2 hbits)
  rw [vlMemRealloc, h.loadHeader_eq, ok_bind, max_eq_left (by omega)]
  dsimp only
  rw [hmod, if_pos (Nat.zero_le _), realloc, if_neg (by omega)]
  rfl

/-- Two allocations that fit keep the promise. -/
theorem keepsPromise {bits : ℕ} (hbits : bits < 32) (halign : 2 ^ bits < 2 ^ 16)
    (hfits : vlMemAllocAlignedBytes size (2 ^ bits) < 2 ^ 64)
    (hfits' : vlMemAllocAlignedBytes newSize (2 ^ bits) < 2 ^ 64) :
    KeepsPromise (2 ^ bits) size newSize := by
  intro contents origin
  by_cases hreturn : Returnable origin (vlMemAllocAlignedBytes size (2 ^ bits))
  · obtain ⟨mem, block, hop, hallocated⟩ := vlMemAllocAligned_spec contents hbits hreturn
    refine Or.inr ⟨(mem, block), hop, hallocated.provides, fun data contents moved hdata => ?_⟩
    obtain ⟨b, hstore, hb, hslice⟩ := hallocated.store hdata
    refine ⟨b, hstore, (hb.vlMemRealloc_spec halign hfits').mono fun r hr => ⟨hr.1.provides, ?_⟩⟩
    rw [← hslice, ByteMem.take_slice (Nat.min_le_left _ _)]
    exact List.map_congr_left fun i hi => hr.2 i (List.mem_range.mp hi)
  · refine Or.inl (vlMemAllocAligned_asks.full ?_)
    rw [Nat.mod_eq_of_lt hfits, malloc, if_neg hreturn]

/-- What is promised of the reallocation of an allocation, with zeros for the data, when both blocks
lie at the first address that is aligned. -/
theorem KeepsPromise.serves {bits : ℕ} (h : KeepsPromise (2 ^ bits) size newSize) (hbits : bits < 32)
    (hplace : vlDefaultMemoryAlign + vlMemAllocAlignedBytes size (2 ^ bits) < 2 ^ 64) :
    ∃ (mem : ℕ) (b : HeapBlock), b.Allocated mem size (2 ^ bits) ∧
      Serves (b.vlMemRealloc (fun _ => 0) vlDefaultMemoryAlign mem newSize) fun r =>
        r.2.Provides r.1 newSize (2 ^ bits) := by
  have hreturn : Returnable vlDefaultMemoryAlign (vlMemAllocAlignedBytes size (2 ^ bits)) :=
    ⟨by decide, dvd_rfl, hplace⟩
  have hdata : (List.replicate size (0 : UInt8)).length = size := List.length_replicate
  obtain ⟨mem, block, hop, hallocated⟩ := vlMemAllocAligned_spec (fun _ => 0) hbits hreturn
  obtain ⟨-, hrealloc⟩ := (h (fun _ => 0) vlDefaultMemoryAlign).of_ok hop
  obtain ⟨b, hstore, hb, -⟩ := hallocated.store hdata
  have hserves := (hrealloc _ (fun _ => 0) vlDefaultMemoryAlign hdata).of_ok hstore
  exact ⟨mem, b, hb, hserves.mono fun r hr => hr.1⟩

/-- **The promise is kept if and only if** the number of bytes of the allocation fits in 64 bits, and
either no block of that many bytes has a place, or the alignment fits in 16 bits and the number of
bytes of the reallocation in 64. -/
theorem vlMemRealloc_keeps_iff {bits : ℕ} (hbits : bits < 32) {size newSize : ℕ}
    (hsize : size < 2 ^ 64) (hnew : newSize < 2 ^ 64) :
    KeepsPromise (2 ^ bits) size newSize ↔
      vlMemAllocAlignedBytes size (2 ^ bits) < 2 ^ 64 ∧
        (vlDefaultMemoryAlign + vlMemAllocAlignedBytes size (2 ^ bits) < 2 ^ 64 →
          2 ^ bits < 2 ^ 16 ∧ vlMemAllocAlignedBytes newSize (2 ^ bits) < 2 ^ 64) := by
  have hdefault : vlDefaultMemoryAlign = 8 := rfl
  have hbound : (2 : ℕ) ^ bits < 2 ^ 32 := Nat.pow_lt_pow_right (by norm_num) hbits
  constructor
  · intro h
    have hfits : vlMemAllocAlignedBytes size (2 ^ bits) < 2 ^ 64 := by
      by_contra hwrap
      obtain ⟨hless, hreturn⟩ := mod_vlMemAllocAlignedBytes_lt hsize hbound hwrap
      obtain ⟨mem, b, -, hlength, hprovides, -⟩ := vlMemAllocAligned_asks.served (if_pos hreturn)
        (h (fun _ => 0) vlDefaultMemoryAlign)
      have hroom := hprovides.size_le
      dsimp only at hlength hroom
      omega
    refine ⟨hfits, fun hplace => ?_⟩
    obtain ⟨mem, b, hb, hserves⟩ := h.serves hbits hplace
    have halign : (2 : ℕ) ^ bits < 2 ^ 16 := by
      by_contra hlarge
      rw [hb.vlMemRealloc_fault hlarge] at hserves
      rcases hserves with hfull | ⟨r, hr, -⟩
      · cases hfull
      · cases hr
    refine ⟨halign, ?_⟩
    by_contra hwrap
    obtain ⟨hless, hreturn'⟩ := mod_vlMemAllocAlignedBytes_lt hnew hbound hwrap
    have hmoved : b.realloc (fun _ => 0) vlDefaultMemoryAlign b.origin
        (vlMemAllocAlignedBytes newSize (2 ^ bits) % 2 ^ 64) = .ok _ :=
      (if_pos rfl).trans (if_pos hreturn')
    obtain ⟨mem', b', -, hlength, hprovides⟩ :=
      (hb.vlMemRealloc_asks halign).served hmoved hserves
    have hroom := hprovides.size_le
    dsimp only at hlength hroom
    omega
  · rintro ⟨hfits, hcond⟩
    by_cases hplace : vlDefaultMemoryAlign + vlMemAllocAlignedBytes size (2 ^ bits) < 2 ^ 64
    · obtain ⟨halign, hfits'⟩ := hcond hplace
      exact keepsPromise hbits halign hfits hfits'
    · -- no address is left for the block
      intro contents origin
      refine Or.inl (vlMemAllocAligned_asks.full ?_)
      rw [Nat.mod_eq_of_lt hfits, malloc, if_neg]
      rintro ⟨hpos, hdvd, hend⟩
      have := Nat.le_of_dvd hpos hdvd
      omega

/-- Memory aligned to a page grows from a thousand bytes to a million. -/
theorem vlMemRealloc_keeps_page : KeepsPromise (2 ^ 12) 1024 1048576 :=
  (vlMemRealloc_keeps_iff (by norm_num) (by norm_num) (by norm_num)).mpr
    ⟨by decide, fun _ => ⟨by norm_num, by decide⟩⟩

/-- Memory aligned to 65536 bytes does not. -/
theorem vlMemRealloc_breaks_large : ¬ KeepsPromise (2 ^ 16) 1024 1048576 := by
  intro h
  obtain ⟨mem, b, hb, hserves⟩ := h.serves (by norm_num) (by decide)
  rw [hb.vlMemRealloc_fault (by norm_num)] at hserves
  rcases hserves with hfull | ⟨r, hr, -⟩
  · cases hfull
  · cases hr

end HeapBlock

end VeritableLasagna
