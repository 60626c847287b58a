import VeritableLasagna.Filesys.Normalize
import VeritableLasagna.Filesys.Strings
import VeritableLasagna.Lib.Traced

/-!
# Normalising in the arena

`vlFSPathNormalize` works in blocks of the arena: the path that is stored in one is copied, with its
separators collapsed, into a second; `strtok` takes that one apart, and the pointers it returns go into a
third; the result is built in a fourth. At the end the first three are freed.

What the function does in the arena is recorded (`ArenaEvent`): every block it allocates or frees, and every
range of bytes it writes. As long as it writes only into payloads of blocks it has allocated itself
(`ownBlocks`), the result is the normal form of the path.

* A pointer into the arena is given by its offset; none is used after the memory has moved.
* The components are counted by an `int`.
-/

namespace VeritableLasagna

/-! ### What is recorded -/

/-- What a function does in an arena. -/
inductive ArenaEvent
  | alloc (ptr size : ℕ)
  | free (ptr : ℕ)
  | write (p n : ℕ)

/-- **Writing only into the payloads of own blocks**: those that have been allocated, and not freed. -/
def ownBlocks : Policy (List Block) ArenaEvent where
  Allowed own
    | .write p n => ∃ b ∈ own, b.offset + 8 ≤ p ∧ p + n ≤ b.stop
    | _ => True
  next own
    | .alloc ptr size => ⟨ptr - 8, size + 8⟩ :: own
    | .free ptr => own.filter (·.offset + 8 ≠ ptr)
    | .write _ _ => own

namespace VlArena

/-- `vlArenaMemAlloc`, recorded. -/
def alloc (arena : VlArena) (size : ℕ) : Traced ArenaEvent (ℕ × VlArena) :=
  .record (vlArenaMemAlloc arena size) fun r => .alloc r.1 size

/-- `vlArenaMemFree`, recorded. -/
def free (arena : VlArena) (ptr : ℕ) : Traced ArenaEvent VlArena :=
  .perform (.free ptr) (vlArenaMemFree arena ptr)

/-- Writing bytes, recorded. -/
def put (arena : VlArena) (p : ℕ) (bytes : List UInt8) : Traced ArenaEvent VlArena :=
  .perform (.write p bytes.length) do
    let data ← arena.data.store p bytes
    return { arena with data }

/-- Writing a byte on at `writePos` if a condition holds. Returns `writePos`. -/
def putIf (arena : VlArena) (cond : Prop) [Decidable cond] (result writePos : ℕ) (byte : UInt8) :
    Traced ArenaEvent (ℕ × VlArena) :=
  if cond then do
    let arena ← arena.put (result + writePos) [byte]
    return (writePos + 1, arena)
  else return (writePos, arena)

/-- `strtok`, of a string or of what the last call has left of one, with a single delimiter. Returns the
token, unless there is none, and where the next call goes on. -/
def strtok (arena : VlArena) (str : ℕ) (delim : UInt8) :
    Traced ArenaEvent (Option ℕ × ℕ × VlArena) := do
  let chars ← .lift (arena.data.loadString str)
  let token := str + (chars.takeWhile (· == delim)).length
  let chars := chars.dropWhile (· == delim)
  let stop := token + (chars.takeWhile (· != delim)).length
  if chars = [] then return (none, token, arena)
  else if chars.dropWhile (· != delim) = [] then return (some token, stop, arena)
  else do
    let arena ← arena.put stop [0]
    return (some token, stop + 1, arena)

/-! ### The passes -/

/-- The byte of the native separator. -/
def nativeSeparator : UInt8 := toByte vlNativePathSeparator

/-- The first pass of `vlFSPathNormalize`, for the `left` bytes from `readPos` on. Returns `writePos`. -/
def vlFSPathCollapse (origPath tempPath : ℕ) :
    ℕ → ℕ → ℕ → Bool → VlArena → Traced ArenaEvent (ℕ × VlArena)
  | 0, _, writePos, _, arena => return (writePos, arena)
  | left + 1, readPos, writePos, lastWasSep, arena => do
    let c ← .lift (arena.data.loadByte (origPath + readPos))
    if isPathSeparator (toChar c) then
      if lastWasSep then vlFSPathCollapse origPath tempPath left (readPos + 1) writePos true arena
      else do
        let arena ← arena.put (tempPath + writePos) [nativeSeparator]
        vlFSPathCollapse origPath tempPath left (readPos + 1) (writePos + 1) true arena
    else do
      let arena ← arena.put (tempPath + writePos) [c]
      vlFSPathCollapse origPath tempPath left (readPos + 1) (writePos + 1) false arena

/-- The beginning of `vlFSPathNormalize`: the path is copied, with its separators collapsed, into a new
block. -/
def vlFSPathCopy (arena : VlArena) (origPath origLen : ℕ) : Traced ArenaEvent (ℕ × ℕ × VlArena) := do
  let (tempPtr, arena) ← arena.alloc origLen
  let (writePos, arena) ← vlFSPathCollapse origPath tempPtr origLen 0 0 false arena
  return (tempPtr, writePos, arena)

/-- The second pass, for one component: its pointer is stored unless it is `.` or `..`. Returns
`componentCount`. -/
def vlFSPathFold (arena : VlArena) (components componentCount component : ℕ) :
    Traced ArenaEvent (ℕ × VlArena) := do
  let str ← .lift (arena.data.loadString component)
  if charsOf str = ['.'] then return (componentCount, arena)
  else if charsOf str = ['.', '.'] then return (componentCount - 1, arena)
  else do
    let arena ← arena.put (components + 8 * componentCount) (natToLE 8 component)
    if componentCount + 1 < 2 ^ 31 then return (componentCount + 1, arena)
    else .lift (.error .signedOverflow)

/-- The second pass, from a component that `strtok` has returned on. -/
def vlFSPathSplit (components : ℕ) :
    ℕ → Option ℕ → ℕ → ℕ → VlArena → Traced ArenaEvent (ℕ × VlArena)
  | _, none, _, componentCount, arena => return (componentCount, arena)
  | 0, some _, _, _, _ => .lift (.error .noReturn)
  | fuel + 1, some component, save, componentCount, arena => do
    let (componentCount, arena) ← arena.vlFSPathFold components componentCount component
    let (component, save, arena) ← arena.strtok save nativeSeparator
    vlFSPathSplit components fuel component save componentCount arena

/-- The second pass, of the copy of the path, whose length is `tempLen`. Returns `componentCount`. -/
def vlFSPathTokens (arena : VlArena) (tempPath components tempLen : ℕ) :
    Traced ArenaEvent (ℕ × VlArena) := do
  let (component, save, arena) ← arena.strtok tempPath nativeSeparator
  vlFSPathSplit components (tempLen + 1) component save 0 arena

/-- The third pass, for the `left` components from `i` on. Returns `writePos`. -/
def vlFSPathBuild (components result : ℕ) :
    ℕ → ℕ → ℕ → VlArena → Traced ArenaEvent (ℕ × VlArena)
  | 0, _, writePos, arena => return (writePos, arena)
  | left + 1, i, writePos, arena => do
    let (writePos, arena) ← arena.putIf (i > 0) result writePos nativeSeparator
    let component ← .lift (arena.data.loadNumber (components + 8 * i) 8)
    let str ← .lift (arena.data.loadString component)
    let arena ← arena.put (result + writePos) str
    vlFSPathBuild components result left (i + 1) (writePos + str.length) arena

/-- The end of `vlFSPathNormalize`: the path is built, and the other blocks are freed. -/
def vlFSPathRebuild (arena : VlArena) (origPath tempPtr resultPtr componentPtr componentCount : ℕ) :
    Traced ArenaEvent (ℕ × VlArena) := do
  let first ← .lift (arena.data.loadByte origPath)
  let (writePos, arena) ← arena.putIf (first = nativeSeparator) resultPtr 0 nativeSeparator
  let (writePos, arena) ← vlFSPathBuild componentPtr resultPtr componentCount 0 writePos arena
  let first ← .lift (arena.data.loadByte origPath)
  let (writePos, arena) ←
    arena.putIf (writePos = 0 ∧ first ≠ nativeSeparator) resultPtr writePos (toByte '.')
  let arena ← arena.put (resultPtr + writePos) [0]
  let arena ← arena.free tempPtr
  let arena ← arena.free componentPtr
  let arena ← arena.free origPath
  return (resultPtr, arena)

/-- `vlFSPathNormalize`, of a path whose string is at `pathStringPtr`. Returns where the string of the path
is then. -/
def vlFSPathNormalize (arena : VlArena) (pathStringPtr : ℕ) : Traced ArenaEvent (ℕ × VlArena) :=
  if pathStringPtr = 0 then return (pathStringPtr, arena)
  else do
    let origLen ← .lift (vlArenaMemSize arena pathStringPtr)
    let (tempPtr, writePos, arena) ← arena.vlFSPathCopy pathStringPtr origLen
    let arena ← arena.put (tempPtr + writePos) [0]
    let (resultPtr, arena) ← arena.alloc (writePos + 1)
    let (componentPtr, arena) ← arena.alloc (8 * (writePos + 1) % 2 ^ 64)
    let (componentCount, arena) ← arena.vlFSPathTokens tempPtr componentPtr writePos
    arena.vlFSPathRebuild pathStringPtr tempPtr resultPtr componentPtr componentCount

end VlArena

/-! ### One step in the arena -/

namespace VlArena.Fills

variable {arena arena' : VlArena} {live tr : List Block} {own : List (Block × List UInt8)} {b : Block}
  {bytes pre mid post str : List UInt8} {size : ℕ} {c : Prop}

theorem alloc_follows (h : arena'.Fills arena live own) (hsize : 0 < size) (hlt : size + 8 < 2 ^ 64)
    (hc : vlArenaMemAlloc arena' size = .error .outOfMemory → c) :
    ownBlocks.Follows c tr (arena'.alloc size) fun r tr' =>
      ∃ p, r.1 = p + 8 ∧ tr' = ⟨p, size + 8⟩ :: tr ∧
        r.2.Fills arena live ((⟨p, size + 8⟩, []) :: own) := by
  refine .record ((h.alloc hsize hlt).imp (fun herror => ⟨hc herror, herror⟩) fun hret => hret.mono ?_)
  rintro r ⟨p, hp, hfills⟩
  refine ⟨trivial, p, hp, ?_, hfills⟩
  change ⟨r.1 - 8, size + 8⟩ :: tr = _
  rw [hp, Nat.add_sub_cancel]

/-- **Writing over a part** of what is in an own block. -/
theorem replace_follows (h : arena'.Fills arena live ((b, pre ++ mid ++ post) :: own)) (hb : b ∈ tr)
    (hlength : str.length = mid.length) :
    ownBlocks.Follows c tr (arena'.put (b.offset + 8 + pre.length) str) fun a tr' =>
      tr' = tr ∧ a.Fills arena live ((b, pre ++ str ++ post) :: own) := by
  have hfits := h.fits _ List.mem_cons_self
  simp only [List.length_append] at hfits
  have hstore := h.store (k := pre.length) (by simp only [List.length_append]; omega) str (by omega)
  have hbefore : (pre ++ mid ++ post).take pre.length = pre := by rw [List.append_assoc, List.take_left]
  have hbehind : (pre ++ mid ++ post).drop (pre.length + str.length) = post := by
    rw [hlength, ← List.length_append, List.drop_left]
  rw [hbefore, hbehind] at hstore
  refine .perform ⟨b, hb, by omega, by rw [Block.stop]; omega⟩ ?_
  exact (hstore.bind fun data hdata => returns_ok ⟨rfl, hdata⟩).servesUnless

/-- **Writing on** in an own block. -/
theorem append_follows (h : arena'.Fills arena live ((b, bytes) :: own)) (hb : b ∈ tr)
    (str : List UInt8) (hfit : 8 + (bytes.length + str.length) ≤ b.size) :
    ownBlocks.Follows c tr (arena'.put (b.offset + 8 + bytes.length) str) fun a tr' =>
      tr' = tr ∧ a.Fills arena live ((b, bytes ++ str) :: own) := by
  have hstore := h.store le_rfl str hfit
  rw [List.take_length, List.drop_of_length_le (by omega), List.append_nil] at hstore
  refine .perform ⟨b, hb, by omega, by rw [Block.stop]; omega⟩ ?_
  exact (hstore.bind fun data hdata => returns_ok ⟨rfl, hdata⟩).servesUnless

theorem putIf_follows (h : arena'.Fills arena live ((b, bytes) :: own)) (hb : b ∈ tr) (cond : Prop)
    [Decidable cond] (byte : UInt8) (hfit : cond → 8 + (bytes.length + 1) ≤ b.size) :
    ownBlocks.Follows c tr (arena'.putIf cond (b.offset + 8) bytes.length byte) fun r tr' =>
      tr' = tr ∧ r.1 = (bytes ++ if cond then [byte] else []).length ∧
        r.2.Fills arena live ((b, bytes ++ if cond then [byte] else []) :: own) := by
  rw [VlArena.putIf]
  split_ifs with hcond
  · have hput := h.append_follows (c := c) hb [byte] (hfit hcond)
    refine hput.bind ?_
    rintro a _ ⟨rfl, ha⟩
    refine .pure ⟨rfl, ?_, ha⟩
    rw [List.length_append, List.length_singleton]
  · rw [List.append_nil]
    exact .pure ⟨rfl, rfl, h⟩

theorem free_follows (h : arena'.Fills arena live ((b, bytes) :: own)) :
    ownBlocks.Follows c tr (arena'.free (b.offset + 8)) fun a _ => a.Fills arena live own :=
  .perform trivial h.free.servesUnless

theorem freeLive_follows (h : arena'.Fills arena (b :: live) own) :
    ownBlocks.Follows c tr (arena'.free (b.offset + 8)) fun a _ => a.Fills arena live own :=
  .perform trivial h.freeLive.servesUnless

/-- **Reading a part** of what is in an own block. -/
theorem part (h : arena'.Fills arena live own) (hb : (b, pre ++ mid ++ post) ∈ own) :
    arena'.data.bytes.slice (b.offset + 8 + pre.length) mid.length = mid ∧
      b.offset + 8 + pre.length + mid.length ≤ arena'.data.size := by
  have hfits := h.fits _ hb
  have hslice := congrArg (fun bytes => (bytes.drop pre.length).take mid.length) (h.slice _ hb)
  have hstop := h.inv.stop_le (List.mem_append_left _ (List.mem_map_of_mem hb))
  simp only [List.length_append, Block.stop] at hfits hslice hstop
  rw [ByteMem.drop_slice, ByteMem.take_slice (by omega), List.append_assoc, List.drop_left,
    List.take_left] at hslice
  exact ⟨hslice, by omega⟩

theorem loadString_part (h : arena'.Fills arena live own) (hb : (b, pre ++ str ++ 0 :: post) ∈ own)
    (hstr : 0 ∉ str) : arena'.data.loadString (b.offset + 8 + pre.length) = .ok str := by
  have hmem : (b, pre ++ (str ++ [0]) ++ post) ∈ own := by
    rwa [← List.append_assoc, List.append_assoc _ [0], List.singleton_append]
  obtain ⟨hslice, hsize⟩ := h.part hmem
  rw [List.length_append, List.length_singleton] at hslice hsize
  exact VlMemory.loadString_eq hstr hslice (by omega)

theorem loadNumber_part {v : ℕ} (h : arena'.Fills arena live own)
    (hb : (b, pre ++ natToLE 8 v ++ post) ∈ own) (hv : v < 2 ^ 64) :
    arena'.data.loadNumber (b.offset + 8 + pre.length) 8 = .ok v := by
  obtain ⟨hslice, hsize⟩ := h.part hb
  rw [length_natToLE] at hslice hsize
  have hmod : v % 256 ^ 8 = v := Nat.mod_eq_of_lt (hv.trans_eq (by norm_num))
  rw [VlMemory.loadNumber_eq hsize, VlMemory.number, hslice, natOfLE_natToLE, hmod]

/-- Reading a byte of a block that was there before. -/
theorem loadByte (h : arena'.Fills arena live own) (hb : b ∈ live) {q : ℕ} (hq : b.offset ≤ q)
    (hstop : q < b.stop) : arena'.data.loadByte q = .ok (arena.data.bytes q) := by
  have hslice := h.keeps.payload (n := 1) hb hq hstop
  have hsize := h.inv.stop_le (List.mem_append_right _ hb)
  rw [ByteMem.slice_one, ByteMem.slice_one] at hslice
  rw [VlMemory.loadByte, if_pos (by omega), (List.cons.inj hslice).1]

end VlArena.Fills

/-! ### Collapsing -/

theorem charsOf_append (bytes bytes' : List UInt8) :
    charsOf (bytes ++ bytes') = charsOf bytes ++ charsOf bytes' := List.map_append

theorem toChar_nativeSeparator : toChar VlArena.nativeSeparator = vlNativePathSeparator := by decide

section Collapse

variable {arena arena' : VlArena} {live : List Block} {b temp : Block} {c : Prop}

/-- **The first pass** writes the path with its separators collapsed. -/
theorem vlFSPathCollapse_follows (hb : b ∈ live) {rest bytes : List UInt8} {readPos : ℕ}
    (h : arena'.Fills arena live [(temp, bytes)])
    (hrest : arena.data.bytes.slice (b.offset + 8 + readPos) rest.length = rest)
    (hin : 8 + readPos + rest.length ≤ b.size) (hroom : 8 + bytes.length + rest.length ≤ temp.size)
    (last : Bool) :
    ownBlocks.Follows c [temp] (VlArena.vlFSPathCollapse (b.offset + 8) (temp.offset + 8) rest.length
        readPos bytes.length last arena') fun r tr =>
      tr = [temp] ∧ ∃ out, charsOf out = collapseSeparators last (charsOf rest) ∧
        r.1 = (bytes ++ out).length ∧ r.2.Fills arena live [(temp, bytes ++ out)] := by
  induction rest generalizing arena' bytes readPos last with
  | nil =>
    refine .pure ⟨rfl, [], rfl, ?_, ?_⟩
    · rw [List.append_nil]
    · rwa [List.append_nil]
  | cons byte rest ih =>
    rw [List.length_cons, ByteMem.slice_succ, List.cons.injEq] at hrest
    rw [List.length_cons] at hin hroom ⊢
    obtain ⟨hbyte, hrest⟩ := hrest
    have hrest' : arena.data.bytes.slice (b.offset + 8 + (readPos + 1)) rest.length = rest := hrest
    have hload := h.loadByte hb (q := b.offset + 8 + readPos) (by omega) (by rw [Block.stop]; omega)
    -- one byte is written
    have hput : ∀ byte' last', ownBlocks.Follows c [temp] (do
        let arena ← arena'.put (temp.offset + 8 + bytes.length) [byte']
        VlArena.vlFSPathCollapse (b.offset + 8) (temp.offset + 8) rest.length (readPos + 1)
          (bytes.length + 1) last' arena) fun r tr => tr = [temp] ∧ ∃ out,
            charsOf out = toChar byte' :: collapseSeparators last' (charsOf rest) ∧
              r.1 = (bytes ++ out).length ∧ r.2.Fills arena live [(temp, bytes ++ out)] := by
      intro byte' last'
      refine (h.append_follows List.mem_cons_self [byte']
        (by rw [List.length_singleton]; omega)).bind ?_
      rintro a _ ⟨rfl, ha⟩
      have hlength : bytes.length + 1 = (bytes ++ [byte']).length := by
        rw [List.length_append, List.length_singleton]
      rw [hlength]
      refine (ih ha hrest' (by omega) (by omega) last').mono ?_
      rintro r _ ⟨rfl, out, hout, hpos, hfills⟩
      refine ⟨rfl, byte' :: out, congrArg _ hout, ?_, ?_⟩
      · rwa [List.append_assoc] at hpos
      · rwa [List.append_assoc] at hfills
    rw [VlArena.vlFSPathCollapse, hload, Traced.lift_ok_bind, hbyte]
    have hcollapse : collapseSeparators last (charsOf (byte :: rest)) =
        if isPathSeparator (toChar byte) then
          if last then collapseSeparators true (charsOf rest)
          else vlNativePathSeparator :: collapseSeparators true (charsOf rest)
        else toChar byte :: collapseSeparators false (charsOf rest) := rfl
    rw [hcollapse]
    split_ifs with hsep hlast
    · exact ih h hrest' (by omega) (by omega) true
    · rw [← toChar_nativeSeparator]
      exact hput _ true
    · exact hput byte false

end Collapse

/-! ### Tokens -/

/-- The string of a token is in what has been taken apart, with a terminator behind it. -/
def IsToken (base : ℕ) (done : List UInt8) (token : ℕ × List UInt8) : Prop :=
  0 ∉ token.2 ∧ ∃ pre post, done = pre ++ token.2 ++ 0 :: post ∧ token.1 = base + pre.length

theorem IsToken.append {base : ℕ} {done rest : List UInt8} {token : ℕ × List UInt8}
    (h : IsToken base done token) : IsToken base (done ++ rest) token := by
  obtain ⟨hnul, pre, post, rfl, hpos⟩ := h
  refine ⟨hnul, pre, post ++ rest, ?_, hpos⟩
  rw [List.append_assoc _ _ rest, List.cons_append]

/-- The pointers to tokens, as they are stored. -/
def pointers (tokens : List (ℕ × List UInt8)) : List UInt8 :=
  tokens.flatMap fun token => natToLE 8 token.1

/-- The names that tokens stand for. -/
def tokenNames (tokens : List (ℕ × List UInt8)) : List (List Char) :=
  tokens.map fun token => charsOf token.2

/-- The room that tokens take up with their terminators. -/
def tokenRoom (tokens : List (ℕ × List UInt8)) : ℕ :=
  (tokens.map fun token => token.2.length + 1).sum

theorem tokenRoom_cons (token : ℕ × List UInt8) (tokens : List (ℕ × List UInt8)) :
    tokenRoom (token :: tokens) = token.2.length + 1 + tokenRoom tokens := List.sum_cons

theorem tokenNames_cons (token : ℕ × List UInt8) (tokens : List (ℕ × List UInt8)) :
    tokenNames (token :: tokens) = charsOf token.2 :: tokenNames tokens := rfl

theorem length_pointers (tokens : List (ℕ × List UInt8)) :
    (pointers tokens).length = 8 * tokens.length := by
  induction tokens with
  | nil => rfl
  | cons token tokens ih =>
    rw [pointers, List.flatMap_cons, List.length_append, length_natToLE, List.length_cons, ← pointers, ih]
    omega

theorem pointers_append (tokens tokens' : List (ℕ × List UInt8)) :
    pointers (tokens ++ tokens') = pointers tokens ++ pointers tokens' := List.flatMap_append

theorem length_le_tokenRoom (tokens : List (ℕ × List UInt8)) : tokens.length ≤ tokenRoom tokens := by
  induction tokens with
  | nil => exact le_rfl
  | cons token tokens ih =>
    rw [tokenRoom_cons, List.length_cons]
    omega

theorem tokenRoom_append (tokens tokens' : List (ℕ × List UInt8)) :
    tokenRoom (tokens ++ tokens') = tokenRoom tokens + tokenRoom tokens' := by
  rw [tokenRoom, List.map_append, List.sum_append]
  rfl

/-- **While the path is taken apart**: the own blocks hold what is done of it and what is not, and pointers to
the tokens on hand. -/
structure VlArena.Splits (arena' arena : VlArena) (live : List Block) (temp components result : Block)
    (done rest : List UInt8) (tokens : List (ℕ × List UInt8)) : Prop where
  fills : ∃ stale, arena'.Fills arena live
    [(components, pointers tokens ++ stale), (temp, done ++ rest), (result, [])]
  isToken : ∀ token ∈ tokens, IsToken (temp.offset + 8) done token
  room : tokenRoom tokens ≤ done.length

section Split

variable {arena arena' : VlArena} {live tr : List Block} {temp components result : Block}
  {done rest : List UInt8} {tokens : List (ℕ × List UInt8)} {token : ℕ × List UInt8} {c : Prop}

/-- **One component**: a token is kept, dropped, or drops the last one. -/
theorem vlFSPathFold_follows (h : arena'.Splits arena live temp components result done rest tokens)
    (htoken : IsToken (temp.offset + 8) done token)
    (htotal : tokenRoom tokens + (token.2.length + 1) ≤ done.length)
    (hroom : 8 * (tokens.length + 1) + 8 ≤ components.size) (hmem : components ∈ tr)
    (hfew : (foldComponent (tokenNames tokens) (charsOf token.2)).length < 2 ^ 31) :
    ownBlocks.Follows c tr (arena'.vlFSPathFold (components.offset + 8) tokens.length token.1) fun r tr' =>
      tr' = tr ∧ ∃ tokens', r.1 = tokens'.length ∧
        r.2.Splits arena live temp components result done rest tokens' ∧
        tokenNames tokens' = foldComponent (tokenNames tokens) (charsOf token.2) := by
  obtain ⟨stale, hfills⟩ := h.fills
  obtain ⟨hnul, pre, post, hdone, hpos⟩ := id htoken
  have hload : arena'.data.loadString token.1 = .ok token.2 := by
    have hwhole : done ++ rest = pre ++ token.2 ++ 0 :: (post ++ rest) := by
      rw [hdone, List.append_assoc _ _ rest, List.cons_append]
    rw [hwhole] at hfills
    rw [hpos]
    exact hfills.loadString_part (List.mem_cons_of_mem _ List.mem_cons_self) hnul
  rw [VlArena.vlFSPathFold, hload, Traced.lift_ok_bind]
  rw [foldComponent] at hfew ⊢
  by_cases hdot : charsOf token.2 = ['.']
  · rw [if_pos hdot, if_pos hdot]
    exact .pure ⟨rfl, tokens, rfl, h, rfl⟩
  rw [if_neg hdot, if_neg hdot]
  rw [if_neg hdot] at hfew
  by_cases hdotdot : charsOf token.2 = ['.', '.']
  · rw [if_pos hdotdot, if_pos hdotdot]
    -- the last token is given up, and its pointer is stale
    refine .pure ⟨rfl, tokens.dropLast, List.length_dropLast.symm, ⟨?_, ?_, ?_⟩, ?_⟩
    · rcases List.eq_nil_or_concat' tokens with rfl | ⟨tokens', last, rfl⟩
      · exact ⟨stale, hfills⟩
      · rw [pointers_append, List.append_assoc] at hfills
        rw [List.dropLast_concat]
        exact ⟨_, hfills⟩
    · exact fun token' htoken' => h.isToken token' (List.mem_of_mem_dropLast htoken')
    · rcases List.eq_nil_or_concat' tokens with rfl | ⟨tokens', last, rfl⟩
      · exact h.room
      · have hle := h.room
        rw [tokenRoom_append] at hle
        rw [List.dropLast_concat]
        omega
    · exact List.map_dropLast
  · rw [if_neg hdotdot, if_neg hdotdot]
    rw [if_neg hdotdot, List.length_append, List.length_singleton, tokenNames, List.length_map] at hfew
    have hput : ownBlocks.Follows c tr
        (arena'.put (components.offset + 8 + 8 * tokens.length) (natToLE 8 token.1)) fun a tr' =>
          tr' = tr ∧ ∃ stale', a.Fills arena live
            [(components, pointers (tokens ++ [token]) ++ stale'), (temp, done ++ rest), (result, [])] := by
      have hlength := length_pointers tokens
      have hstore := hfills.store (k := 8 * tokens.length)
        (by rw [List.length_append, hlength]; omega) (natToLE 8 token.1) (by rw [length_natToLE]; omega)
      refine .perform ⟨components, hmem, by omega, by rw [Block.stop, length_natToLE]; omega⟩ ?_
      refine (hstore.bind fun data hdata => returns_ok ⟨rfl, ?_⟩).servesUnless
      rw [← hlength, List.take_left] at hdata
      rw [pointers_append]
      have hone : pointers [token] = natToLE 8 token.1 := List.append_nil _
      rw [hone]
      exact ⟨_, hdata⟩
    refine hput.bind ?_
    rintro a _ ⟨rfl, hfills'⟩
    rw [if_pos hfew]
    refine .pure ⟨rfl, tokens ++ [token], ?_, ⟨hfills', ?_, ?_⟩, ?_⟩
    · rw [List.length_append, List.length_singleton]
    · intro token' htoken'
      rcases List.mem_append.mp htoken' with hold | hnew
      · exact h.isToken token' hold
      · rw [List.mem_singleton.mp hnew]
        exact htoken
    · rw [tokenRoom_append]
      exact htotal
    · exact List.map_append

end Split

/-! ### Taking a string apart -/

/-- **A string is taken apart** at its first token: there may be none, or nothing behind it, or a delimiter. -/
theorem exists_token (delim : UInt8) (chars : List UInt8) :
    (∀ x ∈ chars, x = delim) ∨ ∃ seps token, (∀ x ∈ seps, x = delim) ∧ token ≠ [] ∧ delim ∉ token ∧
      (chars = seps ++ token ∨ ∃ rest, chars = seps ++ token ++ delim :: rest) := by
  have hseps : ∀ x ∈ chars.takeWhile (· == delim), x = delim := by
    intro x hx
    have hsep := List.mem_takeWhile_imp hx
    exact eq_of_beq hsep
  have hsplit := List.takeWhile_append_dropWhile (p := (· == delim)) (l := chars)
  cases hrest : chars.dropWhile (· == delim) with
  | nil =>
    rw [hrest, List.append_nil] at hsplit
    rw [hsplit] at hseps
    exact Or.inl hseps
  | cons first rest =>
    have hfirst : (first == delim) = false := by
      have hnot := List.head?_dropWhile_not (· == delim) chars
      rw [hrest] at hnot
      exact hnot
    have htoken := List.takeWhile_append_dropWhile (p := (· != delim)) (l := first :: rest)
    refine Or.inr ⟨_, (first :: rest).takeWhile (· != delim), hseps, ?_, fun hmem => ?_, ?_⟩
    · rw [List.takeWhile_cons_of_pos (by rw [bne, hfirst]; rfl)]
      exact List.cons_ne_nil _ _
    · have hne := List.mem_takeWhile_imp hmem
      rw [bne_self_eq_false] at hne
      exact absurd hne Bool.false_ne_true
    · cases hbehind : (first :: rest).dropWhile (· != delim) with
      | nil =>
        rw [hbehind, List.append_nil] at htoken
        rw [htoken, ← hrest, hsplit]
        exact Or.inl rfl
      | cons next behind =>
        have hnext : (next != delim) = false := by
          have hnot := List.head?_dropWhile_not (· != delim) (first :: rest)
          rw [hbehind] at hnot
          exact hnot
        obtain rfl : next = delim := bne_eq_false_iff_eq.mp hnext
        refine Or.inr ⟨behind, ?_⟩
        rw [List.append_assoc, ← hbehind, htoken, ← hrest, hsplit]

section Strtok

variable {arena : VlArena} {str : ℕ} {delim : UInt8} {chars seps token rest : List UInt8}

theorem takeWhile_delim (rest : List UInt8) (hseps : ∀ x ∈ seps, x = delim) (hne : token ≠ [])
    (hnot : delim ∉ token) :
    (seps ++ token ++ rest).takeWhile (· == delim) = seps ∧
      (seps ++ token ++ rest).dropWhile (· == delim) = token ++ rest := by
  have hpos : ∀ x ∈ seps, (x == delim) = true := fun x hx => beq_iff_eq.mpr (hseps x hx)
  obtain ⟨first, others, rfl⟩ := List.exists_cons_of_ne_nil hne
  have hneg : ¬ (first == delim) = true := fun heq => hnot (by rw [← eq_of_beq heq]; exact List.mem_cons_self)
  rw [List.append_assoc, List.takeWhile_append_of_pos hpos, List.dropWhile_append_of_pos hpos,
    List.cons_append]
  refine ⟨?_, List.dropWhile_cons_of_neg hneg⟩
  have hnil : (first :: (others ++ rest)).takeWhile (· == delim) = [] := List.takeWhile_cons_of_neg hneg
  rw [hnil, List.append_nil]

theorem strtok_none (hload : arena.data.loadString str = .ok chars) (h : ∀ x ∈ chars, x = delim) :
    ∃ save, arena.strtok str delim = Pure.pure (none, save, arena) := by
  have hdrop : chars.dropWhile (· == delim) = [] :=
    List.dropWhile_eq_nil_iff.mpr fun x hx => beq_iff_eq.mpr (h x hx)
  refine ⟨str + (chars.takeWhile (· == delim)).length, ?_⟩
  rw [VlArena.strtok, hload, Traced.lift_ok_bind, if_pos hdrop]

theorem strtok_last (hload : arena.data.loadString str = .ok (seps ++ token))
    (hseps : ∀ x ∈ seps, x = delim) (hne : token ≠ []) (hnot : delim ∉ token) :
    arena.strtok str delim =
      Pure.pure (some (str + seps.length), str + seps.length + token.length, arena) := by
  have hpos : ∀ x ∈ token, (x != delim) = true := by
    intro x hx
    rw [bne_iff_ne]
    rintro rfl
    exact hnot hx
  obtain ⟨htake, hdrop⟩ := takeWhile_delim [] hseps hne hnot
  rw [List.append_nil, List.append_nil] at hdrop
  rw [List.append_nil] at htake
  have hrest : token.dropWhile (· != delim) = [] := List.dropWhile_eq_nil_iff.mpr hpos
  have hwhole : token.takeWhile (· != delim) = token := List.takeWhile_eq_self_iff.mpr hpos
  rw [VlArena.strtok, hload, Traced.lift_ok_bind]
  dsimp only
  rw [htake, hdrop, if_neg hne, hrest, if_pos rfl, hwhole]

theorem strtok_token (hload : arena.data.loadString str = .ok (seps ++ token ++ delim :: rest))
    (hseps : ∀ x ∈ seps, x = delim) (hne : token ≠ []) (hnot : delim ∉ token) :
    arena.strtok str delim = (do
      let arena ← arena.put (str + seps.length + token.length) [0]
      return (some (str + seps.length), str + seps.length + token.length + 1, arena)) := by
  have hpos : ∀ x ∈ token, (x != delim) = true := by
    intro x hx
    rw [bne_iff_ne]
    rintro rfl
    exact hnot hx
  have hneg : ¬ (delim != delim) = true := by rw [bne_self_eq_false]; exact Bool.false_ne_true
  have hdrop' : (token ++ delim :: rest).dropWhile (· != delim) = delim :: rest := by
    rw [List.dropWhile_append_of_pos hpos]
    exact List.dropWhile_cons_of_neg hneg
  have htake' : (token ++ delim :: rest).takeWhile (· != delim) = token := by
    have hnil : (delim :: rest).takeWhile (· != delim) = [] := List.takeWhile_cons_of_neg hneg
    rw [List.takeWhile_append_of_pos hpos, hnil, List.append_nil]
  obtain ⟨htake, hdrop⟩ := takeWhile_delim (delim :: rest) hseps hne hnot
  rw [VlArena.strtok, hload, Traced.lift_ok_bind]
  dsimp only
  rw [htake, hdrop, if_neg (List.append_ne_nil_of_left_ne_nil hne _), hdrop',
    if_neg (List.cons_ne_nil _ _), htake']

end Strtok

section Components

variable {seps token rest : List UInt8}

theorem not_mem_charsOf (hnot : VlArena.nativeSeparator ∉ token) : vlNativePathSeparator ∉ charsOf token := by
  rw [← toChar_nativeSeparator, toChar_mem_charsOf]
  exact hnot

/-- A string of separators has no components. -/
theorem pathComponents_seps (hseps : ∀ x ∈ seps, x = VlArena.nativeSeparator) (cs : List Char) :
    pathComponents (charsOf seps ++ cs) = pathComponents cs := by
  induction seps with
  | nil => rfl
  | cons sep seps ih =>
    have hsep : toChar sep = vlNativePathSeparator := by
      rw [hseps sep List.mem_cons_self, toChar_nativeSeparator]
    have hcons : pathComponents ([] ++ vlNativePathSeparator :: (charsOf seps ++ cs)) =
        pathComponents [] ++ pathComponents (charsOf seps ++ cs) := pathComponents_append_cons
    rw [List.nil_append, pathComponents_nil, List.nil_append,
      ih fun x hx => hseps x (List.mem_cons_of_mem _ hx)] at hcons
    rw [← hcons, ← hsep]
    rfl

theorem pathComponents_token (hne : token ≠ []) (hnot : VlArena.nativeSeparator ∉ token) :
    pathComponents (charsOf token) = [charsOf token] :=
  pathComponents_eq_singleton (fun hnil => hne (List.map_eq_nil_iff.mp hnil)) (not_mem_charsOf hnot)

/-- **The first token is the first component.** -/
theorem pathComponents_cons_token (hseps : ∀ x ∈ seps, x = VlArena.nativeSeparator) (hne : token ≠ [])
    (hnot : VlArena.nativeSeparator ∉ token) :
    pathComponents (charsOf (seps ++ token ++ VlArena.nativeSeparator :: rest)) =
      charsOf token :: pathComponents (charsOf rest) := by
  have hcons : charsOf (VlArena.nativeSeparator :: rest) = vlNativePathSeparator :: charsOf rest :=
    congrArg (· :: charsOf rest) toChar_nativeSeparator
  rw [List.append_assoc, charsOf_append, charsOf_append, hcons, pathComponents_seps hseps,
    pathComponents_append_cons, pathComponents_token hne hnot]
  rfl

end Components

section Scan

variable {arena arena' : VlArena} {live tr : List Block} {temp components result : Block}
  {done extra str : List UInt8} {tokens : List (ℕ × List UInt8)} {c : Prop}

/-- **The second pass** takes the rest of the path apart, and folds its components. -/
theorem vlFSPathSplit_follows (htemp : temp ∈ tr) (hmem : components ∈ tr) {fuel : ℕ} (hstr : 0 ∉ str)
    (hfuel : str.length < fuel)
    (h : arena'.Splits arena live temp components result done (str ++ 0 :: extra) tokens)
    (hroom : 8 * (done.length + str.length + 1) + 8 ≤ components.size)
    (hfew : ∀ n, (((pathComponents (charsOf str)).take n).foldl foldComponent
      (tokenNames tokens)).length < 2 ^ 31) :
    ownBlocks.Follows c tr (do
        let (component, save, arena) ←
          arena'.strtok (temp.offset + 8 + done.length) VlArena.nativeSeparator
        VlArena.vlFSPathSplit (components.offset + 8) fuel component save tokens.length arena)
      fun r tr' => tr' = tr ∧ ∃ done' rest' tokens', r.1 = tokens'.length ∧
        r.2.Splits arena live temp components result done' rest' tokens' ∧
        done'.length ≤ done.length + str.length + 1 ∧
        tokenNames tokens' = (pathComponents (charsOf str)).foldl foldComponent (tokenNames tokens) := by
  induction fuel generalizing arena' done str tokens with
  | zero => exact absurd hfuel (Nat.not_lt_zero _)
  | succ fuel ih =>
    obtain ⟨stale, hfills⟩ := h.fills
    have hload : arena'.data.loadString (temp.offset + 8 + done.length) = .ok str := by
      have hwhole := hfills
      rw [← List.append_assoc] at hwhole
      exact hwhole.loadString_part (List.mem_cons_of_mem _ List.mem_cons_self) hstr
    -- a token with its terminator is done
    have htoken : ∀ (arena₁ : VlArena) (seps token rest : List UInt8), 0 ∉ token →
        done.length + seps.length + token.length ≤ done.length + str.length →
        (foldComponent (tokenNames tokens) (charsOf token)).length < 2 ^ 31 →
        (∃ stale, arena₁.Fills arena live [(components, pointers tokens ++ stale),
          (temp, done ++ seps ++ token ++ [0] ++ rest), (result, [])]) →
        ownBlocks.Follows c tr (arena₁.vlFSPathFold (components.offset + 8) tokens.length
          (temp.offset + 8 + done.length + seps.length)) fun r tr' => tr' = tr ∧ ∃ tokens',
            r.1 = tokens'.length ∧ r.2.Splits arena live temp components result
              (done ++ seps ++ token ++ [0]) rest tokens' ∧
            tokenNames tokens' = foldComponent (tokenNames tokens) (charsOf token) := by
      intro arena₁ seps token rest hnul hle hcount hfills₁
      have hroom' := h.room
      have hcountRoom := length_le_tokenRoom tokens
      have hlength : (done ++ seps ++ token ++ [0]).length =
          done.length + seps.length + token.length + 1 := by
        simp only [List.length_append, List.length_singleton]
      have hsplits : arena₁.Splits arena live temp components result (done ++ seps ++ token ++ [0]) rest
          tokens := by
        refine ⟨hfills₁, fun token' htoken' => ?_, by omega⟩
        rw [List.append_assoc, List.append_assoc]
        exact (h.isToken token' htoken').append
      have hisToken : IsToken (temp.offset + 8) (done ++ seps ++ token ++ [0])
          (temp.offset + 8 + done.length + seps.length, token) := by
        refine ⟨hnul, done ++ seps, [], rfl, ?_⟩
        rw [List.length_append, ← Nat.add_assoc]
      exact vlFSPathFold_follows hsplits hisToken (by dsimp only; omega) (by omega) hmem hcount
    rcases exists_token VlArena.nativeSeparator str with
      hnone | ⟨seps, token, hseps, hne, hnot, rfl | ⟨rest, rfl⟩⟩
    · obtain ⟨save, htok⟩ := strtok_none hload hnone
      have hnil := pathComponents_seps hnone []
      rw [List.append_nil, pathComponents_nil] at hnil
      rw [htok, Traced.pure_bind, hnil]
      exact .pure ⟨rfl, done, str ++ 0 :: extra, tokens, rfl, h, by omega, rfl⟩
    · rw [List.mem_append, not_or] at hstr
      rw [List.length_append] at hfuel hroom htoken ⊢
      have hnames : pathComponents (charsOf (seps ++ token)) = [charsOf token] := by
        rw [charsOf_append, pathComponents_seps hseps, pathComponents_token hne hnot]
      rw [hnames] at hfew ⊢
      rw [strtok_last hload hseps hne hnot, Traced.pure_bind]
      dsimp only
      rw [VlArena.vlFSPathSplit]
      refine (htoken arena' seps token extra hstr.2 (by omega) (hfew 1) ⟨stale, ?_⟩).bind ?_
      · simpa only [List.append_assoc, List.singleton_append] using hfills
      rintro ⟨count, arena₁⟩ _ ⟨rfl, tokens', rfl, hsplits, htokens⟩
      -- behind the last token there is none
      obtain ⟨stale', hfills'⟩ := hsplits.fills
      have hend : arena₁.data.loadString
          (temp.offset + 8 + done.length + seps.length + token.length) = .ok [] := by
        have hwhole : (temp, done ++ seps ++ token ++ [] ++ 0 :: extra) ∈
            [(components, pointers tokens' ++ stale'), (temp, done ++ seps ++ token ++ [0] ++ extra),
              (result, [])] := by
          rw [List.append_nil, List.append_assoc _ [0], List.singleton_append]
          exact List.mem_cons_of_mem _ List.mem_cons_self
        have hpart := hfills'.loadString_part hwhole List.not_mem_nil
        simpa only [List.length_append, ← Nat.add_assoc] using hpart
      have hnone : ∀ x ∈ ([] : List UInt8), x = VlArena.nativeSeparator := fun _ hx =>
        absurd hx List.not_mem_nil
      obtain ⟨save, htok⟩ := strtok_none hend hnone
      dsimp only
      rw [htok, Traced.pure_bind]
      dsimp only
      have hdone : VlArena.vlFSPathSplit (components.offset + 8) fuel none save tokens'.length arena₁ =
          Pure.pure (tokens'.length, arena₁) := by
        cases fuel <;> rfl
      rw [hdone]
      refine .pure ⟨rfl, _, _, tokens', rfl, hsplits, ?_, htokens⟩
      simp only [List.length_append, List.length_singleton]
      omega
    · simp only [List.mem_append, List.mem_cons, not_or] at hstr
      simp only [List.length_append, List.length_cons] at hfuel hroom htoken ⊢
      rw [pathComponents_cons_token hseps hne hnot] at hfew ⊢
      -- the delimiter becomes a terminator
      have hput : ownBlocks.Follows c tr (do
          let arena ← arena'.put (temp.offset + 8 + done.length + seps.length + token.length) [0]
          return (some (temp.offset + 8 + done.length + seps.length),
            temp.offset + 8 + done.length + seps.length + token.length + 1, arena)) fun r tr' =>
          tr' = tr ∧ r.1 = some (temp.offset + 8 + done.length + seps.length) ∧
            r.2.1 = temp.offset + 8 + (done ++ seps ++ token ++ [0]).length ∧
            r.2.2.Fills arena live [(temp, done ++ seps ++ token ++ [0] ++ (rest ++ 0 :: extra)),
              (components, pointers tokens ++ stale), (result, [])] := by
        have hwhole : arena'.Fills arena live
            [(temp, done ++ seps ++ token ++ [VlArena.nativeSeparator] ++ (rest ++ 0 :: extra)),
              (components, pointers tokens ++ stale), (result, [])] := by
          have hswap := hfills.perm (List.Perm.swap _ _ _)
          simpa only [List.append_assoc, List.cons_append, List.nil_append] using hswap
        have hreplace := hwhole.replace_follows (c := c) htemp
          (show [(0 : UInt8)].length = [VlArena.nativeSeparator].length from rfl)
        simp only [List.length_append, ← Nat.add_assoc] at hreplace
        refine hreplace.bind ?_
        rintro a _ ⟨rfl, ha⟩
        refine .pure ⟨rfl, rfl, ?_, ha⟩
        simp only [List.length_append, List.length_singleton]
        omega
      rw [strtok_token hload hseps hne hnot]
      refine hput.bind ?_
      rintro ⟨-, -, arena₁⟩ _ ⟨rfl, rfl, rfl, hfills₁⟩
      dsimp only
      rw [VlArena.vlFSPathSplit]
      refine (htoken arena₁ seps token (rest ++ 0 :: extra) hstr.1.2 (by omega) (hfew 1)
        ⟨stale, hfills₁.perm (List.Perm.swap _ _ _)⟩).bind ?_
      rintro ⟨count, arena₂⟩ _ ⟨rfl, tokens', rfl, hsplits, htokens⟩
      dsimp only
      have hlength : (done ++ seps ++ token ++ [0]).length =
          done.length + seps.length + token.length + 1 := by
        simp only [List.length_append, List.length_singleton]
      have hnext := ih hstr.2.2 (by omega) hsplits (by omega)
        fun n => by rw [htokens]; exact hfew (n + 1)
      rw [htokens] at hnext
      refine hnext.mono ?_
      rintro r _ ⟨rfl, done', rest', tokens'', hcount, hsplits', hle, hnames⟩
      exact ⟨rfl, done', rest', tokens'', hcount, hsplits', by omega, hnames⟩

end Scan

/-! ### Building the result -/

/-- What is built of tokens, if `i` are there already. -/
def builtPath : ℕ → List (ℕ × List UInt8) → List UInt8
  | _, [] => []
  | i, token :: tokens =>
    (if i > 0 then [VlArena.nativeSeparator] else []) ++ token.2 ++ builtPath (i + 1) tokens

section Build

variable {arena arena' : VlArena} {live tr : List Block} {b temp components result : Block}
  {content stale out done rest : List UInt8} {seen tokens : List (ℕ × List UInt8)} {c : Prop} {i : ℕ}

theorem length_builtPath_succ : (builtPath (i + 1) tokens).length = tokenRoom tokens := by
  induction tokens generalizing i with
  | nil => rfl
  | cons token tokens ih =>
    rw [builtPath, if_pos (Nat.succ_pos i), List.length_append, List.length_append, ih, tokenRoom_cons,
      List.length_singleton]
    omega

theorem length_builtPath : (builtPath 0 tokens).length = tokenRoom tokens - 1 := by
  cases tokens with
  | nil => rfl
  | cons token tokens =>
    rw [builtPath, if_neg (lt_irrefl 0), List.nil_append, List.length_append, length_builtPath_succ,
      tokenRoom_cons]
    omega

theorem charsOf_builtPath_succ : charsOf (builtPath (i + 1) tokens) =
    (tokenNames tokens).flatMap fun name => vlNativePathSeparator :: name := by
  induction tokens generalizing i with
  | nil => rfl
  | cons token tokens ih =>
    rw [builtPath, if_pos (Nat.succ_pos i), charsOf_append, charsOf_append, ih, tokenNames_cons,
      List.flatMap_cons, ← toChar_nativeSeparator]
    rfl

theorem intercalate_cons_eq {sep name : List Char} {names : List (List Char)} :
    sep.intercalate (name :: names) = name ++ names.flatMap (sep ++ ·) := by
  induction names generalizing name with
  | nil => rw [List.intercalate_singleton, List.flatMap_nil, List.append_nil]
  | cons next names ih =>
    rw [List.intercalate_cons_cons, ih, List.flatMap_cons, List.append_assoc, List.append_assoc]

theorem charsOf_builtPath :
    charsOf (builtPath 0 tokens) = [vlNativePathSeparator].intercalate (tokenNames tokens) := by
  cases tokens with
  | nil => rfl
  | cons token tokens =>
    rw [builtPath, if_neg (lt_irrefl 0), List.nil_append, charsOf_append, charsOf_builtPath_succ,
      tokenNames_cons, intercalate_cons_eq]
    rfl

/-- **The third pass** puts the tokens together again. -/
theorem vlFSPathBuild_follows (hmem : result ∈ tr)
    (h : arena'.Fills arena live
      [(result, out), (temp, content), (components, pointers (seen ++ tokens) ++ stale)])
    (htokens : ∀ token ∈ tokens, IsToken (temp.offset + 8) content token)
    (hroom : 8 + (out.length + (builtPath seen.length tokens).length) ≤ result.size) :
    ownBlocks.Follows c tr (VlArena.vlFSPathBuild (components.offset + 8) (result.offset + 8)
        tokens.length seen.length out.length arena') fun r tr' =>
      tr' = tr ∧ r.1 = (out ++ builtPath seen.length tokens).length ∧
        r.2.Fills arena live [(result, out ++ builtPath seen.length tokens), (temp, content),
          (components, pointers (seen ++ tokens) ++ stale)] := by
  induction tokens generalizing arena' out seen with
  | nil =>
    refine .pure ⟨rfl, ?_, ?_⟩
    · rw [builtPath, List.append_nil]
    · rwa [builtPath, List.append_nil]
  | cons token tokens ih =>
    obtain ⟨hnul, pre, post, hcontent, hpos⟩ := htokens token List.mem_cons_self
    rw [builtPath] at hroom ⊢
    simp only [List.length_append] at hroom
    rw [List.length_cons, VlArena.vlFSPathBuild]
    refine (h.putIf_follows hmem (seen.length > 0) VlArena.nativeSeparator fun hseen => ?_).bind ?_
    · rw [if_pos hseen, List.length_singleton] at hroom
      omega
    rintro ⟨writePos, arena₁⟩ _ ⟨rfl, rfl, hfills⟩
    dsimp only
    have hwhole := hfills
    rw [hcontent] at hwhole
    obtain ⟨-, hpart⟩ := hwhole.part (List.mem_cons_of_mem _ List.mem_cons_self)
    have hbound := hfills.inv.bound
    have hpointer : arena₁.data.loadNumber (components.offset + 8 + 8 * seen.length) 8 = .ok token.1 := by
      have hpointers : pointers (seen ++ token :: tokens) ++ stale =
          pointers seen ++ natToLE 8 token.1 ++ (pointers tokens ++ stale) := by
        simp only [pointers, List.flatMap_append, List.flatMap_cons, List.append_assoc]
      have hstored := hfills
      rw [hpointers] at hstored
      rw [← length_pointers]
      exact hstored.loadNumber_part
        (List.mem_cons_of_mem _ (List.mem_cons_of_mem _ List.mem_cons_self)) (by omega)
    have hload : arena₁.data.loadString token.1 = .ok token.2 := by
      rw [hpos]
      exact hwhole.loadString_part (List.mem_cons_of_mem _ List.mem_cons_self) hnul
    rw [hpointer, Traced.lift_ok_bind, hload, Traced.lift_ok_bind]
    have hroom' : 8 + ((out ++ if seen.length > 0 then [VlArena.nativeSeparator] else []).length +
        token.2.length) ≤ result.size := by
      rw [List.length_append]
      omega
    refine (hfills.append_follows hmem token.2 hroom').bind ?_
    rintro arena₂ _ ⟨rfl, hfills₂⟩
    have hseen : seen ++ token :: tokens = seen ++ [token] ++ tokens := by
      rw [List.append_assoc, List.singleton_append]
    rw [hseen] at hfills₂ ⊢
    have hlength : (seen ++ [token]).length = seen.length + 1 := by
      rw [List.length_append, List.length_singleton]
    have hnext := ih hfills₂ (fun token' htoken' => htokens token' (List.mem_cons_of_mem _ htoken'))
      (by rw [hlength]; simp only [List.length_append]; omega)
    rw [hlength] at hnext
    rw [← List.length_append]
    simp only [List.append_assoc] at hnext ⊢
    exact hnext

/-- **The end of the function** leaves the path that is built of the tokens, and no other own block. -/
theorem vlFSPathRebuild_follows (hmem : result ∈ tr)
    (h : arena'.Splits arena (b :: live) temp components result done rest tokens)
    (hfirst : 9 ≤ b.size) (hroom : 9 + tokenRoom tokens ≤ result.size) (hmin : 10 ≤ result.size) :
    ownBlocks.Follows c tr (arena'.vlFSPathRebuild (b.offset + 8) (temp.offset + 8) (result.offset + 8)
        (components.offset + 8) tokens.length) fun r _ =>
      r.1 = result.offset + 8 ∧ ∃ str, charsOf str =
        rebuildPath (toChar (arena.data.bytes (b.offset + 8)) = vlNativePathSeparator) (tokenNames tokens) ∧
        r.2.Fills arena live [(result, str ++ [0])] := by
  obtain ⟨stale, hfills⟩ := h.fills
  set first := arena.data.bytes (b.offset + 8) with hfirstEq
  have hload : ∀ {a : VlArena} {own : List (Block × List UInt8)}, a.Fills arena (b :: live) own →
      a.data.loadByte (b.offset + 8) = .ok first := fun ha =>
    ha.loadByte List.mem_cons_self (by omega) (by rw [Block.stop]; omega)
  have hnative : first = VlArena.nativeSeparator ↔ toChar first = vlNativePathSeparator := by
    rw [← toChar_nativeSeparator, toChar_injective.eq_iff]
  have hrotate : arena'.Fills arena (b :: live)
      [(result, []), (temp, done ++ rest), (components, pointers tokens ++ stale)] :=
    hfills.perm (List.reverse_perm _).symm
  have hlength : (builtPath 0 tokens).length = tokenRoom tokens - 1 := length_builtPath
  rw [VlArena.vlFSPathRebuild, hload hrotate, Traced.lift_ok_bind]
  refine (hrotate.putIf_follows hmem (first = VlArena.nativeSeparator) VlArena.nativeSeparator
    fun _ => by rw [List.length_nil]; omega).bind ?_
  rintro ⟨writePos, arena₁⟩ _ ⟨rfl, rfl, hfills₁⟩
  rw [List.nil_append] at hfills₁
  dsimp only
  set root := if first = VlArena.nativeSeparator then [VlArena.nativeSeparator] else [] with hroot
  have hrootLength : root.length ≤ 1 := by
    rw [hroot]
    split_ifs
    · exact le_rfl
    · exact Nat.zero_le _
  have hbuild : arena₁.Fills arena (b :: live)
      [(result, root), (temp, done ++ rest), (components, pointers ([] ++ tokens) ++ stale)] := hfills₁
  refine (vlFSPathBuild_follows hmem hbuild (fun token htoken => (h.isToken token htoken).append)
    (by rw [List.length_nil]; omega)).bind ?_
  rintro ⟨writePos, arena₂⟩ _ ⟨rfl, rfl, hfills₂⟩
  dsimp only
  rw [hload hfills₂, Traced.lift_ok_bind]
  rw [List.length_nil, List.nil_append] at hfills₂
  set built := root ++ builtPath 0 tokens with hbuilt
  have hbuiltLength : built.length ≤ tokenRoom tokens ∨ built.length ≤ 1 := by
    rw [hbuilt, List.length_append]
    omega
  -- a path of nothing becomes a dot
  refine (hfills₂.putIf_follows hmem (built.length = 0 ∧ first ≠ VlArena.nativeSeparator) (toByte '.')
    fun hnone => by omega).bind ?_
  rintro ⟨writePos, arena₃⟩ _ ⟨rfl, rfl, hfills₃⟩
  dsimp only
  set str := built ++ if built.length = 0 ∧ first ≠ VlArena.nativeSeparator then [toByte '.'] else []
    with hstrEq
  have hfit : 8 + (str.length + [(0 : UInt8)].length) ≤ result.size := by
    rw [hstrEq, List.length_append, List.length_singleton]
    split_ifs with hnone
    · rw [List.length_singleton]
      omega
    · rw [List.length_nil]
      omega
  have hstr : charsOf str =
      rebuildPath (toChar first = vlNativePathSeparator) (tokenNames tokens) := by
    have hchars : charsOf built = charsOf root ++ [vlNativePathSeparator].intercalate (tokenNames tokens) := by
      rw [hbuilt, charsOf_append, charsOf_builtPath]
    rw [hstrEq, charsOf_append, hchars]
    by_cases habs : first = VlArena.nativeSeparator
    · rw [hroot, if_pos habs, if_neg fun h => h.2 habs, decide_eq_true (hnative.mp habs),
        rebuildPath_absolute, ← toChar_nativeSeparator]
      exact List.append_nil _
    · have hroot' : charsOf root = [] := by
        rw [hroot, if_neg habs]
        rfl
      rw [hroot', List.nil_append] at hchars
      rw [hroot', decide_eq_false (mt hnative.mpr habs), rebuildPath]
      by_cases hnil : built = []
      · rw [hnil] at hchars ⊢
        rw [← hchars]
        rw [if_pos ⟨rfl, habs⟩]
        decide
      · have hne : [vlNativePathSeparator].intercalate (tokenNames tokens) ≠ [] := by
          rw [← hchars]
          exact fun h => hnil (List.map_eq_nil_iff.mp h)
        rw [if_neg fun h => hnil (List.length_eq_zero_iff.mp h.1)]
        exact (List.append_nil _).trans (if_neg fun h => hne h.1).symm
  refine (hfills₃.append_follows hmem [0] hfit).bind ?_
  rintro arena₄ _ ⟨rfl, hfills₄⟩
  refine (hfills₄.perm (List.Perm.swap _ _ _)).free_follows.bind ?_
  rintro arena₅ _ hfills₅
  refine (hfills₅.perm (List.Perm.swap _ _ _)).free_follows.bind ?_
  rintro arena₆ _ hfills₆
  refine hfills₆.freeLive_follows.bind ?_
  rintro arena₇ _ hfills₇
  exact .pure ⟨rfl, str, hstr, hfills₇⟩

end Build

end VeritableLasagna
