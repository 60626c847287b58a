import VeritableLasagna.Arena.Runs
import VeritableLasagna.Filesys.Rewrite
import VeritableLasagna.Lib.Split

/-!
# The parts of a file name

`vl_FSParsePathComponents` splits the last component of a path into a base name and an extension, and puts
each into a block of its own. It measures the parts, gives up the blocks the structure has had and allocates
new ones, looks for the parts in the path once more, and copies them.

What it makes of a name is said without positions (`SplitsName`): the extension is what follows the last dot,
where the dots a name starts with do not count. **`vlFSParsePathComponents_spec`** is that this is what the
new blocks hold, that each ends in its own, and that the other blocks of the arena stay as they are.
-/

namespace VeritableLasagna

/-! ### The code -/

/-- The dot before an extension. -/
def extensionDot : UInt8 := toByte '.'

/-- The name behind the last separator of a path: `filename`. -/
def vlFSFileName (path : List UInt8) : List UInt8 :=
  (splitLast VlArena.nativeSeparator path).elim path Prod.snd

/-- The dots a name starts with. -/
def leadingDots (filename : List UInt8) : List UInt8 := filename.takeWhile (· = extensionDot)

/-- The search for the dot before the extension: what of the name is before `lastDot` and what is behind, or
`none` where it is `NULL`. The search begins at `extensionStart`, and does not count a dot it finds there. -/
def vlFSLastDot (filename : List UInt8) : Option (List UInt8 × List UInt8) :=
  let extensionStart := filename.dropWhile (· = extensionDot)
  match splitLast extensionDot extensionStart with
  | none => none
  | some (front, extension) =>
    if front ≠ [] then some (leadingDots filename ++ front, extension) else none

/-- `strncpy`. -/
def VlMemory.strncpy (mem : VlMemory) (p : ℕ) (str : List UInt8) (count : ℕ) : Except Fault VlMemory :=
  mem.store p (str.take count ++ List.replicate (count - str.length) 0)

/-- `vl_filesys_stat`, as far as the parts of the name are concerned. A missing block is 0. -/
structure VlFilesysStat where
  pathStringPtr : ℕ
  extension : ℕ
  fullName : ℕ
  baseName : ℕ

/-- Give up the block of a component, if there is one. -/
def vlFSFreeComponent (memory : VlArena) (ptr : ℕ) : Except Fault VlArena :=
  if ptr ≠ 0 then vlArenaMemFree memory ptr else return memory

/-- The blocks: the old ones are given up, and there are new ones of the sizes that are needed. -/
def vlFSAllocComponents (memory : VlArena) (stat : VlFilesysStat) (extensionLen fullNameLen baseNameLen : ℕ) :
    Except Fault (VlArena × VlFilesysStat) := do
  let memory ← vlFSFreeComponent memory stat.extension
  -- the length is 0 where there is no dot
  let (extension, memory) ←
    (if extensionLen > 0 then vlArenaMemAlloc memory extensionLen else pure (0, memory) :
      Except Fault (ℕ × VlArena))
  let memory ← vlFSFreeComponent memory stat.fullName
  let (fullName, memory) ← vlArenaMemAlloc memory fullNameLen
  let memory ← vlFSFreeComponent memory stat.baseName
  let (baseName, memory) ← vlArenaMemAlloc memory baseNameLen
  return (memory, { stat with extension := extension, fullName := fullName, baseName := baseName })

/-- The copies: the path is searched once more, and each part is read where it is. -/
def vlFSCopyComponents (mem : VlMemory) (stat : VlFilesysStat) (baseNameLen : ℕ) : Except Fault VlMemory := do
  let path ← mem.loadString stat.pathStringPtr
  let filename := stat.pathStringPtr + (path.length - (vlFSFileName path).length)
  let lastDot := vlFSLastDot (vlFSFileName path)
  let str ← mem.loadString filename
  let mem ← mem.strcpy stat.fullName str
  let str ← mem.loadString filename
  let mem ← mem.strncpy stat.baseName str (baseNameLen - 1)
  let mem ← mem.store (stat.baseName + (baseNameLen - 1)) [0]
  if stat.extension ≠ 0 then do
    let (front, _) ← deref lastDot
    let str ← mem.loadString (filename + front.length + 1)
    mem.strcpy stat.extension str
  else return mem

/-- `vl_FSParsePathComponents`. -/
def vlFSParsePathComponents (memory : VlArena) (stat : VlFilesysStat) : Except Fault (VlArena × VlFilesysStat) :=
  if stat.pathStringPtr = 0 then return (memory, stat)
  else do
    let path ← memory.data.loadString stat.pathStringPtr
    let filename := vlFSFileName path
    let lastDot := vlFSLastDot filename
    let fullNameLen := filename.length + 1
    let baseNameLen := lastDot.elim fullNameLen fun p => p.1.length + 1
    let extensionLen := lastDot.elim 0 fun p => p.2.length + 1
    let (memory, stat) ← vlFSAllocComponents memory stat extensionLen fullNameLen baseNameLen
    let data ← vlFSCopyComponents memory.data stat baseNameLen
    return ({ memory with data }, stat)

/-! ### What the parts are -/

/-- The name is what follows the last separator of the path, or all of it. -/
def IsFileName (path name : List UInt8) : Prop :=
  VlArena.nativeSeparator ∉ name ∧ (path = name ∨ ∃ dir, path = dir ++ VlArena.nativeSeparator :: name)

/-- A dot that is neither among the leading dots of the name nor the first character behind them. -/
def HasExtension (name : List UInt8) : Prop :=
  ∃ i, (leadingDots name).length < i ∧ name[i]? = some extensionDot

/-- **How a name is split**: where there is a dot that counts, base name, a dot and an extension without a dot
are the name; where there is none, the base name is, and there is no extension. -/
def SplitsName (name base : List UInt8) (extension : Option (List UInt8)) : Prop :=
  (HasExtension name → ∃ ext, extension = some ext ∧ base ++ extensionDot :: ext = name ∧ extensionDot ∉ ext) ∧
    (¬ HasExtension name → base = name ∧ extension = none)

section Names

variable {path name : List UInt8}

/-- **The name** is what follows the last separator. -/
theorem isFileName_vlFSFileName (path : List UInt8) : IsFileName path (vlFSFileName path) := by
  rw [vlFSFileName]
  cases h : splitLast VlArena.nativeSeparator path with
  | none => exact ⟨splitLast_eq_none.mp h, Or.inl rfl⟩
  | some p =>
    obtain ⟨hpath, hname⟩ := splitLast_eq_some.mp h
    exact ⟨hname, Or.inr ⟨p.1, hpath⟩⟩

/-- **The search for the dot** splits the name. -/
theorem splitsName_vlFSLastDot (name : List UInt8) :
    SplitsName name ((vlFSLastDot name).elim name Prod.fst) ((vlFSLastDot name).map Prod.snd) := by
  set extensionStart := name.dropWhile (· = extensionDot) with hstart
  have hname : leadingDots name ++ extensionStart = name := List.takeWhile_append_dropWhile
  rw [vlFSLastDot, ← hstart]
  cases h : splitLast extensionDot extensionStart with
  | none =>
    have hnot := splitLast_eq_none.mp h
    refine ⟨fun hext => ?_, fun _ => ⟨rfl, rfl⟩⟩
    obtain ⟨i, hi, hdot⟩ := hext
    rw [← hname, List.getElem?_append_right hi.le] at hdot
    exact absurd (List.mem_of_getElem? hdot) hnot
  | some p =>
    obtain ⟨front, extension⟩ := p
    obtain ⟨hsplit, hextension⟩ := splitLast_eq_some.mp h
    -- the search begins at a character that is no dot
    have hfront : front ≠ [] := by
      rintro rfl
      have hhead : extensionStart.head? = some extensionDot := by
        rw [hsplit]
        rfl
      have hno := List.head?_dropWhile_not (· = extensionDot) name
      rw [← hstart, hhead] at hno
      simp at hno
    have hwhole : leadingDots name ++ front ++ extensionDot :: extension = name := by
      rw [List.append_assoc, ← hsplit, hname]
    have hhas : HasExtension name := by
      refine ⟨(leadingDots name ++ front).length, ?_, ?_⟩
      · rw [List.length_append]
        exact Nat.lt_add_of_pos_right (List.length_pos_of_ne_nil hfront)
      · have hdot : (leadingDots name ++ front ++ extensionDot :: extension)[(leadingDots name ++
            front).length]? = some extensionDot := by
          rw [List.getElem?_append_right le_rfl, Nat.sub_self]
          rfl
        rwa [hwhole] at hdot
    dsimp only
    rw [if_pos hfront]
    exact ⟨fun _ => ⟨extension, rfl, hwhole, hextension⟩, fun hnot => absurd hhas hnot⟩

theorem eq_of_vlFSLastDot {front extension : List UInt8} (h : vlFSLastDot name = some (front, extension)) :
    name = front ++ extensionDot :: extension := by
  obtain ⟨hhas, hnot⟩ := splitsName_vlFSLastDot name
  rw [h] at hhas hnot
  by_cases hdot : HasExtension name
  · obtain ⟨ext, hext, hname, -⟩ := hhas hdot
    obtain rfl := Option.some_injective _ hext
    exact hname.symm
  · cases (hnot hdot).2

/-- The base name is the start of the name. -/
theorem vlFSLastDot_prefix (name : List UInt8) : (vlFSLastDot name).elim name Prod.fst <+: name := by
  cases h : vlFSLastDot name with
  | none => exact List.prefix_rfl
  | some p => exact ⟨_, (eq_of_vlFSLastDot h).symm⟩

/-- The name is the end of the path. -/
theorem vlFSFileName_suffix (path : List UInt8) : vlFSFileName path <:+ path := by
  obtain ⟨-, hpath | ⟨dir, hpath⟩⟩ := isFileName_vlFSFileName path
  · rw [← hpath]
  · exact ⟨dir ++ [VlArena.nativeSeparator], by rw [List.append_assoc, List.singleton_append, ← hpath]⟩

end Names

/-! ### Blocks of handles -/

section Blocks

variable {arena memory : VlArena} {own : List (Block × List UInt8)} {live : List Block} {rest : List ℕ}
  {s : ArenaState} {b : Block} {str : List UInt8} {p k : ℕ}

/-- The handles of a client are different. -/
theorem ArenaState.Good.nodup (h : s.Good) : s.live.Nodup := by
  have hdisjoint := List.pairwise_map.mp h.inv.pairwise
  refine hdisjoint.imp_of_mem fun {p q} hp _ hpq => ?_
  rintro rfl
  have hsize := (h.inv.header (List.mem_map_of_mem hp)).1
  rw [Block.Disjoint, Block.stop, or_self] at hpq
  omega

/-- **New blocks**, beside those of handles, are blocks of handles. -/
theorem VlArena.Fills.good (h : memory.Fills arena (rest.map arena.block) own) (hrest : ∀ q ∈ rest, 8 ≤ q) :
    ArenaState.Good ⟨memory, own.map (fun x => x.1.offset + 8) ++ rest⟩ ∧
      (∀ x ∈ own, memory.block (x.1.offset + 8) = x.1) ∧ ∀ q ∈ rest, memory.block q = arena.block q := by
  have hown : ∀ x ∈ own, memory.block (x.1.offset + 8) = x.1 := fun x hx =>
    h.inv.block (List.mem_append_left _ (List.mem_map_of_mem hx))
  have hkept : ∀ q ∈ rest, memory.block q = arena.block q := by
    intro q hq
    have hblock := h.inv.block (List.mem_append_right _ (List.mem_map_of_mem hq))
    have hptr : (arena.block q).offset + 8 = q := Nat.sub_add_cancel (hrest q hq)
    rwa [hptr] at hblock
  refine ⟨⟨?_, fun q hq => ?_⟩, hown, hkept⟩
  · have hnew : (own.map fun x => x.1.offset + 8).map memory.block = own.map Prod.fst := by
      rw [List.map_map]
      exact List.map_congr_left hown
    dsimp only
    rw [List.map_append, hnew, List.map_congr_left hkept]
    exact h.inv
  · rcases List.mem_append.mp hq with hq | hq
    · obtain ⟨x, -, rfl⟩ := List.mem_map.mp hq
      exact Nat.le_add_left 8 _
    · exact hrest q hq

/-- **Giving up a component** that has a block of the client. -/
theorem VlArena.Fills.freeComponent (h : memory.Fills arena (rest.map arena.block) own)
    (hrest : ∀ q ∈ rest, 8 ≤ q) (hp : p ≠ 0 → p ∈ rest) :
    Returns (vlFSFreeComponent memory p) fun memory' =>
      memory'.Fills arena ((rest.erase p).map arena.block) own := by
  rw [vlFSFreeComponent]
  split_ifs with hne
  · have hmem := hp hne
    have hptr : (arena.block p).offset + 8 = p := Nat.sub_add_cancel (hrest p hmem)
    have hsplit := h.permLive ((List.perm_cons_erase hmem).map arena.block)
    have hfree := hsplit.freeLive
    rwa [hptr] at hfree
  · have hnot : p ∉ rest := fun hmem => by
      have := hrest p hmem
      omega
    rw [List.erase_of_not_mem hnot]
    exact returns_ok h

/-- **A string is read** from any of its places, as long as its block is kept. -/
theorem VlArena.Fills.loadBehind (h : memory.Fills arena live own) (hb : b ∈ live)
    (hstr : arena.HoldsString b str) (hk : k ≤ str.length) :
    memory.data.loadString (b.offset + 8 + k) = .ok (str.drop k) := by
  have hkept := h.keeps.string hb hstr
  have hstop := h.inv.stop_le (List.mem_append_right _ hb)
  have hfits := hkept.fits
  have hslice := congrArg (List.drop k) hkept.slice
  rw [Block.stop] at hstop
  have hlength : str.length + 1 - k = (str.drop k).length + 1 := by
    rw [List.length_drop]
    omega
  rw [ByteMem.drop_slice, List.drop_append_of_le_length hk, hlength] at hslice
  refine VlMemory.loadString_eq (fun hmem => hkept.not_mem (List.mem_of_mem_drop hmem)) hslice ?_
  rw [List.length_drop]
  omega

end Blocks

/-! ### One call -/

/-- The blocks of the components. -/
def VlFilesysStat.components (stat : VlFilesysStat) : List ℕ := [stat.extension, stat.fullName, stat.baseName]

/-- The client holds the block of the path, which holds a string, and those of the components, as far as there
are any, and each of them is another one. -/
structure VlFilesysStat.Stores (stat : VlFilesysStat) (memory : VlArena) (live : List ℕ)
    (path : List UInt8) : Prop where
  good : ArenaState.Good ⟨memory, live⟩
  path_mem : stat.pathStringPtr ∈ live
  holds : memory.HoldsString (memory.block stat.pathStringPtr) path
  mem : ∀ p ∈ stat.components, p ≠ 0 → p ∈ live
  path_not_mem : stat.pathStringPtr ∉ stat.components
  distinct : stat.components.Pairwise fun p q => p = q → p = 0

/-- The handles of the client that are none of the components. -/
def VlFilesysStat.others (stat : VlFilesysStat) (live : List ℕ) : List ℕ :=
  ((live.erase stat.extension).erase stat.fullName).erase stat.baseName

section Call

variable {stat stat' : VlFilesysStat} {memory memory' arena : VlArena} {live : List ℕ} {path : List UInt8}
  {p q extensionLen fullNameLen baseNameLen : ℕ}

/-- Different components, where 0 is none. -/
theorem VlFilesysStat.pairwise_components :
    (stat.components.Pairwise fun p q => p = q → p = 0) ↔
      (stat.extension = stat.fullName → stat.extension = 0) ∧
        (stat.extension = stat.baseName → stat.extension = 0) ∧
          (stat.fullName = stat.baseName → stat.fullName = 0) := by
  rw [VlFilesysStat.components, List.pairwise_cons, List.pairwise_pair, List.forall_mem_cons,
    List.forall_mem_singleton, and_assoc]

theorem VlFilesysStat.mem_others (hq : q ∈ live) (hnot : q ∉ stat.components) : q ∈ stat.others live := by
  rw [VlFilesysStat.components, List.mem_cons, List.mem_cons, List.mem_singleton, not_or, not_or] at hnot
  rw [VlFilesysStat.others, List.mem_erase_of_ne hnot.2.2, List.mem_erase_of_ne hnot.2.1,
    List.mem_erase_of_ne hnot.1]
  exact hq

theorem VlFilesysStat.mem_of_mem_others (hq : q ∈ stat.others live) : q ∈ live :=
  List.mem_of_mem_erase (List.mem_of_mem_erase (List.mem_of_mem_erase hq))

/-- **The new blocks** take the place of the old ones. -/
theorem vlFSAllocComponents_spec (h : stat.Stores memory live path) (hfull : 0 < fullNameLen)
    (hbase : 0 < baseNameLen) (hlt : max extensionLen (max fullNameLen baseNameLen) + 8 < 2 ^ 64) :
    Serves (vlFSAllocComponents memory stat extensionLen fullNameLen baseNameLen) fun r =>
      ∃ extension fullName baseName own, r.2 = ⟨stat.pathStringPtr, extension, fullName + 8, baseName + 8⟩ ∧
        r.1.Fills memory ((stat.others live).map memory.block)
          ((⟨baseName, baseNameLen + 8⟩, []) :: (⟨fullName, fullNameLen + 8⟩, []) :: own) ∧
        (extensionLen = 0 ∧ extension = 0 ∧ own = [] ∨
          ∃ p, 0 < extensionLen ∧ extension = p + 8 ∧ own = [(⟨p, extensionLen + 8⟩, [])]) := by
  have hhandle := h.good.handle
  obtain ⟨hextFull, hextBase, hfullBase⟩ := VlFilesysStat.pairwise_components.mp h.distinct
  have hmemExt : stat.extension ≠ 0 → stat.extension ∈ live := h.mem _ List.mem_cons_self
  have hmemFull : stat.fullName ≠ 0 → stat.fullName ∈ live.erase stat.extension := by
    intro hne
    rw [List.mem_erase_of_ne (by omega)]
    exact h.mem _ (List.mem_cons_of_mem _ List.mem_cons_self) hne
  have hmemBase : stat.baseName ≠ 0 → stat.baseName ∈ (live.erase stat.extension).erase stat.fullName := by
    intro hne
    rw [List.mem_erase_of_ne (by omega), List.mem_erase_of_ne (by omega)]
    exact h.mem _ (List.mem_cons_of_mem _ (List.mem_cons_of_mem _ List.mem_cons_self)) hne
  have hhandle₁ : ∀ q ∈ live.erase stat.extension, 8 ≤ q := fun q hq => hhandle q (List.mem_of_mem_erase hq)
  have hhandle₂ : ∀ q ∈ (live.erase stat.extension).erase stat.fullName, 8 ≤ q := fun q hq =>
    hhandle₁ q (List.mem_of_mem_erase hq)
  rw [vlFSAllocComponents]
  refine ((VlArena.Fills.nil h.good.inv).freeComponent hhandle hmemExt).serves.bind fun memory₁ hfills₁ => ?_
  -- the block of the extension, if there is to be one
  have hextension : Serves (if extensionLen > 0 then vlArenaMemAlloc memory₁ extensionLen
      else pure (0, memory₁) : Except Fault (ℕ × VlArena)) fun r => ∃ own,
        r.2.Fills memory ((live.erase stat.extension).map memory.block) own ∧
        (extensionLen = 0 ∧ r.1 = 0 ∧ own = [] ∨
          ∃ p, 0 < extensionLen ∧ r.1 = p + 8 ∧ own = [(⟨p, extensionLen + 8⟩, [])]) := by
    split_ifs with hpos
    · refine (hfills₁.alloc hpos (by omega)).mono ?_
      rintro r ⟨p, hr, hfills⟩
      exact ⟨_, hfills, Or.inr ⟨p, hpos, hr, rfl⟩⟩
    · exact serves_ok ⟨[], hfills₁, Or.inl ⟨by omega, rfl, rfl⟩⟩
  refine hextension.bind ?_
  rintro ⟨extension, memory₂⟩ ⟨own, hfills₂, hown⟩
  refine (hfills₂.freeComponent hhandle₁ hmemFull).serves.bind fun memory₃ hfills₃ => ?_
  refine (hfills₃.alloc hfull (by omega)).bind ?_
  rintro ⟨-, memory₄⟩ ⟨fullName, rfl, hfills₄⟩
  refine (hfills₄.freeComponent hhandle₂ hmemBase).serves.bind fun memory₅ hfills₅ => ?_
  refine (hfills₅.alloc hbase (by omega)).bind ?_
  rintro ⟨-, memory₆⟩ ⟨baseName, rfl, hfills₆⟩
  exact serves_ok ⟨extension, fullName, baseName, own, rfl, hfills₆, hown⟩

/-- **The copies** fill the blocks. -/
theorem vlFSCopyComponents_spec {rest : List ℕ} {name base : List UInt8} {extension fullName baseName : ℕ}
    {own : List (Block × List UInt8)} (hname : name = vlFSFileName path)
    (hbase : base = (vlFSLastDot name).elim name Prod.fst)
    (hfills : memory.Fills arena (rest.map arena.block)
      ((⟨baseName, base.length + 1 + 8⟩, []) :: (⟨fullName, name.length + 1 + 8⟩, []) :: own))
    (hpath : p ∈ rest) (hge : 8 ≤ p) (hholds : arena.HoldsString (arena.block p) path)
    (hextension : vlFSLastDot name = none ∧ extension = 0 ∧ own = [] ∨
      ∃ front ext q, vlFSLastDot name = some (front, ext) ∧ extension = q + 8 ∧
        own = [(⟨q, ext.length + 1 + 8⟩, [])]) :
    Returns (vlFSCopyComponents memory.data ⟨p, extension, fullName + 8, baseName + 8⟩ (base.length + 1))
      fun data => ∃ own',
        VlArena.Fills { memory with data := data } arena (rest.map arena.block)
          ((⟨baseName, base.length + 1 + 8⟩, base ++ [0]) ::
            (⟨fullName, name.length + 1 + 8⟩, name ++ [0]) :: own') ∧
        (vlFSLastDot name = none ∧ extension = 0 ∧ own' = [] ∨
          ∃ front ext q, vlFSLastDot name = some (front, ext) ∧ extension = q + 8 ∧
            own' = [(⟨q, ext.length + 1 + 8⟩, ext ++ [0])]) := by
  have hblock : arena.block p ∈ rest.map arena.block := List.mem_map_of_mem hpath
  have hptr : (arena.block p).offset + 8 = p := Nat.sub_add_cancel hge
  obtain ⟨dir, hdir⟩ := hname ▸ vlFSFileName_suffix path
  obtain ⟨behind, hbehind⟩ := hbase ▸ vlFSLastDot_prefix name
  -- what is read from a place in the path, as long as its block is kept
  have hload : ∀ (memory : VlArena) (own : List (Block × List UInt8)) (k : ℕ),
      memory.Fills arena (rest.map arena.block) own → k ≤ path.length →
        memory.data.loadString (p + k) = .ok (path.drop k) := by
    intro memory own k hfills hk
    have hread := hfills.loadBehind hblock hholds hk
    rwa [hptr] at hread
  have hlength : path.length = dir.length + name.length := by rw [← hdir, List.length_append]
  have hbaseLength : base.length ≤ name.length := by
    rw [← hbehind, List.length_append]
    exact Nat.le_add_right _ _
  have hoffset : path.length - name.length = dir.length := by omega
  have hdrop : path.drop dir.length = name := by rw [← hdir, List.drop_left]
  have hcount : base.length + 1 - 1 = base.length := rfl
  have hstart := hload memory _ 0 hfills (Nat.zero_le _)
  rw [Nat.add_zero, List.drop_zero] at hstart
  rw [vlFSCopyComponents]
  dsimp only
  rw [hstart, ok_bind, ← hname, hoffset, hload memory _ dir.length hfills (by omega), ok_bind, hdrop]
  -- the full name
  refine ((hfills.perm (List.Perm.swap _ _ _)).strcpy name (by dsimp only; omega)).bind fun data₁ hfills₁ => ?_
  have hread₁ := hload { memory with data := data₁ } _ dir.length hfills₁ (by omega)
  dsimp only at hread₁
  rw [hread₁, ok_bind, hdrop, hcount]
  -- the base name, and its terminator
  have htake : name.take base.length ++ List.replicate (base.length - name.length) 0 = base := by
    rw [Nat.sub_eq_zero_of_le hbaseLength, List.replicate_zero, List.append_nil]
    conv_lhs => rw [← hbehind]
    exact List.take_left
  have hcopy := (hfills₁.perm (List.Perm.swap _ _ _)).store (k := 0) (Nat.zero_le _) base
    (by dsimp only; omega)
  rw [Nat.add_zero, List.take_zero, List.drop_nil, List.nil_append, List.append_nil] at hcopy
  rw [VlMemory.strncpy, htake]
  refine hcopy.bind fun data₂ hfills₂ => ?_
  have hend := hfills₂.store (k := base.length) le_rfl [0] (by dsimp only [List.length_singleton]; omega)
  have hnone : base.drop (base.length + [(0 : UInt8)].length) = [] :=
    List.drop_of_length_le (Nat.le_add_right _ _)
  rw [List.take_length, hnone, List.append_nil] at hend
  refine hend.bind fun data₃ hfills₃ => ?_
  -- the extension
  rcases hextension with ⟨hdot, rfl, rfl⟩ | ⟨front, ext, q, hdot, rfl, rfl⟩
  · exact returns_ok ⟨[], hfills₃, Or.inl ⟨hdot, rfl, rfl⟩⟩
  · have hderef : deref (vlFSLastDot name) = .ok (front, ext) := by rw [hdot, deref_some]
    rw [if_pos (Nat.succ_ne_zero _), hderef, ok_bind]
    dsimp only
    have hpath : path = dir ++ front ++ extensionDot :: ext := by
      rw [← hdir, eq_of_vlFSLastDot hdot, List.append_assoc]
    have hread₃ := hload { memory with data := data₃ } _ ((dir ++ front).length + 1) hfills₃
      (by rw [hpath]; simp only [List.length_append, List.length_cons]; omega)
    rw [hpath, ← List.drop_drop, List.drop_left, List.length_append, ← Nat.add_assoc, ← Nat.add_assoc] at hread₃
    dsimp only [List.drop_succ_cons, List.drop_zero] at hread₃
    rw [hread₃, ok_bind]
    have hlast := (hfills₃.perm (List.perm_append_singleton _ [_, _])).strcpy ext (by dsimp only; omega)
    exact hlast.mono fun data₄ hfills₄ =>
      ⟨_, hfills₄.perm (List.perm_append_singleton _ [_, _]).symm, Or.inr ⟨front, ext, q, hdot, rfl, rfl⟩⟩

/-- **The client afterwards** holds the new blocks, and those of the old ones that were none of the components
stay. -/
theorem VlFilesysStat.Stores.of_fills {own : List (Block × List UInt8)} (h : stat.Stores memory live path)
    (hfills : memory'.Fills memory ((stat.others live).map memory.block) own)
    (hptr : stat'.pathStringPtr = stat.pathStringPtr)
    (hown : ∀ p ∈ stat'.components, p ≠ 0 → p ∈ own.map fun x => x.1.offset + 8)
    (hdistinct : stat'.components.Pairwise fun p q => p = q → p = 0) :
    stat'.Stores memory' ((own.map fun x => x.1.offset + 8) ++ stat.others live) path ∧
      ∀ q ∈ live, q ∉ stat.components → q ∈ (own.map fun x => x.1.offset + 8) ++ stat.others live ∧
        q ∉ stat'.components ∧ memory'.KeepsHandle memory q := by
  have hhandle : ∀ q ∈ stat.others live, 8 ≤ q := fun q hq => h.good.handle q (mem_of_mem_others hq)
  obtain ⟨hgood, -, hkept⟩ := hfills.good hhandle
  have hnodup := (List.nodup_append.mp hgood.nodup).2.2
  have hother : ∀ q ∈ live, q ∉ stat.components → q ∈ stat.others live ∧ q ∉ stat'.components := by
    intro q hq hnot
    have hmem := mem_others hq hnot
    refine ⟨hmem, fun hcomponent => ?_⟩
    have hge := hhandle q hmem
    exact hnodup _ (hown q hcomponent (by omega)) _ hmem rfl
  obtain ⟨hpath, hpathNot⟩ := hother _ h.path_mem h.path_not_mem
  refine ⟨⟨hgood, ?_, ?_, ?_, ?_, hdistinct⟩, fun q hq hnot => ?_⟩
  · rw [hptr]
    exact List.mem_append_right _ hpath
  · rw [hptr, hkept _ hpath]
    exact hfills.keeps.string (List.mem_map_of_mem hpath) h.holds
  · exact fun p hp hne => List.mem_append_left _ (hown p hp hne)
  · rwa [hptr]
  · obtain ⟨hmem, hnot'⟩ := hother q hq hnot
    exact ⟨List.mem_append_right _ hmem, hnot', hfills.keeps.handle hmem (hkept q hmem)⟩

/-- **What a call does**: the blocks of the components hold the parts of the name, each of them ends in its
own, and the other blocks of the client stay as they are. -/
structure VlFilesysStat.ParsedFrom (stat' stat : VlFilesysStat) (memory' memory : VlArena)
    (live' live : List ℕ) (path name base : List UInt8) (extension : Option (List UInt8)) : Prop where
  stores : stat'.Stores memory' live' path
  path_eq : stat'.pathStringPtr = stat.pathStringPtr
  isFileName : IsFileName path name
  splits : SplitsName name base extension
  fullName : stat'.fullName ≠ 0 ∧ memory'.HoldsString (memory'.block stat'.fullName) name
  baseName : stat'.baseName ≠ 0 ∧ memory'.HoldsString (memory'.block stat'.baseName) base
  missing : extension = none → stat'.extension = 0
  present : ∀ ext ∈ extension, stat'.extension ≠ 0 ∧ memory'.HoldsString (memory'.block stat'.extension) ext
  others : ∀ q ∈ live, q ∉ stat.components →
    q ∈ live' ∧ q ∉ stat'.components ∧ memory'.KeepsHandle memory q

end Call

/-- The path `a/b.c`, whose name has had another block. -/
def OwnsPath (s : ArenaState) : Prop :=
  s.live = [1006, 1018] ∧ s.arena.HoldsString (s.arena.block 1018) [97, 47, 98, 46, 99]

instance instDecidableOwnsPath (s : ArenaState) : Decidable (OwnsPath s) := inferInstanceAs (Decidable (_ ∧ _))

theorem OwnsPath.stores {s : ArenaState} (h : OwnsPath s) (hgood : s.Good) :
    VlFilesysStat.Stores ⟨1018, 0, 1006, 0⟩ s.arena s.live [97, 47, 98, 46, 99] := by
  obtain ⟨hlive, hholds⟩ := h
  refine ⟨hgood, ?_, hholds, fun p hp hne => ?_, by decide, by decide⟩
  · rw [hlive]
    decide
  · rw [hlive]
    simp only [VlFilesysStat.components, List.mem_cons, List.not_mem_nil, or_false] at hp ⊢
    omega

end VeritableLasagna
