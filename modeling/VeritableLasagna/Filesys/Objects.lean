import VeritableLasagna.Arena.Runs
import VeritableLasagna.Filesys.Rewrite

/-!
# Path objects

A path object has its string in a block of the arena, or none. `vlFSPathJoin` and `vlFSPathParent` build a
string in a new block, from that of another object, and then give up the string the object has had.

As long as every object has a block of its own (`VlFilesys.Valid`), the strings are those that the functions
on characters compute (`vlFSPathJoin_updates`, `vlFSPathParent_updates`), and all other objects keep theirs. That
the two undo each other (`vlFSPathParent_vlFSPathJoin`) is a fact about characters then.

* All objects belong to one file system, and are given by numbers. `VL_ARENA_NULL` is 0.
* A component is a string of the caller's, outside of the arena.
-/

namespace VeritableLasagna

/-! ### The functions -/

/-- `vl_filesys`, as far as paths are concerned: the memory, and `pathStringPtr` of every object. -/
structure VlFilesys where
  memory : VlArena
  pathStringPtr : ℕ → ℕ

namespace VlFilesys

open VlArena

variable (sys : VlFilesys)

/-- The file system with another memory, and another string of an object. -/
def setPath (path : ℕ) (memory : VlArena) (ptr : ℕ) : VlFilesys :=
  ⟨memory, Function.update sys.pathStringPtr path ptr⟩

/-- Give up the string of an object, if it has one. -/
def freePath (path : ℕ) (memory : VlArena) : Except Fault VlArena :=
  if sys.pathStringPtr path ≠ 0 then vlArenaMemFree memory (sys.pathStringPtr path) else return memory

/-- `vlFSPathString`. -/
def vlFSPathString (path : ℕ) : Option ℕ :=
  if sys.pathStringPtr path = 0 then none else some (sys.pathStringPtr path)

/-- `vlFSPathClone`, into an object that is there. -/
def vlFSPathClone (src dest : ℕ) : Except Fault VlFilesys :=
  if sys.pathStringPtr src = 0 then do
    let memory ← sys.freePath dest sys.memory
    return sys.setPath dest memory 0
  else do
    let srcLen ← vlArenaMemSize sys.memory (sys.pathStringPtr src)
    let memory ← sys.freePath dest sys.memory
    let (ptr, memory) ← vlArenaMemAlloc memory srcLen
    let sys := sys.setPath dest memory ptr
    let srcPathString ← sys.memory.data.loadString (sys.pathStringPtr src)
    let data ← sys.memory.data.strcpy (sys.pathStringPtr dest) srcPathString
    return { sys with memory := { sys.memory with data } }

/-- `vlFSPathSet`. -/
def vlFSPathSet (path : ℕ) (pathStr : List UInt8) : Except Fault VlFilesys :=
  if pathStr = [] then do
    let memory ← sys.freePath path sys.memory
    return sys.setPath path memory 0
  else do
    let pathStrLen := pathStr.length + 1
    let (ptr, memory) ←
      if sys.pathStringPtr path = 0 then vlArenaMemAlloc sys.memory pathStrLen
      else vlArenaMemRealloc sys.memory (sys.pathStringPtr path) pathStrLen
    let data ← memory.data.strcpy ptr pathStr
    let (ptr, memory) ← (VlArena.vlFSPathNormalize { memory with data } ptr).result
    return sys.setPath path memory ptr

/-- The end of `vlFSPathJoin`: the base path, a separator if it is separated, and the rest of the component go
into a new block. -/
def setJoined (dest basePtr totalSize : ℕ) (separated : Prop) [Decidable separated] (rest : List UInt8) :
    Except Fault VlFilesys := do
  let (destStrPtr, memory) ← vlArenaMemAlloc sys.memory totalSize
  let baseStr ← memory.data.loadString basePtr
  let data ← memory.data.strcpy destStrPtr baseStr
  let data ← (if separated then data.store (destStrPtr + baseStr.length) [nativeSeparator, 0]
    else return data : Except Fault VlMemory)
  let data ← data.strcat destStrPtr rest
  let memory ← sys.freePath dest { memory with data }
  return sys.setPath dest memory destStrPtr

/-- `vlFSPathJoin`. The base path, or the component, may be `NULL`. -/
def vlFSPathJoin (base : Option ℕ) (dest : ℕ) (component : Option (List UInt8)) :
    Except Fault VlFilesys :=
  match component with
  | none => do
    let base ← deref base
    sys.vlFSPathClone base dest
  | some component => do
    let basePtr := (base.map sys.pathStringPtr).getD 0
    if basePtr = 0 then sys.vlFSPathSet dest component
    else do
      let baseStr ← sys.memory.data.loadString basePtr
      let hasEndingSeparator := baseStr.getLast? = some nativeSeparator
      let hasStartingSeparator := component.head? = some nativeSeparator
      let totalSize := baseStr.length + component.length + 1
      let totalSize :=
        if ¬ hasEndingSeparator ∧ ¬ hasStartingSeparator then totalSize + 1 else totalSize
      let totalSize := if hasEndingSeparator ∧ hasStartingSeparator then totalSize - 1 else totalSize
      sys.setJoined dest basePtr (totalSize % 2 ^ 64) (¬ hasEndingSeparator ∧ ¬ hasStartingSeparator)
        (if hasEndingSeparator ∧ hasStartingSeparator then component.tail else component)

/-- The end of `vlFSPathParent`: a parent of `parentLen` bytes, which are read once there is a block for
them. -/
def setParent (parentOut parentLen : ℕ) (parentStr : VlMemory → Except Fault (List UInt8)) :
    Except Fault VlFilesys := do
  let (parentStrPtr, memory) ← vlArenaMemAlloc sys.memory (parentLen + 1)
  let bytes ← parentStr memory.data
  let data ← memory.data.store parentStrPtr (bytes ++ [0])
  let memory ← sys.freePath parentOut { memory with data }
  return sys.setPath parentOut memory parentStrPtr

/-- `vlFSPathParent`. The last character of an empty path is read out of bounds. -/
def vlFSPathParent (path parentOut : ℕ) : Except Fault VlFilesys :=
  if sys.pathStringPtr path = 0 then return sys
  else do
    let pathStr ← sys.memory.data.loadString (sys.pathStringPtr path)
    let pathLen := pathStr.length
    if pathLen = 1 ∧ pathStr[0]? = some nativeSeparator then sys.vlFSPathClone path parentOut
    else if pathLen = 0 then .error .outOfBounds
    else do
      let lastSepPos := vlFSPathSkipBack (charsOf pathStr) true (pathLen - 1)
      let lastSepPos := vlFSPathSkipBack (charsOf pathStr) false lastSepPos
      if lastSepPos = 0 then
        if pathStr[0]? = some nativeSeparator then sys.setParent parentOut 1 fun _ => .ok [nativeSeparator]
        else sys.setParent parentOut 1 fun _ => .ok [toByte '.']
      else
        let parentLen := if pathStr[0]? = some nativeSeparator ∧ lastSepPos = 1 then 1 else lastSepPos
        sys.setParent parentOut parentLen (·.load (sys.pathStringPtr path) parentLen)

end VlFilesys

/-! ### Objects with blocks of their own -/

/-- The client holds the blocks of all objects: no two have the same, and each holds a string. -/
structure VlFilesys.Stores (sys : VlFilesys) (live : List ℕ) : Prop where
  good : ArenaState.Good ⟨sys.memory, live⟩
  mem : ∀ i, sys.pathStringPtr i ≠ 0 → sys.pathStringPtr i ∈ live
  eq_of_eq : ∀ i j, sys.pathStringPtr i ≠ 0 → sys.pathStringPtr i = sys.pathStringPtr j → i = j
  holds : ∀ i, sys.pathStringPtr i ≠ 0 →
    ∃ str, sys.memory.HoldsString (sys.memory.block (sys.pathStringPtr i)) str

/-- **Every object has a block of its own**, or none, in an arena that is in order. -/
def VlFilesys.Valid (sys : VlFilesys) : Prop := ∃ live, sys.Stores live

/-- The string that `vlFSPathString` shows of an object. -/
def VlFilesys.Shows (sys : VlFilesys) (path : ℕ) (str : List UInt8) : Prop :=
  ∃ p, sys.vlFSPathString path = some p ∧ sys.memory.data.loadString p = .ok str

/-- The object is as it was: its block is where it was, and holds what it held. -/
def VlFilesys.KeepsPath (sys' sys : VlFilesys) (path : ℕ) : Prop :=
  sys'.pathStringPtr path = sys.pathStringPtr path ∧
    (sys.pathStringPtr path ≠ 0 → sys'.memory.KeepsHandle sys.memory (sys.pathStringPtr path))

theorem VlFilesys.KeepsPath.trans {sys sys' sys'' : VlFilesys} {path : ℕ} (h' : sys''.KeepsPath sys' path)
    (h : sys'.KeepsPath sys path) : sys''.KeepsPath sys path := by
  obtain ⟨hptr', hkeeps'⟩ := h'
  obtain ⟨hptr, hkeeps⟩ := h
  rw [hptr] at hptr' hkeeps'
  refine ⟨hptr', fun hne => ?_⟩
  obtain ⟨hblock', hbytes'⟩ := hkeeps' hne
  obtain ⟨hblock, hbytes⟩ := hkeeps hne
  rw [hblock] at hblock' hbytes'
  exact ⟨hblock', hbytes'.trans hbytes⟩

/-- **The object shows the string now**, and the others are as they were. -/
structure VlFilesys.Updates (sys' sys : VlFilesys) (path : ℕ) (str : List UInt8) : Prop where
  valid : sys'.Valid
  shows : sys'.Shows path str
  keeps : ∀ i, i ≠ path → sys'.KeepsPath sys i

section Stores

variable {sys sys' : VlFilesys} {live rest : List ℕ} {memory : VlArena} {path i p n : ℕ}
  {str component : List UInt8} {own : List (Block × List UInt8)}

theorem VlFilesys.Shows.ne_zero (h : sys.Shows i str) : sys.pathStringPtr i ≠ 0 := by
  obtain ⟨p, hp, -⟩ := h
  intro hzero
  rw [VlFilesys.vlFSPathString, if_pos hzero] at hp
  cases hp

theorem VlFilesys.Shows.load (h : sys.Shows i str) :
    sys.memory.data.loadString (sys.pathStringPtr i) = .ok str := by
  obtain ⟨p, hp, hload⟩ := id h
  rw [VlFilesys.vlFSPathString, if_neg h.ne_zero] at hp
  rwa [Option.some_injective _ hp]

/-- What an object shows is what its block holds. -/
theorem VlFilesys.Stores.shows_iff (h : sys.Stores live) : sys.Shows i str ↔
    sys.pathStringPtr i ≠ 0 ∧ sys.memory.HoldsString (sys.memory.block (sys.pathStringPtr i)) str := by
  have hload : ∀ {str}, sys.pathStringPtr i ≠ 0 →
      sys.memory.HoldsString (sys.memory.block (sys.pathStringPtr i)) str →
      sys.memory.data.loadString (sys.pathStringPtr i) = .ok str := by
    intro str hne hstr
    have hmem := h.mem i hne
    have hptr : (sys.memory.block (sys.pathStringPtr i)).offset + 8 = sys.pathStringPtr i :=
      Nat.sub_add_cancel (h.good.handle _ hmem)
    have hstring := hstr.load h.good.inv (List.mem_map_of_mem hmem)
    rwa [hptr] at hstring
  constructor
  · intro hshows
    obtain ⟨str', hstr'⟩ := h.holds i hshows.ne_zero
    obtain rfl := Except.ok.inj (hshows.load.symm.trans (hload hshows.ne_zero hstr'))
    exact ⟨hshows.ne_zero, hstr'⟩
  · rintro ⟨hne, hstr⟩
    exact ⟨_, if_neg hne, hload hne hstr⟩

/-- **An object that is as it was** shows what it showed. -/
theorem VlFilesys.KeepsPath.shows (h : sys'.KeepsPath sys i) (hvalid : sys.Valid) (hvalid' : sys'.Valid)
    (hstr : sys.Shows i str) : sys'.Shows i str := by
  obtain ⟨live, hstores⟩ := hvalid
  obtain ⟨live', hstores'⟩ := hvalid'
  obtain ⟨hne, hholds⟩ := hstores.shows_iff.mp hstr
  obtain ⟨hptr, hkeeps⟩ := h
  obtain ⟨hblock, hbytes⟩ := hkeeps hne
  have hkept : sys'.memory.Keeps sys.memory [sys.memory.block (sys.pathStringPtr i)] := by
    intro b hb
    rw [List.mem_singleton.mp hb]
    exact hbytes
  refine hstores'.shows_iff.mpr ?_
  rw [hptr, hblock]
  exact ⟨hne, hkept.string List.mem_cons_self hholds⟩

/-- **Giving up the string of an object** leaves the blocks of the others. -/
theorem VlFilesys.Stores.freePath (h : sys.Stores live)
    (hfills : memory.Fills sys.memory (live.map sys.memory.block) own) (path : ℕ) :
    Returns (sys.freePath path memory) fun memory' => ∃ rest : List ℕ, (∀ q ∈ rest, q ∈ live) ∧
      (∀ i, i ≠ path → sys.pathStringPtr i ≠ 0 → sys.pathStringPtr i ∈ rest) ∧
      memory'.Fills sys.memory (rest.map sys.memory.block) own := by
  rw [VlFilesys.freePath]
  split_ifs with hnone
  · have hmem := h.mem path hnone
    have hsplit := hfills.permLive ((List.perm_cons_erase hmem).map sys.memory.block)
    have hptr : (sys.memory.block (sys.pathStringPtr path)).offset + 8 = sys.pathStringPtr path :=
      Nat.sub_add_cancel (h.good.handle _ hmem)
    have hfree := hsplit.freeLive
    rw [hptr] at hfree
    refine hfree.mono fun memory' hfills' => ⟨_, fun q hq => List.mem_of_mem_erase hq, ?_, hfills'⟩
    intro i hi hne
    have hother : sys.pathStringPtr i ≠ sys.pathStringPtr path := fun heq => hi (h.eq_of_eq i path hne heq)
    exact (List.mem_erase_of_ne hother).mpr (h.mem i hne)
  · exact returns_ok ⟨live, fun q hq => hq, fun i _ hne => h.mem i hne, hfills⟩

/-- **An object with a new block**, the others as they were. -/
theorem VlFilesys.Stores.setPath (h : sys.Stores live) (hlive : ∀ q ∈ rest, q ∈ live)
    (hrest : ∀ i, i ≠ path → sys.pathStringPtr i ≠ 0 → sys.pathStringPtr i ∈ rest)
    (hfills : memory.Fills sys.memory (rest.map sys.memory.block) [(⟨p, n⟩, str ++ [0])])
    (hstr : 0 ∉ str) : (sys.setPath path memory (p + 8)).Updates sys path str := by
  have hinv : memory.Inv (⟨p + 8 - 8, n⟩ :: rest.map sys.memory.block) := hfills.inv
  have hhandle : ∀ q ∈ rest, 8 ≤ q := fun q hq => h.good.handle q (hlive q hq)
  obtain ⟨hgood, hhead, hblock⟩ := hinv.good (Nat.le_add_left 8 p) hhandle
  have hself : (sys.setPath path memory (p + 8)).pathStringPtr path = p + 8 := Function.update_self ..
  have hother : ∀ i, i ≠ path →
      (sys.setPath path memory (p + 8)).pathStringPtr i = sys.pathStringPtr i := fun i hi =>
    Function.update_of_ne hi ..
  -- the block is none of those that were there
  have hnew : p + 8 ∉ rest := by
    intro hmem
    have hdisjoint := (List.pairwise_cons.mp hinv.pairwise).1 _ (List.mem_map_of_mem hmem)
    rw [← hblock _ hmem, hhead] at hdisjoint
    have hsize := (hinv.header List.mem_cons_self).1
    simp only [Block.Disjoint, Block.stop, or_self] at hdisjoint hsize
    omega
  have hkeeps : ∀ i, i ≠ path → (sys.setPath path memory (p + 8)).KeepsPath sys i := fun i hi =>
    ⟨hother i hi, fun hne => hfills.keeps.handle (hrest i hi hne) (hblock _ (hrest i hi hne))⟩
  have hholds : memory.HoldsString (memory.block (p + 8)) str := by
    rw [hhead, Nat.add_sub_cancel]
    exact hfills.string List.mem_cons_self hstr
  have hstores : (sys.setPath path memory (p + 8)).Stores ((p + 8) :: rest) := by
    refine ⟨hgood, fun i hne => ?_, fun i j hne heq => ?_, fun i hne => ?_⟩
    · by_cases hi : i = path
      · rw [hi, hself]
        exact List.mem_cons_self
      · rw [hother i hi] at hne ⊢
        exact List.mem_cons_of_mem _ (hrest i hi hne)
    · by_cases hi : i = path <;> by_cases hj : j = path
      · rw [hi, hj]
      · rw [hi, hself, hother j hj] at heq
        have hne' : sys.pathStringPtr j ≠ 0 := by omega
        exact absurd (heq ▸ hrest j hj hne') hnew
      · rw [hj, hself, hother i hi] at heq
        rw [hother i hi] at hne
        exact absurd (heq ▸ hrest i hi hne) hnew
      · rw [hother i hi, hother j hj] at heq
        rw [hother i hi] at hne
        exact h.eq_of_eq i j hne heq
    · by_cases hi : i = path
      · rw [hi, hself]
        exact ⟨str, hholds⟩
      · rw [hother i hi] at hne ⊢
        obtain ⟨str', hstr'⟩ := h.holds i hne
        have hmem := hrest i hi hne
        have hstring := hfills.keeps.string (List.mem_map_of_mem hmem) hstr'
        rw [← hblock _ hmem] at hstring
        exact ⟨str', hstring⟩
  refine ⟨⟨_, hstores⟩, hstores.shows_iff.mpr ?_, hkeeps⟩
  rw [hself]
  exact ⟨Nat.succ_ne_zero _, hholds⟩

/-- **The string of an object is replaced** by one in a new block. -/
theorem VlFilesys.Stores.replace (h : sys.Stores live)
    (hfills : memory.Fills sys.memory (live.map sys.memory.block) [(⟨p, n⟩, str ++ [0])])
    (hstr : 0 ∉ str) (path : ℕ) : Returns (do
        let memory ← sys.freePath path memory
        return sys.setPath path memory (p + 8)) (VlFilesys.Updates · sys path str) := by
  refine (h.freePath hfills path).bind fun memory' hrest => ?_
  obtain ⟨rest, hlive, hrest, hfills'⟩ := hrest
  exact returns_ok (h.setPath hlive hrest hfills' hstr)

/-- What an object shows can be read as long as its block is kept. -/
theorem VlFilesys.Stores.load (h : sys.Stores live) (hmem : sys.pathStringPtr i ∈ rest)
    (hfills : memory.Fills sys.memory (rest.map sys.memory.block) own) (hshows : sys.Shows i str) :
    memory.data.loadString (sys.pathStringPtr i) = .ok str ∧
      ∀ k ≤ str.length, memory.data.load (sys.pathStringPtr i) k = .ok (str.take k) := by
  obtain ⟨hne, hstr⟩ := h.shows_iff.mp hshows
  have hptr : (sys.memory.block (sys.pathStringPtr i)).offset + 8 = sys.pathStringPtr i :=
    Nat.sub_add_cancel (h.good.handle _ (h.mem i hne))
  have hblock : sys.memory.block (sys.pathStringPtr i) ∈ rest.map sys.memory.block :=
    List.mem_map_of_mem hmem
  have hkept := hfills.keeps.string hblock hstr
  have hstop := hfills.inv.stop_le (List.mem_append_right _ hblock)
  have hfits := hkept.fits
  have hslice := hkept.slice
  rw [Block.stop] at hstop
  rw [hptr] at hslice
  refine ⟨hptr ▸ hkept.load hfills.inv (List.mem_append_right _ hblock), fun k hk => ?_⟩
  have htake := congrArg (List.take k) hslice
  rw [ByteMem.take_slice (by omega), List.take_append_of_le_length hk] at htake
  rw [VlMemory.load, if_pos (by omega), htake]

/-! ### One call -/

/-- **`vlFSPathClone`**, into another object. -/
theorem vlFSPathClone_updates (h : sys.Valid) (hshows : sys.Shows i str) (hne : i ≠ path) :
    Serves (sys.vlFSPathClone i path) (VlFilesys.Updates · sys path str) := by
  obtain ⟨live, hstores⟩ := h
  obtain ⟨hnull, hstr⟩ := hstores.shows_iff.mp hshows
  have hblock : sys.memory.block (sys.pathStringPtr i) ∈ live.map sys.memory.block :=
    List.mem_map_of_mem (hstores.mem i hnull)
  have hptr : (sys.memory.block (sys.pathStringPtr i)).offset + 8 = sys.pathStringPtr i :=
    Nat.sub_add_cancel (hstores.good.handle _ (hstores.mem i hnull))
  have hinv := hstores.good.inv
  have hsize := vlArenaMemSize_spec hinv hblock
  have hstop := hinv.stop_le hblock
  have hbound := hinv.bound
  have hfits := hstr.fits
  rw [Block.stop] at hstop
  rw [hptr] at hsize
  rw [VlFilesys.vlFSPathClone, if_neg hnull, hsize, ok_bind]
  refine (hstores.freePath (.nil hinv) path).serves.bind fun memory hrest => ?_
  obtain ⟨rest, hlive, hrest, hfills⟩ := hrest
  refine (hfills.alloc (by omega) (by omega)).bind ?_
  rintro ⟨-, memory₁⟩ ⟨p, rfl, hfills₁⟩
  have hsrc : (sys.setPath path memory₁ (p + 8)).pathStringPtr i = sys.pathStringPtr i :=
    Function.update_of_ne hne ..
  have hself : (sys.setPath path memory₁ (p + 8)).pathStringPtr path = p + 8 := Function.update_self ..
  obtain ⟨hload, -⟩ := hstores.load (hrest i hne hnull) hfills₁ hshows
  dsimp only
  rw [hsrc, hself]
  change Serves (memory₁.data.loadString (sys.pathStringPtr i) >>= _) _
  rw [hload, ok_bind]
  refine (hfills₁.strcpy str (by dsimp only; omega)).serves.bind fun data hfills₂ => ?_
  exact serves_ok (hstores.setPath hlive hrest hfills₂ hstr.not_mem)

/-- **The end of `vlFSPathParent`.** -/
theorem setParent_updates {parentLen : ℕ} {parentStr : VlMemory → Except Fault (List UInt8)}
    (h : sys.Stores live) (hlength : str.length = parentLen) (hstr : 0 ∉ str) (hlt : parentLen + 9 < 2 ^ 64)
    (hread : ∀ memory own, VlArena.Fills memory sys.memory (live.map sys.memory.block) own →
      parentStr memory.data = .ok str) :
    Serves (sys.setParent path parentLen parentStr) (VlFilesys.Updates · sys path str) := by
  have hpos : 0 < parentLen + 1 := Nat.succ_pos _
  rw [VlFilesys.setParent]
  refine ((VlArena.Fills.nil h.good.inv).alloc hpos (by omega)).bind ?_
  rintro ⟨-, memory⟩ ⟨p, rfl, hfills⟩
  dsimp only
  rw [hread _ _ hfills, ok_bind]
  refine (hfills.strcpy str (by dsimp only; omega)).serves.bind fun data hfills₁ => ?_
  exact (h.replace hfills₁ hstr path).serves

theorem getElem?_charsOf {k : ℕ} : (charsOf str)[k]? = some vlNativePathSeparator ↔
    str[k]? = some VlArena.nativeSeparator := by
  rw [charsOf, List.getElem?_map, ← toChar_nativeSeparator]
  exact (Option.map_injective toChar_injective).eq_iff (a := str[k]?) (b := some VlArena.nativeSeparator)

/-- **`vlFSPathParent`** computes the parent of the characters. -/
theorem vlFSPathParent_updates (h : sys.Valid) (hshows : sys.Shows i str) (hne : str ≠ [])
    (hroot : i = path → charsOf str ≠ [vlNativePathSeparator]) :
    Serves (sys.vlFSPathParent i path) fun sys' =>
      ∃ parent, sys'.Updates sys path parent ∧ vlFSPathParent (charsOf str) = .ok (charsOf parent) := by
  obtain ⟨live, hstores⟩ := id h
  obtain ⟨hnull, hstr⟩ := hstores.shows_iff.mp hshows
  have hmem := hstores.mem i hnull
  have hpos := List.length_pos_of_ne_nil hne
  have hlength : (charsOf str).length = str.length := List.length_map _
  have hstop := hstores.good.inv.stop_le (List.mem_map_of_mem hmem)
  have hbound := hstores.good.inv.bound
  have hfits := hstr.fits
  rw [Block.stop] at hstop
  dsimp only at hstop hbound
  rw [VlFilesys.vlFSPathParent, if_neg hnull, hshows.load, ok_bind, vlFSPathParent]
  simp only [hlength, getElem?_charsOf]
  by_cases hone : str.length = 1 ∧ str[0]? = some VlArena.nativeSeparator
  · rw [if_pos hone, if_pos hone]
    have hstrEq : str = [VlArena.nativeSeparator] := by
      obtain ⟨byte, rfl⟩ := List.length_eq_one_iff.mp hone.1
      exact congrArg (fun byte => [byte]) (Option.some_injective _ hone.2)
    have hother : i ≠ path := fun heq => hroot heq (by rw [hstrEq]; decide)
    exact (vlFSPathClone_updates h hshows hother).mono fun sys' hsys' => ⟨str, hsys', rfl⟩
  rw [if_neg hone, if_neg hone, if_neg hpos.ne', if_neg hpos.ne']
  set lastSepPos := vlFSPathSkipBack (charsOf str) false (vlFSPathSkipBack (charsOf str) true (str.length - 1))
    with hlast
  by_cases hzero : lastSepPos = 0
  · rw [if_pos hzero, if_pos hzero]
    split_ifs with hsep
    · have hset : Serves (sys.setParent path 1 fun _ => .ok [VlArena.nativeSeparator])
          (VlFilesys.Updates · sys path [VlArena.nativeSeparator]) :=
        setParent_updates hstores rfl (by decide) (by norm_num) fun _ _ _ => rfl
      exact hset.mono fun sys' hsys' => ⟨_, hsys', rfl⟩
    · have hset : Serves (sys.setParent path 1 fun _ => .ok [toByte '.'])
          (VlFilesys.Updates · sys path [toByte '.']) :=
        setParent_updates hstores rfl (by decide) (by norm_num) fun _ _ _ => rfl
      exact hset.mono fun sys' hsys' => ⟨_, hsys', rfl⟩
  · rw [if_neg hzero, if_neg hzero]
    set parentLen := if str[0]? = some VlArena.nativeSeparator ∧ lastSepPos = 1 then 1 else lastSepPos
    have hle : parentLen ≤ str.length := by
      have hback := (vlFSPathSkipBack_le (charsOf str) false _).trans
        (vlFSPathSkipBack_le (charsOf str) true (str.length - 1))
      have hparent : parentLen = lastSepPos := ite_eq_right_iff.mpr fun h => h.2.symm
      omega
    have hset : Serves (sys.setParent path parentLen (·.load (sys.pathStringPtr i) parentLen))
        (VlFilesys.Updates · sys path (str.take parentLen)) :=
      setParent_updates hstores (List.length_take_of_le hle)
        (fun hnul => hstr.not_mem (List.mem_of_mem_take hnul)) (by omega)
        fun memory own hfills => (hstores.load hmem hfills hshows).2 parentLen hle
    exact hset.mono fun sys' hsys' => ⟨_, hsys', congrArg _ List.map_take.symm⟩

theorem getLast?_charsOf : (charsOf str).getLast? = some vlNativePathSeparator ↔
    str.getLast? = some VlArena.nativeSeparator := by
  rw [List.getLast?_eq_getElem?, List.getLast?_eq_getElem?, getElem?_charsOf, charsOf, List.length_map]

theorem head?_charsOf : (charsOf str).head? = some vlNativePathSeparator ↔
    str.head? = some VlArena.nativeSeparator := by
  rw [List.head?_eq_getElem?, List.head?_eq_getElem?, getElem?_charsOf]

/-- **The end of `vlFSPathJoin`.** -/
theorem setJoined_updates (h : sys.Stores live) (hshows : sys.Shows i str) {totalSize : ℕ} {separated : Prop}
    [Decidable separated] {rest : List UInt8} (hnul : 0 ∉ rest)
    (hsize : totalSize = (str ++ (if separated then [VlArena.nativeSeparator] else []) ++ rest).length + 1)
    (hlt : totalSize + 8 < 2 ^ 64) :
    Serves (sys.setJoined path (sys.pathStringPtr i) totalSize separated rest)
      (VlFilesys.Updates · sys path
        (str ++ (if separated then [VlArena.nativeSeparator] else []) ++ rest)) := by
  obtain ⟨hnull, hstr⟩ := h.shows_iff.mp hshows
  have hmem := h.mem i hnull
  have hpos : 0 < totalSize := hsize ▸ Nat.succ_pos _
  set between := if separated then [VlArena.nativeSeparator] else [] with hbetween
  rw [List.length_append, List.length_append] at hsize
  rw [VlFilesys.setJoined]
  refine ((VlArena.Fills.nil h.good.inv).alloc hpos hlt).bind ?_
  rintro ⟨-, memory⟩ ⟨p, rfl, hfills⟩
  obtain ⟨hload, -⟩ := h.load hmem hfills hshows
  dsimp only
  rw [hload, ok_bind]
  refine (hfills.strcpy str (by dsimp only; omega)).serves.bind fun data hfills₁ => ?_
  have hseparator : Returns (if separated then data.store (p + 8 + str.length) [VlArena.nativeSeparator, 0]
      else return data : Except Fault VlMemory) fun data' => VlArena.Fills { memory with data := data' }
        sys.memory (live.map sys.memory.block) [(⟨p, totalSize + 8⟩, str ++ between ++ [0])] := by
    rw [hbetween] at hsize ⊢
    split_ifs at hsize ⊢ with hseparated
    · have hlength : [VlArena.nativeSeparator, 0].length = 2 := rfl
      have hone : [VlArena.nativeSeparator].length = 1 := rfl
      have hstore := hfills₁.store (k := str.length) (by rw [List.length_append]; omega)
        [VlArena.nativeSeparator, 0] (by dsimp only; omega)
      have hdrop : (str ++ [0]).drop (str.length + 2) = [] :=
        List.drop_of_length_le (by rw [List.length_append]; exact Nat.le_succ _)
      rw [List.take_left, hlength, hdrop, List.append_nil] at hstore
      rw [List.append_assoc]
      exact hstore
    · rw [List.append_nil]
      exact returns_ok hfills₁
  have hbetweenNul : 0 ∉ str ++ between := by
    rw [List.mem_append, not_or, hbetween]
    refine ⟨hstr.not_mem, ?_⟩
    split_ifs
    · decide
    · exact List.not_mem_nil
  refine hseparator.serves.bind fun data₁ hfills₂ => ?_
  refine (hfills₂.strcat hbetweenNul rest
    (by rw [List.length_append]; dsimp only; omega)).serves.bind fun data₂ hfills₃ => ?_
  refine (h.replace hfills₃ ?_ path).serves
  rw [List.mem_append, not_or]
  exact ⟨hbetweenNul, hnul⟩

/-- **`vlFSPathJoin`** joins the characters. -/
theorem vlFSPathJoin_updates (h : sys.Valid) (hshows : sys.Shows i str) (hnul : 0 ∉ component)
    (hlt : component.length + 1 + vlArenaTotalCapacity sys.memory < 2 ^ 64) :
    Serves (sys.vlFSPathJoin (some i) path (some component)) fun sys' =>
      ∃ joined, sys'.Updates sys path joined ∧
        charsOf joined = vlFSPathJoin (charsOf str) (charsOf component) := by
  obtain ⟨live, hstores⟩ := id h
  obtain ⟨hnull, hstr⟩ := hstores.shows_iff.mp hshows
  have hmem := hstores.mem i hnull
  have hstop := hstores.good.inv.stop_le (List.mem_map_of_mem hmem)
  have hfits := hstr.fits
  have hcapacity : vlArenaTotalCapacity sys.memory = sys.memory.data.size := rfl
  rw [Block.stop] at hstop
  dsimp only at hstop
  have hptr : (some i).map sys.pathStringPtr = some (sys.pathStringPtr i) := rfl
  rw [VlFilesys.vlFSPathJoin, vlFSPathJoin]
  dsimp only
  rw [hptr, Option.getD_some, if_neg hnull, hshows.load, ok_bind]
  simp only [getLast?_charsOf, head?_charsOf]
  have hsep : charsOf [VlArena.nativeSeparator] = [vlNativePathSeparator] :=
    congrArg (fun c => [c]) toChar_nativeSeparator
  have hpos : component.head? = some VlArena.nativeSeparator → 0 < component.length := fun hstart =>
    List.length_pos_of_mem (List.mem_of_head? hstart)
  have htail : component.tail.length = component.length - 1 := List.length_tail
  refine (setJoined_updates hstores hshows ?_ ?_ ?_).mono fun sys' hsys' => ⟨_, hsys', ?_⟩
  · split_ifs
    · exact fun hmem => hnul (List.mem_of_mem_tail hmem)
    · exact hnul
  · rw [List.length_append, List.length_append]
    split_ifs with hspare hneed hneed
    · exact absurd hspare.1 hneed.1
    · have hone := hpos hspare.2
      rw [htail, List.length_nil]
      omega
    · rw [List.length_singleton]
      omega
    · rw [List.length_nil]
      omega
  · split_ifs <;> omega
  · rw [charsOf_append, charsOf_append]
    split_ifs with hneed hspare hspare
    · exact absurd hspare.1 hneed.1
    · rw [hsep]
    · rw [charsOf, charsOf, charsOf, charsOf, List.map_nil, List.append_nil, List.map_tail]
    · rw [charsOf, charsOf, charsOf, List.map_nil, List.append_nil]

end Stores

/-! ### Joining and taking the parent -/

section NormalisedPath

variable {path cs ds : List Char}

theorem NormalisedPath.ne_nil (h : NormalisedPath path) : path ≠ [] := by
  rintro rfl
  exact h.parts_ne_nil [] (by decide) rfl

/-- **A normalised path** that ends in a separator is the root. -/
theorem NormalisedPath.eq_nil (h : NormalisedPath (cs ++ [vlNativePathSeparator])) : cs = [] := by
  have hempty : ∀ cs : List Char,
      [] ∈ (cs ++ [vlNativePathSeparator]).splitOnP (· == vlNativePathSeparator) := by
    intro cs
    rw [List.splitOnP_append_cons _ _ (by simp)]
    exact List.mem_append_right _ List.mem_cons_self
  cases cs with
  | nil => rfl
  | cons c cs =>
    refine absurd rfl (h.parts_ne_nil [] ?_)
    have hroot : c :: cs ++ [vlNativePathSeparator] ≠ [vlNativePathSeparator] := by
      intro heq
      have hlength := congrArg List.length heq
      simp at hlength
    rw [pathParts, if_neg hroot]
    split_ifs
    · exact hempty cs
    · exact hempty (c :: cs)

/-- **The parent of a joined path**, character by character. -/
theorem NormalisedPath.parent_join (h : NormalisedPath path) (hds : ds ≠ [])
    (hnot : vlNativePathSeparator ∉ ds) : vlFSPathParent (vlFSPathJoin path ds) = .ok path := by
  obtain ⟨cs, hjoin, hcs⟩ := vlFSPathJoin_eq path hnot
  rw [hjoin, vlFSPathParent_append hds hnot]
  rcases hcs with rfl | rfl
  · rw [if_neg h.ne_nil]
  · rw [h.eq_nil, if_pos rfl]
    rfl

end NormalisedPath

/-- The object 0 has the path `a`, and the object 1 another. -/
def VlFilesys.two (memory : VlArena) : VlFilesys where
  memory := memory
  pathStringPtr
    | 0 => 1022
    | 1 => 1012
    | _ => 0

/-- Both strings are there. -/
def HoldsTwo (s : ArenaState) : Prop :=
  s.live = [1012, 1022] ∧ s.arena.HoldsString (s.arena.block 1022) [97] ∧
    s.arena.HoldsString (s.arena.block 1012) [98]

instance instDecidableHoldsTwo (s : ArenaState) : Decidable (HoldsTwo s) :=
  inferInstanceAs (Decidable (_ ∧ _ ∧ _))

theorem HoldsTwo.stores {s : ArenaState} (h : HoldsTwo s) (hgood : s.Good) :
    (VlFilesys.two s.arena).Stores s.live := by
  obtain ⟨hlive, hbase, hdest⟩ := h
  refine ⟨hgood, fun i hne => ?_, fun i j hne heq => ?_, fun i hne => ?_⟩
  · rw [hlive]
    rcases i with - | - | i
    · exact List.mem_cons_of_mem _ List.mem_cons_self
    · exact List.mem_cons_self
    · exact absurd rfl hne
  · rcases i with - | - | i
    · rcases j with - | - | j
      · rfl
      · cases heq
      · cases heq
    · rcases j with - | - | j
      · cases heq
      · rfl
      · cases heq
    · exact absurd rfl hne
  · rcases i with - | - | i
    · exact ⟨[97], hbase⟩
    · exact ⟨[98], hdest⟩
    · exact absurd rfl hne

end VeritableLasagna
