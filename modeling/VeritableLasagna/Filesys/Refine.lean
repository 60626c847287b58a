import VeritableLasagna.Filesys.Tree

/-!
# The iterator refines the traversal

`FileSystem.Realises` says that the operating system shows the tree of a listing below a path.
`Refines` relates an iterator to a traversal of that tree (`Cursor`): the stack of open directories
is the stack of listings, and the shared path is the join of the names along the stack. Every step
of `vlFSIterNext` that starts at an explicit entry and does not fail to open a directory is a step of
the traversal (`vlFSIterNext_refines`).
-/

namespace VeritableLasagna

/-! ### The operating system shows a tree -/

/-- What the operating system answers about the entries of a listing, in the directory `loc`. -/
def FileSystem.Realised (os : FileSystem) : Location → FsListing → Prop
  | _, .nil => True
  | loc, .implicit _ _ rest => os.Realised loc rest
  | loc, .file name known rest =>
    (∀ path, pathLocation path = loc.child name.chars → known = false → os.stat path ≠ some true) ∧
      os.Realised loc rest
  | loc, .dir name known opens contents rest =>
    (∀ path, pathLocation path = loc.child name.chars →
      (known = false → os.stat path = some true) ∧
      (opens = true → os.opendir path = .ok ⟨loc.child name.chars, contents.dirents⟩) ∧
      (opens = false → ∃ e, os.opendir path = .error e)) ∧
    os.Realised (loc.child name.chars) contents ∧ os.Realised loc rest

/-- The operating system shows the tree of the listing below the path. -/
structure FileSystem.Realises (os : FileSystem) (path : List Char) (l : FsListing) : Prop where
  ne_nil : path ≠ []
  opendir : os.opendir path = .ok ⟨pathLocation path, l.dirents⟩
  realised : os.Realised (pathLocation path) l

/-- The location without implicit components. -/
def Location.resolve (loc : Location) : Location where
  absolute := loc.absolute
  components := loc.components.foldl (fun dir name =>
    if name = implicitName false then dir
    else if name = implicitName true then dir.dropLast
    else dir ++ [name]) []

/-- The operating system that has these directories, with these entries, and can open them. -/
def FileSystem.ofDirectories (directories : List (Location × List Dirent)) : FileSystem where
  opendir path :=
    let loc := (pathLocation path).resolve
    match directories.lookup loc with
    | some entries => .ok ⟨loc, entries⟩
    | none => .error .enoent
  stat path := some (directories.lookup (pathLocation path).resolve).isSome

/-! ### The stack of open directories -/

/-- The iterators below the top are those of the directories the traversal came through, and the
path of the top is the join of the names they are at. -/
inductive StackAt (os : FileSystem) : List VlFilesysFrame → Cursor → List Char → Prop
  | nil {path : List Char} : path ≠ [] → StackAt os [] [] path
  | cons {frames : List VlFilesysFrame} {c : Cursor} {path : List Char} {rest : FsListing}
      {entry : Option Dirent} (name : FileName) : StackAt os frames c path →
      os.Realised (pathLocation path) rest →
      StackAt os (⟨some ⟨pathLocation path, rest.dirents⟩, entry, true⟩ :: frames)
        ((pathLocation path, rest) :: c) (vlFSPathJoin path name.chars)

/-- The iterator is at the first entry of the traversal. -/
inductive Refines (os : FileSystem) : VlFilesysIter → Cursor → Prop
  | entry {path : List Char} {frames : List VlFilesysFrame} {c : Cursor} {l : FsListing}
      {entry : Dirent} {entries : List Dirent} : StackAt os frames c path →
      os.Realised (pathLocation path) l → l.dirents = entry :: entries →
      Refines os ⟨path, ⟨some ⟨pathLocation path, entries⟩, some entry, true⟩, frames⟩
        ((pathLocation path, l) :: c)

/-- What `vlFSIterNext` returns shows the first entry of the traversal, or that it has ended. -/
inductive Resumes (os : FileSystem) : Bool × VlFilesysIter → Cursor → Prop
  | ended {iter : VlFilesysIter} : iter.top.entry = none → Resumes os (false, iter) []
  | entry {iter : VlFilesysIter} {c : Cursor} : Refines os iter c → Resumes os (true, iter) c

section Stack

variable {os : FileSystem} {frames : List VlFilesysFrame} {c : Cursor} {path path' : List Char}
  {l rest : FsListing} {top : VlFilesysFrame} {entry : Option Dirent}

theorem StackAt.ne_nil (h : StackAt os frames c path) : path ≠ [] := by
  cases h with
  | nil hpath => exact hpath
  | cons name _ _ => exact vlFSPathJoin_ne_nil

/-- Only the path at the bottom of the stack may lose a separator at its end. -/
theorem StackAt.same (h : StackAt os frames c path) (hsame : SameDirectory path' path) :
    StackAt os frames c path' := by
  cases h with
  | nil hpath => exact .nil hsame.ne_nil
  | cons name h hrest =>
    rw [hsame.eq_of_tidy vlFSPathJoin_tidy]
    exact .cons name h hrest

/-- The part of a realised listing behind its implicit entries is realised. -/
theorem FileSystem.Realised.dropImplicit {loc : Location} (h : os.Realised loc l) :
    os.Realised loc l.dropImplicit := by
  induction l with
  | implicit parent known rest ih => exact ih h
  | nil => exact h
  | file => exact h
  | dir => exact h

/-- The end of a listing is the end of its directory. -/
theorem exists_dirents_cons (hl : l ≠ .nil) : ∃ entry entries, l.dirents = entry :: entries := by
  cases hdirents : l.dirents with
  | nil => exact absurd (FsListing.dirents_eq_nil.mp hdirents) hl
  | cons entry entries => exact ⟨entry, entries, rfl⟩

theorem Cursor.settle_nil {loc : Location} : Cursor.settle ((loc, .nil) :: c) = c.settle := rfl

theorem Cursor.settle_cons {loc : Location} (hl : l ≠ .nil) :
    Cursor.settle ((loc, l) :: c) = (loc, l) :: c := by
  cases l with
  | nil => exact absurd rfl hl
  | implicit | file | dir => rfl

/-- **Popping** leaves the directories that have ended. -/
theorem vlFSIterPopLoop_resumes (h : StackAt os frames c path) (hentry : top.entry = none) :
    Returns (vlFSIterPopLoop path top frames) (Resumes os · c.settle) := by
  induction frames generalizing c path top with
  | nil =>
    cases h with
    | nil hpath => exact returns_ok (.ended hentry)
  | cons prev frames ih =>
    cases h with
    | @cons _ c path₀ rest _ name h hrest =>
      obtain ⟨path', hparent, hsame⟩ := vlFSPathParent_join name h.ne_nil
      rw [vlFSIterPopLoop, hparent, ok_bind, deref_some, ok_bind]
      by_cases hnil : rest = .nil
      · subst hnil
        rw [Cursor.settle_nil]
        exact ih (h.same hsame) rfl
      · obtain ⟨e, es, hes⟩ := exists_dirents_cons hnil
        simp only [hes, Cursor.settle_cons hnil]
        rw [← hsame.location] at hrest ⊢
        exact returns_ok (.entry (.entry (h.same hsame) hrest hes))

/-- **Moving on** in the directory on top. -/
theorem vlFSIterAdvance_resumes (h : StackAt os frames c path)
    (hrest : os.Realised (pathLocation path) rest) :
    Returns (vlFSIterAdvance ⟨path, ⟨some ⟨pathLocation path, rest.dirents⟩, entry, true⟩, frames⟩
      ⟨pathLocation path, rest.dirents⟩)
      (Resumes os · (Cursor.settle ((pathLocation path, rest) :: c))) := by
  rw [vlFSIterAdvance]
  by_cases hnil : rest = .nil
  · subst hnil
    rw [Cursor.settle_nil]
    exact vlFSIterPopLoop_resumes h rfl
  · obtain ⟨e, es, hes⟩ := exists_dirents_cons hnil
    simp only [hes, Cursor.settle_cons hnil]
    exact returns_ok (.entry (.entry h hrest hes))

/-- **Skipping** reads the implicit entries at the start of a listing. -/
theorem vlFSIterImplicitSkip_dirents (l : FsListing) :
    l.dirents.head?.bind (vlFSIterImplicitSkip · l.dirents.tail) =
      l.dropImplicit.dirents.head?.bind fun entry => some (entry, l.dropImplicit.dirents.tail) := by
  have hexplicit : ∀ (name : FileName) (dType : DirentType) (entries : List Dirent),
      vlFSIterImplicitSkip ⟨name.chars, dType⟩ entries = some (⟨name.chars, dType⟩, entries) := by
    intro name dType entries
    rw [vlFSIterImplicitSkip.eq_def, if_neg]
    exact not_or_intro name.ne_dot name.ne_dotdot
  induction l with
  | nil => rfl
  | file name known rest => exact hexplicit name _ _
  | dir name known opens contents rest => exact hexplicit name _ _
  | implicit parent known rest ih =>
    have hname : implicitName parent = ['.'] ∨ implicitName parent = ['.', '.'] := by
      cases parent with
      | false => exact Or.inl rfl
      | true => exact Or.inr rfl
    rw [FsListing.dropImplicit, ← ih, FsListing.dirents, List.head?_cons, Option.bind_some,
      List.tail_cons, vlFSIterImplicitSkip.eq_def, if_pos hname]
    cases rest.dirents with
    | nil => rfl
    | cons next entries => rfl

end Stack

/-! ### A step -/

/-- The step enters a directory that does not open. -/
def VlFilesysIter.failsToOpen (os : FileSystem) (iter : VlFilesysIter) : Bool :=
  match iter.top.entry with
  | none => false
  | some entry => vlFSIterIsDirectory os iter.dirPath entry && iter.top.recursive &&
      (os.opendir (vlFSPathJoin iter.dirPath entry.dName)).toOption.isNone

/-- The traversal is at an entry that is not implicit. -/
def Cursor.Explicit (c : Cursor) : Prop := ∀ level, c.head? = some level → ¬ level.2.StartsImplicit

section Step

variable {os : FileSystem} {iter : VlFilesysIter} {c : Cursor} {path : List Char} {loc : Location}
  {name : FileName} {known opens : Bool} {contents rest : FsListing}

/-- A file is not taken for a directory. -/
theorem vlFSIterIsDirectory_file (hpath : path ≠ [])
    (h : os.Realised (pathLocation path) (.file name known rest)) :
    vlFSIterIsDirectory os path ⟨name.chars, if known then .other else .unknown⟩ = false := by
  cases known with
  | true => rfl
  | false => exact decide_eq_false (h.1 _ (pathLocation_join hpath) rfl)

/-- A directory is taken for one. -/
theorem vlFSIterIsDirectory_dir (hpath : path ≠ [])
    (h : os.Realised (pathLocation path) (.dir name known opens contents rest)) :
    vlFSIterIsDirectory os path ⟨name.chars, if known then .dir else .unknown⟩ = true := by
  cases known with
  | true => rfl
  | false => exact decide_eq_true ((h.1 _ (pathLocation_join hpath)).1 rfl)

/-- Where every directory opens, no step fails to open one. -/
theorem Refines.not_failsToOpen (h : Refines os iter c) (hexplicit : c.Explicit)
    (hopen : ∀ level ∈ c, level.2.AllOpen) : iter.failsToOpen os = false := by
  obtain @⟨path, frames, c, l, entry, entries, hstack, hl, hentries⟩ := h
  have hopen : l.AllOpen := hopen _ List.mem_cons_self
  cases l with
  | nil => cases hentries
  | implicit parent known rest => exact absurd trivial (hexplicit _ rfl)
  | file name known rest =>
    obtain ⟨rfl, rfl⟩ := List.cons.inj hentries
    simp only [VlFilesysIter.failsToOpen, vlFSIterIsDirectory_file hstack.ne_nil hl,
      Bool.false_and]
  | dir name known opens contents rest =>
    obtain ⟨rfl, rfl⟩ := List.cons.inj hentries
    obtain ⟨-, hok, -⟩ := hl.1 _ (pathLocation_join hstack.ne_nil)
    simp only [VlFilesysIter.failsToOpen, hok hopen.1]
    exact Bool.and_false _

/-- **A step of the iterator is a step of the traversal**, unless it fails to open a directory. -/
theorem vlFSIterNext_refines (h : Refines os iter c) (hexplicit : c.Explicit)
    (hopens : iter.failsToOpen os = false) :
    Returns (vlFSIterNext os iter) (Resumes os · c.next) := by
  obtain @⟨path, frames, c, l, entry, entries, hstack, hl, hentries⟩ := h
  cases l with
  | nil => cases hentries
  | implicit parent known rest => exact absurd trivial (hexplicit _ rfl)
  | file name known rest =>
    obtain ⟨rfl, rfl⟩ := List.cons.inj hentries
    simp only [vlFSIterNext, vlFSIterIsDirectory_file hstack.ne_nil hl, Bool.false_eq_true,
      false_and, if_false]
    exact vlFSIterAdvance_resumes hstack hl.2
  | dir name known opens contents rest =>
    obtain ⟨rfl, rfl⟩ := List.cons.inj hentries
    have hdir := vlFSIterIsDirectory_dir hstack.ne_nil hl
    obtain ⟨hos, hcontents, hrest⟩ := hl
    obtain ⟨-, hopen, hfail⟩ := hos _ (pathLocation_join hstack.ne_nil)
    cases opens with
    | false =>
      obtain ⟨e, he⟩ := hfail rfl
      simp only [VlFilesysIter.failsToOpen, hdir, he] at hopens
      cases hopens
    | true =>
      simp only [vlFSIterNext, hdir, true_and, if_true, hopen rfl]
      rw [vlFSIterImplicitSkip_dirents, Cursor.next, if_pos rfl]
      by_cases hempty : contents.dropImplicit = .nil
      · -- the path is put back, without a separator at its end
        obtain ⟨path', hparent, hsame⟩ := vlFSPathParent_join name hstack.ne_nil
        simp only [hempty, FsListing.dirents, List.head?_nil, Option.bind_none, hparent, ok_bind,
          Cursor.settle_nil]
        rw [← hsame.location] at hrest ⊢
        exact vlFSIterAdvance_resumes (hstack.same hsame) hrest
      · obtain ⟨e, es, hes⟩ := exists_dirents_cons hempty
        simp only [hes, List.head?_cons, Option.bind_some, List.tail_cons,
          Cursor.settle_cons hempty]
        rw [← pathLocation_join hstack.ne_nil] at hcontents ⊢
        exact returns_ok (.entry (.entry (.cons name hstack hrest) hcontents.dropImplicit hes))

/-- The iterator is at the entry the traversal is at. -/
theorem Refines.current (h : Refines os iter c) : iter.current = c.order.head? := by
  obtain @⟨path, frames, c, l, entry, entries, hstack, hl, hentries⟩ := h
  cases l with
  | nil => cases hentries
  | implicit | file | dir =>
    obtain ⟨rfl, rfl⟩ := List.cons.inj hentries
    rfl

/-- **The start** of a traversal that has an entry. -/
theorem vlFSIterDirRecursive_refines {l : FsListing} (iter : VlFilesysIter)
    (h : os.Realises path l)
    (hnil : l.dropImplicit ≠ .nil) :
    ∃ iter', vlFSIterDirRecursive os iter (some path) = (.success, iter') ∧
      Refines os iter' [(pathLocation path, l.dropImplicit)] := by
  obtain ⟨e, es, hes⟩ := exists_dirents_cons hnil
  have hskip := vlFSIterImplicitSkip_dirents l
  have hreal := h.realised.dropImplicit
  cases hl : l.dirents with
  | nil =>
    rw [FsListing.dirents_eq_nil.mp hl] at hnil
    exact absurd rfl hnil
  | cons entry entries =>
    simp only [hl, hes, List.head?_cons, Option.bind_some, List.tail_cons] at hskip
    refine ⟨_, ?_, .entry (.nil h.ne_nil) hreal hes⟩
    simp only [vlFSIterDirRecursive, vlFSIterInit, h.opendir, hl, hskip]
    rfl

/-- A directory with implicit entries only is not found. -/
theorem vlFSIterDirRecursive_empty {l : FsListing} (iter : VlFilesysIter)
    (h : os.Realises path l)
    (hnil : l.dropImplicit = .nil) :
    ∃ iter', vlFSIterDirRecursive os iter (some path) = (.errorNotFound, iter') ∧
      iter'.top.entry = none := by
  have hskip := vlFSIterImplicitSkip_dirents l
  simp only [hnil, FsListing.dirents, List.head?_nil, Option.bind_none] at hskip
  cases hl : l.dirents with
  | nil =>
    simp only [vlFSIterDirRecursive, vlFSIterInit, h.opendir, hl]
    exact ⟨_, rfl, rfl⟩
  | cons entry entries =>
    simp only [hl, List.head?_cons, Option.bind_some, List.tail_cons] at hskip
    simp only [vlFSIterDirRecursive, vlFSIterInit, h.opendir, hl, hskip]
    exact ⟨_, rfl, rfl⟩

end Step

end VeritableLasagna
