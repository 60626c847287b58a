import VeritableLasagna.Filesys.Refine

/-!
# Recursive iteration

A recursive iteration is `vlFSIterDirRecursive` and then `vlFSIterNext` until it returns `VL_FALSE`.
It skips the implicit entries only at the start of a listing, so it enumerates the tree exactly when
they come first in every directory (`vlFSIter_enumerates_iff`).

The shared path follows the stack as long as no directory fails to open: a failed descent leaves its
name on the path, and all entries that follow are then looked up in the wrong directory
(`vlFSIter_path_astray`). Where the step that fails is the last one, it does not matter.
-/

namespace VeritableLasagna

/-! ### Enumeration -/

/-- The entries an iterator visits from where it is until `vlFSIterNext` returns `VL_FALSE`. -/
inductive Walk (os : FileSystem) : VlFilesysIter → List Location → Prop
  | last {iter iter' : VlFilesysIter} {x : Location} : iter.current = some x →
      vlFSIterNext os iter = .ok (false, iter') → Walk os iter [x]
  | next {iter iter' : VlFilesysIter} {x : Location} {xs : List Location} :
      iter.current = some x → vlFSIterNext os iter = .ok (true, iter') → Walk os iter' xs →
      Walk os iter (x :: xs)

/-- A recursive iteration ends, after it has visited these entries. -/
def Traverses (os : FileSystem) (iter : VlFilesysIter) (path : List Char)
    (visited : List Location) : Prop :=
  match vlFSIterDirRecursive os iter (some path) with
  | (.success, iter') => Walk os iter' visited
  | _ => visited = []

section Enumeration

variable {os : FileSystem} {iter : VlFilesysIter} {c : Cursor} {l : FsListing} {path : List Char}
  {xs : List Location}

theorem Refines.order_eq (h : Refines os iter c) (hexplicit : c.Explicit) :
    ∃ x, iter.current = some x ∧ c.order = x :: c.next.order := by
  have hcurrent := h.current
  obtain @⟨path, frames, c, l, entry, entries, hstack, hl, hentries⟩ := h
  have hnil : l ≠ .nil := by
    rintro rfl
    cases hentries
  obtain ⟨x, hx⟩ := Cursor.order_next (pathLocation path) c hnil
    (hexplicit _ rfl)
  exact ⟨x, by rw [hcurrent, hx, List.head?_cons], hx⟩

/-- The iterator stops at an implicit entry when the traversal does. -/
theorem Refines.current_implicit (h : Refines os iter c) (hnot : ¬ c.Explicit) :
    ∃ x, iter.current = some x ∧ x.Implicit := by
  have hcurrent := h.current
  obtain @⟨path, frames, c, l, entry, entries, hstack, hl, hentries⟩ := h
  cases l with
  | implicit parent known rest => exact ⟨_, hcurrent, _, parent, rfl⟩
  | nil | file | dir =>
    refine absurd ?_ hnot
    rintro level ⟨⟩
    exact id

/-- Where implicit entries come first, the traversal never stops at one. -/
theorem Cursor.explicit_of_first (hfirst : ∀ level ∈ c, level.2.ImplicitFirst false) : c.Explicit :=
  fun _ hlevel => (hfirst _ (List.mem_of_head? hlevel)).not_startsImplicit

theorem Cursor.next_allOpen (hopen : ∀ level ∈ c, level.2.AllOpen) :
    ∀ level ∈ c.next, level.2.AllOpen :=
  Cursor.next_all trivial (fun _ _ _ h => h)
    (fun _ _ _ _ _ h => ⟨fun _ => h.2.1.dropImplicit, h.2.2⟩) hopen

theorem Cursor.next_first (hfirst : ∀ level ∈ c, level.2.ImplicitFirst false) :
    ∀ level ∈ c.next, level.2.ImplicitFirst false :=
  Cursor.next_all (P := (·.ImplicitFirst false)) trivial (fun _ _ _ h => h)
    (fun _ _ _ _ _ h => ⟨fun hopens => (h.1 hopens).dropImplicit, h.2⟩) hfirst

/-- **Run lemma**: from where implicit entries come first, the iterator visits what is left. -/
theorem Refines.walk (h : Refines os iter c) (hfirst : ∀ level ∈ c, level.2.ImplicitFirst false)
    (hopen : ∀ level ∈ c, level.2.AllOpen) : Walk os iter c.order := by
  induction hxs : c.order generalizing iter c with
  | nil =>
    obtain ⟨x, -, hx⟩ := h.order_eq (Cursor.explicit_of_first hfirst)
    rw [hxs] at hx
    cases hx
  | cons x xs ih =>
    have hexplicit := Cursor.explicit_of_first hfirst
    obtain ⟨x', hcurrent, hx⟩ := h.order_eq hexplicit
    obtain ⟨rfl, rfl⟩ := List.cons.inj (hxs.symm.trans hx)
    obtain ⟨r, hr, hresumes⟩ := vlFSIterNext_refines h hexplicit
      (h.not_failsToOpen hexplicit hopen)
    cases hc : c.next with
    | nil =>
      rw [hc] at hresumes
      obtain _ | _ := hresumes
      · exact .last hcurrent hr
      · rename_i hnil
        cases hnil
    | cons level c' =>
      rw [hc] at hresumes
      obtain _ | hrefines := hresumes
      rw [← hc] at hrefines ⊢
      exact .next hcurrent hr (ih hrefines (Cursor.next_first hfirst) (Cursor.next_allOpen hopen) rfl)

/-- A step starts at an implicit entry, or it is a step of the traversal. -/
theorem Refines.next {r : Bool × VlFilesysIter} {x : Location} (h : Refines os iter c)
    (hopen : ∀ level ∈ c, level.2.AllOpen) (hcurrent : iter.current = some x)
    (hnext : vlFSIterNext os iter = .ok r) :
    x.Implicit ∨ c.order = x :: c.next.order ∧ Resumes os r c.next := by
  by_cases hexplicit : c.Explicit
  · obtain ⟨x', hcurrent', hx⟩ := h.order_eq hexplicit
    obtain rfl := Option.some_injective _ (hcurrent.symm.trans hcurrent')
    have hopens := h.not_failsToOpen hexplicit hopen
    exact Or.inr ⟨hx, (vlFSIterNext_refines h hexplicit hopens).of_ok hnext⟩
  · obtain ⟨x', hcurrent', himplicit⟩ := h.current_implicit hexplicit
    obtain rfl := Option.some_injective _ (hcurrent.symm.trans hcurrent')
    exact Or.inl himplicit

/-- An iteration that ends has visited what was left, or has come to an implicit entry. -/
theorem Walk.implicit_or_order (hwalk : Walk os iter xs) (h : Refines os iter c)
    (hopen : ∀ level ∈ c, level.2.AllOpen) : (∃ x ∈ xs, x.Implicit) ∨ xs = c.order := by
  induction hwalk generalizing c with
  | @last iter iter' x hcurrent hnext =>
    rcases h.next hopen hcurrent hnext with himplicit | ⟨hx, hresumes⟩
    · exact Or.inl ⟨x, List.mem_cons_self, himplicit⟩
    · generalize c.next = c' at hx hresumes
      obtain _ | _ := hresumes
      exact Or.inr hx.symm
  | @next iter iter' x xs hcurrent hnext _ ih =>
    rcases h.next hopen hcurrent hnext with himplicit | ⟨hx, hresumes⟩
    · exact Or.inl ⟨x, List.mem_cons_self, himplicit⟩
    · have hopen' := Cursor.next_allOpen hopen
      generalize c.next = c' at hx hresumes hopen'
      obtain _ | hrefines := hresumes
      rcases ih hrefines hopen' with ⟨y, hy, himplicit⟩ | rfl
      · exact Or.inl ⟨y, List.mem_cons_of_mem _ hy, himplicit⟩
      · exact Or.inr hx.symm

/-- **What an iteration visits**: the order of the listing, or else an implicit entry. -/
theorem Traverses.implicit_or_order {visited : List Location} (h : os.Realises path l)
    (hopen : l.AllOpen) (htraverses : Traverses os iter path visited) :
    (∃ x ∈ visited, x.Implicit) ∨ visited = l.preorder true (pathLocation path) := by
  rw [← FsListing.preorder_dropImplicit]
  by_cases hnil : l.dropImplicit = .nil
  · obtain ⟨iter', hinit, -⟩ := vlFSIterDirRecursive_empty iter h hnil
    rw [Traverses, hinit] at htraverses
    rw [hnil]
    exact Or.inr htraverses
  · obtain ⟨iter', hinit, hrefines⟩ := vlFSIterDirRecursive_refines iter h hnil
    rw [Traverses, hinit] at htraverses
    have horder := Walk.implicit_or_order htraverses hrefines
      (List.forall_mem_singleton.mpr hopen.dropImplicit)
    rwa [Cursor.order, Cursor.order, List.append_nil] at horder

/-- Where implicit entries come first, an iteration ends. -/
theorem traverses_preorder (h : os.Realises path l) (hopen : l.AllOpen)
    (hfirst : l.ImplicitFirst true) :
    Traverses os iter path (l.preorder true (pathLocation path)) := by
  rw [← FsListing.preorder_dropImplicit]
  by_cases hnil : l.dropImplicit = .nil
  · obtain ⟨iter', hinit, -⟩ := vlFSIterDirRecursive_empty iter h hnil
    rw [Traverses, hinit, hnil]
    rfl
  · obtain ⟨iter', hinit, hrefines⟩ := vlFSIterDirRecursive_refines iter h hnil
    rw [Traverses, hinit]
    have hwalk := hrefines.walk (List.forall_mem_singleton.mpr hfirst.dropImplicit)
      (List.forall_mem_singleton.mpr hopen.dropImplicit)
    rwa [Cursor.order, Cursor.order, List.append_nil] at hwalk

/-- An iteration that enumerates the tree met no implicit entry. -/
theorem Traverses.first {visited : List Location} (h : os.Realises path l) (hopen : l.AllOpen)
    (htraverses : Traverses os iter path visited)
    (henum : l.Enumerates (pathLocation path) visited) : l.ImplicitFirst true := by
  rcases htraverses.implicit_or_order h hopen with ⟨x, hx, himplicit⟩ | rfl
  · exact absurd himplicit (henum.explicit x hx)
  · by_contra hfirst
    obtain ⟨x, hx, himplicit⟩ := l.exists_implicit_mem_preorder (pathLocation path) hfirst
    exact henum.explicit x hx himplicit

end Enumeration

/-- **A recursive iteration enumerates the tree exactly when the implicit entries come first** in
every directory. -/
theorem vlFSIter_enumerates_iff {os : FileSystem} {path : List Char} {l : FsListing}
    (iter : VlFilesysIter) (h : os.Realises path l) (hopen : l.AllOpen) (hdist : l.Distinct) :
    (∃ visited, Traverses os iter path visited ∧ l.Enumerates (pathLocation path) visited) ↔
      l.ImplicitFirst true := by
  constructor
  · rintro ⟨visited, htraverses, henum⟩
    exact htraverses.first h hopen henum
  · intro hfirst
    exact ⟨_, traverses_preorder h hopen hfirst,
      FsListing.preorder_enumerates hfirst hopen hdist⟩

/-- A directory with a file in it: both are visited. -/
theorem vlFSIter_enumerates_small :
    let d := FileName.single 'd' (by decide) (by decide)
    let f := FileName.single 'f' (by decide) (by decide)
    let contents := FsListing.implicit false true (.file f false .nil)
    let l := FsListing.implicit true true (.implicit false true (.dir d true true contents .nil))
    let root : Location := ⟨false, [['s']]⟩
    let os := FileSystem.ofDirectories
      [(root, l.dirents), (root.child d.chars, contents.dirents)]
    ∃ visited, Traverses os vlFSIterNew ['s'] visited ∧ l.Enumerates (pathLocation ['s']) visited := by
  intro d f contents l root os
  have hreal : os.Realises ['s'] l := by
    refine ⟨by decide, by decide +kernel, fun path hpath => ⟨nofun, fun _ => ?_, nofun⟩, ⟨?_, trivial⟩,
      trivial⟩
    · simp only [os, FileSystem.ofDirectories, hpath]
      decide +kernel
    · intro path hpath _
      simp only [os, FileSystem.ofDirectories, hpath]
      decide +kernel
  exact (vlFSIter_enumerates_iff vlFSIterNew hreal ⟨rfl, trivial, trivial⟩
    ⟨List.not_mem_nil, ⟨List.not_mem_nil, trivial⟩, trivial⟩).mpr (by decide)

/-- The implicit entries come after a file. -/
theorem vlFSIter_not_enumerates_implicit :
    let f := FileName.single 'f' (by decide) (by decide)
    let l := FsListing.file f true (.implicit false true (.implicit true true .nil))
    let os := FileSystem.ofDirectories [(⟨false, [['s']]⟩, l.dirents)]
    os.Realises ['s'] l ∧ l.AllOpen ∧ l.Distinct ∧ ¬ ∃ visited,
      Traverses os vlFSIterNew ['s'] visited ∧ l.Enumerates (pathLocation ['s']) visited := by
  intro f l os
  have hreal : os.Realises ['s'] l := ⟨by decide, by decide +kernel, fun _ _ => nofun, trivial⟩
  refine ⟨hreal, trivial, ⟨by decide, trivial⟩, ?_⟩
  rintro ⟨visited, htraverses, henum⟩
  have hfirst : l.ImplicitFirst true := htraverses.first hreal trivial henum
  exact absurd hfirst (by decide)

/-! ### The shared path -/

/-- The shared path is the path of the directory the current entry is in, and `vlFSStatIter`, which
joins the name of the entry to it, gets the path of the entry. -/
def VlFilesysIter.AtDirectory (iter : VlFilesysIter) : Prop :=
  ∀ dir entry, iter.top.dir = some dir → iter.top.entry = some entry →
    pathLocation iter.dirPath = dir.directory ∧
      pathLocation (vlFSPathJoin iter.dirPath entry.dName) = dir.directory.child entry.dName

/-- No directory of the stack has an entry left. -/
def VlFilesysIter.exhausted (iter : VlFilesysIter) : Bool :=
  (iter.top :: iter.stackPrev).all fun frame => frame.dir.all (·.entries.isEmpty)

/-- The iterator, moved by `vlFSIterNext`. -/
def nextMachine (os : FileSystem) : Machine VlFilesysIter Unit where
  guard _ _ := True
  step iter _ := do
    let (_, iter') ← vlFSIterNext os iter
    return iter'

/-- The iterator, moved by steps that do not fail to open a directory, unless no entry is left. -/
def openingMachine (os : FileSystem) : Machine VlFilesysIter Unit where
  guard iter _ := iter.failsToOpen os = true → iter.exhausted = true
  step := (nextMachine os).step

instance (os : FileSystem) (iter : VlFilesysIter) (o : Unit) :
    Decidable ((nextMachine os).guard iter o) := isTrue trivial

instance (os : FileSystem) (iter : VlFilesysIter) (o : Unit) :
    Decidable ((openingMachine os).guard iter o) :=
  inferInstanceAs (Decidable (iter.failsToOpen os = true → iter.exhausted = true))

/-- A run of such steps is a run. -/
theorem openingMachine_run {os : FileSystem} {iter iter' : VlFilesysIter} {steps : List Unit}
    (hrun : (openingMachine os).Run iter steps iter') : (nextMachine os).Run iter steps iter' := by
  induction hrun with
  | nil iter => exact .nil iter
  | cons hguard hstep _ ih => exact .cons trivial hstep ih

/-- What a run of such steps keeps: the iterator refines a traversal that comes to no implicit entry,
or it has ended. -/
def VlFilesysIter.Tracks (os : FileSystem) (iter : VlFilesysIter) : Prop :=
  iter.top.entry = none ∨ ∃ c, Refines os iter c ∧ ∀ level ∈ c, level.2.ImplicitFirst false

section SharedPath

variable {os : FileSystem} {iter : VlFilesysIter} {c : Cursor} {l : FsListing} {path : List Char}
  {top : VlFilesysFrame} {frames : List VlFilesysFrame}

/-- An iterator that refines a traversal has the right path. -/
theorem Refines.atDirectory (h : Refines os iter c)
    (hfirst : ∀ level ∈ c, level.2.ImplicitFirst false) : iter.AtDirectory := by
  obtain @⟨path, frames, c, l, entry, entries, hstack, hl, hentries⟩ := h
  have hl' : l.ImplicitFirst false := hfirst _ List.mem_cons_self
  rintro _ _ ⟨⟩ ⟨⟩
  refine ⟨rfl, ?_⟩
  cases l with
  | nil => cases hentries
  | implicit parent known rest => cases hl'.1
  | file name | dir name =>
    obtain ⟨rfl, rfl⟩ := List.cons.inj hentries
    exact pathLocation_join hstack.ne_nil

theorem VlFilesysIter.Tracks.atDirectory (h : iter.Tracks os) : iter.AtDirectory := by
  rcases h with hentry | ⟨c, h, hfirst⟩
  · intro dir entry _ hentry'
    rw [hentry] at hentry'
    cases hentry'
  · exact h.atDirectory hfirst

/-- Where no entry is left, popping ends the iteration. -/
theorem vlFSIterPopLoop_exhausted (hpath : path ≠ []) (hentry : top.entry = none)
    (hframes : ∀ frame ∈ frames, ∃ dir, frame.dir = some dir ∧ dir.entries = []) :
    Returns (vlFSIterPopLoop path top frames) (·.2.top.entry = none) := by
  induction frames generalizing path top with
  | nil => exact returns_ok hentry
  | cons prev frames ih =>
    obtain ⟨dir, hdir, hentries⟩ := hframes prev List.mem_cons_self
    obtain ⟨path', hparent, hpath'⟩ := vlFSPathParent_ne_nil hpath
    rw [vlFSIterPopLoop, hparent, ok_bind, hdir, deref_some, ok_bind, hentries]
    exact ih hpath' rfl fun frame hframe => hframes frame (List.mem_cons_of_mem _ hframe)

/-- The directories below the top are open. -/
theorem StackAt.exists_dir (h : StackAt os frames c path) :
    ∀ frame ∈ frames, ∃ dir, frame.dir = some dir := by
  induction h with
  | nil _ => exact nofun
  | cons name _ _ ih => exact List.forall_mem_cons.mpr ⟨⟨_, rfl⟩, ih⟩

/-- A step that fails to open a directory ends the iteration, if no entry is left. -/
theorem vlFSIterNext_exhausted (h : Refines os iter c) (hfails : iter.failsToOpen os = true)
    (hexhausted : iter.exhausted = true) :
    Returns (vlFSIterNext os iter) (·.2.top.entry = none) := by
  obtain @⟨path, frames, c, l, entry, entries, hstack, hl, hentries⟩ := h
  obtain ⟨htop, hframes⟩ := List.forall_mem_cons.mp (List.all_eq_true.mp hexhausted)
  obtain rfl : entries = [] := List.isEmpty_iff.mp htop
  simp only [VlFilesysIter.failsToOpen, Bool.and_eq_true, Option.isNone_iff_eq_none] at hfails
  obtain ⟨⟨hdir, -⟩, hopendir⟩ := hfails
  cases hos : os.opendir (vlFSPathJoin path entry.dName) with
  | ok dir =>
    rw [hos] at hopendir
    cases hopendir
  | error e =>
    simp only [vlFSIterNext, hdir, and_self, if_true, hos]
    rw [vlFSIterAdvance]
    refine vlFSIterPopLoop_exhausted (vlFSPathJoin_ne_nil_of_ne_nil hstack.ne_nil) rfl
      fun frame hframe => ?_
    obtain ⟨dir, hframe'⟩ := hstack.exists_dir frame hframe
    refine ⟨dir, hframe', List.isEmpty_iff.mp ?_⟩
    simpa only [hframe', Option.all_some] using hframes frame hframe

/-- **Step lemma**. -/
theorem openingMachine_keeps {o : Unit} (h : iter.Tracks os)
    (hguard : (openingMachine os).guard iter o) :
    Returns ((openingMachine os).step iter o) (VlFilesysIter.Tracks os) := by
  have hreturns : Returns (vlFSIterNext os iter) (·.2.Tracks os) := by
    rcases h with hentry | ⟨c, h, hfirst⟩
    · refine ⟨(false, iter), ?_, Or.inl hentry⟩
      rw [vlFSIterNext, hentry]
      cases iter.top.dir with
      | none => rfl
      | some dir => rfl
    · cases hopens : iter.failsToOpen os with
      | true =>
        exact (vlFSIterNext_exhausted h hopens (hguard hopens)).mono fun _ hentry => Or.inl hentry
      | false =>
        have hexplicit := Cursor.explicit_of_first hfirst
        refine (vlFSIterNext_refines h hexplicit hopens).mono fun r hresumes => ?_
        have hfirst' := Cursor.next_first hfirst
        generalize c.next = c' at hresumes hfirst'
        obtain hentry | hrefines := hresumes
        · exact Or.inl hentry
        · exact Or.inr ⟨c', hrefines, hfirst'⟩
  exact hreturns.bind fun r hr => returns_ok hr

/-- The iterator tracks from the start on. -/
theorem vlFSIterDirRecursive_tracks (h : os.Realises path l) (hfirst : l.ImplicitFirst true) :
    (vlFSIterDirRecursive os iter (some path)).2.Tracks os := by
  by_cases hnil : l.dropImplicit = .nil
  · obtain ⟨iter', hinit, hentry⟩ := vlFSIterDirRecursive_empty iter h hnil
    rw [hinit]
    exact Or.inl hentry
  · obtain ⟨iter', hinit, hrefines⟩ := vlFSIterDirRecursive_refines iter h hnil
    rw [hinit]
    exact Or.inr ⟨_, hrefines, List.forall_mem_singleton.mpr hfirst.dropImplicit⟩

end SharedPath

/-- **The shared path is that of the directory of the current entry** in every state a recursive
iteration reaches by steps that do not fail to open a directory while an entry is left. -/
theorem vlFSIter_atDirectory {os : FileSystem} {path : List Char} {l : FsListing}
    (iter : VlFilesysIter) (h : os.Realises path l) (hfirst : l.ImplicitFirst true)
    {steps : List Unit} {iter' : VlFilesysIter}
    (hrun : (openingMachine os).Run (vlFSIterDirRecursive os iter (some path)).2 steps iter') :
    iter'.AtDirectory := by
  refine (hrun.invariant (fun iter o iter' htracks hguard hstep => ?_)
    (vlFSIterDirRecursive_tracks h hfirst)).atDirectory
  exact (openingMachine_keeps htracks hguard).of_ok hstep

/-- A directory with a file in it, and one that does not open: the iteration comes to the second. -/
theorem vlFSIter_atDirectory_small :
    let d := FileName.single 'd' (by decide) (by decide)
    let f := FileName.single 'f' (by decide) (by decide)
    let x := FileName.single 'x' (by decide) (by decide)
    let contents := FsListing.implicit false true (.file f false .nil)
    let l := FsListing.implicit false true (.dir d true true contents (.dir x true false .nil .nil))
    let root : Location := ⟨false, [['s']]⟩
    let os := FileSystem.ofDirectories
      [(root, l.dirents), (root.child d.chars, contents.dirents)]
    ∃ iter, (nextMachine os).Run (vlFSIterDirRecursive os vlFSIterNew (some ['s'])).2
        [(), ()] iter ∧ iter.current = some (root.child x.chars) ∧ iter.AtDirectory := by
  intro d f x contents l root os
  have hreal : os.Realises ['s'] l := by
    refine ⟨by decide, by decide +kernel, fun path hpath => ⟨nofun, fun _ => ?_, nofun⟩,
      ⟨fun path hpath _ => ?_, trivial⟩, fun path hpath => ⟨nofun, nofun, fun _ => ⟨.enoent, ?_⟩⟩,
      trivial, trivial⟩
    · simp only [os, FileSystem.ofDirectories, hpath]
      decide +kernel
    · simp only [os, FileSystem.ofDirectories, hpath]
      decide +kernel
    · simp only [os, FileSystem.ofDirectories, hpath]
      decide +kernel
  have hexec : ((openingMachine os).exec (vlFSIterDirRecursive os vlFSIterNew (some ['s'])).2
      [(), ()]).any (·.current = some (root.child x.chars)) = true := by decide +kernel
  obtain ⟨iter, hrun, hcurrent⟩ := Machine.exists_run_of_exec hexec
  exact ⟨iter, openingMachine_run hrun, of_decide_eq_true hcurrent,
    vlFSIter_atDirectory vlFSIterNew hreal (by decide) hrun⟩

/-- A directory that does not open, and a file behind it: the path of the file is looked up in the
directory. -/
theorem vlFSIter_path_astray :
    let x := FileName.single 'x' (by decide) (by decide)
    let f := FileName.single 'f' (by decide) (by decide)
    let l := FsListing.implicit false true (.implicit true true (.dir x true false .nil
      (.file f true .nil)))
    let os := FileSystem.ofDirectories [(⟨false, [['s']]⟩, l.dirents)]
    os.Realises ['s'] l ∧ l.ImplicitFirst true ∧
      ∃ iter, (nextMachine os).Run (vlFSIterDirRecursive os vlFSIterNew (some ['s'])).2 [()] iter ∧
        ¬ iter.AtDirectory := by
  intro x f l os
  have hreal : os.Realises ['s'] l := by
    refine ⟨by decide, by decide +kernel, fun path hpath => ⟨nofun, nofun, fun _ => ⟨.enoent, ?_⟩⟩,
      trivial, nofun, trivial⟩
    simp only [os, FileSystem.ofDirectories, hpath]
    decide +kernel
  have hexec : ((nextMachine os).exec (vlFSIterDirRecursive os vlFSIterNew (some ['s'])).2
      [()]).any (fun iter => iter.top = ⟨some ⟨⟨false, [['s']]⟩, []⟩, some ⟨['f'], .other⟩, true⟩ ∧
        iter.dirPath = ['s', '/', 'x']) = true := by decide +kernel
  obtain ⟨iter, hrun, hiter⟩ := Machine.exists_run_of_exec hexec
  obtain ⟨htop, hpath⟩ := of_decide_eq_true hiter
  refine ⟨hreal, by decide, iter, hrun, fun hat => ?_⟩
  obtain ⟨hlocation, -⟩ := hat _ _ (congrArg VlFilesysFrame.dir htop)
    (congrArg VlFilesysFrame.entry htop)
  rw [hpath] at hlocation
  exact absurd hlocation (by decide +kernel)

end VeritableLasagna
