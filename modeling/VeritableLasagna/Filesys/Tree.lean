import VeritableLasagna.Filesys.Basic

/-!
# Directory trees

`FsListing` is the listing of a directory in the order `readdir` returns it, with the listings of its
subdirectories inside. `preorder` is the order in which an iterator that skips the implicit entries
at the start of a listing, and only those, meets the entries; where no listing has an implicit entry
elsewhere, it enumerates the tree (`preorder_enumerates`).

The traversal with an explicit stack is stated here too, of listings instead of open directories
(`Cursor`): what `Cursor.next` leaves is the rest of the order (`Cursor.order_next`).
-/

namespace VeritableLasagna

/-- The listing of a directory: the entries in order. `parent` tells `..` from `.`, `known` whether
`readdir` returns the type, and `opens` whether the directory can be opened. -/
inductive FsListing
  | nil
  | implicit (parent known : Bool) (rest : FsListing)
  | file (name : FileName) (known : Bool) (rest : FsListing)
  | dir (name : FileName) (known opens : Bool) (contents rest : FsListing)
  deriving DecidableEq

/-- The name of an implicit entry. -/
def implicitName (parent : Bool) : List Char := if parent then ['.', '.'] else ['.']

namespace FsListing

/-- What `readdir` returns, one after the other. -/
def dirents : FsListing → List Dirent
  | nil => []
  | implicit parent known rest =>
    ⟨implicitName parent, if known then .dir else .unknown⟩ :: rest.dirents
  | file name known rest => ⟨name.chars, if known then .other else .unknown⟩ :: rest.dirents
  | dir name known _ _ rest => ⟨name.chars, if known then .dir else .unknown⟩ :: rest.dirents

/-- The listing without the implicit entries at its start. -/
def dropImplicit : FsListing → FsListing
  | implicit _ _ rest => rest.dropImplicit
  | l => l

/-- The first entry is implicit. -/
def StartsImplicit : FsListing → Prop
  | implicit _ _ _ => True
  | _ => False

instance : DecidablePred StartsImplicit
  | nil => isFalse id
  | implicit _ _ _ => isTrue trivial
  | file _ _ _ => isFalse id
  | dir _ _ _ _ _ => isFalse id

/-- Implicit entries come before all others, in the listing and in those of the subdirectories that
can be opened. At the start of the listing, `lead` is true. -/
def ImplicitFirst : FsListing → Bool → Prop
  | nil, _ => True
  | implicit _ _ rest, lead => lead = true ∧ rest.ImplicitFirst true
  | file _ _ rest, _ => rest.ImplicitFirst false
  | dir _ _ opens contents rest, _ =>
    (opens = true → contents.ImplicitFirst true) ∧ rest.ImplicitFirst false

instance decidableImplicitFirst : ∀ (l : FsListing) (lead : Bool), Decidable (l.ImplicitFirst lead)
  | nil, _ => isTrue trivial
  | implicit _ _ rest, _ => @instDecidableAnd _ _ _ (decidableImplicitFirst rest true)
  | file _ _ rest, _ => decidableImplicitFirst rest false
  | dir _ _ _ contents rest, _ =>
    have := decidableImplicitFirst contents true
    @instDecidableAnd _ _ _ (decidableImplicitFirst rest false)

/-- Every directory below can be opened. -/
def AllOpen : FsListing → Prop
  | nil => True
  | implicit _ _ rest => rest.AllOpen
  | file _ _ rest => rest.AllOpen
  | dir _ _ opens contents rest => opens = true ∧ contents.AllOpen ∧ rest.AllOpen

/-- The names in the listing. -/
def names : FsListing → List (List Char)
  | nil => []
  | implicit _ _ rest => rest.names
  | file name _ rest => name.chars :: rest.names
  | dir name _ _ _ rest => name.chars :: rest.names

/-- No directory has two entries of one name. -/
def Distinct : FsListing → Prop
  | nil => True
  | implicit _ _ rest => rest.Distinct
  | file name _ rest => name.chars ∉ rest.names ∧ rest.Distinct
  | dir name _ _ contents rest => name.chars ∉ rest.names ∧ contents.Distinct ∧ rest.Distinct

/-- An entry strictly below the directory `loc`, which the listing is of. -/
def Below : FsListing → Location → Location → Prop
  | nil, _, _ => False
  | implicit _ _ rest, loc, x => rest.Below loc x
  | file name _ rest, loc, x => x = loc.child name.chars ∨ rest.Below loc x
  | dir name _ _ contents rest, loc, x =>
    x = loc.child name.chars ∨ contents.Below (loc.child name.chars) x ∨ rest.Below loc x

/-- The entries in the order an iterator meets them that skips the implicit ones at the start of a
listing. It enters the directories it can open. -/
def preorder : FsListing → Bool → Location → List Location
  | nil, _, _ => []
  | implicit parent _ rest, lead, loc =>
    if lead then rest.preorder true loc
    else loc.child (implicitName parent) :: rest.preorder false loc
  | file name _ rest, _, loc => loc.child name.chars :: rest.preorder false loc
  | dir name _ opens contents rest, _, loc =>
    loc.child name.chars ::
      ((if opens then contents.preorder true (loc.child name.chars) else []) ++
        rest.preorder false loc)

end FsListing

/-- An implicit entry, of any directory. -/
def Location.Implicit (x : Location) : Prop := ∃ loc parent, x = Location.child loc (implicitName parent)

/-- The location is `y`, or inside it. -/
def Location.Within (x y : Location) : Prop := ∃ names, x = ⟨y.absolute, y.components ++ names⟩

/-- The visits enumerate the tree of the listing, below the directory `loc`. -/
structure FsListing.Enumerates (l : FsListing) (loc : Location) (visited : List Location) : Prop where
  once : visited.Nodup
  complete : ∀ x, x ∈ visited ↔ l.Below loc x
  /-- a directory comes before its contents -/
  before : visited.Pairwise fun x y => ¬ x.Within y
  explicit : ∀ x ∈ visited, ¬ x.Implicit

section Location

variable {loc x y : Location} {n m : List Char}

theorem Location.Within.refl (x : Location) : x.Within x := ⟨[], by rw [List.append_nil]⟩

theorem Location.Within.of_child (h : x.Within (loc.child n)) : x.Within loc := by
  obtain ⟨names, rfl⟩ := h
  exact ⟨n :: names, by simp only [Location.child, List.append_assoc, List.singleton_append]⟩

/-- What is inside an entry is not the directory. -/
theorem Location.Within.not_within_child (h : x.Within (loc.child n)) : ¬ loc.Within x := by
  obtain ⟨names, rfl⟩ := h
  rintro ⟨names', heq⟩
  have hlen := congrArg (fun x => x.components.length) heq
  simp only [Location.child, List.length_append, List.length_singleton] at hlen
  omega

/-- What is inside an entry is not inside another one. -/
theorem Location.Within.not_within_of_ne (h : x.Within (loc.child n)) (h' : y.Within (loc.child m))
    (hne : n ≠ m) : ¬ x.Within y := by
  obtain ⟨names, rfl⟩ := h
  obtain ⟨names', rfl⟩ := h'
  rintro ⟨names'', heq⟩
  have hcomps := congrArg Location.components heq
  simp only [Location.child, List.append_assoc, List.append_cancel_left_eq, List.cons_append,
    List.cons.injEq] at hcomps
  exact hne hcomps.1

theorem implicitName_ne (name : FileName) (parent : Bool) : name.chars ≠ implicitName parent := by
  cases parent with
  | false => exact name.ne_dot
  | true => exact name.ne_dotdot

/-- An entry that has a name is not implicit. -/
theorem Location.not_implicit_child (name : FileName) : ¬ (loc.child name.chars).Implicit := by
  rintro ⟨loc', parent, heq⟩
  have hlast := congrArg (fun x => x.components.getLast?) heq
  simp only [Location.child, List.getLast?_concat, Option.some.injEq] at hlast
  exact implicitName_ne name parent hlast

end Location

namespace FsListing

variable {l : FsListing} {loc x : Location} {lead : Bool}

/-! ### The start of a listing -/

/-- The order starts where the implicit entries end. -/
theorem preorder_dropImplicit : l.dropImplicit.preorder false loc = l.preorder true loc := by
  induction l with
  | implicit parent known rest ih => exact ih
  | nil => rfl
  | file => rfl
  | dir => rfl

theorem dirents_eq_nil : l.dirents = [] ↔ l = nil := by
  cases l with
  | nil => exact iff_of_true rfl rfl
  | implicit | file | dir => exact iff_of_false (List.cons_ne_nil _ _) nofun

theorem ImplicitFirst.not_startsImplicit (h : l.ImplicitFirst false) : ¬ l.StartsImplicit := by
  cases l with
  | implicit parent known rest => cases h.1
  | nil | file | dir => exact id

theorem ImplicitFirst.dropImplicit (h : l.ImplicitFirst true) : l.dropImplicit.ImplicitFirst false := by
  induction l with
  | implicit parent known rest ih => exact ih h.2
  | nil => exact h
  | file => exact h
  | dir => exact h

theorem AllOpen.dropImplicit (h : l.AllOpen) : l.dropImplicit.AllOpen := by
  induction l with
  | implicit parent known rest ih => exact ih h
  | nil => exact h
  | file => exact h
  | dir => exact h

/-! ### The order of a listing -/

theorem Below.within (h : l.Below loc x) : ∃ n ∈ l.names, x.Within (loc.child n) := by
  induction l generalizing loc with
  | nil => exact h.elim
  | implicit parent known rest ih => exact ih h
  | file name known rest ih =>
    rcases h with rfl | h
    · exact ⟨_, List.mem_cons_self, .refl _⟩
    · obtain ⟨n, hn, hx⟩ := ih h
      exact ⟨n, List.mem_cons_of_mem _ hn, hx⟩
  | dir name known opens contents rest ihc ih =>
    rcases h with rfl | h | h
    · exact ⟨_, List.mem_cons_self, .refl _⟩
    · obtain ⟨n, -, hx⟩ := ihc h
      exact ⟨_, List.mem_cons_self, hx.of_child⟩
    · obtain ⟨n, hn, hx⟩ := ih h
      exact ⟨n, List.mem_cons_of_mem _ hn, hx⟩

theorem Below.not_implicit (h : l.Below loc x) : ¬ x.Implicit := by
  induction l generalizing loc with
  | nil => exact h.elim
  | implicit parent known rest ih => exact ih h
  | file name known rest ih =>
    rcases h with rfl | h
    · exact Location.not_implicit_child name
    · exact ih h
  | dir name known opens contents rest ihc ih =>
    rcases h with rfl | h | h
    · exact Location.not_implicit_child name
    · exact ihc h
    · exact ih h

/-- The order meets what is below the directory, and nothing else. -/
theorem mem_preorder (hfirst : l.ImplicitFirst lead) (hopen : l.AllOpen) :
    x ∈ l.preorder lead loc ↔ l.Below loc x := by
  induction l generalizing loc lead with
  | nil => exact iff_of_false List.not_mem_nil id
  | implicit parent known rest ih =>
    rw [preorder, if_pos hfirst.1]
    exact ih hfirst.2 hopen
  | file name known rest ih =>
    rw [preorder, List.mem_cons, ih hfirst hopen]
    rfl
  | dir name known opens contents rest ihc ih =>
    obtain ⟨hopens, hcontents, hrest⟩ := hopen
    rw [preorder, if_pos hopens, List.mem_cons, List.mem_append, ihc (hfirst.1 hopens) hcontents,
      ih hfirst.2 hrest]
    rfl

/-- An implicit entry that is not at the start is met. -/
theorem exists_implicit_mem_preorder (l : FsListing) (loc : Location)
    (hfirst : ¬ l.ImplicitFirst lead) :
    ∃ x ∈ l.preorder lead loc, x.Implicit := by
  induction l generalizing loc lead with
  | nil => exact absurd trivial hfirst
  | implicit parent known rest ih =>
    cases lead with
    | false => exact ⟨_, List.mem_cons_self, loc, parent, rfl⟩
    | true => exact ih loc fun h => hfirst ⟨rfl, h⟩
  | file name known rest ih =>
    obtain ⟨x, hx, himplicit⟩ := ih loc hfirst
    exact ⟨x, List.mem_cons_of_mem _ hx, himplicit⟩
  | dir name known opens contents rest ihc ih =>
    by_cases hrest : rest.ImplicitFirst false
    · have hcontents : opens = true ∧ ¬ contents.ImplicitFirst true := by
        by_contra hnot
        refine hfirst ⟨fun hopens => ?_, hrest⟩
        by_contra hcontents
        exact hnot ⟨hopens, hcontents⟩
      obtain ⟨x, hx, himplicit⟩ := ihc (loc.child name.chars) hcontents.2
      refine ⟨x, ?_, himplicit⟩
      rw [preorder, if_pos hcontents.1]
      exact List.mem_cons_of_mem _ (List.mem_append_left _ hx)
    · obtain ⟨x, hx, himplicit⟩ := ih loc hrest
      exact ⟨x, List.mem_cons_of_mem _ (List.mem_append_right _ hx), himplicit⟩

/-- Nothing is met after something inside it. -/
theorem preorder_pairwise (hfirst : l.ImplicitFirst lead) (hopen : l.AllOpen)
    (hdist : l.Distinct) : (l.preorder lead loc).Pairwise fun x y => ¬ x.Within y := by
  induction l generalizing loc lead with
  | nil => exact .nil
  | implicit parent known rest ih =>
    rw [preorder, if_pos hfirst.1]
    exact ih hfirst.2 hopen hdist
  | file name known rest ih =>
    refine List.pairwise_cons.mpr ⟨fun y hy => ?_, ih hfirst hopen hdist.2⟩
    have hfirst : rest.ImplicitFirst false := hfirst
    obtain ⟨n, hn, hwithin⟩ := ((mem_preorder hfirst hopen).mp hy).within
    exact (Location.Within.refl _).not_within_of_ne hwithin fun heq => hdist.1 (heq ▸ hn)
  | dir name known opens contents rest ihc ih =>
    obtain ⟨hopens, hopenc, hopenr⟩ := hopen
    obtain ⟨hnotmem, hdistc, hdistr⟩ := hdist
    have hcontents : ∀ x : Location, x ∈ contents.preorder true (loc.child name.chars) →
        ∃ n, x.Within ((loc.child name.chars).child n) := by
      intro x hx
      obtain ⟨n, -, hwithin⟩ := ((mem_preorder (hfirst.1 hopens) hopenc).mp hx).within
      exact ⟨n, hwithin⟩
    have hrest : ∀ x : Location, x.Within (loc.child name.chars) → ∀ y ∈ rest.preorder false loc,
        ¬ x.Within y := by
      intro x hx y hy
      obtain ⟨n, hn, hwithin⟩ := ((mem_preorder hfirst.2 hopenr).mp hy).within
      exact hx.not_within_of_ne hwithin fun heq => hnotmem (heq ▸ hn)
    rw [preorder, if_pos hopens]
    refine List.pairwise_cons.mpr ⟨fun y hy => ?_, List.pairwise_append.mpr
      ⟨ihc (hfirst.1 hopens) hopenc hdistc, ih hfirst.2 hopenr hdistr, fun x hx y hy => ?_⟩⟩
    · rcases List.mem_append.mp hy with hy | hy
      · obtain ⟨n, hwithin⟩ := hcontents y hy
        exact hwithin.not_within_child
      · exact hrest _ (.refl _) y hy
    · obtain ⟨n, hwithin⟩ := hcontents x hx
      exact hrest x hwithin.of_child y hy

/-- **The order enumerates the tree** where implicit entries come first. -/
theorem preorder_enumerates (hfirst : l.ImplicitFirst true) (hopen : l.AllOpen)
    (hdist : l.Distinct) : l.Enumerates loc (l.preorder true loc) where
  once := by
    refine (preorder_pairwise hfirst hopen hdist).imp ?_
    rintro x _ hnot rfl
    exact hnot (Location.Within.refl x)
  complete _ := mem_preorder hfirst hopen
  before := preorder_pairwise hfirst hopen hdist
  explicit _ hx := ((mem_preorder hfirst hopen).mp hx).not_implicit

end FsListing

/-! ### The traversal with a stack -/

/-- What a traversal has left: the listing from the current entry on, and below it what is left of
the directories it came through. -/
abbrev Cursor := List (Location × FsListing)

namespace Cursor

/-- Leave the directories that have ended. -/
def settle : Cursor → Cursor
  | [] => []
  | (_, .nil) :: c => settle c
  | c => c

/-- Move to the next entry. -/
def next : Cursor → Cursor
  | (loc, .file _ _ rest) :: c => settle ((loc, rest) :: c)
  | (loc, .dir name _ opens contents rest) :: c =>
    settle ((loc.child name.chars, if opens then contents.dropImplicit else .nil) ::
      (loc, rest) :: c)
  | c => c

/-- The entries that are left, in the order they are met. -/
def order : Cursor → List Location
  | [] => []
  | (loc, l) :: c => l.preorder false loc ++ order c

variable {c : Cursor} {loc : Location} {l : FsListing}

theorem order_settle (c : Cursor) : c.settle.order = c.order := by
  induction c with
  | nil => rfl
  | cons level c ih =>
    obtain ⟨loc, l⟩ := level
    cases l with
    | nil => exact ih
    | implicit | file | dir => rfl

/-- What holds of the listings, and of what is left of them when their first entry is passed, holds
after the move to the next entry. -/
theorem next_all {P : FsListing → Prop} (hnil : P .nil)
    (hfile : ∀ name known rest, P (.file name known rest) → P rest)
    (hdir : ∀ name known opens contents rest, P (.dir name known opens contents rest) →
      (opens = true → P contents.dropImplicit) ∧ P rest)
    (h : ∀ level ∈ c, P level.2) : ∀ level ∈ c.next, P level.2 := by
  have hsettle : ∀ c : Cursor, (∀ level ∈ c, P level.2) → ∀ level ∈ c.settle, P level.2 := by
    intro c hc
    induction c with
    | nil => exact hc
    | cons level c ih =>
      obtain ⟨loc, l⟩ := level
      cases l with
      | nil => exact ih fun level hlevel => hc level (List.mem_cons_of_mem _ hlevel)
      | implicit | file | dir => exact hc
  cases c with
  | nil => exact h
  | cons level c =>
    obtain ⟨loc, l⟩ := level
    have hl : P l := h _ List.mem_cons_self
    have hc : ∀ level ∈ c, P level.2 := fun level hlevel => h level (List.mem_cons_of_mem _ hlevel)
    cases l with
    | nil => exact h
    | implicit => exact h
    | file name known rest =>
      exact hsettle _ (List.forall_mem_cons.mpr ⟨hfile _ _ _ hl, hc⟩)
    | dir name known opens contents rest =>
      obtain ⟨hcontents, hrest⟩ := hdir _ _ _ _ _ hl
      refine hsettle _ (List.forall_mem_cons.mpr ⟨?_, List.forall_mem_cons.mpr ⟨hrest, hc⟩⟩)
      cases opens with
      | false => exact hnil
      | true => exact hcontents rfl

/-- **The next entry** is the first of the rest. -/
theorem order_next (loc : Location) (c : Cursor) (hl : l ≠ .nil) (hnot : ¬ l.StartsImplicit) :
    ∃ x, order ((loc, l) :: c) = x :: order (next ((loc, l) :: c)) := by
  cases l with
  | nil => exact absurd rfl hl
  | implicit parent known rest => exact absurd trivial hnot
  | file name known rest =>
    refine ⟨loc.child name.chars, ?_⟩
    rw [next, order_settle]
    rfl
  | dir name known opens contents rest =>
    refine ⟨loc.child name.chars, ?_⟩
    rw [next, order_settle, order, order, order, FsListing.preorder]
    cases opens with
    | false => rfl
    | true => rw [if_pos rfl, if_pos rfl, FsListing.preorder_dropImplicit, List.cons_append,
        List.append_assoc]

end Cursor

end VeritableLasagna
