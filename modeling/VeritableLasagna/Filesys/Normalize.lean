import VeritableLasagna.Filesys.Path

/-!
# Normalised paths

`vlFSPathNormalize` rewrites a path in four passes: it turns every run of separators, native or exotic,
into one native separator, splits the rest into components, takes out `.` and what `..` cancels, and puts
the components that are left together again. What a path denotes, whichever separators it is written with,
is its **lexical location** (`lexicalLocation`).

Two kinds of paths come out as others than they went in:

* Whether a path is absolute is read off its first character as it was, so that an exotic separator at its
  start is lost.
* A `..` with nothing before it to cancel is dropped, also from a relative path.
-/

namespace VeritableLasagna

/-- `VL_EXOTIC_PATH_SEPARATOR_CHAR`. -/
def vlExoticPathSeparator : Char := '\\'

/-- A separator of either kind. -/
def isPathSeparator (c : Char) : Bool := c == vlExoticPathSeparator || c == vlNativePathSeparator

/-! ### The passes -/

/-- The first pass: a separator is written if the last character was none. -/
def collapseSeparators : Bool → List Char → List Char
  | _, [] => []
  | lastWasSep, c :: origPath =>
    if isPathSeparator c then
      if lastWasSep then collapseSeparators true origPath
      else vlNativePathSeparator :: collapseSeparators true origPath
    else c :: collapseSeparators false origPath

/-- The string at the start of a block, up to its terminator. -/
def stringOf (block : List Char) : List Char := block.takeWhile (· ≠ '\x00')

/-- The components on hand after one more. -/
def foldComponent (components : List (List Char)) (component : List Char) : List (List Char) :=
  if component = ['.'] then components
  else if component = ['.', '.'] then components.dropLast
  else components ++ [component]

/-- The second pass, for one component. Their count is an `int`. -/
def countComponent (components : List (List Char)) (component : List Char) :
    Except Fault (List (List Char)) :=
  let components := foldComponent components component
  if components.length < 2 ^ 31 then .ok components else .error .signedOverflow

/-- The last passes: the string that is built of the components. -/
def rebuildPath (absolute : Bool) (components : List (List Char)) : List Char :=
  let result := (if absolute then [vlNativePathSeparator] else []) ++
    [vlNativePathSeparator].intercalate components
  if result = [] ∧ ¬ absolute then ['.'] else result

/-- `vlFSPathNormalize`, of a path whose block holds the characters `origPath`. The tokens of `strtok` are
the components of the string in the temporary block. -/
def vlFSPathNormalize (origPath : List Char) : Except Fault (List Char) := do
  let tempPath := collapseSeparators false origPath ++ ['\x00']
  let components ← (pathComponents (stringOf tempPath)).foldlM countComponent []
  return rebuildPath (origPath.head? = some vlNativePathSeparator) components

/-! ### Lexical resolution -/

/-- One step of lexical resolution: `..` cancels the name before it. Where there is none it stays at the
root, but leads further up from a relative path. -/
def resolveComponent (absolute : Bool) (resolved : List (List Char)) (component : List Char) :
    List (List Char) :=
  if component = ['.'] then resolved
  else if component = ['.', '.'] then
    if resolved = [] ∨ resolved.getLast? = some ['.', '.'] then
      if absolute then resolved else resolved ++ [component]
    else resolved.dropLast
  else resolved ++ [component]

/-- The components between separators of either kind. -/
def lexicalComponents (path : List Char) : List (List Char) :=
  (path.splitOnP isPathSeparator).filter (· ≠ [])

/-- A path is absolute if it starts with a separator of either kind. -/
def isLexicallyAbsolute (path : List Char) : Bool := path.head?.any isPathSeparator

/-- **What a path denotes**, by its characters alone. -/
def lexicalLocation (path : List Char) : Location :=
  ⟨isLexicallyAbsolute path,
    (lexicalComponents path).foldl (resolveComponent (isLexicallyAbsolute path)) []⟩

/-- The parts of a path between its native separators, without the one it starts with. -/
def pathParts (path : List Char) : List (List Char) :=
  if path = [vlNativePathSeparator] then []
  else
    (if path.head? = some vlNativePathSeparator then path.tail else path).splitOnP
      (· == vlNativePathSeparator)

/-- **A normalised path** has no empty part, no `.` unless it is all there is, no `..` behind a name, and
native separators only. -/
structure NormalisedPath (path : List Char) : Prop where
  parts_ne_nil : ∀ part ∈ pathParts path, part ≠ []
  parts_ne_dot : ∀ part ∈ pathParts path, part = ['.'] → path = ['.']
  parts_chain : (pathParts path).IsChain fun part next => next = ['.', '.'] → part = ['.', '.']
  not_exotic : vlExoticPathSeparator ∉ path

/-- A string that a terminator can end. -/
structure PathString where
  chars : List Char
  not_mem : '\x00' ∉ chars

/-- **What a normalised form of a path is.** In its block, there may be anything behind the terminator. -/
structure IsNormalisation (s : PathString) (path : List Char) : Prop where
  absolute : path.head? = some vlNativePathSeparator ↔ isLexicallyAbsolute s.chars = true
  location : lexicalLocation path = lexicalLocation s.chars
  normalised : NormalisedPath path
  again : ∀ rest', vlFSPathNormalize (path ++ '\x00' :: rest') = .ok path

/-- **What normalising a path has to do**, with `rest` behind its terminator. -/
def NormalizesWell (s : PathString) (rest : List Char) : Prop :=
  Returns (vlFSPathNormalize (s.chars ++ '\x00' :: rest)) (IsNormalisation s)

/-- At no time are there more components on hand than an `int` counts. -/
def FewComponents (components : List (List Char)) : Prop :=
  ∀ n, ((components.take n).foldl foldComponent []).length < 2 ^ 31

/-! ### The first pass -/

section Collapse

variable {s rest : List Char}

/-- The terminator ends a run of separators, and is copied. -/
theorem collapseSeparators_append_nul (last : Bool) (s rest : List Char) :
    collapseSeparators last (s ++ '\x00' :: rest) =
      collapseSeparators last s ++ '\x00' :: collapseSeparators false rest := by
  induction s generalizing last with
  | nil =>
    rw [List.nil_append]
    cases last <;> rfl
  | cons c s ih =>
    rw [List.cons_append, collapseSeparators, collapseSeparators]
    split_ifs
    · exact ih true
    · rw [ih true]
      rfl
    · rw [ih false]
      rfl

theorem nul_not_mem_collapseSeparators {last : Bool} (h : '\x00' ∉ s) :
    '\x00' ∉ collapseSeparators last s := by
  induction s generalizing last with
  | nil => exact List.not_mem_nil
  | cons c s ih =>
    rw [List.mem_cons, not_or] at h
    rw [collapseSeparators]
    split_ifs
    · exact ih h.2
    · rw [List.mem_cons, not_or]
      exact ⟨by decide, ih h.2⟩
    · rw [List.mem_cons, not_or]
      exact ⟨h.1, ih h.2⟩

theorem stringOf_append_nul (h : '\x00' ∉ s) : stringOf (s ++ '\x00' :: rest) = s := by
  rw [stringOf, List.takeWhile_append_of_pos, List.takeWhile_cons_of_neg (by simp), List.append_nil]
  intro c hc
  rw [decide_eq_true_eq]
  rintro rfl
  exact h hc

/-- The string in the temporary block. -/
theorem stringOf_temp (h : '\x00' ∉ s) :
    stringOf (collapseSeparators false (s ++ '\x00' :: rest) ++ ['\x00']) = collapseSeparators false s := by
  rw [collapseSeparators_append_nul, List.append_assoc, List.cons_append]
  exact stringOf_append_nul (nul_not_mem_collapseSeparators h)

/-- Two splits agree in their first piece, and beyond it up to empty pieces. -/
def SameSplit (pieces pieces' : List (List Char)) : Prop :=
  ∃ piece rest rest', pieces = piece :: rest ∧ pieces' = piece :: rest' ∧
    rest.filter (· ≠ []) = rest'.filter (· ≠ [])

theorem SameSplit.filter {pieces pieces' : List (List Char)} (h : SameSplit pieces pieces') :
    pieces.filter (· ≠ []) = pieces'.filter (· ≠ []) := by
  obtain ⟨piece, rest, rest', rfl, rfl, hrest⟩ := h
  rw [List.filter_cons, List.filter_cons, hrest]

theorem splitOnP_cons_of_sep {p : Char → Bool} {c : Char} (hc : p c = true) (s : List Char) :
    (c :: s).splitOnP p = [] :: s.splitOnP p := by
  rw [List.splitOnP_cons_eq_if_modifyHead, if_pos hc]

theorem splitOnP_cons_of_not_sep {p : Char → Bool} {c : Char} (hc : p c = false) (s : List Char) :
    (c :: s).splitOnP p = (s.splitOnP p).modifyHead (c :: ·) := by
  rw [List.splitOnP_cons_eq_if_modifyHead, if_neg (by rw [hc]; exact Bool.false_ne_true)]

theorem native_ne_of_not_sep {c : Char} (hc : isPathSeparator c = false) :
    (c == vlNativePathSeparator) = false := (Bool.or_eq_false_iff.mp hc).2

/-- **The first pass leaves the components**: a separator in front of the string makes no difference to
them, and behind another character the first piece goes on. -/
theorem splitOnP_collapse (s : List Char) :
    SameSplit ((collapseSeparators false s).splitOnP (· == vlNativePathSeparator))
      (s.splitOnP isPathSeparator) ∧
    pathComponents (collapseSeparators true s) = lexicalComponents s := by
  induction s with
  | nil => exact ⟨⟨[], [], [], rfl, rfl, rfl⟩, rfl⟩
  | cons c s ih =>
    obtain ⟨hsame, hcomponents⟩ := ih
    by_cases hc : isPathSeparator c = true
    · rw [collapseSeparators, collapseSeparators, if_pos hc, if_pos hc, if_neg Bool.false_ne_true, if_pos rfl]
      have hskip : lexicalComponents (c :: s) = lexicalComponents s := by
        rw [lexicalComponents, splitOnP_cons_of_sep hc]
        rfl
      refine ⟨⟨[], _, _, splitOnP_cons_of_sep (by decide) _, splitOnP_cons_of_sep hc s, hcomponents⟩, ?_⟩
      rw [hskip]
      exact hcomponents
    · rw [Bool.not_eq_true] at hc
      have hcons : SameSplit
          ((c :: collapseSeparators false s).splitOnP (· == vlNativePathSeparator))
          ((c :: s).splitOnP isPathSeparator) := by
        obtain ⟨piece, rest, rest', hpieces, hpieces', hrest⟩ := hsame
        rw [splitOnP_cons_of_not_sep (p := (· == vlNativePathSeparator)) (native_ne_of_not_sep hc),
          splitOnP_cons_of_not_sep hc, hpieces, hpieces']
        exact ⟨c :: piece, rest, rest', rfl, rfl, hrest⟩
      rw [collapseSeparators, collapseSeparators, if_neg (by rw [hc]; exact Bool.false_ne_true),
        if_neg (by rw [hc]; exact Bool.false_ne_true)]
      exact ⟨hcons, hcons.filter⟩

theorem pathComponents_collapse (s : List Char) :
    pathComponents (collapseSeparators false s) = lexicalComponents s := (splitOnP_collapse s).1.filter

end Collapse

/-! ### Names -/

/-- A component that the second pass keeps. -/
structure IsName (component : List Char) : Prop where
  ne_nil : component ≠ []
  not_sep : ∀ c ∈ component, isPathSeparator c = false
  ne_dot : component ≠ ['.']
  ne_dotdot : component ≠ ['.', '.']

section Names

variable {components : List (List Char)} {s : List Char}

/-- The pieces of a split are of the characters that are no separators. -/
theorem of_mem_splitOnP {p : Char → Bool} {piece : List Char} (h : piece ∈ s.splitOnP p) :
    ∀ x ∈ piece, x ∈ s ∧ p x = false := by
  induction s generalizing piece with
  | nil =>
    rw [List.splitOnP_nil, List.mem_singleton] at h
    rw [h]
    exact fun x hx => absurd hx List.not_mem_nil
  | cons c s ih =>
    have hrest : ∀ piece' ∈ s.splitOnP p, ∀ x ∈ piece', x ∈ c :: s ∧ p x = false :=
      fun piece' hpiece x hx => (ih hpiece x hx).imp_left (List.mem_cons_of_mem c)
    by_cases hc : p c = true
    · rw [splitOnP_cons_of_sep hc, List.mem_cons] at h
      rcases h with rfl | h
      · exact fun x hx => absurd hx List.not_mem_nil
      · exact hrest piece h
    · rw [Bool.not_eq_true] at hc
      obtain ⟨first, others, hsplit⟩ := List.exists_cons_of_ne_nil (List.splitOnP_ne_nil p s)
      rw [splitOnP_cons_of_not_sep hc, hsplit, List.modifyHead_cons, List.mem_cons] at h
      rw [hsplit] at hrest
      rcases h with rfl | h
      · intro x hx
        rcases List.mem_cons.mp hx with rfl | hx
        · exact ⟨List.mem_cons_self, hc⟩
        · exact hrest first List.mem_cons_self x hx
      · exact hrest piece (List.mem_cons_of_mem _ h)

/-- **The second pass keeps** what is neither `.` nor `..`. -/
theorem forall_mem_foldComponent {Q : List Char → Prop} {kept : List (List Char)}
    (hs : ∀ c ∈ components, c ≠ ['.'] → c ≠ ['.', '.'] → Q c) (hkept : ∀ c ∈ kept, Q c) :
    ∀ c ∈ components.foldl foldComponent kept, Q c := by
  induction components generalizing kept with
  | nil => exact hkept
  | cons component components ih =>
    refine ih (fun c hc => hs c (List.mem_cons_of_mem _ hc)) fun c hc => ?_
    rw [foldComponent] at hc
    split_ifs at hc with hdot hdotdot
    · exact hkept c hc
    · exact hkept c (List.mem_of_mem_dropLast hc)
    · rcases List.mem_append.mp hc with hc | hc
      · exact hkept c hc
      · obtain rfl := List.mem_singleton.mp hc
        exact hs c List.mem_cons_self hdot hdotdot

theorem of_mem_lexicalComponents {c : List Char} (h : c ∈ lexicalComponents s) :
    c ≠ [] ∧ ∀ x ∈ c, x ∈ s ∧ isPathSeparator x = false := by
  rw [lexicalComponents, List.mem_filter, decide_eq_true_eq] at h
  exact ⟨h.2, of_mem_splitOnP h.1⟩

/-- **Names are folded to themselves.** -/
theorem foldl_foldComponent_names (h : ∀ c ∈ components, IsName c) :
    ∀ kept, components.foldl foldComponent kept = kept ++ components := by
  induction components with
  | nil => exact fun kept => (List.append_nil kept).symm
  | cons component components ih =>
    intro kept
    have hname := h component List.mem_cons_self
    rw [List.foldl_cons, foldComponent, if_neg hname.ne_dot, if_neg hname.ne_dotdot,
      ih (fun c hc => h c (List.mem_cons_of_mem _ hc)), List.append_assoc, List.singleton_append]

/-- **Putting pieces together and taking them apart** gives them back. -/
theorem splitOnP_intercalate {p : Char → Bool} (hp : p vlNativePathSeparator = true) (hne : components ≠ [])
    (h : ∀ c ∈ components, ∀ x ∈ c, p x = false) :
    ([vlNativePathSeparator].intercalate components).splitOnP p = components := by
  induction components with
  | nil => exact absurd rfl hne
  | cons component components ih =>
    cases components with
    | nil =>
      rw [List.intercalate_singleton]
      exact List.splitOnP_eq_singleton (h component List.mem_cons_self)
    | cons next components =>
      rw [List.intercalate_cons_cons, List.append_assoc, List.singleton_append,
        List.splitOnP_append_cons_of_forall_mem (h component List.mem_cons_self) _ hp,
        ih (List.cons_ne_nil _ _) fun c hc => h c (List.mem_cons_of_mem _ hc)]

theorem lexicalComponents_intercalate (h : ∀ c ∈ components, IsName c) :
    lexicalComponents ([vlNativePathSeparator].intercalate components) = components := by
  by_cases hne : components = []
  · rw [hne]
    rfl
  · rw [lexicalComponents, splitOnP_intercalate (by decide) hne fun c hc => (h c hc).not_sep]
    exact List.filter_eq_self.mpr fun c hc => decide_eq_true (h c hc).ne_nil

/-- What is put together of names starts with no separator. -/
theorem head?_intercalate (h : ∀ c ∈ components, IsName c) (hne : components ≠ []) :
    ∃ x, ([vlNativePathSeparator].intercalate components).head? = some x ∧ isPathSeparator x = false := by
  obtain ⟨component, rest, rfl⟩ := List.exists_cons_of_ne_nil hne
  have hname := h component List.mem_cons_self
  obtain ⟨x, xs, rfl⟩ := List.exists_cons_of_ne_nil hname.ne_nil
  refine ⟨x, ?_, hname.not_sep x List.mem_cons_self⟩
  cases rest with
  | nil => rw [List.intercalate_singleton]; rfl
  | cons next rest => rw [List.intercalate_cons_cons, List.append_assoc]; rfl

end Names

/-! ### Rebuilt paths -/

section Rebuild

variable {components : List (List Char)} {absolute : Bool}

theorem rebuildPath_absolute : rebuildPath true components =
    vlNativePathSeparator :: [vlNativePathSeparator].intercalate components := by
  rw [rebuildPath]
  exact if_neg fun h => List.cons_ne_nil _ _ h.1

theorem rebuildPath_relative (hne : components ≠ []) (h : ∀ c ∈ components, IsName c) :
    rebuildPath false components = [vlNativePathSeparator].intercalate components := by
  rw [rebuildPath]
  refine if_neg fun hnil => ?_
  obtain ⟨x, hx, -⟩ := head?_intercalate h hne
  have hempty : [vlNativePathSeparator].intercalate components = [] := hnil.1
  rw [hempty] at hx
  cases hx

/-- A rebuilt path starts with a native separator if it is meant to be absolute. -/
theorem head?_rebuildPath (h : ∀ c ∈ components, IsName c) :
    (rebuildPath absolute components).head? = some vlNativePathSeparator ↔ absolute = true := by
  cases absolute with
  | true =>
    rw [rebuildPath_absolute]
    exact iff_of_true rfl rfl
  | false =>
    refine iff_of_false (fun hhead => ?_) Bool.false_ne_true
    by_cases hne : components = []
    · rw [hne] at hhead
      exact absurd hhead (by decide)
    · obtain ⟨x, hx, hsep⟩ := head?_intercalate h hne
      rw [rebuildPath_relative hne h, hx, Option.some_inj] at hhead
      rw [hhead] at hsep
      exact absurd hsep (by decide)

/-- It starts with a separator of either kind only then. -/
theorem isLexicallyAbsolute_rebuildPath (h : ∀ c ∈ components, IsName c) :
    isLexicallyAbsolute (rebuildPath absolute components) = absolute := by
  cases absolute with
  | true =>
    rw [rebuildPath_absolute]
    rfl
  | false =>
    by_cases hne : components = []
    · rw [hne]
      rfl
    · obtain ⟨x, hx, hsep⟩ := head?_intercalate h hne
      rw [rebuildPath_relative hne h, isLexicallyAbsolute, hx]
      exact hsep

/-- **The components of a rebuilt path** are those it was built of, but for a single dot. -/
theorem lexicalComponents_rebuildPath (h : ∀ c ∈ components, IsName c) :
    lexicalComponents (rebuildPath absolute components) = components ∨
      components = [] ∧ lexicalComponents (rebuildPath absolute components) = [['.']] := by
  cases absolute with
  | true =>
    refine Or.inl ?_
    rw [rebuildPath_absolute, lexicalComponents, splitOnP_cons_of_sep (by decide)]
    exact lexicalComponents_intercalate h
  | false =>
    by_cases hne : components = []
    · rw [hne]
      exact Or.inr ⟨rfl, by decide⟩
    · rw [rebuildPath_relative hne h]
      exact Or.inl (lexicalComponents_intercalate h)

/-- They fold to the same. -/
theorem foldl_rebuildPath {f : List (List Char) → List Char → List (List Char)}
    (hf : ∀ kept, f kept ['.'] = kept) (h : ∀ c ∈ components, IsName c) :
    (lexicalComponents (rebuildPath absolute components)).foldl f [] = components.foldl f [] := by
  have hcases : lexicalComponents (rebuildPath absolute components) = components ∨
      components = [] ∧ lexicalComponents (rebuildPath absolute components) = [['.']] :=
    lexicalComponents_rebuildPath h
  rcases hcases with hsame | ⟨rfl, hdot⟩
  · rw [hsame]
  · rw [hdot]
    exact hf []

theorem intercalate_ne_nil (h : ∀ c ∈ components, IsName c) (hne : components ≠ []) :
    [vlNativePathSeparator].intercalate components ≠ [] := by
  obtain ⟨x, hx, -⟩ := head?_intercalate h hne
  intro hnil
  rw [hnil] at hx
  cases hx

/-- **The parts of a rebuilt path** are its components, but for a single dot. -/
theorem pathParts_rebuildPath (h : ∀ c ∈ components, IsName c) :
    pathParts (rebuildPath absolute components) = components ∨ rebuildPath absolute components = ['.'] := by
  by_cases hne : components = []
  · subst hne
    cases absolute with
    | true => exact Or.inl (by decide)
    | false => exact Or.inr (by decide)
  refine Or.inl ?_
  have hsplit := splitOnP_intercalate (p := (· == vlNativePathSeparator)) (by decide) hne
    fun c hc x hx => native_ne_of_not_sep ((h c hc).not_sep x hx)
  cases absolute with
  | true =>
    have hroot : vlNativePathSeparator :: [vlNativePathSeparator].intercalate components ≠
        [vlNativePathSeparator] := fun heq => intercalate_ne_nil h hne (List.cons.inj heq).2
    rw [rebuildPath_absolute, pathParts, if_neg hroot, if_pos (by rfl)]
    exact hsplit
  | false =>
    have hhead : (rebuildPath false components).head? ≠ some vlNativePathSeparator :=
      mt (head?_rebuildPath h).mp Bool.false_ne_true
    have hroot : rebuildPath false components ≠ [vlNativePathSeparator] := fun heq => hhead (by rw [heq]; rfl)
    rw [pathParts, if_neg hroot, if_neg hhead, rebuildPath_relative hne h]
    exact hsplit

theorem not_mem_intercalate {x : Char} (hx : x ≠ vlNativePathSeparator) (h : ∀ c ∈ components, x ∉ c) :
    x ∉ [vlNativePathSeparator].intercalate components := by
  induction components with
  | nil => exact List.not_mem_nil
  | cons component components ih =>
    have hrest := ih fun c hc => h c (List.mem_cons_of_mem _ hc)
    cases components with
    | nil =>
      rw [List.intercalate_singleton]
      exact h component List.mem_cons_self
    | cons next components =>
      rw [List.intercalate_cons_cons, List.mem_append, List.mem_append, List.mem_singleton, not_or, not_or]
      exact ⟨⟨h component List.mem_cons_self, hx⟩, hrest⟩

/-- A rebuilt path has the characters of its components, native separators and the single dot. -/
theorem not_mem_rebuildPath {x : Char} (hx : x ≠ vlNativePathSeparator) (hdot : x ≠ '.')
    (h : ∀ c ∈ components, IsName c) (hmem : ∀ c ∈ components, x ∉ c) :
    x ∉ rebuildPath absolute components := by
  cases absolute with
  | true =>
    rw [rebuildPath_absolute, List.mem_cons, not_or]
    exact ⟨hx, not_mem_intercalate hx hmem⟩
  | false =>
    by_cases hne : components = []
    · rw [hne]
      exact fun h => hdot (List.mem_singleton.mp h)
    · rw [rebuildPath_relative hne h]
      exact not_mem_intercalate hx hmem

/-- **A rebuilt path is normalised.** -/
theorem normalisedPath_rebuildPath (h : ∀ c ∈ components, IsName c) :
    NormalisedPath (rebuildPath absolute components) := by
  have hexotic : vlExoticPathSeparator ∉ rebuildPath absolute components :=
    not_mem_rebuildPath (by decide) (by decide) h fun c hc hmem =>
      absurd ((h c hc).not_sep _ hmem) (by decide)
  have hcases : pathParts (rebuildPath absolute components) = components ∨
      rebuildPath absolute components = ['.'] := pathParts_rebuildPath h
  rcases hcases with hparts | hdot
  · refine ⟨?_, ?_, ?_, hexotic⟩
    · rw [hparts]
      exact fun part hpart => (h part hpart).ne_nil
    · rw [hparts]
      exact fun part hpart heq => absurd heq (h part hpart).ne_dot
    · rw [hparts]
      exact (List.pairwise_of_forall_mem_list fun _ _ next hnext heq =>
        absurd heq (h next hnext).ne_dotdot).isChain
  · rw [hdot]
    exact ⟨by decide, by decide, by decide, by decide⟩

end Rebuild

/-! ### Folding and resolving -/

section Resolve

variable {components kept : List (List Char)} {component : List Char}

theorem dotdot_not_mem_foldComponent (h : ['.', '.'] ∉ kept) : ['.', '.'] ∉ foldComponent kept component := by
  rw [foldComponent]
  split_ifs with hdot hdotdot
  · exact h
  · exact fun hmem => h (List.mem_of_mem_dropLast hmem)
  · rw [List.mem_append, List.mem_singleton, not_or]
    exact ⟨h, Ne.symm hdotdot⟩

/-- The two differ only where `..` has no name before it. -/
theorem resolveComponent_eq {absolute : Bool} (h : ['.', '.'] ∉ kept)
    (hup : absolute = true ∨ kept ≠ [] ∨ component ≠ ['.', '.']) :
    resolveComponent absolute kept component = foldComponent kept component := by
  have hlast : kept.getLast? ≠ some ['.', '.'] := fun hlast => h (List.mem_of_getLast? hlast)
  rw [resolveComponent, foldComponent]
  split_ifs with hdot hdotdot hnil habs
  · rfl
  · obtain rfl := hnil.resolve_right hlast
    rfl
  · rcases hup with hup | hup | hup
    · exact absurd hup habs
    · exact absurd (hnil.resolve_right hlast) hup
    · exact absurd hdotdot hup
  · rfl
  · rfl

/-- **At the root**, the second pass resolves a path. -/
theorem foldl_resolve_absolute (h : ['.', '.'] ∉ kept) :
    components.foldl (resolveComponent true) kept = components.foldl foldComponent kept := by
  induction components generalizing kept with
  | nil => rfl
  | cons component components ih =>
    rw [List.foldl_cons, List.foldl_cons, resolveComponent_eq h (Or.inl rfl)]
    exact ih (dotdot_not_mem_foldComponent h)

/-- A path that once leads further up than where it starts goes on doing so. -/
theorem head?_resolveComponent (h : kept.head? = some ['.', '.']) :
    (resolveComponent false kept component).head? = some ['.', '.'] := by
  obtain ⟨rest, rfl⟩ : ∃ rest, kept = ['.', '.'] :: rest := by
    cases kept with
    | nil => cases h
    | cons first rest => exact ⟨rest, by rw [Option.some_inj.mp h]⟩
  rw [resolveComponent, if_neg Bool.false_ne_true]
  split_ifs with hdot hdotdot hlast
  · rfl
  · rfl
  · cases rest with
    | nil => exact absurd (Or.inr rfl) hlast
    | cons next rest => rfl
  · rfl

/-- **Elsewhere**, it does unless the path leads further up than where it starts. -/
theorem foldl_resolve_relative (h : ['.', '.'] ∉ kept) :
    components.foldl (resolveComponent false) kept = components.foldl foldComponent kept ∨
      (components.foldl (resolveComponent false) kept).head? = some ['.', '.'] := by
  have hstay : ∀ (components kept : List (List Char)), kept.head? = some ['.', '.'] →
      (components.foldl (resolveComponent false) kept).head? = some ['.', '.'] := by
    intro components
    induction components with
    | nil => exact fun kept h => h
    | cons component components ih => exact fun kept h => ih _ (head?_resolveComponent h)
  induction components generalizing kept with
  | nil => exact Or.inl rfl
  | cons component components ih =>
    rw [List.foldl_cons, List.foldl_cons]
    by_cases hup : kept ≠ [] ∨ component ≠ ['.', '.']
    · rw [resolveComponent_eq h (Or.inr hup)]
      exact ih (dotdot_not_mem_foldComponent h)
    · rw [not_or, not_not, not_not] at hup
      obtain ⟨rfl, rfl⟩ := hup
      exact Or.inr (hstay components _ rfl)

theorem dotdot_not_mem_foldl (h : ['.', '.'] ∉ kept) : ['.', '.'] ∉ components.foldl foldComponent kept := by
  induction components generalizing kept with
  | nil => exact h
  | cons component components ih => exact ih (dotdot_not_mem_foldComponent h)

/-- Names resolve to themselves. -/
theorem foldl_resolve_names {absolute : Bool} (h : ∀ c ∈ components, IsName c) :
    components.foldl (resolveComponent absolute) kept = kept ++ components := by
  induction components generalizing kept with
  | nil => exact (List.append_nil kept).symm
  | cons component components ih =>
    have hname := h component List.mem_cons_self
    rw [List.foldl_cons, resolveComponent, if_neg hname.ne_dot, if_neg hname.ne_dotdot,
      ih fun c hc => h c (List.mem_cons_of_mem _ hc), List.append_assoc, List.singleton_append]

end Resolve

/-! ### Counting -/

section Count

variable {components kept : List (List Char)}

/-- **As long as the components on hand can be counted**, counting them makes no difference. -/
theorem foldlM_countComponent
    (h : ∀ n, ((components.take n).foldl foldComponent kept).length < 2 ^ 31) :
    components.foldlM countComponent kept = .ok (components.foldl foldComponent kept) := by
  induction components generalizing kept with
  | nil => rfl
  | cons component components ih =>
    have hone : (foldComponent kept component).length < 2 ^ 31 := h 1
    rw [List.foldlM_cons, countComponent, if_pos hone, ok_bind]
    exact ih fun n => h (n + 1)

/-- **Otherwise the count overflows.** -/
theorem foldlM_countComponent_overflow (hkept : kept.length < 2 ^ 31) {n : ℕ}
    (h : 2 ^ 31 ≤ ((components.take n).foldl foldComponent kept).length) :
    components.foldlM countComponent kept = .error .signedOverflow := by
  induction components generalizing kept n with
  | nil =>
    rw [List.take_nil] at h
    exact absurd h hkept.not_ge
  | cons component components ih =>
    cases n with
    | zero => exact absurd h hkept.not_ge
    | succ n =>
      rw [List.foldlM_cons, countComponent]
      split_ifs with hone
      · exact ih hone h
      · rfl

theorem foldl_foldComponent_names_take (h : ∀ c ∈ components, IsName c) (n : ℕ) :
    (components.take n).foldl foldComponent [] = components.take n := by
  rw [foldl_foldComponent_names fun c hc => h c (List.mem_of_mem_take hc), List.nil_append]

end Count

/-! ### Normalising -/

/-- What the passes make of a path. -/
def normalForm (path : List Char) : List Char :=
  rebuildPath (path.head? = some vlNativePathSeparator)
    ((lexicalComponents path).foldl foldComponent [])

section Normalize

variable (s : PathString) (rest : List Char)

/-- **What the passes compute**, whatever is behind the terminator. -/
theorem vlFSPathNormalize_eq {chars : List Char} (h : '\x00' ∉ chars) (rest : List Char) :
    vlFSPathNormalize (chars ++ '\x00' :: rest) = (do
      let components ← (lexicalComponents chars).foldlM countComponent []
      return rebuildPath (chars.head? = some vlNativePathSeparator) components) := by
  have hhead : (chars ++ '\x00' :: rest).head? = some vlNativePathSeparator ↔
      chars.head? = some vlNativePathSeparator := by
    cases chars with
    | nil => exact iff_of_false (fun h => absurd (Option.some_inj.mp h) (by decide)) nofun
    | cons c cs => exact Iff.rfl
  rw [vlFSPathNormalize, stringOf_temp h, pathComponents_collapse, decide_eq_decide.mpr hhead]

theorem vlFSPathNormalize_of_few {chars : List Char} (h : '\x00' ∉ chars)
    (hfew : FewComponents (lexicalComponents chars)) (rest : List Char) :
    vlFSPathNormalize (chars ++ '\x00' :: rest) = .ok (normalForm chars) := by
  rw [vlFSPathNormalize_eq h, foldlM_countComponent hfew, ok_bind]
  rfl

theorem vlFSPathNormalize_of_many {chars : List Char} (h : '\x00' ∉ chars)
    (hmany : ¬ FewComponents (lexicalComponents chars)) (rest : List Char) :
    vlFSPathNormalize (chars ++ '\x00' :: rest) = .error .signedOverflow := by
  obtain ⟨n, hn⟩ := not_forall.mp hmany
  have hnil : ([] : List (List Char)).length < 2 ^ 31 := Nat.two_pow_pos 31
  rw [vlFSPathNormalize_eq h, foldlM_countComponent_overflow hnil (not_lt.mp hn)]
  rfl

/-- What is left of a path are names. -/
theorem normalForm_names : ∀ c ∈ (lexicalComponents s.chars).foldl foldComponent [], IsName c := by
  refine forall_mem_foldComponent (fun c hc hdot hdotdot => ?_) fun _ hc => absurd hc List.not_mem_nil
  obtain ⟨hne, hsep⟩ := of_mem_lexicalComponents hc
  exact ⟨hne, fun x hx => (hsep x hx).2, hdot, hdotdot⟩

/-- What is left of a path is a path. -/
theorem nul_not_mem_normalForm : '\x00' ∉ normalForm s.chars := by
  refine not_mem_rebuildPath (by decide) (by decide) (normalForm_names s)
    (forall_mem_foldComponent (fun c hc _ _ hnul => ?_) fun _ hc => absurd hc List.not_mem_nil)
  exact s.not_mem ((of_mem_lexicalComponents hc).2 _ hnul).1

/-- What the components of a normalised path fold to. -/
theorem foldl_normalForm {f : List (List Char) → List Char → List (List Char)}
    (hf : ∀ kept, f kept ['.'] = kept) : (lexicalComponents (normalForm s.chars)).foldl f [] =
      ((lexicalComponents s.chars).foldl foldComponent []).foldl f [] :=
  foldl_rebuildPath hf (normalForm_names s)

theorem head?_normalForm : (normalForm s.chars).head? = some vlNativePathSeparator ↔
    s.chars.head? = some vlNativePathSeparator := by
  rw [normalForm, head?_rebuildPath (normalForm_names s), decide_eq_true_iff]

/-- **Normalising a normalised path changes nothing.** -/
theorem normalForm_normalForm : normalForm (normalForm s.chars) = normalForm s.chars := by
  have hnames := normalForm_names s
  have hfold := foldl_normalForm s (f := foldComponent) fun _ => rfl
  rw [foldl_foldComponent_names hnames, List.nil_append] at hfold
  rw [normalForm, hfold, decide_eq_decide.mpr (head?_normalForm s), ← normalForm]

/-- What the normalised path denotes. -/
theorem lexicalLocation_normalForm : lexicalLocation (normalForm s.chars) =
    ⟨s.chars.head? = some vlNativePathSeparator, (lexicalComponents s.chars).foldl foldComponent []⟩ := by
  have hnames := normalForm_names s
  have hfold := foldl_normalForm s
    (f := resolveComponent (s.chars.head? = some vlNativePathSeparator)) fun _ => rfl
  rw [foldl_resolve_names hnames, List.nil_append] at hfold
  have habsolute : isLexicallyAbsolute (normalForm s.chars) =
      decide (s.chars.head? = some vlNativePathSeparator) := isLexicallyAbsolute_rebuildPath hnames
  rw [lexicalLocation, habsolute, hfold]

/-- A normalised path can be normalised. -/
theorem fewComponents_normalForm (h : FewComponents (lexicalComponents s.chars)) :
    FewComponents (lexicalComponents (normalForm s.chars)) := by
  have hnames := normalForm_names s
  have hfew := h (lexicalComponents s.chars).length
  rw [List.take_length] at hfew
  intro n
  have hcases : lexicalComponents (normalForm s.chars) = (lexicalComponents s.chars).foldl foldComponent [] ∨
      (lexicalComponents s.chars).foldl foldComponent [] = [] ∧
        lexicalComponents (normalForm s.chars) = [['.']] := lexicalComponents_rebuildPath hnames
  rcases hcases with hsame | ⟨-, hdot⟩
  · rw [hsame, foldl_foldComponent_names_take hnames]
    exact (List.length_take_le' _ _).trans_lt hfew
  · rw [hdot]
    cases n with
    | zero => exact Nat.two_pow_pos 31
    | succ n =>
      rw [List.take_succ_cons, List.take_nil]
      exact Nat.two_pow_pos 31

theorem isNormalisation_iff (h : FewComponents (lexicalComponents s.chars)) :
    IsNormalisation s (normalForm s.chars) ↔
      s.chars.head? ≠ some vlExoticPathSeparator ∧
        (s.chars.head? = some vlNativePathSeparator ∨
          (lexicalLocation s.chars).components.head? ≠ some ['.', '.']) := by
  have hlocation := lexicalLocation_normalForm s
  have hnot : ['.', '.'] ∉ (lexicalComponents s.chars).foldl foldComponent [] :=
    dotdot_not_mem_foldl List.not_mem_nil
  constructor
  · intro hnormal
    have hsame := hnormal.location
    rw [hlocation] at hsame
    have habsolute := congrArg Location.absolute hsame
    have hcomponents := congrArg Location.components hsame
    refine ⟨fun hexotic => ?_, Or.inr fun hup => ?_⟩
    · have hlexical : isLexicallyAbsolute s.chars = true := by
        rw [isLexicallyAbsolute, hexotic]
        rfl
      rw [lexicalLocation, hlexical, hexotic] at habsolute
      change decide (some vlExoticPathSeparator = some vlNativePathSeparator) = true at habsolute
      exact absurd habsolute (by decide)
    · rw [← hcomponents] at hup
      exact hnot (List.mem_of_head? hup)
  · rintro ⟨hexotic, hup⟩
    have habsolute : isLexicallyAbsolute s.chars = decide (s.chars.head? = some vlNativePathSeparator) := by
      rw [isLexicallyAbsolute]
      cases hhead : s.chars.head? with
      | none => rfl
      | some c =>
        have hc : c ≠ vlExoticPathSeparator := fun hc => hexotic (by rw [hhead, hc])
        rw [Option.any_some, isPathSeparator, beq_eq_false_iff_ne.mpr hc, Bool.false_or]
        by_cases hnative : c = vlNativePathSeparator
        · rw [hnative, beq_self_eq_true, decide_eq_true rfl]
        · rw [beq_eq_false_iff_ne.mpr hnative, decide_eq_false fun h => hnative (Option.some_inj.mp h)]
    have hresolve : (lexicalLocation s.chars).components =
        (lexicalComponents s.chars).foldl foldComponent [] := by
      rw [lexicalLocation, habsolute] at hup ⊢
      by_cases hnative : s.chars.head? = some vlNativePathSeparator
      · rw [decide_eq_true hnative]
        exact foldl_resolve_absolute List.not_mem_nil
      · rw [decide_eq_false hnative] at hup ⊢
        exact (foldl_resolve_relative List.not_mem_nil).resolve_right (hup.resolve_left hnative)
    refine ⟨?_, ?_, normalisedPath_rebuildPath (normalForm_names s), fun rest' => ?_⟩
    · rw [head?_normalForm, habsolute, decide_eq_true_iff]
    · rw [hlocation]
      exact Location.ext habsolute.symm hresolve.symm
    · rw [vlFSPathNormalize_of_few (nul_not_mem_normalForm s) (fewComponents_normalForm s h),
        normalForm_normalForm]

/-- **A path is normalised well** exactly if its components can be counted, it does not start with an
exotic separator and, unless it is absolute, does not lead further up than where it starts. -/
theorem normalizesWell_iff : NormalizesWell s rest ↔
    FewComponents (lexicalComponents s.chars) ∧ s.chars.head? ≠ some vlExoticPathSeparator ∧
      (s.chars.head? = some vlNativePathSeparator ∨
        (lexicalLocation s.chars).components.head? ≠ some ['.', '.']) := by
  by_cases hfew : FewComponents (lexicalComponents s.chars)
  · have heq := vlFSPathNormalize_of_few s.not_mem hfew rest
    rw [and_iff_right hfew, ← isNormalisation_iff s hfew]
    exact ⟨fun h => h.of_ok heq, fun h => ⟨_, heq, h⟩⟩
  · refine iff_of_false ?_ fun h => hfew h.1
    rintro ⟨path, hok, -⟩
    rw [vlFSPathNormalize_of_many s.not_mem hfew] at hok
    cases hok

/-- An exotic separator at the start. -/
theorem not_normalizesWell_exotic : ¬ NormalizesWell ⟨['\\', 'a'], by decide⟩ [] := by
  intro h
  have hok : vlFSPathNormalize ['\\', 'a', '\x00'] = .ok ['a'] := by decide +kernel
  exact absurd ((h.of_ok hok).absolute.mpr (by decide)) (by decide)

end Normalize

end VeritableLasagna
