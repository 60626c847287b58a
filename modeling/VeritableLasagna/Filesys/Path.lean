import VeritableLasagna.Lib.Machine

/-!
# Paths

A path is a string of characters. `vlFSPathJoin` puts a component behind it and `vlFSPathParent`
takes the last one away. What a path denotes is its `Location`: whether it starts at the root, and
its components. Joining a name and taking the parent gives back the location, though not always the
same string: a separator at the end of the path is lost.
-/

namespace VeritableLasagna

/-- `VL_NATIVE_PATH_SEPARATOR_CHAR`. -/
def vlNativePathSeparator : Char := '/'

/-- `vlFSPathJoin`, of a path that has a string and a component that is not `NULL`. -/
def vlFSPathJoin (baseStr component : List Char) : List Char :=
  let hasEndingSeparator := baseStr.getLast? = some vlNativePathSeparator
  let hasStartingSeparator := component.head? = some vlNativePathSeparator
  let destStr :=
    if ¬ hasEndingSeparator ∧ ¬ hasStartingSeparator then baseStr ++ [vlNativePathSeparator]
    else baseStr
  if hasEndingSeparator ∧ hasStartingSeparator then destStr ++ component.tail
  else destStr ++ component

/-- The two loops of `vlFSPathParent`, which move `lastSepPos` down, but not below zero: past
separators (`sep` is true), or past other characters. -/
def vlFSPathSkipBack (pathStr : List Char) (sep : Bool) : ℕ → ℕ
  | 0 => 0
  | lastSepPos + 1 =>
    if decide (pathStr[lastSepPos + 1]? = some vlNativePathSeparator) = sep then
      vlFSPathSkipBack pathStr sep lastSepPos
    else lastSepPos + 1

/-- `vlFSPathParent`, of a path that has a string. The last character of an empty one is read out of
bounds. -/
def vlFSPathParent (pathStr : List Char) : Except Fault (List Char) :=
  let isSeparator (p : ℕ) := pathStr[p]? = some vlNativePathSeparator
  let pathLen := pathStr.length
  if pathLen = 1 ∧ isSeparator 0 then .ok pathStr
  else if pathLen = 0 then .error .outOfBounds
  else
    let lastSepPos := vlFSPathSkipBack pathStr true (pathLen - 1)
    let lastSepPos := vlFSPathSkipBack pathStr false lastSepPos
    if lastSepPos = 0 then
      if isSeparator 0 then .ok [vlNativePathSeparator] else .ok ['.']
    else
      let parentLen := if isSeparator 0 ∧ lastSepPos = 1 then 1 else lastSepPos
      .ok (pathStr.take parentLen)

/-- The name of a file or a directory. -/
structure FileName where
  chars : List Char
  ne_nil : chars ≠ []
  not_mem : vlNativePathSeparator ∉ chars
  ne_dot : chars ≠ ['.']
  ne_dotdot : chars ≠ ['.', '.']
  deriving DecidableEq

/-- A name of one character. -/
def FileName.single (c : Char) (hsep : c ≠ vlNativePathSeparator) (hdot : c ≠ '.') : FileName where
  chars := [c]
  ne_nil := List.cons_ne_nil _ _
  not_mem hmem := hsep (List.mem_singleton.mp hmem).symm
  ne_dot heq := hdot (List.cons.inj heq).1
  ne_dotdot heq := hdot (List.cons.inj heq).1

/-- What a path denotes: the components between its separators, below the root or below the working
directory. -/
@[ext]
structure Location where
  absolute : Bool
  components : List (List Char)
  deriving DecidableEq

/-- The components of a path. -/
def pathComponents (path : List Char) : List (List Char) :=
  (path.splitOnP (· == vlNativePathSeparator)).filter (· ≠ [])

/-- The location of a path. -/
def pathLocation (path : List Char) : Location :=
  ⟨path.head? = some vlNativePathSeparator, pathComponents path⟩

/-- The location of a name in a directory. -/
def Location.child (loc : Location) (name : List Char) : Location :=
  ⟨loc.absolute, loc.components ++ [name]⟩

section Path

variable {path cs ds : List Char} {name : FileName}

/-- A separator separates components. -/
theorem pathComponents_append_cons :
    pathComponents (cs ++ vlNativePathSeparator :: ds) = pathComponents cs ++ pathComponents ds := by
  rw [pathComponents, List.splitOnP_append_cons _ _ (by simp), List.filter_append]
  rfl

theorem pathComponents_nil : pathComponents [] = [] := rfl

/-- A path without a separator is its only component. -/
theorem pathComponents_eq_singleton (hne : cs ≠ []) (hnot : vlNativePathSeparator ∉ cs) :
    pathComponents cs = [cs] := by
  have hsingle : cs.splitOnP (· == vlNativePathSeparator) = [cs] := by
    refine List.splitOnP_eq_singleton fun c hc => ?_
    rw [beq_eq_false_iff_ne]
    rintro rfl
    exact hnot hc
  rw [pathComponents, hsingle, List.filter_cons_of_pos (by simp [hne]), List.filter_nil]

theorem pathComponents_name : pathComponents name.chars = [name.chars] :=
  pathComponents_eq_singleton name.ne_nil name.not_mem

/-- Joining a component puts one separator in front of it. -/
theorem vlFSPathJoin_eq (path : List Char) (hds : vlNativePathSeparator ∉ ds) :
    ∃ cs, vlFSPathJoin path ds = cs ++ vlNativePathSeparator :: ds ∧
      (cs = path ∨ path = cs ++ [vlNativePathSeparator]) := by
  have hhead : ds.head? ≠ some vlNativePathSeparator := fun hhead => hds (List.mem_of_head? hhead)
  rw [vlFSPathJoin]
  by_cases hend : path.getLast? = some vlNativePathSeparator
  · obtain ⟨cs, rfl⟩ := List.getLast?_eq_some_iff.mp hend
    refine ⟨cs, ?_, Or.inr rfl⟩
    simp only [hend, hhead, not_true, false_and, if_false, and_false]
    rw [List.append_assoc, List.singleton_append]
  · refine ⟨path, ?_, Or.inl rfl⟩
    simp only [hend, hhead, not_false_iff, and_self, if_true, if_false]
    rw [List.append_assoc, List.singleton_append]

/-- **Joining a name** denotes the entry of that name. -/
theorem pathLocation_join (hpath : path ≠ []) :
    pathLocation (vlFSPathJoin path name.chars) = (pathLocation path).child name.chars := by
  obtain ⟨cs, hjoin, hcs⟩ := vlFSPathJoin_eq path name.not_mem
  rw [hjoin]
  rcases hcs with rfl | rfl
  · refine Location.ext ?_ ?_
    · simp only [pathLocation, Location.child, List.head?_append_of_ne_nil _ hpath]
    · simp only [pathLocation, Location.child, pathComponents_append_cons, pathComponents_name]
  · refine Location.ext ?_ ?_
    · cases cs with
      | nil => rfl
      | cons c cs => rfl
    · simp only [pathLocation, Location.child, pathComponents_append_cons, pathComponents_name,
        pathComponents_nil, List.append_nil]

theorem vlFSPathSkipBack_le (path : List Char) (sep : Bool) (p : ℕ) : vlFSPathSkipBack path sep p ≤ p := by
  induction p with
  | zero => exact le_rfl
  | succ p ih =>
    rw [vlFSPathSkipBack]
    split_ifs
    · exact Nat.le_succ_of_le ih
    · exact le_rfl

theorem vlFSPathSkipBack_true_of_not {p : ℕ} (h : path[p]? ≠ some vlNativePathSeparator) :
    vlFSPathSkipBack path true p = p := by
  cases p with
  | zero => rfl
  | succ p => rw [vlFSPathSkipBack, if_neg (by simpa using h)]

/-- The second loop stops at the last separator. -/
theorem vlFSPathSkipBack_false {k : ℕ} (hk : k ≤ ds.length)
    (hds : vlNativePathSeparator ∉ ds) :
    vlFSPathSkipBack (cs ++ vlNativePathSeparator :: ds) false (cs.length + k) = cs.length := by
  induction k with
  | zero =>
    cases hlen : cs.length with
    | zero => rfl
    | succ n =>
      rw [Nat.add_zero, vlFSPathSkipBack, if_neg]
      rw [← hlen, List.getElem?_append_right le_rfl, Nat.sub_self]
      simp
  | succ k ih =>
    rw [← Nat.add_assoc, vlFSPathSkipBack, if_pos, ih (by omega)]
    rw [List.getElem?_append_right (by omega)]
    have hindex : cs.length + k + 1 - cs.length = k + 1 := by omega
    rw [hindex, List.getElem?_cons_succ]
    refine decide_eq_false fun hsep => hds (List.mem_of_getElem? hsep)

/-- **The parent of a join** is the path, without the separator the join did not need. -/
theorem vlFSPathParent_append (hds : ds ≠ []) (hnot : vlNativePathSeparator ∉ ds) :
    vlFSPathParent (cs ++ vlNativePathSeparator :: ds) =
      .ok (if cs = [] then [vlNativePathSeparator] else cs) := by
  have hpos := List.length_pos_of_ne_nil hds
  have hlen : (cs ++ vlNativePathSeparator :: ds).length = cs.length + ds.length + 1 := by
    rw [List.length_append, List.length_cons]
    omega
  have hlast : (cs ++ vlNativePathSeparator :: ds)[cs.length + ds.length]? ≠
      some vlNativePathSeparator := by
    obtain ⟨k, hk⟩ := Nat.exists_eq_succ_of_ne_zero hpos.ne'
    rw [List.getElem?_append_right (by omega), Nat.add_sub_cancel_left, hk,
      List.getElem?_cons_succ]
    exact fun hsep => hnot (List.mem_of_getElem? hsep)
  rw [vlFSPathParent]
  simp only [hlen, Nat.add_sub_cancel, vlFSPathSkipBack_true_of_not hlast,
    vlFSPathSkipBack_false le_rfl hnot]
  rw [if_neg (by omega), if_neg (by omega)]
  cases cs with
  | nil => rfl
  | cons c cs =>
    have htake : (if (c :: cs ++ vlNativePathSeparator :: ds)[0]? = some vlNativePathSeparator ∧
        (c :: cs).length = 1 then 1 else (c :: cs).length) = (c :: cs).length := by
      split_ifs with h
      · exact h.2.symm
      · rfl
    have hne : (c :: cs).length ≠ 0 := Nat.succ_ne_zero _
    rw [if_neg hne, if_neg (List.cons_ne_nil _ _), htake, List.take_left]

/-- The parent of a path is a path. -/
theorem vlFSPathParent_ne_nil (hpath : path ≠ []) : Returns (vlFSPathParent path) (· ≠ []) := by
  have hpos := List.length_pos_of_ne_nil hpath
  rw [vlFSPathParent]
  by_cases hroot : path.length = 1 ∧ path[0]? = some vlNativePathSeparator
  · rw [if_pos hroot]
    exact returns_ok hpath
  rw [if_neg hroot, if_neg hpos.ne']
  dsimp only
  split_ifs with hzero hsep htop
  · exact returns_ok (List.cons_ne_nil _ _)
  · exact returns_ok (List.cons_ne_nil _ _)
  · exact returns_ok fun htake => (List.take_eq_nil_iff.mp htake).elim nofun hpath
  · exact returns_ok fun htake => (List.take_eq_nil_iff.mp htake).elim hzero hpath

/-- The path is as `path`, up to separators at its end. -/
structure SameDirectory (path' path : List Char) : Prop where
  ne_nil : path' ≠ []
  location : pathLocation path' = pathLocation path
  eq_of_tidy : path.getLast? ≠ some vlNativePathSeparator → path' = path

/-- A joined path does not end with a separator. -/
theorem vlFSPathJoin_tidy : (vlFSPathJoin path name.chars).getLast? ≠ some vlNativePathSeparator := by
  obtain ⟨cs, hjoin, -⟩ := vlFSPathJoin_eq path name.not_mem
  rw [hjoin, List.getLast?_append_of_ne_nil _ (List.cons_ne_nil _ _), List.getLast?_cons_of_ne_nil
    name.ne_nil]
  exact fun hlast => name.not_mem (List.mem_of_getLast? hlast)

theorem vlFSPathJoin_ne_nil_of_ne_nil {component : List Char} (hpath : path ≠ []) :
    vlFSPathJoin path component ≠ [] := by
  rw [vlFSPathJoin]
  split_ifs
  · exact List.append_ne_nil_of_left_ne_nil (List.append_ne_nil_of_left_ne_nil hpath _) _
  · exact List.append_ne_nil_of_left_ne_nil hpath _
  · exact List.append_ne_nil_of_left_ne_nil (List.append_ne_nil_of_left_ne_nil hpath _) _
  · exact List.append_ne_nil_of_left_ne_nil hpath _

theorem vlFSPathJoin_ne_nil : vlFSPathJoin path name.chars ≠ [] := by
  obtain ⟨cs, hjoin, -⟩ := vlFSPathJoin_eq path name.not_mem
  rw [hjoin]
  exact List.append_ne_nil_of_right_ne_nil _ (List.cons_ne_nil _ _)

/-- **Taking the parent of a joined path** gives back the directory. -/
theorem vlFSPathParent_join (name : FileName) (hpath : path ≠ []) :
    Returns (vlFSPathParent (vlFSPathJoin path name.chars)) (SameDirectory · path) := by
  obtain ⟨cs, hjoin, hcs⟩ := vlFSPathJoin_eq path name.not_mem
  refine ⟨_, hjoin ▸ vlFSPathParent_append name.ne_nil name.not_mem, ?_, ?_, ?_⟩
  · split_ifs with hnil
    · exact List.cons_ne_nil _ _
    · exact hnil
  · rcases hcs with rfl | rfl
    · rw [if_neg hpath]
    · split_ifs with hnil
      · rw [hnil]
        rfl
      · refine Location.ext ?_ ?_
        · simp only [pathLocation, List.head?_append_of_ne_nil _ hnil]
        · simp only [pathLocation, pathComponents_append_cons, pathComponents_nil, List.append_nil]
  · intro htidy
    rcases hcs with rfl | rfl
    · rw [if_neg hpath]
    · exact absurd List.getLast?_concat htidy

end Path

end VeritableLasagna
