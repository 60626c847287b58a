import VeritableLasagna.Arena.Runs
import VeritableLasagna.Filesys.Rewrite

/-!
# Normalising inside own memory

The first pass of `vlFSPathNormalize` copies as many bytes as the block of the path is long, so it copies the
terminator too. A second terminator is written behind it, and the new block is as long as the old one: there
is room only if the pass has left a character out, which it does in a run of separators
(`length_collapseSeparators`).

`normalizesInside` says so of every state that a run of the arena reaches: a path with two separators in a row
is normalised inside of own blocks, which replace the block of the path, and for any other path a byte is
written behind the first one (`not_obeys_of_noSeparatorRun`).
-/

namespace VeritableLasagna

/-! ### Runs of separators -/

/-- Two separators in a row, of either kind. -/
def HasSeparatorRun (path : List Char) : Prop :=
  ∃ pre c d post, path = pre ++ c :: d :: post ∧ isPathSeparator c = true ∧ isPathSeparator d = true

section SeparatorRun

variable {ch : Char} {path : List Char} {last : Bool}

theorem hasSeparatorRun_cons : HasSeparatorRun (ch :: path) ↔
    isPathSeparator ch = true ∧ isLexicallyAbsolute path = true ∨ HasSeparatorRun path := by
  constructor
  · rintro ⟨pre, x, y, post, heq, hx, hy⟩
    cases pre with
    | nil =>
      obtain ⟨rfl, rfl⟩ := List.cons.inj heq
      exact Or.inl ⟨hx, hy⟩
    | cons z pre =>
      obtain ⟨rfl, rfl⟩ := List.cons.inj heq
      exact Or.inr ⟨pre, x, y, post, rfl, hx, hy⟩
  · rintro (⟨hch, habs⟩ | ⟨pre, x, y, post, rfl, hx, hy⟩)
    · cases path with
      | nil => cases habs
      | cons y post => exact ⟨[], ch, y, post, rfl, hch, habs⟩
    · exact ⟨ch :: pre, x, y, post, rfl, hx, hy⟩

/-- **The first pass leaves characters out** exactly where separators follow each other. -/
theorem length_collapseSeparators (path : List Char) (last : Bool) :
    (collapseSeparators last path).length ≤ path.length ∧
      ((collapseSeparators last path).length = path.length ↔
        ¬ (last = true ∧ isLexicallyAbsolute path = true ∨ HasSeparatorRun path)) := by
  induction path generalizing last with
  | nil =>
    refine ⟨le_rfl, iff_of_true rfl ?_⟩
    rintro (⟨-, habs⟩ | ⟨pre, x, y, post, heq, -⟩)
    · cases habs
    · exact absurd heq.symm (by simp)
  | cons ch path ih =>
    have habs : isLexicallyAbsolute (ch :: path) = isPathSeparator ch := rfl
    rw [hasSeparatorRun_cons, habs, List.length_cons]
    by_cases hch : isPathSeparator ch = true
    · cases last with
      | true =>
        obtain ⟨hle, -⟩ := ih true
        rw [collapseSeparators, if_pos hch, if_pos rfl]
        exact ⟨by omega, iff_of_false (by omega) (not_not.mpr (Or.inl ⟨rfl, hch⟩))⟩
      | false =>
        obtain ⟨hle, hiff⟩ := ih true
        rw [collapseSeparators, if_pos hch, if_neg Bool.false_ne_true, List.length_cons]
        refine ⟨by omega, Nat.succ_inj.trans (hiff.trans (not_congr ?_))⟩
        have hno : ¬ (false = true ∧ isPathSeparator ch = true) := fun h => Bool.false_ne_true h.1
        rw [or_iff_right hno, hch, and_iff_right rfl]
    · obtain ⟨hle, hiff⟩ := ih false
      rw [collapseSeparators, if_neg hch, List.length_cons]
      refine ⟨by omega, Nat.succ_inj.trans (hiff.trans (not_congr ?_))⟩
      rw [or_iff_right fun h => Bool.false_ne_true h.1, or_iff_right fun h => hch h.2,
        or_iff_right fun h => hch h.1]

end SeparatorRun

/-! ### The whole function -/

section Whole

variable {arena : VlArena} {live : List Block} {b : Block} {str : List UInt8}

/-- The block is exactly as long as the string and its terminator. -/
structure VlArena.HoldsExactly (arena : VlArena) (b : Block) (str : List UInt8) : Prop where
  holds : arena.HoldsString b str
  size : b.size = str.length + 9

theorem VlArena.HoldsExactly.toChar_first (hstr : arena.HoldsExactly b str) :
    toChar (arena.data.bytes (b.offset + 8)) = vlNativePathSeparator ↔
      (charsOf str).head? = some vlNativePathSeparator := by
  have hslice := hstr.holds.slice
  cases str with
  | nil =>
    rw [List.length_nil, ByteMem.slice_one] at hslice
    rw [(List.cons.inj hslice).1]
    exact iff_of_false (by decide) (by decide)
  | cons byte str =>
    rw [List.length_cons, ByteMem.slice_succ, List.cons_append] at hslice
    rw [(List.cons.inj hslice).1]
    exact Option.some_inj.symm

/-- What the first pass has written: its terminator was copied with the rest. -/
theorem exists_collapsed {out : List UInt8} (hnul : 0 ∉ str)
    (h : charsOf out = collapseSeparators false (charsOf (str ++ [0]))) :
    ∃ t, out = t ++ [0] ∧ charsOf t = collapseSeparators false (charsOf str) ∧ 0 ∉ t := by
  have hzero : toChar 0 = '\x00' := by decide
  have happend : charsOf (str ++ [0]) = charsOf str ++ '\x00' :: [] := by
    rw [charsOf_append, ← hzero]
    rfl
  rw [happend, collapseSeparators_append_nul] at h
  obtain ⟨t, zero, rfl, ht, hlast⟩ := List.map_eq_append_iff.mp h
  have hlast' : charsOf zero = charsOf [0] := hlast.trans (congrArg (· :: []) hzero.symm)
  obtain rfl := charsOf_injective hlast'
  refine ⟨t, rfl, ht, fun hmem => ?_⟩
  have hmem' : toChar 0 ∈ charsOf t := toChar_mem_charsOf.mpr hmem
  have hnul' : '\x00' ∉ charsOf str := by
    rw [← hzero, toChar_mem_charsOf]
    exact hnul
  rw [hzero, charsOf, ht] at hmem'
  exact nul_not_mem_collapseSeparators hnul' hmem'

/-- **The first pass** stays inside the new block, which its output fits. -/
theorem vlFSPathCopy_follows (h : arena.Inv (b :: live)) (hstr : arena.HoldsExactly b str) {c : Prop}
    (hc : vlArenaMemAlloc arena (str.length + 1) = .error .outOfMemory → c) :
    ownBlocks.Follows c [] (arena.vlFSPathCopy (b.offset + 8) (str.length + 1)) fun r tr =>
      ∃ temp t, tr = [temp] ∧ r.1 = temp.offset + 8 ∧ temp.size = str.length + 9 ∧
        r.2.1 = (t ++ [0]).length ∧ 0 ∉ t ∧ charsOf t = collapseSeparators false (charsOf str) ∧
        r.2.2.Fills arena (b :: live) [(temp, t ++ [0])] := by
  have hsize := hstr.size
  have hstop := h.stop_le List.mem_cons_self
  have hbound := h.bound
  rw [Block.stop] at hstop
  have hpos : 0 < str.length + 1 := Nat.succ_pos _
  refine ((VlArena.Fills.nil h).alloc_follows hpos (by omega) hc).bind ?_
  rintro ⟨-, arena₁⟩ _ ⟨p, rfl, rfl, hfills⟩
  have hlength : str.length + 1 = (str ++ [0]).length := by rw [List.length_append, List.length_singleton]
  have hread : arena.data.bytes.slice (b.offset + 8 + 0) (str ++ [0]).length = str ++ [0] := by
    rw [← hlength]
    exact hstr.holds.slice
  have hcollapse := vlFSPathCollapse_follows (c := c) List.mem_cons_self hfills hread
    (by rw [← hlength]; omega) (by rw [List.length_nil, ← hlength]; dsimp only; omega)
  rw [← hlength] at hcollapse
  dsimp only
  refine (hcollapse false).bind ?_
  rintro ⟨-, arena₂⟩ _ ⟨rfl, out, hout, rfl, hfills₂⟩
  obtain ⟨t, rfl, ht, hnul⟩ := exists_collapsed hstr.holds.not_mem hout
  exact .pure ⟨_, t, rfl, rfl, rfl, rfl, hnul, ht, hfills₂⟩

/-- What the function reads first. -/
theorem vlFSPathNormalize_of_holds (h : arena.Inv (b :: live)) (hstr : arena.HoldsExactly b str) :
    arena.vlFSPathNormalize (b.offset + 8) = (do
      let (tempPtr, writePos, arena) ← arena.vlFSPathCopy (b.offset + 8) (str.length + 1)
      let arena ← arena.put (tempPtr + writePos) [0]
      let (resultPtr, arena) ← arena.alloc (writePos + 1)
      let (componentPtr, arena) ← arena.alloc (8 * (writePos + 1) % 2 ^ 64)
      let (componentCount, arena) ← arena.vlFSPathTokens tempPtr componentPtr writePos
      arena.vlFSPathRebuild (b.offset + 8) tempPtr resultPtr componentPtr componentCount) := by
  have hsize := vlArenaMemSize_spec h List.mem_cons_self
  rw [hstr.size] at hsize
  rw [VlArena.vlFSPathNormalize, if_neg (Nat.succ_ne_zero _), hsize]
  rfl

/-- **Normalising a path with a run of separators** writes into own blocks only, and leaves the normal form
of the path in a new block, in place of the old one. -/
theorem vlFSPathNormalize_follows (h : arena.Inv (b :: live)) (hstr : arena.HoldsExactly b str)
    (hrun : HasSeparatorRun (charsOf str)) (hfew : FewComponents (lexicalComponents (charsOf str)))
    (hfits : 8 * (str.length + 1) + 8 < 2 ^ 64) :
    ownBlocks.Follows True [] (arena.vlFSPathNormalize (b.offset + 8)) fun r _ =>
      ∃ p n str', r.1 = p + 8 ∧ charsOf str' = normalForm (charsOf str) ∧
        r.2.Fills arena live [(⟨p, n⟩, str' ++ [0])] := by
  rw [vlFSPathNormalize_of_holds h hstr]
  refine (vlFSPathCopy_follows h hstr fun _ => trivial).bind ?_
  rintro ⟨-, -, arena₁⟩ _ ⟨temp, t, rfl, rfl, htemp, rfl, hnul, ht, hfills⟩
  have hshorter : t.length < str.length := by
    obtain ⟨hle, hiff⟩ := length_collapseSeparators (charsOf str) false
    rw [← ht, charsOf, charsOf, List.length_map, List.length_map] at hle hiff
    exact lt_of_le_of_ne hle fun heq => hiff.mp heq (Or.inr hrun)
  have hlength : (t ++ [0]).length = t.length + 1 := by rw [List.length_append, List.length_singleton]
  dsimp only
  -- the terminator still fits
  refine (hfills.append_follows List.mem_cons_self [0]
    (by rw [hlength, List.length_singleton]; omega)).bind ?_
  rintro arena₂ _ ⟨rfl, hfills₂⟩
  rw [hlength]
  have hresult : 0 < t.length + 1 + 1 := Nat.succ_pos _
  refine (hfills₂.alloc_follows hresult (by omega) fun _ => trivial).bind ?_
  rintro ⟨-, arena₃⟩ _ ⟨result, rfl, rfl, hfills₃⟩
  have hcomponents : 8 * (t.length + 1 + 1) % 2 ^ 64 = 8 * (t.length + 1 + 1) :=
    Nat.mod_eq_of_lt (by omega)
  dsimp only
  rw [hcomponents]
  refine (hfills₃.alloc_follows (by omega) (by omega) fun _ => trivial).bind ?_
  rintro ⟨-, arena₄⟩ _ ⟨components, rfl, rfl, hfills₄⟩
  have hnames : pathComponents (charsOf t) = lexicalComponents (charsOf str) := by
    rw [ht, pathComponents_collapse]
  have hsplits : arena₄.Splits arena (b :: live) temp ⟨components, 8 * (t.length + 1 + 1) + 8⟩
      ⟨result, t.length + 1 + 1 + 8⟩ [] (t ++ 0 :: [0]) [] := by
    refine ⟨⟨[], ?_⟩, fun _ h => absurd h List.not_mem_nil, le_rfl⟩
    have hperm := hfills₄.perm ((List.Perm.swap _ _ _).cons _)
    rwa [List.append_assoc, List.singleton_append] at hperm
  have hfew' : ∀ n, (((pathComponents (charsOf t)).take n).foldl foldComponent
      (tokenNames [])).length < 2 ^ 31 := by
    rw [hnames]
    exact hfew
  set own : List Block := [⟨components, 8 * (t.length + 1 + 1) + 8⟩, ⟨result, t.length + 1 + 1 + 8⟩, temp]
    with hown
  have hresultMem : (⟨result, t.length + 1 + 1 + 8⟩ : Block) ∈ own :=
    List.mem_cons_of_mem _ List.mem_cons_self
  have htempMem : temp ∈ own :=
    List.mem_cons_of_mem _ (List.mem_cons_of_mem _ List.mem_cons_self)
  have hcomponentsMem : (⟨components, 8 * (t.length + 1 + 1) + 8⟩ : Block) ∈ own := List.mem_cons_self
  have htokens := vlFSPathSplit_follows (c := True) htempMem hcomponentsMem hnul
    (by omega : t.length < t.length + 1 + 1) hsplits (by rw [List.length_nil]; dsimp only; omega) hfew'
  dsimp only
  rw [VlArena.vlFSPathTokens]
  refine htokens.bind ?_
  rintro ⟨-, arena₅⟩ _ ⟨rfl, done, rest, tokens, rfl, hsplits₅, hle, htokenNames⟩
  have hroom := hsplits₅.room
  have hsize := hstr.size
  rw [List.length_nil] at hle
  refine (vlFSPathRebuild_follows hresultMem hsplits₅ (by omega) (by dsimp only; omega)
    (by dsimp only; omega)).mono ?_
  rintro r _ ⟨hr, str', hstr', hfills₆⟩
  refine ⟨result, _, str', hr, ?_, hfills₆⟩
  rw [hstr', normalForm, htokenNames, hnames, decide_eq_decide.mpr hstr.toChar_first]
  rfl

/-- **Normalising a path without a run of separators** writes behind its first block, if it is served. -/
theorem not_obeys_of_noSeparatorRun (h : arena.Inv (b :: live)) (hstr : arena.HoldsExactly b str)
    (hrun : ¬ HasSeparatorRun (charsOf str))
    (hserved : vlArenaMemAlloc arena (str.length + 1) ≠ .error .outOfMemory) :
    ¬ ownBlocks.Obeys [] (arena.vlFSPathNormalize (b.offset + 8)).events := by
  rw [vlFSPathNormalize_of_holds h hstr]
  refine Policy.not_obeys_bind (vlFSPathCopy_follows (c := False) h hstr hserved) ?_
  rintro ⟨-, -, arena₁⟩ _ ⟨temp, t, rfl, rfl, htemp, rfl, -, ht, -⟩
  -- nothing was left out, and the block is full
  have hfull : t.length = str.length := by
    obtain ⟨-, hiff⟩ := length_collapseSeparators (charsOf str) false
    rw [← ht, charsOf, charsOf, List.length_map, List.length_map] at hiff
    exact hiff.mpr fun hor => hor.elim (fun hlast => Bool.false_ne_true hlast.1) hrun
  have hlength : (t ++ [0]).length = t.length + 1 := by rw [List.length_append, List.length_singleton]
  refine Policy.not_obeys_bind_left ?_
  rintro ⟨⟨b', hb', -, hstop⟩, -⟩
  rw [List.mem_singleton.mp hb', Block.stop, hlength, List.length_singleton] at hstop
  omega

/-- **Normalising a path whose first block is not served** does nothing. -/
theorem vlFSPathNormalize_of_outOfMemory (h : arena.Inv (b :: live)) (hstr : arena.HoldsExactly b str)
    (herror : vlArenaMemAlloc arena (str.length + 1) = .error .outOfMemory) :
    arena.vlFSPathNormalize (b.offset + 8) = ⟨[], .error .outOfMemory⟩ := by
  have halloc : arena.alloc (str.length + 1) = ⟨[], .error .outOfMemory⟩ := by
    rw [VlArena.alloc, herror]
    rfl
  rw [vlFSPathNormalize_of_holds h hstr, VlArena.vlFSPathCopy, halloc]
  rfl

end Whole

/-! ### In every state -/

/-- **Normalising touches own memory only**: what is written lies in payloads of blocks that are allocated on
the way, and if memory does not run out, one of them is live in place of the block of the path, while the
others are as they were. -/
structure NormalizesInside (s : ArenaState) (ptr : ℕ) : Prop where
  obeys : ownBlocks.Obeys [] (s.arena.vlFSPathNormalize ptr).events
  serves : Serves (s.arena.vlFSPathNormalize ptr).result fun r =>
    r.2.Partitioned (r.1 :: s.live.erase ptr) ∧ ∀ q ∈ s.live.erase ptr, r.2.KeepsHandle s.arena q

section Good

variable {s : ArenaState} {ptr : ℕ} {str : List UInt8}

theorem ArenaState.Good.normalizesInside_of_separatorRun (h : s.Good) (hptr : ptr ∈ s.live)
    (hstr : s.arena.HoldsExactly (s.arena.block ptr) str) (hrun : HasSeparatorRun (charsOf str))
    (hfew : FewComponents (lexicalComponents (charsOf str))) (hfits : 8 * (str.length + 1) + 8 < 2 ^ 64) :
    NormalizesInside s ptr := by
  obtain ⟨hinv, hoff, hrest⟩ := h.split hptr
  have hfollows := vlFSPathNormalize_follows hinv hstr hrun hfew hfits
  rw [hoff] at hfollows
  refine ⟨hfollows.obeys, hfollows.result.serves.mono ?_⟩
  rintro ⟨-, arena'⟩ ⟨p, n, str', rfl, -, hfills⟩
  have hinv' : arena'.Inv (⟨p + 8 - 8, n⟩ :: (s.live.erase ptr).map s.arena.block) := hfills.inv
  obtain ⟨hgood, -, hblock⟩ := hinv'.good (Nat.le_add_left 8 p) hrest
  exact ⟨hgood.partitioned, fun q hq => hfills.keeps.handle hq (hblock q hq)⟩

theorem ArenaState.Good.normalizesInside_of_outOfMemory (h : s.Good) (hptr : ptr ∈ s.live)
    (hstr : s.arena.HoldsExactly (s.arena.block ptr) str)
    (herror : vlArenaMemAlloc s.arena (str.length + 1) = .error .outOfMemory) : NormalizesInside s ptr := by
  obtain ⟨hinv, hoff, -⟩ := h.split hptr
  have hnone := vlFSPathNormalize_of_outOfMemory hinv hstr herror
  rw [hoff] at hnone
  refine ⟨?_, ?_⟩
  · rw [hnone]
    exact trivial
  · rw [hnone]
    exact Or.inl rfl

theorem ArenaState.Good.separatorRun_or_outOfMemory (h : s.Good) (hptr : ptr ∈ s.live)
    (hstr : s.arena.HoldsExactly (s.arena.block ptr) str) (hinside : NormalizesInside s ptr) :
    HasSeparatorRun (charsOf str) ∨ vlArenaMemAlloc s.arena (str.length + 1) = .error .outOfMemory := by
  obtain ⟨hinv, hoff, -⟩ := h.split hptr
  by_contra hnot
  rw [not_or] at hnot
  have hbreaks := not_obeys_of_noSeparatorRun hinv hstr hnot.1 hnot.2
  rw [hoff] at hbreaks
  exact hbreaks hinside.obeys

end Good

/-! ### Paths in memory -/

instance instDecidableHoldsExactly (arena : VlArena) (b : Block) (str : List UInt8) :
    Decidable (arena.HoldsExactly b str) :=
  decidable_of_iff (arena.HoldsString b str ∧ b.size = str.length + 9)
    ⟨fun h => ⟨h.1, h.2⟩, fun h => ⟨h.holds, h.size⟩⟩

/-- The client holds a block with the path, and there is room for as much again. -/
def ArenaState.HasPath (s : ArenaState) (ptr : ℕ) (str : List UInt8) : Prop :=
  ptr ∈ s.live ∧ s.arena.HoldsExactly (s.arena.block ptr) str ∧
    (vlArenaMemAlloc s.arena (str.length + 1)).toOption.isSome = true

instance instDecidableHasPath (s : ArenaState) (ptr : ℕ) (str : List UInt8) : Decidable (s.HasPath ptr str) :=
  inferInstanceAs (Decidable (_ ∧ _ ∧ _))

theorem exists_run_hasPath (size ptr : ℕ) (str : List UInt8) (ops : List VlArenaOp)
    (h : ((vlArenaInit (fun _ => 0) size).toOption.any fun arena =>
      (arenaMachine.exec ⟨arena, []⟩ ops).any fun s => decide (s.HasPath ptr str)) = true) :
    ∃ arena s, vlArenaInit (fun _ => 0) size = .ok arena ∧ arenaMachine.Run ⟨arena, []⟩ ops s ∧
      s.HasPath ptr str := by
  obtain ⟨arena, harena, hexec⟩ := (Option.any_eq_true _ _).mp h
  obtain ⟨s, hrun, hpath⟩ := Machine.exists_run_of_exec hexec
  exact ⟨arena, s, eq_ok_of_toOption harena, hrun, of_decide_eq_true hpath⟩

/-- **When normalising touches own memory only.** In every state that a run reaches, and for every path in a
block of its length, it is necessary that the path has two separators in a row, or nothing is done for want of
memory; and it is sufficient where the components can be counted and the pointers to them fit the address
space. -/
theorem normalizesInside {contents : ByteMem} {initialSize : ℕ} (hinit : 0 < initialSize)
    (hlt : initialSize < 2 ^ 63) :
    Returns (vlArenaInit contents initialSize) fun arena =>
      ∀ os s, arenaMachine.Run ⟨arena, []⟩ os s → ∀ ptr ∈ s.live, ∀ str,
        s.arena.HoldsExactly (s.arena.block ptr) str →
        (NormalizesInside s ptr → HasSeparatorRun (charsOf str) ∨
          vlArenaMemAlloc s.arena (str.length + 1) = .error .outOfMemory) ∧
        (FewComponents (lexicalComponents (charsOf str)) → 8 * (str.length + 1) + 8 < 2 ^ 64 →
          (HasSeparatorRun (charsOf str) ∨
            vlArenaMemAlloc s.arena (str.length + 1) = .error .outOfMemory) → NormalizesInside s ptr) := by
  refine (vlArenaInit_good hinit hlt).mono fun arena hgood os s hrun ptr hptr str hstr => ?_
  have hs := arenaRun_good hgood hrun
  refine ⟨hs.separatorRun_or_outOfMemory hptr hstr, fun hfew hfits hor => ?_⟩
  rcases hor with hrun' | herror
  · exact hs.normalizesInside_of_separatorRun hptr hstr hrun' hfew hfits
  · exact hs.normalizesInside_of_outOfMemory hptr hstr herror

/-- Two slashes, in an arena of 1024 bytes. -/
theorem normalizesInside_slashes : ∃ arena os s, vlArenaInit (fun _ => 0) 1024 = .ok arena ∧
    arenaMachine.Run ⟨arena, []⟩ os s ∧ s.HasPath 1021 [47, 47] ∧ NormalizesInside s 1021 := by
  obtain ⟨arena, s, hinit, hrun, hpath⟩ := exists_run_hasPath 1024 1021 [47, 47]
    [.alloc 3, .write 1021 0 [47, 47, 0]] (by decide +kernel)
  obtain ⟨hptr, hstr, -⟩ := id hpath
  have hrest := (normalizesInside (by decide) (by norm_num)).of_ok hinit _ s hrun 1021 hptr _ hstr
  have hnone : lexicalComponents (charsOf [47, 47]) = [] := by decide
  have hfew : FewComponents (lexicalComponents (charsOf [47, 47])) := by
    intro n
    rw [hnone, List.take_nil]
    decide
  have hseparators : HasSeparatorRun (charsOf [47, 47]) := ⟨[], '/', '/', [], by decide, rfl, rfl⟩
  exact ⟨arena, _, s, hinit, hrun, hpath, hrest.2 hfew (by decide) (Or.inl hseparators)⟩

/-- A path of one letter, in an arena of 1024 bytes: the byte that is written behind the first block is in the
header of the path. -/
theorem not_normalizesInside_letter : ∃ arena os s, vlArenaInit (fun _ => 0) 1024 = .ok arena ∧
    arenaMachine.Run ⟨arena, []⟩ os s ∧ s.HasPath 1022 [97] ∧ ¬ NormalizesInside s 1022 := by
  obtain ⟨arena, s, hinit, hrun, hpath⟩ := exists_run_hasPath 1024 1022 [97]
    [.alloc 2, .write 1022 0 [97, 0]] (by decide +kernel)
  obtain ⟨hptr, hstr, hroom⟩ := id hpath
  have hgood := arenaRun_good ((vlArenaInit_good (by decide) (by norm_num)).of_ok hinit) hrun
  refine ⟨arena, _, s, hinit, hrun, hpath, fun hinside => ?_⟩
  rcases hgood.separatorRun_or_outOfMemory hptr hstr hinside with hseparators | herror
  · obtain ⟨pre, c, d, post, heq, -⟩ := hseparators
    have hlength := congrArg List.length heq
    rw [charsOf, List.length_map, List.length_append] at hlength
    simp only [List.length_cons, List.length_nil] at hlength
    omega
  · rw [herror] at hroom
    cases hroom

end VeritableLasagna
