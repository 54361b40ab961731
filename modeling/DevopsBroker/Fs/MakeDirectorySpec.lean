import DevopsBroker.Fs.MakeDirectory
import Mathlib.Data.List.DropRight

/-!
# Which paths `makeDirectory` makes

The list of `makeDirectory` has room for eight pieces and does not grow while it is empty. Up to there
the loop puts every slash back, and calls `mkdir` for every missing directory from the root on:
**`makeDirectory_makes_iff`**. An empty path loses its `NUL`.
-/

namespace DevopsBroker.Fs

open DevopsBroker.Adt.ListArray (addFromStack addFromStack_holds addFromStack_none elementsOf initListArray
  initListArrayWithSize_holds)
open DevopsBroker.Lang DevopsBroker.Lib

/-! ## Paths -/

/-- Components with slashes between them, behind a slash or not. -/
def joined (absolute : Bool) (components : List (List UInt8)) : List UInt8 :=
  (if absolute then [SLASH] else []) ++ [SLASH].intercalate components

/-- A path without a `/` at its end. -/
structure Path where
  absolute : Bool
  components : List (List UInt8)
  ne_nil : ∀ component ∈ components, component ≠ []
  free : ∀ component ∈ components, SLASH ∉ component
  noTrailing : absolute = true → components ≠ []

/-- The directories of the components, from the first one on. -/
def prefixes (absolute : Bool) (components : List (List UInt8)) : List (List UInt8) :=
  components.inits.tail.map (joined absolute)

namespace Path

def text (path : Path) : List UInt8 := joined path.absolute path.components

/-- The directories that are to be there: the last component may be a file. -/
def directories (path : Path) (hasFilename : Bool) : List (List UInt8) :=
  if hasFilename then (prefixes path.absolute path.components).dropLast
  else prefixes path.absolute path.components

/-- Those of them that are not there. -/
def missing (path : Path) (hasFilename : Bool) (existing : List UInt8 → Bool) : List (List UInt8) :=
  (path.directories hasFilename).filter fun directory => !existing directory

/-- The pieces between the slashes: in front of the first one there is none, if the path is absolute. -/
def pieces (path : Path) : List (List UInt8) := (if path.absolute then [[]] else []) ++ path.components

end Path

/-- What is in front of the last `/`; empty for a directory in the root or in the working directory. -/
def parent (path : List UInt8) : List UInt8 := (path.rdropWhile fun c => c ≠ SLASH).dropLast

/-- `mkdir` succeeds for a missing directory whose parent is there. -/
def Succeeds (answer : Answer) : Prop :=
  ∀ existing path mode, existing path = false → (parent path = [] ∨ existing (parent path) = true) →
    answer existing path mode = none

/-- Characters at the end that are no `/` are not looked at. -/
theorem parent_append (front : List UInt8) {component : List UInt8} (h : SLASH ∉ component) :
    parent (front ++ component) = parent front := by
  induction component using List.reverseRecOn with
  | nil => rw [List.append_nil]
  | append_singleton component c ih =>
    rw [List.mem_append, List.mem_singleton, not_or] at h
    unfold parent at ih ⊢
    rw [← List.append_assoc, List.rdropWhile_concat_pos _ _ c (decide_eq_true (Ne.symm h.2)), ih h.1]

theorem parent_slash (front : List UInt8) {component : List UInt8} (h : SLASH ∉ component) :
    parent (front ++ SLASH :: component) = front := by
  rw [List.append_cons, parent_append _ h]
  unfold parent
  rw [List.rdropWhile_concat_neg _ _ _ (by simp), List.dropLast_concat]

section

variable {absolute : Bool} {done : List (List UInt8)} {component : List UInt8}

theorem joined_concat (h : done ≠ []) :
    joined absolute (done ++ [component]) = joined absolute done ++ SLASH :: component := by
  unfold joined
  rw [intercalate_concat h, List.append_assoc]

theorem joined_single : joined absolute [component] = (if absolute then [SLASH] else []) ++ component := by
  unfold joined
  rw [List.intercalate_singleton]

/-- A longer path is another one. -/
theorem length_joined_lt {back : List (List UInt8)} (h : done ≠ []) (hback : back ≠ []) :
    (joined absolute done).length < (joined absolute (done ++ back)).length := by
  induction back using List.reverseRecOn with
  | nil => exact absurd rfl hback
  | append_singleton back last ih =>
    have hle : (joined absolute done).length ≤ (joined absolute (done ++ back)).length := by
      by_cases hnil : back = []
      · rw [hnil, List.append_nil]
      · exact Nat.le_of_lt (ih hnil)
    rw [← List.append_assoc, joined_concat (List.append_ne_nil_of_left_ne_nil h back), List.length_append,
      List.length_cons]
    omega

theorem prefixes_concat :
    prefixes absolute (done ++ [component]) =
      prefixes absolute done ++ [joined absolute (done ++ [component])] := by
  have hinits : done.inits ≠ [] := by cases done <;> simp
  unfold prefixes
  rw [List.inits_append, List.tail_append_of_ne_nil hinits, List.map_append]
  simp

/-- The parent of a directory is the one before it. -/
theorem parent_joined (h : SLASH ∉ component) :
    parent (joined absolute (done ++ [component])) = [] ∨
      parent (joined absolute (done ++ [component])) ∈ prefixes absolute done := by
  rcases List.eq_nil_or_concat done with rfl | ⟨before, last, rfl⟩
  · left
    rw [List.nil_append, joined_single]
    cases absolute with
    | true => exact parent_slash [] h
    | false => exact parent_append [] h
  · right
    rw [List.concat_eq_append, joined_concat (by simp), parent_slash _ h, prefixes_concat]
    exact List.mem_append_right _ List.mem_cons_self

/-- No directory is longer than the last one. -/
theorem length_le_of_mem_prefixes {directory : List UInt8} (hmem : directory ∈ prefixes absolute done) :
    directory.length ≤ (joined absolute done).length := by
  induction done using List.reverseRecOn with
  | nil => cases hmem
  | append_singleton before last ih =>
    rw [prefixes_concat, List.mem_append, List.mem_singleton] at hmem
    rcases hmem with hmem | rfl
    · have hne : before ≠ [] := by
        rintro rfl
        cases hmem
      rw [joined_concat hne, List.length_append]
      exact Nat.le_add_right_of_le (ih hmem)
    · exact Nat.le_refl _

theorem joined_notMem_prefixes (h : component ≠ []) :
    joined absolute (done ++ [component]) ∉ prefixes absolute done := by
  intro hmem
  have hle := length_le_of_mem_prefixes hmem
  have hpos := List.length_pos_of_ne_nil h
  rcases List.eq_nil_or_concat done with rfl | ⟨before, last, rfl⟩
  · cases hmem
  · rw [List.concat_eq_append, joined_concat (by simp), List.length_append, List.length_cons] at hle
    omega

end

/-! ## A directory -/

/-- What a round does to the directories. -/
def visit (mode : UInt32) (directory : List UInt8) (s : MakeState) : MakeState :=
  if s.tree.existing directory then s
  else { s with
    makeDir := true
    tree := { s.tree with
      existing := fun other => decide (other = directory) || s.tree.existing other
      calls := s.tree.calls ++ [(directory, mode)] } }

@[simp] theorem visit_mem (mode : UInt32) (directory : List UInt8) (s : MakeState) :
    (visit mode directory s).mem = s.mem := by
  unfold visit
  split <;> rfl

@[simp] theorem visit_subdir (mode : UInt32) (directory : List UInt8) (s : MakeState) :
    (visit mode directory s).subdir = s.subdir := by
  unfold visit
  split <;> rfl

@[simp] theorem visit_i (mode : UInt32) (directory : List UInt8) (s : MakeState) :
    (visit mode directory s).i = s.i := by
  unfold visit
  split <;> rfl

/-- What was done for some directories, one after the other. -/
structure Visited (tree : DirTree) (mode : UInt32) (directories : List (List UInt8)) (s : MakeState) :
    Prop where
  calls : s.tree.calls =
    tree.calls ++ (directories.filter fun directory => !tree.existing directory).map (·, mode)
  made : s.makeDir = true ↔ directories.filter (fun directory => !tree.existing directory) ≠ []
  existing : ∀ directory, s.tree.existing directory = true ↔
    tree.existing directory = true ∨ directory ∈ directories

/-- **One more directory.** -/
theorem Visited.visit {tree : DirTree} {mode : UInt32} {directories : List (List UInt8)} {s : MakeState}
    {directory : List UInt8} (h : Visited tree mode directories s) (hnew : directory ∉ directories) :
    Visited tree mode (directories ++ [directory]) (visit mode directory s) := by
  by_cases hthere : tree.existing directory = true
  · have hsame : Fs.visit mode directory s = s := if_pos ((h.existing directory).mpr (Or.inl hthere))
    have hfilter : (directories ++ [directory]).filter (fun directory => !tree.existing directory) =
        directories.filter fun directory => !tree.existing directory := by
      rw [List.filter_append, List.filter_cons_of_neg (by simp [hthere]), List.filter_nil,
        List.append_nil]
    rw [hsame]
    refine ⟨by rw [hfilter]; exact h.calls, by rw [hfilter]; exact h.made, fun other => ?_⟩
    rw [h.existing other, List.mem_append, List.mem_singleton]
    constructor
    · rintro (hold | hmem)
      · exact Or.inl hold
      · exact Or.inr (Or.inl hmem)
    · rintro (hold | hmem | rfl)
      · exact Or.inl hold
      · exact Or.inr hmem
      · exact Or.inl hthere
  · have hmissing : ¬ s.tree.existing directory = true := fun hold =>
      ((h.existing directory).mp hold).elim hthere hnew
    have hfilter : (directories ++ [directory]).filter (fun directory => !tree.existing directory) =
        (directories.filter fun directory => !tree.existing directory) ++ [directory] := by
      rw [List.filter_append, List.filter_cons_of_pos (by simp [hthere]), List.filter_nil]
    unfold Fs.visit
    rw [if_neg hmissing]
    refine ⟨?_, ?_, fun other => ?_⟩
    · rw [hfilter, List.map_append, ← List.append_assoc, ← h.calls]
      rfl
    · rw [hfilter]
      exact iff_of_true rfl (List.append_ne_nil_of_right_ne_nil _ (List.cons_ne_nil _ _))
    · rw [List.mem_append, List.mem_singleton, Bool.or_eq_true, decide_eq_true_eq, h.existing other]
      tauto

/-! ## Rounds -/

/-- The end of a string, from any of its characters on. -/
theorem subdirRound_returns {mem : Mem} {text : List UInt8} :
    ∀ {p : Nat}, TextAt mem p text →
      ReturnsWithin (text.length + 1) (fun fuel => rounds (subdirRound mem) fuel p)
        (p + text.length) := by
  induction text with
  | nil =>
    intro p htext
    apply returnsWithin_done
    rw [subdirRound, htext.char]
    rfl
  | cons c text ih =>
    intro p htext
    have hround : subdirRound mem p = some (.next (p + 1)) := by
      rw [subdirRound, htext.char]
      exact if_pos htext.ne_zero
    have hend : p + (c :: text).length = p + 1 + text.length := by
      rw [List.length_cons]
      omega
    rw [hend]
    exact returnsWithin_next hround (ih htext.tail)

section

variable {answer : Answer} {pathName : Nat} {mode length : UInt32} {hasFilename : Bool}
  {s : MakeState} {front : List UInt8}

/-- **`stat` and `mkdir`** for the text that is in front of the next `NUL`. -/
theorem makeMissing_returns (hanswer : Succeeds answer) (htext : TextAt s.mem pathName front)
    (hparent : parent front = [] ∨ s.tree.existing (parent front) = true) :
    Returns (fun fuel => makeMissing fuel answer pathName mode s) (visit mode front s) := by
  have hpath : bytesAt s.mem pathName (pathName + front.length - pathName) = front := by
    rw [Nat.add_sub_cancel_left, ← bytesAt_take _ _ (Nat.le_succ _), htext.bytes, List.take_left' rfl]
  refine (subdirRound_returns htext).returns.bind (returns_of_eq fun _ => ?_)
  dsimp only
  rw [hpath]
  unfold DirTree.stat visit
  by_cases hthere : s.tree.existing front = true
  · rw [if_pos hthere, if_pos hthere]
    exact if_neg (by simp)
  · rw [if_neg hthere, if_neg hthere, if_pos rfl]
    unfold DirTree.mkdir
    rw [hanswer _ _ mode (Bool.eq_false_iff.mpr hthere) hparent]

/-- **The next slash is put back.** -/
theorem advance_returns (htext : TextAt s.mem pathName front) (hle : pathName ≤ s.subdir)
    (hge : s.subdir ≤ pathName + front.length) :
    ReturnsWithin (front.length + 1) (fun fuel => advance fuel s)
      { s with
        mem := storeByte s.mem (pathName + front.length) SLASH
        subdir := pathName + front.length } := by
  obtain ⟨k, hk⟩ : ∃ k, s.subdir = pathName + k := ⟨s.subdir - pathName, by omega⟩
  have hsplit : front.take k ++ front.drop k = front := List.take_append_drop k front
  have hlength : (front.take k).length = k := by
    rw [List.length_take]
    omega
  have hbehind : TextAt s.mem s.subdir (front.drop k) := by
    rw [← hsplit] at htext
    have hdrop := htext.drop
    rw [hlength, ← hk] at hdrop
    exact hdrop
  have hend : s.subdir + (front.drop k).length = pathName + front.length := by
    rw [List.length_drop]
    omega
  have hrun := (subdirRound_returns hbehind).more
    (by rw [List.length_drop]; omega : (front.drop k).length + 1 ≤ front.length + 1)
  rw [hend] at hrun
  exact hrun.bind fun _ _ => rfl

/-- The state behind a round that is not the last one. -/
def advanced (pathName : Nat) (mode : UInt32) (front : List UInt8) (s : MakeState) : MakeState where
  mem := storeByte s.mem (pathName + front.length) SLASH
  subdir := pathName + front.length
  i := s.i + 1
  makeDir := (visit mode front s).makeDir
  tree := (visit mode front s).tree

theorem makeRound_more (hanswer : Succeeds answer) (htext : TextAt s.mem pathName front)
    (hparent : parent front = [] ∨ s.tree.existing (parent front) = true) (hle : pathName ≤ s.subdir)
    (hge : s.subdir ≤ pathName + front.length) (hlt : s.i < length) :
    Returns (fun fuel => makeRound answer pathName mode hasFilename length fuel s)
      (.next (advanced pathName mode front s)) := by
  unfold makeRound
  simp only [if_pos (UInt32.le_of_lt hlt), if_pos (Or.inl hlt)]
  refine (makeMissing_returns hanswer htext hparent).bind ?_
  simp only [visit_i, if_pos hlt]
  have hadvance := @advance_returns pathName (visit mode front s) front
    (by rw [visit_mem]; exact htext) (by rw [visit_subdir]; exact hle)
    (by rw [visit_subdir]; exact hge)
  refine hadvance.returns.bind (returns_of_eq fun _ => ?_)
  simp only [advanced, visit_mem, visit_i]

theorem makeRound_last (hanswer : Succeeds answer) (htext : TextAt s.mem pathName front)
    (hparent : parent front = [] ∨ s.tree.existing (parent front) = true) (heq : s.i = length) :
    Returns (fun fuel => makeRound answer pathName mode hasFilename length fuel s)
      (.next { (if hasFilename then s else visit mode front s) with i := s.i + 1 }) := by
  have hlt : ¬ s.i < length := by
    rw [heq]
    exact UInt32.lt_irrefl length
  unfold makeRound
  cases hasFilename with
  | true =>
    simp only [if_pos (UInt32.le_of_eq heq), hlt, Bool.true_eq_false, or_self, if_false, if_true]
    refine returns_of_eq fun _ => ?_
    simp only [Option.bind_eq_bind, Option.bind_some, if_neg hlt]
  | false =>
    simp only [if_pos (UInt32.le_of_eq heq), hlt, or_true, if_true, Bool.false_eq_true, if_false]
    refine (makeMissing_returns hanswer htext hparent).bind ?_
    simp only [visit_i, hlt, if_false]
    refine returns_of_eq fun _ => ?_
    rw [← @visit_i mode front s]
    rfl

theorem makeRound_done (hlt : length < s.i) (fuel : Nat) :
    makeRound answer pathName mode hasFilename length fuel s = some (.done s) :=
  if_neg (UInt32.not_le.mpr hlt)

/-! ## The loop -/

/-- A directory's parent is there when the directories before it were visited. -/
theorem Visited.parent {tree : DirTree} {absolute : Bool} {done : List (List UInt8)}
    {component : List UInt8} (h : Visited tree mode (prefixes absolute done) s)
    (hfree : SLASH ∉ component) :
    Fs.parent (joined absolute (done ++ [component])) = [] ∨
      s.tree.existing (Fs.parent (joined absolute (done ++ [component]))) = true :=
  (parent_joined hfree).imp_right fun hmem => (h.existing _).mpr (Or.inr hmem)

/-- What holds in front of a round: the path is put together up to a component, and the directories
before that one were visited. -/
structure InFront (tree : DirTree) (mode : UInt32) (absolute : Bool) (pathName : Nat)
    (done : List (List UInt8)) (component : List UInt8) (others : List (List UInt8)) (s : MakeState) :
    Prop where
  texts : TextsAt s.mem pathName (joined absolute (done ++ [component]) :: others)
  le : pathName ≤ s.subdir
  ge : s.subdir ≤ pathName + (joined absolute (done ++ [component])).length
  visited : Visited tree mode (prefixes absolute done) s

section

variable {tree : DirTree} {absolute : Bool} {done others : List (List UInt8)} {component : List UInt8}

/-- **A round** goes on to the next component. -/
theorem InFront.advanced {c : List UInt8}
    (h : InFront tree mode absolute pathName done component (c :: others) s) (hne : component ≠ []) :
    InFront tree mode absolute pathName (done ++ [component]) c others
      (advanced pathName mode (joined absolute (done ++ [component])) s) := by
  have hconcat := @joined_concat absolute (done ++ [component]) c (by simp)
  obtain ⟨hcalls, hmade, hexisting⟩ := h.visited.visit (joined_notMem_prefixes hne)
  rw [← prefixes_concat] at hcalls hmade hexisting
  refine ⟨?_, Nat.le_add_right _ _, ?_, hcalls, hmade, hexisting⟩
  · rw [hconcat]
    exact h.texts.join (show SLASH ≠ 0 by decide) (if_pos rfl) fun a ha => if_neg ha
  · rw [hconcat, List.length_append]
    dsimp only [Fs.advanced]
    omega

/-- **The last round** leaves the path as it is, and its directory alone if that is a file. -/
theorem InFront.last (h : InFront tree mode absolute pathName done component others s)
    (hne : component ≠ []) (i : UInt32) :
    TextsAt (if hasFilename then s else Fs.visit mode (joined absolute (done ++ [component])) s).mem
        pathName (joined absolute (done ++ [component]) :: others) ∧
      Visited tree mode
        (if hasFilename then (prefixes absolute (done ++ [component])).dropLast
        else prefixes absolute (done ++ [component]))
        { (if hasFilename then s else Fs.visit mode (joined absolute (done ++ [component])) s) with
          i := i } := by
  rw [prefixes_concat, List.dropLast_concat]
  cases hasFilename with
  | true => exact ⟨h.texts, h.visited.calls, h.visited.made, h.visited.existing⟩
  | false =>
    obtain ⟨hcalls, hmade, hexisting⟩ := h.visited.visit (joined_notMem_prefixes hne)
    refine ⟨?_, hcalls, hmade, hexisting⟩
    rw [if_neg Bool.false_ne_true, visit_mem]
    exact h.texts

end

/-- The counter does not wrap. -/
theorem toNat_succ {i : UInt32} (h : i.toNat + 1 < 2 ^ 32) : (i + 1).toNat = i.toNat + 1 := by
  have hone : (1 : UInt32).toNat = 1 := rfl
  rw [UInt32.toNat_add, hone, Nat.mod_eq_of_lt h]

/-- **The loop** puts the slashes back in front of as many components as it has rounds, and visits their
directories. -/
theorem makeLoop_returns (hanswer : Succeeds answer) (hlength : length.toNat + 1 < 2 ^ 32)
    {tree : DirTree} {absolute : Bool} {others rest : List (List UInt8)} :
    ∀ {done : List (List UInt8)} {component : List UInt8} {s : MakeState},
      (∀ c ∈ component :: rest, c ≠ [] ∧ SLASH ∉ c) → s.i.toNat + rest.length = length.toNat →
      InFront tree mode absolute pathName done component (rest ++ others) s →
      ∃ s', LoopReturns (makeRound answer pathName mode hasFilename length) s s' ∧
        TextsAt s'.mem pathName (joined absolute (done ++ component :: rest) :: others) ∧
        Visited tree mode
          (if hasFilename then (prefixes absolute (done ++ component :: rest)).dropLast
          else prefixes absolute (done ++ component :: rest)) s' := by
  induction rest with
  | nil =>
    intro done component s hcomponents hcount h
    obtain ⟨hne, hfree⟩ := hcomponents component List.mem_cons_self
    have heq : s.i = length := UInt32.toNat_inj.mp hcount
    have hnext : length < s.i + 1 := by
      rw [UInt32.lt_iff_toNat_lt, toNat_succ (by rw [heq]; exact hlength), heq]
      exact Nat.lt_succ_self _
    have hlast := @makeRound_last answer pathName mode length hasFilename _ _ hanswer h.texts.1
      (h.visited.parent hfree) heq
    exact ⟨_, .next hlast (.done (makeRound_done hnext)), h.last hne (s.i + 1)⟩
  | cons c rest ih =>
    intro done component s hcomponents hcount h
    obtain ⟨hne, hfree⟩ := hcomponents component List.mem_cons_self
    rw [List.length_cons] at hcount
    have hlt : s.i < length := by
      rw [UInt32.lt_iff_toNat_lt]
      omega
    have hmore := @makeRound_more answer pathName mode length hasFilename _ _ hanswer h.texts.1
      (h.visited.parent hfree) h.le h.ge hlt
    have hi : (s.i + 1).toNat + rest.length = length.toNat := by
      rw [toNat_succ (by omega)]
      omega
    obtain ⟨s', hrun, hafter⟩ := ih (fun c' hc' => hcomponents c' (List.mem_cons_of_mem _ hc')) hi
      (h.advanced hne)
    rw [List.append_assoc] at hafter
    exact ⟨s', .next hmore hrun, hafter⟩

/-- **A length of `2 ^ 32 - 1`** is never passed. -/
theorem makeLoop_endless (hlength : length.toNat + 1 = 2 ^ 32) (inner fuel : Nat) :
    rounds (makeRound answer pathName mode hasFilename length inner) fuel s = none := by
  rw [← Option.not_isSome_iff_eq_none, Option.isSome_iff_exists]
  rintro ⟨result, hrun⟩
  refine @rounds_post _ _ _ (fun _ => True) (fun _ => False) ?_ fuel _ _ trivial hrun
  intro s turn _ hround
  have hle : s.i ≤ length := by
    have hlt := s.i.toNat_lt
    rw [UInt32.le_iff_toNat_le]
    omega
  unfold makeRound at hround
  rw [if_pos hle] at hround
  obtain ⟨_, _, hround⟩ := Option.bind_eq_some_iff.mp hround
  obtain ⟨_, _, hround⟩ := Option.bind_eq_some_iff.mp hround
  cases hround
  trivial

/-- Without components the loop ends at once. -/
theorem makeLoop_zero (hlength : length.toNat = 0) (hi : s.i = 1) :
    LoopReturns (makeRound answer pathName mode hasFilename length) s s := by
  refine .done (makeRound_done ?_)
  rw [UInt32.lt_iff_toNat_lt, hlength, hi]
  decide

end

/-! ## The split -/

section

variable {garbage garbage' mem : Mem} {answer : Answer} {pathName : Nat} {mode : UInt32}
  {hasFilename : Bool} {tree : DirTree} {text : List UInt8} {pieces : List (List UInt8)}

/-- **More pieces than the list has room for.** -/
theorem makeDirectory_none (hne : pathName ≠ 0) (h : TextAt mem pathName text)
    (hsplits : SplitsInto SLASH text pieces) (hfull : 8 < pieces.length % 2 ^ 32) :
    ReturnsWithin (text.length + 1) (fun fuel =>
      makeDirectory fuel garbage garbage' answer mem pathName mode hasFilename tree) none := by
  obtain ⟨list, hinit, hholds, hlength, hsize⟩ := initListArrayWithSize_holds garbage 8
  obtain ⟨s', addresses, pieces', hcuts, _, hrun⟩ :=
    @splitWithChar_returns garbage' mem pathName SLASH text list hne (by decide) h
  obtain rfl := hcuts.splits.unique hsplits
  rw [← @List.length_cons _ pathName addresses, hcuts.inMemory.length_eq,
    addFromStack_none garbage' _ hlength (by rw [hsize]; exact hfull) (Nat.mod_lt _ (by decide))] at hrun
  have hinit' : initListArray garbage = some list := hinit
  unfold makeDirectory
  rw [hinit']
  exact hrun.bind fun _ _ => rfl

/-- **Else the pieces are in memory**, and the list has as many elements. -/
theorem makeDirectory_split (hne : pathName ≠ 0) (h : TextAt mem pathName text)
    (hsplits : SplitsInto SLASH text pieces) (hroom : pieces.length % 2 ^ 32 ≤ 8) :
    ∃ mem', TextsAt mem' pathName pieces ∧ ∀ fuel, text.length + 1 ≤ fuel →
      makeDirectory fuel garbage garbage' answer mem pathName mode hasFilename tree =
        makeSubdirs fuel answer mem' pathName mode hasFilename (UInt32.ofNat pieces.length) tree := by
  obtain ⟨list, hinit, hholds, hlength, hsize⟩ := initListArrayWithSize_holds garbage 8
  obtain ⟨s', addresses, pieces', hcuts, htexts, hrun⟩ :=
    @splitWithChar_returns garbage' mem pathName SLASH text list hne (by decide) h
  obtain rfl := hcuts.splits.unique hsplits
  have hsize' : list.size = 8 := hsize
  rw [← @List.length_cons _ pathName addresses, hcuts.inMemory.length_eq] at hrun
  obtain ⟨list', hadd, hholds', _⟩ := addFromStack_holds garbage' hholds
    (some fun j => UInt64.ofNat ((pathName :: addresses).getD j 0))
    (by omega : list.length + pieces'.length % 2 ^ 32 < 2 ^ 32) (by omega) (by omega)
  have hcount : list'.length = pieces'.length % 2 ^ 32 := by
    rw [← hholds'.length, List.nil_append, elementsOf, List.length_map, List.length_range]
  refine ⟨s'.mem, htexts, fun fuel hfuel => ?_⟩
  have hinit' : initListArray garbage = some list := hinit
  have hsplit := hrun fuel hfuel
  dsimp only at hsplit
  rw [hadd, Option.map_some] at hsplit
  unfold makeDirectory
  rw [hinit']
  dsimp only
  rw [hsplit, Option.bind_some]
  dsimp only
  rw [if_neg hne, hcount]
  congr 1
  exact UInt32.toNat_inj.mp (by simp)

/-- **The pieces of a path.** -/
theorem Path.splits {path : Path} (h : path.components ≠ []) :
    SplitsInto SLASH path.text path.pieces where
  join := by
    have hjoin : [SLASH].intercalate path.pieces = path.text := by
      unfold Path.pieces Path.text joined
      cases path.absolute with
      | true =>
        rw [if_pos rfl, if_pos rfl, List.singleton_append, List.intercalate_cons_of_ne_nil h]
        rfl
      | false => rfl
    obtain ⟨before, last, heq⟩ := (List.eq_nil_or_concat path.components).resolve_left h
    rw [List.concat_eq_append] at heq
    have hmem : last ∈ path.components := by
      rw [heq]
      exact List.mem_append_right _ List.mem_cons_self
    have hlast : withoutLast SLASH path.text = path.text := by
      unfold Path.text
      rw [heq]
      rcases eq_or_ne before [] with rfl | hbefore
      · rw [List.nil_append, joined_single, withoutLast_append _ (path.ne_nil last hmem),
          withoutLast_of_notMem (path.free last hmem)]
      · rw [joined_concat hbefore, List.append_cons, withoutLast_append _ (path.ne_nil last hmem),
          withoutLast_of_notMem (path.free last hmem)]
    rw [hjoin, hlast]
  ne_nil := List.append_ne_nil_of_right_ne_nil _ h
  free := fun piece hmem => by
    rcases List.mem_append.mp hmem with hempty | hmem
    · split at hempty
      next _ =>
        rw [List.mem_singleton.mp hempty]
        exact List.not_mem_nil
      next _ => cases hempty
    · exact path.free piece hmem

/-- **The first component**: behind a `/` that is put back at once, or at the start. -/
theorem makeSubdirs_path {path : Path} {component : List UInt8} {rest : List (List UInt8)}
    (hcomponents : path.components = component :: rest) (h : TextsAt mem pathName path.pieces) :
    ∃ mem', TextsAt mem' pathName (joined path.absolute [component] :: rest) ∧ ∀ fuel,
      makeSubdirs fuel answer mem pathName mode hasFilename (UInt32.ofNat path.pieces.length) tree =
        (rounds (makeRound answer pathName mode hasFilename (UInt32.ofNat path.components.length) fuel)
          fuel ⟨mem', pathName, 1, false, tree⟩).map fun s => some (s.makeDir, s.mem, s.tree) := by
  have hfirst : component ≠ [] := path.ne_nil component (by rw [hcomponents]; exact List.mem_cons_self)
  unfold Path.pieces at h ⊢
  rw [joined_single]
  cases hkind : path.absolute with
  | true =>
    rw [hkind, if_pos rfl, hcomponents] at h
    have hzero : mem pathName = 0 := h.1.char
    have hlength : UInt32.ofNat ([[]] ++ path.components).length - 1 =
        UInt32.ofNat path.components.length := by
      rw [List.length_append, List.length_singleton, Nat.add_comm, UInt32.ofNat_add]
      exact UInt32.add_sub_cancel _ _
    refine ⟨storeByte mem pathName SLASH,
      h.join (show SLASH ≠ 0 by decide) (if_pos rfl) fun a ha => if_neg ha, fun fuel => ?_⟩
    unfold makeSubdirs
    rw [if_pos hzero, if_pos rfl]
    dsimp only
    rw [hlength]
  | false =>
    rw [hkind, if_neg Bool.false_ne_true, hcomponents] at h
    obtain ⟨c, rest', rfl⟩ := List.exists_cons_of_ne_nil hfirst
    have hchar : mem pathName ≠ 0 := by
      rw [h.1.char]
      exact h.1.ne_zero
    refine ⟨mem, h, fun fuel => ?_⟩
    unfold makeSubdirs
    rw [if_neg hchar, if_neg Bool.false_ne_true]
    rfl

/-- **Where the list has room for the pieces**, it is all about the loop. -/
theorem makeDirectory_path {path : Path} {component : List UInt8} {rest : List (List UInt8)}
    (hne : pathName ≠ 0) (hcomponents : path.components = component :: rest)
    (h : TextAt mem pathName path.text) (hroom : path.pieces.length % 2 ^ 32 ≤ 8) :
    ∃ mem', TextsAt mem' pathName (joined path.absolute [component] :: rest) ∧ ∃ enough, ∀ fuel,
      enough ≤ fuel →
        makeDirectory fuel garbage garbage' answer mem pathName mode hasFilename tree =
          (rounds (makeRound answer pathName mode hasFilename (UInt32.ofNat path.components.length) fuel)
            fuel ⟨mem', pathName, 1, false, tree⟩).map fun s => some (s.makeDir, s.mem, s.tree) := by
  have hnil : path.components ≠ [] := by
    rw [hcomponents]
    exact List.cons_ne_nil _ _
  obtain ⟨mem₁, htexts, hrun⟩ := @makeDirectory_split garbage garbage' mem answer pathName mode
    hasFilename tree _ _ hne h (Path.splits hnil) hroom
  obtain ⟨mem₂, htexts', hsubdirs⟩ := @makeSubdirs_path mem₁ answer pathName mode hasFilename tree _ _ _
    hcomponents htexts
  exact ⟨mem₂, htexts', _, fun fuel hfuel => (hrun fuel hfuel).trans (hsubdirs fuel)⟩

/-- Nothing was visited yet. -/
theorem visited_nil (absolute : Bool) : Visited tree mode (prefixes absolute []) ⟨mem, pathName, 1, false, tree⟩ where
  calls := (List.append_nil _).symm
  made := iff_of_false Bool.false_ne_true (not_not.mpr rfl)
  existing := fun _ => (or_iff_left List.not_mem_nil).symm

/-- **As many components as the loop has rounds.** -/
theorem makeDirectory_rounds {path : Path} {component : List UInt8} {rest front others : List (List UInt8)}
    (hne : pathName ≠ 0) (hanswer : Succeeds answer) (hcomponents : path.components = component :: rest)
    (hrest : rest = front ++ others) (h : TextAt mem pathName path.text)
    (hroom : path.pieces.length % 2 ^ 32 ≤ 8)
    (hcount : path.components.length % 2 ^ 32 = front.length + 1) (hlt : front.length + 2 < 2 ^ 32) :
    ∃ s : MakeState,
      Returns (fun fuel => makeDirectory fuel garbage garbage' answer mem pathName mode hasFilename tree)
        (some (s.makeDir, s.mem, s.tree)) ∧
      TextsAt s.mem pathName (joined path.absolute (component :: front) :: others) ∧
      Visited tree mode
        (if hasFilename then (prefixes path.absolute (component :: front)).dropLast
        else prefixes path.absolute (component :: front)) s := by
  obtain ⟨mem', htexts, enough, hrun⟩ := @makeDirectory_path garbage garbage' mem answer pathName mode
    hasFilename tree _ _ _ hne hcomponents h hroom
  have hlength : (UInt32.ofNat path.components.length).toNat = front.length + 1 := hcount
  have hproper : ∀ c ∈ component :: front, c ≠ [] ∧ SLASH ∉ c := by
    intro c hc
    have hmem : c ∈ path.components := by
      rw [hcomponents, hrest, ← List.cons_append]
      exact List.mem_append_left _ hc
    exact ⟨path.ne_nil c hmem, path.free c hmem⟩
  have hone : (1 : UInt32).toNat = 1 := rfl
  rw [hrest] at htexts
  obtain ⟨s, hloop, htexts', hvisited⟩ := @makeLoop_returns answer pathName mode
    (UInt32.ofNat path.components.length) hasFilename hanswer (by omega) tree path.absolute others front []
    component ⟨mem', pathName, 1, false, tree⟩ hproper (by dsimp only; omega)
    ⟨htexts, Nat.le_refl _, Nat.le_add_right _ _, visited_nil path.absolute⟩
  obtain ⟨enough', hloop⟩ := hloop.returns
  refine ⟨s, ⟨enough + enough', fun fuel hfuel => ?_⟩, htexts', hvisited⟩
  have hresult := hloop fuel (by omega)
  dsimp only at hresult ⊢
  rw [hrun fuel (by omega), hresult]
  rfl

end

/-! ## Making directories -/

/-- **What is to be done**: `mkdir` is called for the missing directories, in order, the result says
whether there were any, and the path is as it was. -/
structure Made (path : Path) (pathName : Nat) (mode : UInt32) (hasFilename : Bool) (tree : DirTree)
    (result : Bool × Mem × DirTree) : Prop where
  calls : result.2.2.calls = tree.calls ++ (path.missing hasFilename tree.existing).map (·, mode)
  made : result.1 = true ↔ path.missing hasFilename tree.existing ≠ []
  text : TextAt result.2.1 pathName path.text

section

variable {garbage garbage' mem : Mem} {answer : Answer} {pathName : Nat} {mode : UInt32}
  {hasFilename : Bool} {tree : DirTree} {path : Path} {result : Bool × Mem × DirTree}

/-- **An empty path** becomes a `/` without a `NUL`. -/
theorem makeDirectory_empty (hne : pathName ≠ 0) (h : TextAt mem pathName path.text)
    (hempty : path.components = [])
    (hrun : Returns (fun fuel =>
      makeDirectory fuel garbage garbage' answer mem pathName mode hasFilename tree) (some result)) :
    ¬ TextAt result.2.1 pathName path.text := by
  have hrelative : path.absolute = false :=
    Bool.eq_false_iff.mpr fun habsolute => path.noTrailing habsolute hempty
  have htext : path.text = [] := by
    unfold Path.text joined
    rw [hempty, hrelative]
    rfl
  rw [htext] at h ⊢
  obtain ⟨mem', htexts, hsplit⟩ := @makeDirectory_split garbage garbage' mem answer pathName mode
    hasFilename tree [] [[]] hne h (splitsInto_single List.not_mem_nil) (by decide)
  have hzero : mem' pathName = 0 := htexts.1.char
  obtain ⟨enough', hloop⟩ := (@makeLoop_zero answer pathName mode 0 hasFilename
    ⟨storeByte mem' pathName SLASH, pathName, 1, false, tree⟩ rfl rfl).returns
  obtain ⟨enough'', hrun⟩ := hrun
  have hresult := hrun (enough' + enough'' + 1) (by omega)
  have hdone := hloop (enough' + enough'' + 1) (by omega)
  dsimp only at hresult hdone
  have hlength : UInt32.ofNat [([] : List UInt8)].length - 1 = 0 := rfl
  rw [hsplit _ (Nat.le_add_left 1 _)] at hresult
  unfold makeSubdirs at hresult
  rw [if_pos hzero] at hresult
  dsimp only at hresult
  rw [hlength, hdone] at hresult
  cases hresult
  intro hsame
  have hslash : SLASH = 0 := (if_pos rfl).symm.trans hsame.char
  exact absurd hslash (by decide)

/-- The first components of a path are not the path. -/
theorem not_textAt_front {front back : List (List UInt8)} (hfront : front ≠ []) (hback : back ≠ [])
    (hcomponents : path.components = front ++ back) (h : TextAt mem pathName (joined path.absolute front)) :
    ¬ TextAt mem pathName path.text := by
  intro htext
  have hlt := @length_joined_lt path.absolute _ _ hfront hback
  rw [h.unique htext, ← hcomponents] at hlt
  exact absurd hlt (Nat.lt_irrefl _)

section

variable {component : List UInt8} {rest : List (List UInt8)}

/-- An absolute path whose pieces were counted down to zero: one more is taken off, and the loop does
not end. -/
theorem makeDirectory_endless (hne : pathName ≠ 0) (hcomponents : path.components = component :: rest)
    (h : TextAt mem pathName path.text) (hroom : path.pieces.length % 2 ^ 32 ≤ 8)
    (hcount : path.components.length % 2 ^ 32 + 1 = 2 ^ 32) :
    ¬ Returns (fun fuel =>
      makeDirectory fuel garbage garbage' answer mem pathName mode hasFilename tree) (some result) := by
  obtain ⟨mem', _, enough, hsplit⟩ := @makeDirectory_path garbage garbage' mem answer pathName mode
    hasFilename tree _ _ _ hne hcomponents h hroom
  have hlength : (UInt32.ofNat path.components.length).toNat + 1 = 2 ^ 32 := hcount
  rintro ⟨enough', hrun⟩
  have hresult := hrun (enough + enough') (by omega)
  dsimp only at hresult
  rw [hsplit _ (by omega), makeLoop_endless hlength] at hresult
  cases hresult

/-- Where the components were counted down to zero, the path is cut behind the first one. -/
theorem makeDirectory_noRounds (hne : pathName ≠ 0) (hcomponents : path.components = component :: rest)
    (h : TextAt mem pathName path.text) (hroom : path.pieces.length % 2 ^ 32 ≤ 8)
    (hcount : path.components.length % 2 ^ 32 = 0)
    (hrun : Returns (fun fuel =>
      makeDirectory fuel garbage garbage' answer mem pathName mode hasFilename tree) (some result)) :
    TextAt result.2.1 pathName (joined path.absolute [component]) := by
  obtain ⟨mem', htexts, enough, hsplit⟩ := @makeDirectory_path garbage garbage' mem answer pathName mode
    hasFilename tree _ _ _ hne hcomponents h hroom
  obtain ⟨enough', hloop⟩ := (@makeLoop_zero answer pathName mode
    (UInt32.ofNat path.components.length) hasFilename ⟨mem', pathName, 1, false, tree⟩ hcount rfl).returns
  obtain ⟨enough'', hrun⟩ := hrun
  have hresult := hrun (enough + enough' + enough'') (by omega)
  have hdone := hloop (enough + enough' + enough'') (by omega)
  dsimp only at hresult hdone
  rw [hsplit _ (by omega), hdone] at hresult
  cases hresult
  exact htexts.1

end

theorem length_components_le (path : Path) :
    path.components.length ≤ path.pieces.length ∧ path.pieces.length ≤ path.components.length + 1 := by
  unfold Path.pieces
  rw [List.length_append]
  cases path.absolute <;> simp [Nat.add_comm]

/-- **A long path** is not put together again, if the call returns at all. -/
theorem makeDirectory_long (hne : pathName ≠ 0) (hanswer : Succeeds answer)
    (h : TextAt mem pathName path.text) (hempty : path.components ≠ []) (hlong : 8 < path.pieces.length)
    (hrun : Returns (fun fuel =>
      makeDirectory fuel garbage garbage' answer mem pathName mode hasFilename tree) (some result)) :
    ¬ TextAt result.2.1 pathName path.text := by
  by_cases hfull : 8 < path.pieces.length % 2 ^ 32
  · cases (makeDirectory_none hne h (Path.splits hempty) hfull).returns.unique hrun
  obtain ⟨component, rest, hcomponents⟩ := List.exists_cons_of_ne_nil hempty
  obtain ⟨hle, hge⟩ := length_components_le path
  have hlength : path.components.length = rest.length + 1 := congrArg List.length hcomponents
  by_cases hendless : path.components.length % 2 ^ 32 + 1 = 2 ^ 32
  · exact absurd hrun (makeDirectory_endless hne hcomponents h (by omega) hendless)
  by_cases hzero : path.components.length % 2 ^ 32 = 0
  · have hrest : rest ≠ [] := List.length_pos_iff.mp (by omega)
    exact not_textAt_front (List.cons_ne_nil _ []) hrest hcomponents
      (makeDirectory_noRounds hne hcomponents h (by omega) hzero hrun)
  · -- the counter wrapped: the loop stops in front of the components that it lost
    obtain ⟨s, hrun', htexts, _⟩ := @makeDirectory_rounds garbage garbage' mem answer pathName mode
      hasFilename tree path component rest (rest.take (path.components.length % 2 ^ 32 - 1))
      (rest.drop (path.components.length % 2 ^ 32 - 1)) hne hanswer hcomponents
      (List.take_append_drop _ _).symm h (by omega) (by rw [List.length_take]; omega)
      (by rw [List.length_take]; omega)
    cases hrun'.unique hrun
    have hdrop : rest.drop (path.components.length % 2 ^ 32 - 1) ≠ [] := by
      refine List.length_pos_iff.mp ?_
      rw [List.length_drop]
      omega
    refine not_textAt_front (List.cons_ne_nil _ _) hdrop ?_ htexts.1
    rw [hcomponents, List.cons_append, List.take_append_drop]

/-- **A path of up to eight pieces.** -/
theorem makeDirectory_made (hne : pathName ≠ 0) (hanswer : Succeeds answer)
    (h : TextAt mem pathName path.text) (hempty : path.components ≠ []) (hshort : path.pieces.length ≤ 8) :
    ∃ result, Returns (fun fuel =>
        makeDirectory fuel garbage garbage' answer mem pathName mode hasFilename tree) (some result) ∧
      Made path pathName mode hasFilename tree result := by
  obtain ⟨component, rest, hcomponents⟩ := List.exists_cons_of_ne_nil hempty
  obtain ⟨hle, _⟩ := length_components_le path
  have hlength : path.components.length = rest.length + 1 := congrArg List.length hcomponents
  obtain ⟨s, hrun, htexts, hcalls, hmade, _⟩ := @makeDirectory_rounds garbage garbage' mem answer pathName
    mode hasFilename tree path component rest rest [] hne hanswer hcomponents (List.append_nil _).symm h
    (by omega) (by omega) (by omega)
  rw [← hcomponents] at htexts hcalls hmade
  exact ⟨_, hrun, hcalls, hmade, htexts.1⟩

/-- **The directories of a path are made exactly when it has one to eight pieces.** -/
theorem makeDirectory_makes_iff (hne : pathName ≠ 0) (hanswer : Succeeds answer)
    (h : TextAt mem pathName path.text) :
    (∃ result, Returns (fun fuel =>
        makeDirectory fuel garbage garbage' answer mem pathName mode hasFilename tree) (some result) ∧
      Made path pathName mode hasFilename tree result) ↔
      path.components ≠ [] ∧ path.pieces.length ≤ 8 := by
  constructor
  · rintro ⟨result, hrun, hmade⟩
    by_cases hempty : path.components = []
    · exact absurd hmade.text (makeDirectory_empty hne h hempty hrun)
    · refine ⟨hempty, Nat.le_of_not_lt fun hlong => ?_⟩
      exact makeDirectory_long hne hanswer h hempty hlong hrun hmade.text
  · rintro ⟨hempty, hshort⟩
    exact makeDirectory_made hne hanswer h hempty hshort

end

/-- `mkdir` that always succeeds. -/
def always : Answer := fun _ _ _ => none

/-- There is nothing yet. -/
def noTree : DirTree := ⟨fun _ => false, [], []⟩

/-- `"/a/b"`. -/
def shallow : Path := ⟨true, [[0x61], [0x62]], by decide, by decide, by decide⟩

/-- `"a/a/a/a/a/a/a/a/a"`. -/
def deep : Path := ⟨false, List.replicate 9 [0x61], by decide, by decide, by decide⟩

/-- `"/a/b"` behind a space, with a file name. -/
theorem makeDirectory_makes_iff_file :
    (∃ result, Returns (fun fuel => makeDirectory fuel (fun _ => 0) (fun _ => 0) always
        (textMem (0x20 :: shallow.text)) 1 0x1ED true noTree) (some result) ∧
      Made shallow 1 0x1ED true noTree result) ↔
      shallow.components ≠ [] ∧ shallow.pieces.length ≤ 8 := by
  have htext : TextAt (textMem (0x20 :: shallow.text)) 1 shallow.text :=
    (textAt_textMem (by decide)).tail
  exact makeDirectory_makes_iff (by decide) (fun _ _ _ _ _ => rfl) htext

/-- **Nine components**: `resizeArray` aborts. -/
theorem makeDirectory_aborts :
    ¬ ∃ result, Returns (fun fuel => makeDirectory fuel (fun _ => 0) (fun _ => 0) always
        (textMem (0x20 :: deep.text)) 1 0x1ED false noTree) (some result) ∧
      Made deep 1 0x1ED false noTree result := by
  rintro ⟨result, hrun, _⟩
  have htext : TextAt (textMem (0x20 :: deep.text)) 1 deep.text := (textAt_textMem (by decide)).tail
  cases (makeDirectory_none (by decide) htext (Path.splits (by decide)) (by decide)).returns.unique hrun

end DevopsBroker.Fs
