import DevopsBroker.Fs.MakeDirectorySpec

/-!
# What `makeDirectory` leaves of a path

For every string, whatever there is and whatever `mkdir` answers: the call aborts when there are more
than eight pieces (`makeDirectory_none`), and else it puts the slashes back, but for one at
the end (`makeDirectory_text`). Fuel for every character, and for the rounds over eight pieces, is enough.
-/

namespace DevopsBroker.Fs

open DevopsBroker.Lang DevopsBroker.Lib

section

variable {answer : Answer} {pathName inner : Nat} {mode length : UInt32} {hasFilename : Bool}
  {s : MakeState} {front c : List UInt8} {others : List (List UInt8)}

/-- `stat` and `mkdir` leave the path and the position in it alone. -/
theorem makeMissing_keeps (htext : TextAt s.mem pathName front) (hinner : front.length < inner) :
    ∃ s', makeMissing inner answer pathName mode s = some s' ∧ s'.mem = s.mem ∧
      s'.subdir = s.subdir ∧ s'.i = s.i := by
  have hstop := subdirRound_returns htext inner hinner
  dsimp only at hstop
  unfold makeMissing
  rw [hstop, Option.bind_eq_bind, Option.bind_some]
  dsimp only
  split
  · split
    next errno tree _ => exact ⟨_, rfl, rfl, rfl, rfl⟩
    next tree _ => exact ⟨_, rfl, rfl, rfl, rfl⟩
  · exact ⟨s, rfl, rfl, rfl, rfl⟩

/-- The path is put together up to some characters, with the rest of it behind their `NUL`. -/
structure PutBack (pathName : Nat) (front : List UInt8) (others : List (List UInt8)) (s : MakeState) :
    Prop where
  texts : TextsAt s.mem pathName (front :: others)
  le : pathName ≤ s.subdir
  ge : s.subdir ≤ pathName + front.length

/-- **A round puts one slash back.** -/
theorem makeRound_putBack (h : PutBack pathName front (c :: others) s) (hlt : s.i < length)
    (hinner : front.length < inner) :
    ∃ s', makeRound answer pathName mode hasFilename length inner s = some (.next s') ∧
      PutBack pathName (front ++ SLASH :: c) others s' ∧ s'.i = s.i + 1 := by
  obtain ⟨s₁, hmissing, hmem, hsubdir, hi⟩ :=
    @makeMissing_keeps answer pathName inner mode s front h.texts.1 hinner
  have hadvance := @advance_returns pathName s₁ front (by rw [hmem]; exact h.texts.1)
    (by rw [hsubdir]; exact h.le) (by rw [hsubdir]; exact h.ge) inner hinner
  dsimp only at hadvance
  refine ⟨{ s₁ with
    mem := storeByte s₁.mem (pathName + front.length) SLASH
    subdir := pathName + front.length
    i := s₁.i + 1 }, ?_, ⟨?_, Nat.le_add_right _ _, ?_⟩, by dsimp only; rw [hi]⟩
  · unfold makeRound
    rw [if_pos (UInt32.le_of_lt hlt), if_pos (Or.inl hlt), hmissing, Option.bind_eq_bind,
      Option.bind_some, hi, if_pos hlt, hadvance, ← hi]
    rfl
  · dsimp only
    rw [hmem]
    exact h.texts.join (show SLASH ≠ 0 by decide) (if_pos rfl) fun a ha => if_neg ha
  · dsimp only
    rw [List.length_append]
    omega

/-- The last round puts nothing back. -/
theorem makeRound_keeps (h : PutBack pathName front others s) (heq : s.i = length)
    (hinner : front.length < inner) :
    ∃ s', makeRound answer pathName mode hasFilename length inner s = some (.next s') ∧
      s'.mem = s.mem ∧ s'.i = s.i + 1 := by
  have hlt : ¬ s.i < length := by
    rw [heq]
    exact UInt32.lt_irrefl length
  unfold makeRound
  rw [if_pos (UInt32.le_of_eq heq)]
  split
  next _ =>
    obtain ⟨s₁, hmissing, hmem, _, hi⟩ :=
      @makeMissing_keeps answer pathName inner mode s front h.texts.1 hinner
    rw [hmissing, Option.bind_eq_bind, Option.bind_some, hi, if_neg hlt]
    exact ⟨_, rfl, hmem, by dsimp only; rw [hi]⟩
  next _ =>
    rw [Option.bind_eq_bind, Option.bind_some, if_neg hlt]
    exact ⟨_, rfl, rfl, rfl⟩

/-- **The loop** puts all slashes back when it has a round for each piece. -/
theorem makeLoop_putBack (hlength : length.toNat + 1 < 2 ^ 32) :
    ∀ {front : List UInt8} {s : MakeState}, PutBack pathName front others s →
      s.i.toNat + others.length = length.toNat →
      ([SLASH].intercalate (front :: others)).length < inner →
      ∃ s', ReturnsWithin (others.length + 2)
          (fun fuel => rounds (makeRound answer pathName mode hasFilename length inner) fuel s) s' ∧
        TextAt s'.mem pathName ([SLASH].intercalate (front :: others)) := by
  induction others with
  | nil =>
    intro front s h hcount hinner
    rw [List.intercalate_singleton] at hinner ⊢
    have heq : s.i = length := UInt32.toNat_inj.mp hcount
    obtain ⟨s', hround, hmem, hi⟩ :=
      @makeRound_keeps answer pathName inner mode length hasFilename s front [] h heq hinner
    have hnext : length < s'.i := by
      rw [hi, UInt32.lt_iff_toNat_lt, toNat_succ (by rw [heq]; exact hlength), heq]
      exact Nat.lt_succ_self _
    refine ⟨s', returnsWithin_next hround (returnsWithin_done (makeRound_done hnext inner)), ?_⟩
    rw [hmem]
    exact h.texts.1
  | cons c others ih =>
    intro front s h hcount hinner
    rw [List.length_cons] at hcount
    have hlt : s.i < length := by
      rw [UInt32.lt_iff_toNat_lt]
      omega
    -- with its slash, the next piece belongs to what is put together
    have hjoin := @intercalate_join _ SLASH front c others
    have hfront : front.length < inner := by
      rw [List.intercalate_cons_cons, List.length_append, List.length_append] at hinner
      omega
    obtain ⟨s', hround, h', hi⟩ :=
      @makeRound_putBack answer pathName inner mode length hasFilename s front c others h hlt hfront
    obtain ⟨s'', hrun, htext⟩ := ih h' (by rw [hi, toNat_succ (by omega)]; omega)
      (by rw [hjoin]; exact hinner)
    rw [hjoin] at htext
    exact ⟨s'', returnsWithin_next hround hrun, htext⟩

end

section

variable {garbage garbage' mem : Mem} {answer : Answer} {pathName : Nat} {mode : UInt32}
  {hasFilename : Bool} {tree : DirTree} {text : List UInt8} {pieces : List (List UInt8)}

/-- The loop from its start, for a path that is put together up to a piece. -/
theorem makeLoop_text {length : UInt32} {inner : Nat} {front : List UInt8} {others : List (List UInt8)}
    (h : TextsAt mem pathName (front :: others)) (hcount : others.length + 1 = length.toNat)
    (hroom : others.length < 8) (hinner : ([SLASH].intercalate (front :: others)).length + 9 ≤ inner) :
    ∃ result : Bool × Mem × DirTree,
      (rounds (makeRound answer pathName mode hasFilename length inner) inner
        ⟨mem, pathName, 1, false, tree⟩).map (fun s => some (s.makeDir, s.mem, s.tree)) =
          some (some result) ∧
      TextAt result.2.1 pathName ([SLASH].intercalate (front :: others)) := by
  have hone : (1 : UInt32).toNat = 1 := rfl
  obtain ⟨s, hrun, htext⟩ := @makeLoop_putBack answer pathName inner mode length hasFilename others
    (by omega) front ⟨mem, pathName, 1, false, tree⟩ ⟨h, Nat.le_refl _, Nat.le_add_right _ _⟩
    (by dsimp only; omega) (by omega)
  have hdone := hrun inner (by omega)
  dsimp only at hdone
  rw [hdone]
  exact ⟨_, rfl, htext⟩

/-- What follows the split, for up to eight pieces. -/
theorem makeSubdirs_text {inner : Nat} (h : TextsAt mem pathName pieces) (hne : pieces ≠ [])
    (hroom : pieces.length ≤ 8) (hinner : ([SLASH].intercalate pieces).length + 9 ≤ inner) :
    ∃ result : Bool × Mem × DirTree,
      makeSubdirs inner answer mem pathName mode hasFilename (UInt32.ofNat pieces.length) tree =
        some (some result) ∧
      (pieces ≠ [[]] → TextAt result.2.1 pathName ([SLASH].intercalate pieces)) := by
  have hcount {n : Nat} (hn : n ≤ 8) : (UInt32.ofNat n).toNat = n := Nat.mod_eq_of_lt (by omega)
  unfold makeSubdirs
  match pieces, hne with
  | [] :: [], _ =>
    -- nothing in front of the first slash, and nothing behind it: no round
    have hzero : mem pathName = 0 := h.1.char
    have hlt : UInt32.ofNat ([[]] : List (List UInt8)).length - 1 < 1 := by decide
    obtain ⟨less, rfl⟩ : ∃ less, inner = less + 1 := ⟨inner - 1, by omega⟩
    rw [if_pos hzero]
    dsimp only
    rw [rounds_done (makeRound_done hlt _) less]
    exact ⟨_, rfl, fun hno => absurd rfl hno⟩
  | [] :: c :: others, _ =>
    -- the path starts with a slash, which is put back at once
    have hzero : mem pathName = 0 := h.1.char
    have hjoin := h.join (show SLASH ≠ 0 by decide)
      (if_pos rfl : storeByte mem pathName SLASH (pathName + 0) = SLASH) fun a ha => if_neg ha
    have hlength : UInt32.ofNat (([] : List UInt8) :: c :: others).length - 1 =
        UInt32.ofNat (others.length + 1) := by
      rw [List.length_cons, List.length_cons, UInt32.ofNat_add]
      exact UInt32.add_sub_cancel _ _
    have hsame := @intercalate_join _ SLASH [] c others
    rw [List.length_cons, List.length_cons] at hroom
    rw [if_pos hzero]
    dsimp only
    rw [hlength]
    rw [← hsame] at hinner ⊢
    obtain ⟨result, hrun, htext⟩ := makeLoop_text hjoin (hcount (by omega)).symm (by omega) hinner
    exact ⟨result, hrun, fun _ => htext⟩
  | (c :: first) :: others, _ =>
    have hchar : mem pathName ≠ 0 := by
      rw [h.1.char]
      exact h.1.ne_zero
    rw [List.length_cons] at hroom
    rw [if_neg hchar, List.length_cons]
    obtain ⟨result, hrun, htext⟩ := makeLoop_text h (hcount (by omega)).symm (by omega) hinner
    exact ⟨result, hrun, fun _ => htext⟩

/-- **Up to eight pieces**: the path is as it was, without a slash at its end. -/
theorem makeDirectory_text (hne : pathName ≠ 0) (h : TextAt mem pathName text)
    (hsplits : SplitsInto SLASH text pieces) (hroom : pieces.length ≤ 8) {fuel : Nat}
    (hfuel : text.length + 10 ≤ fuel) :
    ∃ result : Bool × Mem × DirTree,
      makeDirectory fuel garbage garbage' answer mem pathName mode hasFilename tree =
        some (some result) ∧
      (pieces ≠ [[]] → TextAt result.2.1 pathName (withoutLast SLASH text)) := by
  obtain ⟨mem', htexts, hsplit⟩ := @makeDirectory_split garbage garbage' mem answer pathName mode
    hasFilename tree text pieces hne h hsplits (by omega)
  have hlength := length_withoutLast_le SLASH text
  rw [hsplit _ (by omega), ← hsplits.join]
  exact makeSubdirs_text htexts hsplits.ne_nil hroom (by rw [hsplits.join]; omega)

end

end DevopsBroker.Fs
