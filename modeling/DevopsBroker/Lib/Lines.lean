import Mathlib.Logic.Basic

/-!
# Lines with an end

A stream falls into lines, each with a separator behind it, and what comes behind the last
separator. Both are determined by the stream. Wherever a stream is cut, the first part has the
lines that are complete there and a part of the next one.
-/

namespace DevopsBroker.Lib

variable {α : Type} (sep : α)

/-- Lines with their ends, and a tail. -/
def joinLines (lines : List (List α)) (tail : List α) : List α := lines.flatMap (· ++ [sep]) ++ tail

@[simp] theorem joinLines_nil (tail : List α) : joinLines sep [] tail = tail := rfl

@[simp] theorem joinLines_cons (line : List α) (lines : List (List α)) (tail : List α) :
    joinLines sep (line :: lines) tail = line ++ sep :: joinLines sep lines tail := by
  unfold joinLines
  rw [List.flatMap_cons, List.append_assoc, List.append_assoc, List.singleton_append]

/-- Lines behind lines. -/
theorem joinLines_append (lines lines' : List (List α)) (tail : List α) :
    joinLines sep (lines ++ lines') tail = joinLines sep lines (joinLines sep lines' tail) := by
  unfold joinLines
  rw [List.flatMap_append, List.append_assoc]

theorem joinLines_tail (lines : List (List α)) (tail more : List α) :
    joinLines sep lines tail ++ more = joinLines sep lines (tail ++ more) := by
  unfold joinLines
  rw [List.append_assoc]

/-- **Every stream falls into lines and a tail.** -/
theorem exists_joinLines (stream : List α) :
    ∃ lines tail, stream = joinLines sep lines tail ∧ (∀ line ∈ lines, sep ∉ line) ∧ sep ∉ tail := by
  classical
  induction stream with
  | nil => exact ⟨[], [], rfl, List.forall_mem_nil _, List.not_mem_nil⟩
  | cons c stream ih =>
    obtain ⟨lines, tail, rfl, hlines, htail⟩ := ih
    by_cases hc : c = sep
    · refine ⟨[] :: lines, tail, by rw [joinLines_cons, hc, List.nil_append],
        List.forall_mem_cons.mpr ⟨List.not_mem_nil, hlines⟩, htail⟩
    · cases lines with
      | nil =>
        exact ⟨[], c :: tail, rfl, List.forall_mem_nil _, List.not_mem_cons_of_ne_of_not_mem
          (Ne.symm hc) htail⟩
      | cons line lines =>
        obtain ⟨hline, hlines⟩ := List.forall_mem_cons.mp hlines
        exact ⟨(c :: line) :: lines, tail, by rw [joinLines_cons, joinLines_cons, List.cons_append],
          List.forall_mem_cons.mpr ⟨List.not_mem_cons_of_ne_of_not_mem (Ne.symm hc) hline, hlines⟩,
          htail⟩

/-- What is in front of the first separator is determined. -/
theorem append_sep_inj {line line' rest rest' : List α} (h : sep ∉ line) (h' : sep ∉ line')
    (heq : line ++ sep :: rest = line' ++ sep :: rest') : line = line' ∧ rest = rest' := by
  induction line generalizing line' with
  | nil =>
    cases line' with
    | nil => exact ⟨rfl, (List.cons.inj heq).2⟩
    | cons c line' => exact absurd ((List.cons.inj heq).1 ▸ List.mem_cons_self) h'
  | cons c line ih =>
    cases line' with
    | nil => exact absurd ((List.cons.inj heq).1 ▸ List.mem_cons_self) h
    | cons c' line' =>
      obtain ⟨hc, hrest⟩ := List.cons.inj heq
      obtain ⟨hmore, hrest⟩ :=
        ih (List.not_mem_of_not_mem_cons h) (List.not_mem_of_not_mem_cons h') hrest
      exact ⟨by rw [hc, hmore], hrest⟩

/-- **The lines are determined.** -/
theorem joinLines_injective {lines lines' : List (List α)} {tail tail' : List α}
    (hlines : ∀ line ∈ lines, sep ∉ line) (hlines' : ∀ line ∈ lines', sep ∉ line)
    (htail : sep ∉ tail) (htail' : sep ∉ tail')
    (h : joinLines sep lines tail = joinLines sep lines' tail') : lines = lines' ∧ tail = tail' := by
  induction lines generalizing lines' with
  | nil =>
    cases lines' with
    | nil => exact ⟨rfl, h⟩
    | cons line' lines' =>
      rw [joinLines_nil, joinLines_cons] at h
      rw [h] at htail
      exact absurd (List.mem_append_right _ List.mem_cons_self) htail
  | cons line lines ih =>
    cases lines' with
    | nil =>
      rw [joinLines_nil, joinLines_cons] at h
      rw [← h] at htail'
      exact absurd (List.mem_append_right _ List.mem_cons_self) htail'
    | cons line' lines' =>
      obtain ⟨hline, hlines⟩ := List.forall_mem_cons.mp hlines
      obtain ⟨hline', hlines'⟩ := List.forall_mem_cons.mp hlines'
      rw [joinLines_cons, joinLines_cons] at h
      obtain ⟨hfirst, hrest⟩ := append_sep_inj sep hline hline' h
      obtain ⟨hmore, htails⟩ := ih hlines hlines' hrest
      exact ⟨by rw [hfirst, hmore], htails⟩

/-- As many lines as separators. -/
theorem count_joinLines [DecidableEq α] {lines : List (List α)} {tail : List α}
    (hlines : ∀ line ∈ lines, sep ∉ line) (htail : sep ∉ tail) :
    (joinLines sep lines tail).count sep = lines.length := by
  induction lines with
  | nil => exact List.count_eq_zero.mpr htail
  | cons line lines ih =>
    obtain ⟨hline, hlines⟩ := List.forall_mem_cons.mp hlines
    rw [joinLines_cons, List.count_append, List.count_eq_zero.mpr hline, List.count_cons_self,
      ih hlines, List.length_cons, Nat.zero_add]

/-- Splitting gives the lines, and the tail. -/
theorem splitOn_joinLines [DecidableEq α] {lines : List (List α)} (hlines : ∀ line ∈ lines, sep ∉ line)
    (tail : List α) : (joinLines sep lines tail).splitOn sep = lines ++ tail.splitOn sep := by
  induction lines with
  | nil => rfl
  | cons line lines ih =>
    obtain ⟨hline, hlines⟩ := List.forall_mem_cons.mp hlines
    rw [joinLines_cons, List.splitOn_append_cons_self_of_not_mem hline, ih hlines]
    rfl

/-- No piece has a separator. -/
theorem notMem_of_mem_splitOn [DecidableEq α] {stream piece : List α} (h : piece ∈ stream.splitOn sep) :
    sep ∉ piece := by
  obtain ⟨lines, tail, rfl, hlines, htail⟩ := exists_joinLines sep stream
  rw [splitOn_joinLines sep hlines, List.splitOn_eq_singleton htail, List.mem_append,
    List.mem_singleton] at h
  rcases h with hline | rfl
  · exact hlines piece hline
  · exact htail

/-- Streams with no more separators than lines have none inside of these. -/
theorem free_of_count_joinLines [DecidableEq α] {lines : List (List α)} {tail : List α}
    (h : (joinLines sep lines tail).count sep ≤ lines.length + tail.count sep) :
    ∀ line ∈ lines, sep ∉ line := by
  have hle : ∀ lines : List (List α), lines.length + tail.count sep ≤ (joinLines sep lines tail).count sep := by
    intro lines
    induction lines with
    | nil => exact Nat.le_of_eq (Nat.zero_add _)
    | cons line lines ih =>
      rw [joinLines_cons, List.count_append, List.count_cons_self, List.length_cons]
      omega
  induction lines with
  | nil => exact List.forall_mem_nil _
  | cons line lines ih =>
    rw [joinLines_cons, List.count_append, List.count_cons_self, List.length_cons] at h
    have hlines := hle lines
    refine List.forall_mem_cons.mpr ⟨List.count_eq_zero.mp (by omega), ih (by omega)⟩

/-- A stream of whole lines ends with a separator. -/
theorem getLast?_joinLines {lines : List (List α)} (h : lines ≠ []) :
    (joinLines sep lines []).getLast? = some sep := by
  obtain ⟨before, line, rfl⟩ : ∃ before line, lines = before ++ [line] :=
    ⟨_, _, (List.dropLast_concat_getLast h).symm⟩
  rw [joinLines_append, joinLines_cons, joinLines_nil, ← joinLines_tail sep before line,
    List.getLast?_append]
  rfl

/-- How much there is behind the last separator. -/
def tailLength [DecidableEq α] (stream : List α) : Nat := (stream.reverse.takeWhile (· ≠ sep)).length

theorem tailLength_joinLines [DecidableEq α] (lines : List (List α)) {tail : List α}
    (h : sep ∉ tail) : tailLength sep (joinLines sep lines tail) = tail.length := by
  have hwhole : ((joinLines sep lines []).reverse).takeWhile (· ≠ sep) = [] := by
    by_cases hlines : lines = []
    · rw [hlines]
      rfl
    · have hlast := getLast?_joinLines sep hlines
      rw [← List.head?_reverse] at hlast
      obtain ⟨rest, hrest⟩ := List.head?_eq_some_iff.mp hlast
      rw [hrest, List.takeWhile_cons_of_neg (by simp)]
  have htail : ∀ c ∈ tail.reverse, decide (c ≠ sep) = true := fun c hc =>
    decide_eq_true fun heq => h (heq ▸ List.mem_reverse.mp hc)
  rw [tailLength, ← List.nil_append tail, ← joinLines_tail, List.reverse_append,
    List.takeWhile_append_of_pos htail, hwhole, List.append_nil, List.length_reverse,
    List.nil_append]

end DevopsBroker.Lib
