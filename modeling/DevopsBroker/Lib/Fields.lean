import Mathlib.Data.List.Basic

/-!
# Texts that are cut at a separator

A separator at the very end of a text ends the last piece, and no empty piece follows it. Apart from
that one separator the pieces of a text, joined again, are the text.
-/

namespace DevopsBroker.Lib

variable {α : Type} [DecidableEq α] {sep : α}

/-- A text without the separator at its end, if there is one. -/
def withoutLast (sep : α) (text : List α) : List α :=
  if text.getLast? = some sep then text.dropLast else text

/-- What a text is cut into. -/
structure SplitsInto (sep : α) (text : List α) (pieces : List (List α)) : Prop where
  join : [sep].intercalate pieces = withoutLast sep text
  ne_nil : pieces ≠ []
  free : ∀ piece ∈ pieces, sep ∉ piece

theorem withoutLast_of_notMem {text : List α} (h : sep ∉ text) : withoutLast sep text = text := by
  unfold withoutLast
  rw [if_neg fun hlast => h (List.mem_of_getLast? hlast)]

@[simp] theorem withoutLast_concat (text : List α) : withoutLast sep (text ++ [sep]) = text := by
  unfold withoutLast
  rw [List.getLast?_concat, if_pos rfl, List.dropLast_concat]

theorem withoutLast_append (front : List α) {text : List α} (h : text ≠ []) :
    withoutLast sep (front ++ text) = front ++ withoutLast sep text := by
  unfold withoutLast
  rw [List.getLast?_append_of_ne_nil _ h, List.dropLast_append_of_ne_nil h]
  split <;> rfl

/-- A text, or what is left of it in front of the separator at its end. -/
theorem withoutLast_cases (sep : α) (text : List α) :
    withoutLast sep text = text ∨ withoutLast sep text ++ [sep] = text := by
  unfold withoutLast
  split
  next hlast => exact Or.inr (List.dropLast_append_getLast? sep hlast)
  next _ => exact Or.inl rfl

theorem length_withoutLast_le (sep : α) (text : List α) :
    (withoutLast sep text).length ≤ text.length := by
  unfold withoutLast
  split
  · rw [List.length_dropLast]
    exact Nat.sub_le _ _
  · exact Nat.le_refl _

/-! ## Cutting -/

/-- A text without separators is one piece. -/
theorem splitsInto_single {text : List α} (h : sep ∉ text) : SplitsInto sep text [text] where
  join := by rw [List.intercalate_singleton, withoutLast_of_notMem h]
  ne_nil := List.cons_ne_nil _ _
  free := fun piece hmem => by rwa [List.mem_singleton.mp hmem]

/-- So is one with a separator behind it. -/
theorem splitsInto_last {text : List α} (h : sep ∉ text) :
    SplitsInto sep (text ++ [sep]) [text] where
  join := by rw [List.intercalate_singleton, withoutLast_concat]
  ne_nil := List.cons_ne_nil _ _
  free := fun piece hmem => by rwa [List.mem_singleton.mp hmem]

/-- A piece in front of the others. -/
theorem SplitsInto.cons {front text : List α} {pieces : List (List α)} (h : SplitsInto sep text pieces)
    (hfront : sep ∉ front) (hne : text ≠ []) :
    SplitsInto sep (front ++ sep :: text) (front :: pieces) where
  join := by
    obtain ⟨piece, pieces, rfl⟩ := List.exists_cons_of_ne_nil h.ne_nil
    rw [List.intercalate_cons_cons, h.join, List.append_cons front sep text, withoutLast_append _ hne]
  ne_nil := List.cons_ne_nil _ _
  free := fun piece hmem => by
    rcases List.mem_cons.mp hmem with rfl | hmem
    · exact hfront
    · exact h.free piece hmem

/-- A character in front of the first piece. -/
theorem SplitsInto.cons_char {text piece : List α} {pieces : List (List α)} {c : α}
    (h : SplitsInto sep text (piece :: pieces)) (hc : c ≠ sep) (hne : text ≠ []) :
    SplitsInto sep (c :: text) ((c :: piece) :: pieces) where
  join := by
    have hlast : withoutLast sep (c :: text) = c :: withoutLast sep text := withoutLast_append [c] hne
    rw [hlast, ← h.join]
    cases pieces with
    | nil => rw [List.intercalate_singleton, List.intercalate_singleton]
    | cons piece' pieces =>
      rw [List.intercalate_cons_cons, List.intercalate_cons_cons, List.cons_append, List.cons_append]
  ne_nil := List.cons_ne_nil _ _
  free := fun other hmem => by
    rcases List.mem_cons.mp hmem with rfl | hmem
    · exact List.not_mem_cons_of_ne_of_not_mem hc.symm (h.free piece List.mem_cons_self)
    · exact h.free other (List.mem_cons_of_mem _ hmem)

/-- **Every text is cut into some pieces.** -/
theorem exists_splitsInto (sep : α) (text : List α) : ∃ pieces, SplitsInto sep text pieces := by
  induction text with
  | nil => exact ⟨_, splitsInto_single List.not_mem_nil⟩
  | cons c text ih =>
    by_cases hc : c = sep
    · subst hc
      rcases eq_or_ne text [] with rfl | hne
      · exact ⟨_, splitsInto_last List.not_mem_nil⟩
      · obtain ⟨pieces, hpieces⟩ := ih
        exact ⟨_, hpieces.cons List.not_mem_nil hne⟩
    · rcases eq_or_ne text [] with rfl | hne
      · exact ⟨_, splitsInto_single fun hmem => hc (List.mem_singleton.mp hmem).symm⟩
      · obtain ⟨pieces, hpieces⟩ := ih
        obtain ⟨piece, others, rfl⟩ := List.exists_cons_of_ne_nil hpieces.ne_nil
        exact ⟨_, hpieces.cons_char hc hne⟩

/-- Pieces are determined by what they are when they are joined. -/
theorem SplitsInto.unique {text : List α} {pieces pieces' : List (List α)}
    (h : SplitsInto sep text pieces) (h' : SplitsInto sep text pieces') : pieces = pieces' := by
  rw [← List.splitOn_intercalate sep h.free h.ne_nil, h.join, ← h'.join,
    List.splitOn_intercalate sep h'.free h'.ne_nil]

omit [DecidableEq α] in
/-- One more piece at the end. -/
theorem intercalate_concat {pieces : List (List α)} (h : pieces ≠ []) (piece : List α) :
    [sep].intercalate (pieces ++ [piece]) = [sep].intercalate pieces ++ sep :: piece := by
  induction pieces with
  | nil => exact absurd rfl h
  | cons first pieces ih =>
    cases pieces with
    | nil => simp [List.intercalate_cons_cons]
    | cons second pieces =>
      rw [List.cons_append, List.cons_append, List.intercalate_cons_cons, ← List.cons_append,
        ih (List.cons_ne_nil _ _), List.intercalate_cons_cons, List.append_assoc _ _ (sep :: piece)]

omit [DecidableEq α] in
/-- The first two pieces as one. -/
theorem intercalate_join (front piece : List α) (pieces : List (List α)) :
    [sep].intercalate ((front ++ sep :: piece) :: pieces) =
      [sep].intercalate (front :: piece :: pieces) := by
  cases pieces with
  | nil => simp [List.intercalate_cons_cons]
  | cons next pieces => simp [List.intercalate_cons_cons]

/-! ## Counting -/

/-- Joined pieces have one separator less than there are pieces. -/
theorem count_intercalate {pieces : List (List α)} (hfree : ∀ piece ∈ pieces, sep ∉ piece) :
    ([sep].intercalate pieces).count sep = pieces.length - 1 := by
  induction pieces with
  | nil => rfl
  | cons piece pieces ih =>
    have hpiece : piece.count sep = 0 :=
      List.count_eq_zero_of_not_mem (hfree piece List.mem_cons_self)
    cases pieces with
    | nil => rw [List.intercalate_singleton, hpiece, List.length_singleton]
    | cons piece' pieces =>
      have hrest := ih fun piece hmem => hfree piece (List.mem_cons_of_mem _ hmem)
      rw [List.intercalate_cons_cons, List.count_append, List.count_append, hpiece, hrest,
        List.count_singleton_self]
      simp only [List.length_cons]
      omega

/-- **How many pieces there are.** -/
theorem SplitsInto.length {text : List α} {pieces : List (List α)} (h : SplitsInto sep text pieces) :
    pieces.length = (withoutLast sep text).count sep + 1 := by
  have hpos : 0 < pieces.length := List.length_pos_of_ne_nil h.ne_nil
  rw [← h.join, count_intercalate h.free]
  omega

/-- Pieces that join to the text, but for a separator at the end, are as many as its separators, but
for one. -/
theorem count_le_of_join {text : List α} {pieces : List (List α)} (hfree : ∀ piece ∈ pieces, sep ∉ piece)
    (hjoin : [sep].intercalate pieces = text ∨ [sep].intercalate pieces ++ [sep] = text) :
    text.count sep ≤ pieces.length + 1 := by
  have hcount := count_intercalate hfree
  rcases hjoin with rfl | rfl
  · omega
  · rw [List.count_append, List.count_singleton_self]
    omega

theorem count_withoutLast_le (sep : α) (text : List α) :
    (withoutLast sep text).count sep ≤ text.count sep := by
  rcases withoutLast_cases sep text with hsame | hconcat
  · exact Nat.le_of_eq (congrArg (List.count sep) hsame)
  · have hcount := congrArg (List.count sep) hconcat
    rw [List.count_append] at hcount
    omega

end DevopsBroker.Lib
