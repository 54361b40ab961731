import Mathlib.Data.List.Infix
import Mathlib.Data.Nat.Find

/-!
# Searching without going back

A search that tries a pattern at one place of a text after the other. When an attempt fails it goes
on behind the character that did not match, so that it looks at every character once. The text
falls into failed attempts, and then a match or the part of one (`Scanned`); there is only one
way for that (`attempts_unique`). **`Scanned.locates_iff`**: the search finds the first occurrence
exactly when what is in front of it is failed attempts.
-/

namespace DevopsBroker.Lib

variable {α : Type}

/-- A failed attempt: some of the pattern, and then another character than the next one. -/
inductive Fails : List α → List α → Prop where
  | here {c d : α} {rest : List α} : d ≠ c → Fails (c :: rest) [d]
  | there {c : α} {rest attempt : List α} : Fails rest attempt → Fails (c :: rest) (c :: attempt)

/-- Failed attempts one behind the other. -/
def Attempts (pattern before : List α) : Prop :=
  ∃ attempts : List (List α), (∀ attempt ∈ attempts, Fails pattern attempt) ∧
    before = attempts.flatten

/-- What is in front of the first occurrence, and what is behind it. -/
def FirstIn (pattern text before after : List α) : Prop :=
  text = before ++ pattern ++ after ∧
    ∀ before' after', text = before' ++ pattern ++ after' → before.length ≤ before'.length

/-- The end of the first occurrence, if there is one. -/
def Locates (pattern text : List α) : Option Nat → Prop
  | none => ¬ pattern <:+: text
  | some n => ∃ before after, FirstIn pattern text before after ∧ n = (before ++ pattern).length

/-- What the search comes to: attempts and the pattern, or attempts and less than the pattern. -/
def Scanned (pattern text : List α) : Option Nat → Prop
  | none => ∃ before matched more, Attempts pattern before ∧ text = before ++ matched ∧
      pattern = matched ++ more ∧ more ≠ []
  | some n => ∃ before after, Attempts pattern before ∧ text = before ++ pattern ++ after ∧
      n = (before ++ pattern).length

/-! ## Attempts -/

theorem fails_append {c d : α} (h : d ≠ c) (matched rest : List α) :
    Fails (matched ++ c :: rest) (matched ++ [d]) := by
  induction matched with
  | nil => exact .here h
  | cons m matched ih => exact .there ih

theorem attempts_nil (pattern : List α) : Attempts pattern [] := ⟨[], List.forall_mem_nil _, rfl⟩

theorem Attempts.append {pattern before attempt : List α} (h : Attempts pattern before)
    (hfails : Fails pattern attempt) : Attempts pattern (before ++ attempt) := by
  obtain ⟨attempts, hall, rfl⟩ := h
  refine ⟨attempts ++ [attempt], ?_, by rw [List.flatten_append, List.flatten_singleton]⟩
  intro a ha
  rcases List.mem_append.mp ha with hold | hnew
  · exact hall a hold
  · rw [List.mem_singleton.mp hnew]
    exact hfails

/-- A text starts with one failed attempt at most. -/
theorem Fails.unique {pattern a b x y : List α} (ha : Fails pattern a) :
    Fails pattern b → a ++ x = b ++ y → a = b ∧ x = y := by
  induction ha generalizing b with
  | here hne =>
    intro hb heq
    cases hb with
    | here => exact ⟨congrArg (fun c => [c]) (List.cons.inj heq).1, (List.cons.inj heq).2⟩
    | there => exact absurd (List.cons.inj heq).1 hne
  | there _ ih =>
    intro hb heq
    cases hb with
    | here hne => exact absurd (List.cons.inj heq).1.symm hne
    | there hrest =>
      obtain ⟨rfl, hxy⟩ := ih hrest (List.cons.inj heq).2
      exact ⟨rfl, hxy⟩

/-- It does not start with the pattern, then. -/
theorem Fails.ne_append {pattern a : List α} (ha : Fails pattern a) (x y : List α) :
    a ++ x ≠ pattern ++ y := by
  induction ha with
  | here hne => exact fun heq => hne (List.cons.inj heq).1
  | there _ ih => exact fun heq => ih (List.cons.inj heq).2

/-- **The attempts in front of a match are determined.** -/
theorem attempts_unique {pattern before before' after after' : List α} (h : Attempts pattern before)
    (h' : Attempts pattern before') (heq : before ++ pattern ++ after = before' ++ pattern ++ after') :
    before = before' := by
  obtain ⟨attempts, hall, rfl⟩ := h
  obtain ⟨attempts', hall', rfl⟩ := h'
  induction attempts generalizing attempts' with
  | nil =>
    cases attempts' with
    | nil => rfl
    | cons a attempts' =>
      have hne := (hall' a List.mem_cons_self).ne_append (attempts'.flatten ++ pattern ++ after') after
      rw [List.flatten_nil, List.nil_append, List.flatten_cons] at heq
      simp only [List.append_assoc] at heq hne
      exact absurd heq.symm hne
  | cons a attempts ih =>
    cases attempts' with
    | nil =>
      have hne := (hall a List.mem_cons_self).ne_append (attempts.flatten ++ pattern ++ after) after'
      rw [List.flatten_nil, List.nil_append, List.flatten_cons] at heq
      simp only [List.append_assoc] at heq hne
      exact absurd heq hne
    | cons a' attempts' =>
      rw [List.flatten_cons, List.flatten_cons]
      rw [List.flatten_cons, List.flatten_cons, List.append_assoc, List.append_assoc,
        List.append_assoc, List.append_assoc] at heq
      obtain ⟨rfl, hrest⟩ :=
        (hall a List.mem_cons_self).unique (hall' a' List.mem_cons_self) heq
      rw [← List.append_assoc, ← List.append_assoc] at hrest
      rw [ih (fun b hb => hall b (List.mem_cons_of_mem _ hb)) attempts'
        (fun b hb => hall' b (List.mem_cons_of_mem _ hb)) hrest]

/-- A text does not fall into attempts and the pattern when it falls into attempts and less. -/
theorem attempts_not_partial {pattern before before' after matched more : List α}
    (h : Attempts pattern before) (h' : Attempts pattern before') (hpattern : pattern = matched ++ more)
    (hmore : more ≠ []) : before ++ pattern ++ after ≠ before' ++ matched := by
  obtain ⟨attempts, hall, rfl⟩ := h
  obtain ⟨attempts', hall', rfl⟩ := h'
  intro heq
  induction attempts generalizing attempts' with
  | nil =>
    cases attempts' with
    | nil =>
      -- the pattern is longer than what is there
      have hlength := congrArg List.length heq
      have hpos := List.length_pos_iff.mpr hmore
      rw [hpattern] at hlength
      simp only [List.flatten_nil, List.nil_append, List.length_append] at hlength
      omega
    | cons a attempts' =>
      have hne := (hall' a List.mem_cons_self).ne_append (attempts'.flatten ++ matched) after
      rw [List.flatten_nil, List.nil_append, List.flatten_cons, List.append_assoc] at heq
      exact hne heq.symm
  | cons a attempts ih =>
    cases attempts' with
    | nil =>
      have hne := (hall a List.mem_cons_self).ne_append (attempts.flatten ++ pattern ++ after ++ more) []
      rw [List.flatten_nil, List.nil_append, List.flatten_cons] at heq
      rw [List.append_nil] at hne
      apply hne
      calc a ++ (attempts.flatten ++ pattern ++ after ++ more)
          = a ++ attempts.flatten ++ pattern ++ after ++ more := by simp only [List.append_assoc]
        _ = pattern := by rw [heq, ← hpattern]
    | cons a' attempts' =>
      rw [List.flatten_cons, List.flatten_cons, List.append_assoc, List.append_assoc,
        List.append_assoc] at heq
      obtain ⟨rfl, hrest⟩ :=
        (hall a List.mem_cons_self).unique (hall' a' List.mem_cons_self) heq
      rw [← List.append_assoc] at hrest
      exact ih (fun b hb => hall b (List.mem_cons_of_mem _ hb)) attempts'
        (fun b hb => hall' b (List.mem_cons_of_mem _ hb)) hrest

/-! ## The first occurrence -/

theorem exists_firstIn {pattern text : List α} (h : pattern <:+: text) :
    ∃ before after, FirstIn pattern text before after := by
  classical
  have hsome : ∃ n before after, text = before ++ pattern ++ after ∧ before.length = n := by
    obtain ⟨before, after, heq⟩ := h
    exact ⟨before.length, before, after, heq.symm, rfl⟩
  obtain ⟨before, after, htext, hlength⟩ := Nat.find_spec hsome
  refine ⟨before, after, htext, fun before' after' htext' => ?_⟩
  rw [hlength]
  exact Nat.find_min' hsome ⟨before', after', htext', rfl⟩

/-- Two occurrences that are both the first one are in the same place. -/
theorem FirstIn.unique {pattern text before after before' after' : List α}
    (h : FirstIn pattern text before after) (h' : FirstIn pattern text before' after') :
    before = before' := by
  have hlength := Nat.le_antisymm (h.2 _ _ h'.1) (h'.2 _ _ h.1)
  have heq := h.1.symm.trans h'.1
  rw [List.append_assoc, List.append_assoc] at heq
  exact (List.append_inj heq hlength).1

/-- **The search is right exactly when** there is no occurrence, or failed attempts lead up to
the first one. -/
theorem Scanned.locates_iff {pattern text : List α} {result : Option Nat}
    (h : Scanned pattern text result) :
    Locates pattern text result ↔
      ∀ before after, FirstIn pattern text before after → Attempts pattern before := by
  cases result with
  | none =>
    obtain ⟨before', matched, more, hattempts', htext, hpattern, hmore⟩ := h
    constructor
    · intro habsent before after hfirst
      exact absurd ⟨before, after, hfirst.1.symm⟩ habsent
    · intro hall hoccurs
      obtain ⟨before, after, hfirst⟩ := exists_firstIn hoccurs
      exact attempts_not_partial (hall before after hfirst) hattempts' hpattern hmore
        (hfirst.1.symm.trans htext)
  | some n =>
    obtain ⟨before', after', hattempts', htext, hn⟩ := h
    constructor
    · rintro ⟨before₁, after₁, hfirst₁, hn₁⟩ before after hfirst
      -- the search stopped where the first occurrence is
      have hlength : before'.length = before.length := by
        rw [← hfirst₁.unique hfirst]
        rw [hn, List.length_append, List.length_append] at hn₁
        omega
      have heq := htext.symm.trans hfirst.1
      rw [List.append_assoc, List.append_assoc] at heq
      rw [← (List.append_inj heq hlength).1]
      exact hattempts'
    · intro hall
      obtain ⟨before, after, hfirst⟩ := exists_firstIn ⟨before', after', htext.symm⟩
      have hsame := attempts_unique (hall before after hfirst) hattempts' (hfirst.1.symm.trans htext)
      exact ⟨before, after, hfirst, by rw [hn, hsame]⟩

end DevopsBroker.Lib
