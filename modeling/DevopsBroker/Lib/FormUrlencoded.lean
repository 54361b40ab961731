import DevopsBroker.Lib.Characters

/-!
# `application/x-www-form-urlencoded`

The encoding of a list of pairs of byte strings. A safe byte stands for itself and a space is a
`+`; every other byte is a `%` with its two upper-case hexadecimal digits. A `=` stands between
the name and the value of a pair, and a `&` between two pairs.
-/

namespace DevopsBroker.Lib

/-- Digits, letters, and `*`, `-`, `.`, `_`. -/
def IsSafe (c : UInt8) : Prop :=
  (0x30 ≤ c ∧ c ≤ 0x39) ∨ (0x41 ≤ c ∧ c ≤ 0x5A) ∨ (0x61 ≤ c ∧ c ≤ 0x7A) ∨
    c = 0x2A ∨ c = 0x2D ∨ c = 0x2E ∨ c = 0x5F

instance (c : UInt8) : Decidable (IsSafe c) := inferInstanceAs (Decidable (_ ∨ _))

/-- The upper-case digit with a value. -/
def upperDigit (d : UInt8) : UInt8 := if d < 10 then 0x30 + d else 0x37 + d

/-- How a byte is written. -/
def encodeByte (c : UInt8) : List UInt8 :=
  if IsSafe c then [c]
  else if c = 0x20 then [0x2B]
  else [0x25, upperDigit (c >>> 4), upperDigit (c &&& 0x0F)]

/-- How a byte string is written. -/
def encodeText (text : List UInt8) : List UInt8 := text.flatMap encodeByte

/-- A byte string made of a name and a value. -/
abbrev Field := List UInt8 × List UInt8

/-- Names and values in a row, with `eq` behind a name and `amp` between two pairs. -/
def joinFields (eq amp : UInt8) : List Field → List UInt8
  | [] => []
  | [field] => field.1 ++ eq :: field.2
  | field :: fields => field.1 ++ eq :: field.2 ++ amp :: joinFields eq amp fields

/-- The encoding of a list of pairs. -/
def encodeFields (fields : List Field) : List UInt8 :=
  joinFields 0x3D 0x26 (fields.map fun field => (encodeText field.1, encodeText field.2))

/-! ## Fields in a row -/

theorem joinFields_singleton (eq amp : UInt8) (field : Field) :
    joinFields eq amp [field] = field.1 ++ eq :: field.2 := rfl

theorem joinFields_cons (eq amp : UInt8) (field : Field) {fields : List Field} (h : fields ≠ []) :
    joinFields eq amp (field :: fields) =
      field.1 ++ eq :: field.2 ++ amp :: joinFields eq amp fields := by
  cases fields with
  | nil => exact absurd rfl h
  | cons next fields => rfl

/-- Every name and every value is in the row. -/
theorem mem_joinFields {eq amp : UInt8} {fields : List Field} {field : Field} (h : field ∈ fields)
    {c : UInt8} (hc : c ∈ field.1 ∨ c ∈ field.2) : c ∈ joinFields eq amp fields := by
  induction fields with
  | nil => exact absurd h List.not_mem_nil
  | cons first fields ih =>
    by_cases hnil : fields = []
    · subst hnil
      obtain rfl := List.mem_singleton.mp h
      rw [joinFields_singleton, List.mem_append, List.mem_cons]
      exact hc.imp_right Or.inr
    · rw [joinFields_cons _ _ _ hnil, List.mem_append, List.mem_append, List.mem_cons, List.mem_cons]
      rcases List.mem_cons.mp h with heq | hmem
      · subst heq
        exact Or.inl (hc.imp_right Or.inr)
      · exact Or.inr (Or.inr (ih hmem))

/-- There is nothing else in the row but the bytes in between. -/
theorem of_mem_joinFields {eq amp c : UInt8} {fields : List Field} (h : c ∈ joinFields eq amp fields) :
    c = eq ∨ c = amp ∨ ∃ field ∈ fields, c ∈ field.1 ∨ c ∈ field.2 := by
  induction fields with
  | nil => exact absurd h List.not_mem_nil
  | cons first fields ih =>
    have hfirst : c ∈ first.1 ++ eq :: first.2 →
        c = eq ∨ c = amp ∨ ∃ field ∈ first :: fields, c ∈ field.1 ∨ c ∈ field.2 := by
      intro hc
      rw [List.mem_append, List.mem_cons] at hc
      rcases hc with hname | heq | hvalue
      · exact Or.inr (Or.inr ⟨first, List.mem_cons_self, Or.inl hname⟩)
      · exact Or.inl heq
      · exact Or.inr (Or.inr ⟨first, List.mem_cons_self, Or.inr hvalue⟩)
    by_cases hnil : fields = []
    · subst hnil
      exact hfirst h
    · rw [joinFields_cons _ _ _ hnil, List.mem_append, List.mem_cons] at h
      rcases h with hc | hamp | hrest
      · exact hfirst hc
      · exact Or.inr (Or.inl hamp)
      · rcases ih hrest with heq | hamp | ⟨field, hfield, hc⟩
        · exact Or.inl heq
        · exact Or.inr (Or.inl hamp)
        · exact Or.inr (Or.inr ⟨field, List.mem_cons_of_mem _ hfield, hc⟩)

/-- The row is as long as its parts, with a byte in front of every value and every later name. -/
theorem length_le_joinFields {eq amp : UInt8} (fields : List Field) :
    fields.length ≤ (joinFields eq amp fields).length := by
  induction fields with
  | nil => exact Nat.le_refl 0
  | cons field fields ih =>
    by_cases hnil : fields = []
    · subst hnil
      simp only [joinFields_singleton, List.length_append, List.length_cons, List.length_nil]
      omega
    · rw [joinFields_cons _ _ _ hnil]
      simp only [List.length_append, List.length_cons]
      omega

end DevopsBroker.Lib
