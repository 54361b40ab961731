import DevopsBroker.Adt.ListOf
import DevopsBroker.Lang.StringCompareSpec

/-!
# Lists that are sorted by name

A list whose elements are compared by a string is in the order of unsigned bytes after a sort.
The comparison is a preorder among strings only, so that the sort is one of elements that have
such a name: a sort does not look at anything but what it compares.
-/

namespace DevopsBroker.Lang

open DevopsBroker.Lib

section

variable {α β : Type} (f : α → β) (compare : β → β → Int)

theorem partitionLoop_map (highPtr : α) (n : Nat) :
    ∀ (array : List α) (pivot j : Nat),
      partitionLoop compare (f highPtr) n (array.map f) pivot j =
        (partitionLoop (fun a b => compare (f a) (f b)) highPtr n array pivot j).map
          (Prod.map (List.map f) id) := by
  induction n with
  | zero => exact fun _ _ _ => rfl
  | succ n ih =>
    intro array pivot j
    rw [partitionLoop, partitionLoop, List.getElem?_map, List.getElem?_map]
    cases array[j]? with
    | none => rfl
    | some currentPtr =>
      simp only [Option.map_some, Option.bind_eq_bind, Option.bind_some]
      by_cases hle : compare (f currentPtr) (f highPtr) ≤ 0
      · rw [if_pos hle, if_pos hle]
        cases array[pivot]? with
        | none => rfl
        | some tempPtr =>
          simp only [Option.map_some, Option.bind_some]
          rw [← List.map_set, ← List.map_set, ih]
      · rw [if_neg hle, if_neg hle, ih]

theorem partition_map (array : List α) (l h : Nat) :
    partition compare (array.map f) l h =
      (partition (fun a b => compare (f a) (f b)) array l h).map (Prod.map (List.map f) id) := by
  unfold partition
  rw [List.getElem?_map]
  cases array[h]? with
  | none => rfl
  | some highPtr =>
    simp only [Option.map_some, Option.bind_eq_bind, Option.bind_some]
    rw [partitionLoop_map]
    cases partitionLoop (fun a b => compare (f a) (f b)) highPtr (h - l) array l l with
    | none => rfl
    | some r =>
      obtain ⟨array', pivot⟩ := r
      simp only [Option.map_some, Option.bind_some, Prod.map_apply, id_eq, List.getElem?_map]
      cases array'[pivot]? with
      | none => rfl
      | some tempPtr =>
        simp only [Option.map_some, Option.bind_some, ← List.map_set]
        rfl

theorem sortLoop_map (fuel : Nat) :
    ∀ (stack : AuxStack) (array : List α),
      sortLoop compare fuel stack (array.map f) =
        (sortLoop (fun a b => compare (f a) (f b)) fuel stack array).map (List.map f) := by
  induction fuel with
  | zero => exact fun _ _ => rfl
  | succ fuel ih =>
    intro ⟨declared, items⟩ array
    match items with
    | [] => rfl
    | [_] => rfl
    | h :: l :: items =>
      rw [sortLoop, sortLoop]
      dsimp only
      rw [partition_map]
      cases partition (fun a b => compare (f a) (f b)) array l h with
      | none => rfl
      | some r =>
        obtain ⟨array', pivot⟩ := r
        simp only [Option.map_some, Option.bind_eq_bind, Option.bind_some, Prod.map_apply, id_eq]
        cases AuxStack.pushSide ⟨declared, items⟩ l (pivot - 1) with
        | none => rfl
        | some stack =>
          simp only [Option.bind_some]
          cases stack.pushSide (pivot + 1) h with
          | none => rfl
          | some stack => exact ih stack array'

/-- **A sort looks at nothing but what it compares.** -/
theorem sortPtrArray_map (array : List α) (l h : Nat) :
    sortPtrArray compare (array.map f) l h =
      (sortPtrArray (fun a b => compare (f a) (f b)) array l h).map (List.map f) := by
  unfold sortPtrArray
  by_cases hsmall : h - l + 1 < 2 ^ 31
  · rw [if_pos hsmall, if_pos hsmall]
    cases AuxStack.pushRange ⟨h - l + 1, []⟩ l h with
    | none => rfl
    | some stack => exact sortLoop_map f compare _ stack array
  · rw [if_neg hsmall, if_neg hsmall]
    rfl

end

/-- The whole of an array that was sorted is in order. -/
theorem sortPtrArray_ordered {α : Type} {compare : α → α → Int} (hcompare : TotalPreorder compare)
    {array array' : List α} (hsort : sortPtrArray compare array 0 (array.length - 1) = some array') :
    array'.Pairwise fun a b => compare a b ≤ 0 := by
  by_cases hlt : array.length - 1 < array.length
  · obtain ⟨hrange, hsmall⟩ : 0 < array.length - 1 ∧ array.length - 1 - 0 + 1 < 2 ^ 31 := by
      by_contra hno
      rw [(sortPtrArray_exactly compare (Nat.zero_le _) hlt).fails hno] at hsort
      cases hsort
    have hperm : array'.Perm array := by
      obtain ⟨array'', hsort', hperm⟩ :=
        (sortPtrArray_exactly compare (Nat.zero_le _) hlt).comes ⟨hrange, hsmall⟩
      rw [hsort, Option.some.injEq] at hsort'
      exact hsort' ▸ hperm
    rw [sortPtrArray, if_pos hsmall, pushRange_eq (by rw [List.length_nil]; omega)] at hsort
    have hstart : Sorting compare 0 (array.length - 1) array [array.length - 1, 0] := by
      refine ⟨?_, List.pairwise_singleton _ _, ?_⟩
      · intro r hr
        obtain rfl := List.mem_singleton.mp hr
        exact ⟨Nat.le_refl _, hrange, Nat.le_refl _⟩
      · intro i j hi _ hj
        exact Or.inl ⟨(0, array.length - 1), List.mem_cons_self, hi, hj⟩
    have hordered := (sortLoop_sorts hcompare _ hstart hlt hsort).1
    have hlength := hperm.length_eq
    rw [List.pairwise_iff_getElem]
    intro i j hi hj hij
    exact hordered i j (Nat.zero_le i) hij (by omega) _ _ (List.getElem?_eq_getElem hi)
      (List.getElem?_eq_getElem hj)
  · -- an empty range cannot be read
    obtain rfl := List.length_eq_zero_iff.mp (by omega : array.length = 0)
    cases hsort

/-- Strings are compared in the lexicographic order. -/
theorem compare_le_iff {first second : List UInt8} (hfirst : 0 ∉ first) :
    compare first second ≤ 0 ↔ first ≤ second := by
  rw [← List.not_lt, ← compare_neg_iff hfirst, compare_swap first second]
  omega

/-- A structure with a string for a name. -/
theorem compare_preorder {α : Type} (name : α → List UInt8) :
    TotalPreorder fun a b : { a : α // 0 ∉ name a } => compare (name a) (name b) := by
  refine ⟨fun a b => ?_, fun a b c hab hbc => ?_⟩
  · rw [compare_swap (name a) (name b)]
    omega
  · rw [compare_le_iff a.2] at hab ⊢
    rw [compare_le_iff b.2] at hbc
    exact List.le_trans hab hbc

end DevopsBroker.Lang

namespace DevopsBroker.Adt.ListOf

open DevopsBroker.Lang

/-- **A sort by name** leaves the names in order. -/
theorem sort_ordered {α : Type} (name : α → List UInt8) {list list' : ListOf α}
    (hnames : ∀ a ∈ list.values, 0 ∉ name a)
    (hsort : list.sort (fun a b => Lang.compare (name a) (name b)) = some list') :
    (list'.values.map name).Pairwise (· ≤ ·) := by
  unfold sort at hsort
  by_cases hpos : 0 < list.values.length
  · rw [if_pos hpos] at hsort
    obtain ⟨values, hvalues, rfl⟩ := Option.map_eq_some_iff.mp hsort
    -- the elements, with what is known of their names
    obtain ⟨named, hnamed⟩ : ∃ named : List { a : α // 0 ∉ name a }, named.map Subtype.val = list.values :=
      ⟨list.values.attachWith _ hnames, List.attachWith_map_subtype_val _⟩
    rw [← hnamed, List.length_map, sortPtrArray_map Subtype.val] at hvalues
    obtain ⟨sorted, hsorted, rfl⟩ := Option.map_eq_some_iff.mp hvalues
    have hordered := sortPtrArray_ordered (compare_preorder name) hsorted
    rw [List.map_map, List.pairwise_map]
    exact hordered.imp fun {a b} hle => (compare_le_iff a.2).mp hle
  · rw [if_neg hpos, Option.some.injEq] at hsort
    subst hsort
    obtain hnil := List.length_eq_zero_iff.mp (by omega : list.values.length = 0)
    rw [hnil]
    exact List.Pairwise.nil

end DevopsBroker.Adt.ListOf
