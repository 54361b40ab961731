import DevopsBroker.Adt.ListArraySpec

/-!
# `ListArray` in assembly and in C

The two implementations of `add`, `addAll` and `addFromStack` side by side, from one
initialised list. They differ in three places:

- the assembly leaves a `NULL` element out, and the C code stores it;
- the C code grows when the new length *is* the size, and growing aborts for a list
  without elements;
- near the end of the `uint32_t` range the new sizes wrap at different lengths, and
  `addAll` in assembly from `2 ^ 29` elements on.

Both take eight bytes for a pointer, and call the one `resizeArray` there is.

**`run_agrees`**: where no call gets there, length and elements agree after every call.
-/

namespace DevopsBroker.Adt

open DevopsBroker.Lang
open DevopsBroker.Lib

namespace ListArray

/-! ## The C functions -/

theorem newCapacity_eq {length : Nat} (h : length ≤ 2 ^ 31 - 8) :
    Arm.newCapacity length = (length + 7) / 8 * 16 := by
  unfold Arm.newCapacity
  rw [Nat.mod_eq_of_lt (by omega), Nat.mod_eq_of_lt (by omega)]
  omega

theorem arm_add_holds (garbage : Mem) {list : ListArray} {items : List Pointer}
    (h : list.Holds items) (element : Pointer)
    (hgrow : list.length = list.size → 0 < list.length ∧ list.length ≤ 2 ^ 31 - 8) :
    ∃ list', Arm.add garbage list element = some list' ∧ list'.Holds (items ++ [element]) := by
  have hlt := h.size_lt
  have hle := h.length_le
  unfold Arm.add
  by_cases hfull : list.length = list.size
  · obtain ⟨hpos, hsmall⟩ := hgrow hfull
    have hcapacity := newCapacity_eq hsmall
    obtain ⟨grown, hresize, hholds, hlength, hsize⟩ := resize_holds garbage h hpos
      (by omega : list.length ≤ Arm.newCapacity list.length) (by omega)
    obtain ⟨values, hstore, hholds'⟩ := storeSlot_holds hholds element (by omega)
    have hwrap : (grown.length + 1) % 2 ^ 32 = grown.length + 1 := Nat.mod_eq_of_lt (by omega)
    refine ⟨_, ?_, hholds'⟩
    simp only [if_pos hfull, hresize, hstore, bind, Option.bind, pure, hwrap]
  · obtain ⟨values, hstore, hholds'⟩ := storeSlot_holds h element (by omega)
    have hwrap : (list.length + 1) % 2 ^ 32 = list.length + 1 := Nat.mod_eq_of_lt (by omega)
    refine ⟨_, ?_, hholds'⟩
    simp only [if_neg hfull, hstore, bind, Option.bind, pure, hwrap]

theorem storeElements_holds {list : ListArray} {items : List Pointer} (h : list.Holds items)
    {elementArray : Elements} {n : Nat} (hnull : elementArray = none → n = 0)
    (hfit : list.length + n ≤ list.size) :
    ∃ values,
      Arm.storeElements list.values elementArray list.length (list.length + n) = some values ∧
        Holds { list with values := values, length := list.length + n }
          (items ++ elementsOf elementArray n) := by
  unfold Arm.storeElements
  cases elementArray with
  | none =>
    -- nothing is read off a null pointer, as there is nothing to store
    have hzero := hnull rfl
    subst hzero
    refine ⟨list.values, by rw [if_neg (by omega)], ?_⟩
    rw [elementsOf, List.append_nil]
    exact h
  | some elements =>
    obtain ⟨values, hstore, hholds⟩ := storeAll_holds h elements hfit
    refine ⟨values, ?_, hholds⟩
    split
    next hlt =>
      dsimp only
      rw [Nat.add_sub_cancel_left]
      exact hstore
    next hge =>
      have hzero : n = 0 := by omega
      subst hzero
      exact hstore

theorem arm_addAll_holds (garbage : Mem) {list : ListArray} {items : List Pointer}
    (h : list.Holds items) {elementArray : Elements} {n : Nat}
    (hnull : elementArray = none → n = 0) (hlt : list.length + n < 2 ^ 32)
    (hgrow : list.size ≤ list.length + n → 0 < list.length ∧ list.length + n ≤ 2 ^ 31 - 8) :
    ∃ list', Arm.addAll garbage list elementArray n = some list' ∧
      list'.Holds (items ++ elementsOf elementArray n) := by
  have hwrap : (list.length + n) % 2 ^ 32 = list.length + n := Nat.mod_eq_of_lt hlt
  unfold Arm.addAll
  by_cases hfull : list.size ≤ list.length + n
  · -- it grows when the array is just filled up, too
    obtain ⟨hpos, hsmall⟩ := hgrow hfull
    have hcapacity := newCapacity_eq hsmall
    obtain ⟨grown, hresize, hholds, hlength, hsize⟩ := resize_holds garbage h hpos
      (by omega : list.length ≤ Arm.newCapacity (list.length + n)) (by omega)
    obtain ⟨values, hstore, hholds'⟩ := storeElements_holds hholds hnull (by omega)
    rw [hlength] at hstore hholds'
    refine ⟨_, ?_, hholds'⟩
    simp only [hwrap, if_pos hfull, hresize, hlength, hstore, bind, Option.bind, pure]
  · obtain ⟨values, hstore, hholds'⟩ := storeElements_holds h hnull (by omega)
    refine ⟨_, ?_, hholds'⟩
    simp only [hwrap, if_neg hfull, hstore, bind, Option.bind, pure]

/-! ## Lists without elements, and calls without any -/

/-- The assembly ignores `NULL`. -/
theorem add_null (garbage : Mem) (list : ListArray) :
    add garbage list nullPointer = some list := by
  unfold add
  rw [if_pos rfl]

theorem add_none (garbage : Mem) {list : ListArray} {element : Pointer}
    (hne : element ≠ nullPointer) (hlen : list.length = 0) (hsize : list.size = 0) :
    add garbage list element = none := by
  unfold add
  rw [if_neg hne, if_pos (by omega), resize_empty garbage hlen]
  rfl

theorem arm_add_none (garbage : Mem) {list : ListArray} (element : Pointer)
    (hlen : list.length = 0) (hsize : list.size = 0) : Arm.add garbage list element = none := by
  unfold Arm.add
  rw [if_pos (by omega), resize_empty garbage hlen]
  rfl

theorem arm_addAll_none (garbage : Mem) {list : ListArray} (elementArray : Elements) {n : Nat}
    (hlen : list.length = 0) (hfull : list.size ≤ n) (hn : n < 2 ^ 32) :
    Arm.addAll garbage list elementArray n = none := by
  have hwrap : (list.length + n) % 2 ^ 32 = n := by
    rw [hlen, Nat.zero_add, Nat.mod_eq_of_lt hn]
  unfold Arm.addAll
  dsimp only
  rw [hwrap, if_pos hfull, resize_empty garbage hlen]
  rfl

/-- Appending nothing changes nothing. -/
theorem arm_addAll_zero (garbage : Mem) {list : ListArray} (elementArray : Elements)
    (hlen : list.length = 0) (hsize : 0 < list.size) :
    Arm.addAll garbage list elementArray 0 = some list := by
  have hwrap : (list.length + 0) % 2 ^ 32 = 0 := by rw [hlen]; rfl
  unfold Arm.addAll Arm.storeElements
  dsimp only
  rw [hwrap, if_neg (by omega)]
  simp only [bind, Option.bind, hlen, Nat.lt_irrefl, if_false, pure]
  rw [← hlen]

theorem addFromStack_zero (garbage : Mem) (list : ListArray) (stack : Elements) :
    addFromStack garbage list stack 0 = some list := by
  unfold addFromStack
  cases stack with
  | none => rfl
  | some elements => exact if_pos rfl

theorem addAll_zero (garbage : Mem) (list : ListArray) (elementArray : Elements) :
    addAll garbage list elementArray 0 = some list := by
  unfold addAll
  cases elementArray with
  | none => rfl
  | some elements => exact if_pos rfl

end ListArray

/-! ## Runs of both -/

/-- A call that both implementations have. -/
inductive AddCall where
  | add (element : Pointer)
  | addAll (elementArray : Elements) (numElements : UInt32)
  | addFromStack (stack : Elements) (numElements : UInt32)

namespace ListArray

/-- A call of the assembly; the first memory is what a block that it allocates holds. -/
def asmStep (list : ListArray) : AddCall × Mem × Mem → Option ListArray
  | (.add element, garbage, _) => add garbage list element
  | (.addAll elementArray numElements, garbage, _) =>
    addAll garbage list elementArray numElements.toNat
  | (.addFromStack stack numElements, garbage, _) =>
    addFromStack garbage list stack numElements.toNat

/-- The same call of the C code, with the second memory. -/
def armStep (list : ListArray) : AddCall × Mem × Mem → Option ListArray
  | (.add element, _, garbage) => Arm.add garbage list element
  | (.addAll elementArray numElements, _, garbage) =>
    Arm.addAll garbage list elementArray numElements.toNat
  | (.addFromStack stack numElements, _, garbage) =>
    Arm.addFromStack garbage list stack numElements.toNat

/-- The same length, and the same elements; the sizes may differ. -/
def SameElements (s t : ListArray) : Prop :=
  s.length = t.length ∧ s.values.slots s.length = t.values.slots t.length

/-- Appending `n` elements is the same in both: the array is not `NULL`, unless nothing is
read from it; a list without elements is not just filled up; for another list no
length and no new size wraps. -/
def AppendFits (s t : ListArray) (elements : Elements) (n : Nat) : Prop :=
  (elements = none → n = 0) ∧ (s.length = 0 → n ≠ s.size) ∧
    (0 < s.length → s.length + n < 2 ^ 32 ∧
      (s.size < s.length + n → s.length + n + (s.length + n) / 2 < 2 ^ 32) ∧
      (t.size ≤ s.length + n → s.length + n ≤ 2 ^ 31 - 8))

/-- A call that is the same in both: appending fits, no element is `NULL`, and a new size
does not wrap; the offset in `addAll` does not either. -/
def BothFit (lists : ListArray × ListArray) : AddCall × Mem × Mem → Prop
  | (.add element, _) =>
    element ≠ nullPointer ∧ (lists.1.length = lists.1.size → lists.1.size < 2 ^ 31) ∧
      (lists.2.length = lists.2.size → lists.2.length ≤ 2 ^ 31 - 8)
  | (.addAll elementArray numElements, _) =>
    AppendFits lists.1 lists.2 elementArray numElements.toNat ∧
      (numElements.toNat = 0 ∨ lists.1.length < 2 ^ 29)
  | (.addFromStack stack numElements, _) =>
    AppendFits lists.1 lists.2 stack numElements.toNat

/-- What a run of both keeps: one sequence, and one size as long as it is empty. -/
def KeepBoth (s t : ListArray) : Prop :=
  ∃ items, s.Holds items ∧ t.Holds items ∧ (s.length = 0 → s.size = t.size)

theorem KeepBoth.same {s t : ListArray} (h : KeepBoth s t) : SameElements s t := by
  obtain ⟨items, hs, ht, _⟩ := h
  exact ⟨hs.length.symm.trans ht.length, hs.slots.trans ht.slots.symm⟩

/-- A list that got elements. -/
theorem keepBoth_of_append {s t : ListArray} {items new : List Pointer}
    (hs : s.Holds (items ++ new)) (ht : t.Holds (items ++ new))
    (hpos : 0 < items.length + new.length) : KeepBoth s t := by
  refine ⟨items ++ new, hs, ht, ?_⟩
  intro hzero
  have hlength := hs.length
  rw [List.length_append] at hlength
  omega

theorem add_agrees (garbage garbage' : Mem) {s t : ListArray} (h : KeepBoth s t)
    {element : Pointer} (hne : element ≠ nullPointer)
    (hs : s.length = s.size → s.size < 2 ^ 31)
    (ht : t.length = t.size → t.length ≤ 2 ^ 31 - 8) :
    (∃ s' t', add garbage s element = some s' ∧ Arm.add garbage' t element = some t' ∧
        KeepBoth s' t') ∨
      (add garbage s element = none ∧ Arm.add garbage' t element = none) := by
  have hsame := h.same.1
  obtain ⟨items, hsholds, htholds, hempty⟩ := h
  have hsle := hsholds.length_le
  by_cases hzero : s.length = 0 ∧ s.size = 0
  · -- neither has room, and neither can grow
    refine Or.inr ⟨add_none garbage hne hzero.1 hzero.2, ?_⟩
    have hsize := hempty hzero.1
    exact arm_add_none garbage' element (by omega) (by omega)
  · -- the sizes of lists without elements are the same
    have hspos : s.length = s.size → 0 < s.length := by omega
    have htpos : t.length = t.size → 0 < t.length := by
      intro hfull
      by_contra hlen
      have hsize := hempty (by omega)
      omega
    obtain ⟨s', hadd, hholds, _⟩ := add_holds garbage hsholds hne hspos hs
    obtain ⟨t', hadd', hholds'⟩ := arm_add_holds garbage' htholds element
      fun hfull => ⟨htpos hfull, ht hfull⟩
    exact Or.inl ⟨s', t', hadd, hadd', keepBoth_of_append hholds hholds' (by simp)⟩

theorem append_agrees (garbage garbage' : Mem) {s t : ListArray} (h : KeepBoth s t)
    {elements : Elements} {n : Nat} (hn : n < 2 ^ 32) (hfit : AppendFits s t elements n) :
    (∃ s' t', addFromStack garbage s elements n = some s' ∧
        Arm.addAll garbage' t elements n = some t' ∧ KeepBoth s' t') ∨
      (addFromStack garbage s elements n = none ∧
        Arm.addAll garbage' t elements n = none) := by
  have hsame := h.same.1
  have hkeep := h
  obtain ⟨items, hsholds, htholds, hempty⟩ := h
  obtain ⟨hnull, hfill, hwrap⟩ := hfit
  have hitems := hsholds.length
  have happend : (s.length + n < 2 ^ 32) → (s.size < s.length + n → 0 < s.length ∧
        s.length + n + (s.length + n) / 2 < 2 ^ 32) →
      (t.size ≤ t.length + n → 0 < t.length ∧ t.length + n ≤ 2 ^ 31 - 8) →
      0 < items.length + (elementsOf elements n).length →
      ∃ s' t', addFromStack garbage s elements n = some s' ∧
        Arm.addAll garbage' t elements n = some t' ∧ KeepBoth s' t' := by
    intro hlt hs ht hpos
    obtain ⟨s', hrun, hholds, _⟩ := addFromStack_holds garbage hsholds elements hlt
      (fun hgrow => (hs hgrow).1) (fun hgrow => (hs hgrow).2)
    obtain ⟨t', hrun', hholds'⟩ := arm_addAll_holds garbage' htholds hnull
      (by omega : t.length + n < 2 ^ 32) ht
    exact ⟨s', t', hrun, hrun', keepBoth_of_append hholds hholds' hpos⟩
  rcases Nat.eq_zero_or_pos s.length with hzero | hpos
  · have hne := hfill hzero
    have hsize := hempty hzero
    rcases Nat.lt_or_gt_of_ne hne with hlt | hgt
    · rcases Nat.eq_zero_or_pos n with hn0 | hnpos
      · -- nothing to append
        subst hn0
        exact Or.inl ⟨s, t, addFromStack_zero garbage s elements,
          arm_addAll_zero garbage' elements (by omega) (by omega), hkeep⟩
      · refine Or.inl (happend (by omega) (by omega) (by omega) ?_)
        cases elements with
        | none =>
          have hn0 := hnull rfl
          omega
        | some f =>
          rw [elementsOf, List.length_map, List.length_range]
          omega
    · -- there is no room, and neither can grow
      refine Or.inr ⟨?_, arm_addAll_none garbage' elements (by omega) (by omega) hn⟩
      cases elements with
      | none =>
        have hn0 := hnull rfl
        omega
      | some f => exact addFromStack_none garbage f hzero hgt hn
  · obtain ⟨hlt, hs, ht⟩ := hwrap hpos
    exact Or.inl (happend hlt (fun hgrow => ⟨hpos, hs hgrow⟩)
      (fun hgrow => ⟨by omega, by have := ht (by omega); omega⟩) (by omega))

/-- **A call that fits leaves the same elements in both lists, or aborts in both.** -/
theorem bothSteps_keep (s t : ListArray) (call : AddCall × Mem × Mem) (h : KeepBoth s t)
    (hfit : BothFit (s, t) call) :
    (∃ s' t', asmStep s call = some s' ∧ armStep t call = some t' ∧ KeepBoth s' t') ∨
      (asmStep s call = none ∧ armStep t call = none) := by
  obtain ⟨call, garbage, garbage'⟩ := call
  cases call with
  | add element =>
    obtain ⟨hne, hs, ht⟩ := hfit
    exact add_agrees garbage garbage' h hne hs ht
  | addAll elementArray numElements =>
    obtain ⟨happend, hoffset⟩ := hfit
    have hequal : addAll garbage s elementArray numElements.toNat =
        addFromStack garbage s elementArray numElements.toNat := by
      rcases hoffset with hzero | hsmall
      · rw [hzero, addAll_zero, addFromStack_zero]
      · exact addAll_eq_addFromStack garbage elementArray _ hsmall
    unfold asmStep armStep
    dsimp only
    rw [hequal]
    exact append_agrees garbage garbage' h numElements.toNat_lt happend
  | addFromStack stack numElements =>
    exact append_agrees garbage garbage' h numElements.toNat_lt hfit

/-- **The two implementations agree over every run whose calls fit**, from one initialised
list on. -/
theorem run_agrees (garbage : Mem) (size : UInt32) (calls : List (AddCall × Mem × Mem)) :
    ∃ list, initListArrayWithSize garbage size = some list ∧
      (Along (bothSteps asmStep armStep) BothFit calls (list, list) →
        AgreeRun asmStep armStep SameElements calls list list) := by
  obtain ⟨list, hinit, hholds, _, _⟩ := initListArrayWithSize_holds garbage size
  have hsame : ∀ s t : ListArray, KeepBoth s t → SameElements s t := fun _ _ h => h.same
  exact ⟨list, hinit, agreeRun_of_along hsame bothSteps_keep calls
    ⟨[], hholds, hholds, fun _ => rfl⟩⟩

/-- One element is added to a new list. -/
theorem run_agrees_oneElement :
    ∃ list, initListArrayWithSize (fun _ => 0) 8 = some list ∧
      AgreeRun asmStep armStep SameElements [(.add 1, fun _ => 0, fun _ => 0)] list list := by
  obtain ⟨list, hinit, hrun⟩ := run_agrees (fun _ => 0) 8 [(.add 1, fun _ => 0, fun _ => 0)]
  obtain ⟨list₁, hinit₁, _, hlength, hsize⟩ := initListArrayWithSize_holds (fun _ => 0) 8
  rw [hinit] at hinit₁
  cases hinit₁
  have hne : list.length ≠ list.size := by
    rw [hlength, hsize]
    decide
  refine ⟨list, hinit, hrun ⟨⟨?_, ?_, ?_⟩, fun _ _ _ => trivial⟩⟩
  · intro h
    cases h
  · exact fun heq => absurd heq hne
  · exact fun heq => absurd heq hne

/-- **A `NULL` element is in one list and not in the other.** -/
theorem run_disagrees_null :
    ¬ ∀ (garbage : Mem) (size : UInt32) (calls : List (AddCall × Mem × Mem)),
      ∃ list, initListArrayWithSize garbage size = some list ∧
        AgreeRun asmStep armStep SameElements calls list list := by
  intro h
  obtain ⟨list, hinit, _, hrun⟩ := h (fun _ => 0) 8 [(.add nullPointer, fun _ => 0, fun _ => 0)]
  obtain ⟨list₁, hinit₁, hholds, hlength, hsize⟩ := initListArrayWithSize_holds (fun _ => 0) 8
  rw [hinit] at hinit₁
  cases hinit₁
  have hfull : list.length ≠ list.size := by
    rw [hlength, hsize]
    decide
  obtain ⟨t', harm, hholds'⟩ := arm_add_holds (fun _ => 0) hholds nullPointer
    fun heq => absurd heq hfull
  have hasm : asmStep list (.add nullPointer, fun _ => 0, fun _ => 0) = some list :=
    add_null (fun _ => 0) list
  have harm' : armStep list (.add nullPointer, fun _ => 0, fun _ => 0) = some t' := harm
  rw [hasm, harm'] at hrun
  have hsame : SameElements list t' := hrun
  have ht : 1 = t'.length := hholds'.length
  have hlengths := hsame.1
  omega

end ListArray

end DevopsBroker.Adt
