import Mathlib.Algebra.Group.Nat.Defs
import DevopsBroker.Lib.Exactly

/-!
# `lang/array.c`: sorting an array of pointers

`sortPtrArray` is quicksort: the ranges that are left to sort are on a stack of its own, which
has as many places as the range at the start has elements.

Mirroring notes vs the C source:
- A pointer stands for what it points to. `none` stands for an access outside of the array or
  of the stack, and for an `int` that is too large.
- `0 ≤ l ≤ h`, as every caller has it.
- `pivot` is one more than in the source while the loop runs, so that it starts at `l`.
-/

namespace DevopsBroker.Lang

open DevopsBroker.Lib

variable {α : Type}

/-- `int stack[h - l + 1]`, with what is on it. -/
structure AuxStack where
  declared : Nat
  items : List Nat

/-- `stack[top++] = value`. -/
def AuxStack.push (stack : AuxStack) (value : Nat) : Option AuxStack :=
  if stack.items.length < stack.declared then
    some { stack with items := value :: stack.items }
  else none

/-- Push a range. -/
def AuxStack.pushRange (stack : AuxStack) (l h : Nat) : Option AuxStack := do
  let stack ← stack.push l
  stack.push h

/-- Push one side of the pivot, if present. -/
def AuxStack.pushSide (stack : AuxStack) (l h : Nat) : Option AuxStack :=
  if l < h then stack.pushRange l h else some stack

/-- `for (int j = l; j < h; j++)`. -/
def partitionLoop (compare : α → α → Int) (highPtr : α) :
    Nat → List α → Nat → Nat → Option (List α × Nat)
  | 0, array, pivot, _ => some (array, pivot)
  | n + 1, array, pivot, j => do
    let currentPtr ← array[j]?
    if compare currentPtr highPtr ≤ 0 then do
      -- swap pivot pointer with current pointer
      let tempPtr ← array[pivot]?
      partitionLoop compare highPtr n ((array.set pivot currentPtr).set j tempPtr) (pivot + 1) (j + 1)
    else partitionLoop compare highPtr n array pivot (j + 1)

/-- Partition the array around the pivot point. -/
def partition (compare : α → α → Int) (array : List α) (l h : Nat) : Option (List α × Nat) := do
  let highPtr ← array[h]?
  let (array, pivot) ← partitionLoop compare highPtr (h - l) array l l
  -- swap pivot pointer with high pointer
  let tempPtr ← array[pivot]?
  return ((array.set pivot highPtr).set h tempPtr, pivot)

/-- `while (top > 0)`. -/
def sortLoop (compare : α → α → Int) : Nat → AuxStack → List α → Option (List α)
  | 0, _, _ => none
  | fuel + 1, stack, array =>
    match stack.items with
    | [] => some array
    | [_] => none
    | h :: l :: items => do
      let (array, pivot) ← partition compare array l h
      let stack ← AuxStack.pushSide { stack with items := items } l (pivot - 1)
      let stack ← stack.pushSide (pivot + 1) h
      sortLoop compare fuel stack array

/-- `b33b0483_sortPtrArray`. -/
def sortPtrArray (compare : α → α → Int) (array : List α) (l h : Nat) : Option (List α) :=
  if h - l + 1 < 2 ^ 31 then do
    let stack ← AuxStack.pushRange ⟨h - l + 1, []⟩ l h
    sortLoop compare (h - l + 2) stack array
  else none

/-! ## What a sort keeps -/

/-- Two elements change places. -/
theorem swap_perm {array : List α} {i j : Nat} {a b : α} (hi : array[i]? = some a)
    (hj : array[j]? = some b) : ((array.set i b).set j a).Perm array := by
  obtain ⟨hi', rfl⟩ := List.getElem?_eq_some_iff.mp hi
  obtain ⟨hj', rfl⟩ := List.getElem?_eq_some_iff.mp hj
  exact List.set_set_perm hi' hj'

theorem getElem?_of_lt {array : List α} {i : Nat} (h : i < array.length) : ∃ a, array[i]? = some a :=
  ⟨array[i], List.getElem?_eq_getElem h⟩

theorem getElem?_swap {array : List α} {i j k : Nat} {a b : α} (hi : k ≠ i) (hj : k ≠ j) :
    ((array.set i b).set j a)[k]? = array[k]? := by
  rw [List.getElem?_set_ne (Ne.symm hj), List.getElem?_set_ne (Ne.symm hi)]

/-- The loop of the partition changes places only, between where `pivot` and `j` start and where
`j` ends. -/
theorem partitionLoop_perm (compare : α → α → Int) (highPtr : α) (n : Nat) :
    ∀ {array : List α} {pivot j : Nat}, pivot ≤ j → j + n ≤ array.length →
      ∃ array' pivot', partitionLoop compare highPtr n array pivot j = some (array', pivot') ∧
        array'.Perm array ∧ pivot ≤ pivot' ∧ pivot' ≤ j + n ∧
        ∀ i, i < pivot ∨ j + n ≤ i → array'[i]? = array[i]? := by
  induction n with
  | zero =>
    intro array pivot j hle _
    exact ⟨array, pivot, rfl, List.Perm.refl _, Nat.le_refl _, hle, fun _ _ => rfl⟩
  | succ n ih =>
    intro array pivot j hle hroom
    obtain ⟨currentPtr, hcurrent⟩ := getElem?_of_lt (show j < array.length by omega)
    obtain ⟨tempPtr, htemp⟩ := getElem?_of_lt (show pivot < array.length by omega)
    have hswap := swap_perm htemp hcurrent
    have hlength := hswap.length_eq
    rw [partitionLoop, hcurrent]
    by_cases hcompare : compare currentPtr highPtr ≤ 0
    · obtain ⟨array', pivot', hrun, hperm, hlow, hhigh, hkeep⟩ :=
        ih (Nat.succ_le_succ hle) (by omega :
          j + 1 + n ≤ ((array.set pivot currentPtr).set j tempPtr).length)
      refine ⟨array', pivot', ?_, hperm.trans hswap, by omega, by omega, ?_⟩
      · simp only [Option.bind_eq_bind, Option.bind_some, if_pos hcompare, htemp]
        exact hrun
      · intro i hi
        rw [hkeep i (by omega)]
        exact getElem?_swap (by omega) (by omega)
    · obtain ⟨array', pivot', hrun, hperm, hlow, hhigh, hkeep⟩ :=
        ih (Nat.le_succ_of_le hle) (by omega : j + 1 + n ≤ array.length)
      refine ⟨array', pivot', ?_, hperm, hlow, by omega, fun i hi => hkeep i (by omega)⟩
      simp only [Option.bind_eq_bind, Option.bind_some, if_neg hcompare]
      exact hrun

/-- **A partition changes places only**, in its range, and its pivot is in the range. -/
theorem partition_perm (compare : α → α → Int) {array : List α} {l h : Nat} (hle : l ≤ h)
    (hroom : h < array.length) :
    ∃ array' pivot, partition compare array l h = some (array', pivot) ∧ array'.Perm array ∧
      l ≤ pivot ∧ pivot ≤ h ∧ ∀ i, i < l ∨ h < i → array'[i]? = array[i]? := by
  obtain ⟨highPtr, hhigh⟩ := getElem?_of_lt hroom
  obtain ⟨array', pivot, hrun, hperm, hlow, hpivot, hkeep⟩ :=
    partitionLoop_perm compare highPtr (h - l) (Nat.le_refl l) (by omega : l + (h - l) ≤ array.length)
  have hlength := hperm.length_eq
  obtain ⟨tempPtr, htemp⟩ := getElem?_of_lt (show pivot < array'.length by omega)
  -- the loop has left the high pointer where it was
  have hhigh' : array'[h]? = some highPtr := by rw [hkeep h (by omega), hhigh]
  refine ⟨(array'.set pivot highPtr).set h tempPtr, pivot, ?_, (swap_perm htemp hhigh').trans hperm,
    hlow, by omega, ?_⟩
  · unfold partition
    simp only [Option.bind_eq_bind, hhigh, Option.bind_some, hrun, htemp]
    rfl
  · intro i hi
    rw [getElem?_swap (by omega) (by omega)]
    exact hkeep i (by omega)

/-! ## The stack -/

/-- The ranges on a stack have two elements at least, inside of the array. -/
def Pending (n : Nat) : List Nat → Prop
  | [] => True
  | [_] => False
  | h :: l :: items => l < h ∧ h < n ∧ Pending n items

/-- How many elements they have together. -/
def weight : List Nat → Nat
  | h :: l :: items => h - l + 1 + weight items
  | _ => 0

/-- A range takes two places, and has two elements at least. -/
theorem Pending.length_le {n : Nat} : ∀ {items : List Nat}, Pending n items → items.length ≤ weight items
  | [], _ => Nat.zero_le _
  | [_], h => h.elim
  | high :: low :: items, ⟨hlt, _, hrest⟩ => by
    have ih := Pending.length_le hrest
    rw [List.length_cons, List.length_cons, weight]
    omega

theorem pushRange_eq {declared : Nat} {items : List Nat} (h : items.length + 2 ≤ declared) (low high : Nat) :
    AuxStack.pushRange ⟨declared, items⟩ low high = some ⟨declared, high :: low :: items⟩ := by
  unfold AuxStack.pushRange AuxStack.push
  dsimp only
  rw [if_pos (by omega)]
  simp only [Option.bind_eq_bind, Option.bind_some, List.length_cons]
  rw [if_pos (by omega)]

/-- A side of at most `count` elements. -/
theorem pushSide_eq {declared n low high count : Nat} {items : List Nat}
    (hpending : Pending n items) (hhigh : high < n) (hcount : low < high → high - low + 1 ≤ count)
    (hroom : weight items + count ≤ declared) :
    ∃ items', AuxStack.pushSide ⟨declared, items⟩ low high = some ⟨declared, items'⟩ ∧
      Pending n items' ∧ weight items' ≤ weight items + count := by
  have hlength := hpending.length_le
  unfold AuxStack.pushSide
  by_cases hlt : low < high
  · have htwo := hcount hlt
    refine ⟨high :: low :: items, ?_, ⟨hlt, hhigh, hpending⟩, ?_⟩
    · rw [if_pos hlt, pushRange_eq (by omega)]
    · rw [weight]
      omega
  · exact ⟨items, if_neg hlt, hpending, Nat.le_add_right _ _⟩

/-- **All rounds.** The ranges that are left have fewer elements together after each round. -/
theorem sortLoop_perm (compare : α → α → Int) {declared n : Nat} (fuel : Nat) :
    ∀ {items : List Nat} {array : List α}, Pending n items → weight items ≤ declared →
      weight items < fuel → array.length = n →
      ∃ array', sortLoop compare fuel ⟨declared, items⟩ array = some array' ∧ array'.Perm array := by
  induction fuel with
  | zero => exact fun _ _ hfuel => absurd hfuel (Nat.not_lt_zero _)
  | succ fuel ih =>
    intro items array hpending hroom hfuel hlength
    match items, hpending with
    | [], _ => exact ⟨array, rfl, List.Perm.refl _⟩
    | h :: l :: items, ⟨hlt, hhigh, hrest⟩ =>
      rw [weight] at hroom hfuel
      obtain ⟨array₁, pivot, hpartition, hperm, hlow, hpivot, -⟩ :=
        partition_perm compare (Nat.le_of_lt hlt) (by omega : h < array.length)
      -- the pivot is on neither side
      obtain ⟨items₁, hpush, hpending₁, hweight₁⟩ := @pushSide_eq declared n l (pivot - 1)
        (pivot - l) items hrest (by omega) (by omega) (by omega)
      obtain ⟨items₂, hpush', hpending₂, hweight₂⟩ := @pushSide_eq declared n (pivot + 1) h
        (h - pivot) items₁ hpending₁ hhigh (by omega) (by omega)
      obtain ⟨array', hrun, hperm'⟩ := ih hpending₂ (by omega) (by omega)
        (hperm.length_eq.trans hlength)
      refine ⟨array', ?_, hperm'.trans hperm⟩
      rw [sortLoop]
      simp only [Option.bind_eq_bind, hpartition, Option.bind_some, hpush, hpush']
      exact hrun

/-- **`sortPtrArray` changes places only**, and comes back where the range has two elements at
least: one element takes two places of the stack, which has one. -/
theorem sortPtrArray_exactly (compare : α → α → Int) {array : List α} {l h : Nat} (hle : l ≤ h)
    (hroom : h < array.length) :
    Exactly (l < h ∧ h - l + 1 < 2 ^ 31) (fun array' => array'.Perm array)
      (sortPtrArray compare array l h) := by
  unfold sortPtrArray
  refine ⟨fun ⟨hlt, hsmall⟩ => ?_, fun hno => ?_⟩
  · rw [if_pos hsmall, pushRange_eq (by rw [List.length_nil]; omega)]
    exact sortLoop_perm compare (h - l + 2) (n := array.length)
      (show Pending array.length [h, l] from ⟨hlt, hroom, trivial⟩)
      (Nat.le_refl _) (Nat.lt_succ_self _) rfl
  · split
    next hsmall =>
      obtain rfl : l = h := by omega
      rw [Nat.sub_self]
      rfl
    next _ => rfl

end DevopsBroker.Lang
