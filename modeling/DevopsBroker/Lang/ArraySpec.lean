import Mathlib.Data.List.Perm.Basic
import DevopsBroker.Lang.Array

/-!
# `sortPtrArray` sorts

Two elements are ordered, or a range that is left to sort has both of them; the ranges have no
element in common. A round takes a range, and puts its two sides back, without the pivot. What is
in front of a range is ordered with all of its elements, wherever these go inside of it. At the
end no range is left.

- **`sortPtrArray_sorts`**: a range is sorted, and nothing outside of it changes.
- `sortLoop_iff_sortWrites`: the loop comes back exactly when it writes its stack inside of the
  declared size.
-/

namespace DevopsBroker.Lang

variable {α : Type}

/-- `array[l..h]`. -/
def segment (array : List α) (l h : Nat) : List α := (array.drop l).take (h + 1 - l)

/-- Two elements are in order. -/
def InOrder (compare : α → α → Int) (array : List α) (i j : Nat) : Prop :=
  ∀ a b, array[i]? = some a → array[j]? = some b → compare a b ≤ 0

/-- A way to compare that is total and transitive. -/
structure TotalPreorder (compare : α → α → Int) : Prop where
  total : ∀ a b, compare a b ≤ 0 ∨ compare b a ≤ 0
  trans : ∀ a b c, compare a b ≤ 0 → compare b c ≤ 0 → compare a c ≤ 0

/-! ## Segments -/

theorem segment_append (array : List α) {l h : Nat} (hle : l ≤ h) :
    array = array.take l ++ (segment array l h ++ array.drop (h + 1)) := by
  have hdrop : array.drop (h + 1) = (array.drop l).drop (h + 1 - l) := by
    rw [List.drop_drop, Nat.add_sub_cancel' (by omega)]
  rw [segment, hdrop, List.take_append_drop, List.take_append_drop]

theorem length_segment (array : List α) {l h : Nat} (hroom : h < array.length) :
    (segment array l h).length = h + 1 - l := by
  rw [segment, List.length_take, List.length_drop]
  omega

theorem getElem?_segment (array : List α) {l h k : Nat} (hk : k < h + 1 - l) :
    (segment array l h)[k]? = array[l + k]? := by
  rw [segment, List.getElem?_take_of_lt hk, List.getElem?_drop]

/-- Where nothing else changes, the segment has the same elements. -/
theorem segment_perm {array array' : List α} {l h : Nat} (hle : l ≤ h)
    (hperm : array'.Perm array) (hkeep : ∀ i, i < l ∨ h < i → array'[i]? = array[i]?) :
    (segment array' l h).Perm (segment array l h) := by
  have hlength := hperm.length_eq
  have hfront : array'.take l = array.take l := by
    apply List.ext_getElem?
    intro i
    rw [List.getElem?_take, List.getElem?_take]
    by_cases hi : i < l
    · rw [if_pos hi, if_pos hi, hkeep i (Or.inl hi)]
    · rw [if_neg hi, if_neg hi]
  have hback : array'.drop (h + 1) = array.drop (h + 1) := by
    apply List.ext_getElem?
    intro i
    rw [List.getElem?_drop, List.getElem?_drop, hkeep (h + 1 + i) (Or.inr (by omega))]
  rw [segment_append array' hle, segment_append array hle, hfront, hback,
    List.perm_append_left_iff, List.perm_append_right_iff] at hperm
  exact hperm

/-- An element of the segment has been one of its elements before. -/
theorem exists_before {array array' : List α} {l h : Nat} (hle : l ≤ h) (hroom : h < array.length)
    (hperm : array'.Perm array) (hkeep : ∀ i, i < l ∨ h < i → array'[i]? = array[i]?) {j : Nat}
    (hlow : l ≤ j) (hhigh : j ≤ h) : ∃ k, l ≤ k ∧ k ≤ h ∧ array'[j]? = array[k]? := by
  have hlength := hperm.length_eq
  obtain ⟨a, ha⟩ := getElem?_of_lt (show j < array'.length by omega)
  have hseg : (segment array' l h)[j - l]? = some a := by
    rw [getElem?_segment array' (by omega), Nat.add_sub_cancel' hlow, ha]
  have hmem := (segment_perm hle hperm hkeep).mem_iff.mp (List.mem_of_getElem? hseg)
  obtain ⟨k, hk, hka⟩ := List.mem_iff_getElem.mp hmem
  rw [length_segment array hroom] at hk
  refine ⟨l + k, Nat.le_add_right .., by omega, ?_⟩
  rw [ha, ← getElem?_segment array hk, ← hka]
  exact (List.getElem?_eq_getElem _).symm

/-! ## A partition -/

theorem getElem?_swap_right {array : List α} {i j : Nat} {a b : α} (hj : array[j]? = some b) :
    ((array.set i b).set j a)[j]? = some a := by
  obtain ⟨hlt, _⟩ := List.getElem?_eq_some_iff.mp hj
  exact List.getElem?_set_self (by rw [List.length_set]; exact hlt)

theorem getElem?_swap_left {array : List α} {i j : Nat} {a b : α} (hi : array[i]? = some a)
    (hj : array[j]? = some b) : ((array.set i b).set j a)[i]? = some b := by
  by_cases hij : i = j
  · subst hij
    rw [getElem?_swap_right hj, ← hi, hj]
  · obtain ⟨hlt, _⟩ := List.getElem?_eq_some_iff.mp hi
    rw [List.getElem?_set_ne (Ne.symm hij)]
    exact List.getElem?_set_self hlt

/-- What the loop has seen: the elements up to `pivot` are not above the high pointer. -/
structure Parted (compare : α → α → Int) (highPtr : α) (array : List α) (l pivot j : Nat) : Prop where
  below : ∀ k, l ≤ k → k < pivot → ∀ a, array[k]? = some a → compare a highPtr ≤ 0
  above : ∀ k, pivot ≤ k → k < j → ∀ a, array[k]? = some a → ¬ compare a highPtr ≤ 0

theorem partitionLoop_parted {compare : α → α → Int} {highPtr : α} {l : Nat} (n : Nat) :
    ∀ {array array' : List α} {pivot pivot' j : Nat}, l ≤ pivot → pivot ≤ j →
      j + n ≤ array.length → Parted compare highPtr array l pivot j →
      partitionLoop compare highPtr n array pivot j = some (array', pivot') →
      Parted compare highPtr array' l pivot' (j + n) := by
  induction n with
  | zero =>
    intro array array' pivot pivot' j _ _ _ h hrun
    rw [partitionLoop, Option.some.injEq, Prod.mk.injEq] at hrun
    obtain ⟨rfl, rfl⟩ := hrun
    exact h
  | succ n ih =>
    intro array array' pivot pivot' j hlow hle hroom h hrun
    obtain ⟨currentPtr, hcurrent⟩ := getElem?_of_lt (show j < array.length by omega)
    obtain ⟨tempPtr, htemp⟩ := getElem?_of_lt (show pivot < array.length by omega)
    rw [partitionLoop, hcurrent] at hrun
    simp only [Option.bind_eq_bind, Option.bind_some, htemp] at hrun
    rw [show j + (n + 1) = j + 1 + n by omega]
    by_cases hcompare : compare currentPtr highPtr ≤ 0
    · rw [if_pos hcompare] at hrun
      have hlength := (swap_perm htemp hcurrent).length_eq
      refine ih (by omega) (by omega) (by omega) ⟨?_, ?_⟩ hrun
      · intro k hk hkp a ha
        rcases Nat.lt_or_ge k pivot with hlt | hge
        · rw [getElem?_swap (by omega) (by omega)] at ha
          exact h.below k hk hlt a ha
        · obtain rfl : k = pivot := by omega
          rw [getElem?_swap_left htemp hcurrent, Option.some.injEq] at ha
          rwa [← ha]
      · intro k hk hkj a ha
        rcases Nat.lt_or_ge k j with hlt | hge
        · rw [getElem?_swap (by omega) (by omega)] at ha
          exact h.above k (by omega) hlt a ha
        · -- what has been at `pivot` is above the high pointer
          obtain rfl : k = j := by omega
          rw [getElem?_swap_right hcurrent, Option.some.injEq] at ha
          rw [← ha]
          exact h.above pivot (Nat.le_refl _) (by omega) tempPtr htemp
    · rw [if_neg hcompare] at hrun
      refine ih hlow (by omega) (by omega) ⟨h.below, ?_⟩ hrun
      intro k hk hkj a ha
      rcases Nat.lt_or_ge k j with hlt | hge
      · exact h.above k hk hlt a ha
      · obtain rfl : k = j := by omega
        rw [hcurrent, Option.some.injEq] at ha
        rwa [← ha]

/-- **A partition puts the pivot in its place**: nothing in front of it is above it, and nothing
behind it is not. -/
theorem partition_parted {compare : α → α → Int} (hcompare : TotalPreorder compare)
    {array array' : List α} {l h pivot : Nat} (hle : l ≤ h) (hroom : h < array.length)
    (hrun : partition compare array l h = some (array', pivot)) :
    (∀ i, l ≤ i → i < pivot → InOrder compare array' i pivot) ∧
      ∀ j, pivot < j → j ≤ h → InOrder compare array' pivot j := by
  obtain ⟨highPtr, hhigh⟩ := getElem?_of_lt hroom
  obtain ⟨array₁, pivot₁, hloop, hperm, hlow, hpivot, hkeep⟩ :=
    partitionLoop_perm compare highPtr (h - l) (Nat.le_refl l) (by omega : l + (h - l) ≤ array.length)
  have hlength := hperm.length_eq
  obtain ⟨tempPtr, htemp⟩ := getElem?_of_lt (show pivot₁ < array₁.length by omega)
  have hhigh₁ : array₁[h]? = some highPtr := by rw [hkeep h (by omega), hhigh]
  have hparted : Parted compare highPtr array₁ l pivot₁ h := by
    have hstart : Parted compare highPtr array l l l :=
      ⟨fun _ h₁ h₂ => absurd h₂ (Nat.not_lt.mpr h₁), fun _ h₁ h₂ => absurd h₂ (Nat.not_lt.mpr h₁)⟩
    have hend := partitionLoop_parted (h - l) (Nat.le_refl l) (Nat.le_refl l) (by omega) hstart hloop
    rwa [Nat.add_sub_cancel' hle] at hend
  unfold partition at hrun
  simp only [Option.bind_eq_bind, hhigh, Option.bind_some, hloop, htemp] at hrun
  obtain ⟨rfl, rfl⟩ := Prod.mk.inj (Option.some.inj hrun)
  refine ⟨?_, ?_⟩
  · intro i hi hip a b ha hb
    rw [getElem?_swap (by omega) (by omega)] at ha
    rw [getElem?_swap_left htemp hhigh₁, Option.some.injEq] at hb
    rw [← hb]
    exact hparted.below i hi hip a ha
  · intro j hj hjh a b ha hb
    rw [getElem?_swap_left htemp hhigh₁, Option.some.injEq] at ha
    -- what is behind the pivot is above it, and so is what has been in its place
    have habove : ¬ compare b highPtr ≤ 0 := by
      rcases Nat.lt_or_ge j h with hlt | hge
      · rw [getElem?_swap (by omega) (by omega)] at hb
        exact hparted.above j (Nat.le_of_lt hj) hlt b hb
      · obtain rfl : j = h := by omega
        rw [getElem?_swap_right hhigh₁, Option.some.injEq] at hb
        rw [← hb]
        exact hparted.above pivot₁ (Nat.le_refl _) hj tempPtr htemp
    rw [← ha]
    exact (hcompare.total highPtr b).resolve_right habove

theorem InOrder.trans {compare : α → α → Int} (hcompare : TotalPreorder compare) {array : List α}
    {i j k : Nat} (hroom : j < array.length) (h : InOrder compare array i j)
    (h' : InOrder compare array j k) : InOrder compare array i k := by
  obtain ⟨b, hb⟩ := getElem?_of_lt hroom
  intro a c ha hc
  exact hcompare.trans a b c (h a b ha hb) (h' b c hb hc)

theorem InOrder.congr {compare : α → α → Int} {array array' : List α} {i j i' j' : Nat}
    (h : InOrder compare array i j) (hi : array'[i']? = array[i]?) (hj : array'[j']? = array[j]?) :
    InOrder compare array' i' j' := by
  intro a b ha hb
  exact h a b (hi ▸ ha) (hj ▸ hb)

/-! ## The rounds -/

/-- The ranges on a stack. -/
def ranges : List Nat → List (Nat × Nat)
  | h :: l :: items => (l, h) :: ranges items
  | _ => []

/-- Two ranges without a common element. -/
def Apart (r s : Nat × Nat) : Prop := r.2 < s.1 ∨ s.2 < r.1

/-- What is left to do between `low` and `high`. -/
structure Sorting (compare : α → α → Int) (low high : Nat) (array : List α) (items : List Nat) :
    Prop where
  inside : ∀ r ∈ ranges items, low ≤ r.1 ∧ r.1 < r.2 ∧ r.2 ≤ high
  apart : (ranges items).Pairwise Apart
  ordered : ∀ i j, low ≤ i → i < j → j ≤ high →
    (∃ r ∈ ranges items, r.1 ≤ i ∧ j ≤ r.2) ∨ InOrder compare array i j

/-- One side of a pivot, where it has two elements at least. -/
def side (l h : Nat) : List (Nat × Nat) := if l < h then [(l, h)] else []

theorem pushSide_items {stack stack' : AuxStack} {l h : Nat}
    (hpush : stack.pushSide l h = some stack') :
    ranges stack'.items = side l h ++ ranges stack.items := by
  unfold AuxStack.pushSide AuxStack.pushRange AuxStack.push at hpush
  unfold side
  by_cases hlt : l < h
  · rw [if_pos hlt, Option.bind_eq_bind, Option.bind_eq_some_iff] at hpush
    obtain ⟨stack₁, hpush₁, hpush₂⟩ := hpush
    rw [Option.ite_none_right_eq_some, Option.some.injEq] at hpush₁ hpush₂
    rw [if_pos hlt, ← hpush₂.2, ← hpush₁.2]
    rfl
  · rw [if_neg hlt, Option.some.injEq] at hpush
    rw [if_neg hlt, hpush]
    rfl

theorem Apart.sub {r s t : Nat × Nat} (h : Apart r s) (hlow : r.1 ≤ t.1) (hhigh : t.2 ≤ r.2) :
    Apart t s := by
  unfold Apart at h ⊢
  omega

theorem mem_side {l h : Nat} {r : Nat × Nat} : r ∈ side l h ↔ r = (l, h) ∧ l < h := by
  unfold side
  split
  next hlt => rw [List.mem_singleton, and_iff_left hlt]
  next hge => exact iff_of_false List.not_mem_nil fun h => hge h.2

/-- Two sides of a range are sorted next, in place of the range. -/
theorem Sorting.round {compare : α → α → Int} (hcompare : TotalPreorder compare)
    {low high l h pivot : Nat} {array array' : List α} {items items' : List Nat}
    (hsort : Sorting compare low high array (h :: l :: items)) (hroom : high < array.length)
    (hrun : partition compare array l h = some (array', pivot))
    (hitems : ranges items' = side (pivot + 1) h ++ (side l (pivot - 1) ++ ranges items)) :
    Sorting compare low high array' items' := by
  obtain ⟨hlow, hlt, hhigh⟩ := hsort.inside (l, h) List.mem_cons_self
  obtain ⟨hfirst, hrest⟩ := List.pairwise_cons.mp hsort.apart
  have hkept := partition_perm compare (Nat.le_of_lt hlt) (by omega : h < array.length)
  obtain ⟨array₁, pivot₁, hrun₁, hperm, hlp, hph, hkeep⟩ := hkept
  rw [hrun, Option.some.injEq, Prod.mk.injEq] at hrun₁
  obtain ⟨rfl, rfl⟩ := hrun₁
  obtain ⟨hfront, hback⟩ := partition_parted hcompare (Nat.le_of_lt hlt) (by omega) hrun
  have hmem : ∀ r, r ∈ ranges items' ↔
      r = (pivot + 1, h) ∧ pivot + 1 < h ∨ r = (l, pivot - 1) ∧ l < pivot - 1 ∨ r ∈ ranges items := by
    intro r
    rw [hitems, List.mem_append, List.mem_append, mem_side, mem_side]
  refine ⟨?_, ?_, ?_⟩
  · intro r hr
    rcases (hmem r).mp hr with ⟨rfl, hside⟩ | ⟨rfl, hside⟩ | hr
    · exact ⟨by omega, hside, hhigh⟩
    · exact ⟨hlow, hside, by omega⟩
    · exact hsort.inside r (List.mem_cons_of_mem _ hr)
  · rw [hitems, List.pairwise_append, List.pairwise_append]
    refine ⟨?_, ⟨?_, hrest, ?_⟩, ?_⟩
    · unfold side
      split <;> simp
    · unfold side
      split <;> simp
    · intro r hr s hs
      obtain ⟨rfl, _⟩ := mem_side.mp hr
      exact (hfirst s hs).sub (Nat.le_refl _) (by omega)
    · intro r hr s hs
      obtain ⟨rfl, _⟩ := mem_side.mp hr
      rcases List.mem_append.mp hs with hs | hs
      · obtain ⟨rfl, _⟩ := mem_side.mp hs
        exact Or.inr (by omega)
      · exact (hfirst s hs).sub (by omega) (Nat.le_refl _)
  · intro i j hi hij hj
    -- a range that has something of the one that is taken is that one
    have hother : ∀ r ∈ ranges (h :: l :: items), ∀ k, l ≤ k → k ≤ h → r.1 ≤ k → k ≤ r.2 →
        r = (l, h) := by
      intro r hr k _ _ _ _
      rcases List.mem_cons.mp hr with hr | hr
      · exact hr
      · have hapart := hfirst r hr
        unfold Apart at hapart
        omega
    by_cases hin : l ≤ i ∧ j ≤ h
    · -- both in it: on one side, or the pivot is between them
      have hlength := hperm.length_eq
      have hip : i < pivot → InOrder compare array' i pivot := hfront i hin.1
      have hpj : pivot < j → InOrder compare array' pivot j := fun h => hback j h hin.2
      rcases Nat.lt_trichotomy i pivot with hilt | rfl | higt
      · rcases Nat.lt_trichotomy j pivot with hjlt | rfl | hjgt
        · exact Or.inl ⟨(l, pivot - 1), (hmem _).mpr (Or.inr (Or.inl ⟨rfl, by omega⟩)), hin.1, by omega⟩
        · exact Or.inr (hip hilt)
        · exact Or.inr (InOrder.trans hcompare (by omega) (hip hilt) (hpj hjgt))
      · exact Or.inr (hpj hij)
      · exact Or.inl ⟨(pivot + 1, h), (hmem _).mpr (Or.inl ⟨rfl, by omega⟩), by omega, hin.2⟩
    · by_cases hiin : l ≤ i ∧ i ≤ h
      · obtain ⟨k, hlk, hkh, hk⟩ :=
          exists_before (Nat.le_of_lt hlt) (by omega) hperm hkeep hiin.1 hiin.2
        right
        rcases hsort.ordered k j (by omega) (by omega) hj with ⟨r, hr, hrk, hjr⟩ | hordered
        · obtain rfl := hother r hr k hlk hkh hrk (by omega)
          exact absurd ⟨hiin.1, hjr⟩ hin
        · exact hordered.congr hk (hkeep j (by omega))
      · by_cases hjin : l ≤ j ∧ j ≤ h
        · obtain ⟨k, hlk, hkh, hk⟩ :=
            exists_before (Nat.le_of_lt hlt) (by omega) hperm hkeep hjin.1 hjin.2
          right
          rcases hsort.ordered i k hi (by omega) (by omega) with ⟨r, hr, hri, hkr⟩ | hordered
          · obtain rfl := hother r hr k hlk hkh (by omega) hkr
            exact absurd ⟨hri, hjin.2⟩ hin
          · exact hordered.congr (hkeep i (by omega)) hk
        · rcases hsort.ordered i j hi hij hj with ⟨r, hr, hri, hjr⟩ | hordered
          · rcases List.mem_cons.mp hr with rfl | hr
            · exact absurd ⟨hri, hjr⟩ hin
            · exact Or.inl ⟨r, (hmem r).mpr (Or.inr (Or.inr hr)), hri, hjr⟩
          · exact Or.inr (hordered.congr (hkeep i (by omega)) (hkeep j (by omega)))

/-- **All rounds**: what comes back is sorted, and nothing has changed outside. -/
theorem sortLoop_sorts {compare : α → α → Int} (hcompare : TotalPreorder compare) {low high : Nat}
    (fuel : Nat) :
    ∀ {stack : AuxStack} {array array' : List α}, Sorting compare low high array stack.items →
      high < array.length → sortLoop compare fuel stack array = some array' →
      (∀ i j, low ≤ i → i < j → j ≤ high → InOrder compare array' i j) ∧
        ∀ i, i < low ∨ high < i → array'[i]? = array[i]? := by
  induction fuel with
  | zero => intro _ _ _ _ _ hrun; exact absurd hrun (by simp [sortLoop])
  | succ fuel ih =>
    intro stack array array' hsort hroom hrun
    obtain ⟨declared, items⟩ := stack
    cases items with
    | nil =>
      obtain rfl := Option.some.inj hrun
      refine ⟨?_, fun _ _ => rfl⟩
      intro i j hi hij hj
      refine (hsort.ordered i j hi hij hj).resolve_left ?_
      intro hpending
      obtain ⟨r, hr, _⟩ := hpending
      exact absurd hr List.not_mem_nil
    | cons h items =>
      cases items with
      | nil => exact absurd hrun (by simp [sortLoop])
      | cons l items =>
        obtain ⟨hlow, hlt, hhigh⟩ := hsort.inside (l, h) List.mem_cons_self
        rw [sortLoop] at hrun
        simp only [Option.bind_eq_bind, Option.bind_eq_some_iff] at hrun
        obtain ⟨⟨array₁, pivot⟩, hpartition, stack₁, hpush₁, stack₂, hpush₂, hrun⟩ := hrun
        have hitems : ranges stack₂.items =
            side (pivot + 1) h ++ (side l (pivot - 1) ++ ranges items) := by
          rw [pushSide_items hpush₂, pushSide_items hpush₁]
        obtain ⟨array₂, pivot₂, hpartition₂, hperm, _, _, hkeep⟩ :=
          partition_perm compare (Nat.le_of_lt hlt) (by omega : h < array.length)
        rw [hpartition, Option.some.injEq, Prod.mk.injEq] at hpartition₂
        obtain ⟨rfl, rfl⟩ := hpartition₂
        have hlength := hperm.length_eq
        obtain ⟨hsorted, hsame⟩ :=
          ih (hsort.round hcompare hroom hpartition hitems) (by omega) hrun
        refine ⟨hsorted, ?_⟩
        intro i hi
        rw [hsame i hi, hkeep i (by omega)]

/-- **`sortPtrArray` sorts a range**, and leaves everything else as it is. -/
theorem sortPtrArray_sorts {compare : α → α → Int} (hcompare : TotalPreorder compare)
    {array : List α} {l h : Nat} (hlt : l < h) (hroom : h < array.length) (hsmall : h < 2 ^ 30) :
    ∃ array', sortPtrArray compare array l h = some array' ∧ array'.length = array.length ∧
      (segment array' l h).Perm (segment array l h) ∧
      (segment array' l h).Pairwise (fun a b => compare a b ≤ 0) ∧
      ∀ i, i < l ∨ h < i → array'[i]? = array[i]? := by
  obtain ⟨array', hrun, hperm⟩ :=
    (sortPtrArray_exactly compare (Nat.le_of_lt hlt) hroom).comes ⟨hlt, by omega⟩
  have hloop : sortLoop compare (h - l + 2) ⟨h - l + 1, [h, l]⟩ array = some array' := by
    rw [sortPtrArray, if_pos (by omega), pushRange_eq (by rw [List.length_nil]; omega)] at hrun
    exact hrun
  have hstart : Sorting compare l h array [h, l] := by
    refine ⟨?_, List.pairwise_singleton _ _, ?_⟩
    · intro r hr
      obtain rfl := List.mem_singleton.mp hr
      exact ⟨Nat.le_refl _, hlt, Nat.le_refl _⟩
    · intro i j hi _ hj
      exact Or.inl ⟨(l, h), List.mem_cons_self, hi, hj⟩
  obtain ⟨hsorted, hsame⟩ := sortLoop_sorts hcompare _ hstart hroom hloop
  have hlength := hperm.length_eq
  refine ⟨array', hrun, hlength, segment_perm (Nat.le_of_lt hlt) hperm hsame, ?_, hsame⟩
  rw [List.pairwise_iff_getElem]
  intro i j hi hj hij
  have hjlt := hj
  rw [length_segment array' (by omega)] at hjlt
  have hati := getElem?_segment array' (by omega : i < h + 1 - l)
  have hatj := getElem?_segment array' hjlt
  rw [List.getElem?_eq_getElem hi] at hati
  rw [List.getElem?_eq_getElem hj] at hatj
  exact hsorted (l + i) (l + j) (by omega) (by omega) (by omega) _ _ hati.symm hatj.symm

/-- Three numbers in the middle of five. -/
theorem sortPtrArray_sorts_three :
    ∃ array', sortPtrArray (fun a b : Int => a - b) [9, 3, 1, 2, 0] 1 3 = some array' ∧
      array'.length = [9, 3, 1, 2, 0].length ∧
      (segment array' 1 3).Perm (segment [9, 3, 1, 2, 0] 1 3) ∧
      (segment array' 1 3).Pairwise (fun a b => a - b ≤ 0) ∧
      ∀ i, i < 1 ∨ 3 < i → array'[i]? = [9, 3, 1, 2, 0][i]? := by
  refine sortPtrArray_sorts ⟨?_, ?_⟩ (by decide) (by decide) (by decide)
  · intro a b
    omega
  · intro a b c h h'
    omega

/-! ## The stack -/

/-- The indices of the stack that are written for a side of a pivot, on top of `top` others. -/
def sideWrites (top l h : Nat) : List Nat := if l < h then [top, top + 1] else []

/-- The stack with a side on top. -/
def withSide (items : List Nat) (l h : Nat) : List Nat := if l < h then h :: l :: items else items

/-- The indices of the stack that the loop writes, on a stack without end. -/
def sortWrites (compare : α → α → Int) : Nat → List Nat → List α → List Nat
  | fuel + 1, h :: l :: items, array =>
    match partition compare array l h with
    | none => []
    | some (array, pivot) =>
      let left := withSide items l (pivot - 1)
      sideWrites items.length l (pivot - 1) ++ (sideWrites left.length (pivot + 1) h ++
        sortWrites compare fuel (withSide left (pivot + 1) h) array)
  | _, _, _ => []

theorem pushSide_eq_ite (declared l h : Nat) (items : List Nat) :
    AuxStack.pushSide ⟨declared, items⟩ l h =
      if ∀ i ∈ sideWrites items.length l h, i < declared then some ⟨declared, withSide items l h⟩
      else none := by
  have hboth : (∀ i ∈ [items.length, items.length + 1], i < declared) ↔ items.length + 1 < declared := by
    rw [List.forall_mem_cons, List.forall_mem_singleton]
    omega
  unfold AuxStack.pushSide AuxStack.pushRange AuxStack.push sideWrites withSide
  by_cases hlt : l < h
  · rw [if_pos hlt, if_pos hlt, if_pos hlt]
    by_cases hroom : items.length + 1 < declared
    · rw [if_pos (show items.length < declared by omega), if_pos (hboth.mpr hroom)]
      exact if_pos hroom
    · rw [if_neg fun h => hroom (hboth.mp h)]
      by_cases hone : items.length < declared
      · rw [if_pos hone]
        exact if_neg hroom
      · rw [if_neg hone]
        rfl
  · rw [if_neg hlt, if_neg hlt, if_neg hlt, if_pos fun i hi => absurd hi List.not_mem_nil]

/-- A side of at most `count` elements. -/
theorem withSide_pending {n l h count : Nat} {items : List Nat} (hpending : Pending n items)
    (hroom : h < n) (hcount : l < h → h - l + 1 ≤ count) :
    Pending n (withSide items l h) ∧ weight (withSide items l h) ≤ weight items + count := by
  unfold withSide
  split
  next hlt =>
    have hle := hcount hlt
    exact ⟨⟨hlt, hroom, hpending⟩, by rw [weight]; omega⟩
  next _ => exact ⟨hpending, Nat.le_add_right _ _⟩

/-- **The loop comes back exactly when it writes the stack inside of its declared size.** -/
theorem sortLoop_iff_sortWrites (compare : α → α → Int) {declared n : Nat} (fuel : Nat) :
    ∀ {items : List Nat} {array : List α}, Pending n items → weight items < fuel → array.length = n →
      ((∃ array', sortLoop compare fuel ⟨declared, items⟩ array = some array') ↔
        ∀ i ∈ sortWrites compare fuel items array, i < declared) := by
  induction fuel with
  | zero => exact fun _ hfuel => absurd hfuel (Nat.not_lt_zero _)
  | succ fuel ih =>
    intro items array hpending hfuel hlength
    match items, hpending with
    | [], _ => exact iff_of_true ⟨array, rfl⟩ fun _ h => absurd h List.not_mem_nil
    | h :: l :: items, ⟨hlt, hhigh, hrest⟩ =>
      rw [weight] at hfuel
      obtain ⟨array₁, pivot, hpartition, hperm, hlow, hpivot, -⟩ :=
        partition_perm compare (Nat.le_of_lt hlt) (by omega : h < array.length)
      -- the pivot is on neither side
      obtain ⟨hpending₁, hweight₁⟩ := @withSide_pending n l (pivot - 1) (pivot - l) items hrest
        (by omega) (by omega)
      obtain ⟨hpending₂, hweight₂⟩ := @withSide_pending n (pivot + 1) h (h - pivot) _ hpending₁ hhigh
        (by omega)
      have hnext := @ih _ array₁ hpending₂ (by omega) (hperm.length_eq.trans hlength)
      rw [sortLoop, sortWrites]
      simp only [Option.bind_eq_bind, hpartition, Option.bind_some, pushSide_eq_ite,
        List.forall_mem_append, ← hnext]
      by_cases hleft : ∀ i ∈ sideWrites items.length l (pivot - 1), i < declared
      · rw [if_pos hleft, Option.bind_some, and_iff_right hleft, pushSide_eq_ite]
        by_cases hright : ∀ i ∈ sideWrites (withSide items l (pivot - 1)).length (pivot + 1) h,
            i < declared
        · rw [if_pos hright, Option.bind_some, and_iff_right hright]
        · rw [if_neg hright]
          exact iff_of_false (by simp) fun hboth => hright hboth.1
      · rw [if_neg hleft]
        exact iff_of_false (by simp) fun hboth => hleft hboth.1

end DevopsBroker.Lang
