/-!
# Reading arrays with a default

Models of C arrays read with `getD` and write with `setIfInBounds`; these are the
facts about the two that proofs about them use.
-/

namespace DevopsBroker.Lib

variable {α : Type}

/-- Reading what was written. -/
theorem getD_set_self {a : Array α} {i : Nat} (h : i < a.size) (x : α) {d : α} :
    (a.setIfInBounds i x).getD i d = x := by
  rw [Array.getD_eq_getD_getElem?, Array.getElem?_setIfInBounds, if_pos rfl, if_pos h]
  rfl

/-- Reading past what was written. -/
theorem getD_set_ne {a : Array α} {i j : Nat} (h : i ≠ j) (x : α) {d : α} :
    (a.setIfInBounds i x).getD j d = a.getD j d := by
  rw [Array.getD_eq_getD_getElem?, Array.getElem?_setIfInBounds, Array.getD_eq_getD_getElem?,
    if_neg h]

/-- A cleared array reads as cleared, inside and outside. -/
theorem getD_replicate (n i : Nat) (x : α) : (Array.replicate n x).getD i x = x := by
  rw [Array.getD_eq_getD_getElem?, Array.getElem?_replicate]
  split <;> rfl

/-- An element of an array that is given by its elements. -/
theorem getD_ofFn {n : Nat} (f : Nat → α) {i : Nat} (h : i < n) {d : α} :
    (Array.ofFn fun k : Fin n => f k).getD i d = f i := by
  rw [Array.getD_eq_getD_getElem?, Array.getElem?_ofFn, dif_pos h]
  rfl

/-- An array as a list of what is read from it. -/
theorem toList_eq_map_range {a : Array α} {n : Nat} {f : Nat → α} (d : α) (hsize : a.size = n)
    (h : ∀ i < n, a.getD i d = f i) : a.toList = (List.range n).map f := by
  apply List.ext_getElem
  · rw [Array.length_toList, List.length_map, List.length_range, hsize]
  · intro i hi _
    rw [Array.length_toList] at hi
    have hread := h i (by omega)
    rw [Array.getD_eq_getD_getElem?, Array.getElem?_eq_getElem hi] at hread
    rw [Array.getElem_toList, List.getElem_map, List.getElem_range, ← hread]
    rfl

end DevopsBroker.Lib
