import DevopsBroker.Adt.ListArray
import DevopsBroker.Lib.Simulation

/-!
# `ListArray` against sequences

`Holds` ties the block of a list to the sequence of its elements, and every call keeps
it and appends, reads or drops what the call says, as long as `resizeArray` does not
abort. It does so for a list without elements, and where the rounding of
`ensureCapacity` wraps: **`run_refines_sequence_iff`**.
-/

namespace DevopsBroker.Adt

open DevopsBroker.Lang
open DevopsBroker.Lib

namespace ListArray

/-- The elements a call is given. -/
def elementsOf : Elements → Nat → List Pointer
  | none, _ => []
  | some elements, n => (List.range n).map elements

/-- The list holds a sequence, in a block with room for `size` elements. -/
structure Holds (list : ListArray) (items : List Pointer) : Prop where
  slots : list.values.slots list.length = items
  length_le : list.length ≤ list.size
  size_lt : list.size < 2 ^ 32
  room : 8 * list.size ≤ list.values.size
  aligned : list.values.size % 16 = 0

theorem Holds.length {list : ListArray} {items : List Pointer} (h : list.Holds items) :
    items.length = list.length := by
  rw [← h.slots, Block.slots_length]

/-! ## Growing and storing -/

/-- A list with elements moves to a larger block. -/
theorem resize_holds (garbage : Mem) {list : ListArray} {items : List Pointer}
    (h : list.Holds items) {newSize : Nat} (hlen : 0 < list.length)
    (hnew : list.length ≤ newSize) (hsmall : newSize < 2 ^ 32) :
    ∃ list', resize garbage list newSize = some list' ∧ list'.Holds items ∧
      list'.length = list.length ∧ list'.size = newSize := by
  have hroom := h.room
  have hle := h.length_le
  obtain ⟨new, hresize, haligned, hsize, hslots⟩ :=
    resizeArray_slots garbage hlen hnew hsmall h.aligned (by omega)
  refine ⟨{ list with values := new, size := newSize }, ?_, ?_, rfl, rfl⟩
  · rw [resize, hresize]
    rfl
  · exact ⟨hslots.trans h.slots, hnew, hsmall, hsize, haligned⟩

/-- A list without elements does not. -/
theorem resize_empty (garbage : Mem) {list : ListArray} (hlen : list.length = 0) (newSize : Nat) :
    resize garbage list newSize = none := by
  rw [resize, hlen, resizeArray_zero]
  rfl

/-- The loop that stores elements: those before it stay. -/
theorem storeAll_eq (n : Nat) :
    ∀ {values : Block} {i : Nat} (elements : Nat → Pointer), 8 * (i + n) ≤ values.size →
      ∃ values', storeAll n values i elements = some values' ∧ values'.size = values.size ∧
        values'.slots (i + n) = values.slots i ++ (List.range n).map elements := by
  induction n with
  | zero =>
    intro values i elements _
    exact ⟨values, rfl, rfl, (List.append_nil _).symm⟩
  | succ n ih =>
    intro values i elements hroom
    have hstore := Block.storeSlot_eq (i := i) (b := values) (by omega) (elements 0)
    have hrest : 8 * (i + 1 + n) ≤ ({ values with
        byte := storeQuadword values.byte (8 * i) (elements 0).toNat } : Block).size := by
      dsimp only
      omega
    obtain ⟨values', hrun, hsize, hslots⟩ := ih (fun j => elements (j + 1)) hrest
    refine ⟨values', ?_, hsize, ?_⟩
    · rw [storeAll, hstore]
      exact hrun
    · rw [show i + (n + 1) = i + 1 + n by omega, hslots, Block.slots_storeQuadword,
        List.range_succ_eq_map, List.map_cons, List.map_map, List.append_assoc]
      rfl

/-- **Storing behind the elements appends.** -/
theorem storeAll_holds {list : ListArray} {items : List Pointer} (h : list.Holds items)
    (elements : Nat → Pointer) {n : Nat} (hfit : list.length + n ≤ list.size) :
    ∃ values, storeAll n list.values list.length elements = some values ∧
      Holds { list with values := values, length := list.length + n }
        (items ++ (List.range n).map elements) := by
  have hroom := h.room
  obtain ⟨values, hrun, hsize, hslots⟩ := storeAll_eq n elements
    (by omega : 8 * (list.length + n) ≤ list.values.size)
  refine ⟨values, hrun, ?_⟩
  refine ⟨?_, hfit, h.size_lt, ?_, ?_⟩
  · show values.slots (list.length + n) = _
    rw [hslots, h.slots]
  · show 8 * list.size ≤ values.size
    rw [hsize]
    exact hroom
  · show values.size % 16 = 0
    rw [hsize]
    exact h.aligned

/-- The same for one element. -/
theorem storeSlot_holds {list : ListArray} {items : List Pointer} (h : list.Holds items)
    (element : Pointer) (hfit : list.length < list.size) :
    ∃ values, list.values.storeSlot list.length element = some values ∧
      Holds { list with values := values, length := list.length + 1 } (items ++ [element]) := by
  obtain ⟨values, hrun, hholds⟩ := storeAll_holds h (fun _ => element) (n := 1) hfit
  refine ⟨values, ?_, hholds⟩
  rw [← hrun]
  unfold storeAll storeAll
  cases list.values.storeSlot list.length element <;> rfl

/-- An initialised list is empty. -/
theorem initListArrayWithSize_holds (garbage : Mem) (size : UInt32) :
    ∃ list, initListArrayWithSize garbage size = some list ∧ list.Holds [] ∧
      list.length = 0 ∧ list.size = size.toNat := by
  have hsize := size.toNat_lt
  refine ⟨⟨⟨(8 * size.toNat + 15) / 16 * 16, garbage⟩, 0, size.toNat⟩, ?_, ?_, rfl, rfl⟩
  · rw [initListArrayWithSize, malloc_eq garbage (by omega)]
    rfl
  · refine ⟨rfl, Nat.zero_le _, hsize, ?_, ?_⟩
    · dsimp only
      omega
    · exact Nat.mul_mod_left _ _

/-! ## The calls -/

/-- `add` appends an element that is not `NULL`. -/
theorem add_holds (garbage : Mem) {list : ListArray} {items : List Pointer}
    (h : list.Holds items) {element : Pointer} (hne : element ≠ nullPointer)
    (hpos : list.length = list.size → 0 < list.length)
    (hsmall : list.length = list.size → list.size < 2 ^ 31) :
    ∃ list', add garbage list element = some list' ∧ list'.Holds (items ++ [element]) ∧
      list.size ≤ list'.size := by
  have hlt := h.size_lt
  have hle := h.length_le
  unfold add
  rw [if_neg hne]
  by_cases hfull : list.length = list.size
  · have hdouble : 2 * list.size % 2 ^ 32 = 2 * list.size := by
      have := hsmall hfull
      exact Nat.mod_eq_of_lt (by omega)
    obtain ⟨grown, hgrow, hholds, hlength, hsize⟩ := resize_holds garbage h (hpos hfull)
      (by omega : list.length ≤ 2 * list.size) (by have := hsmall hfull; omega)
    have hroom : grown.length < grown.size := by
      have := hpos hfull
      omega
    obtain ⟨values, hstore, hholds'⟩ := storeSlot_holds hholds element hroom
    have hwrap : (grown.length + 1) % 2 ^ 32 = grown.length + 1 := by
      have := hsmall hfull
      exact Nat.mod_eq_of_lt (by omega)
    refine ⟨_, ?_, hholds', by dsimp only; omega⟩
    simp only [if_pos hfull, hdouble, hgrow, hstore, bind, Option.bind, pure, hwrap]
  · obtain ⟨values, hstore, hholds'⟩ := storeSlot_holds h element (by omega)
    have hwrap : (list.length + 1) % 2 ^ 32 = list.length + 1 := Nat.mod_eq_of_lt (by omega)
    refine ⟨_, ?_, hholds', Nat.le_refl _⟩
    simp only [if_neg hfull, hstore, bind, Option.bind, pure, hwrap]

/-- The list that `shouldWeResize` leaves has room for the new elements. -/
theorem shouldWeResize_holds (garbage : Mem) {list : ListArray} {items : List Pointer}
    (h : list.Holds items) {newLength : Nat} (hle : list.length ≤ newLength)
    (hpos : list.size < newLength → 0 < list.length)
    (hsmall : list.size < newLength → newLength + newLength / 2 < 2 ^ 32) :
    ∃ list', shouldWeResize garbage list newLength = some list' ∧ list'.Holds items ∧
      list'.length = list.length ∧ newLength ≤ list'.size ∧ list.size ≤ list'.size := by
  unfold shouldWeResize
  split
  next hfit => exact ⟨list, rfl, h, rfl, hfit, Nat.le_refl _⟩
  next hfull =>
    -- half as much again, which does not wrap
    have hlt : list.size < newLength := by omega
    have hnew := hsmall hlt
    obtain ⟨grown, hgrow, hholds, hlength, hsize⟩ := resize_holds garbage h (hpos hlt)
      (by omega : list.length ≤ newLength + newLength / 2) hnew
    rw [Nat.mod_eq_of_lt hnew]
    exact ⟨grown, hgrow, hholds, hlength, by omega, by omega⟩

/-- `addFromStack` appends what is on the stack. -/
theorem addFromStack_holds (garbage : Mem) {list : ListArray} {items : List Pointer}
    (h : list.Holds items) (stack : Elements) {n : Nat} (hlt : list.length + n < 2 ^ 32)
    (hpos : list.size < list.length + n → 0 < list.length)
    (hsmall : list.size < list.length + n →
      list.length + n + (list.length + n) / 2 < 2 ^ 32) :
    ∃ list', addFromStack garbage list stack n = some list' ∧
      list'.Holds (items ++ elementsOf stack n) ∧ list.size ≤ list'.size := by
  unfold addFromStack elementsOf
  cases stack with
  | none => exact ⟨list, rfl, by rw [List.append_nil]; exact h, Nat.le_refl _⟩
  | some elements =>
    dsimp only
    by_cases hzero : n = 0
    · refine ⟨list, by rw [if_pos hzero], ?_, Nat.le_refl _⟩
      rw [hzero, List.range_zero, List.map_nil, List.append_nil]
      exact h
    · obtain ⟨grown, hgrow, hholds, hlength, hroom, hsize⟩ := shouldWeResize_holds garbage h
        (Nat.le_add_right list.length n) hpos hsmall
      obtain ⟨values, hstore, hholds'⟩ := storeAll_holds hholds elements (n := n) (by omega)
      -- the elements go behind those that the grown list still has
      have hwrap : (n + list.length) % 2 ^ 32 = list.length + n := by
        rw [Nat.add_comm, Nat.mod_eq_of_lt hlt]
      rw [hlength] at hstore hholds'
      refine ⟨_, ?_, hholds', hsize⟩
      simp only [if_neg hzero, hwrap, hgrow, hlength, hstore, bind, Option.bind, pure]

/-- `addAll` does the same, as long as the offset does not wrap. -/
theorem addAll_eq_addFromStack (garbage : Mem) {list : ListArray} (elementArray : Elements)
    (n : Nat) (hsmall : list.length < 2 ^ 29) :
    addAll garbage list elementArray n = addFromStack garbage list elementArray n := by
  have hlength : ∀ list', shouldWeResize garbage list ((n + list.length) % 2 ^ 32) = some list' →
      list'.length = list.length := by
    intro list' hresize
    unfold shouldWeResize at hresize
    split at hresize
    next _ => rw [← Option.some.inj hresize]
    next _ =>
      unfold resize at hresize
      obtain ⟨values, _, rfl⟩ := Option.map_eq_some_iff.mp hresize
      rfl
  unfold addAll addFromStack
  cases elementArray with
  | none => rfl
  | some elements =>
    dsimp only
    cases hresize : shouldWeResize garbage list ((n + list.length) % 2 ^ 32) with
    | none => rfl
    | some list' =>
      -- below 2 ^ 29 elements the shift loses no bit
      have hoffset : 8 * list'.length % 2 ^ 32 / 8 = list'.length := by
        rw [hlength list' hresize, Nat.mod_eq_of_lt (by omega),
          Nat.mul_div_cancel_left _ (by omega)]
      simp only [bind, Option.bind, hoffset]

/-- `ensureCapacity` only moves the elements. -/
theorem ensureCapacity_holds (garbage : Mem) {list : ListArray} {items : List Pointer}
    (h : list.Holds items) {capacity : Nat}
    (hgrow : list.size < capacity → 0 < list.length ∧ capacity ≤ 2 ^ 32 - 8) :
    ∃ list', ensureCapacity garbage list capacity = some list' ∧ list'.Holds items ∧
      list.size ≤ list'.size := by
  have hle := h.length_le
  unfold ensureCapacity
  split
  next hlt =>
    obtain ⟨hpos, hcapacity⟩ := hgrow hlt
    -- the rounding does not wrap, and the list has elements to move
    have hround : (capacity + 7) % 2 ^ 32 / 8 * 8 = (capacity + 7) / 8 * 8 := by
      rw [Nat.mod_eq_of_lt (by omega)]
    obtain ⟨grown, hresize, hholds, _, hsize⟩ := resize_holds garbage h hpos
      (by omega : list.length ≤ (capacity + 7) / 8 * 8) (by omega)
    rw [hround]
    exact ⟨grown, hresize, hholds, by omega⟩
  next _ => exact ⟨list, rfl, h, Nat.le_refl _⟩

/-- It aborts for a list without elements, and where the rounding wraps to zero. -/
theorem ensureCapacity_none (garbage : Mem) {list : ListArray} {capacity : Nat}
    (hlt : list.size < capacity) (hcapacity : capacity < 2 ^ 32)
    (h : list.length = 0 ∨ 2 ^ 32 - 8 < capacity) :
    ensureCapacity garbage list capacity = none := by
  unfold ensureCapacity
  rw [if_pos hlt]
  rcases h with hzero | hwrap
  · exact resize_empty garbage hzero _
  · have hround : (capacity + 7) % 2 ^ 32 / 8 * 8 = 0 := by omega
    rw [hround, resize, resizeArray_noBlocks]
    rfl

theorem get_holds {list : ListArray} {items : List Pointer} (h : list.Holds items) (index : Nat) :
    get list index = some (items.getD index nullPointer) := by
  have hle := h.length_le
  have hroom := h.room
  unfold get
  rw [List.getD_eq_getElem?_getD, ← h.slots]
  split
  next hlt =>
    rw [Block.loadSlot_eq (by omega), Block.getElem?_slots _ hlt]
    rfl
  next hge =>
    rw [List.getElem?_eq_none (by rw [Block.slots_length]; omega)]
    rfl

theorem last_holds {list : ListArray} {items : List Pointer} (h : list.Holds items) :
    last list = some (items.getLast?.getD nullPointer) := by
  have hle := h.length_le
  have hroom := h.room
  unfold last
  rw [List.getLast?_eq_getElem?, h.length, ← h.slots]
  split
  next hpos =>
    rw [Block.loadSlot_eq (by omega), Block.getElem?_slots _ (by omega)]
    rfl
  next hzero =>
    rw [List.getElem?_eq_none (by rw [Block.slots_length]; omega)]
    rfl

theorem clear_holds {list : ListArray} {items : List Pointer} (h : list.Holds items) :
    list.clear.Holds [] :=
  ⟨rfl, Nat.zero_le _, h.size_lt, h.room, h.aligned⟩

theorem reset_holds {list : ListArray} {items : List Pointer} (h : list.Holds items) :
    ∃ list', reset list = some list' ∧ list'.Holds [] ∧ list'.size = list.size := by
  have hle := h.length_le
  have hroom := h.room
  obtain ⟨values, hrun, hsize, _⟩ := storeAll_eq list.length (fun _ => nullPointer)
    (by omega : 8 * (0 + list.length) ≤ list.values.size)
  refine ⟨⟨values, 0, list.size⟩, ?_, ⟨rfl, Nat.zero_le _, h.size_lt, ?_, ?_⟩, rfl⟩
  · rw [reset, hrun]
    rfl
  · dsimp only
    rw [hsize]
    exact hroom
  · dsimp only
    rw [hsize]
    exact h.aligned

/-! ## Runs -/

end ListArray

/-- A call on a list. -/
inductive ListCall where
  | add (element : Pointer)
  | addAll (elementArray : Elements) (numElements : UInt32)
  | addFromStack (stack : Elements) (numElements : UInt32)
  | ensureCapacity (capacity : UInt32)
  | clear
  | reset
  | get (index : UInt32)
  | last

/-- What a call returns. -/
inductive ListResult where
  | void
  | pointer (p : Pointer)

namespace ListArray

/-- A call, with what a block that it allocates holds. -/
def step (list : ListArray) : ListCall × Mem → Option (ListResult × ListArray)
  | (.add element, garbage) => (add garbage list element).map fun list => (.void, list)
  | (.addAll elementArray numElements, garbage) =>
    (addAll garbage list elementArray numElements.toNat).map fun list => (.void, list)
  | (.addFromStack stack numElements, garbage) =>
    (addFromStack garbage list stack numElements.toNat).map fun list => (.void, list)
  | (.ensureCapacity capacity, garbage) =>
    (ensureCapacity garbage list capacity.toNat).map fun list => (.void, list)
  | (.clear, _) => some (.void, clear list)
  | (.reset, _) => (reset list).map fun list => (.void, list)
  | (.get index, _) => (get list index.toNat).map fun p => (.pointer p, list)
  | (.last, _) => (last list).map fun p => (.pointer p, list)

/-- The same call on a sequence. -/
def sequenceStep (items : List Pointer) : ListCall × Mem → ListResult × List Pointer
  | (.add element, _) => (.void, items ++ [element])
  | (.addAll elementArray numElements, _) =>
    (.void, items ++ elementsOf elementArray numElements.toNat)
  | (.addFromStack stack numElements, _) => (.void, items ++ elementsOf stack numElements.toNat)
  | (.ensureCapacity _, _) => (.void, items)
  | (.clear, _) => (.void, [])
  | (.reset, _) => (.void, [])
  | (.get index, _) => (.pointer (items.getD index.toNat nullPointer), items)
  | (.last, _) => (.pointer (items.getLast?.getD nullPointer), items)

/-- The calls looked at: no `NULL` for `add`, and fewer than `2 ^ 28` elements after it. -/
def Legal (items : List Pointer) (call : ListCall × Mem) : Prop :=
  (∀ element, call.1 = .add element → element ≠ nullPointer) ∧
    (sequenceStep items call).2.length < 2 ^ 28

/-- What a list shows of its sequence. -/
def Shows (list : ListArray) (items : List Pointer) : Prop :=
  list.values.slots list.length = items ∧ list.length ≤ list.size

/-- A call that does not make `resizeArray` abort: new elements fit, or the list has
some already; a larger capacity is asked of a list with elements, and is small enough
to be rounded up. -/
def Fits (list : ListArray) : ListCall × Mem → Prop
  | (.addAll (some _) numElements, _) => 0 < list.length ∨ numElements.toNat ≤ list.size
  | (.addFromStack (some _) numElements, _) => 0 < list.length ∨ numElements.toNat ≤ list.size
  | (.ensureCapacity capacity, _) =>
    capacity.toNat ≤ list.size ∨ (0 < list.length ∧ capacity.toNat ≤ 2 ^ 32 - 8)
  | _ => True

/-- Appending to a list without elements that has no room aborts. -/
theorem addFromStack_none (garbage : Mem) {list : ListArray} (stack : Nat → Pointer) {n : Nat}
    (hlen : list.length = 0) (hfull : list.size < n) (hn : n < 2 ^ 32) :
    addFromStack garbage list (some stack) n = none := by
  have hwrap : (n + list.length) % 2 ^ 32 = n := by rw [hlen, Nat.add_zero, Nat.mod_eq_of_lt hn]
  unfold addFromStack
  dsimp only
  rw [if_neg (by omega), hwrap]
  unfold shouldWeResize
  rw [if_neg (by omega), resize_empty garbage hlen]
  rfl

/-- What a run keeps: the list holds its sequence, and its size is not zero. -/
def Keeps (list : ListArray) (items : List Pointer) : Prop := list.Holds items ∧ 0 < list.size

/-- The calls that append an array or a stack. -/
theorem append_keeps (garbage : Mem) {list : ListArray} {items : List Pointer}
    (h : list.Keeps items) (elements : Elements) {n : Nat}
    (hlength : (items ++ elementsOf elements n).length < 2 ^ 28)
    (hfit : elements ≠ none → 0 < list.length ∨ n ≤ list.size) :
    ∃ list', addFromStack garbage list elements n = some list' ∧
      list'.Keeps (items ++ elementsOf elements n) := by
  cases elements with
  | none => exact ⟨list, rfl, by rw [elementsOf, List.append_nil]; exact h⟩
  | some elements =>
    have hfit' := hfit (by simp)
    have hpos := h.2
    rw [elementsOf, List.length_append, List.length_map, List.length_range, h.1.length] at hlength
    obtain ⟨list', hrun, hholds, hsize⟩ := addFromStack_holds garbage h.1 (some elements)
      (by omega : list.length + n < 2 ^ 32) (by omega) (by omega)
    exact ⟨list', hrun, hholds, by omega⟩

/-- **A call that fits does what the sequence does.** -/
theorem step_keeps {list : ListArray} {items : List Pointer} (call : ListCall × Mem)
    (h : list.Keeps items) (hlegal : Legal items call) (hfit : Fits list call) :
    ∃ list', step list call = some ((sequenceStep items call).1, list') ∧
      list'.Keeps (sequenceStep items call).2 := by
  obtain ⟨call, garbage⟩ := call
  obtain ⟨hnull, hlength⟩ := hlegal
  have hitems := h.1.length
  have hpos := h.2
  cases call with
  | add element =>
    have hsmall : (items ++ [element]).length < 2 ^ 28 := hlength
    rw [List.length_append, hitems] at hsmall
    obtain ⟨list', hrun, hholds, hsize⟩ := add_holds garbage h.1 (hnull element rfl)
      (by omega) (by omega)
    exact ⟨list', by rw [step, hrun]; rfl, hholds, by omega⟩
  | addAll elementArray numElements =>
    have hsmall : (items ++ elementsOf elementArray numElements.toNat).length < 2 ^ 28 := hlength
    obtain ⟨list', hrun, hkeeps⟩ := append_keeps garbage h elementArray hsmall (by
      intro hne
      cases elementArray with
      | none => exact absurd rfl hne
      | some elements => exact hfit)
    rw [List.length_append, hitems] at hsmall
    rw [← addAll_eq_addFromStack garbage elementArray _ (by omega)] at hrun
    exact ⟨list', by rw [step, hrun]; rfl, hkeeps⟩
  | addFromStack stack numElements =>
    obtain ⟨list', hrun, hkeeps⟩ := append_keeps garbage h stack hlength (by
      intro hne
      cases stack with
      | none => exact absurd rfl hne
      | some elements => exact hfit)
    exact ⟨list', by rw [step, hrun]; rfl, hkeeps⟩
  | ensureCapacity capacity =>
    have hgrow : list.size < capacity.toNat →
        0 < list.length ∧ capacity.toNat ≤ 2 ^ 32 - 8 :=
      fun hlt => hfit.resolve_left (by omega)
    obtain ⟨list', hrun, hholds, hsize⟩ := ensureCapacity_holds garbage h.1 hgrow
    exact ⟨list', by rw [step, hrun]; rfl, hholds, by omega⟩
  | clear => exact ⟨clear list, rfl, clear_holds h.1, hpos⟩
  | reset =>
    obtain ⟨list', hrun, hholds, hsize⟩ := reset_holds h.1
    exact ⟨list', by rw [step, hrun]; rfl, hholds, by omega⟩
  | get index => exact ⟨list, by rw [step, get_holds h.1]; rfl, h⟩
  | last => exact ⟨list, by rw [step, last_holds h.1]; rfl, h⟩

/-- A call that does not fit aborts. -/
theorem step_none {list : ListArray} {items : List Pointer} (call : ListCall × Mem)
    (h : list.Holds items) (hlegal : Legal items call) (hfit : ¬ Fits list call) :
    step list call = none := by
  obtain ⟨call, garbage⟩ := call
  obtain ⟨_, hlength⟩ := hlegal
  have hitems := h.length
  cases call with
  | addAll elementArray numElements =>
    cases elementArray with
    | none => exact absurd trivial hfit
    | some elements =>
      -- there is nothing to move, and `resizeArray` aborts
      have hno : ¬ (0 < list.length ∨ numElements.toNat ≤ list.size) := hfit
      have hnone := addFromStack_none garbage elements (by omega : list.length = 0)
        (by omega) numElements.toNat_lt
      rw [step, addAll_eq_addFromStack garbage _ _ (by omega), hnone]
      rfl
  | addFromStack stack numElements =>
    cases stack with
    | none => exact absurd trivial hfit
    | some elements =>
      have hno : ¬ (0 < list.length ∨ numElements.toNat ≤ list.size) := hfit
      rw [step, addFromStack_none garbage elements (by omega) (by omega) numElements.toNat_lt]
      rfl
  | ensureCapacity capacity =>
    have hno : ¬ (capacity.toNat ≤ list.size ∨
        (0 < list.length ∧ capacity.toNat ≤ 2 ^ 32 - 8)) := hfit
    rw [step, ensureCapacity_none garbage (by omega) capacity.toNat_lt (by omega)]
    rfl
  | _ => exact absurd trivial hfit

/-- **Runs of a list against runs of a sequence.** From a list initialised with a size
that is not zero, every call comes back with the result of the sequence, and leaves
its elements, exactly when every call fits. -/
theorem run_refines_sequence_iff (garbage : Mem) (size : UInt32) (hsize : 1 ≤ size)
    (calls : List (ListCall × Mem))
    (hlegal : Along (fun items call => some (sequenceStep items call)) Legal calls []) :
    ∃ list, initListArrayWithSize garbage size = some list ∧
      (RefinesRun step sequenceStep Shows calls list [] ↔ Along step Fits calls list) := by
  obtain ⟨list, hinit, hholds, _, hlist⟩ := initListArrayWithSize_holds garbage size
  have hpos : 1 ≤ size.toNat := hsize
  have hshows : ∀ (list : ListArray) (items : List Pointer), list.Keeps items →
      list.Shows items :=
    fun _ _ h => ⟨h.1.slots, h.1.length_le⟩
  have hbreaks : ∀ (list : ListArray) (items : List Pointer) (call : ListCall × Mem)
      (list' : ListArray), list.Keeps items → Legal items call → ¬ Fits list call →
      step list call = some ((sequenceStep items call).1, list') →
      ¬ list'.Shows (sequenceStep items call).2 := by
    intro list items call list' h hcall hfit hstep
    rw [step_none call h.1 hcall hfit] at hstep
    cases hstep
  exact ⟨list, hinit, refinesRun_iff_along hshows (fun _ _ call h => step_keeps call h) hbreaks
    calls ⟨hholds, by omega⟩ hlegal⟩

/-- A call that adds one element, and one that reads it. -/
def smallCalls : List (ListCall × Mem) := [(.add 1, fun _ => 0), (.last, fun _ => 0)]

theorem smallCalls_legal :
    Along (fun items call => some (sequenceStep items call)) Legal smallCalls [] := by
  refine ⟨⟨?_, by decide⟩, ?_⟩
  · intro element h
    cases h
    decide
  · intro r items h
    cases h
    exact ⟨⟨nofun, by decide⟩, fun _ _ _ => trivial⟩

theorem run_refines_sequence_iff_smallCalls :
    ∃ list, initListArrayWithSize (fun _ => 0) 1 = some list ∧
      (RefinesRun step sequenceStep Shows smallCalls list [] ↔ Along step Fits smallCalls list) :=
  run_refines_sequence_iff (fun _ => 0) 1 (by decide) smallCalls smallCalls_legal

/-- **Two elements for an empty list of size one**: the call does not come back. -/
theorem addAll_empty_aborts :
    ¬ ∀ (garbage : Mem) (size : UInt32), 1 ≤ size → ∀ calls : List (ListCall × Mem),
      Along (fun items call => some (sequenceStep items call)) Legal calls [] →
      ∃ list, initListArrayWithSize garbage size = some list ∧
        RefinesRun step sequenceStep Shows calls list [] := by
  intro h
  have hlegal : Along (fun items call => some (sequenceStep items call)) Legal
      [(.addAll (some fun _ => 1) 2, fun _ => 0)] [] :=
    ⟨⟨nofun, by decide⟩, fun _ _ _ => trivial⟩
  obtain ⟨list, hinit, hrun⟩ := h (fun _ => 0) 1 (by decide) _ hlegal
  obtain ⟨_, list', hstep, _⟩ := hrun
  obtain ⟨list₁, hinit₁, hholds, hlength, hsize⟩ :=
    initListArrayWithSize_holds (fun _ => 0) 1
  rw [hinit] at hinit₁
  cases hinit₁
  have hfit : ¬ Fits list (.addAll (some fun _ => 1) 2, fun _ => 0) := by
    show ¬ (0 < list.length ∨ (2 : UInt32).toNat ≤ list.size)
    rw [hlength, hsize]
    decide
  rw [step_none _ hholds hlegal.1 hfit] at hstep
  cases hstep

end ListArray

end DevopsBroker.Adt
