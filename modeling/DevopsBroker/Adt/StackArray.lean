import DevopsBroker.Adt.ListArraySpec

/-!
# `adt/stackarray.c`: the stack in an array

`StackArray` keeps its elements in one block, of eight pointers at first, and doubles it
when it is full. `Holds` ties the block to the elements, the top one last; `push` and
`pop` do what they say to them. A stack of `2 ^ 31` elements is full for good: the size
wraps to zero, and `resizeArray` aborts.

Mirroring notes vs the C source:
- `values` is `none` for `NULL`. `none` as a result stands for an abort, or for an
  access outside of a block.
- `uint32_t` arithmetic is natural numbers modulo `2 ^ 32`.
-/

namespace DevopsBroker.Adt

open DevopsBroker.Lang
open DevopsBroker.Lib (Mem)

/-- `F106C0AB_DEFAULT_SIZE`. -/
def F106C0AB_DEFAULT_SIZE : Nat := 8

/-- `struct StackArray`. -/
structure StackArray where
  values : Option Block
  length : Nat
  size : Nat

namespace StackArray

/-- `f106c0ab_initStackArray`, and `f106c0ab_createStackArray`. -/
def initStackArray (garbage : Mem) : Option StackArray :=
  (malloc garbage (8 * F106C0AB_DEFAULT_SIZE)).map fun values =>
    ⟨some values, 0, F106C0AB_DEFAULT_SIZE⟩

/-- `f106c0ab_clear`. -/
def clear (stack : StackArray) : StackArray := { stack with length := 0 }

/-- `f106c0ab_peek`. -/
def peek (stack : StackArray) : Option Pointer :=
  if stack.length = 0 then some nullPointer
  else stack.values.bind fun values => values.loadSlot (stack.length - 1)

/-- `f106c0ab_pop`. -/
def pop (stack : StackArray) : Option (Pointer × StackArray) :=
  if stack.length = 0 then some (nullPointer, stack)
  else do
    let values ← stack.values
    let item ← values.loadSlot (stack.length - 1)
    return (item, { stack with length := stack.length - 1 })

/-- The resizing of `f106c0ab_push`. -/
def grow (garbage : Mem) (stack : StackArray) : Option StackArray :=
  if stack.length = stack.size then
    let size := 2 * stack.size % 2 ^ 32
    (resizeArray garbage stack.values stack.length 8 size).map fun values =>
      { stack with values := some values, size := size }
  else some stack

/-- `f106c0ab_push`. -/
def push (garbage : Mem) (stack : StackArray) (item : Pointer) : Option StackArray := do
  let stack ← grow garbage stack
  let values ← stack.values
  let values ← values.storeSlot stack.length item
  return { stack with values := some values, length := (stack.length + 1) % 2 ^ 32 }

/-! ## The elements of a stack -/

/-- The elements, from the bottom to the top. -/
def items (stack : StackArray) : List Pointer :=
  match stack.values with
  | none => []
  | some values => values.slots stack.length

/-- A size that doubling leads to, without wrapping. -/
def Doubled (size : Nat) : Prop := ∃ k ≤ 31, size = 2 ^ k

theorem Doubled.pos {size : Nat} (h : Doubled size) : 0 < size := by
  obtain ⟨k, _, rfl⟩ := h
  exact Nat.two_pow_pos k

theorem Doubled.le {size : Nat} (h : Doubled size) : size ≤ 2 ^ 31 := by
  obtain ⟨k, hk, rfl⟩ := h
  exact Nat.pow_le_pow_right (by omega) hk

theorem Doubled.double {size : Nat} (h : Doubled size) (hlt : size < 2 ^ 31) :
    Doubled (2 * size) := by
  obtain ⟨k, hk, rfl⟩ := h
  have hne : k ≠ 31 := fun heq => Nat.lt_irrefl _ (heq ▸ hlt)
  exact ⟨k + 1, by omega, by rw [Nat.pow_succ, Nat.mul_comm]⟩

theorem doubled_default : Doubled F106C0AB_DEFAULT_SIZE := ⟨3, by omega, rfl⟩

/-- The stack holds its elements in a block of its own: as a list in an array does. -/
def Holds (stack : StackArray) (items : List Pointer) : Prop :=
  ∃ values, stack.values = some values ∧
    (⟨values, stack.length, stack.size⟩ : ListArray).Holds items ∧ Doubled stack.size

theorem Holds.length {stack : StackArray} {items : List Pointer} (h : stack.Holds items) :
    items.length = stack.length := by
  obtain ⟨values, _, hlist, _⟩ := h
  exact hlist.length

theorem Holds.length_le {stack : StackArray} {items : List Pointer} (h : stack.Holds items) :
    stack.length ≤ 2 ^ 31 := by
  obtain ⟨values, _, hlist, hdoubled⟩ := h
  exact Nat.le_trans hlist.length_le hdoubled.le

theorem Holds.items {stack : StackArray} {items : List Pointer} (h : stack.Holds items) :
    stack.items = items := by
  obtain ⟨values, hvalues, hlist, _⟩ := h
  unfold StackArray.items
  rw [hvalues]
  exact hlist.slots

/-- `values` is not `NULL` any more. -/
theorem Holds.values_ne {stack : StackArray} {items : List Pointer} (h : stack.Holds items) :
    stack.values ≠ none := by
  obtain ⟨values, hvalues, _⟩ := h
  rw [hvalues]
  exact nofun

/-- An initialised stack is empty. -/
theorem initStackArray_holds (garbage : Mem) :
    ∃ stack, initStackArray garbage = some stack ∧ stack.Holds [] := by
  obtain ⟨list, hinit, hlist, hlength, hsize⟩ :=
    ListArray.initListArrayWithSize_holds garbage LISTARRAY_DEFAULT_SIZE
  obtain ⟨values, hmalloc, rfl⟩ := Option.map_eq_some_iff.mp hinit
  refine ⟨⟨some values, 0, F106C0AB_DEFAULT_SIZE⟩, ?_, values, rfl, hlist, doubled_default⟩
  -- both allocate eight pointers
  show (malloc garbage (8 * LISTARRAY_DEFAULT_SIZE.toNat)).map _ = _
  rw [hmalloc]
  rfl

/-- After `grow` there is room for one more element. -/
theorem grow_holds (garbage : Mem) {stack : StackArray} {items : List Pointer}
    (h : stack.Holds items) (hroom : stack.length < 2 ^ 31) :
    ∃ stack', grow garbage stack = some stack' ∧ stack'.Holds items ∧
      stack'.length = stack.length ∧ stack'.length < stack'.size := by
  obtain ⟨values, hvalues, hlist, hdoubled⟩ := h
  have hle := hlist.length_le
  dsimp only at hle
  unfold grow
  by_cases hfull : stack.length = stack.size
  · have hpos := hdoubled.pos
    have hwrap : 2 * stack.size % 2 ^ 32 = 2 * stack.size := Nat.mod_eq_of_lt (by omega)
    have hnew : stack.length ≤ 2 * stack.size := by omega
    obtain ⟨grown, hresize, hgrown, hlength, hsize⟩ :=
      ListArray.resize_holds garbage hlist (by dsimp only; omega) hnew (by omega)
    obtain ⟨new, hnew, rfl⟩ := Option.map_eq_some_iff.mp hresize
    dsimp only at hnew hgrown
    refine ⟨{ stack with values := some new, size := 2 * stack.size }, ?_, ?_, rfl, ?_⟩
    · rw [if_pos hfull, hvalues, hwrap]
      dsimp only
      rw [hnew]
      rfl
    · exact ⟨new, rfl, hgrown, hdoubled.double (by omega)⟩
    · dsimp only
      omega
  · rw [if_neg hfull]
    exact ⟨stack, rfl, ⟨values, hvalues, hlist, hdoubled⟩, rfl, by omega⟩

/-- **`push` puts an element on the top.** -/
theorem push_holds (garbage : Mem) {stack : StackArray} {items : List Pointer}
    (h : stack.Holds items) (item : Pointer) (hroom : stack.length < 2 ^ 31) :
    ∃ stack', push garbage stack item = some stack' ∧ stack'.Holds (items ++ [item]) := by
  obtain ⟨grown, hgrow, hholds, hlength, hlt⟩ := grow_holds garbage h hroom
  obtain ⟨values, hvalues, hlist, hdoubled⟩ := hholds
  obtain ⟨values', hstore, hlist'⟩ := ListArray.storeSlot_holds hlist item hlt
  dsimp only at hstore hlist'
  have hwrap : (grown.length + 1) % 2 ^ 32 = grown.length + 1 := Nat.mod_eq_of_lt (by omega)
  refine ⟨{ grown with values := some values', length := grown.length + 1 }, ?_, ?_⟩
  · unfold push
    simp only [hgrow, hvalues, hstore, bind, Option.bind, pure, hwrap]
  · exact ⟨values', rfl, hlist', hdoubled⟩

/-- A stack of `2 ^ 31` elements does not grow. -/
theorem push_full (garbage : Mem) {stack : StackArray} {items : List Pointer}
    (h : stack.Holds items) (item : Pointer) (hfull : stack.length = 2 ^ 31) :
    push garbage stack item = none := by
  obtain ⟨values, hvalues, hlist, hdoubled⟩ := h
  have hsize : stack.size = 2 ^ 31 := by
    have hle := hlist.length_le
    have hmax := hdoubled.le
    dsimp only at hle
    omega
  have hgrow : grow garbage stack = none := by
    unfold grow
    -- doubling wraps to zero
    have hwrap : 2 * stack.size % 2 ^ 32 = 0 := by omega
    rw [if_pos (by omega), hwrap]
    dsimp only
    rw [resizeArray_noBlocks]
    rfl
  unfold push
  rw [hgrow]
  rfl

/-- The last element is where `peek` and `pop` look for it. -/
theorem loadTop {list : ListArray} {rest : List Pointer} {item : Pointer}
    (h : list.Holds (rest ++ [item])) :
    list.values.loadSlot (list.length - 1) = some item ∧ list.values.slots (list.length - 1) = rest := by
  have hlength := h.length
  rw [List.length_append, List.length_singleton] at hlength
  have hslots := h.slots
  have hroom := h.room
  have hle := h.length_le
  rw [← hlength, Block.slots_succ] at hslots
  obtain ⟨hrest, hitem⟩ := List.append_inj hslots (by rw [Block.slots_length])
  have htop : list.length - 1 = rest.length := by omega
  rw [htop]
  exact ⟨by rw [Block.loadSlot_eq (by omega), List.singleton_inj.mp hitem], hrest⟩

/-- **`pop` takes the top element.** -/
theorem pop_holds {stack : StackArray} {rest : List Pointer} {item : Pointer}
    (h : stack.Holds (rest ++ [item])) :
    ∃ stack', pop stack = some (item, stack') ∧ stack'.Holds rest := by
  have hlength := h.length
  rw [List.length_append, List.length_singleton] at hlength
  obtain ⟨values, hvalues, hlist, hdoubled⟩ := h
  obtain ⟨hload, hrest⟩ := loadTop hlist
  have hle := hlist.length_le
  dsimp only at hload hrest hle
  refine ⟨{ stack with length := stack.length - 1 }, ?_, values, hvalues, ?_, hdoubled⟩
  · unfold pop
    rw [if_neg (by omega)]
    simp only [hvalues, hload, bind, Option.bind, pure]
  · refine ⟨hrest, ?_, hlist.size_lt, hlist.room, hlist.aligned⟩
    dsimp only
    omega

/-- `peek` only looks at it. -/
theorem peek_holds {stack : StackArray} {rest : List Pointer} {item : Pointer}
    (h : stack.Holds (rest ++ [item])) : peek stack = some item := by
  have hlength := h.length
  rw [List.length_append, List.length_singleton] at hlength
  obtain ⟨values, hvalues, hlist, _⟩ := h
  have hload := (loadTop hlist).1
  unfold peek
  rw [if_neg (by omega), hvalues]
  exact hload

end StackArray

end DevopsBroker.Adt
