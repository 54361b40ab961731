import DevopsBroker.Adt.ListArraySpec
import DevopsBroker.Lang.ArraySpec

/-!
# `adt/listarray.c`: a list of what its pointers point to

Where a program follows the elements of a `ListArray`, the list is said by what these point to.
`add_refines` ties it to the list of pointers, and `addEach_rel` a whole run from a new list on: the
two come back alike, whatever the addresses are.

Mirroring notes vs the source:
- `none` stands for an abort of `resizeArray`, and for a sort that leaves its stack.
- `size` is for how many elements there is room.
-/

namespace DevopsBroker.Adt

open DevopsBroker.Lang
open DevopsBroker.Lib

/-- `struct ListArray`, by what its elements point to. -/
structure ListOf (α : Type) where
  values : List α
  size : Nat

namespace ListOf

variable {α : Type}

/-- `b196167f_initListArrayWithSize`. -/
def initWithSize (size : UInt32) : ListOf α := ⟨[], size.toNat⟩

/-- `b196167f_initListArray`. -/
def init : ListOf α := initWithSize LISTARRAY_DEFAULT_SIZE

/-- Twice the size, where there is no room. -/
def grow (list : ListOf α) : Option (ListOf α) :=
  if list.values.length = list.size then
    -- twice the size is no `uint32_t` from `2 ^ 31` on
    if 0 < list.size ∧ list.size < 2 ^ 31 then some { list with size := 2 * list.size } else none
  else some list

/-- `b196167f_add`; `none` is `NULL`. -/
def add (list : ListOf α) : Option α → Option (ListOf α)
  | none => some list
  | some element => do
    let list ← list.grow
    return { list with values := list.values ++ [element] }

/-- `b196167f_sort`. -/
def sort (compare : α → α → Int) (list : ListOf α) : Option (ListOf α) :=
  if 0 < list.values.length then
    (sortPtrArray compare list.values 0 (list.values.length - 1)).map fun values =>
      { list with values := values }
  else some list

/-! ## The list of pointers -/

/-- A list of pointers to what the list is of. -/
structure PointsTo (address : α → Pointer) (list : ListArray) (elements : ListOf α) : Prop where
  holds : list.Holds (elements.values.map address)
  size : list.size = elements.size

theorem initWithSize_pointsTo (garbage : Mem) (address : α → Pointer) (size : UInt32) :
    ∃ list, ListArray.initListArrayWithSize garbage size = some list ∧
      PointsTo address list (initWithSize size) := by
  obtain ⟨list, hinit, hholds, _, hsize⟩ := ListArray.initListArrayWithSize_holds garbage size
  exact ⟨list, hinit, hholds, hsize⟩

/-- The new block of a list of `2 ^ 31` elements or more is too small. -/
theorem resize_tooSmall (garbage : Mem) {list : ListArray} (hfull : list.length = list.size)
    (hlow : 2 ^ 31 ≤ list.size) (hhigh : list.size < 2 ^ 32) :
    ListArray.resize garbage list (2 * list.size % 2 ^ 32) = none := by
  obtain ⟨more, hmore⟩ : ∃ more, list.size = 2 ^ 31 + more := ⟨list.size - 2 ^ 31, by omega⟩
  have hdouble : 2 * list.size % 2 ^ 32 = 2 * more := by omega
  unfold ListArray.resize
  rw [hdouble]
  by_cases hzero : 2 * more = 0
  · rw [hzero, resizeArray_noBlocks]
    rfl
  · unfold resizeArray
    dsimp only
    rw [if_neg (by omega), mallocArray_eq garbage (by omega)]
    dsimp only
    rw [if_neg (by omega), if_neg (by omega)]
    rfl

/-- Where a list grows, it has room for twice as many. -/
theorem grow_refines (garbage : Mem) {address : α → Pointer} {list : ListArray} {elements : ListOf α}
    (h : PointsTo address list elements) :
    Exactly (elements.values.length = elements.size → 0 < elements.size ∧ elements.size < 2 ^ 31)
      (fun list' => ∃ elements', elements.grow = some elements' ∧ PointsTo address list' elements' ∧
        elements'.values = elements.values ∧ list'.length < list'.size)
      (if list.length = list.size then ListArray.resize garbage list (2 * list.size % 2 ^ 32)
        else some list) := by
  have hlength : elements.values.length = list.length := by
    rw [← h.holds.length, List.length_map]
  have hlt := h.holds.size_lt
  have hle := h.holds.length_le
  rw [hlength, ← h.size]
  unfold grow
  rw [hlength, ← h.size]
  refine ⟨fun hroom => ?_, fun hno => ?_⟩
  · by_cases hfull : list.length = list.size
    · obtain ⟨hpos, hsmall⟩ := hroom hfull
      rw [if_pos hfull, if_pos hfull, if_pos ⟨hpos, hsmall⟩, Nat.mod_eq_of_lt (by omega)]
      obtain ⟨list', hresize, hholds, hlength', hsize'⟩ := ListArray.resize_holds garbage h.holds
        (by omega) (by omega : list.length ≤ 2 * list.size) (by omega)
      exact ⟨list', hresize, _, rfl, ⟨hholds, hsize'⟩, rfl, by omega⟩
    · rw [if_neg hfull, if_neg hfull]
      exact ⟨list, rfl, elements, rfl, h, rfl, by omega⟩
  · have hfull : list.length = list.size := by
      by_contra hroom
      exact hno fun hfull => absurd hfull hroom
    rw [if_pos hfull]
    by_cases hzero : list.size = 0
    · exact ListArray.resize_empty garbage (by omega) _
    · exact resize_tooSmall garbage hfull (by omega) hlt

/-- **`add` on pointers and on what they point to** comes back alike. -/
theorem add_refines (garbage : Mem) {address : α → Pointer} {list : ListArray} {elements : ListOf α}
    (h : PointsTo address list elements) {element : α} (hne : address element ≠ nullPointer) :
    Exactly (elements.values.length = elements.size → 0 < elements.size ∧ elements.size < 2 ^ 31)
      (fun list' => ∃ elements', elements.add (some element) = some elements' ∧
        PointsTo address list' elements')
      (ListArray.add garbage list (address element)) := by
  have hgrow := grow_refines garbage h
  -- what is stored behind the elements
  have hstore : ∀ list₁ : ListArray, (∃ elements₁, elements.grow = some elements₁ ∧
      PointsTo address list₁ elements₁ ∧ elements₁.values = elements.values ∧
      list₁.length < list₁.size) →
      Exactly True (fun list' => ∃ elements', elements.add (some element) = some elements' ∧
        PointsTo address list' elements')
        ((list₁.values.storeSlot list₁.length (address element)).bind fun values =>
          some { list₁ with values := values, length := (list₁.length + 1) % 2 ^ 32 }) := by
    intro list₁ ⟨elements₁, hgrown, hpoints, _, hlt⟩
    have hsmall := hpoints.holds.size_lt
    obtain ⟨values, hstored, hholds⟩ := ListArray.storeSlot_holds hpoints.holds (address element) hlt
    rw [Nat.mod_eq_of_lt (by omega : list₁.length + 1 < 2 ^ 32)]
    refine Exactly.bind_some hstored (Exactly.some
      ⟨{ elements₁ with values := elements₁.values ++ [element] }, ?_, ?_, hpoints.size⟩)
    · rw [add, hgrown]
      rfl
    · rw [List.map_append]
      exact hholds
  have hboth := (hgrow.bind hstore).cond (iff_of_eq (and_true _))
  unfold ListArray.add
  rw [if_neg hne]
  by_cases hfull : list.length = list.size
  · rw [if_pos hfull] at hboth ⊢
    exact hboth
  · rw [if_neg hfull] at hboth ⊢
    exact hboth

/-- The two lists come back alike, or neither does. -/
theorem add_rel (garbage : Mem) {address : α → Pointer} {list : ListArray} {elements : ListOf α}
    (h : PointsTo address list elements) {element : α} (hne : address element ≠ nullPointer) :
    Option.Rel (PointsTo address) (ListArray.add garbage list (address element))
      (elements.add (some element)) := by
  have hrefines := add_refines garbage h hne
  by_cases hroom : elements.values.length = elements.size → 0 < elements.size ∧ elements.size < 2 ^ 31
  · obtain ⟨list', hadd, elements', hadd', hpoints⟩ := hrefines.comes hroom
    rw [hadd, hadd']
    exact .some hpoints
  · obtain ⟨hfull, hno⟩ := Classical.not_imp.mp hroom
    rw [hrefines.fails hroom, add, grow, if_pos hfull, if_neg hno]
    exact .none

/-- **From a new list on**, whatever is added to it. -/
theorem addEach_rel (garbage : Mem) {address : α → Pointer} (hne : ∀ element, address element ≠ nullPointer)
    (size : UInt32) (added : List α) :
    ∃ list, ListArray.initListArrayWithSize garbage size = some list ∧
      Option.Rel (PointsTo address)
        (added.foldlM (fun list element => ListArray.add garbage list (address element)) list)
        (added.foldlM (fun elements element => elements.add (some element)) (initWithSize size)) := by
  obtain ⟨list, hinit, hpoints⟩ := initWithSize_pointsTo garbage address size
  refine ⟨list, hinit, ?_⟩
  generalize (initWithSize size : ListOf α) = elements at hpoints
  clear hinit
  induction added generalizing list elements with
  | nil => exact .some hpoints
  | cons element added ih =>
    have hadd := add_rel garbage hpoints (hne element)
    rw [List.foldlM_cons, List.foldlM_cons]
    generalize ListArray.add garbage list (address element) = list' at hadd ⊢
    generalize elements.add (some element) = elements' at hadd ⊢
    cases hadd with
    | none => exact .none
    | some hpoints' => exact ih _ _ hpoints'

/-! ## The calls -/

/-- The size was doubled some times, and there is room for the elements. -/
def Doubling (list : ListOf α) : Prop :=
  list.values.length ≤ list.size ∧ ∃ k ≤ 31, list.size = 2 ^ k

/-- A list takes `2 ^ 31` elements. -/
theorem add_exactly {list : ListOf α} (h : list.Doubling) (element : α) :
    Exactly (list.values.length < 2 ^ 31)
      (fun list' => list'.Doubling ∧ list'.values = list.values ++ [element])
      (list.add (some element)) := by
  obtain ⟨hle, k, hk, hsize⟩ := h
  have hmost : 2 ^ k ≤ 2 ^ 31 := Nat.pow_le_pow_right (by omega) hk
  have hpos : 0 < 2 ^ k := Nat.two_pow_pos k
  have hgrow : Exactly (list.values.length < 2 ^ 31)
      (fun list' => list'.values = list.values ∧ list.values.length < list'.size ∧
        ∃ k ≤ 31, list'.size = 2 ^ k) list.grow := by
    unfold grow
    split
    next hfull =>
      refine (Exactly.guard fun hroom => ⟨rfl, by dsimp only; omega, k + 1, ?_, ?_⟩).cond (by omega)
      · by_contra hno
        obtain rfl : k = 31 := by omega
        omega
      · dsimp only
        rw [hsize, Nat.pow_succ, Nat.mul_comm]
    next hroom =>
      exact (Exactly.some ⟨rfl, by omega, k, hk, hsize⟩).cond (iff_of_true trivial (by omega))
  refine hgrow.bind_pure fun list' hlist' => ⟨⟨?_, hlist'.2.2⟩, by rw [hlist'.1]⟩
  rw [List.length_append, hlist'.1, List.length_singleton]
  exact hlist'.2.1

theorem init_doubling : (init : ListOf α).Doubling := ⟨Nat.zero_le _, 3, by decide, rfl⟩

/-- A sort changes places only, and comes back where there is not just one element. -/
theorem sort_exactly (compare : α → α → Int) (list : ListOf α) :
    Exactly (list.values.length ≠ 1 ∧ list.values.length < 2 ^ 31)
      (fun list' => list'.values.Perm list.values) (list.sort compare) := by
  unfold sort
  split
  next hpos =>
    have hsort := sortPtrArray_exactly compare (Nat.zero_le (list.values.length - 1))
      (by omega : list.values.length - 1 < list.values.length)
    rw [Option.map_eq_bind]
    exact (hsort.bind_pure fun values hperm => hperm).cond (by omega)
  next hempty =>
    refine Exactly.cond (Exactly.some (List.Perm.refl _)) (iff_of_true trivial ⟨?_, ?_⟩) <;> omega

/-! ## The stack of a sort -/

/-- `h - l + 1`, where `l` is `0` and `h` the last index, as `int`s. -/
def stackSize (list : ListOf α) : Int :=
  Int.bmod (Int.bmod (list.values.length - 1) (2 ^ 32) - 0 + 1) (2 ^ 32)

/-- The indices of its stack that a sort writes; with a stack of no size, those of the range that
it starts with. -/
def stackWrites (compare : α → α → Int) (list : ListOf α) : List Nat :=
  0 :: 1 :: if 0 < list.stackSize then
    sortWrites compare (list.values.length + 1) [list.values.length - 1, 0] list.values
  else []

/-- Up to `INT_MAX` elements, there are as many places as elements; from there on there are none. -/
theorem stackSize_eq {list : ListOf α} (hpos : 0 < list.values.length)
    (hsmall : list.values.length < 2 ^ 32) :
    list.stackSize = if list.values.length < 2 ^ 31 then (list.values.length : Int)
      else (list.values.length : Int) - 2 ^ 32 := by
  unfold stackSize
  rw [Int.bmod_def, Int.bmod_def]
  split <;> omega

/-- **A sort writes its stack inside of the declared size** exactly when the list has two elements
at least, and `INT_MAX` at most. -/
theorem stackWrites_iff (compare : α → α → Int) {list : ListOf α} (hpos : 0 < list.values.length)
    (hsmall : list.values.length < 2 ^ 32) :
    (∀ i ∈ list.stackWrites compare, (i : Int) < list.stackSize) ↔
      2 ≤ list.values.length ∧ list.values.length < 2 ^ 31 := by
  have hsize := stackSize_eq hpos hsmall
  constructor
  · intro h
    have hone := h 1 (List.mem_cons_of_mem _ List.mem_cons_self)
    rw [hsize] at hone
    split at hone
    next hlt => exact ⟨by omega, hlt⟩
    next hge => omega
  · intro ⟨htwo, hlt⟩
    rw [if_pos hlt] at hsize
    have hpending : Pending list.values.length [list.values.length - 1, 0] :=
      ⟨by omega, by omega, trivial⟩
    have hweight : weight [list.values.length - 1, 0] = list.values.length := by
      rw [weight, weight]
      · omega
      · simp
    obtain ⟨values, hrun, _⟩ := sortLoop_perm compare (list.values.length + 1) hpending
      (Nat.le_of_eq hweight) (by omega) rfl
    have hwrites := (sortLoop_iff_sortWrites compare _ hpending (by omega) rfl).mp ⟨values, hrun⟩
    intro i hi
    rw [hsize]
    unfold stackWrites at hi
    rw [hsize, if_pos (by omega)] at hi
    rcases List.mem_cons.mp hi with rfl | hi
    · omega
    · rcases List.mem_cons.mp hi with rfl | hi
      · omega
      · exact Int.ofNat_lt.mpr (hwrites i hi)

theorem stackWrites_iff_threeElements :
    (∀ i ∈ stackWrites (fun _ _ : Nat => 1) ⟨[7, 5, 6], 8⟩, (i : Int) < stackSize ⟨[7, 5, 6], 8⟩) ↔
      2 ≤ [7, 5, 6].length ∧ [7, 5, 6].length < 2 ^ 31 :=
  stackWrites_iff _ (by decide) (by decide)

/-- One element: two places are written, and there is one. -/
theorem stackWrites_oneElement :
    ¬ ∀ i ∈ stackWrites (fun _ _ : Nat => 1) ⟨[7], 8⟩, (i : Int) < stackSize ⟨[7], 8⟩ := by
  intro h
  exact absurd (h 1 (List.mem_cons_of_mem _ List.mem_cons_self)) (by decide)

end ListOf

end DevopsBroker.Adt
