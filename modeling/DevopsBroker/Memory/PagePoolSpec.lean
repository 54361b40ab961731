import DevopsBroker.Lib.Simulation
import DevopsBroker.Memory.SlabPoolSpec

/-!
# Two pools, one on top of the other

`PoolsHold` ties both pools to stocks: the pages are those of the slabs that the PagePool
has carved up, and these slabs are held by it. `Represents` says which slabs and pages
the clients hold, and every call keeps it, unless it aborts: without memory for a slab, or
where a stack or the slab list is full.
-/

namespace DevopsBroker.Memory

open DevopsBroker.Adt
open DevopsBroker.Lang
open DevopsBroker.Lib

/-! ## The pages of a slab -/

/-- The bytes of a page. -/
def pageRegion (page : Pointer) : Region := ⟨page.toNat, MEMORY_PAGE_SIZE⟩

/-- The first `n` pages of a slab. -/
def pagesFrom (slab : Pointer) : Nat → List Pointer
  | 0 => []
  | n + 1 => slab :: pagesFrom (slab + UInt64.ofNat MEMORY_PAGE_SIZE) n

theorem pagesFrom_length (slab : Pointer) (n : Nat) : (pagesFrom slab n).length = n := by
  induction n generalizing slab with
  | zero => rfl
  | succ n ih => rw [pagesFrom, List.length_cons, ih]

/-- They are the pieces of the slab. -/
theorem pagesFrom_eq (n : Nat) :
    ∀ {slab : Pointer}, slab.toNat + MEMORY_PAGE_SIZE * n ≤ USER_SPACE →
      (pagesFrom slab n).map pageRegion =
        (List.range n).map (Region.piece slab.toNat MEMORY_PAGE_SIZE) := by
  induction n with
  | zero =>
    intro slab _
    rfl
  | succ n ih =>
    intro slab hspace
    unfold MEMORY_PAGE_SIZE USER_SPACE at hspace
    -- the next page does not wrap around
    have hnext : (slab + UInt64.ofNat MEMORY_PAGE_SIZE).toNat = slab.toNat + MEMORY_PAGE_SIZE := by
      rw [UInt64.toNat_add]
      show (slab.toNat + 4096) % 2 ^ 64 = slab.toNat + 4096
      exact Nat.mod_eq_of_lt (by omega)
    have hrest : (slab + UInt64.ofNat MEMORY_PAGE_SIZE).toNat + MEMORY_PAGE_SIZE * n ≤
        USER_SPACE := by
      rw [hnext]
      unfold MEMORY_PAGE_SIZE USER_SPACE
      omega
    rw [pagesFrom, List.map_cons, ih hrest, List.range_succ_eq_map, List.map_cons, List.map_map,
      hnext]
    refine List.cons_eq_cons.mpr ⟨rfl, ?_⟩
    apply List.map_congr_left
    intro i _
    exact Region.piece_succ slab.toNat MEMORY_PAGE_SIZE i

theorem pagesFrom_apart {slab : Pointer} (h : slab.toNat + SLABPOOL_SLAB_SIZE ≤ USER_SPACE) :
    (pagesFrom slab 8).Pairwise fun a b => (pageRegion a).Apart (pageRegion b) := by
  have hpieces := pagesFrom_eq 8 h
  have hrange : ((List.range 8).map (Region.piece slab.toNat MEMORY_PAGE_SIZE)).Pairwise
      Region.Apart :=
    List.pairwise_map.mpr (List.pairwise_lt_range.imp Region.piece_apart)
  rw [← hpieces] at hrange
  exact List.pairwise_map.mp hrange

theorem pagesFrom_within {slab page : Pointer}
    (h : slab.toNat + SLABPOOL_SLAB_SIZE ≤ USER_SPACE) (hpage : page ∈ pagesFrom slab 8) :
    (pageRegion page).Within (slabRegion slab) := by
  have hmem := List.mem_map_of_mem (f := pageRegion) hpage
  rw [pagesFrom_eq 8 h] at hmem
  obtain ⟨i, hi, hpiece⟩ := List.mem_map.mp hmem
  rw [← hpiece]
  exact Region.piece_within (List.mem_range.mp hi)

/-! ## The invariant -/

/-- What both pools own. -/
structure Account where
  slabs : Stock Pointer
  pages : Stock Pointer
  carved : List Pointer

/-- The PagePool after its first call. -/
structure PagesReady (pool : PagePool) (free carved : List Pointer) : Prop where
  stack : pool.pageStack.Holds free
  list : ∃ list, pool.slabList = some list ∧ list.Holds carved ∧ StackArray.Doubled list.size

/-- The pools own what the account says. -/
structure PoolsHold (s : Pools) (a : Account) : Prop where
  slabs : SlabsHold s.toSlabs a.slabs
  ready : s.pagePool.pageStack.values ≠ none →
    PagesReady s.pagePool a.pages.free a.carved
  unused : s.pagePool.pageStack.values = none →
    a.carved = [] ∧ s.pagePool.slabList = none ∧ s.pagePool.pageStack.length = 0
  pages : a.pages.all = a.carved.flatMap fun slab => pagesFrom slab 8
  alloc : s.pagePool.numPagesAlloc = UInt32.ofNat a.pages.all.length
  free : s.pagePool.numPagesFree = UInt32.ofNat a.pages.free.length
  inUse : s.pagePool.numPagesInUse = UInt32.ofNat a.pages.held.length

/-- Clients hold these slabs and these pages; the PagePool holds what it has carved. -/
def Represents (s : Pools) (slabs pages : List Pointer) : Prop :=
  ∃ a, PoolsHold s a ∧ a.slabs.held.Perm (a.carved ++ slabs) ∧ a.pages.held.Perm pages

/-- It does not matter in which order. -/
theorem Represents.perm {s : Pools} {slabs slabs' pages pages' : List Pointer}
    (h : Represents s slabs pages) (hslabs : slabs.Perm slabs') (hpages : pages.Perm pages') :
    Represents s slabs' pages' := by
  obtain ⟨a, hpools, hheld, hpages₀⟩ := h
  exact ⟨a, hpools, hheld.trans (hslabs.append_left _), hpages₀.trans hpages⟩

/-- The pools before the first call. -/
def declaredPools : Pools := ⟨⟨[], slabPool⟩, pagePool⟩

theorem declaredPools_represents : Represents declaredPools [] [] :=
  ⟨⟨Stock.empty, Stock.empty, []⟩,
    ⟨slabPool_holds, fun h => absurd rfl h, fun _ => ⟨rfl, rfl, rfl⟩, rfl, rfl, rfl, rfl⟩,
    List.Perm.nil, List.Perm.nil⟩

/-- The stack has as many pages as are free. -/
theorem PoolsHold.stack_length {s : Pools} {a : Account} (h : PoolsHold s a) :
    s.pagePool.pageStack.length = a.pages.free.length := by
  cases hvalues : s.pagePool.pageStack.values with
  | none =>
    -- no slab was carved, so that there is no page
    obtain ⟨hcarved, _, hlength⟩ := h.unused hvalues
    have hsplit := a.pages.length_all
    rw [h.pages, hcarved] at hsplit
    have hnil : (List.flatMap (fun slab => pagesFrom slab 8) ([] : List Pointer)).length = 0 := rfl
    omega
  | some values => exact (h.ready (by rw [hvalues]; exact nofun)).stack.length.symm

/-- While a page is held, the pool is in use. -/
theorem PoolsHold.ready_of_held {s : Pools} {a : Account} (h : PoolsHold s a) {page : Pointer}
    (hpage : page ∈ a.pages.held) : PagesReady s.pagePool a.pages.free a.carved := by
  apply h.ready
  intro hnone
  have hmem := a.pages.mem_all_of_mem_held hpage
  rw [h.pages, (h.unused hnone).1] at hmem
  cases hmem

theorem PoolsHold.free_length_lt {s : Pools} {a : Account} (h : PoolsHold s a) :
    a.pages.free.length < 2 ^ 32 := by
  rw [← h.stack_length]
  cases hvalues : s.pagePool.pageStack.values with
  | none =>
    have hlength := (h.unused hvalues).2.2
    omega
  | some values =>
    have hlength := (h.ready (by rw [hvalues]; exact nofun)).stack.length_le
    omega

theorem PoolsHold.free_eq_nil {s : Pools} {a : Account} (h : PoolsHold s a) :
    s.pagePool.numPagesFree = 0 ↔ a.pages.free = [] := by
  rw [h.free, counter_eq_zero h.free_length_lt, List.length_eq_zero_iff]

/-! ## Slabs of the clients -/

/-- A client acquires a slab. -/
theorem acquireSlab_represents (env : Env) {s : Pools} {slabs pages : List Pointer}
    (h : Represents s slabs pages) (hfresh : Fresh s.blocks env.aligned_alloc)
    (hne : s.slabPool.numSlabsFree = 0 → env.aligned_alloc ≠ nullPointer) :
    ∃ slab s', acquireSlab env s.toSlabs = some (slab, s') ∧
      Represents { s with toSlabs := s' } (slab :: slabs) pages := by
  obtain ⟨a, hpools, hheld, hpages⟩ := h
  obtain ⟨slab, s', stock, hrun, hslabs, hstock⟩ := acquireSlab_holds env hpools.slabs hfresh hne
  refine ⟨slab, s', hrun, { a with slabs := stock }, { hpools with slabs := hslabs }, ?_, hpages⟩
  rw [hstock]
  exact (hheld.cons slab).trans List.perm_middle.symm

/-- A client releases a slab. -/
theorem releaseSlab_represents (env : Env) {s : Pools} {slab : Pointer}
    {slabs pages : List Pointer} (h : Represents s (slab :: slabs) pages)
    (hroom : s.slabPool.slabStack.length ≠ 2 ^ 31) :
    ∃ s', releaseSlab env s.toSlabs slab = some s' ∧
      Represents { s with toSlabs := s' } slabs pages := by
  obtain ⟨a, hpools, hheld, hpages⟩ := h
  have hfirst := hheld.trans List.perm_middle
  have hslab : slab ∈ a.slabs.held := hfirst.mem_iff.mpr (List.mem_cons_self ..)
  obtain ⟨s', hrun, hslabs⟩ := releaseSlab_holds env hpools.slabs hslab hroom
  refine ⟨s', hrun, { a with slabs := a.slabs.release hslab }, { hpools with slabs := hslabs },
    ?_, hpages⟩
  exact ((List.perm_cons_erase hslab).symm.trans hfirst).cons_inv

/-! ## The slab list -/

/-- `b196167f_add` keeps the size a doubled one. -/
theorem add_doubled (garbage : Mem) {list : ListArray} {items : List Pointer}
    (h : list.Holds items) (hdoubled : StackArray.Doubled list.size) {element : Pointer}
    (hne : element ≠ nullPointer) (hroom : list.length ≠ 2 ^ 31) :
    ∃ list', list.add garbage element = some list' ∧ list'.Holds (items ++ [element]) ∧
      StackArray.Doubled list'.size := by
  have hle := h.length_le
  have hmax := hdoubled.le
  have hpos := hdoubled.pos
  obtain ⟨list', hrun, hholds, _⟩ := ListArray.add_holds garbage h hne (by omega) (by omega)
  refine ⟨list', hrun, hholds, ?_⟩
  unfold ListArray.add at hrun
  rw [if_neg hne] at hrun
  by_cases hfull : list.length = list.size
  · -- a full list grows to twice its size
    have hdouble := hdoubled.double (by omega)
    have hwrap : 2 * list.size % 2 ^ 32 = 2 * list.size := Nat.mod_eq_of_lt (by omega)
    rw [if_pos hfull, hwrap] at hrun
    obtain ⟨grown, hgrow, hstore⟩ := Option.bind_eq_some_iff.mp hrun
    obtain ⟨values, _, hlist⟩ := Option.bind_eq_some_iff.mp hstore
    obtain ⟨_, _, rfl⟩ := Option.map_eq_some_iff.mp hgrow
    rw [← Option.some.inj hlist]
    exact hdouble
  · rw [if_neg hfull] at hrun
    obtain ⟨_, hsame, hstore⟩ := Option.bind_eq_some_iff.mp hrun
    obtain ⟨values, _, hlist⟩ := Option.bind_eq_some_iff.mp hstore
    rw [← Option.some.inj hsame] at hlist
    rw [← Option.some.inj hlist]
    exact hdoubled

/-- A list of `2 ^ 31` elements does not grow. -/
theorem add_full (garbage : Mem) {list : ListArray} {items : List Pointer} (h : list.Holds items)
    (hdoubled : StackArray.Doubled list.size) {element : Pointer} (hne : element ≠ nullPointer)
    (hfull : list.length = 2 ^ 31) : list.add garbage element = none := by
  have hle := h.length_le
  have hmax := hdoubled.le
  have hwrap : 2 * list.size % 2 ^ 32 = 0 := by omega
  unfold ListArray.add ListArray.resize
  rw [if_neg hne, if_pos (by omega), hwrap, resizeArray_noBlocks]
  rfl

/-- The list is full when there are as many carved slabs. -/
def ListFull (pool : PagePool) : Prop :=
  ∃ list, pool.slabList = some list ∧ list.length = 2 ^ 31

theorem PoolsHold.listFull_iff {s : Pools} {a : Account} (h : PoolsHold s a) :
    ListFull s.pagePool ↔ a.carved.length = 2 ^ 31 := by
  cases hvalues : s.pagePool.pageStack.values with
  | none =>
    obtain ⟨hcarved, hlist, _⟩ := h.unused hvalues
    constructor
    · rintro ⟨list, hsome, _⟩
      rw [hlist] at hsome
      cases hsome
    · intro hfull
      rw [hcarved, List.length_nil] at hfull
      omega
  | some values =>
    obtain ⟨list, hlist, hholds, _⟩ := (h.ready (by rw [hvalues]; exact nofun)).list
    rw [hholds.length]
    constructor
    · rintro ⟨list', hlist', hfull⟩
      rw [hlist] at hlist'
      rw [Option.some.inj hlist']
      exact hfull
    · intro hfull
      exact ⟨list, hlist, hfull⟩

/-! ## Pages of the clients -/

/-- The loop that pushes the pages of a slab. -/
theorem pushPages_holds (garbage : Nat → Mem) (n : Nat) :
    ∀ {stack : StackArray} {items : List Pointer} (slab : Pointer), stack.Holds items →
      items.length + n ≤ 2 ^ 31 →
      ∃ stack', pushPages garbage n stack slab = some stack' ∧
        stack'.Holds (items ++ pagesFrom slab n) := by
  induction n with
  | zero =>
    intro stack items slab h _
    exact ⟨stack, rfl, by rw [pagesFrom, List.append_nil]; exact h⟩
  | succ n ih =>
    intro stack items slab h hroom
    have hlength := h.length
    obtain ⟨pushed, hpush, hholds⟩ := StackArray.push_holds (garbage n) h slab (by omega)
    have hrest : (items ++ [slab]).length + n ≤ 2 ^ 31 := by
      rw [List.length_append, List.length_singleton]
      omega
    obtain ⟨stack', hrun, hholds'⟩ := ih (slab + UInt64.ofNat MEMORY_PAGE_SIZE) hholds hrest
    refine ⟨stack', ?_, ?_⟩
    · rw [pushPages, hpush]
      exact hrun
    · rw [List.append_assoc] at hholds'
      exact hholds'

/-- The page stack and the slab list are initialised once. -/
theorem initPageStack_holds (env : Env) {s : Pools} {a : Account} (h : PoolsHold s a) :
    ∃ s', initPageStack env s = some s' ∧ s'.toSlabs = s.toSlabs ∧ PoolsHold s' a ∧
      PagesReady s'.pagePool a.pages.free a.carved := by
  unfold initPageStack
  cases hvalues : s.pagePool.pageStack.values with
  | some values => exact ⟨s, rfl, rfl, h, h.ready (by rw [hvalues]; exact nofun)⟩
  | none =>
    -- the first call: both are new, and hold what the account says, nothing
    obtain ⟨hcarved, _, hlength⟩ := h.unused hvalues
    obtain ⟨pageStack, hinit, hstack⟩ := StackArray.initStackArray_holds (env.garbage 2)
    obtain ⟨slabList, hlist, hholds, _, hsize⟩ :=
      ListArray.initListArrayWithSize_holds (env.garbage 3) LISTARRAY_DEFAULT_SIZE
    have hdoubled : StackArray.Doubled slabList.size := by
      rw [hsize]
      exact StackArray.doubled_default
    have hfree : a.pages.free = [] := by
      rw [← List.length_eq_zero_iff, ← h.stack_length, hlength]
    let initialised : Pools := { s with
      pagePool := { s.pagePool with pageStack := pageStack, slabList := some slabList } }
    have hready : PagesReady initialised.pagePool a.pages.free a.carved := by
      rw [hfree, hcarved]
      exact ⟨hstack, slabList, rfl, hholds, hdoubled⟩
    refine ⟨initialised, ?_, rfl, { h with ready := fun _ => hready, unused := ?_ }, hready⟩
    · unfold ListArray.initListArray
      simp only [hinit, hlist, bind, Option.bind, pure, initialised]
    · intro hnone
      exact absurd hnone hstack.values_ne

/-- `populatePagePool` carves up a slab that it acquires. -/
theorem populatePagePool_holds (env : Env) {s : Pools} {a : Account} {slabs : List Pointer}
    (h : PoolsHold s a) (hready : PagesReady s.pagePool a.pages.free a.carved)
    (hheld : a.slabs.held.Perm (a.carved ++ slabs)) (hempty : a.pages.free = [])
    (hfresh : Fresh s.blocks env.aligned_alloc)
    (hne : s.slabPool.numSlabsFree = 0 → env.aligned_alloc ≠ nullPointer)
    (hroom : ¬ ListFull s.pagePool) :
    ∃ s' a', populatePagePool env s = some s' ∧ PoolsHold s' a' ∧
      PagesReady s'.pagePool a'.pages.free a'.carved ∧
      a'.slabs.held.Perm (a'.carved ++ slabs) ∧ a'.pages.held = a.pages.held ∧
      a'.pages.free ≠ [] := by
  obtain ⟨slab, slabs', stock, hacquire, hslabs, hstock⟩ :=
    acquireSlab_holds env h.slabs hfresh hne
  obtain ⟨list, hlist, hholds, hdoubled⟩ := hready.list
  have hmem : slab ∈ stock.held := by
    rw [hstock]
    exact List.mem_cons_self ..
  have hnull := hslabs.ne_null hmem
  have hlength : list.length ≠ 2 ^ 31 := fun hfull => hroom ⟨list, hlist, hfull⟩
  obtain ⟨list', hadd, hholds', hdoubled'⟩ :=
    add_doubled (env.garbage 4) hholds hdoubled hnull hlength
  obtain ⟨pageStack, hpush, hstack⟩ := pushPages_holds (fun n => env.garbage (5 + n)) 8 slab
    hready.stack (by rw [hempty, List.length_nil]; omega)
  let populated : Pools := {
    toSlabs := slabs'
    pagePool := { s.pagePool with
      pageStack := pageStack
      slabList := some list'
      numPagesAlloc := s.pagePool.numPagesAlloc + 8
      numPagesFree := s.pagePool.numPagesFree + 8 } }
  -- the PagePool holds the slab from now on, and its pages are free
  let account : Account :=
    ⟨stock, a.pages.supply (pagesFrom slab 8), a.carved ++ [slab]⟩
  have hready' : PagesReady populated.pagePool account.pages.free account.carved :=
    ⟨hstack, list', rfl, hholds', hdoubled'⟩
  refine ⟨populated, account, ?_, ⟨hslabs, fun _ => hready', ?_, ?_, ?_, ?_, h.inUse⟩, hready',
    ?_, rfl, ?_⟩
  · unfold populatePagePool
    simp only [hacquire, hlist, hadd, hpush, bind, Option.bind, pure, populated]
  · intro hnone
    exact absurd hnone hstack.values_ne
  · show a.pages.all ++ pagesFrom slab 8 = (a.carved ++ [slab]).flatMap fun slab => pagesFrom slab 8
    rw [h.pages, List.flatMap_append, List.flatMap_singleton]
  · show s.pagePool.numPagesAlloc + 8 = UInt32.ofNat (a.pages.all ++ pagesFrom slab 8).length
    rw [List.length_append, pagesFrom_length, UInt32.ofNat_add, h.alloc]
    rfl
  · show s.pagePool.numPagesFree + 8 = UInt32.ofNat (a.pages.free ++ pagesFrom slab 8).length
    rw [List.length_append, pagesFrom_length, UInt32.ofNat_add, h.free]
    rfl
  · show stock.held.Perm (a.carved ++ [slab] ++ slabs)
    rw [hstock, List.append_assoc]
    exact (hheld.cons slab).trans List.perm_middle.symm
  · exact List.append_ne_nil_of_right_ne_nil _ nofun

/-- What `populatePagePool` needs, when no page is free. -/
def CanPopulate (env : Env) (s : Pools) : Prop :=
  (s.slabPool.numSlabsFree = 0 → env.aligned_alloc ≠ nullPointer) ∧ ¬ ListFull s.pagePool

/-- **A client acquires a page.** -/
theorem acquirePage_represents (env : Env) {s : Pools} {slabs pages : List Pointer}
    (h : Represents s slabs pages) (hfresh : Fresh s.blocks env.aligned_alloc)
    (hcan : s.pagePool.numPagesFree = 0 → CanPopulate env s) :
    ∃ page s', acquirePage env s = some (page, s') ∧ Represents s' slabs (page :: pages) := by
  obtain ⟨a, hpools, hheld, hpages⟩ := h
  obtain ⟨s₁, hinit, hsame, h₁, hready₁⟩ := initPageStack_holds env hpools
  have hfull : ListFull s₁.pagePool ↔ ListFull s.pagePool :=
    h₁.listFull_iff.trans hpools.listFull_iff.symm
  obtain ⟨s₂, a₂, hensure, h₂, hready₂, hheld₂, hpages₂, hsome⟩ :
      ∃ s₂ a₂, ensurePage env s₁ = some s₂ ∧ PoolsHold s₂ a₂ ∧
        PagesReady s₂.pagePool a₂.pages.free a₂.carved ∧
        a₂.slabs.held.Perm (a₂.carved ++ slabs) ∧ a₂.pages.held = a.pages.held ∧
        a₂.pages.free ≠ [] := by
    unfold ensurePage
    by_cases hempty : a.pages.free = []
    · -- no page is free, and a slab is carved up first
      obtain ⟨hne, hroom⟩ := hcan (hpools.free_eq_nil.mpr hempty)
      rw [if_pos (h₁.free_eq_nil.mpr hempty)]
      rw [← hsame] at hfresh hne
      exact populatePagePool_holds env h₁ hready₁ hheld hempty hfresh hne
        (fun hlist => hroom (hfull.mp hlist))
    · rw [if_neg (fun hzero => hempty (h₁.free_eq_nil.mp hzero))]
      exact ⟨s₁, a, rfl, h₁, hready₁, hheld, rfl, hempty⟩
  obtain ⟨rest, page, hfree⟩ : ∃ rest page, a₂.pages.free = rest ++ [page] :=
    ⟨_, _, (List.dropLast_append_getLast hsome).symm⟩
  have hstack := hready₂.stack
  rw [hfree] at hstack
  obtain ⟨pageStack, hpop, hholds⟩ := StackArray.pop_holds hstack
  let acquired : Pools := { s₂ with
    pagePool := { s₂.pagePool with
      pageStack := pageStack
      numPagesFree := s₂.pagePool.numPagesFree - 1
      numPagesInUse := s₂.pagePool.numPagesInUse + 1
      numPagesUsed := s₂.pagePool.numPagesUsed + 1 } }
  refine ⟨page, acquired, ?_, ⟨a₂.slabs, a₂.pages.acquire hfree, a₂.carved⟩,
    ⟨h₂.slabs, fun _ => ⟨hholds, hready₂.list⟩, ?_, h₂.pages, h₂.alloc, ?_, ?_⟩, hheld₂, ?_⟩
  · unfold acquirePage
    simp only [hinit, hensure, hpop, bind, Option.bind, pure, acquired]
  · intro hnone
    exact absurd hnone hholds.values_ne
  · show s₂.pagePool.numPagesFree - 1 = UInt32.ofNat rest.length
    rw [h₂.free, hfree, List.length_append, List.length_singleton, counter_pred]
  · show s₂.pagePool.numPagesInUse + 1 = UInt32.ofNat (page :: a₂.pages.held).length
    rw [List.length_cons, counter_succ, h₂.inUse]
  · show (page :: a₂.pages.held).Perm (page :: pages)
    rw [hpages₂]
    exact hpages.cons page

/-- A client releases a page. -/
theorem releasePage_represents (env : Env) {s : Pools} {page : Pointer}
    {slabs pages : List Pointer} (h : Represents s slabs (page :: pages))
    (hroom : s.pagePool.pageStack.length ≠ 2 ^ 31) :
    ∃ s', releasePage env s page = some s' ∧ Represents s' slabs pages := by
  obtain ⟨a, hpools, hheld, hpages⟩ := h
  have hpage : page ∈ a.pages.held := hpages.mem_iff.mpr (List.mem_cons_self ..)
  have hready := hpools.ready_of_held hpage
  have hmax := hready.stack.length_le
  obtain ⟨pageStack, hpush, hholds⟩ :=
    StackArray.push_holds (env.garbage 0) hready.stack page (by omega)
  let released : Pools := { s with
    pagePool := { s.pagePool with
      pageStack := pageStack
      numPagesFree := s.pagePool.numPagesFree + 1
      numPagesInUse := s.pagePool.numPagesInUse - 1 } }
  refine ⟨released, ?_, ⟨a.slabs, a.pages.release hpage, a.carved⟩,
    ⟨hpools.slabs, fun _ => ⟨hholds, hready.list⟩, ?_, hpools.pages, hpools.alloc, ?_, ?_⟩,
    hheld, ?_⟩
  · unfold releasePage
    simp only [hpush, bind, Option.bind, pure, released]
  · intro hnone
    exact absurd hnone hholds.values_ne
  · show s.pagePool.numPagesFree + 1 = UInt32.ofNat (a.pages.free ++ [page]).length
    rw [List.length_append, List.length_singleton, counter_succ, hpools.free]
  · show s.pagePool.numPagesInUse - 1 = UInt32.ofNat (a.pages.held.erase page).length
    rw [hpools.inUse, (List.perm_cons_erase hpage).length_eq, List.length_cons, counter_pred]
  · exact ((List.perm_cons_erase hpage).symm.trans hpages).cons_inv

/-! ## Calls that abort -/

theorem acquireSlab_aborts (env : Env) {s : Pools} {slabs pages : List Pointer}
    (h : Represents s slabs pages) (hzero : s.slabPool.numSlabsFree = 0)
    (hnull : env.aligned_alloc = nullPointer) : acquireSlab env s.toSlabs = none := by
  obtain ⟨a, hpools, _, _⟩ := h
  exact acquireSlab_none env hpools.slabs hzero hnull

theorem releaseSlab_aborts (env : Env) {s : Pools} {slab : Pointer} {slabs pages : List Pointer}
    (h : Represents s (slab :: slabs) pages) (hfull : s.slabPool.slabStack.length = 2 ^ 31) :
    releaseSlab env s.toSlabs slab = none := by
  obtain ⟨a, hpools, hheld, _⟩ := h
  have hslab : slab ∈ a.slabs.held :=
    (hheld.trans List.perm_middle).mem_iff.mpr (List.mem_cons_self ..)
  exact releaseSlab_none env hpools.slabs hslab hfull

theorem acquirePage_aborts (env : Env) {s : Pools} {slabs pages : List Pointer}
    (h : Represents s slabs pages) (hfresh : Fresh s.blocks env.aligned_alloc)
    (hzero : s.pagePool.numPagesFree = 0) (hcannot : ¬ CanPopulate env s) :
    acquirePage env s = none := by
  obtain ⟨a, hpools, hheld, _⟩ := h
  obtain ⟨s₁, hinit, hsame, h₁, hready₁⟩ := initPageStack_holds env hpools
  have hempty := h₁.free_eq_nil.mpr (hpools.free_eq_nil.mp hzero)
  have hpopulate : populatePagePool env s₁ = none := by
    unfold populatePagePool
    by_cases hnone : s.slabPool.numSlabsFree = 0 ∧ env.aligned_alloc = nullPointer
    · -- there is no slab
      rw [hsame, acquireSlab_none env hpools.slabs hnone.1 hnone.2]
      rfl
    · -- there is one, and the list has no room for it
      have hne : s.slabPool.numSlabsFree = 0 → env.aligned_alloc ≠ nullPointer :=
        fun hfree hnull => hnone ⟨hfree, hnull⟩
      have hfull : ListFull s₁.pagePool := by
        by_contra hroom
        exact hcannot ⟨hne, fun hlist =>
          hroom (h₁.listFull_iff.mpr (hpools.listFull_iff.mp hlist))⟩
      obtain ⟨slab, s', stock, hrun, hslabs, hstock⟩ :=
        acquireSlab_holds env hpools.slabs hfresh hne
      obtain ⟨list, hlist, hholds, hdoubled⟩ := hready₁.list
      obtain ⟨list', hlist', hlength⟩ := hfull
      rw [hlist] at hlist'
      rw [← Option.some.inj hlist'] at hlength
      have hadd := add_full (env.garbage 4) hholds hdoubled
        (hslabs.ne_null (hstock ▸ List.mem_cons_self ..)) hlength
      simp only [hsame, hrun, hlist, hadd, bind, Option.bind]
  unfold acquirePage ensurePage
  simp only [hinit, if_pos hempty, hpopulate, bind, Option.bind]

theorem releasePage_aborts (env : Env) {s : Pools} {page : Pointer} {slabs pages : List Pointer}
    (h : Represents s slabs (page :: pages)) (hfull : s.pagePool.pageStack.length = 2 ^ 31) :
    releasePage env s page = none := by
  obtain ⟨a, hpools, _, hpages⟩ := h
  have hready := hpools.ready_of_held (hpages.mem_iff.mpr (List.mem_cons_self ..))
  unfold releasePage
  rw [StackArray.push_full (env.garbage 0) hready.stack page hfull]
  rfl

/-! ## What the invariant says -/

/-- What clients hold, as regions of memory. -/
def regions (slabs pages : List Pointer) : List Region :=
  pages.map pageRegion ++ slabs.map slabRegion

/-- **Whatever clients hold is pairwise apart.** -/
theorem Represents.apart {s : Pools} {slabs pages : List Pointer}
    (h : Represents s slabs pages) : (regions slabs pages).Pairwise Region.Apart := by
  obtain ⟨a, hpools, hheld, hpages⟩ := h
  have hslabs : (a.carved ++ slabs).Pairwise fun a b => (slabRegion a).Apart (slabRegion b) :=
    (hheld.pairwise_iff Region.Apart.symm).mp
      (a.slabs.pairwise_held Region.Apart.symm hpools.slabs.apart)
  obtain ⟨hcarved, hlent, hcross⟩ := List.pairwise_append.mp hslabs
  have hspace : ∀ slab ∈ a.carved, slab.toNat + SLABPOOL_SLAB_SIZE ≤ USER_SPACE := by
    intro slab hslab
    have hmem := hheld.mem_iff.mpr (List.mem_append_left slabs hslab)
    exact (hpools.slabs.space slab (a.slabs.mem_all_of_mem_held hmem)).2
  -- a page is part of a carved slab, and the pages of one slab are apart
  have hall : a.pages.all.Pairwise fun a b => (pageRegion a).Apart (pageRegion b) := by
    rw [hpools.pages, List.pairwise_flatMap]
    refine ⟨fun slab hslab => pagesFrom_apart (hspace slab hslab), ?_⟩
    refine hcarved.imp_of_mem ?_
    intro slab slab' hslab hslab' hapart page hpage page' hpage'
    exact hapart.within (pagesFrom_within (hspace slab hslab) hpage)
      (pagesFrom_within (hspace slab' hslab') hpage')
  have hpagesApart : pages.Pairwise fun a b => (pageRegion a).Apart (pageRegion b) :=
    (hpages.pairwise_iff Region.Apart.symm).mp (a.pages.pairwise_held Region.Apart.symm hall)
  refine List.pairwise_append.mpr
    ⟨List.pairwise_map.mpr hpagesApart, List.pairwise_map.mpr hlent, ?_⟩
  intro r hr r' hr'
  obtain ⟨page, hpage, rfl⟩ := List.mem_map.mp hr
  obtain ⟨slab, hslab, rfl⟩ := List.mem_map.mp hr'
  have hmem := a.pages.mem_all_of_mem_held (hpages.mem_iff.mpr hpage)
  rw [hpools.pages] at hmem
  obtain ⟨home, hhome, hpage'⟩ := List.mem_flatMap.mp hmem
  exact (hcross home hhome slab hslab).within (pagesFrom_within (hspace home hhome) hpage')
    ⟨Nat.le_refl _, Nat.le_refl _⟩

/-- A page that is held lies in user space. -/
theorem Represents.page_space {s : Pools} {slabs pages : List Pointer}
    (h : Represents s slabs pages) {page : Pointer} (hpage : page ∈ pages) :
    page.toNat + MEMORY_PAGE_SIZE ≤ USER_SPACE := by
  obtain ⟨a, hpools, hheld, hpages⟩ := h
  have hmem := a.pages.mem_all_of_mem_held (hpages.mem_iff.mpr hpage)
  rw [hpools.pages] at hmem
  obtain ⟨slab, hslab, hpage'⟩ := List.mem_flatMap.mp hmem
  have hslab' := a.slabs.mem_all_of_mem_held (hheld.mem_iff.mpr (List.mem_append_left slabs hslab))
  have hspace := (hpools.slabs.space slab hslab').2
  exact Nat.le_trans (pagesFrom_within hspace hpage').2 hspace

/-- Regions that are pairwise apart and not empty are different. -/
theorem nodup_of_apart {ptrs : List Pointer} {region : Pointer → Region}
    (hsize : ∀ p, 0 < (region p).size) (h : (ptrs.map region).Pairwise Region.Apart) :
    ptrs.Nodup := by
  refine (List.pairwise_map.mp h).imp ?_
  intro p q hapart heq
  rw [heq] at hapart
  exact Region.not_apart_self (hsize q) hapart

end DevopsBroker.Memory
