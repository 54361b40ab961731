import DevopsBroker.Lib.Region
import DevopsBroker.Memory.PagePool

/-!
# The SlabPool as a stock of slabs

`SlabsHold` ties the SlabPool to a `Stock` of slabs: the stack is what is free, the
counters count, and the slabs are apart. Acquiring and releasing keep it.

The stack is initialised whenever `numSlabsAlloc` is zero. The counter is of 32 bits, but
`2 ^ 32` slabs do not fit into user space: it is zero before the first slab only.
-/

namespace DevopsBroker.Memory

open DevopsBroker.Adt
open DevopsBroker.Lang
open DevopsBroker.Lib

/-- The bytes of a slab. -/
def slabRegion (slab : Pointer) : Region := ⟨slab.toNat, SLABPOOL_SLAB_SIZE⟩

/-- The end of what a process can address on x86-64. -/
abbrev USER_SPACE : Nat := 2 ^ 47

/-- What `aligned_alloc` may return: `NULL`, or bytes in user space that no block has which
it handed out before. -/
def Fresh (blocks : List Pointer) (ptr : Pointer) : Prop :=
  ptr = nullPointer ∨ (ptr.toNat + SLABPOOL_SLAB_SIZE ≤ USER_SPACE ∧
    ∀ block ∈ blocks, (slabRegion block).Apart (slabRegion ptr))

/-! ## Counters -/

theorem counter_succ (n : Nat) : UInt32.ofNat (n + 1) = UInt32.ofNat n + 1 := UInt32.ofNat_add n 1

theorem counter_pred (n : Nat) : UInt32.ofNat (n + 1) - 1 = UInt32.ofNat n := by
  rw [counter_succ, UInt32.add_sub_cancel]

theorem toNat_counter {n : Nat} (h : n < 2 ^ 32) : (UInt32.ofNat n).toNat = n := by
  rw [UInt32.toNat_ofNat', Nat.mod_eq_of_lt h]

theorem counter_eq_zero {n : Nat} (h : n < 2 ^ 32) : UInt32.ofNat n = 0 ↔ n = 0 := by
  rw [← UInt32.toNat_inj, toNat_counter h]
  rfl

/-! ## The invariant -/

/-- The SlabPool owns the slabs of a stock. -/
structure SlabsHold (s : Slabs) (stock : Stock Pointer) : Prop where
  blocks : s.blocks = stock.all
  stack : stock.all ≠ [] → s.slabPool.slabStack.Holds stock.free
  stack_length : s.slabPool.slabStack.length = stock.free.length
  alloc : s.slabPool.numSlabsAlloc = UInt32.ofNat stock.all.length
  free : s.slabPool.numSlabsFree = UInt32.ofNat stock.free.length
  inUse : s.slabPool.numSlabsInUse = UInt32.ofNat stock.held.length
  space : ∀ slab ∈ stock.all, 1 ≤ slab.toNat ∧ slab.toNat + SLABPOOL_SLAB_SIZE ≤ USER_SPACE
  apart : stock.all.Pairwise fun a b => (slabRegion a).Apart (slabRegion b)

/-- Before the first call there are no slabs. -/
theorem slabPool_holds : SlabsHold ⟨[], slabPool⟩ Stock.empty :=
  ⟨rfl, fun h => absurd rfl h, rfl, rfl, rfl, rfl, nofun, List.Pairwise.nil⟩

/-- **Fewer than `2 ^ 32` slabs fit into user space.** -/
theorem SlabsHold.length_lt {s : Slabs} {stock : Stock Pointer} (h : SlabsHold s stock) :
    stock.all.length < 2 ^ 32 := by
  have hapart : (stock.all.map slabRegion).Pairwise Region.Apart := List.pairwise_map.mpr h.apart
  have hroom : ∀ r ∈ stock.all.map slabRegion, 1 ≤ r.start ∧ r.start + r.size ≤ USER_SPACE := by
    intro r hr
    obtain ⟨slab, hslab, rfl⟩ := List.mem_map.mp hr
    exact h.space slab hslab
  have hsum := Region.sum_size_le hapart hroom
  have hsizes : (stock.all.map slabRegion).map Region.size =
      List.replicate stock.all.length SLABPOOL_SLAB_SIZE := by
    rw [List.map_map]
    exact List.map_const' ..
  rw [hsizes, List.sum_replicate_nat] at hsum
  unfold SLABPOOL_SLAB_SIZE USER_SPACE at hsum
  omega

theorem SlabsHold.free_length_lt {s : Slabs} {stock : Stock Pointer} (h : SlabsHold s stock) :
    stock.free.length < 2 ^ 32 := by
  have hall := h.length_lt
  have hsplit := stock.length_all
  omega

theorem SlabsHold.free_eq_nil {s : Slabs} {stock : Stock Pointer} (h : SlabsHold s stock) :
    s.slabPool.numSlabsFree = 0 ↔ stock.free = [] := by
  rw [h.free, counter_eq_zero h.free_length_lt, List.length_eq_zero_iff]

/-- A slab is not at `NULL`. -/
theorem SlabsHold.ne_null {s : Slabs} {stock : Stock Pointer} (h : SlabsHold s stock)
    {slab : Pointer} (hslab : slab ∈ stock.held) : slab ≠ nullPointer := by
  intro hnull
  have hpos := (h.space slab (stock.mem_all_of_mem_held hslab)).1
  rw [hnull] at hpos
  exact Nat.not_succ_le_zero 0 hpos

/-! ## Acquiring -/

/-- The stack is initialised when there is no slab, and only then. -/
theorem initSlabStack_holds (env : Env) {s : Slabs} {stock : Stock Pointer}
    (h : SlabsHold s stock) :
    ∃ s', initSlabStack env s = some s' ∧ SlabsHold s' stock ∧
      s'.slabPool.slabStack.Holds stock.free := by
  unfold initSlabStack
  by_cases hzero : s.slabPool.numSlabsAlloc = 0
  · -- the counter is zero only without any slab, as it does not come round
    rw [h.alloc, counter_eq_zero h.length_lt] at hzero
    have hfree : stock.free = [] := by
      have hsplit := stock.length_all
      exact List.length_eq_zero_iff.mp (by omega)
    obtain ⟨slabStack, hinit, hholds⟩ := StackArray.initStackArray_holds (env.garbage 0)
    rw [if_pos (by rw [h.alloc, hzero]; rfl), hinit]
    rw [← hfree] at hholds
    exact ⟨_, rfl, { h with stack := fun _ => hholds, stack_length := hholds.length.symm }, hholds⟩
  · rw [if_neg hzero]
    have hne : stock.all ≠ [] := by
      intro hnil
      apply hzero
      rw [h.alloc, hnil]
      rfl
    exact ⟨s, rfl, h, h.stack hne⟩

/-- `populateSlabPool` supplies the slab that `aligned_alloc` returns. -/
theorem populateSlabPool_holds (env : Env) {s : Slabs} {stock : Stock Pointer}
    (h : SlabsHold s stock) (hstack : s.slabPool.slabStack.Holds stock.free)
    (hempty : stock.free = []) (hfresh : Fresh s.blocks env.aligned_alloc)
    (hne : env.aligned_alloc ≠ nullPointer) :
    ∃ s', populateSlabPool env s = some s' ∧ SlabsHold s' (stock.supply [env.aligned_alloc]) ∧
      s'.slabPool.slabStack.Holds (stock.supply [env.aligned_alloc]).free := by
  obtain ⟨hspace, hapart⟩ := hfresh.resolve_left hne
  have hlength := hstack.length
  rw [hempty, List.length_nil] at hlength
  obtain ⟨slabStack, hpush, hholds⟩ :=
    StackArray.push_holds (env.garbage 1) hstack env.aligned_alloc (by omega)
  have hpos : 1 ≤ env.aligned_alloc.toNat := by
    apply Nat.pos_of_ne_zero
    intro hzero
    exact hne (UInt64.toNat_inj.mp hzero)
  have halloc : alignedAlloc env.aligned_alloc = some env.aligned_alloc := if_neg hne
  -- the new slab is both the only free one and apart from all slabs before
  let populated : Slabs := {
    blocks := s.blocks ++ [env.aligned_alloc]
    slabPool := { s.slabPool with
      slabStack := slabStack
      numSlabsAlloc := s.slabPool.numSlabsAlloc + 1
      numSlabsFree := s.slabPool.numSlabsFree + 1 } }
  refine ⟨populated, ?_, ⟨?_, fun _ => hholds, hholds.length.symm, ?_, ?_, h.inUse, ?_, ?_⟩,
    hholds⟩
  · unfold populateSlabPool
    simp only [halloc, hpush, bind, Option.bind, pure, populated]
  · show s.blocks ++ _ = stock.all ++ _
    rw [h.blocks]
  · show s.slabPool.numSlabsAlloc + 1 = UInt32.ofNat (stock.all ++ [env.aligned_alloc]).length
    rw [List.length_append, List.length_singleton, counter_succ, h.alloc]
  · show s.slabPool.numSlabsFree + 1 = UInt32.ofNat (stock.free ++ [env.aligned_alloc]).length
    rw [List.length_append, List.length_singleton, counter_succ, h.free]
  · intro slab hslab
    rcases List.mem_append.mp hslab with hold | hnew
    · exact h.space slab hold
    · rw [List.mem_singleton.mp hnew]
      exact ⟨hpos, hspace⟩
  · refine List.pairwise_append.mpr ⟨h.apart, List.pairwise_singleton .., ?_⟩
    intro slab hslab new hnew
    rw [List.mem_singleton.mp hnew]
    rw [h.blocks] at hapart
    exact hapart slab hslab

/-- After `ensureSlab` a slab is free. -/
theorem ensureSlab_holds (env : Env) {s : Slabs} {stock : Stock Pointer} (h : SlabsHold s stock)
    (hstack : s.slabPool.slabStack.Holds stock.free) (hfresh : Fresh s.blocks env.aligned_alloc)
    (hne : stock.free = [] → env.aligned_alloc ≠ nullPointer) :
    ∃ s' stock', ensureSlab env s = some s' ∧ SlabsHold s' stock' ∧
      s'.slabPool.slabStack.Holds stock'.free ∧ stock'.held = stock.held ∧ stock'.free ≠ [] := by
  unfold ensureSlab
  by_cases hempty : stock.free = []
  · -- no slab is free, so that the new one is on top of an empty stack
    obtain ⟨s', hrun, hholds, hstack'⟩ :=
      populateSlabPool_holds env h hstack hempty hfresh (hne hempty)
    rw [if_pos (h.free_eq_nil.mpr hempty)]
    exact ⟨s', _, hrun, hholds, hstack', rfl, List.append_ne_nil_of_right_ne_nil _ nofun⟩
  · rw [if_neg (fun hzero => hempty (h.free_eq_nil.mp hzero))]
    exact ⟨s, stock, rfl, h, hstack, rfl, hempty⟩

/-- **`acquireSlab` hands out a slab that was free.** -/
theorem acquireSlab_holds (env : Env) {s : Slabs} {stock : Stock Pointer} (h : SlabsHold s stock)
    (hfresh : Fresh s.blocks env.aligned_alloc)
    (hne : s.slabPool.numSlabsFree = 0 → env.aligned_alloc ≠ nullPointer) :
    ∃ slab s' stock', acquireSlab env s = some (slab, s') ∧ SlabsHold s' stock' ∧
      stock'.held = slab :: stock.held := by
  obtain ⟨s₁, hinit, h₁, hstack₁⟩ := initSlabStack_holds env h
  rw [h.blocks, ← h₁.blocks] at hfresh
  obtain ⟨s₂, stock₂, hensure, h₂, hstack₂, hheld, hsome⟩ :=
    ensureSlab_holds env h₁ hstack₁ hfresh (fun hempty => hne (h.free_eq_nil.mpr hempty))
  obtain ⟨rest, slab, hfree⟩ : ∃ rest slab, stock₂.free = rest ++ [slab] :=
    ⟨_, _, (List.dropLast_append_getLast hsome).symm⟩
  -- the slab on top of the stack goes to the client
  rw [hfree] at hstack₂
  obtain ⟨slabStack, hpop, hholds⟩ := StackArray.pop_holds hstack₂
  let acquired : Slabs := { s₂ with
    slabPool := { s₂.slabPool with
      slabStack := slabStack
      numSlabsFree := s₂.slabPool.numSlabsFree - 1
      numSlabsInUse := s₂.slabPool.numSlabsInUse + 1
      numSlabsUsed := s₂.slabPool.numSlabsUsed + 1 } }
  refine ⟨slab, acquired, stock₂.acquire hfree, ?_, ⟨h₂.blocks, fun _ => hholds,
    hholds.length.symm, h₂.alloc, ?_, ?_, h₂.space, h₂.apart⟩, congrArg (slab :: ·) hheld⟩
  · unfold acquireSlab
    simp only [hinit, hensure, hpop, bind, Option.bind, pure, acquired]
  · show s₂.slabPool.numSlabsFree - 1 = UInt32.ofNat rest.length
    rw [h₂.free, hfree, List.length_append, List.length_singleton, counter_pred]
  · show s₂.slabPool.numSlabsInUse + 1 = UInt32.ofNat (slab :: stock₂.held).length
    rw [List.length_cons, counter_succ, h₂.inUse]

/-- Without a free slab and without memory it aborts. -/
theorem acquireSlab_none (env : Env) {s : Slabs} {stock : Stock Pointer} (h : SlabsHold s stock)
    (hzero : s.slabPool.numSlabsFree = 0) (hnull : env.aligned_alloc = nullPointer) :
    acquireSlab env s = none := by
  obtain ⟨s₁, hinit, h₁, _⟩ := initSlabStack_holds env h
  have hempty := h₁.free_eq_nil.mpr (h.free_eq_nil.mp hzero)
  have hensure : ensureSlab env s₁ = none := by
    unfold ensureSlab populateSlabPool alignedAlloc
    rw [if_pos hempty, if_pos hnull]
    rfl
  unfold acquireSlab
  simp only [hinit, hensure, bind, Option.bind]

/-! ## Releasing -/

/-- **`releaseSlab` takes back a slab that is held.** -/
theorem releaseSlab_holds (env : Env) {s : Slabs} {stock : Stock Pointer} (h : SlabsHold s stock)
    {slab : Pointer} (hslab : slab ∈ stock.held) (hroom : s.slabPool.slabStack.length ≠ 2 ^ 31) :
    ∃ s', releaseSlab env s slab = some s' ∧ SlabsHold s' (stock.release hslab) := by
  have hstack := h.stack (List.ne_nil_of_mem (stock.mem_all_of_mem_held hslab))
  have hmax := hstack.length_le
  obtain ⟨slabStack, hpush, hholds⟩ :=
    StackArray.push_holds (env.garbage 0) hstack slab (by omega)
  let released : Slabs := { s with
    slabPool := { s.slabPool with
      slabStack := slabStack
      numSlabsFree := s.slabPool.numSlabsFree + 1
      numSlabsInUse := s.slabPool.numSlabsInUse - 1 } }
  refine ⟨released, ?_, h.blocks, fun _ => hholds, hholds.length.symm, h.alloc, ?_, ?_, h.space,
    h.apart⟩
  · unfold releaseSlab
    simp only [hpush, bind, Option.bind, pure, released]
  · show s.slabPool.numSlabsFree + 1 = UInt32.ofNat (stock.free ++ [slab]).length
    rw [List.length_append, List.length_singleton, counter_succ, h.free]
  · show s.slabPool.numSlabsInUse - 1 = UInt32.ofNat (stock.held.erase slab).length
    rw [h.inUse, (List.perm_cons_erase hslab).length_eq, List.length_cons, counter_pred]

/-- A full stack does not take it. -/
theorem releaseSlab_none (env : Env) {s : Slabs} {stock : Stock Pointer} (h : SlabsHold s stock)
    {slab : Pointer} (hslab : slab ∈ stock.held) (hfull : s.slabPool.slabStack.length = 2 ^ 31) :
    releaseSlab env s slab = none := by
  have hstack := h.stack (List.ne_nil_of_mem (stock.mem_all_of_mem_held hslab))
  unfold releaseSlab
  rw [StackArray.push_full (env.garbage 0) hstack slab hfull]
  rfl

end DevopsBroker.Memory
