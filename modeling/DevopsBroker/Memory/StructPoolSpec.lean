import DevopsBroker.Memory.MemoryPoolSpec
import DevopsBroker.Memory.StructPool

/-!
# Structs that are used again

FileBuffers and AIORequests are blocks of the MemoryPool. What a pool has acquired is a `Stock`:
the structs on its stack are free, the others are held. Both pools draw on one MemoryPool, other
blocks are cut off it as well, and further clients use the pools of pages and slabs.

- `StructHolds` ties a pool to its stock;
- **`structs_sound`**: over all runs, structs and blocks that are held are apart, each in a page
  that nobody else holds, and the counters count.
-/

namespace DevopsBroker.Memory

open DevopsBroker.Adt
open DevopsBroker.Lang
open DevopsBroker.Lib

/-- The order in which blocks were cut off does not matter. -/
theorem MemoryHolds.perm {pool : MemoryPool} {own : List Pointer}
    {blocks blocks' : List (Pointer × UInt32)} (h : MemoryHolds pool own blocks)
    (hperm : blocks.Perm blocks') : MemoryHolds pool own blocks' := by
  have hregions := hperm.map blockRegion
  refine ⟨h.stack, h.unused, ?_, ?_⟩
  · intro hnil
    obtain ⟨hblocks, hfree⟩ := h.noPage hnil
    rw [hblocks] at hperm
    exact ⟨hperm.nil_eq.symm, hfree⟩
  · intro rest page hconcat
    obtain ⟨hbytes, hcut⟩ := h.pages rest page hconcat
    refine ⟨hbytes, fun block hblock => ?_, ?_⟩
    · exact hcut.inside block (hregions.mem_iff.mpr hblock)
    · exact (hregions.pairwise_iff Region.Apart.symm).mp hcut.apart

/-- Every block lies in one page that the MemoryPool holds. -/
theorem MemoryHolds.within_page {pool : MemoryPool} {own : List Pointer}
    {blocks : List (Pointer × UInt32)} (h : MemoryHolds pool own blocks)
    {block : Pointer × UInt32} (hblock : block ∈ blocks) :
    ∃ page ∈ own, (blockRegion block).Within (pageRegion page) := by
  rcases List.eq_nil_or_concat' own with hnil | ⟨rest, last, hconcat⟩
  · rw [(h.noPage hnil).1] at hblock
    exact absurd hblock List.not_mem_nil
  · obtain ⟨hbytes, hcut⟩ := h.pages rest last hconcat
    have hused : pool.numPageBytesUsed.toNat ≤ (pageRegion last).size := by
      show pool.numPageBytesUsed.toNat ≤ MEMORY_PAGE_SIZE
      omega
    obtain ⟨home, hhome, hin⟩ := hcut.within_page hused (List.mem_map_of_mem hblock)
    rw [← List.map_singleton, ← List.map_append, ← hconcat] at hhome
    obtain ⟨page, hpage, rfl⟩ := List.mem_map.mp hhome
    exact ⟨page, hpage, hin⟩

/-- Blocks are apart. -/
theorem MemoryHolds.apart {pool : MemoryPool} {own : List Pointer}
    {blocks : List (Pointer × UInt32)} (h : MemoryHolds pool own blocks) :
    (blocks.map blockRegion).Pairwise Region.Apart := by
  rcases List.eq_nil_or_concat' own with hnil | ⟨rest, last, hconcat⟩
  · rw [(h.noPage hnil).1]
    exact List.Pairwise.nil
  · exact (h.pages rest last hconcat).2.apart

/-- A page is not at `NULL`. -/
theorem Represents.page_pos {s : Pools} {slabs pages : List Pointer}
    (h : Represents s slabs pages) {page : Pointer} (hpage : page ∈ pages) : 1 ≤ page.toNat := by
  obtain ⟨a, hpools, hheld, hpages⟩ := h
  have hmem := a.pages.mem_all_of_mem_held (hpages.mem_iff.mpr hpage)
  rw [hpools.pages] at hmem
  obtain ⟨slab, hslab, hpage'⟩ := List.mem_flatMap.mp hmem
  have hslab' := a.slabs.mem_all_of_mem_held (hheld.mem_iff.mpr (List.mem_append_left slabs hslab))
  have hspace := hpools.slabs.space slab hslab'
  exact Nat.le_trans hspace.1 (pagesFrom_within hspace.2 hpage').1

/-- Nor is a block. -/
theorem block_ne_null {s : Pools} {pool : MemoryPool} {slabs own others : List Pointer}
    {blocks : List (Pointer × UInt32)} (hpools : Represents s slabs (own ++ others))
    (h : MemoryHolds pool own blocks) {block : Pointer × UInt32} (hblock : block ∈ blocks) :
    block.1 ≠ nullPointer := by
  obtain ⟨page, hpage, hin⟩ := h.within_page hblock
  have hpos := hpools.page_pos (List.mem_append_left others hpage)
  intro hnull
  have hstart : page.toNat ≤ block.1.toNat := hin.1
  rw [hnull] at hstart
  have hzero : nullPointer.toNat = 0 := rfl
  omega

/-! ## One pool -/

/-- A pool has the structs of a stock. -/
structure StructHolds (pool : StructPool) (stock : Stock Pointer) : Prop where
  stack : pool.structStack.values ≠ none → pool.structStack.Holds stock.free
  unused : pool.structStack.values = none → stock.all = [] ∧ pool.structStack.length = 0
  alloc : pool.numAlloc = UInt32.ofNat stock.all.length
  free : pool.numFree = UInt32.ofNat stock.free.length
  inUse : pool.numInUse = UInt32.ofNat stock.held.length

theorem declaredStructPool_holds : StructHolds declaredStructPool Stock.empty :=
  ⟨fun h => absurd rfl h, fun _ => ⟨rfl, rfl⟩, rfl, rfl, rfl⟩

theorem StructHolds.stack_length {pool : StructPool} {stock : Stock Pointer}
    (h : StructHolds pool stock) : stock.free.length = pool.structStack.length := by
  cases hvalues : pool.structStack.values with
  | none =>
    obtain ⟨hall, hlength⟩ := h.unused hvalues
    have hsplit := stock.length_all
    rw [hall, List.length_nil] at hsplit
    omega
  | some values => exact (h.stack (by rw [hvalues]; exact nofun)).length

/-- The struct stack is initialised once. -/
theorem initStructPool_holds (env : Env) {pool : StructPool} {stock : Stock Pointer}
    (h : StructHolds pool stock) :
    ∃ pool', initStructPool env pool = some pool' ∧ StructHolds pool' stock ∧
      pool'.structStack.Holds stock.free := by
  unfold initStructPool
  cases hvalues : pool.structStack.values with
  | some values => exact ⟨pool, rfl, h, h.stack (by rw [hvalues]; exact nofun)⟩
  | none =>
    obtain ⟨structStack, hinit, hholds⟩ := StackArray.initStackArray_holds (env.garbage 30)
    have hfree : stock.free = [] := by
      have hlength := h.stack_length
      rw [(h.unused hvalues).2] at hlength
      exact List.length_eq_zero_iff.mp hlength
    rw [← hfree] at hholds
    dsimp only
    rw [hinit]
    refine ⟨_, rfl, { h with stack := fun _ => hholds, unused := ?_ }, hholds⟩
    intro hnone
    exact absurd hnone hholds.values_ne

section

variable {s : Pools} {memoryPool : MemoryPool} {pool : StructPool} {stock : Stock Pointer}
variable {slabs own others : List Pointer} {blocks : List (Pointer × UInt32)} {size : UInt32}

/-- **`acquireStruct` hands out a struct that nobody holds**: one off the stack, or a new block
of the MemoryPool. -/
theorem acquireStruct_holds (size : UInt32) (env : Env) (hpools : Represents s slabs (own ++ others))
    (hmemory : MemoryHolds memoryPool own blocks) (h : StructHolds pool stock)
    (hfresh : Fresh s.blocks env.aligned_alloc) (hsize : 1 ≤ size.toNat)
    (hmax : size.toNat ≤ MEMORY_PAGE_SIZE)
    (hroom : pool.structStack.length = 0 → CanCut env s memoryPool size) :
    ∃ struct s' memoryPool' pool' own' stock' new,
      acquireStruct env s memoryPool pool size = some (struct, s', memoryPool', pool') ∧
      Represents s' slabs (own' ++ others) ∧
      MemoryHolds memoryPool' own' (new.map (·, size) ++ blocks) ∧
      StructHolds pool' stock' ∧ stock'.all = stock.all ++ new ∧
      stock'.held = struct :: stock.held := by
  obtain ⟨pool₁, hinit, h₁, hstack₁⟩ := initStructPool_holds env h
  have hlength : pool₁.structStack.length = pool.structStack.length :=
    h₁.stack_length.symm.trans h.stack_length
  rcases List.eq_nil_or_concat' stock.free with hnil | ⟨rest, struct, hfree⟩
  · -- none is free: the MemoryPool cuts a block off
    have hzero : pool₁.structStack.length = 0 := by
      rw [← h₁.stack_length, hnil]
      rfl
    obtain ⟨struct, s', memoryPool', own', hacquire, hpools', hmemory'⟩ :=
      acquireMemory_holds env hpools hmemory hfresh hsize hmax (hroom (hlength ▸ hzero))
    have hsupplied : (stock.supply [struct]).free = [] ++ [struct] := by
      show stock.free ++ [struct] = _
      rw [hnil]
    let acquired : StructPool := { pool₁ with
      numAlloc := pool₁.numAlloc + 1
      numInUse := pool₁.numInUse + 1
      numUsed := pool₁.numUsed + 1 }
    refine ⟨struct, s', memoryPool', acquired, own', (stock.supply [struct]).acquire hsupplied, [struct],
      ?_, hpools', hmemory', ?_, rfl, rfl⟩
    · unfold acquireStruct takeStruct
      rw [hinit]
      dsimp only [Option.bind_eq_bind, Option.bind_some]
      rw [if_pos hzero, hacquire]
      rfl
    · rw [hnil] at hstack₁
      refine ⟨fun _ => hstack₁, fun hnone => absurd hnone hstack₁.values_ne, ?_, ?_, ?_⟩
      · show pool₁.numAlloc + 1 = UInt32.ofNat (stock.all ++ [struct]).length
        rw [List.length_append, List.length_singleton, counter_succ, h₁.alloc]
      · show pool₁.numFree = UInt32.ofNat 0
        rw [h₁.free, hnil]
        rfl
      · show pool₁.numInUse + 1 = UInt32.ofNat (struct :: stock.held).length
        rw [List.length_cons, counter_succ, h₁.inUse]
  · -- the one on top of the stack
    rw [hfree] at hstack₁
    have hsome : pool₁.structStack.length ≠ 0 := by
      rw [← h₁.stack_length, hfree, List.length_append, List.length_singleton]
      exact Nat.succ_ne_zero _
    obtain ⟨structStack, hpop, hholds⟩ := StackArray.pop_holds hstack₁
    let acquired : StructPool := { pool₁ with
      structStack := structStack
      numFree := pool₁.numFree - 1
      numInUse := pool₁.numInUse + 1
      numUsed := pool₁.numUsed + 1 }
    refine ⟨struct, s, memoryPool, acquired, own, stock.acquire hfree, [], ?_, hpools, hmemory, ?_,
      (List.append_nil _).symm, rfl⟩
    · unfold acquireStruct takeStruct
      rw [hinit]
      dsimp only [Option.bind_eq_bind, Option.bind_some]
      rw [if_neg hsome, hpop]
      rfl
    · refine ⟨fun _ => hholds, fun hnone => absurd hnone hholds.values_ne, h₁.alloc, ?_, ?_⟩
      · show pool₁.numFree - 1 = UInt32.ofNat rest.length
        rw [h₁.free, hfree, List.length_append, List.length_singleton, counter_pred]
      · show pool₁.numInUse + 1 = UInt32.ofNat (struct :: stock.held).length
        rw [List.length_cons, counter_succ, h₁.inUse]

/-- Without a free struct, and without memory for one, it aborts. -/
theorem acquireStruct_aborts (size : UInt32) (env : Env) (hpools : Represents s slabs (own ++ others))
    (hmemory : MemoryHolds memoryPool own blocks) (h : StructHolds pool stock)
    (hfresh : Fresh s.blocks env.aligned_alloc) (hmax : size.toNat ≤ MEMORY_PAGE_SIZE)
    (hzero : pool.structStack.length = 0) (hcannot : ¬ CanCut env s memoryPool size) :
    acquireStruct env s memoryPool pool size = none := by
  obtain ⟨pool₁, hinit, h₁, _⟩ := initStructPool_holds env h
  have hlength : pool₁.structStack.length = 0 :=
    (h₁.stack_length.symm.trans h.stack_length).trans hzero
  unfold acquireStruct takeStruct
  rw [hinit]
  dsimp only [Option.bind_eq_bind, Option.bind_some]
  rw [if_pos hlength, acquireMemory_aborts env hpools hmemory hfresh hmax hcannot]
  rfl

/-- **`releaseStruct` takes back a struct that is held.** -/
theorem releaseStruct_holds (env : Env) (h : StructHolds pool stock) {struct : Pointer}
    (hheld : struct ∈ stock.held) (hroom : pool.structStack.length ≠ 2 ^ 31) :
    ∃ pool', releaseStruct env pool struct = some pool' ∧
      StructHolds pool' (stock.release hheld) := by
  have hstack := h.stack fun hnone => by
    have hall := stock.mem_all_of_mem_held hheld
    rw [(h.unused hnone).1] at hall
    exact absurd hall List.not_mem_nil
  have hle := hstack.length_le
  obtain ⟨structStack, hpush, hholds⟩ :=
    StackArray.push_holds (env.garbage 31) hstack struct (by omega)
  let released : StructPool := { pool with
    structStack := structStack
    numInUse := pool.numInUse - 1
    numFree := pool.numFree + 1 }
  refine ⟨released, by rw [releaseStruct, hpush]; rfl, fun _ => hholds,
    fun hnone => absurd hnone hholds.values_ne, h.alloc, ?_, ?_⟩
  · show pool.numFree + 1 = UInt32.ofNat (stock.free ++ [struct]).length
    rw [List.length_append, List.length_singleton, counter_succ, h.free]
  · show pool.numInUse - 1 = UInt32.ofNat (stock.held.erase struct).length
    rw [h.inUse, (List.perm_cons_erase hheld).length_eq, List.length_cons, counter_pred]

/-- A full stack does not take it. -/
theorem releaseStruct_aborts (env : Env) (h : StructHolds pool stock) {struct : Pointer}
    (hheld : struct ∈ stock.held) (hfull : pool.structStack.length = 2 ^ 31) :
    releaseStruct env pool struct = none := by
  have hstack := h.stack fun hnone => by
    have hall := stock.mem_all_of_mem_held hheld
    rw [(h.unused hnone).1] at hall
    exact absurd hall List.not_mem_nil
  rw [releaseStruct, StackArray.push_full (env.garbage 31) hstack struct hfull]
  rfl

end

/-! ## Runs -/

/-- The two kinds of structs. -/
inductive Kind where
  | fileBuffer
  | aioRequest
deriving DecidableEq

/-- How large a struct is. -/
def Kind.size : Kind → UInt32
  | .fileBuffer => FILEBUFFER_SIZE
  | .aioRequest => AIOREQUEST_SIZE

theorem Kind.size_bounds (kind : Kind) : 1 ≤ kind.size.toNat ∧ kind.size.toNat ≤ MEMORY_PAGE_SIZE := by
  cases kind <;> decide

/-- The MemoryPool among its clients, the two pools, and which client holds which struct. -/
structure StructWorld (κ : Type) where
  memory : MemoryWorld κ
  pool : Kind → StructPool
  structs : Kind → List (κ × Pointer)

/-- A call that a client makes. -/
inductive StructCall (κ : Type) where
  | acquireFileBuffer (client : κ) (internalBuf : Pointer)
  | acquireAIORequest (client : κ)
  | release (kind : Kind) (client : κ) (struct : Pointer)
  | memory (call : MemoryCall κ)

section

variable {κ : Type}

/-- Before the first call. -/
def structStart : StructWorld κ := ⟨memoryStart, fun _ => declaredStructPool, fun _ => []⟩

/-- The structs of a kind that the clients hold. -/
def StructWorld.held (w : StructWorld κ) (kind : Kind) : List Pointer := (w.structs kind).map Prod.snd

/-- A client has got a struct. -/
def StructWorld.got (w : StructWorld κ) (kind : Kind) (client : κ) :
    Pointer × Pools × MemoryPool × StructPool → Option Pointer × StructWorld κ
  | (struct, pools, memoryPool, pool) =>
    (some struct,
      { memory := { w.memory with
          world := { w.memory.world with pools := pools }
          memoryPool := memoryPool }
        pool := Function.update w.pool kind pool
        structs := Function.update w.structs kind ((client, struct) :: w.structs kind) })

/-- The function of a kind that releases a struct. -/
def releaseOf : Kind → Env → StructPool → Pointer → Option StructPool
  | .fileBuffer => releaseFileBuffer
  | .aioRequest => releaseAIORequest

/-- A call, and what it returns. -/
def structStep [DecidableEq κ] (w : StructWorld κ) :
    StructCall κ × Env → Option (Option Pointer × StructWorld κ)
  | (.acquireFileBuffer client internalBuf, env) =>
    (acquireFileBuffer env w.memory.world.pools w.memory.memoryPool (w.pool .fileBuffer)
      internalBuf).map fun ((fileBuffer, _), s, memoryPool, pool) =>
        w.got .fileBuffer client (fileBuffer, s, memoryPool, pool)
  | (.acquireAIORequest client, env) =>
    (acquireAIORequest env w.memory.world.pools w.memory.memoryPool (w.pool .aioRequest)).map
      (w.got .aioRequest client)
  | (.release kind client struct, env) =>
    (releaseOf kind env (w.pool kind) struct).map fun pool =>
      (none, { w with
        pool := Function.update w.pool kind pool
        structs := Function.update w.structs kind ((w.structs kind).erase (client, struct)) })
  | (.memory call, env) =>
    (memoryStep w.memory (call, env)).map fun (r, memory) => (r, { w with memory := memory })

/-- A client releases only what it holds; `aligned_alloc` returns what is fresh. -/
def StructLegal (w : StructWorld κ) : StructCall κ × Env → Prop
  | (.release kind client struct, _) => (client, struct) ∈ w.structs kind
  | (.memory call, env) => MemoryLegal w.memory (call, env)
  | (_, env) => Fresh w.memory.world.pools.blocks env.aligned_alloc

/-- A struct is free, or the MemoryPool can cut one off. -/
def CanAcquire (env : Env) (w : StructWorld κ) (kind : Kind) : Prop :=
  (w.pool kind).structStack.length = 0 →
    CanCut env w.memory.world.pools w.memory.memoryPool kind.size

/-- There is room for what the call needs. -/
def StructHasRoom (w : StructWorld κ) : StructCall κ × Env → Prop
  | (.acquireFileBuffer _ _, env) => CanAcquire env w .fileBuffer
  | (.acquireAIORequest _, env) => CanAcquire env w .aioRequest
  | (.release kind _ _, _) => (w.pool kind).structStack.length ≠ 2 ^ 31
  | (.memory call, env) => MemoryHasRoom w.memory (call, env)

/-- Structs of a kind, as blocks. -/
def blocksOf (kind : Kind) (structs : List Pointer) : List (Pointer × UInt32) :=
  structs.map (·, kind.size)

/-- The blocks that clients hold, structs or others. -/
def StructWorld.lent (w : StructWorld κ) : List (Pointer × UInt32) :=
  blocksOf .fileBuffer (w.held .fileBuffer) ++ (blocksOf .aioRequest (w.held .aioRequest) ++
    w.memory.blocks)

/-- What a run keeps: all blocks are those of the two stocks, and the others. -/
def StructKeeps (w : StructWorld κ) : Prop :=
  ∃ own, ∃ stock : Kind → Stock Pointer,
    Represents w.memory.world.pools w.memory.world.heldSlabs
      (own ++ w.memory.world.heldPages) ∧
    MemoryHolds w.memory.memoryPool own
      (blocksOf .fileBuffer (stock .fileBuffer).all ++
        (blocksOf .aioRequest (stock .aioRequest).all ++ w.memory.blocks)) ∧
    ∀ kind, StructHolds (w.pool kind) (stock kind) ∧ (stock kind).held.Perm (w.held kind)

/-- What is held is apart, each struct and block in a page that the MemoryPool holds and
nobody else does, and the counters count. -/
structure StructSound (w : StructWorld κ) : Prop where
  structs_nodup : ∀ kind, (w.held kind).Nodup
  apart : (w.lent.map blockRegion).Pairwise Region.Apart
  inside : ∀ block ∈ w.lent,
    ∃ page ∈ w.memory.ownPages, (blockRegion block).Within (pageRegion page)
  pages_apart : (regions w.memory.world.heldSlabs
    (w.memory.ownPages ++ w.memory.world.heldPages)).Pairwise Region.Apart
  free : ∀ kind, (w.pool kind).numFree.toNat = (w.pool kind).structStack.length
  inUse : ∀ kind, (w.pool kind).numInUse = UInt32.ofNat (w.structs kind).length
  alloc : ∀ kind, (w.pool kind).numAlloc = (w.pool kind).numFree + (w.pool kind).numInUse

/-- What is held and what is free. -/
theorem blocksOf_all (kind : Kind) {stock : Stock Pointer} {held : List Pointer}
    (h : stock.held.Perm held) :
    (blocksOf kind stock.all).Perm (blocksOf kind held ++ blocksOf kind stock.free) := by
  unfold blocksOf
  rw [← List.map_append]
  exact ((stock.partition.trans (h.append_left _)).trans List.perm_append_comm).map _

theorem StructKeeps.sound {w : StructWorld κ} (h : StructKeeps w) : StructSound w := by
  obtain ⟨own, stock, hpools, hmemory, hstructs⟩ := h
  have hown : w.memory.ownPages = own := hmemory.items
  -- the blocks that are not lent are the free structs
  have hperm : (blocksOf .fileBuffer (stock .fileBuffer).all ++
      (blocksOf .aioRequest (stock .aioRequest).all ++ w.memory.blocks)).Perm
      (w.lent ++ (blocksOf .fileBuffer (stock .fileBuffer).free ++
        blocksOf .aioRequest (stock .aioRequest).free)) := by
    have hfile := blocksOf_all .fileBuffer (hstructs .fileBuffer).2
    have haio := blocksOf_all .aioRequest (hstructs .aioRequest).2
    unfold StructWorld.lent
    refine (hfile.append (haio.append_right _)).trans ?_
    refine List.perm_iff_count.mpr fun block => ?_
    simp only [List.count_append]
    omega
  have hlent := (hmemory.perm hperm)
  have hapart := hlent.apart
  rw [List.map_append] at hapart
  have happart := (List.pairwise_append.mp hapart).1
  have hmem : ∀ block ∈ w.lent, ∃ page ∈ w.memory.ownPages,
      (blockRegion block).Within (pageRegion page) := by
    intro block hblock
    rw [hown]
    exact hlent.within_page (List.mem_append_left _ hblock)
  rw [← hown] at hpools
  refine ⟨fun kind => ?_, happart, hmem, hpools.apart, fun kind => ?_, fun kind => ?_, fun kind => ?_⟩
  · -- two structs of one pointer would overlap
    have hsub : (blocksOf kind (w.held kind)).Sublist w.lent := by
      unfold StructWorld.lent
      cases kind with
      | fileBuffer => exact List.sublist_append_left _ _
      | aioRequest =>
        exact (List.sublist_append_left _ _).trans (List.sublist_append_right _ _)
    have hone := happart.sublist (hsub.map blockRegion)
    unfold blocksOf at hone
    rw [List.map_map] at hone
    exact @nodup_of_apart _ (blockRegion ∘ (·, kind.size)) (fun _ => kind.size_bounds.1) hone
  · have hstruct := (hstructs kind).1
    have hlength := hstruct.stack_length
    have hlt : (stock kind).free.length < 2 ^ 32 := by
      cases hvalues : (w.pool kind).structStack.values with
      | none =>
        rw [hlength, (hstruct.unused hvalues).2]
        exact Nat.two_pow_pos 32
      | some values =>
        have hle := (hstruct.stack (by rw [hvalues]; exact nofun)).length_le
        omega
    rw [hstruct.free, toNat_counter hlt, hlength]
  · rw [(hstructs kind).1.inUse, (hstructs kind).2.length_eq, StructWorld.held, List.length_map]
  · obtain ⟨hstruct, _⟩ := hstructs kind
    rw [hstruct.alloc, hstruct.free, hstruct.inUse, (stock kind).length_all, UInt32.ofNat_add]

/-- A client gets a struct. -/
theorem got_keeps {w : StructWorld κ} {own : List Pointer} {stock : Kind → Stock Pointer}
    (kind : Kind) (client : κ) {struct : Pointer} {s : Pools} {memoryPool : MemoryPool}
    {pool : StructPool} {taken : Stock Pointer} {new : List Pointer}
    (hstructs : ∀ kind, StructHolds (w.pool kind) (stock kind) ∧
      (stock kind).held.Perm (w.held kind))
    (hpools : Represents s w.memory.world.heldSlabs (own ++ w.memory.world.heldPages))
    (hmemory : MemoryHolds memoryPool own (new.map (·, kind.size) ++
      (blocksOf .fileBuffer (stock .fileBuffer).all ++
        (blocksOf .aioRequest (stock .aioRequest).all ++ w.memory.blocks))))
    (htaken : StructHolds pool taken) (hall : taken.all = (stock kind).all ++ new)
    (hheld : taken.held = struct :: (stock kind).held) :
    StructKeeps (w.got kind client (struct, s, memoryPool, pool)).2 := by
  refine ⟨own, Function.update stock kind taken, hpools, hmemory.perm ?_, fun other => ?_⟩
  · refine List.perm_iff_count.mpr fun block => ?_
    cases kind with
    | fileBuffer =>
      simp [StructWorld.got, blocksOf, hall, List.count_append]
      omega
    | aioRequest =>
      simp [StructWorld.got, blocksOf, hall, List.count_append]
      omega
  · by_cases hother : other = kind
    · subst hother
      simp only [StructWorld.got, Function.update_self, StructWorld.held, List.map_cons]
      rw [hheld]
      exact ⟨htaken, (hstructs other).2.cons struct⟩
    · simp only [StructWorld.got, StructWorld.held, Function.update_of_ne hother]
      exact hstructs other

variable [DecidableEq κ]

/-- **A call that has room comes back and keeps it.** -/
theorem structStep_keeps {w : StructWorld κ} (call : StructCall κ × Env) (h : StructKeeps w)
    (hlegal : StructLegal w call) (hroom : StructHasRoom w call) :
    ∃ r w', structStep w call = some (r, w') ∧ StructKeeps w' := by
  obtain ⟨own, stock, hpools, hmemory, hstructs⟩ := h
  obtain ⟨call, env⟩ := call
  cases call with
  | acquireFileBuffer client internalBuf =>
    obtain ⟨struct, s', memoryPool', pool', own', stock', new, hrun, hpools', hmemory', htaken, hall,
      hheld⟩ := acquireStruct_holds FILEBUFFER_SIZE env hpools hmemory
        (hstructs .fileBuffer).1 hlegal
        (Kind.size_bounds .fileBuffer).1 (Kind.size_bounds .fileBuffer).2 hroom
    have hmem : (struct, FILEBUFFER_SIZE) ∈ new.map (·, FILEBUFFER_SIZE) ++
        (blocksOf .fileBuffer (stock .fileBuffer).all ++
          (blocksOf .aioRequest (stock .aioRequest).all ++ w.memory.blocks)) := by
      have hstruct : struct ∈ (stock .fileBuffer).all ++ new := by
        rw [← hall]
        exact stock'.mem_all_of_mem_held (hheld ▸ List.mem_cons_self)
      rcases List.mem_append.mp hstruct with hold | hnew
      · exact List.mem_append_right _ (List.mem_append_left _ (List.mem_map_of_mem hold))
      · exact List.mem_append_left _ (List.mem_map_of_mem hnew)
    have hne := block_ne_null hpools' hmemory' hmem
    refine ⟨some struct, _, ?_, got_keeps .fileBuffer client hstructs hpools' hmemory' htaken hall hheld⟩
    rw [structStep, acquireFileBuffer, hrun]
    dsimp only [Option.bind_eq_bind, Option.bind_some]
    rw [if_neg hne]
    rfl
  | acquireAIORequest client =>
    obtain ⟨struct, s', memoryPool', pool', own', stock', new, hrun, hpools', hmemory', htaken, hall,
      hheld⟩ := acquireStruct_holds AIOREQUEST_SIZE env hpools hmemory
        (hstructs .aioRequest).1 hlegal
        (Kind.size_bounds .aioRequest).1 (Kind.size_bounds .aioRequest).2 hroom
    refine ⟨some struct, _, ?_, got_keeps .aioRequest client hstructs hpools' hmemory' htaken hall hheld⟩
    rw [structStep, acquireAIORequest, hrun]
    rfl
  | release kind client struct =>
    obtain ⟨hstruct, hheld⟩ := hstructs kind
    have hledger := ledger_erase hlegal
    have hmem : struct ∈ (stock kind).held := by
      rw [hheld.mem_iff]
      exact List.mem_map_of_mem hlegal
    obtain ⟨pool', hrun, hstruct'⟩ := releaseStruct_holds env hstruct hmem hroom
    have hrelease : releaseOf kind env (w.pool kind) struct = some pool' := by
      cases kind <;> exact hrun
    let released : StructWorld κ := { w with
      pool := Function.update w.pool kind pool'
      structs := Function.update w.structs kind ((w.structs kind).erase (client, struct)) }
    have hstep : structStep w (.release kind client struct, env) = some (none, released) := by
      rw [structStep, hrelease]
      rfl
    refine ⟨none, released, hstep, own, Function.update stock kind ((stock kind).release hmem),
      hpools, hmemory.perm ?_, fun other => ?_⟩
    · -- releasing moves a struct inside of its stock
      cases kind <;> simp [Stock.release, released]
    · by_cases hother : other = kind
      · subst hother
        simp only [released, Function.update_self, StructWorld.held]
        exact ⟨hstruct', (((List.perm_cons_erase hmem).symm.trans hheld).trans hledger).cons_inv⟩
      · simp only [released, StructWorld.held, Function.update_of_ne hother]
        exact hstructs other
  | memory call =>
    cases call with
    | acquireMemory size =>
      obtain ⟨hfresh, hsize, hmax⟩ := hlegal
      obtain ⟨ptr, s', memoryPool', own', hrun, hpools', hmemory'⟩ :=
        acquireMemory_holds env hpools hmemory hfresh hsize hmax hroom
      let acquired : StructWorld κ := { w with
        memory := (afterAcquire w.memory size (.block ptr, s', memoryPool')).2 }
      have hstep : structStep w (.memory (.acquireMemory size), env) = some (some ptr, acquired) := by
        rw [structStep, memoryStep, hrun]
        rfl
      refine ⟨some ptr, acquired, hstep, own', stock, hpools', hmemory'.perm ?_, hstructs⟩
      refine List.perm_iff_count.mpr fun block => ?_
      simp only [acquired, afterAcquire, List.count_cons, List.count_append]
      omega
    | client call =>
      obtain ⟨r, world, hrun, hpools'⟩ := step_represents own (call, env) hpools hlegal hroom
      have hstep : structStep w (.memory (.client call), env) =
          some (r, { w with memory := { w.memory with world := world } }) := by
        rw [structStep, memoryStep, hrun]
        rfl
      exact ⟨r, _, hstep, own, stock, hpools', hmemory, hstructs⟩

/-- A call that has none aborts. -/
theorem structStep_aborts {w : StructWorld κ} (call : StructCall κ × Env) (h : StructKeeps w)
    (hlegal : StructLegal w call) (hroom : ¬ StructHasRoom w call) : structStep w call = none := by
  obtain ⟨own, stock, hpools, hmemory, hstructs⟩ := h
  obtain ⟨call, env⟩ := call
  cases call with
  | acquireFileBuffer client internalBuf =>
    obtain ⟨hzero, hcannot⟩ := Classical.not_imp.mp hroom
    rw [structStep, acquireFileBuffer, acquireStruct_aborts FILEBUFFER_SIZE env hpools
      hmemory (hstructs .fileBuffer).1 hlegal (Kind.size_bounds .fileBuffer).2 hzero hcannot]
    rfl
  | acquireAIORequest client =>
    obtain ⟨hzero, hcannot⟩ := Classical.not_imp.mp hroom
    rw [structStep, acquireAIORequest, acquireStruct_aborts AIOREQUEST_SIZE env hpools
      hmemory (hstructs .aioRequest).1 hlegal (Kind.size_bounds .aioRequest).2 hzero hcannot]
    rfl
  | release kind client struct =>
    obtain ⟨hstruct, hheld⟩ := hstructs kind
    have hmem : struct ∈ (stock kind).held := by
      rw [hheld.mem_iff]
      exact List.mem_map_of_mem hlegal
    have hrelease : releaseOf kind env (w.pool kind) struct = none := by
      have hrun := releaseStruct_aborts env hstruct hmem (not_not.mp hroom)
      cases kind <;> exact hrun
    rw [structStep, hrelease]
    rfl
  | memory call =>
    cases call with
    | acquireMemory size =>
      obtain ⟨hfresh, _, hmax⟩ := hlegal
      rw [structStep, memoryStep, acquireMemory_aborts env hpools hmemory hfresh hmax hroom]
      rfl
    | client call =>
      rw [structStep, memoryStep, step_aborts own (call, env) hpools hlegal hroom]
      rfl

/-- **All interleavings.** Whatever the clients of the pools do, as long as they release only
what they hold, every state is sound, and a call comes back exactly when there is room for it. -/
theorem structs_sound (calls : List (StructCall κ × Env))
    (hlegal : Along structStep StructLegal calls structStart) :
    Throughout structStep StructSound calls structStart ∧
      Along structStep
        (fun w call => (∃ r w', structStep w call = some (r, w')) ↔ StructHasRoom w call)
        calls structStart := by
  have hstart : StructKeeps (structStart : StructWorld κ) :=
    ⟨[], fun _ => Stock.empty, declaredPools_represents, memoryPool_holds,
      fun _ => ⟨declaredStructPool_holds, List.Perm.nil⟩⟩
  have hsound : ∀ w : StructWorld κ, StructKeeps w → StructSound w := fun w h => h.sound
  exact throughout_of_room hsound (fun w call h hcall hroom => structStep_keeps call h hcall hroom)
    (fun w call h hcall hroom => structStep_aborts call h hcall hroom) calls hstart hlegal

end

/-- A FileBuffer goes from one client to another, who holds an AIORequest and a block. -/
def structCalls : List (StructCall Nat × Env) :=
  [(.acquireFileBuffer 1 8192, ⟨4096, fun _ _ => 0⟩), (.acquireAIORequest 2, ⟨0, fun _ _ => 0⟩),
    (.memory (.acquireMemory 100), ⟨0, fun _ _ => 0⟩),
    (.release .fileBuffer 1 32768, ⟨0, fun _ _ => 0⟩),
    (.acquireFileBuffer 2 8192, ⟨0, fun _ _ => 0⟩)]

theorem structCalls_legal : Along structStep StructLegal structCalls structStart := by
  refine ⟨Or.inr ⟨by decide, nofun⟩, ?_⟩
  intro r₁ w₁ h₁
  cases h₁
  refine ⟨Or.inl rfl, ?_⟩
  intro r₂ w₂ h₂
  cases h₂
  refine ⟨⟨Or.inl rfl, by decide, by decide⟩, ?_⟩
  intro r₃ w₃ h₃
  cases h₃
  refine ⟨List.mem_cons_self, ?_⟩
  intro r₄ w₄ h₄
  cases h₄
  exact ⟨Or.inl rfl, fun _ _ _ => trivial⟩

theorem structs_sound_structCalls :
    Throughout structStep StructSound structCalls structStart ∧
      Along structStep
        (fun w call => (∃ r w', structStep w call = some (r, w')) ↔ StructHasRoom w call)
        structCalls structStart :=
  structs_sound structCalls structCalls_legal

end DevopsBroker.Memory
