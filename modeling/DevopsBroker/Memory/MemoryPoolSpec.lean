import DevopsBroker.Memory.MemoryPool
import DevopsBroker.Memory.PoolRuns

/-!
# The MemoryPool among the clients of the PagePool

`MemoryHolds` says what the MemoryPool has cut off its pages: its counters tell how much
of the top page is used, and the blocks are `Region.Cut`. Other clients use both pools
meanwhile; they hold none of its pages. **`memory_sound`**: over all runs the blocks are
apart, and each lies in one page of the MemoryPool.
-/

namespace DevopsBroker.Memory

open DevopsBroker.Adt
open DevopsBroker.Lang
open DevopsBroker.Lib

/-- The bytes of a block. -/
def blockRegion (block : Pointer × UInt32) : Region := ⟨block.1.toNat, block.2.toNat⟩

/-- The MemoryPool has cut these blocks off these pages. -/
structure MemoryHolds (pool : MemoryPool) (own : List Pointer)
    (blocks : List (Pointer × UInt32)) : Prop where
  stack : pool.pageStack.values ≠ none → pool.pageStack.Holds own
  unused : pool.pageStack.values = none → own = [] ∧ pool.pageStack.length = 0
  noPage : own = [] → blocks = [] ∧ pool.numPageBytesFree = 0
  pages : ∀ rest page, own = rest ++ [page] →
    pool.numPageBytesUsed.toNat + pool.numPageBytesFree.toNat = MEMORY_PAGE_SIZE ∧
    Region.Cut (rest.map pageRegion) (pageRegion page) pool.numPageBytesUsed.toNat
      (blocks.map blockRegion)

theorem memoryPool_holds : MemoryHolds memoryPool [] [] := by
  refine ⟨fun h => absurd rfl h, fun _ => ⟨rfl, rfl⟩, fun _ => ⟨rfl, rfl⟩, ?_⟩
  intro rest page hnil
  exact absurd hnil.symm (List.append_ne_nil_of_right_ne_nil _ nofun)

theorem MemoryHolds.items {pool : MemoryPool} {own : List Pointer}
    {blocks : List (Pointer × UInt32)} (h : MemoryHolds pool own blocks) :
    pool.pageStack.items = own := by
  cases hvalues : pool.pageStack.values with
  | none =>
    rw [(h.unused hvalues).1, StackArray.items, hvalues]
  | some values => exact (h.stack (by rw [hvalues]; exact nofun)).items

theorem MemoryHolds.stack_length {pool : MemoryPool} {own : List Pointer}
    {blocks : List (Pointer × UInt32)} (h : MemoryHolds pool own blocks) :
    own.length = pool.pageStack.length := by
  cases hvalues : pool.pageStack.values with
  | none =>
    obtain ⟨hown, hlength⟩ := h.unused hvalues
    rw [hown, hlength]
    rfl
  | some values => exact (h.stack (by rw [hvalues]; exact nofun)).length

/-- The page stack is initialised once. -/
theorem initMemoryPool_holds (env : Env) {pool : MemoryPool} {own : List Pointer}
    {blocks : List (Pointer × UInt32)} (h : MemoryHolds pool own blocks) :
    ∃ pool', initMemoryPool env pool = some pool' ∧ MemoryHolds pool' own blocks ∧
      pool'.pageStack.Holds own ∧ pool'.numPageBytesFree = pool.numPageBytesFree := by
  unfold initMemoryPool
  cases hvalues : pool.pageStack.values with
  | some values => exact ⟨pool, rfl, h, h.stack (by rw [hvalues]; exact nofun), rfl⟩
  | none =>
    obtain ⟨pageStack, hinit, hholds⟩ := StackArray.initStackArray_holds (env.garbage 20)
    rw [← (h.unused hvalues).1] at hholds
    dsimp only
    rw [hinit]
    refine ⟨_, rfl, ⟨fun _ => hholds, ?_, h.noPage, h.pages⟩, hholds, rfl⟩
    intro hnone
    exact absurd hnone hholds.values_ne

/-- What `acquireMemory` needs: a page if the block does not fit, and room to push it. -/
def CanCut (env : Env) (s : Pools) (pool : MemoryPool) (size : UInt32) : Prop :=
  pool.numPageBytesFree < size →
    (s.pagePool.numPagesFree = 0 → CanPopulate env s) ∧ pool.pageStack.length ≠ 2 ^ 31

/-- **The current page has room for the block.** -/
theorem currentPage_holds (env : Env) {s : Pools} {pool : MemoryPool}
    {slabs own others : List Pointer} {blocks : List (Pointer × UInt32)} {size : UInt32}
    (hpools : Represents s slabs (own ++ others)) (h : MemoryHolds pool own blocks)
    (hstack : pool.pageStack.Holds own) (hfresh : Fresh s.blocks env.aligned_alloc)
    (hsize : 1 ≤ size.toNat) (hmax : size.toNat ≤ MEMORY_PAGE_SIZE)
    (hroom : pool.numPageBytesFree < size → (s.pagePool.numPagesFree = 0 → CanPopulate env s) ∧
      own.length ≠ 2 ^ 31) :
    ∃ rest page s' pool', currentPage env s pool size = some (page, s', pool') ∧
      Represents s' slabs (rest ++ [page] ++ others) ∧
      pool'.pageStack.Holds (rest ++ [page]) ∧ size.toNat ≤ pool'.numPageBytesFree.toNat ∧
      pool'.numPageBytesUsed.toNat + pool'.numPageBytesFree.toNat = MEMORY_PAGE_SIZE ∧
      Region.Cut (rest.map pageRegion) (pageRegion page) pool'.numPageBytesUsed.toNat
        (blocks.map blockRegion) := by
  unfold currentPage
  by_cases hfull : pool.numPageBytesFree < size
  · -- the block does not fit: a new page becomes the current one
    obtain ⟨hcan, hlength⟩ := hroom hfull
    obtain ⟨page, s', hacquire, hpools'⟩ := acquirePage_represents env hpools hfresh hcan
    have hown := hstack.length
    have hle := hstack.length_le
    obtain ⟨pageStack, hpush, hholds⟩ :=
      StackArray.push_holds (env.garbage 21) hstack page (by omega)
    let turned : MemoryPool := { pool with
      pageStack := pageStack
      numPagesAlloc := pool.numPagesAlloc + 1
      numPageBytesUsed := 0
      numPageBytesFree := UInt32.ofNat MEMORY_PAGE_SIZE }
    refine ⟨own, page, s', turned, ?_, ?_, hholds, hmax, rfl, ?_⟩
    · simp only [if_pos hfull, hacquire, hpush, bind, Option.bind, pure, turned]
    · refine hpools'.perm (List.Perm.refl _) ?_
      rw [List.append_assoc]
      exact List.perm_middle.symm
    · -- the blocks so far are in the pages so far
      rcases List.eq_nil_or_concat' own with hnil | ⟨rest, last, hconcat⟩
      · rw [hnil, (h.noPage hnil).1]
        exact ⟨nofun, List.Pairwise.nil⟩
      · obtain ⟨hbytes, hcut⟩ := h.pages rest last hconcat
        rw [hconcat, List.map_append]
        refine hcut.nextPage ?_ (pageRegion page)
        show pool.numPageBytesUsed.toNat ≤ MEMORY_PAGE_SIZE
        omega
  · rcases List.eq_nil_or_concat' own with hnil | ⟨rest, page, hconcat⟩
    · -- without a page no byte is free, and the block has at least one
      exfalso
      apply hfull
      rw [(h.noPage hnil).2]
      exact UInt32.lt_iff_toNat_lt.mpr hsize
    · obtain ⟨hbytes, hcut⟩ := h.pages rest page hconcat
      rw [hconcat] at hstack hpools
      refine ⟨rest, page, s, pool, ?_, hpools, hstack, ?_, hbytes, hcut⟩
      · rw [if_neg hfull, StackArray.peek_holds hstack]
        rfl
      · exact UInt32.le_iff_toNat_le.mp (UInt32.not_lt.mp hfull)

/-- **`acquireMemory` cuts a block off.** -/
theorem acquireMemory_holds (env : Env) {s : Pools} {pool : MemoryPool}
    {slabs own others : List Pointer} {blocks : List (Pointer × UInt32)} {size : UInt32}
    (hpools : Represents s slabs (own ++ others)) (h : MemoryHolds pool own blocks)
    (hfresh : Fresh s.blocks env.aligned_alloc) (hsize : 1 ≤ size.toNat)
    (hmax : size.toNat ≤ MEMORY_PAGE_SIZE) (hroom : CanCut env s pool size) :
    ∃ ptr s' pool' own', acquireMemory env s pool size = some (.block ptr, s', pool') ∧
      Represents s' slabs (own' ++ others) ∧ MemoryHolds pool' own' ((ptr, size) :: blocks) := by
  obtain ⟨pool₁, hinit, h₁, hstack₁, hfree₁⟩ := initMemoryPool_holds env h
  have hroom₁ : pool₁.numPageBytesFree < size →
      (s.pagePool.numPagesFree = 0 → CanPopulate env s) ∧ own.length ≠ 2 ^ 31 := by
    rw [hfree₁, h.stack_length]
    exact hroom
  obtain ⟨rest, page, s', pool₂, hrun, hpools', hstack₂, hfits, hbytes, hcut⟩ :=
    currentPage_holds env hpools h₁ hstack₁ hfresh hsize hmax hroom₁
  have hmem : page ∈ rest ++ [page] ++ others :=
    List.mem_append_left _ (List.mem_append_right _ (List.mem_singleton_self _))
  have hspace := hpools'.page_space hmem
  unfold MEMORY_PAGE_SIZE USER_SPACE at hspace
  unfold MEMORY_PAGE_SIZE at hbytes
  -- neither the pointer nor the counters wrap
  have hptr : (page + pool₂.numPageBytesUsed.toUInt64).toNat =
      page.toNat + pool₂.numPageBytesUsed.toNat := by
    rw [UInt64.toNat_add, UInt32.toNat_toUInt64]
    exact Nat.mod_eq_of_lt (by omega)
  have hused : (pool₂.numPageBytesUsed + size).toNat =
      pool₂.numPageBytesUsed.toNat + size.toNat := by
    rw [UInt32.toNat_add]
    exact Nat.mod_eq_of_lt (by omega)
  have hfree : (pool₂.numPageBytesFree - size).toNat =
      pool₂.numPageBytesFree.toNat - size.toNat :=
    UInt32.toNat_sub_of_le _ _ (UInt32.le_iff_toNat_le.mpr hfits)
  have hpagesApart : ∀ other ∈ rest.map pageRegion, other.Apart (pageRegion page) := by
    intro r hr
    obtain ⟨other, hother, rfl⟩ := List.mem_map.mp hr
    have hall := List.pairwise_map.mp (List.pairwise_append.mp hpools'.apart).1
    have hown := (List.pairwise_append.mp hall).1
    exact (List.pairwise_append.mp hown).2.2 other hother page (List.mem_singleton_self _)
  have hfit : pool₂.numPageBytesUsed.toNat + size.toNat ≤ (pageRegion page).size := by
    show pool₂.numPageBytesUsed.toNat + size.toNat ≤ 4096
    omega
  have hcut' := hcut.block hpagesApart hfit
  let cut : MemoryPool := { pool₂ with
    numPageBytesUsed := pool₂.numPageBytesUsed + size
    numPageBytesFree := pool₂.numPageBytesFree - size
    numBlocksAlloc := pool₂.numBlocksAlloc + 1 }
  refine ⟨page + pool₂.numPageBytesUsed.toUInt64, s', cut, rest ++ [page], ?_, hpools',
    fun _ => hstack₂, ?_, ?_, ?_⟩
  · unfold acquireMemory
    simp only [hinit, if_neg (Nat.not_lt.mpr hmax), hrun, bind, Option.bind, pure, cut]
  · intro hnone
    exact absurd hnone hstack₂.values_ne
  · intro hnil
    exact absurd hnil (List.append_ne_nil_of_right_ne_nil _ nofun)
  · intro rest' page' hsplit
    obtain ⟨hrest, hpage⟩ := List.append_inj' hsplit rfl
    rw [← hrest, ← List.singleton_inj.mp hpage]
    refine ⟨?_, ?_⟩
    · show (pool₂.numPageBytesUsed + size).toNat + (pool₂.numPageBytesFree - size).toNat = 4096
      omega
    · show Region.Cut _ _ (pool₂.numPageBytesUsed + size).toNat (_ :: blocks.map blockRegion)
      rw [hused, blockRegion, hptr]
      exact hcut'

/-- Without a page, or with a full stack, it aborts. -/
theorem acquireMemory_aborts (env : Env) {s : Pools} {pool : MemoryPool}
    {slabs own others : List Pointer} {blocks : List (Pointer × UInt32)} {size : UInt32}
    (hpools : Represents s slabs (own ++ others)) (h : MemoryHolds pool own blocks)
    (hfresh : Fresh s.blocks env.aligned_alloc) (hmax : size.toNat ≤ MEMORY_PAGE_SIZE)
    (hroom : ¬ CanCut env s pool size) : acquireMemory env s pool size = none := by
  obtain ⟨pool₁, hinit, h₁, hstack₁, hfree₁⟩ := initMemoryPool_holds env h
  obtain ⟨hfull, hcannot⟩ := Classical.not_imp.mp hroom
  have hlength : pool₁.pageStack.length = pool.pageStack.length :=
    h₁.stack_length.symm.trans h.stack_length
  have hpage : currentPage env s pool₁ size = none := by
    unfold currentPage
    rw [if_pos (by rw [hfree₁]; exact hfull)]
    by_cases hcan : s.pagePool.numPagesFree = 0 → CanPopulate env s
    · -- there is a page, and the stack has no room for it
      obtain ⟨page, s', hrun, _⟩ := acquirePage_represents env hpools hfresh hcan
      have hpush : pool₁.pageStack.push (env.garbage 21) page = none := by
        apply StackArray.push_full (env.garbage 21) hstack₁ page
        rw [hlength]
        by_contra hne
        exact hcannot ⟨hcan, hne⟩
      simp only [hrun, hpush, bind, Option.bind]
    · obtain ⟨hzero, hnone⟩ := Classical.not_imp.mp hcan
      rw [acquirePage_aborts env hpools hfresh hzero hnone]
      rfl
  unfold acquireMemory
  simp only [hinit, if_neg (Nat.not_lt.mpr hmax), hpage, bind, Option.bind]

/-! ## Runs -/

/-- The clients of the pools, the MemoryPool, and the blocks that it has returned. -/
structure MemoryWorld (κ : Type) where
  world : World κ
  memoryPool : MemoryPool
  blocks : List (Pointer × UInt32)

/-- A call of the MemoryPool, or of another client of the pools. -/
inductive MemoryCall (κ : Type) where
  | acquireMemory (size : UInt32)
  | client (call : PoolCall κ)

section

variable {κ : Type}

/-- Before the first call. -/
def memoryStart : MemoryWorld κ := ⟨start, memoryPool, []⟩

/-- The pages that the MemoryPool holds. -/
def MemoryWorld.ownPages (w : MemoryWorld κ) : List Pointer := w.memoryPool.pageStack.items

/-- The state after `acquireMemory`. -/
def afterAcquire (w : MemoryWorld κ) (size : UInt32) :
    Acquired × Pools × MemoryPool → Option Pointer × MemoryWorld κ
  | (.block ptr, pools, memoryPool) =>
    (some ptr, ⟨{ w.world with pools := pools }, memoryPool, (ptr, size) :: w.blocks⟩)
  | (.null _, pools, memoryPool) =>
    (some nullPointer, ⟨{ w.world with pools := pools }, memoryPool, w.blocks⟩)

/-- A call, and what it returns. -/
def memoryStep [DecidableEq κ] (w : MemoryWorld κ) :
    MemoryCall κ × Env → Option (Option Pointer × MemoryWorld κ)
  | (.acquireMemory size, env) =>
    (acquireMemory env w.world.pools w.memoryPool size).map (afterAcquire w size)
  | (.client call, env) =>
    (step w.world (call, env)).map fun (r, world) => (r, { w with world := world })

/-- `acquireMemory` returns a block, which is one more that it has returned. -/
def ReturnsBlock (w : MemoryWorld κ) :
    MemoryCall κ × Env → Option Pointer × MemoryWorld κ → Prop
  | (.acquireMemory size, _), (r, w') => ∃ ptr, r = some ptr ∧ w'.blocks = (ptr, size) :: w.blocks
  | (.client _, _), (_, w') => w'.blocks = w.blocks

/-- Blocks are not empty and fit into a page; other clients use the pools as they may. -/
def MemoryLegal (w : MemoryWorld κ) : MemoryCall κ × Env → Prop
  | (.acquireMemory size, env) =>
    Fresh w.world.pools.blocks env.aligned_alloc ∧
      1 ≤ size.toNat ∧ size.toNat ≤ MEMORY_PAGE_SIZE
  | (.client call, env) => Legal w.world (call, env)

/-- There is room for what the call needs. -/
def MemoryHasRoom (w : MemoryWorld κ) : MemoryCall κ × Env → Prop
  | (.acquireMemory size, env) => CanCut env w.world.pools w.memoryPool size
  | (.client call, env) => HasRoom w.world (call, env)

/-- What a run keeps: the MemoryPool holds its pages, and the ledger names those of the
other clients. -/
def MemoryKeeps (w : MemoryWorld κ) : Prop :=
  ∃ own, Represents w.world.pools w.world.heldSlabs (own ++ w.world.heldPages) ∧
    MemoryHolds w.memoryPool own w.blocks

/-- The blocks are apart, each lies in one page that the MemoryPool holds and nobody else
does, and the counters add up to a page. -/
structure MemorySound (w : MemoryWorld κ) : Prop where
  blocks_apart : (w.blocks.map blockRegion).Pairwise Region.Apart
  blocks_inside : ∀ block ∈ w.blocks,
    ∃ page ∈ w.ownPages, (blockRegion block).Within (pageRegion page)
  pages_apart :
    (regions w.world.heldSlabs (w.ownPages ++ w.world.heldPages)).Pairwise Region.Apart
  bytes : 0 < w.memoryPool.pageStack.length →
    w.memoryPool.numPageBytesUsed.toNat + w.memoryPool.numPageBytesFree.toNat = MEMORY_PAGE_SIZE

theorem MemoryKeeps.sound {w : MemoryWorld κ} (h : MemoryKeeps w) : MemorySound w := by
  obtain ⟨own, hpools, hmemory⟩ := h
  have hown : w.ownPages = own := hmemory.items
  have hlength := hmemory.stack_length
  rw [← hown] at hpools
  rcases List.eq_nil_or_concat' own with hnil | ⟨rest, page, hconcat⟩
  · -- no page, no block
    obtain ⟨hblocks, _⟩ := hmemory.noPage hnil
    rw [hnil, List.length_nil] at hlength
    refine ⟨?_, ?_, hpools.apart, fun hpos => absurd hpos (by omega)⟩
    · rw [hblocks]
      exact List.Pairwise.nil
    · rw [hblocks]
      exact nofun
  · obtain ⟨hbytes, hcut⟩ := hmemory.pages rest page hconcat
    refine ⟨hcut.apart, ?_, hpools.apart, fun _ => hbytes⟩
    intro block hblock
    have hused : w.memoryPool.numPageBytesUsed.toNat ≤ (pageRegion page).size := by
      show w.memoryPool.numPageBytesUsed.toNat ≤ MEMORY_PAGE_SIZE
      omega
    obtain ⟨home, hhome, hin⟩ := hcut.within_page hused (List.mem_map_of_mem hblock)
    rw [← List.map_singleton, ← List.map_append, ← hconcat, ← hown] at hhome
    obtain ⟨page', hpage', rfl⟩ := List.mem_map.mp hhome
    exact ⟨page', hpage', hin⟩

variable [DecidableEq κ]

/-- **A call that has room comes back and keeps it.** -/
theorem memoryStep_keeps {w : MemoryWorld κ} (call : MemoryCall κ × Env) (h : MemoryKeeps w)
    (hlegal : MemoryLegal w call) (hroom : MemoryHasRoom w call) :
    ∃ r w', memoryStep w call = some (r, w') ∧ MemoryKeeps w' ∧ ReturnsBlock w call (r, w') := by
  obtain ⟨own, hpools, hmemory⟩ := h
  obtain ⟨call, env⟩ := call
  cases call with
  | acquireMemory size =>
    obtain ⟨hfresh, hsize, hmax⟩ := hlegal
    obtain ⟨ptr, s', pool', own', hrun, hpools', hmemory'⟩ :=
      acquireMemory_holds env hpools hmemory hfresh hsize hmax hroom
    exact ⟨_, _, by rw [memoryStep, hrun]; rfl, ⟨own', hpools', hmemory'⟩, ptr, rfl, rfl⟩
  | client call =>
    obtain ⟨r, world, hrun, hpools'⟩ := step_represents own (call, env) hpools hlegal hroom
    exact ⟨r, { w with world := world }, by rw [memoryStep, hrun]; rfl, ⟨own, hpools', hmemory⟩, rfl⟩

/-- A call that has none aborts. -/
theorem memoryStep_aborts {w : MemoryWorld κ} (call : MemoryCall κ × Env) (h : MemoryKeeps w)
    (hlegal : MemoryLegal w call) (hroom : ¬ MemoryHasRoom w call) :
    memoryStep w call = none := by
  obtain ⟨own, hpools, hmemory⟩ := h
  obtain ⟨call, env⟩ := call
  cases call with
  | acquireMemory size =>
    obtain ⟨hfresh, _, hmax⟩ := hlegal
    rw [memoryStep, acquireMemory_aborts env hpools hmemory hfresh hmax hroom]
    rfl
  | client call =>
    rw [memoryStep, step_aborts own (call, env) hpools hlegal hroom]
    rfl

/-- **All interleavings with the other clients.** Whatever sizes are asked for, every state
is sound, and a call comes back exactly when there is room for it, with a block. -/
theorem memory_sound (calls : List (MemoryCall κ × Env))
    (hlegal : Along memoryStep MemoryLegal calls memoryStart) :
    Throughout memoryStep MemorySound calls memoryStart ∧
      Along memoryStep
        (fun w call => ((∃ r w', memoryStep w call = some (r, w')) ↔ MemoryHasRoom w call) ∧
          ∀ r w', memoryStep w call = some (r, w') → ReturnsBlock w call (r, w'))
        calls memoryStart := by
  have hstart : MemoryKeeps (memoryStart : MemoryWorld κ) :=
    ⟨[], declaredPools_represents, memoryPool_holds⟩
  have hsound : ∀ w : MemoryWorld κ, MemoryKeeps w → MemorySound w := fun w h => h.sound
  exact throughout_of_answers hsound (fun w call h hcall hroom => memoryStep_keeps call h hcall hroom)
    (fun w call h hcall hroom => memoryStep_aborts call h hcall hroom) calls hstart hlegal

end

/-- Two blocks that do not fit into one page, and a page of another client between them. -/
def threeCalls : List (MemoryCall Nat × Env) :=
  [(.acquireMemory 3000, ⟨4096, fun _ _ => 0⟩), (.client (.acquirePage 1), ⟨0, fun _ _ => 0⟩),
    (.acquireMemory 2000, ⟨0, fun _ _ => 0⟩)]

theorem threeCalls_legal : Along memoryStep MemoryLegal threeCalls memoryStart := by
  refine ⟨⟨Or.inr ⟨by decide, nofun⟩, by decide, by decide⟩, ?_⟩
  intro r₁ w₁ h₁
  cases h₁
  refine ⟨⟨Or.inl rfl, trivial⟩, ?_⟩
  intro r₂ w₂ h₂
  cases h₂
  exact ⟨⟨Or.inl rfl, by decide, by decide⟩, fun _ _ _ => trivial⟩

theorem memory_sound_threeCalls :
    Throughout memoryStep MemorySound threeCalls memoryStart ∧
      Along memoryStep
        (fun w call => ((∃ r w', memoryStep w call = some (r, w')) ↔ MemoryHasRoom w call) ∧
          ∀ r w', memoryStep w call = some (r, w') → ReturnsBlock w call (r, w'))
        threeCalls memoryStart :=
  memory_sound threeCalls threeCalls_legal

end DevopsBroker.Memory
