import DevopsBroker.Memory.PagePoolSpec

/-!
# Clients of the pools

Any number of clients acquire and release pages and slabs, in any order. A `World` is the
pools together with a ledger of who holds what: it says what was returned to whom and
not released since. **`pools_sound`**: nothing is held twice, what is held is apart in
memory, and the counters count, in every state of every run.
-/

namespace DevopsBroker.Memory

open DevopsBroker.Adt
open DevopsBroker.Lang
open DevopsBroker.Lib

/-- The pools, and which client holds which page and which slab. -/
structure World (κ : Type) where
  pools : Pools
  pages : List (κ × Pointer)
  slabs : List (κ × Pointer)

/-- A call that a client makes. -/
inductive PoolCall (κ : Type) where
  | acquirePage (client : κ)
  | releasePage (client : κ) (pagePtr : Pointer)
  | acquireSlab (client : κ)
  | releaseSlab (client : κ) (slabPtr : Pointer)

section

variable {κ : Type}

/-- Before the first call nobody holds anything. -/
def start : World κ := ⟨declaredPools, [], []⟩

/-- The pages and the slabs that the clients hold. -/
def World.heldPages (w : World κ) : List Pointer := w.pages.map Prod.snd

def World.heldSlabs (w : World κ) : List Pointer := w.slabs.map Prod.snd

/-- A call, and what it returns. -/
def step [DecidableEq κ] (w : World κ) : PoolCall κ × Env → Option (Option Pointer × World κ)
  | (.acquirePage client, env) =>
    (acquirePage env w.pools).map fun (page, pools) =>
      (some page, { w with pools := pools, pages := (client, page) :: w.pages })
  | (.releasePage client pagePtr, env) =>
    (releasePage env w.pools pagePtr).map fun pools =>
      (none, { w with pools := pools, pages := w.pages.erase (client, pagePtr) })
  | (.acquireSlab client, env) =>
    (acquireSlab env w.pools.toSlabs).map fun (slab, slabs) =>
      (some slab, { w with
        pools := { w.pools with toSlabs := slabs }
        slabs := (client, slab) :: w.slabs })
  | (.releaseSlab client slabPtr, env) =>
    (releaseSlab env w.pools.toSlabs slabPtr).map fun slabs =>
      (none, { w with
        pools := { w.pools with toSlabs := slabs }
        slabs := w.slabs.erase (client, slabPtr) })

/-- A client releases only what it holds. -/
def Releases (w : World κ) : PoolCall κ → Prop
  | .releasePage client pagePtr => (client, pagePtr) ∈ w.pages
  | .releaseSlab client slabPtr => (client, slabPtr) ∈ w.slabs
  | _ => True

/-- The calls looked at; what `aligned_alloc` returns is fresh. -/
def Legal (w : World κ) (call : PoolCall κ × Env) : Prop :=
  Fresh w.pools.blocks call.2.aligned_alloc ∧ Releases w call.1

/-- There is memory for a slab that the call needs, and room for what it pushes. -/
def HasRoom (w : World κ) : PoolCall κ × Env → Prop
  | (.acquirePage _, env) => w.pools.pagePool.numPagesFree = 0 → CanPopulate env w.pools
  | (.releasePage _ _, _) => w.pools.pagePool.pageStack.length ≠ 2 ^ 31
  | (.acquireSlab _, env) =>
    w.pools.slabPool.numSlabsFree = 0 → env.aligned_alloc ≠ nullPointer
  | (.releaseSlab _ _, _) => w.pools.slabPool.slabStack.length ≠ 2 ^ 31

/-! ## One call -/

/-- What the ledger loses by a release. -/
theorem ledger_erase [DecidableEq κ] {ledger : List (κ × Pointer)} {entry : κ × Pointer}
    (h : entry ∈ ledger) :
    (ledger.map Prod.snd).Perm (entry.2 :: (ledger.erase entry).map Prod.snd) :=
  (List.perm_cons_erase h).map Prod.snd

variable [DecidableEq κ]

/-- **A call that has room comes back, and the ledger is right again.** The pages of `own`
are held by someone whom the ledger does not name. -/
theorem step_represents (own : List Pointer) {w : World κ} (call : PoolCall κ × Env)
    (h : Represents w.pools w.heldSlabs (own ++ w.heldPages)) (hlegal : Legal w call)
    (hroom : HasRoom w call) :
    ∃ r w', step w call = some (r, w') ∧
      Represents w'.pools w'.heldSlabs (own ++ w'.heldPages) := by
  obtain ⟨call, env⟩ := call
  obtain ⟨hfresh, hrelease⟩ := hlegal
  cases call with
  | acquirePage client =>
    obtain ⟨page, pools, hrun, hpools⟩ := acquirePage_represents env h hfresh hroom
    refine ⟨_, _, by rw [step, hrun]; rfl, ?_⟩
    -- the page is a client's, behind those that the pool keeps for itself
    exact hpools.perm (List.Perm.refl _) List.perm_middle.symm
  | releasePage client pagePtr =>
    have hfirst := (ledger_erase hrelease).append_left own |>.trans List.perm_middle
    obtain ⟨pools, hrun, hpools⟩ :=
      releasePage_represents env (h.perm (List.Perm.refl _) hfirst) hroom
    exact ⟨_, _, by rw [step, hrun]; rfl, hpools⟩
  | acquireSlab client =>
    obtain ⟨slab, slabs, hrun, hpools⟩ := acquireSlab_represents env h hfresh hroom
    exact ⟨_, _, by rw [step, hrun]; rfl, hpools⟩
  | releaseSlab client slabPtr =>
    have hfirst := ledger_erase hrelease
    obtain ⟨slabs, hrun, hpools⟩ :=
      releaseSlab_represents env (h.perm hfirst (List.Perm.refl _)) hroom
    exact ⟨_, _, by rw [step, hrun]; rfl, hpools⟩

/-- A call that has none aborts. -/
theorem step_aborts (own : List Pointer) {w : World κ} (call : PoolCall κ × Env)
    (h : Represents w.pools w.heldSlabs (own ++ w.heldPages)) (hlegal : Legal w call)
    (hroom : ¬ HasRoom w call) : step w call = none := by
  obtain ⟨call, env⟩ := call
  obtain ⟨hfresh, hrelease⟩ := hlegal
  unfold HasRoom at hroom
  cases call with
  | acquirePage client =>
    -- no page is free, and no slab can be had for more
    obtain ⟨hzero, hcannot⟩ := Classical.not_imp.mp hroom
    rw [step, acquirePage_aborts env h hfresh hzero hcannot]
    rfl
  | releasePage client pagePtr =>
    have hfirst := (ledger_erase hrelease).append_left own |>.trans List.perm_middle
    rw [step, releasePage_aborts env (h.perm (List.Perm.refl _) hfirst) (not_not.mp hroom)]
    rfl
  | acquireSlab client =>
    obtain ⟨hzero, hnull⟩ := Classical.not_imp.mp hroom
    rw [step, acquireSlab_aborts env h hzero (not_not.mp hnull)]
    rfl
  | releaseSlab client slabPtr =>
    have hfirst := ledger_erase hrelease
    rw [step, releaseSlab_aborts env (h.perm hfirst (List.Perm.refl _)) (not_not.mp hroom)]
    rfl

/-! ## Runs -/

/-- How many slabs the PagePool holds. -/
def PagePool.numSlabs (pool : PagePool) : Nat :=
  match pool.slabList with
  | none => 0
  | some slabList => slabList.length

/-- Nothing is held twice, what is held is apart, and the counters count. -/
structure Sound (w : World κ) : Prop where
  pages_nodup : w.heldPages.Nodup
  slabs_nodup : w.heldSlabs.Nodup
  apart : (regions w.heldSlabs w.heldPages).Pairwise Region.Apart
  pagesFree : w.pools.pagePool.numPagesFree.toNat = w.pools.pagePool.pageStack.length
  pagesInUse : w.pools.pagePool.numPagesInUse = UInt32.ofNat w.pages.length
  pagesAlloc : w.pools.pagePool.numPagesAlloc =
    w.pools.pagePool.numPagesFree + w.pools.pagePool.numPagesInUse
  slabsFree : w.pools.slabPool.numSlabsFree.toNat = w.pools.slabPool.slabStack.length
  slabsInUse : w.pools.slabPool.numSlabsInUse =
    UInt32.ofNat (w.pools.pagePool.numSlabs + w.slabs.length)
  slabsAlloc : w.pools.slabPool.numSlabsAlloc =
    w.pools.slabPool.numSlabsFree + w.pools.slabPool.numSlabsInUse

/-- The PagePool holds as many slabs as it has carved. -/
theorem PoolsHold.numSlabs {s : Pools} {a : Account} (h : PoolsHold s a) :
    s.pagePool.numSlabs = a.carved.length := by
  unfold PagePool.numSlabs
  cases hvalues : s.pagePool.pageStack.values with
  | none =>
    obtain ⟨hcarved, hlist, _⟩ := h.unused hvalues
    rw [hlist, hcarved]
    rfl
  | some values =>
    obtain ⟨list, hlist, hholds, _⟩ := (h.ready (by rw [hvalues]; exact nofun)).list
    rw [hlist, hholds.length]

omit [DecidableEq κ] in
theorem Represents.sound {w : World κ} (h : Represents w.pools w.heldSlabs w.heldPages) :
    Sound w := by
  have hapart := h.apart
  obtain ⟨hpagesApart, hslabsApart, _⟩ := List.pairwise_append.mp hapart
  obtain ⟨a, hpools, hheld, hpages⟩ := h
  have hslabs := hpools.slabs
  refine ⟨nodup_of_apart (fun _ => Nat.zero_lt_succ _) hpagesApart,
    nodup_of_apart (fun _ => Nat.zero_lt_succ _) hslabsApart, hapart, ?_, ?_, ?_, ?_, ?_, ?_⟩
  · rw [hpools.free, toNat_counter hpools.free_length_lt, hpools.stack_length]
  · rw [hpools.inUse, hpages.length_eq, World.heldPages, List.length_map]
  · -- all pages are the free ones and the held ones, modulo 2 ^ 32 too
    rw [hpools.alloc, hpools.free, hpools.inUse, a.pages.length_all, UInt32.ofNat_add]
  · rw [hslabs.free, toNat_counter hslabs.free_length_lt, hslabs.stack_length]
  · rw [hslabs.inUse, hheld.length_eq, List.length_append, hpools.numSlabs, World.heldSlabs,
      List.length_map]
  · rw [hslabs.alloc, hslabs.free, hslabs.inUse, a.slabs.length_all, UInt32.ofNat_add]

/-- **All interleavings.** Whatever the clients do, as long as they release only what they
hold, every state is sound, and a call comes back exactly when there is room for it. -/
theorem pools_sound (calls : List (PoolCall κ × Env)) (hlegal : Along step Legal calls start) :
    Throughout step Sound calls start ∧
      Along step (fun w call => (∃ r w', step w call = some (r, w')) ↔ HasRoom w call)
        calls start := by
  have hstart : Represents (start : World κ).pools (start : World κ).heldSlabs
      ([] ++ (start : World κ).heldPages) :=
    declaredPools_represents
  have hsound : ∀ w : World κ, Represents w.pools w.heldSlabs ([] ++ w.heldPages) → Sound w :=
    fun w h => h.sound
  exact throughout_of_room hsound (fun w call h hcall hroom => step_represents [] call h hcall hroom)
    (fun w call h hcall hroom => step_aborts [] call h hcall hroom) calls hstart hlegal

end

/-- A page goes from one client to another, who also holds a slab. -/
def twoClients : List (PoolCall Nat × Env) :=
  [(.acquirePage 1, ⟨4096, fun _ _ => 0⟩), (.acquireSlab 2, ⟨65536, fun _ _ => 0⟩),
    (.releasePage 1 32768, ⟨0, fun _ _ => 0⟩), (.acquirePage 2, ⟨0, fun _ _ => 0⟩)]

theorem twoClients_legal : Along step Legal twoClients start := by
  refine ⟨⟨Or.inr ⟨by decide, nofun⟩, trivial⟩, ?_⟩
  intro r₁ w₁ h₁
  cases h₁
  refine ⟨⟨Or.inr ⟨by decide, ?_⟩, trivial⟩, ?_⟩
  · intro block hblock
    rw [List.mem_singleton.mp hblock]
    exact Or.inl (by decide)
  intro r₂ w₂ h₂
  cases h₂
  refine ⟨⟨Or.inl rfl, List.mem_cons_self ..⟩, ?_⟩
  intro r₃ w₃ h₃
  cases h₃
  exact ⟨⟨Or.inl rfl, trivial⟩, fun _ _ _ => trivial⟩

theorem pools_sound_twoClients :
    Throughout step Sound twoClients start ∧
      Along step (fun w call => (∃ r w', step w call = some (r, w')) ↔ HasRoom w call)
        twoClients start :=
  pools_sound twoClients twoClients_legal

end DevopsBroker.Memory
