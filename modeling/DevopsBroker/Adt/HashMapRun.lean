import Mathlib.Data.Finset.Lattice.Fold
import Mathlib.Order.Lattice.Nat
import DevopsBroker.Adt.HashMapRemove

/-!
# Runs of calls on a hash map

A `Call` is one of the six operations, `run` performs a list of them and records
after each one what it returned and the `size` of the map. `specRun` is the same
run on a partial map from key classes to values, whose size is the number of
mapped classes.

**`run_refines_iff`** compares the two from `initHashMap` on. They agree, whatever
the allocator, the capacity and the number of `resize` calls on the way, exactly
when no `putAll` is handed `2 ^ 31` elements or more: its index is an `int`
where `numElements` is a `uint32_t`, so that the last increment overflows
(`clear`, which walks the table, counts with a `uint32_t`).
-/

namespace DevopsBroker.Adt

variable {hashCode : Ptr → UInt32} {equals : Ptr → Ptr → Bool}

/-- A call on a hash map. `putAll` is handed the array it reads its pairs from. -/
inductive Call where
  | put (key value : Ptr)
  | get (key : Ptr)
  | containsKey (key : Ptr)
  | remove (key : Ptr)
  | putAll (elementArray : Nat → Ptr) (numElements : Nat)
  | clear

/-- What a call returns. -/
inductive Ret where
  | value (v : Ptr)
  | found (b : Bool)
  | void

/-- Perform one call. -/
def exec (A : Malloc) (s : MapState) : Call → Option (MapState × Ret)
  | .put key value => (put A s key value).map fun (s, v) => (s, .value v)
  | .get key => (get s key).map fun v => (s, .value v)
  | .containsKey key => (containsKey s key).map fun b => (s, .found b)
  | .remove key => (remove s key).map fun (s, v) => (s, .value v)
  | .putAll elementArray numElements =>
    (putAll A s elementArray numElements).map fun s => (s, .void)
  | .clear => (clear s).map fun s => (s, .void)

/-- Perform a list of calls; `none` as soon as one of them is undefined. -/
def run (A : Malloc) : List Call → MapState → Option (MapState × List (Ret × Nat))
  | [], s => some (s, [])
  | c :: cs, s => do
    let (s, r) ← exec A s c
    let (s', rs) ← run A cs s
    return (s', (r, s.map.size) :: rs)

/-- The state `initHashMap` leaves behind, on a heap without entries. -/
def initState (hashCode : Ptr → UInt32) (equals : Ptr → Ptr → Bool) (capacity : Nat)
    (entry : Ptr → MapEntry) : MapState :=
  ⟨⟨entry, ∅⟩, initHashMap hashCode equals capacity⟩

/-! ## The same calls on a map of key classes -/

/-- Map the keys of `k` pairs, from index `i` of the array on. -/
noncomputable def KeyMap.setAll {K : KeyLaws hashCode equals} (elementArray : Nat → Ptr) :
    Nat → Nat → KeyMap K → KeyMap K
  | 0, _, m => m
  | k + 1, i, m =>
    KeyMap.setAll elementArray k (i + 2) (m.set (elementArray i) (some (elementArray (i + 1))))

/-- What one call does to the map of key classes, and what it returns. -/
noncomputable def specExec {K : KeyLaws hashCode equals} (m : KeyMap K) : Call → KeyMap K × Ret
  | .put key value => (m.set key (some value), .value ((m (K.cls key)).getD NULL))
  | .get key => (m, .value ((m (K.cls key)).getD NULL))
  | .containsKey key => (m, .found (m (K.cls key)).isSome)
  | .remove key => (m.set key none, .value ((m (K.cls key)).getD NULL))
  | .putAll elementArray numElements =>
    (KeyMap.setAll elementArray (numElements / 2) 0 m, .void)
  | .clear => (fun _ => none, .void)

/-- The calls in a row, with the number of mapped classes after each. -/
noncomputable def specRun {K : KeyLaws hashCode equals} :
    List Call → KeyMap K → List (Ret × Nat)
  | [], _ => []
  | c :: cs, m => ((specExec m c).2, (specExec m c).1.count) :: specRun cs (specExec m c).1

/-- A map with nothing in it. -/
def KeyMap.empty (K : KeyLaws hashCode equals) : KeyMap K := fun _ => none

/-- Every `putAll` of the run gets pairs, as many as a `uint32_t` can count. -/
def Paired (calls : List Call) : Prop :=
  ∀ elementArray numElements, Call.putAll elementArray numElements ∈ calls →
    numElements % 2 = 0 ∧ numElements < 2 ^ 32

/-- Every `putAll` of the run stays within the range of its `int` index. -/
def PutAllInRange (calls : List Call) : Prop :=
  ∀ elementArray numElements, Call.putAll elementArray numElements ∈ calls →
    numElements < 2 ^ 31

/-! ## Initialisation -/

/-- A map with a cleared table is empty, on a heap without entries. -/
theorem cleared_represents (K : KeyLaws hashCode equals) (entry : Ptr → MapEntry) {map : HashMap}
    (htable : map.table = Array.replicate map.length NULL) (hpos : 0 < map.length)
    (hsize : map.size = 0) (hhash : map.hashCode = hashCode) (hequals : map.equals = equals) :
    Represents K ⟨⟨entry, ∅⟩, map⟩ (KeyMap.empty K) := by
  refine ⟨⟨Finset.notMem_empty _, ?_, hpos, ?_, fun a ha => absurd ha (Finset.notMem_empty _),
    fun a ha => absurd ha (Finset.notMem_empty _), hsize⟩, hhash, hequals, fun c v => ?_⟩
  · show map.table.size = map.length
    rw [htable, Array.size_replicate]
  · show Bucketed _ map.table ∅
    rw [htable]
    exact bucketed_empty _ _
  · constructor
    · intro hv
      exact absurd hv (by simp [KeyMap.empty])
    · intro ⟨a, ha, _⟩
      exact absurd ha (Finset.notMem_empty _)

/-- A freshly initialised map is empty. -/
theorem initState_represents (K : KeyLaws hashCode equals) (capacity : Nat)
    (entry : Ptr → MapEntry) :
    Represents K (initState hashCode equals capacity entry) (KeyMap.empty K) :=
  cleared_represents K entry rfl (tableLength_pos _) rfl rfl rfl

/-! ## `putAll` -/

/-- One round of the loop of `putAll`. -/
theorem putAllFrom_step {A : Malloc} {elementArray : Nat → Ptr} {n fuel i : Nat}
    {s s₁ : MapState} {v : Ptr} (hi : i < n)
    (hput : put A s (elementArray i) (elementArray (i + 1)) = some (s₁, v)) :
    putAllFrom A elementArray n (fuel + 1) i s
      = if i + 2 < 2 ^ 31 then putAllFrom A elementArray n fuel (i + 2) s₁ else none := by
  rw [putAllFrom, if_pos hi, hput]
  rfl

/-- The loop of `putAll` from index `i` on, with `k` pairs to go, when the index
never leaves the `int` range. -/
theorem putAllFrom_spec {K : KeyLaws hashCode equals} (A : Malloc) (elementArray : Nat → Ptr)
    {n : Nat} (hn : n < 2 ^ 31) :
    ∀ (k : Nat) {fuel i : Nat} {s : MapState} {m : KeyMap K}, Represents K s m →
      i + 2 * k = n → k < fuel →
      ∃ s', putAllFrom A elementArray n fuel i s = some s' ∧
        Represents K s' (KeyMap.setAll elementArray k i m) := by
  intro k
  induction k with
  | zero =>
    intro fuel i s m h hik hf
    obtain ⟨fuel, rfl⟩ : ∃ f, fuel = f + 1 := ⟨fuel - 1, by omega⟩
    exact ⟨s, by rw [putAllFrom, if_neg (by omega)], h⟩
  | succ k ih =>
    intro fuel i s m h hik hf
    obtain ⟨fuel, rfl⟩ : ∃ f, fuel = f + 1 := ⟨fuel - 1, by omega⟩
    obtain ⟨s₁, hput, h₁⟩ := put_spec A h (elementArray i) (elementArray (i + 1))
    obtain ⟨s', hrun, h'⟩ := ih h₁ (by omega : i + 2 + 2 * k = n) (by omega : k < fuel)
    refine ⟨s', ?_, h'⟩
    rw [putAllFrom_step (by omega) hput, if_pos (by omega)]
    exact hrun

/-- Map the keys of pairs, one after the other. -/
noncomputable def KeyMap.setPairs {K : KeyLaws hashCode equals} (pairs : List (Ptr × Ptr))
    (m : KeyMap K) : KeyMap K :=
  pairs.foldl (fun m pair => m.set pair.1 (some pair.2)) m

/-- Mapped in reverse, the first pair with an equal key counts. -/
theorem KeyMap.setPairs_reverse {K : KeyLaws hashCode equals} (m : KeyMap K)
    (pairs : List (Ptr × Ptr)) (key : Ptr) :
    m.setPairs pairs.reverse (K.cls key) =
      ((pairs.find? fun pair => equals key pair.1).map (·.2)).or (m (K.cls key)) := by
  unfold KeyMap.setPairs
  rw [List.foldl_reverse]
  induction pairs with
  | nil => rfl
  | cons pair pairs ih =>
    rw [List.foldr_cons, List.find?_cons]
    cases heq : equals key pair.1 with
    | true => rw [K.cls_eq.mpr heq, KeyMap.set_self]; rfl
    | false =>
      have hne : K.cls key ≠ K.cls pair.1 := by
        intro h
        rw [K.cls_eq.mp h] at heq
        exact absurd heq (by simp)
      rw [KeyMap.set_ne _ _ hne, ih]

/-- The loop of `putFromStack` from index `i` on, with these pairs to go. -/
theorem putFromStackFrom_spec {K : KeyLaws hashCode equals} (A : Malloc) (stack : Nat → Ptr) {n : Nat}
    (hn : n < 2 ^ 31) (pairs : List (Ptr × Ptr)) :
    ∀ {fuel i : Nat} {s : MapState} {m : KeyMap K}, Represents K s m → i + 2 * pairs.length = n →
      pairs.length < fuel →
      (∀ j pair, pairs[j]? = some pair → stack (i + 2 * j + 1) = pair.1 ∧ stack (i + 2 * j) = pair.2) →
      ∃ s', putFromStackFrom A stack n fuel i s = some s' ∧ Represents K s' (m.setPairs pairs) := by
  induction pairs with
  | nil =>
    intro fuel i s m h hin hfuel _
    obtain ⟨fuel, rfl⟩ := Nat.exists_eq_add_one_of_ne_zero (Nat.ne_of_gt hfuel)
    rw [List.length_nil] at hin
    exact ⟨s, by rw [putFromStackFrom, if_neg (by omega)], h⟩
  | cons pair pairs ih =>
    intro fuel i s m h hin hfuel hstack
    rw [List.length_cons] at hin hfuel
    obtain ⟨fuel, rfl⟩ := Nat.exists_eq_add_one_of_ne_zero (Nat.ne_of_gt (Nat.zero_lt_of_lt hfuel))
    obtain ⟨hkey, hvalue⟩ := hstack 0 pair rfl
    obtain ⟨s₁, hput, h₁⟩ := put_spec A h pair.1 pair.2
    obtain ⟨s', hrun, h'⟩ := ih h₁ (by omega : i + 2 + 2 * pairs.length = n) (by omega : _ < fuel)
      fun j more hj => by
        have hnext := hstack (j + 1) more hj
        rwa [show i + 2 * (j + 1) = i + 2 + 2 * j by omega] at hnext
    refine ⟨s', ?_, h'⟩
    rw [putFromStackFrom, if_pos (by omega), hkey, show stack i = pair.2 from hvalue, hput]
    exact (if_pos (by omega)).trans hrun

/-- With `2 ^ 31` elements or more the index runs past `INT_MAX`, whatever the
fuel; `k` is the number of pairs after which it does. -/
theorem putAllFrom_overflow {K : KeyLaws hashCode equals} (A : Malloc) (elementArray : Nat → Ptr)
    {n : Nat} (hn : 2 ^ 31 ≤ n) :
    ∀ (k : Nat) {fuel i : Nat} {s : MapState} {m : KeyMap K}, Represents K s m →
      i + 2 * (k + 1) = 2 ^ 31 → putAllFrom A elementArray n fuel i s = none := by
  intro k
  induction k with
  | zero =>
    intro fuel i s m h hik
    cases fuel with
    | zero => rfl
    | succ fuel =>
      obtain ⟨s₁, hput, _⟩ := put_spec A h (elementArray i) (elementArray (i + 1))
      rw [putAllFrom_step (by omega) hput, if_neg (by omega)]
  | succ k ih =>
    intro fuel i s m h hik
    cases fuel with
    | zero => rfl
    | succ fuel =>
      obtain ⟨s₁, hput, h₁⟩ := put_spec A h (elementArray i) (elementArray (i + 1))
      rw [putAllFrom_step (by omega) hput, if_pos (by omega)]
      exact ih h₁ (by omega)

/-- `putAll` is undefined from `2 ^ 31` elements on. -/
theorem putAll_overflow {K : KeyLaws hashCode equals} {s : MapState} {m : KeyMap K} (A : Malloc)
    (h : Represents K s m) (elementArray : Nat → Ptr) {n : Nat} (hn : 2 ^ 31 ≤ n) :
    putAll A s elementArray n = none :=
  putAllFrom_overflow A elementArray hn (2 ^ 30 - 1) h (by omega)

/-! ## One call, and a run of calls -/

/-- **One call does what its specification says**, and reports the size it says. -/
theorem exec_spec {K : KeyLaws hashCode equals} {s : MapState} {m : KeyMap K} (A : Malloc)
    (h : Represents K s m) (c : Call) (hpaired : Paired [c]) (hrange : PutAllInRange [c]) :
    ∃ s', exec A s c = some (s', (specExec m c).2) ∧ Represents K s' (specExec m c).1 := by
  cases c with
  | put key value =>
    obtain ⟨s', hput, h'⟩ := put_spec A h key value
    exact ⟨s', by rw [exec, hput]; rfl, h'⟩
  | get key => exact ⟨s, by rw [exec, get_spec h]; rfl, h⟩
  | containsKey key => exact ⟨s, by rw [exec, containsKey_spec h]; rfl, h⟩
  | remove key =>
    obtain ⟨s', hrem, h'⟩ := remove_spec h key
    exact ⟨s', by rw [exec, hrem]; rfl, h'⟩
  | putAll elementArray n =>
    have heven := (hpaired elementArray n (List.mem_cons_self ..)).1
    have hn := hrange elementArray n (List.mem_cons_self ..)
    obtain ⟨s', hput, h'⟩ := putAllFrom_spec A elementArray hn (n / 2) h
      (by omega : 0 + 2 * (n / 2) = n) (by omega : n / 2 < n + 1)
    refine ⟨s', ?_, h'⟩
    rw [exec, show putAll A s elementArray n = some s' from hput]
    rfl
  | clear =>
    obtain ⟨s', hclr, h'⟩ := clear_spec h
    exact ⟨s', by rw [exec, hclr]; rfl, h'⟩

theorem paired_cons {c : Call} {cs : List Call} (h : Paired (c :: cs)) :
    Paired [c] ∧ Paired cs :=
  ⟨fun a n hm => h a n (by simp at hm; simp [hm]), fun a n hm => h a n (List.mem_cons_of_mem _ hm)⟩

theorem putAllInRange_cons {c : Call} {cs : List Call} :
    PutAllInRange (c :: cs) ↔ PutAllInRange [c] ∧ PutAllInRange cs := by
  constructor
  · intro h
    exact ⟨fun a n hm => h a n (by simp at hm; simp [hm]),
      fun a n hm => h a n (List.mem_cons_of_mem _ hm)⟩
  · rintro ⟨h₁, h₂⟩ a n hm
    rcases List.mem_cons.mp hm with hm | hm
    · exact h₁ a n (by simp [hm])
    · exact h₂ a n hm

/-- A run goes on after its first call. -/
theorem run_cons {A : Malloc} {c : Call} {cs : List Call} {s s₁ : MapState} {r : Ret}
    (hexec : exec A s c = some (s₁, r)) :
    run A (c :: cs) s = (run A cs s₁).map fun p => (p.1, (r, s₁.map.size) :: p.2) := by
  rw [run, hexec]
  dsimp only [Option.bind_eq_bind, Option.bind_some]
  cases run A cs s₁ <;> rfl

/-- A run whose `putAll`s stay in range returns what the specification returns, with sizes
that a `uint32_t` holds. -/
theorem run_mod_spec {K : KeyLaws hashCode equals} (A : Malloc) :
    ∀ (calls : List Call) {s : MapState} {m : KeyMap K}, Represents K s m → Paired calls →
      PutAllInRange calls →
      ∃ s', run A calls s = some (s', (specRun calls m).map fun r => (r.1, r.2 % 2 ^ 32)) := by
  intro calls
  induction calls with
  | nil => intro s m _ _ _; exact ⟨s, rfl⟩
  | cons c cs ih =>
    intro s m h hpaired hrange
    obtain ⟨hp₁, hp₂⟩ := paired_cons hpaired
    obtain ⟨hr₁, hr₂⟩ := putAllInRange_cons.mp hrange
    obtain ⟨s₁, hexec, h₁⟩ := exec_spec A h c hp₁ hr₁
    obtain ⟨s', hrun⟩ := ih h₁ hp₂ hr₂
    refine ⟨s', ?_⟩
    rw [run_cons hexec, hrun, h₁.size_eq]
    rfl

/-- The sizes are exact, as long as there are no `2 ^ 32` classes. -/
theorem run_spec {K : KeyLaws hashCode equals} (A : Malloc) (calls : List Call) {s : MapState}
    {m : KeyMap K} (h : Represents K s m) (hpaired : Paired calls) (hrange : PutAllInRange calls)
    (hsmall : ∀ r ∈ specRun calls m, r.2 < 2 ^ 32) :
    ∃ s', run A calls s = some (s', specRun calls m) := by
  obtain ⟨s', hrun⟩ := run_mod_spec A calls h hpaired hrange
  have hsame : (specRun calls m).map (fun r => (r.1, r.2 % 2 ^ 32)) = specRun calls m := by
    refine (List.map_congr_left ?_).trans (List.map_id' _)
    intro r hr
    rw [Nat.mod_eq_of_lt (hsmall r hr)]
  rw [hsame] at hrun
  exact ⟨s', hrun⟩

/-- A run with a `putAll` out of range is undefined. -/
theorem run_overflow {K : KeyLaws hashCode equals} (A : Malloc) :
    ∀ (calls : List Call) {s : MapState} {m : KeyMap K}, Represents K s m → Paired calls →
      ¬ PutAllInRange calls → run A calls s = none := by
  intro calls
  induction calls with
  | nil => intro s m _ _ hrange; exact absurd (fun a n hm => by simp at hm) hrange
  | cons c cs ih =>
    intro s m h hpaired hrange
    obtain ⟨hp₁, hp₂⟩ := paired_cons hpaired
    by_cases hc : PutAllInRange [c]
    · obtain ⟨s₁, hexec, h₁⟩ := exec_spec A h c hp₁ hc
      have hrest : run A cs s₁ = none :=
        ih h₁ hp₂ fun hcs => hrange (putAllInRange_cons.mpr ⟨hc, hcs⟩)
      rw [run_cons hexec, hrest]
      rfl
    · -- the call that is out of range is a `putAll`
      have hnone : exec A s c = none := by
        cases c with
        | putAll elementArray n =>
          have hn : 2 ^ 31 ≤ n := by
            by_contra hlt
            refine hc fun a k hm => ?_
            obtain ⟨rfl, rfl⟩ : a = elementArray ∧ k = n := by simpa using hm
            omega
          rw [exec, putAll_overflow A h elementArray hn]
          rfl
        | _ => exact absurd (fun a n hm => by simp at hm) hc
      rw [run, hnone]
      rfl

/-- **Runs of the hash map against runs of a finite map.** From `initHashMap` on,
every returned value and every `size` is that of the map of key classes if and
only if every `putAll` gets fewer than `2 ^ 31` elements. -/
theorem run_refines_iff (K : KeyLaws hashCode equals) (A : Malloc) (capacity : Nat)
    (entry : Ptr → MapEntry) (calls : List Call) (hpaired : Paired calls)
    (hsmall : ∀ r ∈ specRun calls (KeyMap.empty K), r.2 < 2 ^ 32) :
    (∃ s, run A calls (initState hashCode equals capacity entry)
      = some (s, specRun calls (KeyMap.empty K))) ↔ PutAllInRange calls := by
  have h := initState_represents K capacity entry
  constructor
  · rintro ⟨s, hrun⟩
    by_contra hrange
    rw [run_overflow A calls h hpaired hrange] at hrun
    exact absurd hrun (by simp)
  · intro hrange
    exact run_spec A calls h hpaired hrange hsmall

/-! ## Concrete runs -/

/-- An allocator: the first address above every allocated block. -/
def bumpMalloc : Malloc where
  fresh live := live.sup id + 1
  fresh_ne_null _ := Nat.succ_ne_zero _
  fresh_notMem live h :=
    Nat.not_succ_le_self _ (Finset.le_sup (f := id) h : live.sup id + 1 ≤ live.sup id)

/-- Keys that are equal when they are the same pointer, all in one bucket. -/
theorem samePtr_laws : KeyLaws (fun _ => 0) (fun a b => decide (a = b)) := by
  refine ⟨⟨fun a => decide_eq_true rfl, fun h => ?_, fun h₁ h₂ => ?_⟩, fun _ _ _ => rfl⟩
  · exact decide_eq_true (of_decide_eq_true h).symm
  · exact decide_eq_true ((of_decide_eq_true h₁).trans (of_decide_eq_true h₂))

/-- A map whose keys all belong to one class has at most one of them. -/
theorem KeyMap.count_le_one {K : KeyLaws hashCode equals} {m : KeyMap K} (key : Ptr)
    (h : ∀ c, m c ≠ none → c = K.cls key) : m.count ≤ 1 := by
  have hsub : {c | m c ≠ none} ⊆ {K.cls key} := fun c hc => h c hc
  calc m.count ≤ Set.ncard {K.cls key} := Set.ncard_le_ncard hsub (Set.finite_singleton _)
    _ = 1 := Set.ncard_singleton _

/-- Where `set` maps a class, the map did before or it is the class of the key. -/
theorem KeyMap.set_ne_none {K : KeyLaws hashCode equals} {m : KeyMap K} {key : Ptr}
    {v : Option Ptr} {c : Quotient (keySetoid K)} (h : m.set key v c ≠ none) :
    m c ≠ none ∨ c = K.cls key := by
  by_cases hc : c = K.cls key
  · exact Or.inr hc
  · rw [KeyMap.set_ne m v hc] at h
    exact Or.inl h

/-- Where `setAll` maps a class, the map did before or it is the class of an element. -/
theorem KeyMap.setAll_ne_none {K : KeyLaws hashCode equals} (elementArray : Nat → Ptr) :
    ∀ (k : Nat) {i : Nat} {m : KeyMap K} {c : Quotient (keySetoid K)},
      KeyMap.setAll elementArray k i m c ≠ none →
      m c ≠ none ∨ ∃ j, c = K.cls (elementArray j) := by
  intro k
  induction k with
  | zero => intro i m c h; exact Or.inl h
  | succ k ih =>
    intro i m c h
    rcases ih h with hset | hj
    · exact (KeyMap.set_ne_none hset).imp_right fun hc => ⟨i, hc⟩
    · exact Or.inr hj

theorem specExec_putAll {K : KeyLaws hashCode equals} (m : KeyMap K) (elementArray : Nat → Ptr)
    (n : Nat) :
    (specExec m (.putAll elementArray n)).1 = KeyMap.setAll elementArray (n / 2) 0 m := rfl

/-- The run of one `putAll` whose `2 ^ 31 + 2` elements are all the key (and value) `1`. -/
def overlongPutAll : List Call := [.putAll (fun _ => 1) (2 ^ 31 + 2)]

/-- **`putAll` with `2 ^ 31 + 2` elements**, all of one key: the specification maps one
class, the code overflows its index, and would read in front of the array with it. -/
theorem overlongPutAll_undefined :
    Paired overlongPutAll ∧
    (∀ r ∈ specRun overlongPutAll (KeyMap.empty samePtr_laws), r.2 ≤ 1) ∧
    ¬ ∃ s, run bumpMalloc overlongPutAll
        (initState (fun _ => 0) (fun a b => decide (a = b)) 8 fun _ => ⟨0, 0, 0, 0⟩)
      = some (s, specRun overlongPutAll (KeyMap.empty samePtr_laws)) := by
  have hpaired : Paired overlongPutAll := by
    intro a n hm
    obtain ⟨_, rfl⟩ : a = (fun _ => 1) ∧ n = 2 ^ 31 + 2 := by simpa [overlongPutAll] using hm
    exact ⟨by decide, by decide⟩
  have hout : ¬ PutAllInRange overlongPutAll := fun h =>
    absurd (h _ _ (List.mem_cons_self ..)) (by decide)
  refine ⟨hpaired, fun r hr => ?_, fun ⟨s, hrun⟩ => ?_⟩
  · obtain rfl := List.mem_singleton.mp hr
    refine KeyMap.count_le_one 1 fun c hc => ?_
    rw [specExec_putAll] at hc
    rcases KeyMap.setAll_ne_none _ _ hc with hempty | ⟨_, hj⟩
    · exact absurd rfl hempty
    · exact hj
  · rw [run_overflow bumpMalloc _ (initState_represents samePtr_laws ..) hpaired hout] at hrun
    exact absurd hrun (by simp)

/-- A run that maps one key twice and unmaps it again. -/
def smallRun : List Call := [.putAll (fun i => if i % 2 = 0 then 7 else i) 4, .remove 7]

theorem run_refines_smallRun :
    (∃ s, run bumpMalloc smallRun
        (initState (fun _ => 0) (fun a b => decide (a = b)) 8 fun _ => ⟨0, 0, 0, 0⟩)
      = some (s, specRun smallRun (KeyMap.empty samePtr_laws))) ↔ PutAllInRange smallRun := by
  refine run_refines_iff samePtr_laws bumpMalloc 8 _ smallRun ?_ ?_
  · intro a n hm
    obtain ⟨_, rfl⟩ : a = (fun i => if i % 2 = 0 then 7 else i) ∧ n = 4 := by
      simpa [smallRun] using hm
    exact ⟨by decide, by decide⟩
  · -- every key of the run is `7`, so that at most one class is ever mapped
    have hput : ∀ c, (KeyMap.empty samePtr_laws |>.set 7 (some 1) |>.set 7 (some 3)) c ≠ none →
        c = samePtr_laws.cls 7 := fun c hc =>
      (KeyMap.set_ne_none hc).elim
        (fun hc => (KeyMap.set_ne_none hc).elim (absurd rfl) id) id
    intro r hr
    suffices hle : r.2 ≤ 1 from Nat.lt_of_le_of_lt hle (by decide)
    rcases List.mem_cons.mp hr with rfl | hr
    · exact KeyMap.count_le_one 7 hput
    · obtain rfl := List.mem_singleton.mp hr
      exact KeyMap.count_le_one 7 fun c hc => (KeyMap.set_ne_none hc).elim (hput c) id

end DevopsBroker.Adt
