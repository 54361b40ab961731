import Mathlib.Data.Set.Card
import Mathlib.Data.Finset.SDiff
import DevopsBroker.Adt.HashMapInv

/-!
# The hash map as a finite map from key classes

A `KeyMap` is what the component is for: a partial map from the classes of
`equals` to values. `Represents` ties a `MapState` to a `KeyMap`, and one lemma
per operation says which `KeyMap` the operation leads to and what it returns.
-/

namespace DevopsBroker.Adt

open DevopsBroker.Lib

variable {hashCode : Ptr → UInt32} {equals : Ptr → Ptr → Bool}

/-- The keys up to `equals`. -/
def keySetoid (K : KeyLaws hashCode equals) : Setoid Ptr := ⟨fun a b => equals a b = true, K.equiv⟩

/-- The class of a key. -/
def KeyLaws.cls (K : KeyLaws hashCode equals) (key : Ptr) : Quotient (keySetoid K) :=
  Quotient.mk (keySetoid K) key

theorem KeyLaws.cls_eq (K : KeyLaws hashCode equals) {a b : Ptr} :
    K.cls a = K.cls b ↔ equals a b = true :=
  ⟨fun h => Quotient.exact h, fun h => Quotient.sound h⟩

/-- A partial map from key classes to values. -/
abbrev KeyMap (K : KeyLaws hashCode equals) := Quotient (keySetoid K) → Option Ptr

/-- Map a key to a value, or (with `none`) to nothing. -/
noncomputable def KeyMap.set {K : KeyLaws hashCode equals} (m : KeyMap K) (key : Ptr)
    (v : Option Ptr) : KeyMap K :=
  @Function.update _ _ (Classical.decEq _) m (K.cls key) v

theorem KeyMap.set_self {K : KeyLaws hashCode equals} (m : KeyMap K) (key : Ptr)
    (v : Option Ptr) : m.set key v (K.cls key) = v :=
  @Function.update_self _ _ (Classical.decEq _) _ _ _

theorem KeyMap.set_ne {K : KeyLaws hashCode equals} (m : KeyMap K) {key : Ptr}
    (v : Option Ptr) {c : Quotient (keySetoid K)} (h : c ≠ K.cls key) : m.set key v c = m c :=
  @Function.update_of_ne _ _ (Classical.decEq _) _ _ h _ _

/-- What a map says after `set`, at the class of the key and elsewhere. -/
theorem KeyMap.set_iff {K : KeyLaws hashCode equals} {m : KeyMap K} {key : Ptr} {w : Option Ptr}
    {P : Quotient (keySetoid K) → Ptr → Prop} (hself : ∀ v, w = some v ↔ P (K.cls key) v)
    (hne : ∀ c v, c ≠ K.cls key → (m c = some v ↔ P c v)) :
    ∀ c v, m.set key w c = some v ↔ P c v := by
  intro c v
  by_cases hc : c = K.cls key
  · subst hc
    rw [KeyMap.set_self]
    exact hself v
  · rw [KeyMap.set_ne m w hc]
    exact hne c v hc

theorem KeyMap.set_none_of_none {K : KeyLaws hashCode equals} {m : KeyMap K} {key : Ptr}
    (hm : m (K.cls key) = none) : m.set key none = m := by
  funext c
  by_cases hc : c = K.cls key
  · rw [hc, KeyMap.set_self, hm]
  · exact KeyMap.set_ne m none hc

/-- How many key classes are mapped. -/
noncomputable def KeyMap.count {K : KeyLaws hashCode equals} (m : KeyMap K) : Nat :=
  Set.ncard {c | m c ≠ none}

/-- The state holds exactly the mappings of `m`. -/
structure Represents (K : KeyLaws hashCode equals) (s : MapState) (m : KeyMap K) : Prop where
  inv : MapInv s
  hashCode_eq : s.map.hashCode = hashCode
  equals_eq : s.map.equals = equals
  content : ∀ c v, m c = some v ↔
    ∃ a ∈ s.store.live, K.cls (s.store.entry a).key = c ∧ (s.store.entry a).value = v

/-- A class has one entry. -/
theorem Represents.unique {K : KeyLaws hashCode equals} {s : MapState} {m : KeyMap K}
    (h : Represents K s m) {a b : Ptr} (ha : a ∈ s.store.live) (hb : b ∈ s.store.live)
    (hab : K.cls (s.store.entry a).key = K.cls (s.store.entry b).key) : a = b := by
  refine h.inv.distinct a ha b hb ?_
  rw [h.equals_eq]
  exact K.cls_eq.mp hab

/-- A class without an entry is not mapped. -/
theorem Represents.eq_none {K : KeyLaws hashCode equals} {s : MapState} {m : KeyMap K}
    (h : Represents K s m) {key : Ptr}
    (hno : ∀ a ∈ s.store.live, K.cls (s.store.entry a).key ≠ K.cls key) :
    m (K.cls key) = none := by
  by_contra hne
  obtain ⟨v, hv⟩ := Option.ne_none_iff_exists'.mp hne
  obtain ⟨a, ha, hac, _⟩ := (h.content _ v).mp hv
  exact hno a ha hac

/-- `size` is the number of mapped classes, as a `uint32_t`. -/
theorem Represents.size_eq {K : KeyLaws hashCode equals} {s : MapState} {m : KeyMap K}
    (h : Represents K s m) : s.map.size = m.count % 2 ^ 32 := by
  have himg : {c | m c ≠ none} = (fun a => K.cls (s.store.entry a).key) '' ↑s.store.live := by
    ext c
    simp only [Set.mem_ofPred_eq, Set.mem_image, Finset.mem_coe]
    constructor
    · intro hc
      obtain ⟨v, hv⟩ := Option.ne_none_iff_exists'.mp hc
      obtain ⟨a, ha, hac, _⟩ := (h.content c v).mp hv
      exact ⟨a, ha, hac⟩
    · rintro ⟨a, ha, hac⟩
      rw [(h.content c _).mpr ⟨a, ha, hac, rfl⟩]
      simp
  have hinj : Set.InjOn (fun a => K.cls (s.store.entry a).key) ↑s.store.live := by
    intro a ha b hb hab
    exact h.unique ha hb hab
  rw [KeyMap.count, himg, hinj.ncard_image, Set.ncard_coe_finset, h.inv.size]

/-- The search finds the entry of the key's class, and its value is what the map says. -/
theorem Represents.findEntry {K : KeyLaws hashCode equals} {s : MapState} {m : KeyMap K}
    (h : Represents K s m) (key : Ptr) :
    ∃ e, findEntry s key = some e ∧
      ((e = NULL ∧ m (K.cls key) = none ∧
          ∀ a ∈ s.store.live, K.cls (s.store.entry a).key ≠ K.cls key) ∨
       (e ≠ NULL ∧ e ∈ s.store.live ∧ K.cls (s.store.entry e).key = K.cls key ∧
          m (K.cls key) = some (s.store.entry e).value)) := by
  have hK : KeyLaws s.map.hashCode s.map.equals := by
    rw [h.hashCode_eq, h.equals_eq]; exact K
  obtain ⟨e, hfind, hnone | hsome⟩ := findEntry_spec hK h.inv key
  · have hno : ∀ a ∈ s.store.live, K.cls (s.store.entry a).key ≠ K.cls key := by
      intro a ha hac
      have := hnone.2 a ha
      rw [h.equals_eq, K.cls_eq.mp hac] at this
      exact absurd this (by simp)
    exact ⟨e, hfind, Or.inl ⟨hnone.1, h.eq_none hno, hno⟩⟩
  · obtain ⟨hne, hmem, heq⟩ := hsome
    rw [h.equals_eq] at heq
    have hcls := K.cls_eq.mpr heq
    exact ⟨e, hfind, Or.inr ⟨hne, hmem, hcls, (h.content _ _).mpr ⟨e, hmem, hcls, rfl⟩⟩⟩

/-! ## Lookups -/

theorem containsKey_spec {K : KeyLaws hashCode equals} {s : MapState} {m : KeyMap K}
    (h : Represents K s m) (key : Ptr) :
    containsKey s key = some (m (K.cls key)).isSome := by
  obtain ⟨e, hfind, ⟨rfl, hm, _⟩ | ⟨hne, _, _, hm⟩⟩ := h.findEntry key
  · rw [containsKey, hfind, hm]; rfl
  · rw [containsKey, hfind, hm]; simpa using hne

theorem get_spec {K : KeyLaws hashCode equals} {s : MapState} {m : KeyMap K}
    (h : Represents K s m) (key : Ptr) : get s key = some ((m (K.cls key)).getD NULL) := by
  obtain ⟨e, hfind, ⟨rfl, hm, _⟩ | ⟨hne, _, _, hm⟩⟩ := h.findEntry key
  · rw [get, hfind, hm]; rfl
  · rw [get, hfind, hm, Option.map_some, if_pos hne]; rfl

/-! ## `put` -/

/-- A new value leaves the key, the hash and the link of every entry. -/
theorem write_value_frame (σ : Store) (e value a : Ptr) :
    ((σ.write e { σ.entry e with value := value }).entry a).key = (σ.entry a).key ∧
      ((σ.write e { σ.entry e with value := value }).entry a).hash = (σ.entry a).hash ∧
      (σ.write e { σ.entry e with value := value }).next a = σ.next a := by
  unfold Store.next
  by_cases hae : a = e
  · subst hae
    rw [write_entry_self]
    exact ⟨rfl, rfl, rfl⟩
  · rw [write_entry_ne _ hae]
    exact ⟨rfl, rfl, rfl⟩

/-- Overwriting the value of the entry of `key`. -/
theorem setValue_represents {K : KeyLaws hashCode equals} {s : MapState} {m : KeyMap K}
    (h : Represents K s m) {key e : Ptr} (value : Ptr) (he : e ∈ s.store.live)
    (hcls : K.cls (s.store.entry e).key = K.cls key) :
    Represents K
      { s with store := s.store.write e { s.store.entry e with value := value } }
      (m.set key (some value)) := by
  let σ : Store := s.store.write e { s.store.entry e with value := value }
  have hself : σ.entry e = { s.store.entry e with value := value } := write_entry_self ..
  have hoth : ∀ a, a ≠ e → σ.entry a = s.store.entry a := fun a ha => write_entry_ne _ ha
  have hkey : ∀ a, (σ.entry a).key = (s.store.entry a).key :=
    fun a => (write_value_frame s.store e value a).1
  have hhash : ∀ a, (σ.entry a).hash = (s.store.entry a).hash :=
    fun a => (write_value_frame s.store e value a).2.1
  have hnext : ∀ a, σ.next a = s.store.next a :=
    fun a => (write_value_frame s.store e value a).2.2
  refine ⟨⟨h.inv.null, h.inv.table_size, h.inv.length_pos,
    bucketed_congr h.inv.buckets (fun a _ => hnext a) hhash, ?_, ?_, h.inv.size⟩,
    h.hashCode_eq, h.equals_eq, ?_⟩
  · intro a ha
    show (σ.entry a).hash = s.map.hashCode (σ.entry a).key
    rw [hhash, hkey]
    exact h.inv.hash a ha
  · intro a ha b hb hab
    rw [show (σ.entry a).key = _ from hkey a, show (σ.entry b).key = _ from hkey b] at hab
    exact h.inv.distinct a ha b hb hab
  · refine KeyMap.set_iff ?_ ?_
    · intro v
      constructor
      · intro hv
        refine ⟨e, he, ?_, ?_⟩
        · rw [show (σ.entry e).key = _ from hkey e]
          exact hcls
        · rw [show σ.entry e = _ from hself]
          exact Option.some.inj hv
      · rintro ⟨a, ha, hac, hav⟩
        -- the entry of the class is unique
        rw [show (σ.entry a).key = _ from hkey a] at hac
        obtain rfl : a = e := h.unique ha he (hac.trans hcls.symm)
        rw [show σ.entry a = _ from hself] at hav
        exact congrArg some hav
    · intro c v hc
      rw [h.content c v]
      constructor
      · rintro ⟨a, ha, hac, hav⟩
        have hae : a ≠ e := by rintro rfl; exact hc (hac.symm.trans hcls)
        exact ⟨a, ha, (congrArg K.cls (hkey a)).trans hac, by rw [show σ.entry a = _ from hoth a hae]; exact hav⟩
      · rintro ⟨a, ha, hac, hav⟩
        rw [show (σ.entry a).key = _ from hkey a] at hac
        have hae : a ≠ e := by rintro rfl; exact hc (hac.symm.trans hcls)
        rw [show σ.entry a = _ from hoth a hae] at hav
        exact ⟨a, ha, hac, hav⟩

/-- A state with the entries of `s`, in whatever table, and `size` one ahead. -/
structure ReadyToAdd (s s₁ : MapState) : Prop where
  live : s₁.store.live = s.store.live
  payload : SamePayload s.store s₁.store
  hashCode_eq : s₁.map.hashCode = s.map.hashCode
  equals_eq : s₁.map.equals = s.map.equals
  size : s₁.map.size = (s.map.size + 1) % 2 ^ 32
  length_pos : 0 < s₁.map.length
  table_size : s₁.map.table.size = s₁.map.length
  buckets : Bucketed s₁.store s₁.map.table s₁.store.live

/-- Adding the entry of a key that has none yet. -/
theorem addEntry_represents {K : KeyLaws hashCode equals} {s s₁ : MapState} {m : KeyMap K}
    (A : Malloc) (h : Represents K s m) (hr : ReadyToAdd s s₁) {key : Ptr} (value : Ptr)
    {hc : UInt32} (hhc : hc = hashCode key)
    (hnew : ∀ a ∈ s.store.live, K.cls (s.store.entry a).key ≠ K.cls key) :
    Represents K (addEntry A s₁ (hc.toNat % s₁.map.length) key value hc)
      (m.set key (some value)) := by
  subst hhc
  let i := (hashCode key).toNat % s₁.map.length
  let e := A.fresh s₁.store.live
  let σ : Store := (addEntry A s₁ i key value (hashCode key)).store
  have he : e ∉ s₁.store.live := A.fresh_notMem _
  have hself : σ.entry e = ⟨key, value, s₁.map.table.getD i NULL, hashCode key⟩ :=
    write_entry_self ..
  have hoth : ∀ a, a ≠ e → σ.entry a = s₁.store.entry a := fun a ha => write_entry_ne _ ha
  have hlive : σ.live = insert e s₁.store.live := rfl
  -- an old block still holds the key, the value and the hash it had in `s`
  have hold : ∀ a ∈ s₁.store.live, (σ.entry a).key = (s.store.entry a).key ∧
      (σ.entry a).value = (s.store.entry a).value ∧ (σ.entry a).hash = (s.store.entry a).hash := by
    intro a ha
    rw [hoth a (by rintro rfl; exact he ha)]
    exact hr.payload a
  have hb : Bucketed σ (s₁.map.table.setIfInBounds i e) (insert e s₁.store.live) :=
    bucketed_push hr.buckets he (A.fresh_ne_null _) (by unfold Store.next; rw [hself])
      (by rw [hself, hr.table_size]) hoth
  refine ⟨⟨?_, ?_, hr.length_pos, hb, ?_, ?_, ?_⟩, hr.hashCode_eq.trans h.hashCode_eq,
    hr.equals_eq.trans h.equals_eq, ?_⟩
  · show NULL ∉ insert e s₁.store.live
    rw [Finset.mem_insert, not_or, hr.live]
    exact ⟨(A.fresh_ne_null _).symm, h.inv.null⟩
  · show (s₁.map.table.setIfInBounds i e).size = s₁.map.length
    rw [Array.size_setIfInBounds, hr.table_size]
  · intro a ha
    show (σ.entry a).hash = s₁.map.hashCode (σ.entry a).key
    rcases Finset.mem_insert.mp ha with rfl | ha
    · rw [show σ.entry (A.fresh s₁.store.live) = _ from hself, hr.hashCode_eq, h.hashCode_eq]
    · rw [(hold a ha).1, (hold a ha).2.2, hr.hashCode_eq]
      exact h.inv.hash a (hr.live ▸ ha)
  · intro a ha b hb hab
    have hab' : K.cls (σ.entry a).key = K.cls (σ.entry b).key := by
      refine K.cls_eq.mpr ?_
      rw [← h.equals_eq, ← hr.equals_eq]
      exact hab
    rcases Finset.mem_insert.mp ha with rfl | ha <;> rcases Finset.mem_insert.mp hb with rfl | hb
    · rfl
    · rw [show σ.entry (A.fresh s₁.store.live) = _ from hself, (hold b hb).1] at hab'
      exact absurd hab'.symm (hnew b (hr.live ▸ hb))
    · rw [show σ.entry (A.fresh s₁.store.live) = _ from hself, (hold a ha).1] at hab'
      exact absurd hab' (hnew a (hr.live ▸ ha))
    · rw [(hold a ha).1, (hold b hb).1] at hab'
      exact h.unique (hr.live ▸ ha) (hr.live ▸ hb) hab'
  · show s₁.map.size = (insert e s₁.store.live).card % 2 ^ 32
    rw [Finset.card_insert_of_notMem he, hr.size, h.inv.size, hr.live]
    omega
  · refine KeyMap.set_iff ?_ ?_
    · intro v
      constructor
      · intro hv
        refine ⟨e, Finset.mem_insert_self .., ?_, ?_⟩
        · rw [show σ.entry e = _ from hself]
        · rw [show σ.entry e = _ from hself]
          exact Option.some.inj hv
      · rintro ⟨a, ha, hac, hav⟩
        rcases Finset.mem_insert.mp ha with rfl | ha
        · rw [show σ.entry (A.fresh s₁.store.live) = _ from hself] at hav
          exact congrArg some hav
        · rw [show (σ.entry a).key = _ from (hold a ha).1] at hac
          exact absurd hac (hnew a (hr.live ▸ ha))
    · intro c v hc
      rw [h.content c v]
      constructor
      · rintro ⟨a, ha, hac, hav⟩
        have ha₁ : a ∈ s₁.store.live := hr.live ▸ ha
        exact ⟨a, Finset.mem_insert_of_mem ha₁, (congrArg K.cls (hold a ha₁).1).trans hac,
          (hold a ha₁).2.1.trans hav⟩
      · rintro ⟨a, ha, hac, hav⟩
        rcases Finset.mem_insert.mp ha with rfl | ha
        · rw [show σ.entry (A.fresh s₁.store.live) = _ from hself] at hac
          exact absurd hac.symm hc
        · exact ⟨a, hr.live ▸ ha, (congrArg K.cls (hold a ha).1).symm.trans hac,
            (hold a ha).2.1.symm.trans hav⟩

/-- `put` maps the class of the key to the value and returns what it replaces;
whether the table is doubled on the way makes no difference. -/
theorem put_spec {K : KeyLaws hashCode equals} {s : MapState} {m : KeyMap K} (A : Malloc)
    (h : Represents K s m) (key value : Ptr) :
    ∃ s', put A s key value = some (s', (m (K.cls key)).getD NULL) ∧
      Represents K s' (m.set key (some value)) := by
  have hhc : s.map.hashCode key = hashCode key := congrFun h.hashCode_eq key
  obtain ⟨e, hfind, ⟨rfl, hm, hnew⟩ | ⟨hne, hmem, hcls, hm⟩⟩ := h.findEntry key
  · let s₀ : MapState := { s with map := { s.map with size := (s.map.size + 1) % 2 ^ 32 } }
    unfold put
    rw [hfind, hm]
    dsimp only [Option.bind_eq_bind, Option.bind_some]
    rw [if_neg (fun hc => hc rfl)]
    by_cases hfull : s.map.size = s.map.capacity
    · -- the table is full: the entry goes into the resized table
      obtain ⟨s₁, hrun, hlive, hpay, hhc₁, heq, hsz, hpos, hts, hb⟩ :=
        @resize_spec s₀ h.inv.table_size h.inv.length_pos h.inv.buckets (s.map.hashCode key)
      rw [if_pos hfull]
      exact ⟨_, congrArg (Option.bind · _) hrun,
        addEntry_represents A h ⟨hlive, hpay, hhc₁, heq, hsz, hpos, hts, hb⟩ value hhc hnew⟩
    · rw [if_neg hfull]
      have hready : ReadyToAdd s s₀ := ⟨rfl, samePayload_refl _, rfl, rfl, rfl,
        h.inv.length_pos, h.inv.table_size, h.inv.buckets⟩
      exact ⟨_, rfl, addEntry_represents A h hready value hhc hnew⟩
  · unfold put
    rw [hfind, hm]
    dsimp only [Option.bind_eq_bind, Option.bind_some]
    rw [if_pos hne]
    exact ⟨_, rfl, setValue_represents h value hmem hcls⟩

end DevopsBroker.Adt
