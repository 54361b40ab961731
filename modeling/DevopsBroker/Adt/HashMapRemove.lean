import DevopsBroker.Adt.HashMapSpec

/-!

`remove` unlinks an entry from the head of its bucket (the table slot is
rewritten) or from behind another entry (that entry's `next` is rewritten);
`chain_unlink` covers the second case. `clear` frees bucket after bucket.
-/

namespace DevopsBroker.Adt

open DevopsBroker.Lib

variable {hashCode : Ptr → UInt32} {equals : Ptr → Ptr → Bool}

/-! ## `remove` -/

/-- The walk of `remove` falls off a bucket without a hit. -/
theorem findWithPrev_none {σ : Store} (hit : Ptr → Bool) :
    ∀ (l : List Ptr) {fuel : Nat} {prev p : Ptr}, Chain σ.next p l → l.length < fuel →
      (∀ a ∈ l, hit a = false) → ∃ q, findWithPrev σ hit fuel prev p = some (q, NULL) := by
  intro l
  induction l with
  | nil =>
    intro fuel prev p hl hf _
    obtain ⟨fuel, rfl⟩ : ∃ f, fuel = f + 1 := ⟨fuel - 1, by simp at hf; omega⟩
    exact ⟨prev, by rw [findWithPrev, if_pos (show p = NULL from hl)]⟩
  | cons a l ih =>
    intro fuel prev p hl hf hno
    obtain ⟨fuel, rfl⟩ : ∃ f, fuel = f + 1 := ⟨fuel - 1, by omega⟩
    obtain ⟨rfl, hnull, hl'⟩ := hl
    obtain ⟨q, hq⟩ : ∃ q, findWithPrev σ hit fuel p (σ.next p) = some (q, NULL) :=
      ih hl' (by rw [List.length_cons] at hf; omega) fun b hb =>
        hno b (List.mem_cons_of_mem _ hb)
    refine ⟨q, ?_⟩
    rw [findWithPrev, if_neg hnull, hno p (List.mem_cons_self ..)]
    exact hq

/-- The walk of `remove` stops at the first hit and knows the entry before it. -/
theorem findWithPrev_some {σ : Store} (hit : Ptr → Bool) {e : Ptr} {l₂ : List Ptr}
    (hhit : hit e = true) :
    ∀ (l₁ : List Ptr) {fuel : Nat} {prev p : Ptr}, Chain σ.next p (l₁ ++ e :: l₂) →
      l₁.length < fuel → (∀ a ∈ l₁, hit a = false) →
      findWithPrev σ hit fuel prev p = some (l₁.getLast?.getD prev, e) := by
  intro l₁
  induction l₁ with
  | nil =>
    intro fuel prev p hl hf _
    obtain ⟨fuel, rfl⟩ : ∃ f, fuel = f + 1 := ⟨fuel - 1, by simp at hf; omega⟩
    obtain ⟨rfl, hnull, _⟩ := hl
    rw [findWithPrev, if_neg hnull, if_pos hhit]
    rfl
  | cons a l₁ ih =>
    intro fuel prev p hl hf hno
    obtain ⟨fuel, rfl⟩ : ∃ f, fuel = f + 1 := ⟨fuel - 1, by omega⟩
    obtain ⟨rfl, hnull, hl'⟩ := hl
    have hrec : findWithPrev σ hit fuel p (σ.next p) = some (l₁.getLast?.getD p, e) :=
      ih hl' (by rw [List.length_cons] at hf; omega) fun b hb =>
        hno b (List.mem_cons_of_mem _ hb)
    rw [findWithPrev, if_neg hnull, hno p (List.mem_cons_self ..), if_neg Bool.false_ne_true, hrec]
    cases l₁ with
    | nil => rfl
    | cons b l₁ => rw [List.getLast?_cons_cons]; simp [List.getLast?_cons]

/-- Dropping node `e` from its bucket `i`, however the relinking is done. -/
theorem bucketed_drop {σ σ' : Store} {table table' : Array Ptr} {nodes : Finset Ptr} {e : Ptr}
    {i : Nat} {l' : List Ptr} (h : Bucketed σ table nodes) (hsz : table'.size = table.size)
    (hi : (σ.entry e).hash.toNat % table.size = i)
    (hhash : ∀ a, (σ'.entry a).hash = (σ.entry a).hash)
    (hl' : Chain σ'.next (table'.getD i NULL) l') (hnd' : l'.Nodup)
    (hmem' : ∀ a, a ∈ l' ↔ a ≠ e ∧ a ∈ nodes ∧ (σ.entry a).hash.toNat % table.size = i)
    (htab : ∀ j, j ≠ i → table'.getD j NULL = table.getD j NULL)
    (hnext : ∀ a, (σ.entry a).hash.toNat % table.size ≠ i → σ'.next a = σ.next a) :
    Bucketed σ' table' (nodes.erase e) := by
  intro j hj
  rw [hsz] at hj ⊢
  by_cases hij : j = i
  · subst hij
    refine ⟨l', hl', hnd', fun a => ?_⟩
    rw [Finset.mem_erase, hhash a, hmem' a, and_assoc]
  · obtain ⟨l, hl, hnd, hmem⟩ := h j hj
    refine ⟨l, ?_, hnd, fun a => ?_⟩
    · rw [htab j hij]
      exact chain_congr (fun a ha => hnext a (by rw [((hmem a).mp ha).2]; exact hij)) hl
    · rw [Finset.mem_erase, hhash a, hmem a]
      constructor
      · rintro ⟨h1, h2⟩
        exact ⟨⟨by rintro rfl; exact hij (h2.symm.trans hi), h1⟩, h2⟩
      · rintro ⟨⟨_, h1⟩, h2⟩
        exact ⟨h1, h2⟩

/-- A state without the entry `e` of `key` represents the map without `key`. -/
theorem dropEntry_represents {K : KeyLaws hashCode equals} {s s' : MapState} {m : KeyMap K}
    (h : Represents K s m) {key e : Ptr} (he : e ∈ s.store.live)
    (hcls : K.cls (s.store.entry e).key = K.cls key)
    (hlive : s'.store.live = s.store.live.erase e) (hpay : SamePayload s.store s'.store)
    (hhc : s'.map.hashCode = s.map.hashCode) (heq : s'.map.equals = s.map.equals)
    (hlen : s'.map.length = s.map.length) (hsz : s'.map.table.size = s.map.table.size)
    (hsize : s'.map.size = decSize s.map.size)
    (hb : Bucketed s'.store s'.map.table s'.store.live) :
    Represents K s' (m.set key none) := by
  have hsub : ∀ a ∈ s'.store.live, a ∈ s.store.live := fun a ha =>
    Finset.mem_of_mem_erase (hlive ▸ ha)
  refine ⟨⟨fun hc => h.inv.null (hsub _ hc), ?_, ?_, hb, ?_, ?_, ?_⟩, hhc.trans h.hashCode_eq,
    heq.trans h.equals_eq, ?_⟩
  · rw [hsz, hlen, h.inv.table_size]
  · rw [hlen]; exact h.inv.length_pos
  · intro a ha
    rw [(hpay a).1, (hpay a).2.2, hhc]
    exact h.inv.hash a (hsub a ha)
  · intro a ha b hb hab
    rw [(hpay a).1, (hpay b).1, heq] at hab
    exact h.inv.distinct a (hsub a ha) b (hsub b hb) hab
  · have hcard : 0 < s.store.live.card := Finset.card_pos.mpr ⟨e, he⟩
    rw [hsize, h.inv.size, hlive, Finset.card_erase_of_mem he, decSize]
    split <;> omega
  · refine KeyMap.set_iff ?_ ?_
    · intro v
      constructor
      · intro hv
        exact absurd hv (by simp)
      · rintro ⟨a, ha, hac, _⟩
        -- the only entry of the class is the one that was dropped
        rw [(hpay a).1] at hac
        obtain rfl : a = e := h.unique (hsub a ha) he (hac.trans hcls.symm)
        rw [hlive] at ha
        exact absurd ha (Finset.notMem_erase _ _)
    · intro c v hc
      rw [h.content c v]
      constructor
      · rintro ⟨a, ha, hac, hav⟩
        have hae : a ≠ e := by rintro rfl; exact hc (hac.symm.trans hcls)
        exact ⟨a, hlive ▸ Finset.mem_erase.mpr ⟨hae, ha⟩, by rw [(hpay a).1]; exact hac,
          by rw [(hpay a).2.1]; exact hav⟩
      · rintro ⟨a, ha, hac, hav⟩
        rw [(hpay a).1] at hac
        rw [(hpay a).2.1] at hav
        exact ⟨a, hsub a ha, hac, hav⟩

/-! What `unlink` does to the fields other than the chains. -/

section

variable (s : MapState) (i : Nat) (prev e : Ptr)

theorem unlink_live : (unlink s i prev e).store.live = s.store.live.erase e := by
  unfold unlink
  split <;> rfl

theorem unlink_hashCode : (unlink s i prev e).map.hashCode = s.map.hashCode := by
  unfold unlink
  split <;> rfl

theorem unlink_equals : (unlink s i prev e).map.equals = s.map.equals := by
  unfold unlink
  split <;> rfl

theorem unlink_length : (unlink s i prev e).map.length = s.map.length := by
  unfold unlink
  split <;> rfl

theorem unlink_size : (unlink s i prev e).map.size = decSize s.map.size := by
  unfold unlink
  split <;> rfl

theorem unlink_table_size : (unlink s i prev e).map.table.size = s.map.table.size := by
  unfold unlink
  split
  · exact Array.size_setIfInBounds ..
  · rfl

end

/-- Which nodes are left in the bucket of the unlinked node. -/
theorem mem_bucket_drop {σ : Store} {nodes : Finset Ptr} {size i : Nat} {e : Ptr}
    {l₁ l₂ : List Ptr} (hnd : (l₁ ++ e :: l₂).Nodup)
    (hmem : ∀ a, a ∈ l₁ ++ e :: l₂ ↔ a ∈ nodes ∧ (σ.entry a).hash.toNat % size = i) (a : Ptr) :
    a ∈ l₁ ++ l₂ ↔ a ≠ e ∧ a ∈ nodes ∧ (σ.entry a).hash.toNat % size = i := by
  have hne : e ∉ l₁ ++ l₂ := (List.nodup_cons.mp (List.nodup_middle.mp hnd)).1
  rw [← hmem a, List.mem_append, List.mem_append, List.mem_cons]
  constructor
  · intro ha
    refine ⟨?_, by tauto⟩
    rintro rfl
    exact hne (List.mem_append.mpr ha)
  · rintro ⟨hae, ha⟩
    tauto

/-- **`unlink` drops the entry `e` of `key`**, from the head of its bucket or
from behind another entry. -/
theorem unlink_represents {K : KeyLaws hashCode equals} {s : MapState} {m : KeyMap K}
    (h : Represents K s m) {key e : Ptr} {i : Nat} {l₁ l₂ : List Ptr}
    (hi : i < s.map.table.size) (hl : Chain s.store.next (s.map.table.getD i NULL) (l₁ ++ e :: l₂))
    (hnd : (l₁ ++ e :: l₂).Nodup)
    (hmem : ∀ a, a ∈ l₁ ++ e :: l₂ ↔
      a ∈ s.store.live ∧ (s.store.entry a).hash.toNat % s.map.table.size = i)
    (hcls : K.cls (s.store.entry e).key = K.cls key) :
    Represents K (unlink s i (l₁.getLast?.getD NULL) e) (m.set key none) := by
  obtain ⟨he, hei⟩ := (hmem e).mp (by simp)
  have hnd' : (l₁ ++ l₂).Nodup := (List.nodup_cons.mp (List.nodup_middle.mp hnd)).2
  have hmem' := mem_bucket_drop hnd hmem
  rcases List.eq_nil_or_concat l₁ with rfl | ⟨l₁, prev, rfl⟩
  · -- the entry heads its bucket: the table slot is rewritten
    have hl' : Chain (s.store.free e).next
        ((s.map.table.setIfInBounds i (s.store.next e)).getD i NULL) l₂ := by
      rw [getD_set_self hi, free_next]
      exact hl.2.2
    have hb : Bucketed (s.store.free e) (s.map.table.setIfInBounds i (s.store.next e))
        (s.store.live.erase e) :=
      bucketed_drop h.inv.buckets (Array.size_setIfInBounds ..) hei (fun _ => rfl) hl' hnd' hmem'
        (fun j hj => getD_set_ne (Ne.symm hj) _) fun a _ => congrFun (free_next ..) a
    exact dropEntry_represents h he hcls (unlink_live ..) (fun _ => ⟨rfl, rfl, rfl⟩)
      (unlink_hashCode ..) (unlink_equals ..) (unlink_length ..) (unlink_table_size ..)
      (unlink_size ..) hb
  · -- the entry follows `prev`, whose `next` is rewritten
    rw [List.concat_eq_append] at hl hnd hmem hmem' hnd' ⊢
    have hpl : prev ∈ l₁ ++ [prev] ++ e :: l₂ := by simp
    have hprev : prev ≠ NULL := chain_mem_ne hl prev hpl
    rw [List.getLast?_append, List.getLast?_singleton, Option.some_or, Option.getD_some]
    let σ' : Store := s.store.write prev { s.store.entry prev with next := s.store.next e }
    have hself : σ'.entry prev = { s.store.entry prev with next := s.store.next e } :=
      write_entry_self ..
    have hoth : ∀ a, a ≠ prev → σ'.entry a = s.store.entry a := fun a ha => write_entry_ne _ ha
    have hpay : SamePayload s.store σ' := samePayload_relink s.store prev _
    have hl' : Chain (σ'.free e).next (s.map.table.getD i NULL) (l₁ ++ prev :: l₂) := by
      rw [free_next]
      refine chain_unlink (by simpa using hl) (by simpa using hnd) ?_ ?_
      · unfold Store.next
        rw [hself]
        rfl
      · intro c hc
        unfold Store.next
        rw [hoth c hc]
    have hb : Bucketed (σ'.free e) s.map.table (s.store.live.erase e) := by
      refine bucketed_drop h.inv.buckets rfl hei (fun a => (hpay a).2.2) hl'
        (by simpa using hnd') (fun a => ?_) (fun _ _ => rfl) fun a ha => ?_
      · rw [List.append_cons]
        exact hmem' a
      · rw [free_next]
        unfold Store.next
        rw [hoth a (by rintro rfl; exact ha ((hmem a).mp hpl).2)]
    have hstore : (unlink s i prev e).store = σ'.free e := by rw [unlink, if_neg hprev]
    have htable : (unlink s i prev e).map.table = s.map.table := by rw [unlink, if_neg hprev]
    refine dropEntry_represents h he hcls (unlink_live ..) (by rw [hstore]; exact hpay)
      (unlink_hashCode ..) (unlink_equals ..) (unlink_length ..) (unlink_table_size ..)
      (unlink_size ..) ?_
    rw [unlink_live, hstore, htable]
    exact hb

/-- `remove` unmaps the class of the key and returns what it was mapped to. -/
theorem remove_spec {K : KeyLaws hashCode equals} {s : MapState} {m : KeyMap K}
    (h : Represents K s m) (key : Ptr) :
    ∃ s', remove s key = some (s', (m (K.cls key)).getD NULL) ∧
      Represents K s' (m.set key none) := by
  have hidx : s.map.index key < s.map.table.size := by
    rw [h.inv.table_size]; exact Nat.mod_lt _ h.inv.length_pos
  obtain ⟨l, hl, hnd, hmem⟩ := h.inv.buckets _ hidx
  have hfuel : l.length < s.store.fuel := length_lt_fuel hnd fun a ha => ((hmem a).mp ha).1
  -- an entry of the key's class is in the bucket that is walked
  have hbucket : ∀ a ∈ s.store.live, K.cls (s.store.entry a).key = K.cls key → a ∈ l := by
    intro a ha hac
    refine (hmem a).mpr ⟨ha, ?_⟩
    rw [h.inv.hash a ha, h.hashCode_eq, K.hash_eq _ _ (K.cls_eq.mp hac), h.inv.table_size,
      HashMap.index, h.hashCode_eq]
  unfold remove
  dsimp only
  cases hf : l.find? fun e => s.map.equals (s.store.entry e).key key with
  | none =>
    have hno : ∀ a ∈ l, s.map.equals (s.store.entry a).key key = false := fun a ha => by
      simpa using List.find?_eq_none.mp hf a ha
    have hnokey : ∀ a ∈ s.store.live, K.cls (s.store.entry a).key ≠ K.cls key := by
      intro a ha hac
      have := hno a (hbucket a ha hac)
      rw [h.equals_eq, K.cls_eq.mp hac] at this
      exact absurd this (by simp)
    have hm := h.eq_none hnokey
    obtain ⟨q, hq⟩ : ∃ q, findWithPrev s.store
        (fun a => s.map.equals (s.store.entry a).key key) s.store.fuel NULL
        (s.map.table.getD (s.map.index key) NULL) = some (q, NULL) :=
      findWithPrev_none _ l hl hfuel hno
    refine ⟨s, by rw [hq, hm]; rfl, ?_⟩
    rw [KeyMap.set_none_of_none hm]
    exact h
  | some e =>
    obtain ⟨hhit, l₁, l₂, rfl, hno⟩ := List.find?_eq_some_iff_append.mp hf
    have hhit : s.map.equals (s.store.entry e).key key = true := by simpa using hhit
    have hno : ∀ a ∈ l₁, s.map.equals (s.store.entry a).key key = false := fun a ha => by
      simpa using hno a ha
    have hel : e ∈ l₁ ++ e :: l₂ := by simp
    have he : e ∈ s.store.live := ((hmem e).mp hel).1
    have hnull : e ≠ NULL := chain_mem_ne hl e hel
    have hcls : K.cls (s.store.entry e).key = K.cls key := by
      refine K.cls_eq.mpr ?_
      rw [← h.equals_eq]
      exact hhit
    have hm : m (K.cls key) = some (s.store.entry e).value :=
      (h.content _ _).mpr ⟨e, he, hcls, rfl⟩
    have hlen : l₁.length < s.store.fuel := by
      rw [List.length_append, List.length_cons] at hfuel; omega
    have hwalk : findWithPrev s.store (fun a => s.map.equals (s.store.entry a).key key)
        s.store.fuel NULL (s.map.table.getD (s.map.index key) NULL)
          = some (l₁.getLast?.getD NULL, e) :=
      findWithPrev_some (fun a => s.map.equals (s.store.entry a).key key) hhit l₁ hl hlen hno
    refine ⟨unlink s (s.map.index key) (l₁.getLast?.getD NULL) e, ?_, ?_⟩
    · rw [hwalk, hm, Option.bind_eq_bind, Option.bind_some, if_neg hnull]
      rfl
    · exact unlink_represents h hidx hl hnd hmem hcls

/-! ## `clear` -/

/-- Freeing one bucket. -/
theorem freeBucket_spec :
    ∀ (l : List Ptr) {fuel : Nat} {p : Ptr} {σ : Store}, Chain σ.next p l → l.length < fuel →
      freeBucket fuel p σ = some { σ with live := σ.live \ l.toFinset } := by
  intro l
  induction l with
  | nil =>
    intro fuel p σ hl hf
    obtain ⟨fuel, rfl⟩ : ∃ f, fuel = f + 1 := ⟨fuel - 1, by simp at hf; omega⟩
    rw [freeBucket, if_pos (show p = NULL from hl), List.toFinset_nil, Finset.sdiff_empty]
  | cons a l ih =>
    intro fuel p σ hl hf
    obtain ⟨fuel, rfl⟩ : ∃ f, fuel = f + 1 := ⟨fuel - 1, by omega⟩
    obtain ⟨rfl, hnull, hl'⟩ := hl
    rw [freeBucket, if_neg hnull]
    have hrec : freeBucket fuel (σ.next p) (σ.free p)
        = some { σ.free p with live := (σ.free p).live \ l.toFinset } :=
      ih (by rw [free_next]; exact hl') (by rw [List.length_cons] at hf; omega)
    have hset : σ.live.erase p \ l.toFinset = σ.live \ (p :: l).toFinset := by
      ext b
      simp only [Finset.mem_sdiff, Finset.mem_erase, List.toFinset_cons, Finset.mem_insert]
      tauto
    rw [hrec, free_live, hset]
    rfl

/-- What is left when the bucket `i` is dropped. -/
theorem bucketed_clear {σ : Store} {table : Array Ptr} {live : Finset Ptr} {i : Nat}
    (hb : Bucketed σ table σ.live)
    (hlive : ∀ a, a ∈ live ↔ a ∈ σ.live ∧ (σ.entry a).hash.toNat % table.size ≠ i) :
    Bucketed { σ with live := live } (table.setIfInBounds i NULL) live := by
  intro j hj
  rw [Array.size_setIfInBounds] at hj ⊢
  by_cases hij : i = j
  · -- the bucket itself
    subst hij
    refine ⟨[], ?_, List.nodup_nil, fun a => ?_⟩
    · rw [getD_set_self hj]
      rfl
    · rw [hlive a]
      simp only [List.not_mem_nil, false_iff, not_and]
      rintro ⟨_, h1⟩ h2
      exact h1 h2
  · obtain ⟨l', hl', hnd', hmem'⟩ := hb j hj
    refine ⟨l', ?_, hnd', fun a => ?_⟩
    · rw [getD_set_ne hij]
      exact hl'
    · rw [hlive a, hmem' a]
      constructor
      · rintro ⟨h1, h2⟩
        exact ⟨⟨h1, fun h3 => hij (h3.symm.trans h2)⟩, h2⟩
      · rintro ⟨⟨h1, _⟩, h2⟩
        exact ⟨h1, h2⟩

/-- Clearing the buckets from `i` on, given that those before `i` are empty. -/
theorem clearFrom_spec :
    ∀ (n : Nat) {i : Nat} {s : MapState}, i + n = s.map.table.size → 0 < s.map.table.size →
      Bucketed s.store s.map.table s.store.live →
      (∀ a ∈ s.store.live, i ≤ (s.store.entry a).hash.toNat % s.map.table.size) →
      ∃ s', clearFrom n i s = some s' ∧ s'.store.live = ∅ ∧
        s'.map.table.size = s.map.table.size ∧ s'.map.length = s.map.length ∧
        s'.map.hashCode = s.map.hashCode ∧ s'.map.equals = s.map.equals ∧
        Bucketed s'.store s'.map.table ∅ := by
  intro n
  induction n with
  | zero =>
    intro i s hin hpos hb hge
    have hempty : s.store.live = ∅ := by
      refine Finset.eq_empty_of_forall_notMem fun a ha => ?_
      have h1 := hge a ha
      have h2 := Nat.mod_lt (s.store.entry a).hash.toNat hpos
      omega
    exact ⟨s, rfl, hempty, rfl, rfl, rfl, rfl, hempty ▸ hb⟩
  | succ n ih =>
    intro i s hin hpos hb hge
    obtain ⟨l, hl, hnd, hmem⟩ := hb i (by omega)
    have hfuel : l.length < s.store.fuel := length_lt_fuel hnd fun a ha => ((hmem a).mp ha).1
    have hlive : ∀ a, a ∈ s.store.live \ l.toFinset ↔
        a ∈ s.store.live ∧ (s.store.entry a).hash.toNat % s.map.table.size ≠ i := by
      intro a
      rw [Finset.mem_sdiff, List.mem_toFinset, hmem a]
      tauto
    let s₁ : MapState :=
      { store := { s.store with live := s.store.live \ l.toFinset }
        map := { s.map with table := s.map.table.setIfInBounds i NULL } }
    have hsz : s₁.map.table.size = s.map.table.size := Array.size_setIfInBounds ..
    have hb₁ : Bucketed s₁.store s₁.map.table s₁.store.live := bucketed_clear hb hlive
    obtain ⟨s', hrun, hl', hsz', hlen', hhc', heq', hb'⟩ :=
      ih (by rw [hsz]; omega : i + 1 + n = s₁.map.table.size) (by rw [hsz]; exact hpos) hb₁
        (fun a ha => by
          rw [hsz]
          obtain ⟨h1, h2⟩ := (hlive a).mp ha
          have h3 := hge a h1
          show i + 1 ≤ (s.store.entry a).hash.toNat % s.map.table.size
          omega)
    refine ⟨s', ?_, hl', hsz'.trans hsz, hlen', hhc', heq', hb'⟩
    rw [clearFrom, freeBucket_spec l hl hfuel]
    exact hrun

/-- `clear` unmaps every key. -/
theorem clear_spec {K : KeyLaws hashCode equals} {s : MapState} {m : KeyMap K}
    (h : Represents K s m) :
    ∃ s', clear s = some s' ∧ Represents K s' fun _ => none := by
  obtain ⟨s₁, hrun, hlive, hsz, hlen, hhc, heq, hb⟩ :=
    clearFrom_spec s.map.length (by rw [h.inv.table_size]; omega : 0 + s.map.length = _)
      (by rw [h.inv.table_size]; exact h.inv.length_pos) h.inv.buckets fun _ _ => Nat.zero_le _
  have hno : ∀ a, a ∉ s₁.store.live := by intro a ha; rw [hlive] at ha; exact absurd ha (by simp)
  refine ⟨{ s₁ with map := { s₁.map with size := 0 } }, by unfold clear; rw [hrun]; rfl, ⟨⟨hno _, ?_, ?_, ?_, fun a ha => absurd ha (hno a),
    fun a ha => absurd ha (hno a), ?_⟩, hhc.trans h.hashCode_eq, heq.trans h.equals_eq, ?_⟩⟩
  · exact hsz.trans (h.inv.table_size.trans hlen.symm)
  · show 0 < s₁.map.length
    rw [hlen]; exact h.inv.length_pos
  · show Bucketed s₁.store s₁.map.table s₁.store.live
    rw [hlive]; exact hb
  · show 0 = s₁.store.live.card % 2 ^ 32
    rw [hlive]; rfl
  · intro c v
    constructor
    · intro hv; exact absurd hv (by simp)
    · rintro ⟨a, ha, _⟩; exact absurd ha (hno a)

end DevopsBroker.Adt
