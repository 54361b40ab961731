import Mathlib.Data.Finset.Insert
import Mathlib.Data.Finset.Dedup
import DevopsBroker.Adt.HashMap
import DevopsBroker.Lib.Arrays

/-!
# The hash map invariant, and what each operation does to it

`Bucketed σ table nodes` says that every bucket of the table is a chain of
exactly those `nodes` whose stored hash falls in that bucket; since the stored
hash decides the bucket, chains of different buckets are disjoint for free.
`MapInv` adds that the nodes are the allocated blocks, that stored hashes are
the hashes of the keys, that no two entries have equal keys, and that `size`
counts them.

`resize` is the hard part: it relinks blocks one by one, so half-way through a
bucket the heap holds old chains and new ones side by side. `relinkBucket_spec`
carries both through the loop by the frame rule `chain_congr`: relinking a
block writes only that block.
-/

namespace DevopsBroker.Adt

open DevopsBroker.Lib

/-- Every bucket is a chain of exactly the `nodes` whose stored hash falls in it. -/
def Bucketed (σ : Store) (table : Array Ptr) (nodes : Finset Ptr) : Prop :=
  ∀ i < table.size, ∃ l, Chain σ.next (table.getD i NULL) l ∧ l.Nodup ∧
    ∀ a, a ∈ l ↔ a ∈ nodes ∧ (σ.entry a).hash.toNat % table.size = i

/-- Relinking keeps the key, the value and the hash of every block. -/
def SamePayload (σ σ' : Store) : Prop :=
  ∀ a, (σ'.entry a).key = (σ.entry a).key ∧ (σ'.entry a).value = (σ.entry a).value ∧
    (σ'.entry a).hash = (σ.entry a).hash

theorem samePayload_refl (σ : Store) : SamePayload σ σ := fun _ => ⟨rfl, rfl, rfl⟩

theorem samePayload_trans {σ₁ σ₂ σ₃ : Store} (h₁ : SamePayload σ₁ σ₂) (h₂ : SamePayload σ₂ σ₃) :
    SamePayload σ₁ σ₃ :=
  fun a => ⟨(h₂ a).1.trans (h₁ a).1, (h₂ a).2.1.trans (h₁ a).2.1, (h₂ a).2.2.trans (h₁ a).2.2⟩

/-- The state of a map whose heap holds only its own entries. -/
structure MapInv (s : MapState) : Prop where
  null : NULL ∉ s.store.live
  table_size : s.map.table.size = s.map.length
  length_pos : 0 < s.map.length
  buckets : Bucketed s.store s.map.table s.store.live
  hash : ∀ a ∈ s.store.live, (s.store.entry a).hash = s.map.hashCode (s.store.entry a).key
  distinct : ∀ a ∈ s.store.live, ∀ b ∈ s.store.live,
    s.map.equals (s.store.entry a).key (s.store.entry b).key = true → a = b
  size : s.map.size = s.store.live.card % 2 ^ 32

/-- What the callers promise about the two function pointers. -/
structure KeyLaws (hashCode : Ptr → UInt32) (equals : Ptr → Ptr → Bool) : Prop where
  equiv : Equivalence fun a b => equals a b = true
  hash_eq : ∀ a b, equals a b = true → hashCode a = hashCode b

/-! ## Small facts about the store and the table -/

@[simp] theorem write_live (σ : Store) (a : Ptr) (e : MapEntry) : (σ.write a e).live = σ.live := rfl

@[simp] theorem write_entry_self (σ : Store) (a : Ptr) (e : MapEntry) :
    (σ.write a e).entry a = e := Function.update_self ..

theorem write_entry_ne {σ : Store} {a b : Ptr} (e : MapEntry) (h : b ≠ a) :
    (σ.write a e).entry b = σ.entry b := Function.update_of_ne h ..

/-- A new link leaves the payload of every entry. -/
theorem samePayload_relink (σ : Store) (p next : Ptr) :
    SamePayload σ (σ.write p { σ.entry p with next := next }) := by
  intro a
  by_cases hap : a = p
  · subst hap
    rw [write_entry_self]
    exact ⟨rfl, rfl, rfl⟩
  · rw [write_entry_ne _ hap]
    exact ⟨rfl, rfl, rfl⟩

@[simp] theorem free_entry (σ : Store) (a : Ptr) : (σ.free a).entry = σ.entry := rfl

@[simp] theorem free_live (σ : Store) (a : Ptr) : (σ.free a).live = σ.live.erase a := rfl

@[simp] theorem free_next (σ : Store) (a : Ptr) : (σ.free a).next = σ.next := rfl

/-- The table is never empty: an even length is incremented. -/
theorem tableLength_pos (capacity : Nat) : 0 < tableLength capacity := by
  unfold tableLength
  dsimp only
  split <;> omega

/-- A cleared table has no nodes. -/
theorem bucketed_empty (σ : Store) (n : Nat) : Bucketed σ (Array.replicate n NULL) ∅ := by
  intro i _
  refine ⟨[], ?_, List.nodup_nil, fun a => by simp⟩
  rw [getD_replicate]
  rfl

/-- Linking a new node in front of the bucket its hash falls in. -/
theorem bucketed_push {σ σ' : Store} {table : Array Ptr} {nodes : Finset Ptr} {e : Ptr} {i : Nat}
    (h : Bucketed σ table nodes) (he : e ∉ nodes) (hnull : e ≠ NULL)
    (hnext : σ'.next e = table.getD i NULL) (hi : (σ'.entry e).hash.toNat % table.size = i)
    (hoth : ∀ a, a ≠ e → σ'.entry a = σ.entry a) :
    Bucketed σ' (table.setIfInBounds i e) (insert e nodes) := by
  intro j hj
  rw [Array.size_setIfInBounds] at hj ⊢
  obtain ⟨l, hl, hnd, hmem⟩ := h j hj
  have hel : e ∉ l := fun hc => he ((hmem e).mp hc).1
  have hnx : ∀ b ∈ l, σ'.next b = σ.next b := by
    intro b hb
    unfold Store.next
    rw [hoth b (by rintro rfl; exact hel hb)]
  by_cases hij : i = j
  · subst hij
    refine ⟨e :: l, ?_, List.nodup_cons.mpr ⟨hel, hnd⟩, fun a => ?_⟩
    · rw [getD_set_self hj]
      exact chain_push hl hnull hnext hnx
    · by_cases hae : a = e
      · subst hae
        simp [hi]
      · rw [List.mem_cons, Finset.mem_insert, hoth a hae, hmem a]
        simp [hae]
  · refine ⟨l, ?_, hnd, fun a => ?_⟩
    · rw [getD_set_ne hij]
      exact chain_congr hnx hl
    · by_cases hae : a = e
      · subst hae
        simp [hel, hi, hij]
      · rw [Finset.mem_insert, hoth a hae, hmem a]
        simp [hae]

/-- `Bucketed` reads only the `next` and the `hash` of its nodes. -/
theorem bucketed_congr {σ σ' : Store} {table : Array Ptr} {nodes : Finset Ptr}
    (h : Bucketed σ table nodes) (hnext : ∀ a ∈ nodes, σ'.next a = σ.next a)
    (hhash : ∀ a, (σ'.entry a).hash = (σ.entry a).hash) : Bucketed σ' table nodes := by
  intro i hi
  obtain ⟨l, hl, hnd, hmem⟩ := h i hi
  refine ⟨l, chain_congr (fun a ha => hnext a ((hmem a).mp ha).1) hl, hnd, fun a => ?_⟩
  rw [hhash a, hmem a]

/-- A chain of allocated blocks is shorter than the fuel. -/
theorem length_lt_fuel {σ : Store} {l : List Ptr} (hnd : l.Nodup) (hsub : ∀ a ∈ l, a ∈ σ.live) :
    l.length < σ.fuel := by
  have hcard : l.toFinset.card = l.length := List.toFinset_card_of_nodup hnd
  have hle : l.toFinset.card ≤ σ.live.card :=
    Finset.card_le_card fun a ha => hsub a (List.mem_toFinset.mp ha)
  unfold Store.fuel
  omega

/-! ## The search loop -/

/-- The search returns the entry with an equal key, or `NULL` when there is none. -/
theorem findEntry_spec {s : MapState} (hK : KeyLaws s.map.hashCode s.map.equals) (h : MapInv s)
    (key : Ptr) :
    ∃ e, findEntry s key = some e ∧
      ((e = NULL ∧ ∀ a ∈ s.store.live, s.map.equals (s.store.entry a).key key = false) ∨
       (e ≠ NULL ∧ e ∈ s.store.live ∧ s.map.equals (s.store.entry e).key key = true)) := by
  have hidx : s.map.index key < s.map.table.size := by
    rw [h.table_size]; exact Nat.mod_lt _ h.length_pos
  obtain ⟨l, hl, hnd, hmem⟩ := h.buckets _ hidx
  have hfuel : l.length < s.store.fuel := length_lt_fuel hnd fun a ha => ((hmem a).mp ha).1
  refine ⟨_, chain_search hl hfuel, ?_⟩
  cases hf : l.find? fun e => s.map.equals (s.store.entry e).key key with
  | none =>
    refine Or.inl ⟨rfl, fun a ha => ?_⟩
    by_contra hne
    have heq : s.map.equals (s.store.entry a).key key = true := by simpa using hne
    -- equal keys hash alike, so `a` would be in the bucket that was searched
    have hal : a ∈ l := by
      refine (hmem a).mpr ⟨ha, ?_⟩
      rw [h.hash a ha, hK.hash_eq _ _ heq, h.table_size]
      rfl
    exact absurd heq (by simpa using List.find?_eq_none.mp hf a hal)
  | some e =>
    have hel : e ∈ l := List.mem_of_find?_eq_some hf
    have heq : s.map.equals (s.store.entry e).key key = true := by
      simpa using List.find?_some hf
    exact Or.inr ⟨chain_mem_ne hl e hel, ((hmem e).mp hel).1, heq⟩

/-! ## `resize` -/

/-- Relinking one old bucket `l` moves its nodes into the new table and writes
no other block. -/
theorem relinkBucket_spec :
    ∀ (l : List Ptr) {fuel : Nat} {p : Ptr} {σ : Store} {table : Array Ptr} {nodes : Finset Ptr},
      Chain σ.next p l → l.Nodup → (∀ a ∈ l, a ∉ nodes) → l.length < fuel → 0 < table.size →
      Bucketed σ table nodes →
      ∃ σ' table', relinkBucket fuel p (σ, table) = some (σ', table') ∧
        table'.size = table.size ∧ σ'.live = σ.live ∧ SamePayload σ σ' ∧
        (∀ a, a ∉ l → σ'.entry a = σ.entry a) ∧ Bucketed σ' table' (nodes ∪ l.toFinset) := by
  intro l
  induction l with
  | nil =>
    intro fuel p σ table nodes hl _ _ hf _ hb
    obtain ⟨fuel, rfl⟩ : ∃ f, fuel = f + 1 := ⟨fuel - 1, by simp at hf; omega⟩
    refine ⟨σ, table, ?_, rfl, rfl, samePayload_refl σ, fun a _ => rfl, by simpa using hb⟩
    rw [relinkBucket, if_pos (show p = NULL from hl)]
  | cons e l ih =>
    intro fuel p σ table nodes hl hnd hdisj hf hpos hb
    obtain ⟨fuel, rfl⟩ : ∃ f, fuel = f + 1 := ⟨fuel - 1, by omega⟩
    obtain ⟨rfl, hnull, hl'⟩ := hl
    obtain ⟨hpl, hnd'⟩ := List.nodup_cons.mp hnd
    have hpn : p ∉ nodes := hdisj p (List.mem_cons_self ..)
    let i := (σ.entry p).hash.toNat % table.size
    let σ₁ : Store := (linkFront σ table i p).1
    have hoth : ∀ a, a ≠ p → σ₁.entry a = σ.entry a := fun a ha => write_entry_ne _ ha
    have hself : σ₁.entry p = { σ.entry p with next := table.getD i NULL } := write_entry_self ..
    have hpay : SamePayload σ σ₁ := samePayload_relink σ p _
    have hb₁ : Bucketed σ₁ (table.setIfInBounds i p) (insert p nodes) :=
      bucketed_push hb hpn hnull (by unfold Store.next; rw [hself]) (by rw [hself]) hoth
    -- the rest of the old bucket does not contain `p`, so its chain survives the write
    have hl₁ : Chain σ₁.next (σ.next p) l := by
      refine chain_congr (fun a ha => ?_) hl'
      unfold Store.next
      rw [hoth a (by rintro rfl; exact hpl ha)]
    obtain ⟨σ', table', hrun, hsz, hlive, hpay', hout, hb'⟩ :=
      ih hl₁ hnd'
        (fun a ha hc => by
          rcases Finset.mem_insert.mp hc with rfl | hc
          · exact hpl ha
          · exact hdisj a (List.mem_cons_of_mem _ ha) hc)
        (by rw [List.length_cons] at hf; omega : l.length < fuel)
        (by rw [Array.size_setIfInBounds]; exact hpos) hb₁
    refine ⟨σ', table', ?_, ?_, hlive, samePayload_trans hpay hpay', fun a ha => ?_, ?_⟩
    · rw [relinkBucket, if_neg hnull]
      exact hrun
    · rw [hsz, Array.size_setIfInBounds]
    · rw [List.mem_cons, not_or] at ha
      rw [hout a ha.2, hoth a ha.1]
    · have hset : nodes ∪ (p :: l).toFinset = insert p nodes ∪ l.toFinset := by
        ext a; simp only [List.toFinset_cons, Finset.mem_union, Finset.mem_insert]; tauto
      rw [hset]
      exact hb'

/-- The buckets `i, i + 1, …` of the old table, still to be relinked. -/
def OldBuckets (σ : Store) (old : Array Ptr) (nodes : Finset Ptr) (i : Nat) : Prop :=
  ∀ j, i ≤ j → j < old.size → ∃ l, Chain σ.next (old.getD j NULL) l ∧ l.Nodup ∧
    ∀ a, a ∈ l ↔ a ∈ nodes ∧ (σ.entry a).hash.toNat % old.size = j

/-- Relinking the old buckets from `i` on, given that the nodes of the buckets
before `i` are in the new table already. -/
theorem relinkFrom_spec {old : Array Ptr} :
    ∀ (n : Nat) {i : Nat} {σ : Store} {table : Array Ptr}, i + n = old.size → 0 < table.size →
      OldBuckets σ old σ.live i →
      Bucketed σ table (σ.live.filter fun a => (σ.entry a).hash.toNat % old.size < i) →
      ∃ σ' table', relinkFrom old n i (σ, table) = some (σ', table') ∧
        table'.size = table.size ∧ σ'.live = σ.live ∧ SamePayload σ σ' ∧
        Bucketed σ' table' (σ.live.filter fun a => (σ.entry a).hash.toNat % old.size < i + n) := by
  intro n
  induction n with
  | zero =>
    intro i σ table _ _ _ hb
    exact ⟨σ, table, rfl, rfl, rfl, samePayload_refl σ, hb⟩
  | succ n ih =>
    intro i σ table hin hpos hold hb
    obtain ⟨l, hl, hnd, hmem⟩ := hold i (Nat.le_refl _) (by omega)
    have hfuel : l.length < σ.fuel := length_lt_fuel hnd fun a ha => ((hmem a).mp ha).1
    obtain ⟨σ₁, table₁, hrun, hsz₁, hlive₁, hpay₁, hout₁, hb₁⟩ :=
      relinkBucket_spec l hl hnd
        (fun a ha hc => by
          have h1 := ((hmem a).mp ha).2
          have h2 := (Finset.mem_filter.mp hc).2
          omega) hfuel hpos hb
    have hhash : ∀ a, (σ₁.entry a).hash = (σ.entry a).hash := fun a => (hpay₁ a).2.2
    have hset : (σ.live.filter fun a => (σ.entry a).hash.toNat % old.size < i) ∪ l.toFinset
        = σ₁.live.filter fun a => (σ₁.entry a).hash.toNat % old.size < i + 1 := by
      ext a
      simp only [Finset.mem_union, Finset.mem_filter, List.mem_toFinset, hmem a, hlive₁, hhash a]
      constructor
      · rintro (⟨h1, h2⟩ | ⟨h1, h2⟩)
        · exact ⟨h1, by omega⟩
        · exact ⟨h1, by omega⟩
      · rintro ⟨h1, h2⟩
        rcases Nat.lt_or_ge ((σ.entry a).hash.toNat % old.size) i with hlt | hge
        · exact Or.inl ⟨h1, hlt⟩
        · exact Or.inr ⟨h1, by omega⟩
    rw [hset] at hb₁
    -- the later old buckets share no node with bucket `i`
    have hold₁ : OldBuckets σ₁ old σ₁.live (i + 1) := by
      intro j hj hjo
      obtain ⟨l', hl', hnd', hmem'⟩ := hold j (by omega) hjo
      refine ⟨l', chain_congr (fun a ha => ?_) hl', hnd', fun a => ?_⟩
      · unfold Store.next
        rw [hout₁ a fun hc => ?_]
        have h1 := ((hmem a).mp hc).2
        have h2 := ((hmem' a).mp ha).2
        omega
      · rw [hhash a, hlive₁, hmem' a]
    obtain ⟨σ', table', hrun', hsz', hlive', hpay', hb'⟩ :=
      ih (by omega : i + 1 + n = old.size) (by rw [hsz₁]; exact hpos) hold₁ hb₁
    refine ⟨σ', table', ?_, hsz'.trans hsz₁, hlive'.trans hlive₁, samePayload_trans hpay₁ hpay', ?_⟩
    · rw [relinkFrom, hrun]
      exact hrun'
    · have hfil : (σ₁.live.filter fun a => (σ₁.entry a).hash.toNat % old.size < i + 1 + n)
          = σ.live.filter fun a => (σ.entry a).hash.toNat % old.size < i + (n + 1) := by
        rw [hlive₁]
        refine Finset.filter_congr fun a _ => ?_
        rw [hhash a, show i + 1 + n = i + (n + 1) from by omega]
      rw [← hfil]
      exact hb'

/-- `resize` keeps the entries and the invariant, and returns the bucket of
`hashCode` in the new table. -/
theorem resize_spec {s : MapState} (hsize : s.map.table.size = s.map.length)
    (hpos : 0 < s.map.length) (hbuckets : Bucketed s.store s.map.table s.store.live)
    (hashCode : UInt32) :
    ∃ s', resize s hashCode = some (s', hashCode.toNat % s'.map.length) ∧
      s'.store.live = s.store.live ∧ SamePayload s.store s'.store ∧
      s'.map.hashCode = s.map.hashCode ∧ s'.map.equals = s.map.equals ∧
      s'.map.size = s.map.size ∧ 0 < s'.map.length ∧ s'.map.table.size = s'.map.length ∧
      Bucketed s'.store s'.map.table s'.store.live := by
  let length := tableLength (s.map.capacity * 2 % 2 ^ 32)
  have hb₀ : Bucketed s.store (Array.replicate length NULL)
      (s.store.live.filter fun a => (s.store.entry a).hash.toNat % s.map.table.size < 0) := by
    rw [Finset.filter_false_of_mem fun a _ => Nat.not_lt_zero _]
    exact bucketed_empty _ _
  obtain ⟨σ', table', hrun, hsz, hlive, hpay, hb⟩ :=
    relinkFrom_spec s.map.length (by rw [hsize]; omega : 0 + s.map.length = s.map.table.size)
      (by simpa using tableLength_pos _)
      (fun j _ hj => hbuckets j hj) hb₀
  rw [Array.size_replicate] at hsz
  have hall : (s.store.live.filter fun a =>
      (s.store.entry a).hash.toNat % s.map.table.size < 0 + s.map.length) = s.store.live := by
    refine Finset.filter_true_of_mem fun a _ => ?_
    rw [hsize, Nat.zero_add]
    exact Nat.mod_lt _ hpos
  rw [hall, ← hlive] at hb
  let grown : HashMap :=
    { s.map with
      table := table'
      capacity := s.map.capacity * 2 % 2 ^ 32
      length := length }
  refine ⟨⟨σ', grown⟩, ?_, hlive, hpay, rfl, rfl, rfl, tableLength_pos _, hsz, hb⟩
  have hrun' : relinkFrom s.map.table s.map.length 0
      (s.store, Array.replicate (tableLength (s.map.capacity * 2 % 2 ^ 32)) NULL)
        = some (σ', table') := hrun
  unfold resize
  dsimp only
  rw [hrun']
  rfl

end DevopsBroker.Adt
