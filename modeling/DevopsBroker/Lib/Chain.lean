import Mathlib.Data.List.Nodup
import Mathlib.Logic.Function.Basic

/-!
# Null-terminated chains in a pointer heap

A heap gives every pointer a `next` pointer; `Chain next p l` says that
following `next` from `p` visits exactly the nodes of `l` and then meets the
null pointer `0`. The lemmas are the ones an in-place list algorithm needs:

- `chain_congr`: writes outside the chain leave it alone (the frame rule);
- `chain_push`: linking a new node in front;
- `chain_unlink`: taking a node out of the middle by rewriting the `next` of
  the node before it;
- `chain_search`: a fuelled walk that stops at the first node with a property
  is `List.find?` on the chain, as soon as the fuel exceeds its length.
-/

namespace DevopsBroker.Lib

/-- Following `next` from `p` visits the nodes `l`, in order, and ends at `0`. -/
def Chain (next : Nat → Nat) : Nat → List Nat → Prop
  | p, [] => p = 0
  | p, a :: l => p = a ∧ a ≠ 0 ∧ Chain next (next a) l

@[simp] theorem chain_nil {next : Nat → Nat} {p : Nat} : Chain next p [] ↔ p = 0 := Iff.rfl

@[simp] theorem chain_cons {next : Nat → Nat} {p a : Nat} {l : List Nat} :
    Chain next p (a :: l) ↔ p = a ∧ a ≠ 0 ∧ Chain next (next a) l := Iff.rfl

/-- **Frame rule.** A chain only reads the `next` of its own nodes. -/
theorem chain_congr {next next' : Nat → Nat} :
    ∀ {l : List Nat} {p : Nat}, (∀ a ∈ l, next' a = next a) → Chain next p l → Chain next' p l := by
  intro l
  induction l with
  | nil => intro p _ h; exact h
  | cons a l ih =>
    intro p heq h
    obtain ⟨hp, ha, hl⟩ := h
    refine ⟨hp, ha, ?_⟩
    rw [heq a (List.mem_cons_self ..)]
    exact ih (fun b hb => heq b (List.mem_cons_of_mem _ hb)) hl

/-- No node of a chain is the null pointer. -/
theorem chain_mem_ne {next : Nat → Nat} :
    ∀ {l : List Nat} {p : Nat}, Chain next p l → ∀ a ∈ l, a ≠ 0 := by
  intro l
  induction l with
  | nil => intro p _ a ha; cases ha
  | cons b l ih =>
    intro p h a ha
    rcases List.mem_cons.mp ha with rfl | ha'
    · exact h.2.1
    · exact ih h.2.2 a ha'

/-- Linking the fresh node `a` in front of a chain. -/
theorem chain_push {next next' : Nat → Nat} {p a : Nat} {l : List Nat}
    (h : Chain next p l) (ha : a ≠ 0) (hna : next' a = p) (hl : ∀ b ∈ l, next' b = next b) :
    Chain next' a (a :: l) := by
  refine ⟨rfl, ha, ?_⟩
  rw [hna]
  exact chain_congr hl h

/-- Unlinking the node `b` that follows `a`: rewriting the `next` of `a` to the
`next` of `b` drops `b` from the chain and moves nothing else. -/
theorem chain_unlink {next next' : Nat → Nat} {a b : Nat} {l₂ : List Nat} :
    ∀ {l₁ : List Nat} {p : Nat}, Chain next p (l₁ ++ a :: b :: l₂) →
      (l₁ ++ a :: b :: l₂).Nodup → next' a = next b → (∀ c, c ≠ a → next' c = next c) →
      Chain next' p (l₁ ++ a :: l₂) := by
  intro l₁
  induction l₁ with
  | nil =>
    intro p h hnd hab hoth
    obtain ⟨hp, ha, _, _, hl⟩ := h
    refine ⟨hp, ha, ?_⟩
    rw [hab]
    refine chain_congr (fun c hc => hoth c ?_) hl
    rintro rfl
    exact (List.nodup_cons.mp hnd).1 (List.mem_cons_of_mem _ hc)
  | cons d l₁ ih =>
    intro p h hnd hab hoth
    obtain ⟨hp, hd, hl⟩ := h
    have hda : d ≠ a := by
      rintro rfl
      exact (List.nodup_cons.mp hnd).1 (by simp)
    refine ⟨hp, hd, ?_⟩
    rw [hoth d hda]
    exact ih hl (List.nodup_cons.mp hnd).2 hab hoth

/-- Walk a chain to the first node satisfying `hit`; `0` when there is none and
`none` when the fuel runs out first. -/
def search (next : Nat → Nat) (hit : Nat → Bool) : Nat → Nat → Option Nat
  | 0, _ => none
  | fuel + 1, p =>
    if p = 0 then some 0 else if hit p then some p else search next hit fuel (next p)

/-- With more fuel than nodes, the walk is `List.find?` on the chain. -/
theorem chain_search {next : Nat → Nat} {hit : Nat → Bool} :
    ∀ {l : List Nat} {p fuel : Nat}, Chain next p l → l.length < fuel →
      search next hit fuel p = some ((l.find? hit).getD 0) := by
  intro l
  induction l with
  | nil =>
    intro p fuel h hf
    obtain ⟨fuel, rfl⟩ : ∃ f, fuel = f + 1 := ⟨fuel - 1, by simp at hf; omega⟩
    simp [search, show p = 0 from h]
  | cons a l ih =>
    intro p fuel h hf
    obtain ⟨fuel, rfl⟩ : ∃ f, fuel = f + 1 := ⟨fuel - 1, by omega⟩
    obtain ⟨rfl, ha, hl⟩ := h
    rw [search, if_neg ha]
    by_cases hh : hit p = true
    · rw [if_pos hh, List.find?_cons_of_pos hh]
      rfl
    · rw [if_neg hh, List.find?_cons_of_neg hh]
      exact ih hl (by rw [List.length_cons] at hf; omega)

end DevopsBroker.Lib
