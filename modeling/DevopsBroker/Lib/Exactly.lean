import Mathlib.Logic.Basic
import Mathlib.Tactic.ByContra

/-!
# Computations that come back exactly when

`Exactly P Q x` says of a computation that can fail: it comes back exactly when `P` holds, and
`Q` holds of what it comes back with. The rules are one for each way to put computations
together.
-/

namespace DevopsBroker.Lib

variable {α β : Type}

/-- The computation comes back if and only if `P` holds, with a result that `Q` holds of. -/
structure Exactly (P : Prop) (Q : α → Prop) (x : Option α) : Prop where
  comes : P → ∃ a, x = some a ∧ Q a
  fails : ¬ P → x = none

namespace Exactly

variable {P P' : Prop} {Q Q' : α → Prop} {R : β → Prop} {x y : Option α}

theorem some {a : α} (h : Q a) : Exactly True Q (some a) :=
  ⟨fun _ => ⟨a, rfl, h⟩, fun hno => absurd trivial hno⟩

/-- What comes back under a condition that holds. -/
theorem always {a : α} (hp : P) (h : Q a) : Exactly P Q (Option.some a) :=
  ⟨fun _ => ⟨a, rfl, h⟩, fun hno => absurd hp hno⟩

theorem none : Exactly False Q (none : Option α) :=
  ⟨fun hno => absurd hno id, fun _ => rfl⟩

/-- The condition in other words, and a weaker property of the result. -/
theorem imp (h : Exactly P Q x) (hiff : P ↔ P') (hpost : ∀ a, Q a → Q' a) : Exactly P' Q' x := by
  refine ⟨fun hp => ?_, fun hp => h.fails fun hp' => hp (hiff.mp hp')⟩
  obtain ⟨a, hx, ha⟩ := h.comes (hiff.mpr hp)
  exact ⟨a, hx, hpost a ha⟩

theorem cond (h : Exactly P Q x) (hiff : P ↔ P') : Exactly P' Q x := h.imp hiff fun _ ha => ha

/-- **One computation after the other.** -/
theorem bind {f : α → Option β} (h : Exactly P Q x) (hf : ∀ a, Q a → Exactly P' R (f a)) :
    Exactly (P ∧ P') R (x.bind f) := by
  refine ⟨fun hp => ?_, fun hp => ?_⟩
  · obtain ⟨a, hx, ha⟩ := h.comes hp.1
    obtain ⟨b, hb, hpost⟩ := (hf a ha).comes hp.2
    exact ⟨b, by rw [hx]; exact hb, hpost⟩
  · by_cases hfirst : P
    · obtain ⟨a, hx, ha⟩ := h.comes hfirst
      rw [hx]
      exact (hf a ha).fails fun hsecond => hp ⟨hfirst, hsecond⟩
    · rw [h.fails hfirst]
      rfl

/-- A computation that always comes back, in front. -/
theorem bind_some {f : α → Option β} {a : α} (hx : x = Option.some a) (h : Exactly P R (f a)) :
    Exactly P R (x.bind f) := by
  rw [hx]
  exact h

/-- What always comes back, at the end. -/
theorem bind_pure {f : α → β} (h : Exactly P Q x) (hf : ∀ a, Q a → R (f a)) :
    Exactly P R (x.bind fun a => Option.some (f a)) :=
  (h.bind fun a ha => some (hf a ha)).cond (iff_of_eq (and_true P))

theorem map {f : α → β} (h : Exactly P Q x) (hf : ∀ a, Q a → R (f a)) : Exactly P R (x.map f) := by
  refine ⟨fun hp => ?_, fun hno => ?_⟩
  · obtain ⟨a, hx, ha⟩ := h.comes hp
    exact ⟨f a, by rw [hx]; rfl, hf a ha⟩
  · rw [h.fails hno]
    rfl

/-- A test that has to succeed. -/
theorem guard {c : Prop} [Decidable c] {a : α} (h : c → Q a) :
    Exactly c Q (if c then Option.some a else Option.none) := by
  split
  next hc => exact ⟨fun _ => ⟨a, rfl, h hc⟩, fun hno => absurd hc hno⟩
  next hc => exact ⟨fun hyes => absurd hyes hc, fun _ => rfl⟩

/-- **A loop.** `I` is what holds after some of the items, and `P` is what it takes to come there:
no more for fewer items. -/
theorem foldlM {σ ι : Type} {f : σ → ι → Option σ} {P : List ι → Prop} {I : List ι → σ → Prop}
    (hmono : ∀ before after, P (before ++ after) → P before) (hdone : ∀ {before s}, I before s → P before)
    (items : List ι)
    (hstep : ∀ before, ∀ item ∈ items, ∀ s, I before s →
      Exactly (P (before ++ [item])) (I (before ++ [item])) (f s item)) :
    ∀ {before : List ι} {s : σ}, I before s →
      Exactly (P (before ++ items)) (I (before ++ items)) (items.foldlM f s) := by
  induction items with
  | nil =>
    intro before s h
    rw [List.append_nil]
    exact (some h).cond (iff_of_true trivial (hdone h))
  | cons item items ih =>
    intro before s h
    rw [List.append_cons]
    refine ((hstep before item List.mem_cons_self s h).bind fun s' hs' =>
      ih (fun before item hitem => hstep before item (List.mem_cons_of_mem _ hitem)) hs').cond ?_
    exact ⟨fun hp => hp.2, fun hp => ⟨hmono _ _ hp, hp⟩⟩

/-- What is known of what it comes back with in another way. -/
theorem and (h : Exactly P Q x) (hres : ∀ a, x = Option.some a → Q' a) :
    Exactly P (fun a => Q a ∧ Q' a) x := by
  refine ⟨fun hp => ?_, h.fails⟩
  obtain ⟨a, hx, ha⟩ := h.comes hp
  exact ⟨a, hx, ha, hres a hx⟩

/-- A computation that has come back. -/
theorem of_some (h : Exactly P Q x) {a : α} (hx : x = Option.some a) : P ∧ Q a := by
  have hp : P := by
    by_contra hno
    rw [h.fails hno] at hx
    cases hx
  obtain ⟨a', hx', ha⟩ := h.comes hp
  obtain rfl := Option.some.inj (hx.symm.trans hx')
  exact ⟨hp, ha⟩

/-- What it says about the computation as a whole. -/
theorem iff (h : Exactly P Q x) : (∃ a, x = Option.some a ∧ Q a) ↔ P :=
  ⟨fun ⟨_, hx, _⟩ => (h.of_some hx).1, h.comes⟩

end Exactly

/-- A loop that comes back has kept what its rounds keep. -/
theorem foldlM_keeps {σ ι : Type} {f : σ → ι → Option σ} {I : σ → Prop}
    (hstep : ∀ {s item s'}, I s → f s item = some s' → I s') (items : List ι) :
    ∀ {s s'}, I s → items.foldlM f s = some s' → I s' := by
  induction items with
  | nil =>
    intro s s' h hrun
    exact Option.some.inj hrun ▸ h
  | cons item items ih =>
    intro s s' h hrun
    rw [List.foldlM_cons] at hrun
    obtain ⟨s₁, hfirst, hrest⟩ := Option.bind_eq_some_iff.mp hrun
    exact ih (hstep h hfirst) hrest

end DevopsBroker.Lib
