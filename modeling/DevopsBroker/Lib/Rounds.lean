/-!
# Loops in rounds

A round of a loop goes on with a new state, or ends the loop with a result. The loop runs on
fuel. When something that is bounded grows with every round that goes on, there is
fuel enough (`rounds_comes_back`), and then it does not matter how much (`rounds_agree`).
`Returns` says that a computation on fuel comes back, with enough of it; `ReturnsWithin` says
how much that is.
-/

namespace DevopsBroker.Lib

/-- The end of a round: go on, or return. -/
inductive Turn (σ ρ : Type) where
  | next (state : σ)
  | done (result : ρ)

section

variable {σ ρ : Type} {round : σ → Option (Turn σ ρ)}

/-- A state to go on with meets one condition, and a result the other one. -/
def Turn.Meets (Next : σ → Prop) (Done : ρ → Prop) : Turn σ ρ → Prop
  | .next state => Next state
  | .done result => Done result

/-- What follows a state to go on with, and what follows a result. -/
def Turn.elim {τ : Type} (next : σ → τ) (done : ρ → τ) : Turn σ ρ → τ
  | .next state => next state
  | .done result => done result

/-- The loop; `none` when a round does not come back, and when the fuel runs out. -/
def rounds (round : σ → Option (Turn σ ρ)) : Nat → σ → Option ρ
  | 0, _ => none
  | fuel + 1, s => (round s).bind (Turn.elim (rounds round fuel) some)

/-- The states in which a round starts. -/
inductive Reaches (round : σ → Option (Turn σ ρ)) (s₀ : σ) : σ → Prop where
  | first : Reaches round s₀ s₀
  | next {s s' : σ} : Reaches round s₀ s → round s = some (.next s') → Reaches round s₀ s'

theorem rounds_next {s s' : σ} (h : round s = some (.next s')) (fuel : Nat) :
    rounds round (fuel + 1) s = rounds round fuel s' := by
  rw [rounds, h]
  rfl

theorem rounds_done {s : σ} {result : ρ} (h : round s = some (.done result)) (fuel : Nat) :
    rounds round (fuel + 1) s = some result := by
  rw [rounds, h]
  rfl

/-- The first round of a loop that comes back. -/
theorem rounds_inv {fuel : Nat} {s : σ} {result : ρ} (h : rounds round (fuel + 1) s = some result) :
    (∃ s', round s = some (.next s') ∧ rounds round fuel s' = some result) ∨
      round s = some (.done result) := by
  rw [rounds] at h
  obtain ⟨turn, hround, h⟩ := Option.bind_eq_some_iff.mp h
  cases turn with
  | next s' => exact Or.inl ⟨s', hround, h⟩
  | done result' =>
    rw [← Option.some.inj h]
    exact Or.inr hround

/-- The round of every state that a loop gets to comes back, if the loop does. -/
theorem Reaches.round_of_rounds {fuel : Nat} {s₀ s : σ} {result : ρ} (h : Reaches round s₀ s)
    (hrun : rounds round fuel s₀ = some result) : ∃ turn, round s = some turn := by
  suffices hfrom : ∃ fuel', rounds round fuel' s = some result by
    obtain ⟨fuel', hrun'⟩ := hfrom
    cases fuel' with
    | zero => cases hrun'
    | succ fuel' =>
      rcases rounds_inv hrun' with ⟨s', hround, _⟩ | hround
      · exact ⟨_, hround⟩
      · exact ⟨_, hround⟩
  induction h with
  | first => exact ⟨fuel, hrun⟩
  | next _ hround ih =>
    obtain ⟨fuel', hrun'⟩ := ih
    cases fuel' with
    | zero => cases hrun'
    | succ fuel' => exact ⟨fuel', (rounds_next hround fuel').symm.trans hrun'⟩

/-- What every round keeps holds in every state that the loop gets to. -/
theorem Reaches.keeps {Inv : σ → Prop} {s₀ s : σ} (h : Reaches round s₀ s)
    (hkeeps : ∀ s s', Inv s → round s = some (.next s') → Inv s') (hinv : Inv s₀) : Inv s := by
  induction h with
  | first => exact hinv
  | next _ hround ih => exact hkeeps _ _ ih hround

/-- **However much fuel there is, the result is the same.** -/
theorem rounds_agree (fuel : Nat) :
    ∀ {fuel' : Nat} {s : σ} {result result' : ρ}, rounds round fuel s = some result →
      rounds round fuel' s = some result' → result = result' := by
  induction fuel with
  | zero => exact fun h => nomatch h
  | succ fuel ih =>
    intro fuel' s result result' h h'
    cases fuel' with
    | zero => cases h'
    | succ fuel' =>
      rcases rounds_inv h with ⟨s', hround, h⟩ | hround
      · rw [rounds_next hround] at h'
        exact ih h h'
      · rw [rounds_done hround] at h'
        exact Option.some.inj h'

/-- **A loop comes back** when each round does, keeps an invariant and, if it goes on, gets
further, and when there is a limit to how far that is. -/
theorem rounds_comes_back {Inv : σ → Prop} {Post : ρ → Prop} {measure : σ → Nat} {limit : Nat}
    (hround : ∀ s, Inv s →
      ∃ turn, round s = some turn ∧ turn.Meets (fun s' => Inv s' ∧ measure s < measure s') Post)
    (hlimit : ∀ s, Inv s → measure s ≤ limit) (fuel : Nat) :
    ∀ {s : σ}, Inv s → limit < fuel + measure s →
      ∃ result, rounds round fuel s = some result ∧ Post result := by
  induction fuel with
  | zero =>
    intro s hinv hfuel
    have hle := hlimit s hinv
    omega
  | succ fuel ih =>
    intro s hinv hfuel
    obtain ⟨turn, hsome, hmeets⟩ := hround s hinv
    cases turn with
    | next s' =>
      obtain ⟨hinv', hfurther⟩ := hmeets
      rw [rounds_next hsome]
      exact ih hinv' (by omega)
    | done result => exact ⟨result, rounds_done hsome fuel, hmeets⟩

/-- What every round keeps holds at the end. -/
theorem rounds_post {Inv : σ → Prop} {Post : ρ → Prop}
    (h : ∀ s turn, Inv s → round s = some turn → turn.Meets Inv Post) (fuel : Nat) :
    ∀ {s : σ} {result : ρ}, Inv s → rounds round fuel s = some result → Post result := by
  induction fuel with
  | zero => exact fun _ hrun => nomatch hrun
  | succ fuel ih =>
    intro s result hinv hrun
    rcases rounds_inv hrun with ⟨s', hround, hrun⟩ | hround
    · exact ih (h _ _ hinv hround) hrun
    · exact h _ _ hinv hround

/-- More fuel does not change a result. -/
theorem rounds_more {fuel fuel' : Nat} (hle : fuel ≤ fuel') :
    ∀ {s : σ} {result : ρ}, rounds round fuel s = some result →
      rounds round fuel' s = some result := by
  induction fuel generalizing fuel' with
  | zero => exact fun hrun => nomatch hrun
  | succ fuel ih =>
    intro s result hrun
    obtain ⟨more, rfl⟩ : ∃ more, fuel' = more + 1 := ⟨fuel' - 1, by omega⟩
    rcases rounds_inv hrun with ⟨s', hround, hrun⟩ | hround
    · rw [rounds_next hround]
      exact ih (Nat.le_of_succ_le_succ hle) hrun
    · exact rounds_done hround more

end

/-! ## Enough fuel -/

section

variable {σ α ρ : Type}

/-- With enough fuel the computation comes back, with a result that does not depend on how
much there is. -/
def Returns (run : Nat → Option ρ) (result : ρ) : Prop :=
  ∃ enough, ∀ fuel, enough ≤ fuel → run fuel = some result

/-- There is one result. -/
theorem Returns.unique {run : Nat → Option ρ} {result result' : ρ} (h : Returns run result)
    (h' : Returns run result') : result = result' := by
  obtain ⟨enough, hrun⟩ := h
  obtain ⟨enough', hrun'⟩ := h'
  have hboth := hrun (enough + enough') (Nat.le_add_right ..)
  rw [hrun' (enough + enough') (Nat.le_add_left ..)] at hboth
  exact (Option.some.inj hboth).symm

/-- What needs no fuel. -/
theorem returns_of_eq {run : Nat → Option ρ} {result : ρ} (h : ∀ fuel, run fuel = some result) :
    Returns run result := ⟨0, fun fuel _ => h fuel⟩

/-- **One computation after the other.** -/
theorem Returns.bind {run : Nat → Option α} {more : α → Nat → Option ρ} {first : α} {result : ρ}
    (h : Returns run first) (hmore : Returns (more first) result) :
    Returns (fun fuel => (run fuel).bind fun a => more a fuel) result := by
  obtain ⟨enough, hrun⟩ := h
  obtain ⟨enough', hrun'⟩ := hmore
  refine ⟨enough + enough', fun fuel hfuel => ?_⟩
  dsimp only
  rw [hrun fuel (by omega)]
  exact hrun' fuel (by omega)

/-- A result that something is made of. -/
theorem Returns.map {run : Nat → Option α} {first : α} (f : α → ρ) (h : Returns run first) :
    Returns (fun fuel => (run fuel).map f) (f first) := by
  obtain ⟨enough, hrun⟩ := h
  refine ⟨enough, fun fuel hfuel => ?_⟩
  dsimp only
  rw [hrun fuel hfuel]
  rfl

variable {round : σ → Option (Turn σ ρ)}

/-- So much fuel is enough. -/
def ReturnsWithin (enough : Nat) (run : Nat → Option ρ) (result : ρ) : Prop :=
  ∀ fuel, enough ≤ fuel → run fuel = some result

theorem ReturnsWithin.returns {enough : Nat} {run : Nat → Option ρ} {result : ρ}
    (h : ReturnsWithin enough run result) : Returns run result := ⟨enough, h⟩

theorem ReturnsWithin.more {enough enough' : Nat} {run : Nat → Option ρ} {result : ρ}
    (h : ReturnsWithin enough run result) (hle : enough ≤ enough') :
    ReturnsWithin enough' run result := fun fuel hfuel => h fuel (Nat.le_trans hle hfuel)

/-- The same fuel is enough for one computation after the other. -/
theorem ReturnsWithin.bind {enough : Nat} {run : Nat → Option α} {more : α → Nat → Option ρ}
    {first : α} {result : ρ} (h : ReturnsWithin enough run first)
    (hmore : ReturnsWithin enough (more first) result) :
    ReturnsWithin enough (fun fuel => (run fuel).bind fun a => more a fuel) result := by
  intro fuel hfuel
  dsimp only
  rw [h fuel hfuel]
  exact hmore fuel hfuel

theorem ReturnsWithin.map {enough : Nat} {run : Nat → Option α} {first : α} (f : α → ρ)
    (h : ReturnsWithin enough run first) :
    ReturnsWithin enough (fun fuel => (run fuel).map f) (f first) := by
  intro fuel hfuel
  dsimp only
  rw [h fuel hfuel]
  rfl

theorem returnsWithin_next {enough : Nat} {s s' : σ} {result : ρ}
    (hround : round s = some (.next s'))
    (h : ReturnsWithin enough (fun fuel => rounds round fuel s') result) :
    ReturnsWithin (enough + 1) (fun fuel => rounds round fuel s) result := by
  intro fuel hfuel
  obtain ⟨less, rfl⟩ : ∃ less, fuel = less + 1 := ⟨fuel - 1, by omega⟩
  exact (rounds_next hround less).trans (h less (by omega))

theorem returnsWithin_done {s : σ} {result : ρ} (hround : round s = some (.done result)) :
    ReturnsWithin 1 (fun fuel => rounds round fuel s) result := by
  intro fuel hfuel
  obtain ⟨less, rfl⟩ : ∃ less, fuel = less + 1 := ⟨fuel - 1, by omega⟩
  exact rounds_done hround less

theorem returns_next {s s' : σ} {result : ρ} (hround : round s = some (.next s'))
    (h : Returns (fun fuel => rounds round fuel s') result) :
    Returns (fun fuel => rounds round fuel s) result := by
  obtain ⟨enough, hrun⟩ := h
  exact (returnsWithin_next hround hrun).returns

theorem returns_done {s : σ} {result : ρ} (hround : round s = some (.done result)) :
    Returns (fun fuel => rounds round fuel s) result := (returnsWithin_done hround).returns

/-- **A loop that makes progress returns**: an invariant says how far it is, each round that goes on
gets further, and there is a limit to how far that can be. -/
theorem returns_of_progress {Inv : Nat → σ → Prop} {Post : ρ → Prop} (limit : Nat)
    (hround : ∀ i s, Inv i s → ∃ turn, round s = some turn ∧
      turn.Meets (fun s' => ∃ i', i < i' ∧ Inv i' s') Post)
    (hlimit : ∀ i s, Inv i s → i ≤ limit) {i : Nat} {s : σ} (h : Inv i s) :
    ∃ result, Returns (fun fuel => rounds round fuel s) result ∧ Post result := by
  obtain ⟨left, hleft⟩ : ∃ left, limit - i = left := ⟨_, rfl⟩
  induction left using Nat.strongRecOn generalizing i s with
  | ind left ih =>
    obtain ⟨turn, hsome, hmeets⟩ := hround i s h
    cases turn with
    | next s' =>
      obtain ⟨i', hfurther, h'⟩ := hmeets
      have hle := hlimit i' s' h'
      obtain ⟨result, hreturns, hpost⟩ := ih (limit - i') (by omega) h' rfl
      exact ⟨result, returns_next hsome hreturns, hpost⟩
    | done result => exact ⟨result, returns_done hsome, hmeets⟩

end

/-! ## Loops in a loop -/

section

variable {σ ρ : Type} {round : Nat → σ → Option (Turn σ ρ)} {s s' : σ} {result : ρ}

/-- A loop comes back whose rounds need fuel of their own. -/
def LoopReturns (round : Nat → σ → Option (Turn σ ρ)) (s : σ) (result : ρ) : Prop :=
  ∃ enough, ∀ inner fuel, enough ≤ inner → enough ≤ fuel → rounds (round inner) fuel s = some result

theorem LoopReturns.next (hround : Returns (fun inner => round inner s) (.next s'))
    (h : LoopReturns round s' result) : LoopReturns round s result := by
  obtain ⟨enough, hround⟩ := hround
  obtain ⟨enough', hrun⟩ := h
  refine ⟨enough + enough' + 1, fun inner fuel hinner hfuel => ?_⟩
  obtain ⟨less, rfl⟩ : ∃ less, fuel = less + 1 := ⟨fuel - 1, by omega⟩
  rw [rounds_next (hround inner (by omega))]
  exact hrun inner less (by omega) (by omega)

theorem LoopReturns.done (hround : ∀ inner, round inner s = some (.done result)) :
    LoopReturns round s result := by
  refine ⟨1, fun inner fuel _ hfuel => ?_⟩
  obtain ⟨less, rfl⟩ : ∃ less, fuel = less + 1 := ⟨fuel - 1, by omega⟩
  exact rounds_done (hround inner) less

/-- The same fuel is enough for both. -/
theorem LoopReturns.returns (h : LoopReturns round s result) :
    Returns (fun fuel => rounds (round fuel) fuel s) result := by
  obtain ⟨enough, hrun⟩ := h
  exact ⟨enough, fun fuel hfuel => hrun fuel fuel hfuel hfuel⟩

end

end DevopsBroker.Lib
