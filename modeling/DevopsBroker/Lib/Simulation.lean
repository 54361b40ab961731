/-!
# Runs of a machine, and simulation

A machine answers calls one after another. Two machines that give the same answers on
related states, and stay related, give the same answers over whole runs.

A call of a partial machine can fail to come back. `RefinesRun` says that it does come
back all the time, with the answers of a total machine, and `AgreeRun` compares two
partial machines. `Along` is a condition on each step of a run: when it is
exactly what one step needs, it is exactly what the run needs (`refinesRun_iff_along`).
`Throughout` is a property of each state.
-/

namespace DevopsBroker.Lib

section

variable {σ τ κ ρ : Type}

/-- The answers to calls in a row, and the state after them. -/
def runCalls (step : σ → κ → ρ × σ) : List κ → σ → List ρ × σ
  | [], state => ([], state)
  | call :: calls, state =>
    ((step state call).1 :: (runCalls step calls (step state call).2).1,
      (runCalls step calls (step state call).2).2)

/-- **Related states stay related over a run, with the same answers.** -/
theorem runCalls_simulates {step : σ → κ → ρ × σ} {step' : τ → κ → ρ × τ} {R : σ → τ → Prop}
    (hstep : ∀ s t call, R s t →
      (step s call).1 = (step' t call).1 ∧ R (step s call).2 (step' t call).2)
    (calls : List κ) :
    ∀ {s : σ} {t : τ}, R s t →
      (runCalls step calls s).1 = (runCalls step' calls t).1 ∧
        R (runCalls step calls s).2 (runCalls step' calls t).2 := by
  induction calls with
  | nil =>
    intro s t h
    exact ⟨rfl, h⟩
  | cons call calls ih =>
    intro s t h
    obtain ⟨hresult, hrelated⟩ := hstep s t call h
    obtain ⟨hresults, hend⟩ := ih hrelated
    refine ⟨?_, hend⟩
    rw [runCalls, runCalls, hresult, hresults]

/-! ## Partial machines -/

/-- Every step of the run, as far as it comes, meets a condition on the state before it. -/
def Along (step : σ → κ → Option (ρ × σ)) (P : σ → κ → Prop) : List κ → σ → Prop
  | [], _ => True
  | call :: calls, s =>
    P s call ∧ ∀ r s', step s call = some (r, s') → Along step P calls s'

/-- Every state of the run, from the first to the last, has a property. -/
def Throughout (step : σ → κ → Option (ρ × σ)) (P : σ → Prop) : List κ → σ → Prop
  | [], s => P s
  | call :: calls, s =>
    P s ∧ ∀ r s', step s call = some (r, s') → Throughout step P calls s'

/-- **What every step keeps holds throughout**, and what it implies of a step holds along
the run. `D` is the domain of the calls. -/
theorem throughout_of_keeps {step : σ → κ → Option (ρ × σ)} {Inv P : σ → Prop}
    {D Q : σ → κ → Prop} (himplies : ∀ s, Inv s → P s)
    (hstep : ∀ s call, Inv s → D s call → Q s call)
    (hkeeps : ∀ s call r s', Inv s → D s call → step s call = some (r, s') → Inv s')
    (calls : List κ) :
    ∀ {s : σ}, Inv s → Along step D calls s → Throughout step P calls s ∧ Along step Q calls s := by
  induction calls with
  | nil =>
    intro s hinv _
    exact ⟨himplies s hinv, trivial⟩
  | cons call calls ih =>
    intro s hinv hdomain
    obtain ⟨hcall, hrest⟩ := hdomain
    constructor
    · refine ⟨himplies s hinv, ?_⟩
      intro r s' hrun
      exact (ih (hkeeps s call r s' hinv hcall hrun) (hrest r s' hrun)).1
    · refine ⟨hstep s call hinv hcall, ?_⟩
      intro r s' hrun
      exact (ih (hkeeps s call r s' hinv hcall hrun) (hrest r s' hrun)).2

theorem Along.imp {step : σ → κ → Option (ρ × σ)} {P Q : σ → κ → Prop}
    (h : ∀ s call, P s call → Q s call) {calls : List κ} :
    ∀ {s : σ}, Along step P calls s → Along step Q calls s := by
  induction calls with
  | nil => exact fun _ => trivial
  | cons call calls ih =>
    intro s hall
    exact ⟨h s call hall.1, fun r s' hrun => ih (hall.2 r s' hrun)⟩

/-- **A machine that comes back exactly when there is room**, with a right answer, and then keeps an
invariant: what the invariant implies holds throughout. -/
theorem throughout_of_answers {step : σ → κ → Option (ρ × σ)} {Inv P : σ → Prop}
    {D Room : σ → κ → Prop} {Right : σ → κ → ρ × σ → Prop} (himplies : ∀ s, Inv s → P s)
    (hkeeps : ∀ s call, Inv s → D s call → Room s call →
      ∃ r s', step s call = some (r, s') ∧ Inv s' ∧ Right s call (r, s'))
    (haborts : ∀ s call, Inv s → D s call → ¬ Room s call → step s call = none)
    (calls : List κ) {s : σ} (hinv : Inv s) (hdomain : Along step D calls s) :
    Throughout step P calls s ∧
      Along step (fun s call => ((∃ r s', step s call = some (r, s')) ↔ Room s call) ∧
        ∀ r s', step s call = some (r, s') → Right s call (r, s')) calls s := by
  have hroom_of_run : ∀ s call r s', Inv s → D s call → step s call = some (r, s') →
      Room s call := by
    intro s call r s' h hcall hrun
    by_cases hroom : Room s call
    · exact hroom
    · rw [haborts s call h hcall hroom] at hrun
      cases hrun
  have hright : ∀ s call r s', Inv s → D s call → step s call = some (r, s') →
      Inv s' ∧ Right s call (r, s') := by
    intro s call r s' h hcall hrun
    obtain ⟨r₁, s₁, hrun₁, hkept⟩ := hkeeps s call h hcall (hroom_of_run s call r s' h hcall hrun)
    rw [hrun] at hrun₁
    obtain ⟨rfl, rfl⟩ := Prod.mk.inj (Option.some.inj hrun₁)
    exact hkept
  refine throughout_of_keeps himplies ?_ ?_ calls hinv hdomain
  · intro s call h hcall
    refine ⟨⟨fun ⟨r, s', hrun⟩ => hroom_of_run s call r s' h hcall hrun, fun hroom => ?_⟩, ?_⟩
    · obtain ⟨r, s', hrun, _⟩ := hkeeps s call h hcall hroom
      exact ⟨r, s', hrun⟩
    · exact fun r s' hrun => (hright s call r s' h hcall hrun).2
  · exact fun s call r s' h hcall hrun => (hright s call r s' h hcall hrun).1

/-- The same, where any answer is right. -/
theorem throughout_of_room {step : σ → κ → Option (ρ × σ)} {Inv P : σ → Prop}
    {D Room : σ → κ → Prop} (himplies : ∀ s, Inv s → P s)
    (hkeeps : ∀ s call, Inv s → D s call → Room s call →
      ∃ r s', step s call = some (r, s') ∧ Inv s')
    (haborts : ∀ s call, Inv s → D s call → ¬ Room s call → step s call = none)
    (calls : List κ) {s : σ} (hinv : Inv s) (hdomain : Along step D calls s) :
    Throughout step P calls s ∧
      Along step (fun s call => (∃ r s', step s call = some (r, s')) ↔ Room s call) calls s := by
  have hall := @throughout_of_answers _ _ _ step Inv P D Room (fun _ _ _ => True) himplies
    (fun s call h hcall hroom => by
      obtain ⟨r, s', hrun, hkept⟩ := hkeeps s call h hcall hroom
      exact ⟨r, s', hrun, hkept, trivial⟩) haborts calls _ hinv hdomain
  exact ⟨hall.1, hall.2.imp fun _ _ h => h.1⟩

/-- Every call comes back with the answer of the total machine, and the states are
related from the first to the last. -/
def RefinesRun (step : σ → κ → Option (ρ × σ)) (spec : τ → κ → ρ × τ) (R : σ → τ → Prop) :
    List κ → σ → τ → Prop
  | [], s, t => R s t
  | call :: calls, s, t =>
    R s t ∧ ∃ s', step s call = some ((spec t call).1, s') ∧
      RefinesRun step spec R calls s' (spec t call).2

theorem RefinesRun.related {step : σ → κ → Option (ρ × σ)} {spec : τ → κ → ρ × τ}
    {R : σ → τ → Prop} {calls : List κ} {s : σ} {t : τ} (h : RefinesRun step spec R calls s t) :
    R s t := by
  cases calls with
  | nil => exact h
  | cons call calls => exact h.1

/-- **A run refines exactly when its steps meet the condition**: with the condition, a
step keeps an invariant that implies the relation, and without it a step breaks the
relation or does not come back. `D` is the domain of the calls. -/
theorem refinesRun_iff_along {step : σ → κ → Option (ρ × σ)} {spec : τ → κ → ρ × τ}
    {R Inv : σ → τ → Prop} {Fits : σ → κ → Prop} {D : τ → κ → Prop}
    (hrelated : ∀ s t, Inv s t → R s t)
    (hfits : ∀ s t call, Inv s t → D t call → Fits s call →
      ∃ s', step s call = some ((spec t call).1, s') ∧ Inv s' (spec t call).2)
    (hbreaks : ∀ s t call s', Inv s t → D t call → ¬ Fits s call →
      step s call = some ((spec t call).1, s') → ¬ R s' (spec t call).2)
    (calls : List κ) :
    ∀ {s : σ} {t : τ}, Inv s t → Along (fun t call => some (spec t call)) D calls t →
      (RefinesRun step spec R calls s t ↔ Along step Fits calls s) := by
  induction calls with
  | nil =>
    intro s t hinv _
    exact ⟨fun _ => trivial, fun _ => hrelated s t hinv⟩
  | cons call calls ih =>
    intro s t hinv hdomain
    obtain ⟨hcall, hrest⟩ := hdomain
    have hdomain' := hrest _ _ rfl
    by_cases hfit : Fits s call
    · obtain ⟨s', hstep, hinv'⟩ := hfits s t call hinv hcall hfit
      have hiff := ih hinv' hdomain'
      constructor
      · intro hrun
        obtain ⟨_, s₁, hstep₁, hrun₁⟩ := hrun
        have heq : s₁ = s' := by
          rw [hstep] at hstep₁
          exact (Prod.mk.inj (Option.some.inj hstep₁)).2.symm
        subst heq
        refine ⟨hfit, ?_⟩
        intro r s₂ hstep₂
        rw [hstep] at hstep₂
        rw [← (Prod.mk.inj (Option.some.inj hstep₂)).2]
        exact hiff.mp hrun₁
      · intro halong
        exact ⟨hrelated s t hinv, s', hstep, hiff.mpr (halong.2 _ _ hstep)⟩
    · constructor
      · intro hrun
        obtain ⟨_, s', hstep, hrun'⟩ := hrun
        exact absurd hrun'.related (hbreaks s t call s' hinv hcall hfit hstep)
      · intro halong
        exact absurd halong.1 hfit

/-- Two partial machines side by side. -/
def bothSteps (step : σ → κ → Option σ) (step' : τ → κ → Option τ) (s : σ × τ) (call : κ) :
    Option (Unit × (σ × τ)) :=
  match step s.1 call, step' s.2 call with
  | some s', some t' => some ((), (s', t'))
  | _, _ => none

/-- After every call both machines are in related states, unless neither comes back. -/
def AgreeRun (step : σ → κ → Option σ) (step' : τ → κ → Option τ) (R : σ → τ → Prop) :
    List κ → σ → τ → Prop
  | [], s, t => R s t
  | call :: calls, s, t =>
    R s t ∧
      match step s call, step' t call with
      | some s', some t' => AgreeRun step step' R calls s' t'
      | none, none => True
      | _, _ => False

/-- **Two machines agree over a run whose steps meet the condition.** -/
theorem agreeRun_of_along {step : σ → κ → Option σ} {step' : τ → κ → Option τ}
    {R Inv : σ → τ → Prop} {Fits : σ × τ → κ → Prop} (hrelated : ∀ s t, Inv s t → R s t)
    (hfits : ∀ s t call, Inv s t → Fits (s, t) call →
      (∃ s' t', step s call = some s' ∧ step' t call = some t' ∧ Inv s' t') ∨
        (step s call = none ∧ step' t call = none))
    (calls : List κ) :
    ∀ {s : σ} {t : τ}, Inv s t → Along (bothSteps step step') Fits calls (s, t) →
      AgreeRun step step' R calls s t := by
  induction calls with
  | nil =>
    intro s t hinv _
    exact hrelated s t hinv
  | cons call calls ih =>
    intro s t hinv halong
    obtain ⟨hfit, hrest⟩ := halong
    refine ⟨hrelated s t hinv, ?_⟩
    rcases hfits s t call hinv hfit with ⟨s', t', hs, ht, hinv'⟩ | ⟨hs, ht⟩
    · rw [hs, ht]
      have hboth : bothSteps step step' (s, t) call = some ((), (s', t')) := by
        unfold bothSteps
        rw [hs, ht]
      exact ih hinv' (hrest _ _ hboth)
    · rw [hs, ht]
      trivial

end

end DevopsBroker.Lib
