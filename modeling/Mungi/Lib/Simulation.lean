import Mungi.Lib.Runs

/-!
# Simulations

A system does what another one says if the actions of it that are seen are actions of the other.
The rest of its actions, which are not seen, leave the other where it is.

## Main definitions

* `seen obs step s l` — what is seen of the run of the actions `l`.
* `Simulates` — each action is matched by what is seen of it.
* `Refines` — each action that meets a condition is answered as another system says.
* `Trace` — one state leads to another, with answers that a relation allows.

## Main results

* `run_of_simulates` — **what is seen of a run is a run of the other system.**
* `answers_of_refines` — **a run whose actions meet the condition is answered as is said.**
* `trace_of_answers` — **the same where what is said leaves a choice.**
-/

namespace Runs

variable {σ τ α β : Type*}

/-- What is seen of the run of the actions `l`, up to where the system stops. -/
def seen (obs : σ → α → List β) (step : σ → α → Option σ) : σ → List α → List β
  | _, [] => []
  | s, a :: l =>
    match step s a with
    | none => []
    | some s' => obs s a ++ seen obs step s' l

@[simp] theorem seen_nil {obs : σ → α → List β} {step : σ → α → Option σ} (s : σ) :
    seen obs step s [] = [] := rfl

theorem seen_cons {obs : σ → α → List β} {step : σ → α → Option σ} {s s' : σ} {a : α}
    (h : step s a = some s') (l : List α) :
    seen obs step s (a :: l) = obs s a ++ seen obs step s' l := by
  rw [seen, h]

/-- From states that are related an action leads to related states, where the other system does
what is seen of it. -/
def Simulates (R : σ → τ → Prop) (step : σ → α → Option σ) (obs : σ → α → List β)
    (other : τ → β → Option τ) : Prop :=
  ∀ s t a s', R s t → step s a = some s' → ∃ t', run other t (obs s a) = some t' ∧ R s' t'

variable {R : σ → τ → Prop} {step : σ → α → Option σ} {obs : σ → α → List β}
  {other : τ → β → Option τ}

/-- **What is seen of a run is a run of the other system.** -/
theorem run_of_simulates (h : Simulates R step obs other) : ∀ {l : List α} {s s' : σ} {t : τ},
    R s t → run step s l = some s' →
      ∃ t', run other t (seen obs step s l) = some t' ∧ R s' t' := by
  intro l
  induction l with
  | nil =>
    rintro s s' t hR ⟨⟩
    exact ⟨t, rfl, hR⟩
  | cons a l ih =>
    intro s s' t hR hrun
    obtain ⟨s₁, ha, hl⟩ := Option.bind_eq_some_iff.mp hrun
    obtain ⟨t₁, ht₁, hR₁⟩ := h s t a s₁ hR ha
    obtain ⟨t', ht', hR'⟩ := ih hR₁ hl
    refine ⟨t', ?_, hR'⟩
    rw [seen_cons ha, run_append, ht₁]
    exact ht'

/-! ### Systems that answer -/

/-- The state after the actions `l`, and the answers to them, if the system gets there. -/
def answers (step : σ → α → Option (σ × β)) : σ → List α → Option (σ × List β)
  | s, [] => some (s, [])
  | s, a :: l => (step s a).bind fun r => (answers step r.1 l).map fun q => (q.1, r.2 :: q.2)

/-- The same for what says how each action is to be answered. -/
def replies (spec : τ → α → τ × β) : τ → List α → τ × List β
  | t, [] => (t, [])
  | t, a :: l => ((replies spec (spec t a).1 l).1, (spec t a).2 :: (replies spec (spec t a).1 l).2)

/-- Where the condition holds, the system gets on and answers as is said. -/
def Refines (R : σ → τ → Prop) (G : σ → α → Prop) (step : σ → α → Option (σ × β))
    (spec : τ → α → τ × β) : Prop :=
  ∀ s t a, R s t → G s a → ∃ s', step s a = some (s', (spec t a).2) ∧ R s' (spec t a).1

/-- **A run whose actions meet the condition is answered as is said.** -/
theorem answers_of_refines {R : σ → τ → Prop} {G : σ → α → Prop} {step : σ → α → Option (σ × β)}
    {spec : τ → α → τ × β} (h : Refines R G step spec) : ∀ {l : List α} {s : σ} {t : τ}, R s t →
      Along (fun s a => (step s a).map Prod.fst) G s l →
        ∃ s', answers step s l = some (s', (replies spec t l).2) ∧ R s' (replies spec t l).1 := by
  intro l
  induction l with
  | nil => exact fun hR _ => ⟨_, rfl, hR⟩
  | cons a l ih =>
    intro s t hR hG
    obtain ⟨s₁, hstep, hR₁⟩ := h s t a hR hG.1
    obtain ⟨s', hrest, hR'⟩ := ih hR₁ (hG.2 s₁ (congrArg (Option.map Prod.fst) hstep))
    refine ⟨s', ?_, hR'⟩
    rw [answers, hstep, Option.bind_some, hrest]
    rfl

/-- From a state to another one, each action with an answer that the relation allows. -/
inductive Trace (R : τ → α → β → τ → Prop) : τ → List α → List β → τ → Prop
  | nil (t : τ) : Trace R t [] [] t
  | cons {t t' t'' : τ} {a : α} {b : β} {l : List α} {bs : List β} (head : R t a b t')
      (tail : Trace R t' l bs t'') : Trace R t (a :: l) (b :: bs) t''

/-- **A run whose actions meet a condition is a trace**, as far as its states are seen, if every
such action is a step of it. -/
theorem trace_of_answers {I : σ → Prop} {G : σ → α → Prop} {step : σ → α → Option (σ × β)}
    {R : τ → α → β → τ → Prop} (view : σ → τ)
    (h : ∀ s a s' b, I s → G s a → step s a = some (s', b) → I s' ∧ R (view s) a b (view s')) :
    ∀ {l : List α} {s s' : σ} {bs : List β}, I s →
      Along (fun s a => (step s a).map Prod.fst) G s l → answers step s l = some (s', bs) →
        I s' ∧ Trace R (view s) l bs (view s') := by
  intro l
  induction l with
  | nil =>
    intro s s' bs hs _ hrun
    obtain ⟨rfl, rfl⟩ := Prod.mk.inj (Option.some.inj hrun)
    exact ⟨hs, .nil _⟩
  | cons a l ih =>
    intro s s' bs hs hG hrun
    obtain ⟨⟨s₁, b⟩, ha, hrest⟩ := Option.bind_eq_some_iff.mp hrun
    obtain ⟨⟨s₂, bs'⟩, hl, heq⟩ := Option.map_eq_some_iff.mp hrest
    obtain ⟨rfl, rfl⟩ := Prod.mk.inj heq
    obtain ⟨hs₁, hR⟩ := h s a s₁ b hs hG.1 ha
    obtain ⟨hs', htrace⟩ := ih hs₁ (hG.2 s₁ (congrArg (Option.map Prod.fst) ha)) hl
    exact ⟨hs', .cons hR htrace⟩

end Runs
