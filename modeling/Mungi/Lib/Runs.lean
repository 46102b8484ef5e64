import Mathlib.Data.List.Induction
import Mathlib.Tactic.Common

/-!
# Runs of a system

A system takes one action after another and may stop.  What holds of all its
runs is shown by induction on the run, adding one action at the end, with the
actions so far at hand.

## Main definitions

* `run step s l` — the state after the actions `l`, if the system gets there.
* `Along` — all actions of a run meet a condition.
* `Each` — all events of a history meet a condition on what went before.

## Main results

* `run_induction` — **induction on runs.**
* `run_total` — the system does not stop, as long as the actions are allowed.
* `run_invariant` — an invariant of the step is one of all runs.
* `run_induction_along`, `run_invariant_along` — the same for the runs whose actions meet a
  condition.
* `run_total_along` — the system does not stop, as long as the actions meet a condition.
* `reached_iff_along` — the condition is the one under which all states have a property.
* `served_iff_along` — the one under which it does not stop either.
* `run_flag` — the same for a property of the last state that no later action restores.
-/

namespace Runs

variable {σ α : Type*}

/-- The state after the actions `l`, `none` once the system has stopped. -/
def run (step : σ → α → Option σ) : σ → List α → Option σ
  | s, [] => some s
  | s, a :: l => (step s a).bind fun s' => run step s' l

variable {step : σ → α → Option σ}

@[simp] theorem run_nil (s : σ) : run step s [] = some s := rfl

theorem run_append (s : σ) (l l' : List α) :
    run step s (l ++ l') = (run step s l).bind fun s' => run step s' l' := by
  induction l generalizing s with
  | nil => rfl
  | cons a l ih =>
    simp only [List.cons_append, run]
    cases step s a with
    | none => rfl
    | some s' => exact ih s'

theorem run_concat (s : σ) (l : List α) (a : α) :
    run step s (l ++ [a]) = (run step s l).bind fun s' => step s' a := by
  rw [run_append]
  congr 1
  funext s'
  simp only [run]
  cases step s' a <;> rfl

/-- **Induction on runs**, with the actions so far. -/
theorem run_induction {C : List α → σ → Prop} {s₀ : σ} (h₀ : C [] s₀)
    (hstep : ∀ l s a s', run step s₀ l = some s → C l s → step s a = some s' → C (l ++ [a]) s') :
    ∀ l s, run step s₀ l = some s → C l s := by
  intro l
  induction l using List.reverseRecOn with
  | nil =>
    rintro s ⟨⟩
    exact h₀
  | append_singleton l a ih =>
    intro s hs
    rw [run_concat, Option.bind_eq_some_iff] at hs
    obtain ⟨s', hs', ha⟩ := hs
    exact hstep l s' a s hs' (ih s' hs') ha

/-- The system goes on as long as the actions are allowed, where what is allowed may
depend on the actions before. -/
theorem run_total {C : List α → σ → Prop} {G : List α → Prop} {s₀ : σ} (h₀ : C [] s₀)
    (hG : ∀ l a, G (l ++ [a]) → G l)
    (hstep : ∀ l s a, C l s → G (l ++ [a]) → ∃ s', step s a = some s' ∧ C (l ++ [a]) s') :
    ∀ l, G l → ∃ s, run step s₀ l = some s ∧ C l s := by
  intro l
  induction l using List.reverseRecOn with
  | nil => exact fun _ => ⟨s₀, rfl, h₀⟩
  | append_singleton l a ih =>
    intro hg
    obtain ⟨s, hs, hC⟩ := ih (hG l a hg)
    obtain ⟨s', hs', hC'⟩ := hstep l s a hC hg
    exact ⟨s', by rw [run_concat, hs]; exact hs', hC'⟩

/-- An invariant of the step is one of all runs. -/
theorem run_invariant {Inv : σ → Prop} {s₀ : σ} (h₀ : Inv s₀)
    (hstep : ∀ s a s', Inv s → step s a = some s' → Inv s') {l : List α} {s : σ}
    (hs : run step s₀ l = some s) : Inv s :=
  run_induction (C := fun _ s => Inv s) h₀ (fun _ s a s' _ hi ha => hstep s a s' hi ha) l s hs

/-- In the run of the actions `l` every action meets the condition `G` in the state it is
taken in. -/
def Along (step : σ → α → Option σ) (G : σ → α → Prop) : σ → List α → Prop
  | _, [] => True
  | s, a :: l => G s a ∧ ∀ s', step s a = some s' → Along step G s' l

instance Along.decidable {G : σ → α → Prop} [∀ s a, Decidable (G s a)] :
    ∀ s l, Decidable (Along step G s l)
  | _, [] => .isTrue trivial
  | s, a :: l =>
    haveI : ∀ s', Decidable (Along step G s' l) := fun s' => Along.decidable s' l
    inferInstanceAs (Decidable (G s a ∧ ∀ s' ∈ step s a, Along step G s' l))

theorem Along.of_forall {G : σ → α → Prop} (h : ∀ s a, G s a) :
    ∀ {s : σ} {l : List α}, Along step G s l
  | _, [] => trivial
  | s, a :: _ => ⟨h s a, fun _ _ => Along.of_forall h⟩

/-- Induction on the runs whose actions meet a condition, with the actions so far. -/
theorem run_induction_along {C : List α → σ → Prop} {G : σ → α → Prop}
    (hstep : ∀ l s a s', C l s → G s a → step s a = some s' → C (l ++ [a]) s') :
    ∀ l l₀ s s', C l₀ s → Along step G s l → run step s l = some s' → C (l₀ ++ l) s' := by
  intro l
  induction l with
  | nil =>
    rintro l₀ s s' hs - ⟨⟩
    rwa [List.append_nil]
  | cons a l ih =>
    intro l₀ s s' hs hG hrun
    obtain ⟨s₁, ha, hl⟩ := Option.bind_eq_some_iff.mp hrun
    have hs₁ := hstep l₀ s a s₁ hs hG.1 ha
    have h := ih (l₀ ++ [a]) s₁ s' hs₁ (hG.2 s₁ ha) hl
    rwa [List.append_assoc] at h

/-- An invariant of the steps that meet a condition is one of the runs that do. -/
theorem run_invariant_along {I : σ → Prop} {G : σ → α → Prop}
    (hstep : ∀ s a s', I s → G s a → step s a = some s' → I s') (l : List α) (s s' : σ)
    (hs : I s) (hG : Along step G s l) (hrun : run step s l = some s') : I s' :=
  run_induction_along (C := fun _ => I) (fun _ => hstep) l [] s s' hs hG hrun

/-- Every action of the run meets the condition in the state the ones before it lead to. -/
theorem Along.at {G : σ → α → Prop} {l l' : List α} {a : α} {s s' : σ}
    (h : Along step G s (l ++ a :: l')) (hrun : run step s l = some s') : G s' a := by
  induction l generalizing s with
  | nil =>
    cases hrun
    exact h.1
  | cons b l ih =>
    obtain ⟨s₁, hb, hl⟩ := Option.bind_eq_some_iff.mp hrun
    exact ih (h.2 s₁ hb) hl

/-- The first actions of the run meet the condition. -/
theorem Along.left {G : σ → α → Prop} {l l' : List α} {s : σ} (h : Along step G s (l ++ l')) :
    Along step G s l := by
  induction l generalizing s with
  | nil => trivial
  | cons a l ih => exact ⟨h.1, fun s' ha => ih (h.2 s' ha)⟩

/-- A run goes on. -/
theorem Along.append {G : σ → α → Prop} {l l' : List α} {s : σ} (h : Along step G s l)
    (h' : ∀ s', run step s l = some s' → Along step G s' l') : Along step G s (l ++ l') := by
  induction l generalizing s with
  | nil => exact h' s rfl
  | cons a l ih =>
    refine ⟨h.1, fun s₁ ha => ih (h.2 s₁ ha) fun s' hrun => h' s' ?_⟩
    rw [run, ha]
    exact hrun

/-- Two conditions that agree on the given actions where an invariant holds, which the given
actions that meet them keep, are met by the same runs. -/
theorem along_congr_of {I : σ → Prop} {D G G' : σ → α → Prop}
    (hiff : ∀ s a, I s → D s a → (G s a ↔ G' s a))
    (hstep : ∀ s a s', I s → D s a → G' s a → step s a = some s' → I s') :
    ∀ (l : List α) (s : σ), I s → Along step D s l → (Along step G s l ↔ Along step G' s l) := by
  intro l
  induction l with
  | nil => exact fun _ _ _ => Iff.rfl
  | cons a l ih =>
    intro s hs hD
    simp only [Along]
    rw [hiff s a hs hD.1]
    apply and_congr_right
    intro hG
    exact forall_congr' fun s' => imp_congr_right fun ha =>
      ih s' (hstep s a s' hs hD.1 hG ha) (hD.2 s' ha)

/-- The same where any action may be taken. -/
theorem along_congr {I : σ → Prop} {G G' : σ → α → Prop}
    (hiff : ∀ s a, I s → (G s a ↔ G' s a))
    (hstep : ∀ s a s', I s → G' s a → step s a = some s' → I s') (l : List α) (s : σ) (hs : I s) :
    Along step G s l ↔ Along step G' s l :=
  along_congr_of (D := fun _ _ => True) (fun s a hs _ => hiff s a hs)
    (fun s a s' hs _ => hstep s a s' hs) l s hs (Along.of_forall fun _ _ => trivial)

/-- A condition that implies another one where an invariant holds, which the actions that meet it
keep, does so for runs. -/
theorem Along.mono {I : σ → Prop} {G G' : σ → α → Prop} (himp : ∀ s a, I s → G s a → G' s a)
    (hstep : ∀ s a s', I s → G s a → step s a = some s' → I s') :
    ∀ (l : List α) (s : σ), I s → Along step G s l → Along step G' s l := by
  intro l
  induction l with
  | nil => exact fun _ _ _ => trivial
  | cons a l ih =>
    intro s hs hG
    refine ⟨himp s a hs hG.1, fun s' ha => ?_⟩
    exact ih s' (hstep s a s' hs hG.1 ha) (hG.2 s' ha)

/-- **When all states of a run have a property.**  An invariant that implies it is kept by the
actions that meet a condition, and an action that leads to a state with the property meets the
condition. -/
theorem reached_iff_along {I P : σ → Prop} {D G : σ → α → Prop} (hI : ∀ s, I s → P s)
    (hstep : ∀ s a s', I s → D s a → G s a → step s a = some s' → I s')
    (hexact : ∀ s a s', I s → D s a → step s a = some s' → P s' → G s a) :
    ∀ (l : List α) (s s' : σ), I s → Along step D s l → run step s l = some s' →
      ((∀ l₁ s₁, l₁ <+: l → run step s l₁ = some s₁ → P s₁) ↔ Along step G s l) := by
  intro l
  induction l with
  | nil =>
    intro s s' hs _ _
    refine iff_of_true (fun l₁ s₁ hl₁ hrun => ?_) trivial
    obtain rfl := List.prefix_nil.mp hl₁
    cases hrun
    exact hI s hs
  | cons a l ih =>
    intro s s' hs hD hrun
    obtain ⟨s₁, ha, hl⟩ := Option.bind_eq_some_iff.mp hrun
    constructor
    · intro hall
      have hfirst : P s₁ := by
        refine hall [a] s₁ ⟨l, rfl⟩ ?_
        rw [run, ha]
        rfl
      have hG := hexact s a s₁ hs hD.1 ha hfirst
      refine ⟨hG, fun s₂ ha₂ => ?_⟩
      obtain rfl := Option.some.inj (ha.symm.trans ha₂)
      refine (ih s₁ s' (hstep s a s₁ hs hD.1 hG ha) (hD.2 s₁ ha) hl).mp fun l₁ s₃ hl₁ hrun₁ => ?_
      refine hall (a :: l₁) s₃ (List.cons_prefix_cons.mpr ⟨rfl, hl₁⟩) ?_
      rw [run, ha]
      exact hrun₁
    · intro hG l₁ s₃ hl₁ hrun₁
      cases l₁ with
      | nil =>
        cases hrun₁
        exact hI s hs
      | cons b l₁ =>
        obtain ⟨rfl, htail⟩ := List.cons_prefix_cons.mp hl₁
        rw [run, ha] at hrun₁
        have hs₁ := hstep s b s₁ hs hD.1 hG.1 ha
        exact (ih s₁ s' hs₁ (hD.2 s₁ ha) hl).mpr (hG.2 s₁ ha) l₁ s₃ htail hrun₁

/-- The system does not stop, as long as the actions meet a condition. -/
theorem run_total_along {I : σ → Prop} {D G : σ → α → Prop}
    (hgo : ∀ s a, I s → D s a → G s a → ∃ s', step s a = some s' ∧ I s') :
    ∀ (l : List α) (s : σ), I s → Along step D s l → Along step G s l →
      ∃ s', run step s l = some s' := by
  intro l
  induction l with
  | nil => exact fun s _ _ _ => ⟨s, rfl⟩
  | cons a l ih =>
    intro s hs hD hG
    obtain ⟨s₁, ha, hs₁⟩ := hgo s a hs hD.1 hG.1
    obtain ⟨s', hrun⟩ := ih s₁ hs₁ (hD.2 s₁ ha) (hG.2 s₁ ha)
    refine ⟨s', ?_⟩
    rw [run, ha]
    exact hrun

/-- **When the system does not stop and all states of a run have a property.** -/
theorem served_iff_along {I P : σ → Prop} {D G : σ → α → Prop} (hI : ∀ s, I s → P s)
    (hgo : ∀ s a, I s → D s a → G s a → ∃ s', step s a = some s' ∧ I s')
    (hexact : ∀ s a s', I s → D s a → step s a = some s' → P s' → G s a) {l : List α} {s : σ}
    (hs : I s) (hD : Along step D s l) :
    ((∃ s', run step s l = some s') ∧
        ∀ l₁ s₁, l₁ <+: l → run step s l₁ = some s₁ → P s₁) ↔ Along step G s l := by
  have hstep : ∀ s a s', I s → D s a → G s a → step s a = some s' → I s' := by
    intro s a s' hs hD hG ha
    obtain ⟨s₁, ha₁, hs₁⟩ := hgo s a hs hD hG
    rwa [Option.some.inj (ha₁.symm.trans ha)] at hs₁
  have hiff := reached_iff_along hI hstep hexact l s
  constructor
  · rintro ⟨⟨s', hrun⟩, hall⟩
    exact (hiff s' hs hD hrun).mp hall
  · intro hG
    obtain ⟨s', hrun⟩ := run_total_along hgo l s hs hD hG
    exact ⟨⟨s', hrun⟩, (hiff s' hs hD hrun).mpr hG⟩

/-- **When a flag is still clear at the end.**  Each action leaves it clear just when it was
clear and the action meets a condition. -/
theorem run_flag {I P : σ → Prop} {D G : σ → α → Prop}
    (hstep : ∀ s a s', I s → D s a → step s a = some s' → I s' ∧ (P s' ↔ P s ∧ G s a)) :
    ∀ (l : List α) (s s' : σ), I s → Along step D s l → run step s l = some s' →
      (P s' ↔ P s ∧ Along step G s l) := by
  intro l
  induction l with
  | nil =>
    rintro s _ _ _ ⟨⟩
    exact (and_iff_left trivial).symm
  | cons a l ih =>
    intro s s' hs hD hrun
    obtain ⟨s₁, ha, hl⟩ := Option.bind_eq_some_iff.mp hrun
    obtain ⟨hs₁, hflag⟩ := hstep s a s₁ hs hD.1 ha
    have hrest : (∀ s₂, step s a = some s₂ → Along step G s₂ l) ↔ Along step G s₁ l := by
      rw [ha]
      simp
    rw [ih s₁ s' hs₁ (hD.2 s₁ ha) hl, hflag, Along, hrest, and_assoc]

/-! ### Histories -/

/-- Every event of a history, whose last event comes first, has the property `P` with what went
before it. -/
def Each (P : α → List α → Prop) : List α → Prop
  | [] => True
  | e :: l => P e l ∧ Each P l

@[simp] theorem each_nil {P : α → List α → Prop} : Each P [] := trivial

@[simp] theorem each_cons {P : α → List α → Prop} {e : α} {l : List α} :
    Each P (e :: l) ↔ P e l ∧ Each P l := Iff.rfl

instance Each.decidable {P : α → List α → Prop} [∀ e l, Decidable (P e l)] :
    ∀ l, Decidable (Each P l)
  | [] => .isTrue trivial
  | e :: l =>
    haveI := Each.decidable (P := P) l
    inferInstanceAs (Decidable (P e l ∧ Each P l))

end Runs
