import Mathlib.Data.List.Basic

/-!
# Runs of a labelled transition

`Steps step s is s'` says that the inputs `is`, taken in order, lead from `s` to
`s'`. A property that every step keeps holds at the end of every run, and since
a prefix of a run is a run, it holds at every state a run passes through.
-/

namespace Transition

variable {σ ι : Type*} {step : σ → ι → σ → Prop}

/-- The inputs `is`, in order, lead from the first state to the second. -/
inductive Steps (step : σ → ι → σ → Prop) : σ → List ι → σ → Prop
  | nil {s : σ} : Steps step s [] s
  | snoc {s s' s'' : σ} {is : List ι} {i : ι} :
      Steps step s is s' → step s' i s'' → Steps step s (is ++ [i]) s''

/-- Runs one after the other are a run. -/
theorem Steps.append {s s' s'' : σ} {is js : List ι} (h : Steps step s is s')
    (h' : Steps step s' js s'') : Steps step s (is ++ js) s'' := by
  induction h' with
  | nil => rwa [List.append_nil]
  | snoc _ hlast ih =>
    rw [← List.append_assoc]
    exact .snoc ih hlast

/-- A run passes through the states before and after each of its inputs. -/
theorem Steps.at {s s' : σ} {before after : List ι} {i : ι}
    (h : Steps step s (before ++ i :: after) s') :
    ∃ s₁ s₂, Steps step s before s₁ ∧ step s₁ i s₂ ∧ Steps step s₂ after s' := by
  generalize hinputs : before ++ i :: after = inputs at h
  induction h generalizing after with
  | nil => simp at hinputs
  | snoc hrun hlast ih =>
    rcases List.eq_nil_or_concat after with rfl | ⟨after, j, rfl⟩
    · obtain ⟨rfl, hi⟩ := List.append_inj' hinputs rfl
      cases hi
      exact ⟨_, _, hrun, hlast, .nil⟩
    · rw [List.concat_eq_append] at hinputs ⊢
      rw [← List.cons_append, ← List.append_assoc] at hinputs
      obtain ⟨hbefore, hj⟩ := List.append_inj' hinputs rfl
      cases hj
      obtain ⟨s₁, s₂, hfirst, hstep, hrest⟩ := ih hbefore
      exact ⟨s₁, s₂, hfirst, hstep, hrest.snoc hlast⟩

theorem Steps.nil_iff {s s' : σ} : Steps step s [] s' ↔ s' = s := by
  constructor
  · intro h
    generalize hinputs : ([] : List ι) = is at h
    cases h with
    | nil => rfl
    | snoc _ _ => simp at hinputs
  · rintro rfl
    exact .nil

/-- A run is its first step and the run behind it. -/
theorem Steps.cons_iff {s s'' : σ} {i : ι} {is : List ι} :
    Steps step s (i :: is) s'' ↔ ∃ s', step s i s' ∧ Steps step s' is s'' := by
  constructor
  · intro h
    have hsplit : Steps step s ([] ++ i :: is) s'' := h
    obtain ⟨s₁, s₂, hnil, hfirst, hrest⟩ := hsplit.at
    obtain rfl := nil_iff.mp hnil
    exact ⟨s₂, hfirst, hrest⟩
  · rintro ⟨s', hfirst, hrest⟩
    exact Steps.append (.snoc .nil hfirst) hrest

/-- The invariant rule: what holds initially and is kept by every step holds
after every run. -/
theorem Steps.invariant {Inv : σ → Prop}
    (hstep : ∀ s i s', Inv s → step s i s' → Inv s') {s s' : σ} {is : List ι}
    (hrun : Steps step s is s') (h : Inv s) : Inv s' := by
  induction hrun with
  | nil => exact h
  | snoc _ hlast ih => exact hstep _ _ _ ih hlast

/-- A run by steps that are steps of another transition is a run of that one. -/
theorem Steps.weaken {step' : σ → ι → σ → Prop} (h : ∀ s i s', step s i s' → step' s i s')
    {s s' : σ} {is : List ι} (hrun : Steps step s is s') : Steps step' s is s' := by
  induction hrun with
  | nil => exact .nil
  | snoc _ hlast ih => exact .snoc ih (h _ _ _ hlast)

/-- What is seen of a run, where each step is seen as a step of another transition. -/
theorem Steps.project {τ : Type*} {step' : τ → ι → τ → Prop} (f : σ → τ)
    (h : ∀ s i s', step s i s' → step' (f s) i (f s')) {s s' : σ} {is : List ι}
    (hrun : Steps step s is s') : Steps step' (f s) is (f s') := by
  induction hrun with
  | nil => exact .nil
  | snoc _ hlast ih => exact .snoc ih (h _ _ _ hlast)

/-- The transition with the state it begins in as part of the label. -/
def Traced (step : σ → ι → σ → Prop) (s : σ) (e : σ × ι) (s' : σ) : Prop :=
  e.1 = s ∧ step s e.2 s'

theorem Steps.tracedSnoc {s s' s'' : σ} {es : List (σ × ι)} {i : ι}
    (hrun : Steps (Traced step) s es s') (hlast : step s' i s'') :
    Steps (Traced step) s (es ++ [(s', i)]) s'' :=
  .snoc hrun ⟨rfl, hlast⟩

end Transition
