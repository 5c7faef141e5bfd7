import Mathlib.Data.List.Basic
import Betavita.Lib.Results

/-!
# Machines that answer

A machine takes a call, answers it and goes on from another state, or it fails. It
implements a specification through a view of its states: where an invariant holds, no call
fails, the answer is the specified one and the view goes on as specified. Then whole
conversations agree.
-/

namespace Simulation

open Results

variable {σ τ ι ο ε : Type}

/-- The calls one after another, with the answers. -/
def converse (step : σ → ι → Except ε (σ × ο)) : σ → List ι → Except ε (σ × List ο)
  | s, [] => .ok (s, [])
  | s, i :: is => do
    let (s, o) ← step s i
    let (s, os) ← converse step s is
    return (s, o :: os)

/-- The same for a specification, which does not fail. -/
def specified (spec : τ → ι → τ × ο) : τ → List ι → τ × List ο
  | t, [] => (t, [])
  | t, i :: is =>
    let (t, o) := spec t i
    let (t, os) := specified spec t is
    (t, o :: os)

/-- Where the invariant holds the machine does what is specified for the view. -/
def Implements (step : σ → ι → Except ε (σ × ο)) (spec : τ → ι → τ × ο) (Inv : σ → Prop)
    (view : σ → τ) : Prop :=
  ∀ s i, Inv s → ∃ s', step s i = .ok (s', (spec (view s) i).2) ∧
    view s' = (spec (view s) i).1 ∧ Inv s'

variable {step : σ → ι → Except ε (σ × ο)} {spec : τ → ι → τ × ο} {Inv : σ → Prop}
  {view : σ → τ}

theorem converse_cons {s s' s'' : σ} {i : ι} {is : List ι} {o : ο} {os : List ο}
    (h : step s i = .ok (s', o)) (hrest : converse step s' is = .ok (s'', os)) :
    converse step s (i :: is) = .ok (s'', o :: os) := by
  simp only [converse, h, ok_bind, hrest]
  rfl

/-- One call after another, the machine and the specification give the same answers. -/
theorem Implements.converse (h : Implements step spec Inv view) {s : σ} (hs : Inv s)
    (is : List ι) :
    ∃ s', Simulation.converse step s is = .ok (s', (specified spec (view s) is).2) ∧
      view s' = (specified spec (view s) is).1 ∧ Inv s' := by
  induction is generalizing s with
  | nil => exact ⟨s, rfl, rfl, hs⟩
  | cons i is ih =>
    obtain ⟨s₁, hstep, hview, hs₁⟩ := h s i hs
    obtain ⟨s', hrun, hview', hs'⟩ := ih hs₁
    rw [hview] at hrun hview'
    exact ⟨s', converse_cons hstep hrun, hview', hs'⟩

end Simulation
