import Mathlib.Init

/-!
# Loops that test behind the body

`do { ... } while (condition);` with a body that has no result, or leaves the loop, or goes
on. Fuel bounds the turns. A loop ends when each turn that goes on keeps an invariant and
leaves less to do.
-/

namespace DoWhile

variable {ε σ : Type}

/-- A turn: the state it leaves, and whether the loop goes on. -/
abbrev Body (ε σ : Type) := σ → Except ε (σ × Bool)

/-- The loop, for at most `fuel` turns. -/
def doWhile (body : Body ε σ) (outOfFuel : ε) : Nat → σ → Except ε σ
  | 0, _ => .error outOfFuel
  | fuel + 1, s =>
    match body s with
    | .error e => .error e
    | .ok (s', false) => .ok s'
    | .ok (s', true) => doWhile body outOfFuel fuel s'

/-- What a turn does to the state: it goes on with the invariant and with less left, or it
leaves the loop with the postcondition. -/
inductive Progress (body : Body ε σ) (Inv Post : σ → Prop) (left : σ → Nat) (s : σ) : Prop
  | goesOn {s' : σ} (turn : body s = .ok (s', true)) (inv : Inv s') (less : left s' < left s)
  | leaves {s' : σ} (turn : body s = .ok (s', false)) (post : Post s')

variable {body : Body ε σ} {outOfFuel : ε}

theorem doWhile_goesOn {s s' : σ} (h : body s = .ok (s', true)) (fuel : Nat) :
    doWhile body outOfFuel (fuel + 1) s = doWhile body outOfFuel fuel s' := by
  rw [doWhile, h]

theorem doWhile_leaves {s s' : σ} (h : body s = .ok (s', false)) (fuel : Nat) :
    doWhile body outOfFuel (fuel + 1) s = .ok s' := by
  rw [doWhile, h]

/-- The rule of the loop: it ends, with the postcondition, before the fuel does. -/
theorem doWhile_ok {Inv Post : σ → Prop} {left : σ → Nat}
    (hturn : ∀ s, Inv s → Progress body Inv Post left s) {s : σ} (h : Inv s) {fuel : Nat}
    (hfuel : left s < fuel) : ∃ s', doWhile body outOfFuel fuel s = .ok s' ∧ Post s' := by
  induction fuel generalizing s with
  | zero => exact absurd hfuel (Nat.not_lt_zero _)
  | succ fuel ih =>
    cases hturn s h with
    | goesOn turn inv less =>
      rw [doWhile_goesOn turn]
      exact ih inv (by omega)
    | leaves turn post => exact ⟨_, doWhile_leaves turn fuel, post⟩

end DoWhile
