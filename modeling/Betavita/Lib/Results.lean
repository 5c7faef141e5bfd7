/-!
# Sequences of results

The rules by which a sequence of `Except` computations is taken apart.
-/

namespace Results

/-- The sequencing rule: an outcome of a sequence is an outcome of its parts. -/
theorem bind_ok {ε α β : Type} {x : Except ε α} {f : α → Except ε β} {b : β} :
    (x >>= f) = .ok b ↔ ∃ a, x = .ok a ∧ f a = .ok b := by
  cases x with
  | error e => simp [Bind.bind, Except.bind]
  | ok a => simp [Bind.bind, Except.bind]

/-- A sequence goes on with the result of its first part. -/
theorem ok_bind {ε α β : Type} (a : α) (f : α → Except ε β) :
    ((Except.ok a : Except ε α) >>= f) = f a := rfl

/-- A sequence that ends with a result has one exactly when its first part does. -/
theorem exists_bind_ok {ε α β : Type} {x : Except ε α} {f : α → β} :
    (∃ b, (x >>= fun a => .ok (f a)) = .ok b) ↔ ∃ a, x = .ok a := by
  constructor
  · rintro ⟨b, hb⟩
    obtain ⟨a, ha, -⟩ := bind_ok.mp hb
    exact ⟨a, ha⟩
  · rintro ⟨a, ha⟩
    exact ⟨f a, bind_ok.mpr ⟨a, ha, rfl⟩⟩

/-- What is computed of a result. -/
theorem eq_of_map_ok {ε α β : Type} {x : Except ε α} {a : α} (f : α → β) {b : β}
    (hx : x = .ok a) (h : x.map f = .ok b) : f a = b := by
  rw [hx] at h
  exact Except.ok.inj h

/-- A result is computed of a result. -/
theorem map_ok {ε α β : Type} {x : Except ε α} {f : α → β} {b : β} :
    x.map f = .ok b ↔ ∃ a, x = .ok a ∧ f a = b := by
  cases x with
  | error e => simp [Except.map]
  | ok a => simp [Except.map]

theorem exists_map_ok {ε α β : Type} {x : Except ε α} {f : α → β} :
    (∃ b, x.map f = .ok b) ↔ ∃ a, x = .ok a := by
  cases x with
  | error e => simp [Except.map]
  | ok a => simp [Except.map]

end Results
