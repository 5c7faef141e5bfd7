import Betavita.Lib.Results

/-!
# Counted loops

`for (i = first; i < first + n; i++)` with a body that has no result, or leaves the loop, or
goes on: what the loop computes, by the states it gets to.
-/

namespace CountedLoop

open Results

variable {ε σ : Type}

/-- A turn: the state it leaves, and whether the loop goes on. -/
abbrev Turn (ε σ : Type) := Nat → σ → Except ε (σ × Bool)

/-- `n` turns from `i` on. -/
def turns (turn : Turn ε σ) : Nat → Nat → σ → Except ε (σ × Bool)
  | 0, _, s => .ok (s, true)
  | n + 1, i, s =>
    match turn i s with
    | .error e => .error e
    | .ok (s', false) => .ok (s', false)
    | .ok (s', true) => turns turn n (i + 1) s'

/-- The loop that starts with turn `i` gets to turn `j`, in the state. -/
inductive Gets (turn : Turn ε σ) (i : Nat) (s : σ) : Nat → σ → Prop
  | start : Gets turn i s i s
  | step {j s' s''} : Gets turn i s j s' → turn j s' = .ok (s'', true) →
      Gets turn i s (j + 1) s''

variable {turn : Turn ε σ} {i j n : Nat} {s s' s'' : σ}

theorem Gets.le (h : Gets turn i s j s') : i ≤ j := by
  induction h with
  | start => exact Nat.le_refl i
  | step _ _ ih => exact Nat.le_succ_of_le ih

/-- The state at a turn is the only one. -/
theorem Gets.unique (h : Gets turn i s j s') (h' : Gets turn i s j s'') : s' = s'' := by
  induction h generalizing s'' with
  | start =>
    cases h' with
    | start => rfl
    | step hgets _ => exact absurd hgets.le (Nat.not_succ_le_self _)
  | step hgets hturn ih =>
    cases h' with
    | start => exact absurd hgets.le (Nat.not_succ_le_self _)
    | step hgets' hturn' =>
      cases ih hgets'
      cases hturn.symm.trans hturn'
      rfl

/-- The loop has got to every turn before. -/
theorem Gets.before (h : Gets turn i s j s') {k : Nat} (hik : i ≤ k) (hkj : k ≤ j) :
    ∃ s'', Gets turn i s k s'' := by
  induction h with
  | start =>
    obtain rfl : k = i := Nat.le_antisymm hkj hik
    exact ⟨s, .start⟩
  | step hgets hturn ih =>
    rcases Nat.lt_or_eq_of_le hkj with hlt | rfl
    · exact ih (Nat.le_of_lt_succ hlt)
    · exact ⟨_, .step hgets hturn⟩

/-- Turns that follow each other are one loop. -/
theorem turns_append (m : Nat) : turns turn (m + n) i s =
    (turns turn m i s >>= fun r => if r.2 then turns turn n (i + m) r.1 else .ok r) := by
  induction m generalizing i s with
  | zero => simp [turns, ok_bind]
  | succ m ih =>
    rw [Nat.add_right_comm, turns, turns]
    cases turn i s with
    | error e => rfl
    | ok r =>
      obtain ⟨s₁, goesOn⟩ := r
      cases goesOn with
      | false => rfl
      | true =>
        show turns turn (m + n) (i + 1) s₁ = _
        rw [ih, Nat.add_right_comm i 1 m]
        rfl

/-- The last turn of a loop. -/
theorem turns_succ : turns turn (n + 1) i s =
    (turns turn n i s >>= fun r => if r.2 then turn (i + n) r.1 else .ok r) := by
  have hone : ∀ s, turns turn 1 (i + n) s = turn (i + n) s := by
    intro s
    rw [turns]
    cases turn (i + n) s with
    | error e => rfl
    | ok r =>
      obtain ⟨s₁, goesOn⟩ := r
      cases goesOn <;> rfl
  simp only [turns_append, hone]

/-- The loop runs to its end in the state in which it would get to a further turn. -/
theorem turns_true_iff : turns turn n i s = .ok (s', true) ↔ Gets turn i s (i + n) s' := by
  induction n generalizing s' with
  | zero =>
    constructor
    · intro h
      cases h
      exact .start
    · intro h
      cases h.unique .start
      rfl
  | succ n ih =>
    rw [turns_succ, bind_ok]
    constructor
    · intro h
      obtain ⟨⟨s₁, goesOn⟩, hturns, hturn⟩ := h
      cases goesOn with
      | false => cases hturn
      | true => exact .step (ih.mp hturns) hturn
    · intro h
      cases h with
      | step hgets hturn => exact ⟨_, ih.mpr hgets, hturn⟩

/-- A loop with a further turn has a result when that turn has one, if it is got to. -/
theorem turns_succ_isOk_iff : (∃ r, turns turn (n + 1) i s = .ok r) ↔
    (∃ r, turns turn n i s = .ok r) ∧
      ∀ s', Gets turn i s (i + n) s' → ∃ r, turn (i + n) s' = .ok r := by
  rw [turns_succ]
  constructor
  · intro h
    obtain ⟨r, h⟩ := h
    obtain ⟨r₁, hturns, hturn⟩ := bind_ok.mp h
    refine ⟨⟨r₁, hturns⟩, fun s' hgets => ?_⟩
    cases hturns.symm.trans (turns_true_iff.mpr hgets)
    exact ⟨r, hturn⟩
  · intro h
    obtain ⟨⟨⟨s₁, goesOn⟩, hturns⟩, hlast⟩ := h
    rw [hturns, ok_bind]
    cases goesOn with
    | false => exact ⟨_, rfl⟩
    | true => exact hlast s₁ (turns_true_iff.mp hturns)

/-- The loop has a result exactly when every turn has one that it gets to. -/
theorem turns_isOk_iff : (∃ r, turns turn n i s = .ok r) ↔
    ∀ j s', Gets turn i s j s' → j < i + n → ∃ r, turn j s' = .ok r := by
  induction n with
  | zero =>
    constructor
    · intro _ j s' hgets hj
      exact absurd hgets.le (by omega)
    · intro _
      exact ⟨_, rfl⟩
  | succ n ih =>
    rw [turns_succ_isOk_iff, ih]
    constructor
    · intro h j s' hgets hj
      by_cases hlast : j = i + n
      · subst hlast
        exact h.2 s' hgets
      · exact h.1 j s' hgets (by omega)
    · intro h
      exact ⟨fun j s' hgets hj => h j s' hgets (by omega),
        fun s' hgets => h (i + n) s' hgets (by omega)⟩

/-- The loop runs to its end exactly when every turn goes on that it gets to. -/
theorem turns_goesOn_iff : (∃ s', turns turn n i s = .ok (s', true)) ↔
    ∀ j s', Gets turn i s j s' → j < i + n → ∃ s'', turn j s' = .ok (s'', true) := by
  simp only [turns_true_iff]
  constructor
  · intro hend j s' hgets hj
    -- the loop has gone on behind turn `j`
    obtain ⟨s₁, hend⟩ := hend
    obtain ⟨s₂, hnext⟩ := hend.before (Nat.le_succ_of_le hgets.le) hj
    cases hnext with
    | start => exact absurd hgets.le (Nat.not_succ_le_self j)
    | step hgets' hturn =>
      cases hgets.unique hgets'
      exact ⟨s₂, hturn⟩
  · intro hgoes
    have hreach : ∀ k ≤ n, ∃ s', Gets turn i s (i + k) s' := by
      intro k hk
      induction k with
      | zero => exact ⟨s, .start⟩
      | succ k ih =>
        obtain ⟨s', hgets⟩ := ih (Nat.le_of_lt hk)
        obtain ⟨s'', hturn⟩ := hgoes (i + k) s' hgets (by omega)
        exact ⟨s'', .step hgets hturn⟩
    exact hreach n (Nat.le_refl n)

/-- The loop depends only on its own turns. -/
theorem turns_congr {turn' : Turn ε σ} (h : ∀ j, i ≤ j → j < i + n → turn j = turn' j) :
    turns turn n i s = turns turn' n i s := by
  induction n generalizing i s with
  | zero => rfl
  | succ n ih =>
    rw [turns, turns, h i (Nat.le_refl i) (by omega)]
    cases turn' i s with
    | error e => rfl
    | ok r =>
      obtain ⟨s₁, goesOn⟩ := r
      cases goesOn with
      | false => rfl
      | true => exact ih fun j hj hlt => h j (by omega) (by omega)

/-! ## Checks -/

/-- A turn that only looks at its index. -/
def check (test : Nat → Except ε Bool) : Turn ε Unit := fun i s => (test i).map fun b => (s, b)

section Check

variable {test : Nat → Except ε Bool}

theorem check_ok {b : Bool} : check test i () = .ok ((), b) ↔ test i = .ok b := by
  unfold check
  cases test i with
  | error e => simp [Except.map]
  | ok b' => simp [Except.map]

/-- A loop of checks gets to the turns before which all pass. -/
theorem gets_check_iff :
    Gets (check test) i () (i + n) () ↔ ∀ j, i ≤ j → j < i + n → test j = .ok true := by
  induction n with
  | zero =>
    constructor
    · intro _ j hj hlt
      omega
    · intro _
      exact .start
  | succ n ih =>
    constructor
    · intro h
      cases h with
      | step hgets hturn =>
        intro j hj hlt
        by_cases hlast : j = i + n
        · exact hlast ▸ check_ok.mp hturn
        · exact ih.mp hgets j hj (by omega)
    · intro h
      exact .step (ih.mpr fun j hj hlt => h j hj (by omega))
        (check_ok.mpr (h (i + n) (by omega) (by omega)))

theorem gets_check_zero_iff : Gets (check test) 0 () n () ↔ ∀ j < n, test j = .ok true := by
  have h := @gets_check_iff ε 0 n test
  simpa using h

variable {fits passes : Nat → Prop}

/-- A loop of checks has a result exactly when each test fits before which all pass. -/
theorem turns_check_isOk_iff (hfits : ∀ j, (∃ b, test j = .ok b) ↔ fits j)
    (hpasses : ∀ j, fits j → (test j = .ok true ↔ passes j)) :
    (∃ r, turns (check test) n 0 () = .ok r) ↔ ∀ j < n, (∀ k < j, passes k) → fits j := by
  rw [turns_isOk_iff]
  constructor
  · intro h j
    -- the tests before `j` fit, so passing them is going on
    induction j using Nat.strongRecOn with
    | ind j ih =>
      intro hj hpass
      have hgets : Gets (check test) 0 () j () := gets_check_zero_iff.mpr fun k hk =>
        (hpasses k (ih k hk (by omega) fun k' hk' => hpass k' (by omega))).mpr (hpass k hk)
      obtain ⟨⟨_, b⟩, hb⟩ := h j () hgets (by omega)
      exact (hfits j).mp ⟨b, check_ok.mp hb⟩
  · intro h j s' hgets hj
    have hbefore := gets_check_zero_iff.mp hgets
    have hfit := h j (by omega) fun k hk =>
      (hpasses k ((hfits k).mp ⟨_, hbefore k hk⟩)).mp (hbefore k hk)
    obtain ⟨b, hb⟩ := (hfits j).mpr hfit
    exact ⟨_, check_ok.mpr hb⟩

/-- It runs to its end when all pass. -/
theorem turns_check_true_iff (hfits : ∀ j, (∃ b, test j = .ok b) ↔ fits j)
    (hpasses : ∀ j, fits j → (test j = .ok true ↔ passes j))
    (h : ∀ j < n, (∀ k < j, passes k) → fits j) :
    turns (check test) n 0 () = .ok ((), true) ↔ ∀ j < n, passes j := by
  rw [turns_true_iff, Nat.zero_add, gets_check_zero_iff]
  constructor
  · intro hall j hj
    exact (hpasses j ((hfits j).mp ⟨_, hall j hj⟩)).mp (hall j hj)
  · intro hall j hj
    exact (hpasses j (h j hj fun k hk => hall k (by omega))).mpr (hall j hj)

end Check

end CountedLoop
