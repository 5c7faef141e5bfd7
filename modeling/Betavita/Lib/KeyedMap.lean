import Mathlib.Logic.Function.Basic

/-!
# Maps filled from a list

`insertAll` enters the pairs of a list into a map one after the other: a later pair
replaces an earlier one of the same key.
-/

namespace KeyedMap

variable {κ ν : Type*} [DecidableEq κ]

/-- The map after `m[key] = value` for every pair, in order. -/
def insertAll (m : κ → Option ν) : List (κ × ν) → κ → Option ν
  | [] => m
  | e :: rest => insertAll (Function.update m e.1 (some e.2)) rest

theorem insertAll_append (m : κ → Option ν) (as bs : List (κ × ν)) :
    insertAll m (as ++ bs) = insertAll (insertAll m as) bs := by
  induction as generalizing m with
  | nil => rfl
  | cons a as ih => exact ih _

/-- A key that no pair has keeps its value. -/
theorem insertAll_of_not_mem {m : κ → Option ν} {pairs : List (κ × ν)} {k : κ}
    (h : ∀ e ∈ pairs, e.1 ≠ k) : insertAll m pairs k = m k := by
  induction pairs generalizing m with
  | nil => rfl
  | cons e rest ih =>
    rw [insertAll, ih fun e' he' => h e' (List.mem_cons_of_mem _ he')]
    exact Function.update_of_ne (h e List.mem_cons_self).symm _ _

/-- Every value of the filled map is that of a pair, or was there before. -/
theorem mem_of_insertAll {m : κ → Option ν} {pairs : List (κ × ν)} {k : κ} {v : ν}
    (h : insertAll m pairs k = some v) : (k, v) ∈ pairs ∨ m k = some v := by
  induction pairs generalizing m with
  | nil => exact .inr h
  | cons e rest ih =>
    rcases ih h with hmem | hm
    · exact .inl (List.mem_cons_of_mem _ hmem)
    · by_cases hk : k = e.1
      · subst hk
        rw [Function.update_self] at hm
        cases hm
        exact .inl List.mem_cons_self
      · rw [Function.update_of_ne hk] at hm
        exact .inr hm

/-- A pair whose key has no other value in the list is what the map holds. -/
theorem insertAll_of_mem {m : κ → Option ν} {pairs : List (κ × ν)} {k : κ} {v : ν}
    (hmem : (k, v) ∈ pairs) (huniq : ∀ v', (k, v') ∈ pairs → v' = v) :
    insertAll m pairs k = some v := by
  induction pairs generalizing m with
  | nil => cases hmem
  | cons e rest ih =>
    -- either the key comes again in the rest, or the value of the first pair stays
    by_cases hrest : (k, v) ∈ rest
    · exact ih hrest fun v' hv' => huniq v' (List.mem_cons_of_mem _ hv')
    · have he : e = (k, v) := ((List.mem_cons.mp hmem).resolve_right hrest).symm
      subst he
      have hnone : ∀ e' ∈ rest, e'.1 ≠ k := by
        intro e' he' hkey
        obtain ⟨k', v'⟩ := e'
        cases hkey
        exact hrest (huniq v' (List.mem_cons_of_mem _ he') ▸ he')
      rw [insertAll, insertAll_of_not_mem hnone]
      exact Function.update_self ..

/-- The last writer wins: a key has the value of the last pair with that key, or the one it
had before. -/
theorem insertAll_eq_find? (m : κ → Option ν) (pairs : List (κ × ν)) (k : κ) :
    insertAll m pairs k =
      match pairs.reverse.find? fun e => decide (e.1 = k) with
      | some e => some e.2
      | none => m k := by
  induction pairs generalizing m with
  | nil => rfl
  | cons e rest ih =>
    rw [insertAll, ih, List.reverse_cons, List.find?_append]
    cases hrest : rest.reverse.find? fun e => decide (e.1 = k) with
    | some e' => rfl
    | none =>
      by_cases hk : e.1 = k
      · subst hk
        simp
      · simp [hk, Function.update_of_ne (Ne.symm hk)]

/-- Entering the same pairs once more changes nothing. -/
theorem insertAll_idem (m : κ → Option ν) (pairs : List (κ × ν)) :
    insertAll (insertAll m pairs) pairs = insertAll m pairs := by
  funext k
  rw [insertAll_eq_find? (insertAll m pairs), insertAll_eq_find? m]
  cases pairs.reverse.find? fun e => decide (e.1 = k) <;> rfl

end KeyedMap
