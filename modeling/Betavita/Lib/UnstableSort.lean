import Mathlib.Data.List.Perm.Basic
import Mathlib.Data.List.Sort
import Mathlib.Data.List.TakeWhile

/-!
# Sorting with an unstable sort

A sort that is not stable may leave elements that are related both ways in any order.
`SortsTo` says what it can make of a list, and the lemmas say which outcomes there are.
-/

namespace UnstableSort

variable {α β : Type*} {r : α → α → Prop}

/-- What the sort leaves: the same elements, in the order of the relation. -/
structure SortsTo (r : α → α → Prop) (l sorted : List α) : Prop where
  perm : sorted.Perm l
  ordered : sorted.Pairwise r

theorem SortsTo.map {f : β → α} {l sorted : List β}
    (h : SortsTo (fun a b => r (f a) (f b)) l sorted) : SortsTo r (l.map f) (sorted.map f) :=
  ⟨h.perm.map f, List.pairwise_map.mpr h.ordered⟩

/-- Every outcome for the images of a list is the image of one for the list. -/
theorem SortsTo.exists_of_map {f : β → α} {l : List β} {sorted : List α}
    (h : SortsTo r (l.map f) sorted) :
    ∃ sorted', sorted = sorted'.map f ∧ SortsTo (fun a b => r (f a) (f b)) l sorted' := by
  have hlift := congrFun (congrFun (List.eq_map_comp_perm f) sorted) l
  obtain ⟨sorted', rfl, hperm⟩ := hlift.mpr h.perm
  exact ⟨sorted', rfl, hperm, List.pairwise_map.mp h.ordered⟩

variable [DecidableRel r] [Std.Total r] [IsTrans α r]

/-- A stable sort is one of them. -/
theorem sortsTo_insertionSort (l : List α) : SortsTo r l (l.insertionSort r) :=
  ⟨List.perm_insertionSort r l, List.pairwise_insertionSort r l⟩

/-- Any element may come to stand in front of all it is related to. -/
theorem exists_sortsTo_front {l : List α} {a : α} (ha : a ∈ l) :
    ∃ front back, SortsTo r l (front ++ a :: back) ∧ ∀ b ∈ front, ¬ r a b := by
  obtain ⟨before, after, rfl⟩ := List.append_of_mem ha
  -- sorted stably with `a` at the head of the list
  have hsort := sortsTo_insertionSort (r := r) (a :: (before ++ after))
  rw [List.insertionSort_cons_eq_take_drop] at hsort
  refine ⟨_, _, ⟨hsort.perm.trans List.perm_middle.symm, hsort.ordered⟩, fun b hb => ?_⟩
  simpa using List.mem_takeWhile_imp hb

end UnstableSort
