import Mathlib.Data.List.Pairwise
import Mathlib.Data.List.Sort
import Mathlib.Order.CompletePartialOrder
import Mathlib.Order.Interval.Set.Disjoint

/-!
# Lists of closed intervals

Records `ρ` that each occupy a closed interval `[lo r, hi r]` of a linear order.
A list of them is searched first to last; when the intervals are pairwise
disjoint the search has at most one answer, and when the list is also sorted by
upper end the intervals stand in increasing order.
-/

namespace Intervals

variable {ρ α : Type*} [LinearOrder α] {lo hi : ρ → α}

/-- The points of the interval of `r`. -/
def span (lo hi : ρ → α) (r : ρ) : Set α := Set.Icc (lo r) (hi r)

/-- The intervals of `r` and `s` have no common point. -/
def Apart (lo hi : ρ → α) (r s : ρ) : Prop := Disjoint (span lo hi r) (span lo hi s)

theorem Apart.symm {r s : ρ} (h : Apart lo hi r s) : Apart lo hi s r := Disjoint.symm h

theorem Apart.not_mem {r s : ρ} (h : Apart lo hi r s) {a : α} (hr : a ∈ span lo hi r) :
    a ∉ span lo hi s := fun hs => Set.disjoint_left.mp h hr hs

/-- Two nonempty intervals are apart when one ends before the other begins. -/
theorem apart_iff {r s : ρ} (hr : lo r ≤ hi r) (hs : lo s ≤ hi s) :
    Apart lo hi r s ↔ hi r < lo s ∨ hi s < lo r := by
  constructor
  · intro h
    rcases lt_or_ge (hi r) (lo s) with hlt | hge
    · exact .inl hlt
    · rcases le_total (lo r) (lo s) with hle | hle
      · exact absurd ⟨le_refl _, hs⟩ (h.not_mem (a := lo s) ⟨hle, hge⟩)
      · rcases lt_or_ge (hi s) (lo r) with hlt | hge'
        · exact .inr hlt
        · exact absurd ⟨hle, hge'⟩ (h.not_mem (a := lo r) ⟨le_refl _, hr⟩)
  · intro h
    refine Set.disjoint_left.mpr fun a hra hsa => ?_
    rcases h with h | h
    · exact absurd (lt_of_lt_of_le h hsa.1) (not_lt.mpr hra.2)
    · exact absurd (lt_of_lt_of_le h hra.1) (not_lt.mpr hsa.2)

theorem apart_of_mem {l : List ρ} (hd : l.Pairwise (Apart lo hi)) {r s : ρ} (hr : r ∈ l)
    (hs : s ∈ l) (hne : r ≠ s) : Apart lo hi r s :=
  haveI : Std.Symm (Apart (ρ := ρ) lo hi) := ⟨fun _ _ h => h.symm⟩
  hd.forall hr hs hne

/-- In a pairwise disjoint list a point lies in the interval at one position only. -/
theorem index_unique {l : List ρ} (hd : l.Pairwise (Apart lo hi)) {i j : Nat} {r s : ρ} {a : α}
    (hi' : l[i]? = some r) (hj : l[j]? = some s) (har : a ∈ span lo hi r)
    (has : a ∈ span lo hi s) : i = j := by
  obtain ⟨hil, rfl⟩ := List.getElem?_eq_some_iff.mp hi'
  obtain ⟨hjl, rfl⟩ := List.getElem?_eq_some_iff.mp hj
  rcases Nat.lt_trichotomy i j with h | h | h
  · exact absurd has ((List.pairwise_iff_getElem.mp hd i j hil hjl h).not_mem har)
  · exact h
  · exact absurd har ((List.pairwise_iff_getElem.mp hd j i hjl hil h).not_mem has)

/-- Sorted by upper end and pairwise disjoint, nonempty intervals increase. -/
theorem pairwise_lt {l : List ρ} (hne : ∀ r ∈ l, lo r ≤ hi r)
    (hs : l.Pairwise (fun r s => hi r ≤ hi s)) (hd : l.Pairwise (Apart lo hi)) :
    l.Pairwise (fun r s => hi r < lo s) := by
  refine (hs.and hd).imp_of_mem ?_
  rintro r s hr hs' ⟨hle, hap⟩
  rcases (apart_iff (hne r hr) (hne s hs')).mp hap with h | h
  · exact h
  · exact absurd (lt_of_lt_of_le h (hne r hr)) (not_lt.mpr hle)

/-- Two orders of the same disjoint nonempty intervals that are both sorted by
upper end are the same list: no sort has a choice. -/
theorem eq_of_perm {l l' : List ρ} (hp : l.Perm l') (hne : ∀ r ∈ l, lo r ≤ hi r)
    (hd : l.Pairwise (Apart lo hi)) (hs : l.Pairwise (fun r s => hi r ≤ hi s))
    (hs' : l'.Pairwise (fun r s => hi r ≤ hi s)) : l = l' := by
  have hne' : ∀ r ∈ l', lo r ≤ hi r := fun r hr => hne r (hp.mem_iff.mpr hr)
  have hd' : l'.Pairwise (Apart lo hi) := hp.pairwise hd (fun h => h.symm)
  refine hp.eq_of_pairwise ?_ (pairwise_lt hne hs hd) (pairwise_lt hne' hs' hd')
  intro r s hr hs₁ hrs hsr
  have h1 := hne r hr
  have h2 := hne' s hs₁
  exact absurd (lt_of_lt_of_le (lt_of_lt_of_le hrs h2) (le_of_lt (lt_of_lt_of_le hsr h1)))
    (lt_irrefl _)

end Intervals
