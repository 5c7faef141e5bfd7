import Mathlib.Logic.Relation
import Mathlib.Tactic.ByContra

/-!
# Things that own others

`child a b` says that `a` owns `b`. Where everything has at most one owner, which ranks
below it, the things form a forest: what two of them have in common belongs to one of
the two, and siblings have nothing in common.
-/

namespace Ownership

variable {α : Type*}

/-- Everything owned has this owner, of smaller rank. -/
structure Forest (child : α → α → Prop) (owner : α → α) (rank : α → Nat) : Prop where
  owner_eq : ∀ {a b}, child a b → owner b = a
  rank_lt : ∀ {a b}, child a b → rank a < rank b

/-- What is owned directly or not, with the thing itself. -/
abbrev Owns (child : α → α → Prop) : α → α → Prop := Relation.ReflTransGen child

variable {child : α → α → Prop} {owner : α → α} {rank : α → Nat}

theorem Forest.rank_le (h : Forest child owner rank) {a b : α} (hab : Owns child a b) :
    rank a ≤ rank b := by
  induction hab with
  | refl => exact Nat.le_refl _
  | tail _ hlast ih => exact Nat.le_trans ih (Nat.le_of_lt (h.rank_lt hlast))

/-- What is in a tree and not its root has its owner in the tree. -/
theorem Forest.owns_owner (h : Forest child owner rank) {a b : α} (hab : Owns child a b)
    (hne : b ≠ a) : Owns child a (owner b) ∧ child (owner b) b := by
  cases hab with
  | refl => exact absurd rfl hne
  | @tail c _ hac hcb =>
    rw [h.owner_eq hcb]
    exact ⟨hac, hcb⟩

/-- A thing does not own its owner. -/
theorem Forest.not_owns_owner (h : Forest child owner rank) {a b : α} (hab : child a b) :
    ¬ Owns child b a :=
  fun hba => absurd (h.rank_le hba) (Nat.not_le.mpr (h.rank_lt hab))

/-- Of two things that own a third one owns the other. -/
theorem Forest.comparable (h : Forest child owner rank) {a b c : α} (hac : Owns child a c)
    (hbc : Owns child b c) : Owns child a b ∨ Owns child b a := by
  induction hac with
  | refl => exact .inr hbc
  | @tail x y hax hxy ih =>
    cases hbc with
    | refl => exact .inl (hax.tail hxy)
    | @tail z _ hbz hzy =>
      have hzx : z = x := (h.owner_eq hzy).symm.trans (h.owner_eq hxy)
      exact ih (hzx ▸ hbz)

/-- The trees of siblings are disjoint. -/
theorem Forest.siblings (h : Forest child owner rank) {a b b' c : α} (hb : child a b)
    (hb' : child a b') (hc : Owns child b c) (hc' : Owns child b' c) : b = b' := by
  have hone : ∀ {x y}, child a x → child a y → Owns child x y → y = x := by
    intro x y hx hy hxy
    by_contra hne
    obtain ⟨howner, -⟩ := h.owns_owner hxy hne
    rw [h.owner_eq hy] at howner
    exact h.not_owns_owner hx howner
  rcases h.comparable hc hc' with hbb | hbb
  · exact (hone hb hb' hbb).symm
  · exact hone hb' hb hbb

/-- Two things that nobody owns own nothing in common. -/
theorem Forest.top_unique (h : Forest child owner rank) {a b c : α} (ha : ∀ x, ¬ child x a)
    (hb : ∀ x, ¬ child x b) (hac : Owns child a c) (hbc : Owns child b c) : a = b := by
  have hone : ∀ {x y}, (∀ z, ¬ child z y) → Owns child x y → x = y := by
    intro x y hy hxy
    cases hxy with
    | refl => rfl
    | tail _ hlast => exact absurd hlast (hy _)
  rcases h.comparable hac hbc with hab | hba
  · exact hone hb hab
  · exact (hone ha hba).symm

/-- Where everything but the tops has its owner, everything is in the tree of a top. -/
theorem Forest.exists_top (h : Forest child owner rank) {live top : α → Prop}
    (hlive : ∀ b, live b → top b ∨ live (owner b) ∧ child (owner b) b) {b : α} (hb : live b) :
    ∃ a, top a ∧ Owns child a b := by
  induction hn : rank b using Nat.strongRecOn generalizing b with
  | ind n ih =>
    rcases hlive b hb with htop | ⟨howner, hchild⟩
    · exact ⟨b, htop, .refl⟩
    · obtain ⟨a, ha, hown⟩ := ih _ (hn ▸ h.rank_lt hchild) howner rfl
      exact ⟨a, ha, hown.tail hchild⟩

end Ownership
