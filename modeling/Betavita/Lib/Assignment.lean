import Mathlib.Data.List.Pairwise
import Mathlib.Data.Set.Defs

/-!
# Constant assignments

An assignment writes constants to a fixed set of places, whatever was there. In a list
of assignments the last one that writes a place decides what it holds, so carrying the
list out once more changes nothing; and assignments to disjoint sets of places commute.
-/

/-- Constants for a set of places. -/
structure Assignment (ι α : Type*) where
  places : Set ι
  value : ι → α

namespace Assignment

variable {ι α : Type*}

open Classical in
/-- The store with the constants written. -/
noncomputable def write (store : ι → α) (a : Assignment ι α) : ι → α :=
  fun i => if i ∈ a.places then a.value i else store i

/-- The assignments carried out one after the other. -/
noncomputable def writeAll (store : ι → α) (as : List (Assignment ι α)) : ι → α :=
  as.foldl write store

theorem write_of_mem {store : ι → α} {a : Assignment ι α} {i : ι} (h : i ∈ a.places) :
    write store a i = a.value i := if_pos h

theorem write_of_not_mem {store : ι → α} {a : Assignment ι α} {i : ι} (h : i ∉ a.places) :
    write store a i = store i := if_neg h

@[simp] theorem writeAll_nil (store : ι → α) : writeAll store [] = store := rfl

@[simp] theorem writeAll_cons (store : ι → α) (a : Assignment ι α) (as : List (Assignment ι α)) :
    writeAll store (a :: as) = writeAll (write store a) as := rfl

theorem writeAll_append (store : ι → α) (as bs : List (Assignment ι α)) :
    writeAll store (as ++ bs) = writeAll (writeAll store as) bs := List.foldl_append

/-- What a place holds afterwards depends on the store before only if nothing is written
to it. -/
theorem writeAll_congr {store store' : ι → α} {as : List (Assignment ι α)} {i : ι}
    (h : (∀ a ∈ as, i ∉ a.places) → store i = store' i) :
    writeAll store as i = writeAll store' as i := by
  induction as generalizing store store' with
  | nil => exact h (by simp)
  | cons a as ih =>
    rw [writeAll_cons, writeAll_cons]
    refine ih fun has => ?_
    by_cases ha : i ∈ a.places
    · rw [write_of_mem ha, write_of_mem ha]
    · rw [write_of_not_mem ha, write_of_not_mem ha]
      exact h (List.forall_mem_cons.mpr ⟨ha, has⟩)

theorem writeAll_of_not_mem {store : ι → α} {as : List (Assignment ι α)} {i : ι}
    (h : ∀ a ∈ as, i ∉ a.places) : writeAll store as i = store i := by
  induction as generalizing store with
  | nil => rfl
  | cons a as ih =>
    obtain ⟨ha, has⟩ := List.forall_mem_cons.mp h
    rw [writeAll_cons, ih has, write_of_not_mem ha]

/-- Carried out a second time, the assignments change nothing. -/
theorem writeAll_writeAll (store : ι → α) (as : List (Assignment ι α)) :
    writeAll (writeAll store as) as = writeAll store as :=
  funext fun _ => writeAll_congr fun h => writeAll_of_not_mem h

/-- What is written last to a place is what the place held before. -/
def Restores (store : ι → α) (as : List (Assignment ι α)) : Prop :=
  ∀ front a back, as = front ++ a :: back → ∀ i ∈ a.places, (∀ b ∈ back, i ∉ b.places) →
    a.value i = store i

/-- The assignments leave everything as it was exactly when what is written last to each place
is what it held. -/
theorem writeAll_eq_self_iff {store : ι → α} {as : List (Assignment ι α)} :
    writeAll store as = store ↔ Restores store as := by
  constructor
  · rintro h front a back rfl i hi hback
    rw [← congrFun h i, writeAll_append, writeAll_cons, writeAll_of_not_mem hback, write_of_mem hi]
  · intro h
    funext i
    induction as with
    | nil => rfl
    | cons a as ih =>
      rw [writeAll_cons]
      by_cases has : ∀ b ∈ as, i ∉ b.places
      · rw [writeAll_of_not_mem has]
        by_cases ha : i ∈ a.places
        · rw [write_of_mem ha]
          exact h [] a as rfl i ha has
        · exact write_of_not_mem ha
      · -- something behind writes the place, so `a` does not matter
        rw [writeAll_congr fun hno => absurd hno has]
        refine ih fun front b back hsplit => h (a :: front) b back ?_
        rw [hsplit, List.cons_append]

/-- The two assignments write no place in common. -/
def Apart (a b : Assignment ι α) : Prop := ∀ i ∈ a.places, i ∉ b.places

theorem Apart.symm {a b : Assignment ι α} (h : Apart a b) : Apart b a :=
  fun i hb ha => h i ha hb

theorem Apart.write_comm {a b : Assignment ι α} (h : Apart a b) (store : ι → α) :
    write (write store a) b = write (write store b) a := by
  funext i
  by_cases ha : i ∈ a.places
  · have hb : i ∉ b.places := h i ha
    rw [write_of_not_mem hb, write_of_mem ha, write_of_mem ha]
  · by_cases hb : i ∈ b.places
    · rw [write_of_mem hb, write_of_not_mem ha, write_of_mem hb]
    · rw [write_of_not_mem hb, write_of_not_mem ha, write_of_not_mem ha, write_of_not_mem hb]

/-- Pairwise disjoint assignments can be carried out in any order. -/
theorem writeAll_perm {as bs : List (Assignment ι α)} (hp : as.Perm bs)
    (hd : as.Pairwise Apart) (store : ι → α) : writeAll store as = writeAll store bs := by
  refine hp.foldl_eq' (fun a ha b hb store => ?_) store
  rcases eq_or_ne a b with rfl | hne
  · rfl
  · have : Std.Symm (Apart (ι := ι) (α := α)) := ⟨fun _ _ h => h.symm⟩
    exact (hd.forall ha hb hne).write_comm store

end Assignment
