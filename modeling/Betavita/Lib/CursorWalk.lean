import Betavita.Lib.Results
import Mathlib.Data.List.Chain

/-!
# Loops over a table of records

`while (cursor < end) { ...; cursor += size; }`, where the records and their sizes are data:
a round on the record at the cursor has no result, or it refuses the record and ends the
loop, or it accepts the record and gives its size. The cursor is a machine word, so the sum
can wrap, and a size of zero stays where it is.
-/

namespace CursorWalk

open Results

variable {ε σ : Type} {w : Nat}

/-- A round at a cursor: the state it leaves, and the size of the record if it is accepted. -/
abbrev Round (ε σ : Type) (w : Nat) := BitVec w → σ → Except ε (σ × Option (BitVec w))

/-- The loop, for `fuel` tests of its condition: the flag is `false` when a record is refused. -/
def walk (round : Round ε σ w) (outOfFuel : ε) (end_ : BitVec w) :
    Nat → BitVec w → σ → Except ε (Bool × σ)
  | 0, _, _ => .error outOfFuel
  | fuel + 1, cursor, s =>
    if cursor < end_ then
      match round cursor s with
      | .error e => .error e
      | .ok (s', none) => .ok (false, s')
      | .ok (s', some size) => walk round outOfFuel end_ fuel (cursor + size) s'
    else .ok (true, s)

/-- A loop that ends: the records it accepted, with their sizes, its flag and its state. -/
inductive Run (round : Round ε σ w) (end_ : BitVec w) :
    BitVec w → σ → List (BitVec w × BitVec w) → Bool → σ → Prop
  | done {cursor s} : ¬ cursor < end_ → Run round end_ cursor s [] true s
  | refused {cursor s s'} : cursor < end_ → round cursor s = .ok (s', none) →
      Run round end_ cursor s [] false s'
  | next {cursor s s' s'' size records flag} : cursor < end_ →
      round cursor s = .ok (s', some size) →
      Run round end_ (cursor + size) s' records flag s'' →
      Run round end_ cursor s ((cursor, size) :: records) flag s''

/-- The loop gets to the cursor, in the state. -/
inductive Reaches (round : Round ε σ w) (end_ cursor₀ : BitVec w) (s₀ : σ) : BitVec w → σ → Prop
  | start : Reaches round end_ cursor₀ s₀ cursor₀ s₀
  | step {cursor s s' size} : Reaches round end_ cursor₀ s₀ cursor s → cursor < end_ →
      round cursor s = .ok (s', some size) → Reaches round end_ cursor₀ s₀ (cursor + size) s'

/-- The records lie one behind the other from `top` up to `end_`, in numbers. -/
inductive Tiles : Nat → Nat → List (Nat × Nat) → Prop
  | nil {top end_ : Nat} : end_ ≤ top → Tiles top end_ []
  | cons {top end_ size : Nat} {records : List (Nat × Nat)} : top < end_ → 0 < size →
      Tiles (top + size) end_ records → Tiles top end_ ((top, size) :: records)

/-- Records that tile a range are in it, in increasing order, each once. -/
theorem Tiles.increasing {top end_ : Nat} {records : List (Nat × Nat)}
    (h : Tiles top end_ records) :
    (records.map Prod.fst).Pairwise (· < ·) ∧
      ∀ r ∈ records, top ≤ r.1 ∧ r.1 < end_ := by
  induction h with
  | nil _ => exact ⟨.nil, by simp⟩
  | @cons top end_ size records hlt hpos _ ih =>
    obtain ⟨hinc, hmem⟩ := ih
    refine ⟨?_, fun r hr => ?_⟩
    · rw [List.map_cons, List.pairwise_cons]
      refine ⟨fun c hc => ?_, hinc⟩
      obtain ⟨r, hr, rfl⟩ := List.mem_map.mp hc
      have hr' := hmem r hr
      omega
    · rcases List.mem_cons.mp hr with rfl | hr
      · exact ⟨Nat.le_refl _, hlt⟩
      · have hr' := hmem r hr
        omega

/-- A record list of a run, in numbers. -/
def inNumbers (records : List (BitVec w × BitVec w)) : List (Nat × Nat) :=
  records.map fun r => (r.1.toNat, r.2.toNat)

/-- The records tile the range, and their addresses increase. -/
structure InOrder (address : BitVec w → Nat) (end_ cursor : BitVec w)
    (records : List (BitVec w × BitVec w)) : Prop where
  tiles : Tiles cursor.toNat end_.toNat (inNumbers records)
  increasing : (records.map fun r => address r.1).Pairwise (· < ·)

/-- The loop ends, and if it accepts the table, it has gone over its records in order. -/
def EndsInOrder (round : Round ε σ w) (address : BitVec w → Nat) (end_ cursor : BitVec w)
    (s : σ) : Prop :=
  ∃ records flag s', Run round end_ cursor s records flag s' ∧
    (flag = true → InOrder address end_ cursor records)

/-- The cursor moves up by the size, and so does the address if a further record begins there. -/
structure Advances (address : BitVec w → Nat) (end_ cursor size : BitVec w) : Prop where
  pos : 0 < size.toNat
  toNat_add : (cursor + size).toNat = cursor.toNat + size.toNat
  address_lt : cursor + size < end_ → address cursor < address (cursor + size)

section Walk

variable {round : Round ε σ w} {outOfFuel : ε} {end_ cursor : BitVec w} {s : σ}

/-- A run is what enough fuel computes. -/
theorem Run.walk (outOfFuel : ε) {records : List (BitVec w × BitVec w)} {flag : Bool} {s' : σ}
    (h : Run round end_ cursor s records flag s') :
    walk round outOfFuel end_ (records.length + 1) cursor s = .ok (flag, s') := by
  induction h with
  | done hge => rw [CursorWalk.walk, if_neg hge]
  | refused hlt hround => rw [CursorWalk.walk, if_pos hlt, hround]
  | next hlt hround _ ih =>
    rw [List.length_cons, CursorWalk.walk, if_pos hlt, hround]
    exact ih

theorem Run.of_walk {fuel : Nat} {flag : Bool} {s' : σ}
    (h : CursorWalk.walk round outOfFuel end_ fuel cursor s = .ok (flag, s')) :
    ∃ records, Run round end_ cursor s records flag s' := by
  induction fuel generalizing cursor s with
  | zero => cases h
  | succ fuel ih =>
    rw [CursorWalk.walk] at h
    split at h
    · rename_i hlt
      cases hround : round cursor s with
      | error e =>
        rw [hround] at h
        cases h
      | ok r =>
        obtain ⟨s₁, size⟩ := r
        rw [hround] at h
        cases size with
        | none =>
          cases h
          exact ⟨[], .refused hlt hround⟩
        | some size =>
          obtain ⟨records, hrun⟩ := ih h
          exact ⟨_, .next hlt hround hrun⟩
    · rename_i hge
      cases h
      exact ⟨[], .done hge⟩

/-- What is reached from the second state is reached from the first. -/
theorem Reaches.head {cursor₁ cursor₂ size : BitVec w} {s₁ s₂ : σ} (hlt : cursor < end_)
    (hround : round cursor s = .ok (s₁, some size)) (hcursor : cursor + size = cursor₁)
    (h : Reaches round end_ cursor₁ s₁ cursor₂ s₂) : Reaches round end_ cursor s cursor₂ s₂ := by
  induction h with
  | start => exact hcursor ▸ .step .start hlt hround
  | step _ hlt' hround' ih => exact .step ih hlt' hround'

/-- A run passes through every state that is reached. -/
theorem Reaches.run {cursor' : BitVec w} {s' s'' : σ} {flag : Bool}
    {records : List (BitVec w × BitVec w)} (h : Reaches round end_ cursor s cursor' s')
    (hrun : Run round end_ cursor s records flag s'') :
    ∃ records', Run round end_ cursor' s' records' flag s'' := by
  induction h with
  | start => exact ⟨records, hrun⟩
  | step _ hlt hround ih =>
    obtain ⟨records', hrun'⟩ := ih
    cases hrun' with
    | done hge => exact absurd hlt hge
    | refused _ hround' => cases hround.symm.trans hround'
    | next _ hround' hrest =>
      cases hround.symm.trans hround'
      exact ⟨_, hrest⟩

/-- A run from a state that is reached begins with the way there. -/
theorem Reaches.prepend {cursor' : BitVec w} {s' s'' : σ} {flag : Bool}
    {records : List (BitVec w × BitVec w)} (h : Reaches round end_ cursor s cursor' s')
    (hrun : Run round end_ cursor' s' records flag s'') :
    ∃ records', Run round end_ cursor s records' flag s'' := by
  induction h generalizing records with
  | start => exact ⟨records, hrun⟩
  | step _ hlt hround ih => exact ih (.next hlt hround hrun)

/-- A run that ends with `false` gets to a record that is refused. -/
theorem Run.exists_refused {records : List (BitVec w × BitVec w)} {s' : σ}
    (h : Run round end_ cursor s records false s') :
    ∃ cursor₁ s₁, Reaches round end_ cursor s cursor₁ s₁ ∧ cursor₁ < end_ ∧
      round cursor₁ s₁ = .ok (s', none) := by
  generalize hflag : false = flag at h
  induction h with
  | done _ => cases hflag
  | refused hlt hround => exact ⟨_, _, .start, hlt, hround⟩
  | next hlt hround _ ih =>
    obtain ⟨cursor₁, s₁, hreach, hlt₁, hround₁⟩ := ih hflag
    exact ⟨cursor₁, s₁, hreach.head hlt hround rfl, hlt₁, hround₁⟩

/-- A run that ends with `true` gets to a cursor that is not below the end, in its last state. -/
theorem Run.reaches_end {records : List (BitVec w × BitVec w)} {s' : σ}
    (h : Run round end_ cursor s records true s') :
    ∃ cursor', Reaches round end_ cursor s cursor' s' ∧ ¬ cursor' < end_ := by
  generalize hflag : true = flag at h
  induction h with
  | done hge => exact ⟨_, .start, hge⟩
  | refused _ _ => cases hflag
  | next hlt hround _ ih =>
    obtain ⟨cursor', hreach, hge⟩ := ih hflag
    exact ⟨cursor', hreach.head hlt hround rfl, hge⟩

/-- In a run over records that tile the range no sum wraps. -/
theorem Run.toNat_add {size : BitVec w} {records : List (BitVec w × BitVec w)} {s' : σ}
    (hlt : cursor < end_) (hrun : Run round end_ (cursor + size) s records true s')
    (htiles : Tiles (cursor.toNat + size.toNat) end_.toNat (inNumbers records)) :
    (cursor + size).toNat = cursor.toNat + size.toNat := by
  have hlt' : cursor.toNat < end_.toNat := hlt
  have hend := end_.isLt
  have hsize := size.isLt
  by_contra hwrap
  have hsum : (cursor + size).toNat < cursor.toNat := by
    rw [BitVec.toNat_add] at hwrap ⊢
    have hover := Nat.le_of_not_lt fun hfits => hwrap (Nat.mod_eq_of_lt hfits)
    rw [Nat.mod_eq_sub_mod hover, Nat.mod_eq_of_lt (by omega)]
    omega
  -- the wrapped cursor is below the end, so there is a further record, at another number
  have hbelow : cursor + size < end_ := by
    show (cursor + size).toNat < end_.toNat
    omega
  cases hrun with
  | done hge => exact hge hbelow
  | next _ _ _ =>
    rw [inNumbers, List.map_cons] at htiles
    generalize htop : cursor.toNat + size.toNat = top at htiles
    generalize hhead : (cursor + size).toNat = head at htiles
    cases htiles
    omega

theorem Run.head_eq {records : List (BitVec w × BitVec w)} {flag : Bool} {s' : σ}
    (h : Run round end_ cursor s records flag s') :
    ∀ r ∈ records.head?, r.1 = cursor ∧ cursor < end_ := by
  cases h with
  | done _ => simp
  | refused _ _ => simp
  | next hlt _ _ => simpa using hlt

/-- A run over records in order begins with a record that moves the cursor up. -/
theorem InOrder.next {address : BitVec w → Nat} {records : List (BitVec w × BitVec w)}
    {s₁ s' : σ} {size : BitVec w} (horder : InOrder address end_ cursor records)
    (hrun : Run round end_ cursor s records true s') (hlt : cursor < end_)
    (hround : round cursor s = .ok (s₁, some size)) :
    ∃ records', Run round end_ (cursor + size) s₁ records' true s' ∧
      InOrder address end_ (cursor + size) records' ∧ Advances address end_ cursor size := by
  obtain ⟨htiles, hincreasing⟩ := horder
  cases hrun with
  | done hge => exact absurd hlt hge
  | @next _ _ _ _ _ rest _ _ hround' hrest =>
    cases hround.symm.trans hround'
    rw [List.map_cons, List.pairwise_cons] at hincreasing
    obtain ⟨hhead, hincreasing⟩ := hincreasing
    cases htiles with
    | cons _ hpos htail =>
      have hsum := hrest.toNat_add hlt htail
      refine ⟨rest, hrest, ⟨hsum ▸ htail, hincreasing⟩, hpos, hsum, fun hnext => ?_⟩
      -- the next record begins where this one ends
      cases hrest with
      | done hge => exact absurd hnext hge
      | next _ _ _ => exact hhead _ (List.mem_map.mpr ⟨_, List.mem_cons_self, rfl⟩)

/-- In a run over records in order, every record that is reached moves the cursor up. -/
theorem Reaches.advances {address : BitVec w → Nat} {records : List (BitVec w × BitVec w)} {s' : σ}
    (hrun : Run round end_ cursor s records true s') (horder : InOrder address end_ cursor records)
    {cursor₁ size : BitVec w} {s₁ s₂ : σ} (h : Reaches round end_ cursor s cursor₁ s₁)
    (hlt : cursor₁ < end_) (hround : round cursor₁ s₁ = .ok (s₂, some size)) :
    Advances address end_ cursor₁ size := by
  have hreached : ∃ records', Run round end_ cursor₁ s₁ records' true s' ∧
      InOrder address end_ cursor₁ records' := by
    clear hround hlt
    induction h with
    | start => exact ⟨records, hrun, horder⟩
    | step _ hlt hround ih =>
      obtain ⟨records', hrun', horder'⟩ := ih
      obtain ⟨rest, hrest, hrestOrder, _⟩ := horder'.next hrun' hlt hround
      exact ⟨rest, hrest, hrestOrder⟩
  obtain ⟨records', hrun', horder'⟩ := hreached
  obtain ⟨_, _, _, hadvances⟩ := horder'.next hrun' hlt hround
  exact hadvances

/-- A loop whose records all move the cursor up ends, by the distance that is left. -/
theorem endsInOrder_of_advances {address : BitVec w → Nat}
    (hdefined : ∀ cursor' s', Reaches round end_ cursor s cursor' s' → cursor' < end_ →
      ∃ r, round cursor' s' = .ok r)
    (hadvance : ∀ cursor' s' s'' size, Reaches round end_ cursor s cursor' s' → cursor' < end_ →
      round cursor' s' = .ok (s'', some size) → Advances address end_ cursor' size) :
    EndsInOrder round address end_ cursor s := by
  induction hleft : end_.toNat - cursor.toNat using Nat.strongRecOn generalizing cursor s with
  | ind left ih =>
    by_cases hlt : cursor < end_
    · obtain ⟨⟨s₁, size⟩, hround⟩ := hdefined cursor s .start hlt
      cases size with
      | none => exact ⟨[], false, s₁, .refused hlt hround, by simp⟩
      | some size =>
        have hlt' : cursor.toNat < end_.toNat := hlt
        obtain ⟨hpos, hsum, haddress⟩ := hadvance cursor s s₁ size .start hlt hround
        obtain ⟨records, flag, s', hrun, horder⟩ := ih (end_.toNat - (cursor + size).toNat)
          (by omega)
          (fun cursor' s' hreach => hdefined cursor' s' (hreach.head hlt hround rfl))
          (fun cursor' s' s'' size' hreach =>
            hadvance cursor' s' s'' size' (hreach.head hlt hround rfl)) rfl
        refine ⟨_, flag, s', .next hlt hround hrun, fun htrue => ⟨.cons hlt' hpos ?_, ?_⟩⟩
        · exact hsum ▸ (horder htrue).tiles
        · rw [List.map_cons, ← List.isChain_iff_pairwise, List.isChain_cons,
            List.isChain_iff_pairwise]
          refine ⟨fun a ha => ?_, (horder htrue).increasing⟩
          rw [List.head?_map, Option.mem_def, Option.map_eq_some_iff] at ha
          obtain ⟨r, hr, rfl⟩ := ha
          obtain ⟨hcursor, hnext⟩ := hrun.head_eq r hr
          exact hcursor ▸ haddress hnext
    · exact ⟨[], true, s, .done hlt, fun _ => ⟨.nil (Nat.le_of_not_lt hlt), .nil⟩⟩

/-- A loop ends, in order if it accepts the table, exactly when every round that is reached has
a result, and either some record is refused or every record moves the cursor up. -/
theorem endsInOrder_iff {address : BitVec w → Nat} :
    EndsInOrder round address end_ cursor s ↔
      (∀ cursor' s', Reaches round end_ cursor s cursor' s' → cursor' < end_ →
        ∃ r, round cursor' s' = .ok r) ∧
      ((∃ cursor' s' s'', Reaches round end_ cursor s cursor' s' ∧ cursor' < end_ ∧
          round cursor' s' = .ok (s'', none)) ∨
        ∀ cursor' s' s'' size, Reaches round end_ cursor s cursor' s' → cursor' < end_ →
          round cursor' s' = .ok (s'', some size) → Advances address end_ cursor' size) := by
  constructor
  · rintro ⟨records, flag, s', hrun, horder⟩
    refine ⟨fun cursor' s₁ hreach hlt => ?_, ?_⟩
    · obtain ⟨records', hrun'⟩ := hreach.run hrun
      cases hrun' with
      | done hge => exact absurd hlt hge
      | refused _ hround => exact ⟨_, hround⟩
      | next _ hround _ => exact ⟨_, hround⟩
    · cases flag with
      | false =>
        obtain ⟨cursor₁, s₁, hreach, hlt, hround⟩ := hrun.exists_refused
        exact .inl ⟨cursor₁, s₁, s', hreach, hlt, hround⟩
      | true =>
        exact .inr fun cursor' s₁ s₂ size hreach hlt hround =>
          hreach.advances hrun (horder rfl) hlt hround
  · rintro ⟨hdefined, ⟨cursor', s', s'', hreach, hlt, hround⟩ | hadvance⟩
    · obtain ⟨records, hrun⟩ := hreach.prepend (.refused hlt hround)
      exact ⟨records, false, s'', hrun, by simp⟩
    · exact endsInOrder_of_advances hdefined hadvance

end Walk

end CursorWalk
