import Mathlib.Data.List.Basic
import Mathlib.Tactic.Ring

/-!
# Buffers and little-endian numbers

A buffer is a list. `slice` reads a run of elements and `patch` overwrites one
in place; both are total, and the lemmas carry the bounds. `terminated` reads up to
a terminator. The last part encodes a number of fixed width as little-endian bytes
and back.
-/

namespace ByteBuffer

variable {β : Type*}

/-- The `n` elements of `bs` from `off` on. -/
def slice (bs : List β) (off n : Nat) : List β := (bs.drop off).take n

/-- `bs` with `new` written over it from `off` on. -/
def patch (bs : List β) (off : Nat) (new : List β) : List β :=
  bs.take off ++ new ++ bs.drop (off + new.length)

theorem slice_length {bs : List β} {off n : Nat} (h : off + n ≤ bs.length) :
    (slice bs off n).length = n := by
  simp only [slice, List.length_take, List.length_drop]
  omega

theorem slice_getElem? (bs : List β) (off n i : Nat) :
    (slice bs off n)[i]? = if i < n then bs[off + i]? else none := by
  simp only [slice, List.getElem?_take, List.getElem?_drop]

theorem slice_self (bs : List β) : slice bs 0 bs.length = bs := by
  simp [slice]

/-- A run in the first part of an appended buffer. -/
theorem slice_append_left {as bs : List β} {off n : Nat} (h : off + n ≤ as.length) :
    slice (as ++ bs) off n = slice as off n := by
  apply List.ext_getElem?
  intro i
  rw [slice_getElem?, slice_getElem?]
  split
  · rw [List.getElem?_append_left (by omega)]
  · rfl

/-- A run behind the first part. -/
theorem slice_append_right {as bs : List β} {off n : Nat} (h : as.length ≤ off) :
    slice (as ++ bs) off n = slice bs (off - as.length) n := by
  rw [slice, slice, List.drop_append, List.drop_eq_nil_of_le h, List.nil_append]

@[simp] theorem patch_nil (bs : List β) (off : Nat) : patch bs off [] = bs := by
  simp [patch]

theorem patch_length {bs new : List β} {off : Nat} (h : off + new.length ≤ bs.length) :
    (patch bs off new).length = bs.length := by
  simp only [patch, List.length_append, List.length_take, List.length_drop]
  omega

/-- Inside the patched run the new element is read, outside it the old one. -/
theorem patch_getElem? {bs new : List β} {off : Nat} (h : off + new.length ≤ bs.length)
    (i : Nat) :
    (patch bs off new)[i]? =
      if off ≤ i ∧ i < off + new.length then new[i - off]? else bs[i]? := by
  have hlen : (bs.take off).length = off := by
    rw [List.length_take]; omega
  rw [patch, List.append_assoc, List.getElem?_append, hlen]
  rcases Nat.lt_or_ge i off with hi | hi
  · rw [if_pos hi, if_neg (by omega), List.getElem?_take, if_pos hi]
  · rw [if_neg (by omega), List.getElem?_append]
    rcases Nat.lt_or_ge i (off + new.length) with hi' | hi'
    · rw [if_pos (by omega), if_pos ⟨hi, hi'⟩]
    · rw [if_neg (by omega), if_neg (by omega), List.getElem?_drop]
      congr 1
      omega

/-- Two runs written one behind the other are one run. -/
theorem patch_patch {bs as new : List β} {off : Nat}
    (h : off + as.length + new.length ≤ bs.length) :
    patch (patch bs off as) (off + as.length) new = patch bs off (as ++ new) := by
  have has : off + as.length ≤ bs.length := by omega
  have hlen : (patch bs off as).length = bs.length := patch_length has
  have hboth : off + (as ++ new).length ≤ bs.length := by rw [List.length_append]; omega
  apply List.ext_getElem?
  intro i
  rw [patch_getElem? (by omega), patch_getElem? has, patch_getElem? hboth, List.length_append]
  by_cases hfirst : off ≤ i ∧ i < off + as.length
  · rw [if_neg (by omega), if_pos hfirst, if_pos (by omega),
      List.getElem?_append_left (by omega)]
  · by_cases hsecond : off + as.length ≤ i ∧ i < off + as.length + new.length
    · rw [if_pos hsecond, if_pos (by omega), List.getElem?_append_right (by omega)]
      congr 1
      omega
    · rw [if_neg hsecond, if_neg hfirst, if_neg (by omega)]

/-! ## Terminated strings -/

section Terminated

variable [DecidableEq β]

/-- The elements in front of the first `t`, if there is one. -/
def terminated (t : β) : List β → Option (List β)
  | [] => none
  | b :: bs => if b = t then some [] else (terminated t bs).map (b :: ·)

theorem terminated_eq_some {t : β} {bs s : List β} :
    terminated t bs = some s ↔
      t ∉ s ∧ (∀ i < s.length, bs[i]? = s[i]?) ∧ bs[s.length]? = some t := by
  induction bs generalizing s with
  | nil => simp [terminated]
  | cons b bs ih =>
    rw [terminated]
    by_cases hb : b = t
    · rw [if_pos hb]
      cases s with
      | nil => simp [hb]
      | cons c s =>
        constructor
        · intro h; cases h
        · intro h
          have hc : b = c := by simpa using h.2.1 0 (by simp)
          exact absurd (hb ▸ hc ▸ List.mem_cons_self) h.1
    · rw [if_neg hb]
      cases s with
      | nil => simp [hb]
      | cons c s =>
        have hmap : (terminated t bs).map (b :: ·) = some (c :: s) ↔
            b = c ∧ terminated t bs = some s := by
          rw [Option.map_eq_some_iff]
          constructor
          · intro h
            obtain ⟨s', hs', he⟩ := h
            cases he
            exact ⟨rfl, hs'⟩
          · intro h
            exact ⟨s, h.2, by rw [h.1]⟩
        rw [hmap, ih]
        constructor
        · intro h
          obtain ⟨rfl, hns, hbs, ht⟩ := h
          refine ⟨?_, ?_, by simpa using ht⟩
          · simpa [Ne.symm hb] using hns
          · intro i hi
            cases i with
            | zero => simp
            | succ i => simpa using hbs i (by simpa using hi)
        · intro h
          obtain ⟨hns, hbs, ht⟩ := h
          refine ⟨by simpa using hbs 0 (by simp), fun hmem => hns (List.mem_cons_of_mem _ hmem),
            fun i hi => ?_, by simpa using ht⟩
          simpa using hbs (i + 1) (by simpa using hi)

theorem terminated_isSome_iff {t : β} {bs : List β} : (terminated t bs).isSome ↔ t ∈ bs := by
  induction bs with
  | nil => simp [terminated]
  | cons b bs ih =>
    rw [terminated]
    by_cases hb : b = t
    · simp [hb]
    · rw [if_neg hb, Option.isSome_map, ih, List.mem_cons]
      exact ⟨.inr, fun h => h.resolve_left (Ne.symm hb)⟩

end Terminated

/-! ## Little-endian numbers -/

/-- The number whose little-endian digits to the base 256 are `bs`. -/
def decode : List (BitVec 8) → Nat
  | [] => 0
  | b :: bs => b.toNat + 256 * decode bs

/-- The `n` low little-endian digits of `x` to the base 256. -/
def encode : Nat → Nat → List (BitVec 8)
  | 0, _ => []
  | n + 1, x => BitVec.ofNat 8 x :: encode n (x / 256)

@[simp] theorem encode_length (n x : Nat) : (encode n x).length = n := by
  induction n generalizing x with
  | zero => rfl
  | succ n ih => simp [encode, ih]

theorem decode_encode (n x : Nat) : decode (encode n x) = x % 256 ^ n := by
  induction n generalizing x with
  | zero => simp [encode, decode, Nat.mod_one]
  | succ n ih =>
    have hpow : 256 ^ (n + 1) = 256 * 256 ^ n := by ring
    have hbyte : (BitVec.ofNat 8 x).toNat = x % 256 := BitVec.toNat_ofNat x 8
    rw [encode, decode, ih, hbyte, hpow, Nat.mod_mul]

end ByteBuffer
