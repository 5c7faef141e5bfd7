import Mathlib.Data.Set.Basic

/-!
# Byte stores

Memory as a machine sees it: a partial map from addresses to bytes. A store replaces the
bytes of a run of addresses, which may go around the end of the address space, and a
mapping gives a value to addresses that had none.
-/

namespace ByteStore

variable {w : Nat} {β : Type*}

abbrev Store (w : Nat) (β : Type*) := BitVec w → Option β

/-- The bytes at the addresses from `a` on. -/
def Store.overwrite (mem : Store w β) (a : BitVec w) (bytes : List β) : Store w β :=
  fun x => bytes[(x - a).toNat]?.or (mem x)

/-- One value at all addresses of a block. -/
noncomputable def Store.fill (mem : Store w β) (block : Set (BitVec w)) (v : β) : Store w β :=
  open Classical in fun x => if x ∈ block then some v else mem x

/-- The addresses that have a byte. -/
def Store.dom (mem : Store w β) : Set (BitVec w) := {x | (mem x).isSome}

theorem Store.overwrite_inside (mem : Store w β) {a x : BitVec w} {bytes : List β}
    (h : (x - a).toNat < bytes.length) : mem.overwrite a bytes x = some bytes[(x - a).toNat] := by
  rw [Store.overwrite, List.getElem?_eq_getElem h]
  rfl

theorem Store.overwrite_outside (mem : Store w β) {a x : BitVec w} {bytes : List β}
    (h : bytes.length ≤ (x - a).toNat) : mem.overwrite a bytes x = mem x := by
  rw [Store.overwrite, List.getElem?_eq_none h]
  rfl

@[simp] theorem Store.overwrite_nil (mem : Store w β) (a : BitVec w) :
    mem.overwrite a [] = mem := rfl

/-- Several stores, one after the other. -/
def Store.overwriteAll (mem : Store w β) (stores : List (BitVec w × List β)) : Store w β :=
  stores.foldl (fun mem s => mem.overwrite s.1 s.2) mem

/-- The store has the address. -/
def Reaches (s : BitVec w × List β) (x : BitVec w) : Prop := (x - s.1).toNat < s.2.length

theorem Store.overwriteAll_cons (mem : Store w β) (s : BitVec w × List β)
    (stores : List (BitVec w × List β)) :
    mem.overwriteAll (s :: stores) = (mem.overwrite s.1 s.2).overwriteAll stores := rfl

theorem Store.overwriteAll_outside (mem : Store w β) {x : BitVec w}
    {stores : List (BitVec w × List β)} (h : ∀ s ∈ stores, ¬ Reaches s x) :
    mem.overwriteAll stores x = mem x := by
  induction stores generalizing mem with
  | nil => rfl
  | cons s stores ih =>
    rw [Store.overwriteAll_cons, ih _ fun t ht => h t (List.mem_cons_of_mem _ ht)]
    exact Store.overwrite_outside _ (Nat.le_of_not_lt (h s List.mem_cons_self))

/-- Where no other store reaches, the byte is that of the one that does. -/
theorem Store.overwriteAll_inside (mem : Store w β) {x : BitVec w}
    {stores : List (BitVec w × List β)} {s : BitVec w × List β} (hs : s ∈ stores)
    (hx : Reaches s x) (honly : ∀ t ∈ stores, Reaches t x → t = s) :
    mem.overwriteAll stores x = s.2[(x - s.1).toNat]? := by
  induction stores generalizing mem with
  | nil => cases hs
  | cons t stores ih =>
    rw [Store.overwriteAll_cons]
    by_cases hmem : s ∈ stores
    · exact ih _ hmem fun u hu => honly u (List.mem_cons_of_mem _ hu)
    · obtain rfl : s = t := (List.mem_cons.mp hs).resolve_right hmem
      rw [Store.overwriteAll_outside, Store.overwrite_inside _ hx, List.getElem?_eq_getElem hx]
      intro u hu hreach
      exact hmem (honly u (List.mem_cons_of_mem _ hu) hreach ▸ hu)

theorem Store.fill_inside (mem : Store w β) {block : Set (BitVec w)} {x : BitVec w}
    (h : x ∈ block) (v : β) : mem.fill block v x = some v := if_pos h

theorem Store.fill_outside (mem : Store w β) {block : Set (BitVec w)} {x : BitVec w}
    (h : x ∉ block) (v : β) : mem.fill block v x = mem x := if_neg h

end ByteStore
