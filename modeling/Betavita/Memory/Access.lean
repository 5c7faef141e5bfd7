import Betavita.Lib.Results
import Betavita.Memory.Map

/-!
# Host accesses to guest memory

Every read and write the emulator makes on behalf of the guest goes through a
host pointer into one map's buffer. An access through `nullptr` or past the
buffer has no defined result in C++: it is a `Trap` here, and no state follows it.
-/

namespace Betavita.Memory

open ByteBuffer

/-- Why an execution of the model stops without a result. The first three are
undefined behaviour of the C++ program; `exited` is `std::exit`, and `outOfFuel`
means that a `while` loop was not followed to its end. -/
inductive Trap
  | nullAccess
  | outOfBounds
  | signedOverflow
  | exited
  | outOfFuel
deriving DecidableEq, Repr

export Results (bind_ok ok_bind exists_bind_ok)

/-! ## Accesses through a host pointer -/

def HostPtr.add (p : HostPtr) (n : Nat) : HostPtr := ⟨p.map, p.offset + n⟩

theorem HostPtr.add_zero (p : HostPtr) : p.add 0 = p := rfl

theorem HostPtr.add_add (p : HostPtr) (m n : Nat) : (p.add m).add n = p.add (m + n) := by
  simp [HostPtr.add, Nat.add_assoc]

/-- The map with `bytes` stored in its buffer from `offset` on. -/
def MemoryMap.store (it : MemoryMap) (offset : Nat) (bytes : List Byte) : MemoryMap :=
  if h : offset + bytes.length ≤ it.data.length then
    { it with
      data := patch it.data offset bytes
      data_length := (patch_length h).trans it.data_length }
  else it

/-- `n` bytes from `offset` on stay in the buffer; no bytes stay there from anywhere. -/
def MemoryMap.Fits (it : MemoryMap) (offset n : Nat) : Prop :=
  n = 0 ∨ offset + n ≤ it.data.length

instance (it : MemoryMap) (offset n : Nat) : Decidable (it.Fits offset n) :=
  inferInstanceAs (Decidable (_ ∨ _))

/-- Read `n` bytes at a host pointer. -/
def readBytes (maps : List MemoryMap) (p : HostPtr) (n : Nat) : Except Trap (List Byte) :=
  match maps[p.map]? with
  | none => .error .outOfBounds
  | some it =>
    if it.Fits p.offset n then .ok (slice it.data p.offset n) else .error .outOfBounds

/-- Write bytes at a host pointer. -/
def writeBytes (maps : List MemoryMap) (p : HostPtr) (bytes : List Byte) :
    Except Trap (List MemoryMap) :=
  match maps[p.map]? with
  | none => .error .outOfBounds
  | some it =>
    if it.Fits p.offset bytes.length then .ok (maps.set p.map (it.store p.offset bytes))
    else .error .outOfBounds

/-- `*(uint32_t *) p` on the little-endian hosts the emulator is built for. -/
def readWord (maps : List MemoryMap) (p : HostPtr) : Except Trap Word := do
  let bytes ← readBytes maps p 4
  return BitVec.ofNat 32 (decode bytes)

/-- `*(uint16_t *) p`. -/
def readHalf (maps : List MemoryMap) (p : HostPtr) : Except Trap Half := do
  let bytes ← readBytes maps p 2
  return BitVec.ofNat 16 (decode bytes)

/-- `*(uint32_t *) p = value`. -/
def writeWord (maps : List MemoryMap) (p : HostPtr) (value : Word) :
    Except Trap (List MemoryMap) :=
  writeBytes maps p (encode 4 value.toNat)

/-- `std::memcpy(dst, src, size)` with `src` outside guest memory. -/
def hostMemcpy (maps : List MemoryMap) (dst : Option HostPtr) (src : List Byte) :
    Except Trap (List MemoryMap) :=
  match dst with
  | none => if src.length = 0 then .ok maps else .error .nullAccess
  | some p => writeBytes maps p src

/-- `std::memset(dst, ch, len)`. -/
def hostMemset (maps : List MemoryMap) (dst : Option HostPtr) (ch : Byte) (len : Nat) :
    Except Trap (List MemoryMap) :=
  hostMemcpy maps dst (List.replicate len ch)

/-- `std::memmove(dst, src, len)`: all bytes are read before the first is written. -/
def hostMemmove (maps : List MemoryMap) (dst src : Option HostPtr) (len : Nat) :
    Except Trap (List MemoryMap) :=
  match src with
  | none => if len = 0 then .ok maps else .error .nullAccess
  | some p => do
    let bytes ← readBytes maps p len
    hostMemcpy maps dst bytes

/-- `memory::memcpy(dst, src, size)`: the copy into guest memory; an unmapped
destination is logged and nothing is copied. -/
def memcpy (maps : List MemoryMap) (dst : Word) (src : List Byte) : Except Trap (List MemoryMap) :=
  match getPointer maps dst with
  | none => .ok maps
  | some data => writeBytes maps data src

/-! ## Bytes as the pointer sees them -/

/-- The byte at a host pointer. -/
def byteAt (maps : List MemoryMap) (p : HostPtr) : Option Byte :=
  maps[p.map]?.bind fun it => it.data[p.offset]?

/-- The byte the guest address designates. -/
def loadByte (maps : List MemoryMap) (address : Word) : Option Byte :=
  (getPointerUnchecked maps address).bind (byteAt maps)

/-- `n` bytes from `p` on lie in the buffer of the map `p` points into. -/
def InBuffer (maps : List MemoryMap) (p : HostPtr) (n : Nat) : Prop :=
  ∃ it, maps[p.map]? = some it ∧ it.Fits p.offset n

section Store

variable (it : MemoryMap) (offset : Nat) (bytes : List Byte)

@[simp] theorem MemoryMap.store_name : (it.store offset bytes).name = it.name := by
  unfold MemoryMap.store; split <;> rfl

@[simp] theorem MemoryMap.store_start : (it.store offset bytes).start = it.start := by
  unfold MemoryMap.store; split <;> rfl

@[simp] theorem MemoryMap.store_end : (it.store offset bytes).end_ = it.end_ := by
  unfold MemoryMap.store; split <;> rfl

@[simp] theorem MemoryMap.store_size : (it.store offset bytes).size = it.size := by
  unfold MemoryMap.store; split <;> rfl

@[simp] theorem MemoryMap.store_protection :
    (it.store offset bytes).protection = it.protection := by
  unfold MemoryMap.store; split <;> rfl

@[simp] theorem MemoryMap.store_data_length :
    (it.store offset bytes).data.length = it.data.length := by
  rw [MemoryMap.data_length, MemoryMap.data_length, MemoryMap.store_size]

theorem MemoryMap.store_data {it : MemoryMap} {offset : Nat} {bytes : List Byte}
    (h : it.Fits offset bytes.length) :
    (it.store offset bytes).data = patch it.data offset bytes := by
  unfold MemoryMap.store
  split
  · rfl
  · rename_i hlen
    rcases h with h | h
    · rw [List.length_eq_zero_iff.mp h, patch_nil]
    · exact absurd h hlen

/-- The stored buffer: the copied run, and the old bytes around it. -/
theorem MemoryMap.store_slice_getElem? {it : MemoryMap} {data : List Byte} {off n : Nat}
    (hlen : n ≤ data.length) (hfits : it.Fits off (slice data 0 n).length) (o : Nat) :
    (it.store off (slice data 0 n)).data[o]? =
      if off ≤ o ∧ o < off + n then data[o - off]? else it.data[o]? := by
  have hslice : (slice data 0 n).length = n := slice_length (by omega)
  rw [MemoryMap.store_data hfits]
  rcases hfits with hzero | hfits
  · rw [List.length_eq_zero_iff.mp hzero, patch_nil, if_neg (by omega)]
  · rw [patch_getElem? hfits, hslice]
    by_cases hin : off ≤ o ∧ o < off + n
    · rw [if_pos hin, if_pos hin, slice_getElem?, if_pos (by omega), Nat.zero_add]
    · rw [if_neg hin, if_neg hin]

end Store

/-! ## What a write changes -/

theorem writeBytes_ok {maps maps' : List MemoryMap} {p : HostPtr} {bytes : List Byte} :
    writeBytes maps p bytes = .ok maps' ↔
      ∃ it, maps[p.map]? = some it ∧ it.Fits p.offset bytes.length ∧
        maps' = maps.set p.map (it.store p.offset bytes) := by
  unfold writeBytes
  cases h : maps[p.map]? with
  | none => simp
  | some it =>
    by_cases hf : it.Fits p.offset bytes.length <;> simp [hf, eq_comm]

theorem writeBytes_isOk_iff {maps : List MemoryMap} {p : HostPtr} {bytes : List Byte} :
    (∃ maps', writeBytes maps p bytes = .ok maps') ↔ InBuffer maps p bytes.length := by
  simp only [writeBytes_ok, InBuffer]
  constructor
  · rintro ⟨_, it, hit, hf, _⟩
    exact ⟨it, hit, hf⟩
  · rintro ⟨it, hit, hf⟩
    exact ⟨_, it, hit, hf, rfl⟩

theorem readBytes_ok {maps : List MemoryMap} {p : HostPtr} {n : Nat} {bytes : List Byte} :
    readBytes maps p n = .ok bytes ↔
      ∃ it, maps[p.map]? = some it ∧ it.Fits p.offset n ∧ bytes = slice it.data p.offset n := by
  unfold readBytes
  cases h : maps[p.map]? with
  | none => simp
  | some it =>
    by_cases hf : it.Fits p.offset n <;> simp [hf, eq_comm]

theorem readBytes_isOk_iff {maps : List MemoryMap} {p : HostPtr} {n : Nat} :
    (∃ bytes, readBytes maps p n = .ok bytes) ↔ InBuffer maps p n := by
  simp only [readBytes_ok, InBuffer]
  constructor
  · rintro ⟨_, it, hit, hf, _⟩
    exact ⟨it, hit, hf⟩
  · rintro ⟨it, hit, hf⟩
    exact ⟨_, it, hit, hf, rfl⟩

theorem readBytes_length {maps : List MemoryMap} {p : HostPtr} {n : Nat} {bytes : List Byte}
    (h : readBytes maps p n = .ok bytes) : bytes.length = n := by
  obtain ⟨it, _, hf, rfl⟩ := readBytes_ok.mp h
  rcases hf with rfl | hf
  · simp [slice]
  · exact slice_length hf

/-- A read returns the bytes the pointer designates. -/
theorem readBytes_getElem? {maps : List MemoryMap} {p : HostPtr} {n : Nat} {bytes : List Byte}
    (h : readBytes maps p n = .ok bytes) {i : Nat} (hi : i < n) :
    bytes[i]? = byteAt maps (p.add i) := by
  obtain ⟨it, hit, _, rfl⟩ := readBytes_ok.mp h
  rw [slice_getElem?, if_pos hi]
  simp [byteAt, HostPtr.add, hit]

/-- What a map is apart from its contents. -/
def MemoryMap.header (it : MemoryMap) : String × Word × Word × ProtectionType :=
  (it.name, it.start, it.end_, it.protection)

/-- The same maps, possibly with other contents. -/
def SameMaps (maps maps' : List MemoryMap) : Prop :=
  maps.map MemoryMap.header = maps'.map MemoryMap.header

theorem SameMaps.refl (maps : List MemoryMap) : SameMaps maps maps := rfl

theorem SameMaps.trans {a b c : List MemoryMap} (h : SameMaps a b) (h' : SameMaps b c) :
    SameMaps a c := Eq.trans h h'

theorem SameMaps.symm {a b : List MemoryMap} (h : SameMaps a b) : SameMaps b a := Eq.symm h

theorem SameMaps.length {a b : List MemoryMap} (h : SameMaps a b) : a.length = b.length := by
  have := congrArg List.length h
  simpa using this

theorem SameMaps.getElem? {a b : List MemoryMap} (h : SameMaps a b) {i : Nat} {it : MemoryMap}
    (hi : a[i]? = some it) : ∃ it', b[i]? = some it' ∧ it.header = it'.header := by
  have hmap : (a.map MemoryMap.header)[i]? = (b.map MemoryMap.header)[i]? := by rw [h]
  rw [List.getElem?_map, List.getElem?_map, hi] at hmap
  obtain ⟨it', hit', he⟩ := Option.map_eq_some_iff.mp hmap.symm
  exact ⟨it', hit', he.symm⟩

theorem MemoryMap.header_eq {a b : MemoryMap} (h : a.header = b.header) :
    a.start = b.start ∧ a.end_ = b.end_ ∧ a.data.length = b.data.length := by
  simp only [MemoryMap.header, Prod.mk.injEq] at h
  refine ⟨h.2.1, h.2.2.1, ?_⟩
  rw [a.data_length, b.data_length, a.size_eq, b.size_eq, h.2.1, h.2.2.1]

/-- A map is its header and its contents. -/
theorem MemoryMap.eq_of_header {a b : MemoryMap} (h : a.header = b.header)
    (hdata : a.data = b.data) : a = b := by
  obtain ⟨name, start, end_, size, protection, data, size_eq, data_length⟩ := a
  obtain ⟨name', start', end_', size', protection', data', size_eq', data_length'⟩ := b
  simp only [MemoryMap.header, Prod.mk.injEq] at h
  obtain ⟨rfl, rfl, rfl, rfl⟩ := h
  subst size_eq size_eq'
  cases hdata
  rfl

/-- Address translation depends on the headers only. -/
theorem SameMaps.getPointerUnchecked {maps maps' : List MemoryMap} (h : SameMaps maps maps')
    (address : Word) : getPointerUnchecked maps address = getPointerUnchecked maps' address := by
  induction maps generalizing maps' with
  | nil =>
    cases maps' with
    | nil => rfl
    | cons it rest => simp [SameMaps] at h
  | cons it rest ih =>
    cases maps' with
    | nil => simp [SameMaps] at h
    | cons it' rest' =>
      simp only [SameMaps, List.map_cons, List.cons.injEq] at h
      obtain ⟨hs, he, _⟩ := MemoryMap.header_eq h.1
      have hcov : it.Covers address ↔ it'.Covers address := by
        simp only [MemoryMap.Covers, hs, he]
      rw [Memory.getPointerUnchecked, Memory.getPointerUnchecked, if_congr hcov rfl rfl, hs,
        ih h.2]

theorem SameMaps.inBuffer {maps maps' : List MemoryMap} (h : SameMaps maps maps') {p : HostPtr}
    {n : Nat} (hb : InBuffer maps p n) : InBuffer maps' p n := by
  obtain ⟨it, hit, hf⟩ := hb
  obtain ⟨it', hit', he⟩ := h.getElem? hit
  refine ⟨it', hit', ?_⟩
  rw [MemoryMap.Fits, ← (MemoryMap.header_eq he).2.2]
  exact hf

theorem SameMaps.apart {maps maps' : List MemoryMap} (h : SameMaps maps maps')
    (hapart : maps.Pairwise MemoryMap.Apart) : maps'.Pairwise MemoryMap.Apart := by
  rw [List.pairwise_iff_getElem]
  intro i j hi hj hij
  obtain ⟨a, ha, hea⟩ := h.symm.getElem? (List.getElem?_eq_getElem hi)
  obtain ⟨b, hb, heb⟩ := h.symm.getElem? (List.getElem?_eq_getElem hj)
  obtain ⟨hia, rfl⟩ := List.getElem?_eq_some_iff.mp ha
  obtain ⟨hjb, rfl⟩ := List.getElem?_eq_some_iff.mp hb
  have hab := List.pairwise_iff_getElem.mp hapart i j hia hjb hij
  obtain ⟨hsa, hea', _⟩ := MemoryMap.header_eq hea
  obtain ⟨hsb, heb', _⟩ := MemoryMap.header_eq heb
  simpa only [MemoryMap.Apart, Intervals.Apart, Intervals.span, MemoryMap.lo, MemoryMap.hi,
    hsa, hea', hsb, heb'] using hab

/-- A relation that only depends on the headers holds of the same pairs. -/
theorem SameMaps.pairwise {maps maps' : List MemoryMap} (h : SameMaps maps maps')
    {R : String × Word × Word × ProtectionType → String × Word × Word × ProtectionType → Prop}
    (hmaps : maps.Pairwise fun a b => R a.header b.header) :
    maps'.Pairwise fun a b => R a.header b.header := by
  rw [← List.pairwise_map] at hmaps ⊢
  exact h ▸ hmaps

theorem SameMaps.mem {maps maps' : List MemoryMap} (h : SameMaps maps maps') {it : MemoryMap}
    (hit : it ∈ maps) : ∃ it' ∈ maps', it'.header = it.header := by
  have hmem := List.mem_map_of_mem (f := MemoryMap.header) hit
  rw [show maps.map MemoryMap.header = _ from h] at hmem
  exact List.mem_map.mp hmem

theorem SameMaps.laid {maps maps' : List MemoryMap} (h : SameMaps maps maps') (hl : Laid maps) :
    Laid maps' := by
  refine ⟨fun it hit => ?_, h.apart hl.apart⟩
  obtain ⟨i, hi, rfl⟩ := List.getElem_of_mem hit
  obtain ⟨it', hit', he⟩ := h.symm.getElem? (List.getElem?_eq_getElem hi)
  obtain ⟨hs, he', _⟩ := MemoryMap.header_eq he
  rw [hs, he']
  exact hl.ordered it' (List.mem_of_getElem? hit')

theorem writeBytes_sameMaps {maps maps' : List MemoryMap} {p : HostPtr} {bytes : List Byte}
    (h : writeBytes maps p bytes = .ok maps') : SameMaps maps maps' := by
  obtain ⟨it, hit, _, rfl⟩ := writeBytes_ok.mp h
  have hheader : (it.store p.offset bytes).header = it.header := by
    simp [MemoryMap.header]
  rw [SameMaps, List.map_set, hheader]
  symm
  apply List.ext_getElem?
  intro i
  rw [List.getElem?_set]
  split
  · rename_i hpi
    subst hpi
    rw [List.getElem?_map, hit]
    simp [(List.getElem?_eq_some_iff.mp hit).1]
  · rfl

/-- A write replaces exactly the bytes it names; every other byte of every buffer is kept. -/
theorem writeBytes_byteAt {maps maps' : List MemoryMap} {p : HostPtr} {bytes : List Byte}
    (h : writeBytes maps p bytes = .ok maps') (q : HostPtr) :
    byteAt maps' q =
      if q.map = p.map ∧ p.offset ≤ q.offset ∧ q.offset < p.offset + bytes.length
      then bytes[q.offset - p.offset]? else byteAt maps q := by
  obtain ⟨it, hit, hf, rfl⟩ := writeBytes_ok.mp h
  have hlt := (List.getElem?_eq_some_iff.mp hit).1
  unfold byteAt
  by_cases hm : q.map = p.map
  · rw [hm, List.getElem?_set_self hlt, hit]
    simp only [Option.bind_some, MemoryMap.store_data hf, true_and]
    rcases hf with hz | hf
    · rw [List.length_eq_zero_iff.mp hz, patch_nil, if_neg (by simp)]
    · rw [patch_getElem? hf]
  · rw [if_neg (fun h => hm h.1), List.getElem?_set_ne (fun h => hm h.symm)]

/-! ## Reads after a write -/

theorem readBytes_eq_iff {maps : List MemoryMap} {p : HostPtr} {n : Nat} {bytes : List Byte} :
    readBytes maps p n = .ok bytes ↔
      InBuffer maps p n ∧ bytes.length = n ∧ ∀ i < n, bytes[i]? = byteAt maps (p.add i) := by
  constructor
  · intro h
    exact ⟨readBytes_isOk_iff.mp ⟨bytes, h⟩, readBytes_length h,
      fun i hi => readBytes_getElem? h hi⟩
  · intro h
    obtain ⟨hin, hlen, hbytes⟩ := h
    obtain ⟨bytes', h'⟩ := readBytes_isOk_iff.mpr hin
    have heq : bytes' = bytes := by
      apply List.ext_getElem?
      intro i
      rcases Nat.lt_or_ge i n with hi | hi
      · rw [readBytes_getElem? h' hi, hbytes i hi]
      · rw [List.getElem?_eq_none (by rw [readBytes_length h']; exact hi),
          List.getElem?_eq_none (by rw [hlen]; exact hi)]
    rw [h', heq]

/-- A read that leaves the buffer traps. -/
theorem readBytes_error {maps : List MemoryMap} {p : HostPtr} {n : Nat}
    (h : ¬ InBuffer maps p n) : readBytes maps p n = .error .outOfBounds := by
  unfold readBytes
  cases hit : maps[p.map]? with
  | none => rfl
  | some it => exact if_neg fun hf => h ⟨it, hit, hf⟩

theorem writeBytes_error {maps : List MemoryMap} {p : HostPtr} {bytes : List Byte}
    (h : ¬ InBuffer maps p bytes.length) : writeBytes maps p bytes = .error .outOfBounds := by
  unfold writeBytes
  cases hit : maps[p.map]? with
  | none => rfl
  | some it => exact if_neg fun hf => h ⟨it, hit, hf⟩

/-- Two stores one behind the other are one store. -/
theorem MemoryMap.store_store {it : MemoryMap} {offset : Nat} {as bs : List Byte}
    (h : offset + as.length + bs.length ≤ it.data.length) :
    (it.store offset as).store (offset + as.length) bs = it.store offset (as ++ bs) := by
  apply MemoryMap.eq_of_header
  · simp [MemoryMap.header]
  · have has : it.Fits offset as.length := .inr (by omega)
    have hbs : (it.store offset as).Fits (offset + as.length) bs.length :=
      .inr (by rw [MemoryMap.store_data_length]; exact h)
    have hboth : it.Fits offset (as ++ bs).length := .inr (by rw [List.length_append]; omega)
    rw [MemoryMap.store_data hbs, MemoryMap.store_data has, MemoryMap.store_data hboth,
      patch_patch h]

/-- Writing two runs one behind the other is writing both at once. -/
theorem writeBytes_append {maps : List MemoryMap} {p : HostPtr} {as bs : List Byte}
    (has : 0 < as.length) (hbs : 0 < bs.length) :
    (writeBytes maps p as >>= fun maps => writeBytes maps (p.add as.length) bs) =
      writeBytes maps p (as ++ bs) := by
  by_cases hin : InBuffer maps p (as ++ bs).length
  · obtain ⟨it, hit, hfits⟩ := hin
    have hlt := (List.getElem?_eq_some_iff.mp hit).1
    have hlen : p.offset + as.length + bs.length ≤ it.data.length := by
      have hbound := hfits.resolve_left (by rw [List.length_append]; omega)
      rw [List.length_append] at hbound
      omega
    have hfirst : writeBytes maps p as = .ok (maps.set p.map (it.store p.offset as)) :=
      writeBytes_ok.mpr ⟨it, hit, .inr (by omega), rfl⟩
    have hboth : writeBytes maps p (as ++ bs) =
        .ok (maps.set p.map (it.store p.offset (as ++ bs))) :=
      writeBytes_ok.mpr ⟨it, hit, hfits, rfl⟩
    rw [hfirst, ok_bind, hboth]
    refine writeBytes_ok.mpr ⟨it.store p.offset as, List.getElem?_set_self hlt, ?_, ?_⟩
    · exact .inr (by rw [MemoryMap.store_data_length]; exact hlen)
    · show _ = (maps.set p.map _).set p.map ((it.store p.offset as).store (p.offset + as.length) bs)
      rw [List.set_set, MemoryMap.store_store hlen]
  · rw [writeBytes_error hin]
    -- either the first run does not fit, or the second one does not
    by_cases hfirst : InBuffer maps p as.length
    · obtain ⟨maps', hmaps'⟩ := writeBytes_isOk_iff.mpr hfirst
      rw [hmaps', ok_bind]
      refine writeBytes_error fun hsecond => hin ?_
      obtain ⟨it, hit, hfits⟩ := (writeBytes_sameMaps hmaps').symm.inBuffer hsecond
      have hbound : p.offset + as.length + bs.length ≤ it.data.length :=
        hfits.resolve_left (by omega)
      exact ⟨it, hit, .inr (by rw [List.length_append]; omega)⟩
    · rw [writeBytes_error hfirst]
      rfl

/-- A part of a run that was read. -/
theorem readBytes_slice {maps : List MemoryMap} {p : HostPtr} {n m j : Nat} {bytes : List Byte}
    (h : readBytes maps p n = .ok bytes) (hj : j + m ≤ n) :
    readBytes maps (p.add j) m = .ok (slice bytes j m) := by
  obtain ⟨⟨it, hit, hfits⟩, hlen, hbytes⟩ := readBytes_eq_iff.mp h
  refine readBytes_eq_iff.mpr ⟨⟨it, hit, ?_⟩, slice_length (by omega), fun i hi => ?_⟩
  · by_cases hm : m = 0
    · exact .inl hm
    · have hbound := hfits.resolve_left (by omega)
      exact .inr (by show p.offset + j + m ≤ _; omega)
  · rw [slice_getElem?, if_pos hi, hbytes (j + i) (by omega), HostPtr.add_add]

/-- `n` bytes at `p` and `m` bytes at `q` have no byte in common. -/
def HostPtr.Clear (p : HostPtr) (n : Nat) (q : HostPtr) (m : Nat) : Prop :=
  p.map ≠ q.map ∨ p.offset + n ≤ q.offset ∨ q.offset + m ≤ p.offset

theorem HostPtr.Clear.symm {p q : HostPtr} {n m : Nat} (h : p.Clear n q m) : q.Clear m p n := by
  rcases h with h | h | h
  · exact .inl h.symm
  · exact .inr (.inr h)
  · exact .inr (.inl h)

/-- Words at addresses that are at least a word apart, either way around, have no common byte. -/
theorem HostPtr.clear_of_getPointerUnchecked {maps : List MemoryMap} {P Q : Word} {p q : HostPtr}
    (hp : getPointerUnchecked maps P = some p) (hq : getPointerUnchecked maps Q = some q)
    (hlo : 4 ≤ (Q - P).toNat) (hhi : (Q - P).toNat + 4 ≤ 2 ^ 32) : q.Clear 4 p 4 := by
  obtain ⟨it, hit, hcov, hoff, _⟩ := getPointerUnchecked_eq_some.mp hp
  obtain ⟨it', hit', hcov', hoff', _⟩ := getPointerUnchecked_eq_some.mp hq
  by_cases hmap : q.map = p.map
  · rw [hmap, hit] at hit'
    cases hit'
    obtain ⟨hs, _⟩ := hcov
    obtain ⟨hs', _⟩ := hcov'
    right
    rw [hoff, hoff']
    bv_omega
  · exact .inl hmap

theorem readBytes_writeBytes_self {maps maps' : List MemoryMap} {p : HostPtr}
    {bytes : List Byte} (h : writeBytes maps p bytes = .ok maps') :
    readBytes maps' p bytes.length = .ok bytes := by
  have hin := writeBytes_isOk_iff.mp ⟨maps', h⟩
  refine readBytes_eq_iff.mpr ⟨(writeBytes_sameMaps h).inBuffer hin, rfl, fun i hi => ?_⟩
  have hoff : p.offset ≤ (p.add i).offset ∧ (p.add i).offset < p.offset + bytes.length :=
    ⟨Nat.le_add_right _ _, Nat.add_lt_add_left hi _⟩
  rw [writeBytes_byteAt h, if_pos ⟨rfl, hoff⟩]
  congr 1
  show i = p.offset + i - p.offset
  omega

/-- A write keeps every byte outside the bytes it names. -/
theorem writeBytes_byteAt_clear {maps maps' : List MemoryMap} {p q : HostPtr}
    {bytes : List Byte} (h : writeBytes maps p bytes = .ok maps')
    (hc : q.Clear 1 p bytes.length) : byteAt maps' q = byteAt maps q := by
  rw [writeBytes_byteAt h, if_neg]
  intro hin
  rcases hc with hmap | hlt | hge
  · exact hmap hin.1
  · omega
  · omega

/-- A read depends only on the bytes it names. -/
theorem readBytes_congr {maps maps' : List MemoryMap} {p : HostPtr} {n : Nat}
    (hsame : SameMaps maps maps')
    (h : ∀ i < n, byteAt maps' (p.add i) = byteAt maps (p.add i)) :
    readBytes maps' p n = readBytes maps p n := by
  by_cases hin : InBuffer maps p n
  · obtain ⟨old, hold⟩ := readBytes_isOk_iff.mpr hin
    rw [hold]
    obtain ⟨_, hlen, hbytes⟩ := readBytes_eq_iff.mp hold
    exact readBytes_eq_iff.mpr
      ⟨hsame.inBuffer hin, hlen, fun i hi => (hbytes i hi).trans (h i hi).symm⟩
  · rw [readBytes_error hin, readBytes_error fun hin' => hin (hsame.symm.inBuffer hin')]

/-- A byte of a run that is clear of another one is clear of it. -/
theorem HostPtr.Clear.byte {p q : HostPtr} {n m i : Nat} (h : p.Clear n q m) (hi : i < m) :
    (q.add i).Clear 1 p n := by
  rcases h with hmap | hle | hge
  · exact .inl hmap.symm
  · exact .inr (.inr (by show p.offset + n ≤ q.offset + i; omega))
  · exact .inr (.inl (by show q.offset + i + 1 ≤ p.offset; omega))

theorem readBytes_writeBytes_clear {maps maps' : List MemoryMap} {p q : HostPtr} {n : Nat}
    {bytes : List Byte} (h : writeBytes maps p bytes = .ok maps')
    (hc : q.Clear n p bytes.length) : readBytes maps' q n = readBytes maps q n :=
  readBytes_congr (writeBytes_sameMaps h) fun _ hi => writeBytes_byteAt_clear h (hc.symm.byte hi)

/-! ### Words -/

theorem readWord_isOk_iff {maps : List MemoryMap} {p : HostPtr} :
    (∃ w, readWord maps p = .ok w) ↔ InBuffer maps p 4 := by
  rw [← readBytes_isOk_iff]
  constructor
  · intro h
    obtain ⟨w, hw⟩ := h
    obtain ⟨bytes, hbytes, _⟩ := bind_ok.mp hw
    exact ⟨bytes, hbytes⟩
  · intro h
    obtain ⟨bytes, hbytes⟩ := h
    exact ⟨_, bind_ok.mpr ⟨bytes, hbytes, rfl⟩⟩

theorem readHalf_isOk_iff {maps : List MemoryMap} {p : HostPtr} :
    (∃ w, readHalf maps p = .ok w) ↔ InBuffer maps p 2 := by
  rw [← readBytes_isOk_iff]
  constructor
  · intro h
    obtain ⟨w, hw⟩ := h
    obtain ⟨bytes, hbytes, _⟩ := bind_ok.mp hw
    exact ⟨bytes, hbytes⟩
  · intro h
    obtain ⟨bytes, hbytes⟩ := h
    exact ⟨_, bind_ok.mpr ⟨bytes, hbytes, rfl⟩⟩

/-- A part of a run that is in the buffer. -/
theorem InBuffer.part {maps : List MemoryMap} {p : HostPtr} {n i m : Nat} (h : InBuffer maps p n)
    (hm : 0 < m) (him : i + m ≤ n) : InBuffer maps (p.add i) m := by
  obtain ⟨it, hit, hfits⟩ := h
  have hbound := hfits.resolve_left (by omega)
  exact ⟨it, hit, .inr (by show p.offset + i + m ≤ _; omega)⟩

theorem InBuffer.readWord {maps : List MemoryMap} {p : HostPtr} {n i : Nat} (h : InBuffer maps p n)
    (hi : i + 4 ≤ n) : ∃ w, readWord maps (p.add i) = .ok w :=
  readWord_isOk_iff.mpr (h.part (by decide) hi)

theorem InBuffer.readHalf {maps : List MemoryMap} {p : HostPtr} {n i : Nat} (h : InBuffer maps p n)
    (hi : i + 2 ≤ n) : ∃ w, readHalf maps (p.add i) = .ok w :=
  readHalf_isOk_iff.mpr (h.part (by decide) hi)

/-- A run is in the buffer as soon as its last part is. -/
theorem InBuffer.whole {maps : List MemoryMap} {p : HostPtr} {i m : Nat} (hm : 0 < m)
    (h : InBuffer maps (p.add i) m) : InBuffer maps p (i + m) := by
  obtain ⟨it, hit, hfits⟩ := h
  have hbound : p.offset + i + m ≤ _ := hfits.resolve_left (by omega)
  exact ⟨it, hit, .inr (by omega)⟩

theorem readWord_error {maps : List MemoryMap} {p : HostPtr} (h : ¬ InBuffer maps p 4) :
    readWord maps p = .error .outOfBounds := by
  rw [readWord, readBytes_error h]
  rfl

theorem writeWord_error {maps : List MemoryMap} {p : HostPtr} {v : Word}
    (h : ¬ InBuffer maps p 4) : writeWord maps p v = .error .outOfBounds :=
  writeBytes_error (by rw [encode_length]; exact h)

theorem writeWord_isOk_iff {maps : List MemoryMap} {p : HostPtr} {v : Word} :
    (∃ maps', writeWord maps p v = .ok maps') ↔ InBuffer maps p 4 := by
  rw [writeWord, writeBytes_isOk_iff, encode_length]

theorem writeWord_sameMaps {maps maps' : List MemoryMap} {p : HostPtr} {v : Word}
    (h : writeWord maps p v = .ok maps') : SameMaps maps maps' := writeBytes_sameMaps h

theorem readWord_writeWord_self {maps maps' : List MemoryMap} {p : HostPtr} {v : Word}
    (h : writeWord maps p v = .ok maps') : readWord maps' p = .ok v := by
  have hread := readBytes_writeBytes_self h
  rw [encode_length] at hread
  rw [readWord, hread, ok_bind, decode_encode, Nat.mod_eq_of_lt (by exact v.isLt),
    BitVec.ofNat_toNat, BitVec.setWidth_eq]
  rfl

theorem readWord_writeWord_clear {maps maps' : List MemoryMap} {p q : HostPtr} {v : Word}
    (h : writeWord maps p v = .ok maps') (hc : q.Clear 4 p 4) :
    readWord maps' q = readWord maps q := by
  rw [readWord, readWord, readBytes_writeBytes_clear h (by rw [encode_length]; exact hc)]

/-! ### Places that can be patched -/

/-- The address is in some map. -/
def Mapped (maps : List MemoryMap) (address : Word) : Prop :=
  (getPointerUnchecked maps address).isSome

instance (maps : List MemoryMap) (address : Word) : Decidable (Mapped maps address) :=
  inferInstanceAs (Decidable (_ = true))

theorem mapped_iff {maps : List MemoryMap} {address : Word} :
    Mapped maps address ↔ ∃ p, getPointerUnchecked maps address = some p :=
  Option.isSome_iff_exists

theorem mapped_of_some {maps : List MemoryMap} {address : Word} {p : HostPtr}
    (h : getPointerUnchecked maps address = some p) : Mapped maps address := mapped_iff.mpr ⟨p, h⟩

/-- The word at a mapped address lies in the buffer of its map. -/
def WordFits (maps : List MemoryMap) (address : Word) : Prop :=
  ∀ p, getPointerUnchecked maps address = some p → InBuffer maps p 4

theorem SameMaps.mapped {maps maps' : List MemoryMap} (h : SameMaps maps maps')
    (address : Word) : Mapped maps address ↔ Mapped maps' address := by
  rw [Mapped, Mapped, h.getPointerUnchecked]

theorem SameMaps.wordFits {maps maps' : List MemoryMap} (h : SameMaps maps maps')
    (address : Word) : WordFits maps address ↔ WordFits maps' address := by
  unfold WordFits
  rw [h.getPointerUnchecked]
  exact forall_congr' fun p => imp_congr_right fun _ => ⟨h.inBuffer, h.symm.inBuffer⟩

end Betavita.Memory
