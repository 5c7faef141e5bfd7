import Betavita.Hle.Display
import Betavita.Hle.SceSysmem
import Betavita.Loader.Import
import Betavita.Loader.RelocationField

/-!
# Accesses wider than a byte

Four operations translate an address and then access several bytes behind the pointer: a
relocation, the stub of an imported function, the query for a memory block and the copy
of a frame buffer. Each tests the pointer and none the width, so an address in the last
bytes of a map sends them past its buffer.
-/

namespace Betavita.Loader

open Memory Hle

/-- The map that contains the address has `n` bytes from there on. -/
def Within (maps : List MemoryMap) (address : Word) (n : Nat) : Prop :=
  ∃ p, getPointerUnchecked maps address = some p ∧ InBuffer maps p n

/-- An operation on `n` bytes at an address, with the value it refuses with and the memory
of its result: it stays in the map, and refuses where the bytes do not fit. -/
structure Contained {α : Type} (maps : List MemoryMap) (address : Word) (n : Nat)
    (op : Except Trap α) (refused : α) (memory : α → List MemoryMap) : Prop where
  defined : ∃ r, op = .ok r
  refuses : ¬ Within maps address n → op = .ok refused
  frame : ∀ r, op = .ok r → ∀ q : HostPtr,
    (∀ p, getPointerUnchecked maps address = some p → q.Clear 1 p n) →
      byteAt (memory r) q = byteAt maps q

/-- An operation that tests the pointer only is contained where the width fits. -/
theorem contained_iff {α : Type} {maps : List MemoryMap} {address : Word} {n : Nat}
    {op : Except Trap α} {refused : α} {memory : α → List MemoryMap}
    (hrefused : getPointerUnchecked maps address = none → op = .ok refused)
    (hmemory : memory refused = maps)
    (hin : ∀ p, getPointerUnchecked maps address = some p → InBuffer maps p n →
      ∃ r, op = .ok r ∧ ∀ q : HostPtr, q.Clear 1 p n → byteAt (memory r) q = byteAt maps q)
    (hout : ∀ p, getPointerUnchecked maps address = some p → ¬ InBuffer maps p n →
      op = .error .outOfBounds) :
    Contained maps address n op refused memory ↔ (Mapped maps address → Within maps address n) := by
  cases hp : getPointerUnchecked maps address with
  | none =>
    have hok := hrefused hp
    refine iff_of_true ⟨⟨refused, hok⟩, fun _ => hok, fun r hr q _ => ?_⟩ fun hm => ?_
    · rw [hok] at hr
      cases hr
      rw [hmemory]
    · rw [Mapped, hp] at hm
      cases hm
  | some p =>
    by_cases hbuf : InBuffer maps p n
    · obtain ⟨r, hok, hframe⟩ := hin p hp hbuf
      have hwithin : Within maps address n := ⟨p, hp, hbuf⟩
      refine iff_of_true ⟨⟨r, hok⟩, fun hno => absurd hwithin hno, fun r' hr' q hq => ?_⟩
        fun _ => hwithin
      rw [hok] at hr'
      cases hr'
      exact hframe q (hq p hp)
    · have herr := hout p hp hbuf
      refine iff_of_false (fun h => ?_) fun h => ?_
      · obtain ⟨r, hr⟩ := h.defined
        rw [herr] at hr
        cases hr
      · obtain ⟨p', hp', hbuf'⟩ := h (mapped_of_some hp)
        exact hbuf (Option.some.inj (hp.symm.trans hp') ▸ hbuf')

section Operations

variable {maps : List MemoryMap}

theorem applyOneRelocation_contained {relocationType : Byte} (hi : Implemented relocationType)
    (S A P : Word) :
    Contained maps P 4 (applyOneRelocation maps relocationType S A P) (false, maps) Prod.snd ↔
      (Mapped maps P → Within maps P 4) := by
  refine contained_iff (fun hp => ?_) rfl (fun p hp hin => ?_) fun p hp hout => ?_
  · refine applyOneRelocation_refused fun hacc => ?_
    have hm := hacc.2
    rw [Mapped, hp] at hm
    cases hm
  · have hfits : WordFits maps P := fun q hq => Option.some.inj (hp.symm.trans hq) ▸ hin
    obtain ⟨q, old, maps', hq, _, hwrite, hok⟩ :=
      applyOneRelocation_ok (S := S) (A := A) hi (mapped_of_some hp) hfits
    obtain rfl : p = q := Option.some.inj (hp.symm.trans hq)
    refine ⟨_, hok, fun r hr => writeBytes_byteAt_clear hwrite ?_⟩
    rw [ByteBuffer.encode_length]
    exact hr
  · exact applyOneRelocation_error hi fun hfits => hout (hfits p hp)

/-- The last of the functions to import, at an entry that its table gives. -/
theorem importFunctions_contained {nid entryAddr : HostPtr} {entry patchNid : Word}
    (hentry : readWord maps entryAddr = .ok entry) (hnid : readWord maps nid = .ok patchNid)
    (functionImports : List FunctionImport) :
    Contained maps entry 12 (importFunctions 1 nid entryAddr functionImports maps) (none, maps)
      Prod.snd ↔ (Mapped maps entry → Within maps entry 12) := by
  refine contained_iff (fun hp => ?_) rfl (fun p hp hin => ?_) fun p hp hout => ?_
  · rw [importFunctions, hentry, ok_bind, hp]
    rfl
  · obtain ⟨maps', hwrite⟩ := writeBytes_isOk_iff.mpr ((stubBytes_length patchNid).symm ▸ hin)
    have hsame := writeBytes_sameMaps hwrite
    obtain ⟨nid', hnid'⟩ :=
      readWord_isOk_iff.mpr (hsame.inBuffer (readWord_isOk_iff.mp ⟨_, hnid⟩))
    obtain ⟨entry', hentry'⟩ :=
      readWord_isOk_iff.mpr (hsame.inBuffer (readWord_isOk_iff.mp ⟨_, hentry⟩))
    refine ⟨(some (functionImports ++ [⟨nid', entry'⟩]), maps'), ?_, fun q hq => ?_⟩
    · rw [importFunctions, hentry, ok_bind, hp]
      simp only [hnid, ok_bind, patchFunctionImportData_eq, hwrite, hnid', hentry',
        importFunctions]
    · exact writeBytes_byteAt_clear hwrite ((stubBytes_length patchNid).symm ▸ hq)
  · rw [importFunctions, hentry, ok_bind, hp]
    simp only [hnid, ok_bind, patchFunctionImportData_eq]
    rw [writeBytes_error (by rw [stubBytes_length]; exact hout)]
    rfl

theorem sceKernelGetMemBlockBase_contained (s : SysmemSys) (uid : Int) (baseAddr : Word) :
    Contained s.maps baseAddr 4 (sceKernelGetMemBlockBase s uid baseAddr) (s, 0)
      (fun r => r.1.maps) ↔ (Mapped s.maps baseAddr → Within s.maps baseAddr 4) := by
  refine contained_iff (fun hp => ?_) rfl (fun p hp hin => ?_) fun p hp hout => ?_
  · rw [sceKernelGetMemBlockBase, hp]
  · obtain ⟨maps', hwrite⟩ : ∃ maps', writeWord s.maps p s.fakeAddress = .ok maps' :=
      writeWord_isOk_iff.mpr hin
    refine ⟨(⟨maps', s.fakeAddress⟩, 0), ?_, fun q hq => writeBytes_byteAt_clear hwrite ?_⟩
    · rw [sceKernelGetMemBlockBase, hp]
      simp only [hwrite]
      rfl
    · rw [ByteBuffer.encode_length]
      exact hq
  · rw [sceKernelGetMemBlockBase, hp]
    simp only [writeWord_error hout]
    rfl

theorem sceDisplaySetFramebuf_contained (display : Display) (pParam sync : Word) :
    Contained maps pParam 24 (sceDisplaySetFramebuf display maps pParam sync)
      (display.withoutFramebuffer sync, 0) (fun _ => maps) ↔
      (Mapped maps pParam → Within maps pParam 24) := by
  refine contained_iff (fun hp => sceDisplaySetFramebuf_of_none hp sync) rfl (fun p hp hin => ?_)
    fun p hp hout => sceDisplaySetFramebuf_error hp hout sync
  obtain ⟨bytes, hread⟩ := readBytes_isOk_iff.mpr hin
  exact ⟨_, sceDisplaySetFramebuf_of_read hp hread sync, fun _ _ => rfl⟩

end Operations

/-- One of the four operations, with what it is called with; for an import, the pointers
into the two tables and what they point at. -/
inductive WideAccess
  | relocation (relocationType : Byte) (S A P : Word)
  | functionImport (nid entryAddr : HostPtr) (patchNid entry : Word)
      (functionImports : List FunctionImport)
  | memBlockBase (fakeAddress : Word) (uid : Int) (baseAddr : Word)
  | framebuffer (display : Display) (pParam sync : Word)

namespace WideAccess

/-- The address that is translated. -/
def address : WideAccess → Word
  | relocation _ _ _ P => P
  | functionImport _ _ _ entry _ => entry
  | memBlockBase _ _ baseAddr => baseAddr
  | framebuffer _ pParam _ => pParam

/-- The bytes that are accessed behind it. -/
def width : WideAccess → Nat
  | relocation .. => 4
  | functionImport .. => 12
  | memBlockBase .. => 4
  | framebuffer .. => 24

/-- The type of the relocation is implemented; the tables of the import are as they say. -/
def Made (maps : List MemoryMap) : WideAccess → Prop
  | relocation relocationType _ _ _ => Implemented relocationType
  | functionImport nid entryAddr patchNid entry _ =>
    readWord maps nid = .ok patchNid ∧ readWord maps entryAddr = .ok entry
  | memBlockBase .. => True
  | framebuffer .. => True

/-- The operation stays in the map of its address, and refuses what does not fit. -/
def IsContained (maps : List MemoryMap) : WideAccess → Prop
  | relocation relocationType S A P =>
    Contained maps P 4 (applyOneRelocation maps relocationType S A P) (false, maps) Prod.snd
  | functionImport nid entryAddr _ entry functionImports =>
    Contained maps entry 12 (importFunctions 1 nid entryAddr functionImports maps) (none, maps)
      Prod.snd
  | memBlockBase fakeAddress uid baseAddr =>
    Contained maps baseAddr 4 (sceKernelGetMemBlockBase ⟨maps, fakeAddress⟩ uid baseAddr)
      (⟨maps, fakeAddress⟩, 0) fun r => r.1.maps
  | framebuffer display pParam sync =>
    Contained maps pParam 24 (sceDisplaySetFramebuf display maps pParam sync)
      (display.withoutFramebuffer sync, 0) fun _ => maps

/-- Each of the four is contained exactly when its address is not mapped, or the map has
the whole width from there on. -/
theorem isContained_iff {maps : List MemoryMap} {access : WideAccess} (h : access.Made maps) :
    access.IsContained maps ↔
      (Mapped maps access.address → Within maps access.address access.width) := by
  cases access with
  | relocation relocationType S A P => exact applyOneRelocation_contained h S A P
  | functionImport nid entryAddr patchNid entry functionImports =>
    exact importFunctions_contained h.2 h.1 functionImports
  | memBlockBase fakeAddress uid baseAddr =>
    exact sceKernelGetMemBlockBase_contained ⟨maps, fakeAddress⟩ uid baseAddr
  | framebuffer display pParam sync => exact sceDisplaySetFramebuf_contained display pParam sync

/-- A relocation of the first word of the segment. -/
theorem isContained_iff_relocation :
    (relocation R_ARM_ABS32 0x81000000#32 0#32 0x81000000#32).IsContained segmentMaps := by
  have hmade : (relocation R_ARM_ABS32 0x81000000#32 0#32 0x81000000#32).Made segmentMaps := by
    show Implemented R_ARM_ABS32
    decide
  refine (isContained_iff hmade).mpr fun hm => ?_
  obtain ⟨p, hp⟩ := mapped_iff.mp hm
  exact ⟨p, hp, (segmentMaps_place (.inl rfl)).2 p hp⟩

/-- At the last byte of the segment it writes three bytes behind the buffer. -/
theorem relocation_leaves_map :
    ¬ ∀ maps, maps.Pairwise MemoryMap.Apart →
      ∀ access : WideAccess, access.Made maps → access.IsContained maps := by
  intro h
  have himpl : Implemented R_ARM_ABS32 := by decide
  have hcontained := h segmentMaps (List.pairwise_singleton _ _)
    (relocation R_ARM_ABS32 0x81000000#32 0#32 0x8100000F#32) himpl
  obtain ⟨p, hp, it, hit, hfits⟩ := (applyOneRelocation_contained himpl _ _ _).mp hcontained
    (by decide)
  have hplace : getPointerUnchecked segmentMaps 0x8100000F#32 = some ⟨0, 15⟩ := by decide
  cases hplace.symm.trans hp
  cases hit
  exact absurd hfits (by decide)

end WideAccess

end Betavita.Loader
