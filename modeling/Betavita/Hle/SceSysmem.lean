import Betavita.Hle.MemoryManager
import Betavita.Lib.Transition
import Betavita.Memory.Guest

/-!
# SceSysmem.cpp — memory blocks

The two calls are a stand-in: every allocation returns the same handle, and the base
address that is handed out is that of the latest block, kept in `fake_address`.
-/

namespace Betavita.Hle

open Memory Transition

/-- The maps and the static `fake_address`. -/
structure SysmemSys where
  maps : List MemoryMap
  fakeAddress : Word

/-- `std::string(name) + "_memblock"`. -/
def memblockName (name : List Byte) : String :=
  String.ofList (name.map fun c => Char.ofNat c.toNat) ++ "_memblock"

/-- `sceKernelAllocMemBlock`. A null name is logged and then read all the same. -/
def sceKernelAllocMemBlock (s : SysmemSys) (namePtr _type size _opt : Word) :
    Except Trap (SysmemSys × Int) := do
  let name ← readCString s.maps (getPointerUnchecked s.maps namePtr)
  let (maps, fakeAddress) := allocateHeap s.maps size (memblockName name)
  return (⟨maps, fakeAddress⟩, 2)

/-- `sceKernelGetMemBlockBase`. -/
def sceKernelGetMemBlockBase (s : SysmemSys) (_uid : Int) (baseAddr : Word) :
    Except Trap (SysmemSys × Int) :=
  match getPointerUnchecked s.maps baseAddr with
  | none => .ok (s, 0)
  | some base => do
    let maps ← writeWord s.maps base s.fakeAddress
    return (⟨maps, s.fakeAddress⟩, 0)

inductive SysmemCall
  | allocMemBlock (namePtr type size opt : Word)
  | getMemBlockBase (uid : Int) (baseAddr : Word)

def SysmemSys.perform (s : SysmemSys) : SysmemCall → Except Trap (SysmemSys × Int)
  | .allocMemBlock namePtr type size opt => sceKernelAllocMemBlock s namePtr type size opt
  | .getMemBlockBase uid baseAddr => sceKernelGetMemBlockBase s uid baseAddr

/-- The calls that return. -/
def SysmemStep (s : SysmemSys) (c : SysmemCall) (s' : SysmemSys) : Prop :=
  ∃ ret, s.perform c = .ok (s', ret)

/-! ## The latest block -/

/-- The base address of the latest block that the calls allocated: what `allocate_heap`
returned to the last of the allocations, and 0 before the first. -/
inductive LatestBase : List (SysmemSys × SysmemCall) → Word → Prop
  | start : LatestBase [] 0
  | alloc {trace : List (SysmemSys × SysmemCall)} {s : SysmemSys} {namePtr type size opt : Word}
      {name : List Byte}
      (hname : readCString s.maps (getPointerUnchecked s.maps namePtr) = .ok name) :
      LatestBase (trace ++ [(s, .allocMemBlock namePtr type size opt)])
        (allocateHeap s.maps size (memblockName name)).2
  | get {trace : List (SysmemSys × SysmemCall)} {base : Word} {s : SysmemSys} {uid : Int}
      {baseAddr : Word} (h : LatestBase trace base) :
      LatestBase (trace ++ [(s, .getMemBlockBase uid baseAddr)]) base

/-- A map starts at the address, unless it is 0. -/
def BlockAt (maps : List MemoryMap) (base : Word) : Prop :=
  base ≠ 0 → ∃ it ∈ maps, it.start = base

theorem allocateHeap_blockAt (maps : List MemoryMap) (size : Word) (name : String) :
    BlockAt (allocateHeap maps size name).1 (allocateHeap maps size name).2 := by
  unfold allocateHeap
  dsimp only
  split
  · intro hne
    exact absurd rfl hne
  · intro _
    exact ⟨_, (mapMemory_perm ..).mem_iff.mpr (List.mem_cons_self ..), rfl⟩

theorem BlockAt.sameMaps {maps maps' : List MemoryMap} {base : Word} (h : BlockAt maps base)
    (hsame : SameMaps maps maps') : BlockAt maps' base := by
  intro hne
  obtain ⟨it, hit, hstart⟩ := h hne
  obtain ⟨i, hi⟩ := List.mem_iff_getElem?.mp hit
  obtain ⟨it', hi', hheader⟩ := hsame.getElem? hi
  exact ⟨it', List.mem_of_getElem? hi', (MemoryMap.header_eq hheader).1.symm.trans hstart⟩

theorem sceKernelAllocMemBlock_ok {s s' : SysmemSys} {namePtr type size opt : Word} {ret : Int}
    (h : sceKernelAllocMemBlock s namePtr type size opt = .ok (s', ret)) :
    ∃ name, readCString s.maps (getPointerUnchecked s.maps namePtr) = .ok name ∧
      s' = ⟨(allocateHeap s.maps size (memblockName name)).1,
        (allocateHeap s.maps size (memblockName name)).2⟩ ∧ ret = 2 := by
  obtain ⟨name, hname, h⟩ := bind_ok.mp h
  cases h
  exact ⟨name, hname, rfl, rfl⟩

theorem sceKernelGetMemBlockBase_ok {s s' : SysmemSys} {uid : Int} {baseAddr : Word} {ret : Int}
    (h : sceKernelGetMemBlockBase s uid baseAddr = .ok (s', ret)) :
    SameMaps s.maps s'.maps ∧ s'.fakeAddress = s.fakeAddress ∧ ret = 0 := by
  unfold sceKernelGetMemBlockBase at h
  split at h
  · cases h
    exact ⟨.refl _, rfl, rfl⟩
  · obtain ⟨maps, hwrite, h⟩ := bind_ok.mp h
    cases h
    exact ⟨writeWord_sameMaps hwrite, rfl, rfl⟩

theorem sysmem_latest {maps : List MemoryMap} {trace : List (SysmemSys × SysmemCall)}
    {s : SysmemSys} (hrun : Steps (Traced SysmemStep) ⟨maps, 0⟩ trace s) :
    LatestBase trace s.fakeAddress ∧ BlockAt s.maps s.fakeAddress := by
  induction hrun with
  | nil => exact ⟨.start, fun hne => absurd rfl hne⟩
  | @snoc s₁ s₂ trace e _ hlast ih =>
    obtain ⟨s₀, c⟩ := e
    obtain ⟨hbegin, ret, hcall⟩ := hlast
    rw [show s₀ = s₁ from hbegin] at hcall ⊢
    cases c with
    | allocMemBlock namePtr type size opt =>
      have halloc : sceKernelAllocMemBlock s₁ namePtr type size opt = .ok (s₂, ret) := hcall
      obtain ⟨name, hname, rfl, -⟩ := sceKernelAllocMemBlock_ok halloc
      exact ⟨.alloc hname, allocateHeap_blockAt s₁.maps size (memblockName name)⟩
    | getMemBlockBase uid baseAddr =>
      have hget : sceKernelGetMemBlockBase s₁ uid baseAddr = .ok (s₂, ret) := hcall
      obtain ⟨hsame, hfake, -⟩ := sceKernelGetMemBlockBase_ok hget
      rw [hfake]
      exact ⟨.get ih.1, ih.2.sameMaps hsame⟩

/-- After every run of the two calls, a query stores the base address of the latest block
at the word it is given, whatever handle it names, and returns 0; every allocation
returns the handle 2. -/
theorem memBlockBase_latest {maps : List MemoryMap} {trace : List (SysmemSys × SysmemCall)}
    {s : SysmemSys} (hrun : Steps (Traced SysmemStep) ⟨maps, 0⟩ trace s) {baseAddr : Word}
    (hmapped : Mapped s.maps baseAddr) (hfits : WordFits s.maps baseAddr) :
    ∃ base, LatestBase trace base ∧ BlockAt s.maps base ∧
      (∀ uid, ∃ s', sceKernelGetMemBlockBase s uid baseAddr = .ok (s', 0) ∧
        loadWord s'.maps baseAddr = some base ∧ SameMaps s.maps s'.maps) ∧
      ∀ namePtr type size opt s' ret,
        sceKernelAllocMemBlock s namePtr type size opt = .ok (s', ret) → ret = 2 := by
  obtain ⟨hlatest, hblock⟩ := sysmem_latest hrun
  refine ⟨s.fakeAddress, hlatest, hblock, fun uid => ?_, fun _ _ _ _ s' ret halloc => ?_⟩
  · obtain ⟨p, hp⟩ := mapped_iff.mp hmapped
    obtain ⟨maps', hwrite⟩ : ∃ maps', writeWord s.maps p s.fakeAddress = .ok maps' :=
      writeWord_isOk_iff.mpr (hfits p hp)
    have hsame := writeWord_sameMaps hwrite
    refine ⟨⟨maps', s.fakeAddress⟩, ?_, ?_, hsame⟩
    · rw [sceKernelGetMemBlockBase, hp]
      simp only [hwrite]
      rfl
    · rw [loadWord, ← hsame.getPointerUnchecked, hp, Option.bind_some,
        readWord_writeWord_self hwrite]
      rfl
  · obtain ⟨_, _, _, hret⟩ := sceKernelAllocMemBlock_ok halloc
    exact hret

/-- One map with a name and room for a word. -/
def sysmemMap : MemoryMap where
  name := "data"
  start := 0x81000000#32
  end_ := 0x8100000F#32
  size := 16
  protection := PROTECTION_TYPE_READ ||| PROTECTION_TYPE_WRITE
  data := 0x41#8 :: List.replicate 15 0
  size_eq := by decide
  data_length := by decide

/-- The query for the first of two blocks stores the base address of the second, and so
does the query for a handle that was never returned. -/
theorem getMemBlockBase_forgets_first :
    (do let (s₁, uid) ← sceKernelAllocMemBlock ⟨[sysmemMap], 0⟩ 0x81000000#32 0 0x1000#32 0
        let (s₂, _) ← sceKernelAllocMemBlock s₁ 0x81000000#32 0 0x1000#32 0
        let (s₃, ret) ← sceKernelGetMemBlockBase s₂ uid 0x81000004#32
        let (s₄, ret') ← sceKernelGetMemBlockBase s₁ 7 0x81000004#32
        return ((s₁.fakeAddress, uid, loadWord s₃.maps 0x81000004#32, ret),
          (loadWord s₁.maps 0x81000004#32, loadWord s₄.maps 0x81000004#32, ret'))).toOption =
      some ((0x81001000#32, 2, some 0x81004000#32, 0), (some 0, some 0x81001000#32, 0)) := by
  decide +kernel

/-- The same maps with one block. -/
def oneBlock : SysmemSys where
  maps := [sysmemMap, .fresh (memblockName [0x41#8] ++ "_heap") 0x81001000#32 0x81002FFF#32
    (PROTECTION_TYPE_READ ||| PROTECTION_TYPE_WRITE)]
  fakeAddress := 0x81001000#32

theorem sceKernelAllocMemBlock_oneBlock :
    sceKernelAllocMemBlock ⟨[sysmemMap], 0⟩ 0x81000000#32 0 0x1000#32 0 = .ok (oneBlock, 2) :=
  rfl

/-- And with a second one. -/
def twoBlocks : SysmemSys where
  maps := oneBlock.maps ++ [.fresh (memblockName [0x41#8] ++ "_heap") 0x81004000#32 0x81005FFF#32
    (PROTECTION_TYPE_READ ||| PROTECTION_TYPE_WRITE)]
  fakeAddress := 0x81004000#32

theorem sceKernelAllocMemBlock_twoBlocks :
    sceKernelAllocMemBlock oneBlock 0x81000000#32 0 0x1000#32 0 = .ok (twoBlocks, 2) := by
  have hname : readCString oneBlock.maps (getPointerUnchecked oneBlock.maps 0x81000000#32) =
      .ok [0x41#8] := rfl
  have hplace : moreMemory oneBlock.maps 0x1000#32 = (0x81004000#32, 0x2000#32) := by decide
  rw [sceKernelAllocMemBlock, hname, ok_bind, allocateHeap, hplace]
  rfl

/-- After two allocations the handle of the first is given the second block. -/
theorem memBlockBase_latest_two :
    ∃ s', sceKernelGetMemBlockBase twoBlocks 2 0x81000004#32 = .ok (s', 0) ∧
      loadWord s'.maps 0x81000004#32 = some 0x81004000#32 ∧
      LatestBase [(⟨[sysmemMap], 0⟩, .allocMemBlock 0x81000000#32 0 0x1000#32 0),
        (oneBlock, .allocMemBlock 0x81000000#32 0 0x1000#32 0)] 0x81004000#32 ∧
      BlockAt twoBlocks.maps 0x81004000#32 := by
  have hrun : Steps (Traced SysmemStep) ⟨[sysmemMap], 0⟩
      ([] ++ [(_, .allocMemBlock 0x81000000#32 0 0x1000#32 0)] ++
        [(_, .allocMemBlock 0x81000000#32 0 0x1000#32 0)]) twoBlocks :=
    .snoc (.snoc .nil ⟨rfl, 2, sceKernelAllocMemBlock_oneBlock⟩)
      ⟨rfl, 2, sceKernelAllocMemBlock_twoBlocks⟩
  have hptr : getPointerUnchecked twoBlocks.maps 0x81000004#32 = some ⟨0, 4⟩ := rfl
  have hmapped : Mapped twoBlocks.maps 0x81000004#32 := mapped_of_some hptr
  have hfits : WordFits twoBlocks.maps 0x81000004#32 := by
    intro p hp
    rw [hptr] at hp
    cases hp
    exact ⟨sysmemMap, rfl, by decide⟩
  obtain ⟨base, hlatest, hblock, hquery, -⟩ := memBlockBase_latest hrun hmapped hfits
  obtain ⟨s', hget, hload, -⟩ := hquery 2
  have hstored : (sceKernelGetMemBlockBase twoBlocks 2 0x81000004#32).toOption.bind
      (fun r => loadWord r.1.maps 0x81000004#32) = some 0x81004000#32 := by decide +kernel
  rw [hget] at hstored
  obtain rfl : base = 0x81004000#32 := Option.some.inj (hload.symm.trans hstored)
  exact ⟨s', hget, hload, hlatest, hblock⟩

end Betavita.Hle
