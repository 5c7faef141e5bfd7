import Betavita.Hle.Wrapper
import Betavita.Lib.Transition

/-!
# main.cpp — a run of the engine

Between two supervisor calls the guest may leave anything in the registers and in the
buffers of the maps. The calls in between it reach the kernel and the map list, but all
they do there is to add blocks that are not executable.
-/

namespace Betavita.Hle

open Memory Processor Transition

/-- What happens while the engine runs: instructions of the guest, with what they leave, or
a supervisor call, with the program counter behind it. -/
inductive GuestEvent
  | code (engine : RegisterFile) (maps : List MemoryMap)
  | svc (pc : Word)

/-- The events of an engine that was not stopped. -/
inductive GuestStep (rt : Runtime) : Machine → GuestEvent → Machine → Prop
  | code {m : Machine} {engine : RegisterFile} {maps : List MemoryMap}
      (hrunning : m.running = true) (hsame : SameMaps m.hle.maps maps) :
      GuestStep rt m (.code engine maps)
        { m with hle := { m.hle with maps := maps }, engine := engine }
  | svc {m m' : Machine} (hrunning : m.running = true) (hcall : m.handleSvc rt = .ok m') :
      GuestStep rt m (.svc (m.engine .pc)) m'

/-- Readable and writable, and not executable. -/
def blockProtection : ProtectionType := PROTECTION_TYPE_READ ||| PROTECTION_TYPE_WRITE

/-- The maps are still there, with their bounds and their protection, and all that was
added are blocks. -/
def Grown (maps maps' : List MemoryMap) : Prop :=
  ∃ blocks : List MemoryMap, (∀ it ∈ blocks, it.protection = blockProtection) ∧
    (maps'.map MemoryMap.header).Perm (blocks.map MemoryMap.header ++ maps.map MemoryMap.header)

theorem SameMaps.grown {maps maps' : List MemoryMap} (h : SameMaps maps maps') :
    Grown maps maps' :=
  ⟨[], by simp, by rw [show maps'.map MemoryMap.header = _ from h.symm]; exact .refl _⟩

theorem Grown.trans {a b c : List MemoryMap} (h : Grown a b) (h' : Grown b c) : Grown a c := by
  obtain ⟨blocks, hblocks, hperm⟩ := h
  obtain ⟨blocks', hblocks', hperm'⟩ := h'
  refine ⟨blocks' ++ blocks, fun it hit => ?_, ?_⟩
  · rcases List.mem_append.mp hit with hit | hit
    · exact hblocks' it hit
    · exact hblocks it hit
  · rw [List.map_append, List.append_assoc]
    exact hperm'.trans (hperm.append_left _)

theorem mapMemory_grown (maps : List MemoryMap) (name : String) (start end_ : Word) :
    Grown maps (mapMemory maps name start end_ blockProtection) := by
  refine ⟨[_], ?_, (mapMemory_perm ..).map _⟩
  intro it hit
  rw [List.mem_singleton.mp hit]
  rfl

theorem allocateHeap_grown (maps : List MemoryMap) (size : Word) (name : String) :
    Grown maps (allocateHeap maps size name).1 := by
  unfold allocateHeap
  dsimp only
  split
  · exact SameMaps.grown (.refl _)
  · exact mapMemory_grown ..

theorem allocateStack_grown (maps : List MemoryMap) (size : Word) (name : String) :
    Grown maps (allocateStack maps size name).1 := by
  unfold allocateStack
  dsimp only
  split
  · exact SameMaps.grown (.refl _)
  · exact mapMemory_grown ..

/-- A map that can be executed was there before. -/
theorem Grown.executable {maps maps' : List MemoryMap} (h : Grown maps maps') {it : MemoryMap}
    (hit : it ∈ maps') (hexec : it.protection &&& PROTECTION_TYPE_EXECUTE ≠ 0) :
    ∃ old ∈ maps, old.header = it.header := by
  obtain ⟨blocks, hblocks, hperm⟩ := h
  have hmem := hperm.mem_iff.mp (List.mem_map_of_mem hit)
  rcases List.mem_append.mp hmem with hmem | hmem
  · obtain ⟨block, hblock, heq⟩ := List.mem_map.mp hmem
    have hprot : block.protection = it.protection := congrArg (fun e => e.2.2.2) heq
    rw [← hprot, hblocks block hblock] at hexec
    exact absurd (by decide) hexec
  · exact List.mem_map.mp hmem

/-! ## One supervisor call -/

/-- Only an allocation adds a map. -/
theorem Called.sameMaps {m : Machine} {w : FuncWrapper} {hle : HleState} {ret : Word}
    (h : Called m w hle ret) (hw : w ≠ .sceKernelAllocMemBlock) :
    SameMaps m.hle.maps hle.maps := by
  cases h with
  | allocMemBlock => exact absurd rfl hw
  | getMemBlockBase hbase =>
    rcases hbase with ⟨-, rfl⟩ | ⟨base, -, hwrite⟩
    · exact .refl _
    · exact writeWord_sameMaps hwrite
  | memset hset => exact (sceClibMemset_sameMaps hset).1
  | memmove hmove => exact (sceClibMemmove_sameMaps hmove).1
  | _ => exact .refl _

/-- What a function leaves of the state. -/
theorem Called.frame {m : Machine} {w : FuncWrapper} {hle : HleState} {ret : Word}
    (h : Called m w hle ret) : hle.kernel = m.hle.kernel ∧ Grown m.hle.maps hle.maps := by
  have hkernel : hle.kernel = m.hle.kernel := by cases h <;> rfl
  refine ⟨hkernel, ?_⟩
  by_cases hw : w = .sceKernelAllocMemBlock
  · subst hw
    cases h with
    | allocMemBlock => exact allocateHeap_grown ..
  · exact SameMaps.grown (h.sameMaps hw)

/-- A supervisor call stops the engine and does nothing else, or it leads to a function. -/
theorem Machine.handleSvc_cases {rt : Runtime} {m m' : Machine}
    (hcore : m.hle.kernel.currentCore = 0) (h : m.handleSvc rt = .ok m') :
    (rt.functionAt (m.engine .pc) = none ∧ m' = { m with running := false }) ∨
      ∃ w hle ret, rt.functionAt (m.engine .pc) = some w ∧ Called m w hle ret ∧
        m' = { m with hle := hle, engine := ucRegWrite m.engine (.r 0) ret } := by
  rw [Machine.handleSvc_eq hcore] at h
  cases hfunction : rt.functionAt (m.engine .pc) with
  | none =>
    rw [hfunction] at h
    cases h
    exact .inl ⟨rfl, rfl⟩
  | some w =>
    rw [hfunction] at h
    obtain ⟨hle, ret, hcalled, rfl⟩ := Machine.callFuncWrapper_ok h
    exact .inr ⟨w, hle, ret, rfl, hcalled, rfl⟩

theorem Machine.handleSvc_frame {rt : Runtime} {m m' : Machine}
    (hcore : m.hle.kernel.currentCore = 0) (h : m.handleSvc rt = .ok m') :
    m'.hle.kernel = m.hle.kernel ∧ Grown m.hle.maps m'.hle.maps ∧
      ∀ reg, reg ≠ .r 0 → m'.engine reg = m.engine reg := by
  rcases Machine.handleSvc_cases hcore h with ⟨-, rfl⟩ | ⟨w, hle, ret, -, hcalled, rfl⟩
  · exact ⟨rfl, SameMaps.grown (.refl _), fun _ _ => rfl⟩
  · exact ⟨hcalled.frame.1, hcalled.frame.2, fun reg hreg => Function.update_of_ne hreg ..⟩

/-! ## Runs -/

theorem GuestStep.frame {rt : Runtime} {m m' : Machine} {event : GuestEvent}
    (hcore : m.hle.kernel.currentCore = 0) (h : GuestStep rt m event m') :
    m'.hle.kernel = m.hle.kernel ∧ Grown m.hle.maps m'.hle.maps := by
  cases h with
  | code _ hsame => exact ⟨rfl, SameMaps.grown hsame⟩
  | svc _ hcall =>
    obtain ⟨hkernel, hgrown, -⟩ := Machine.handleSvc_frame hcore hcall
    exact ⟨hkernel, hgrown⟩

theorem GuestRun.frame {rt : Runtime} {m m' : Machine} {events : List GuestEvent}
    (hrun : Steps (GuestStep rt) m events m') (hcore : m.hle.kernel.currentCore = 0) :
    m'.hle.kernel = m.hle.kernel ∧ Grown m.hle.maps m'.hle.maps := by
  induction hrun with
  | nil => exact ⟨rfl, SameMaps.grown (.refl _)⟩
  | snoc _ hlast ih =>
    obtain ⟨hkernel, hgrown⟩ := ih
    obtain ⟨hkernel', hgrown'⟩ := hlast.frame (hkernel ▸ hcore)
    exact ⟨hkernel'.trans hkernel, hgrown.trans hgrown'⟩

/-- However the instructions of the guest and its supervisor calls follow each other: the
kernel is what it was, maps are only added, none of them executable, and a supervisor call
changes no register but R0. -/
theorem guest_run_frame {rt : Runtime} {m m' : Machine} {events : List GuestEvent}
    (hrun : Steps (GuestStep rt) m events m') (hcore : m.hle.kernel.currentCore = 0) :
    m'.hle.kernel = m.hle.kernel ∧ Grown m.hle.maps m'.hle.maps ∧
      (∀ it ∈ m'.hle.maps, it.protection &&& PROTECTION_TYPE_EXECUTE ≠ 0 →
        ∃ old ∈ m.hle.maps, old.header = it.header) ∧
      ∀ m'', m'.handleSvc rt = .ok m'' → ∀ reg, reg ≠ .r 0 → m''.engine reg = m'.engine reg := by
  obtain ⟨hkernel, hgrown⟩ := GuestRun.frame hrun hcore
  refine ⟨hkernel, hgrown, fun it hit hexec => hgrown.executable hit hexec, ?_⟩
  intro m'' hcall
  exact (Machine.handleSvc_frame (hkernel ▸ hcore) hcall).2.2

/-- One import, with its stub at `0x81000010`. -/
def importRuntime (nid : Word) : Runtime :=
  { Runtime.new with
    runtimeModuleList := [⟨[], 0, [⟨[], 0, [⟨nid, 0x81000010#32⟩]⟩]⟩]
    }.initModules.resolveRuntimeModules

/-- The import of `sceKernelLockMutex`. -/
def lockRuntime : Runtime := importRuntime 0x1D8D7945#32

theorem lockRuntime_handleSvc {m : Machine} (hcore : m.hle.kernel.currentCore = 0)
    (hpc : m.engine .pc = 0x81000014#32) :
    m.handleSvc lockRuntime = .ok { m with engine := ucRegWrite m.engine (.r 0) (-1) } := by
  have hfunction : lockRuntime.functionAt 0x81000014#32 = some .sceKernelLockMutex := rfl
  rw [Machine.handleSvc_eq hcore, hpc, hfunction]
  rfl

/-- The import of `sceKernelAllocMemBlock`. -/
def allocRuntime : Runtime := importRuntime 0xB9D5EBDE#32

/-- The page of code, and blocks behind it. -/
def codeAndBlocks (blocks : List (Word × Word)) : List MemoryMap :=
  .fresh "code" 0x81000000#32 0x81000FFF#32 PROTECTION_TYPE_EXECUTE ::
    blocks.map fun b => .fresh (memblockName [] ++ "_heap") b.1 b.2 blockProtection

/-- A guest that comes to the import, with a name in its page of code. -/
def allocMachine (maps : List MemoryMap) (fakeAddress : Word) : Machine where
  hle := ⟨{ Kernel.new with currentCore := 0 }, ⟨⟨0, 0, 0, 0, 0, 0⟩, 0⟩, maps, fakeAddress⟩
  engine
    | .r 0 => 0x81000000#32
    | .r 2 => 0x1000#32
    | .pc => 0x81000014#32
    | _ => 0
  running := true

theorem allocMachine_handleSvc {maps : List MemoryMap} {fakeAddress : Word} {s : SysmemSys}
    (halloc : sceKernelAllocMemBlock ⟨maps, fakeAddress⟩ 0x81000000#32 0 0x1000#32 0 =
      .ok (s, 2)) :
    (allocMachine maps fakeAddress).handleSvc allocRuntime =
      .ok { allocMachine s.maps s.fakeAddress with
        engine := ucRegWrite (allocMachine s.maps s.fakeAddress).engine (.r 0) 2 } := by
  have hfunction : allocRuntime.functionAt 0x81000014#32 = some .sceKernelAllocMemBlock := rfl
  rw [Machine.handleSvc_eq rfl, show (allocMachine maps fakeAddress).engine .pc = 0x81000014#32
    from rfl, hfunction]
  show (allocMachine maps fakeAddress).callFuncWrapper .sceKernelAllocMemBlock = _
  unfold Machine.callFuncWrapper
  refine Machine.wrap_ok.mpr ⟨(allocMachine s.maps s.fakeAddress).hle, 2, ?_, rfl⟩
  show (sceKernelAllocMemBlock ⟨maps, fakeAddress⟩ 0x81000000#32 0 0x1000#32 0).map _ = _
  rw [halloc]
  rfl

/-- Two allocations, with the name in R0 again before the second. -/
theorem guest_run_frame_alloc :
    ∃ m', Steps (GuestStep allocRuntime) (allocMachine (codeAndBlocks []) 0)
        [.svc 0x81000014#32, .code (allocMachine [] 0).engine
          (codeAndBlocks [(0x81002000#32, 0x81003FFF#32)]), .svc 0x81000014#32] m' ∧
      m'.hle.maps = codeAndBlocks
        [(0x81002000#32, 0x81003FFF#32), (0x81005000#32, 0x81006FFF#32)] ∧
      m'.hle.kernel = (allocMachine (codeAndBlocks []) 0).hle.kernel ∧
      ∀ it ∈ m'.hle.maps, it.protection &&& PROTECTION_TYPE_EXECUTE ≠ 0 →
        ∃ old ∈ codeAndBlocks [], old.header = it.header := by
  have hfirst : sceKernelAllocMemBlock ⟨codeAndBlocks [], 0⟩ 0x81000000#32 0 0x1000#32 0 =
      .ok (⟨codeAndBlocks [(0x81002000#32, 0x81003FFF#32)], 0x81002000#32⟩, 2) := by
    have hname : readCString (codeAndBlocks [])
      (getPointerUnchecked (codeAndBlocks []) 0x81000000#32) = .ok [] := rfl
    have hplace : moreMemory (codeAndBlocks []) 0x1000#32 = (0x81002000#32, 0x2000#32) := by
      decide
    rw [sceKernelAllocMemBlock, hname, ok_bind, allocateHeap, hplace]
    rfl
  have hsecond : sceKernelAllocMemBlock
      ⟨codeAndBlocks [(0x81002000#32, 0x81003FFF#32)], 0x81002000#32⟩ 0x81000000#32 0 0x1000#32 0 =
        .ok (⟨codeAndBlocks [(0x81002000#32, 0x81003FFF#32), (0x81005000#32, 0x81006FFF#32)],
          0x81005000#32⟩, 2) := by
    have hname : readCString (codeAndBlocks [(0x81002000#32, 0x81003FFF#32)])
      (getPointerUnchecked (codeAndBlocks [(0x81002000#32, 0x81003FFF#32)]) 0x81000000#32) =
        .ok [] := rfl
    have hplace : moreMemory (codeAndBlocks [(0x81002000#32, 0x81003FFF#32)]) 0x1000#32 =
        (0x81005000#32, 0x2000#32) := by decide
    rw [sceKernelAllocMemBlock, hname, ok_bind, allocateHeap, hplace]
    rfl
  have hrun : Steps (GuestStep allocRuntime) (allocMachine (codeAndBlocks []) 0)
      ((([] ++ [.svc 0x81000014#32]) ++ [.code (allocMachine [] 0).engine
        (codeAndBlocks [(0x81002000#32, 0x81003FFF#32)])]) ++ [.svc 0x81000014#32]) _ :=
    .snoc (.snoc (.snoc .nil (.svc rfl (allocMachine_handleSvc hfirst)))
      (.code rfl (.refl _))) (.svc rfl (allocMachine_handleSvc hsecond))
  obtain ⟨hkernel, -, hexec, -⟩ := guest_run_frame hrun rfl
  exact ⟨_, hrun, rfl, hkernel, hexec⟩

end Betavita.Hle
