import Betavita.Hle.EmulatorMemory
import Betavita.Processor.EngineMap

/-!
# The mappings of the engine during a run

While the engine is open, `map_memory` puts every block into the list and into the engine.
The emulator of `EmuStep` keeps the list only; here the engine's mappings go along with it,
through every start of a thread and every slice.
-/

namespace Betavita.Processor

open Memory Hle

section Allocate

variable {E : Type} (u : Unicorn E)

/-- What `allocate_stack` and `allocate_heap` have in common: the block that `more_memory`
finds goes where `map_memory` keeps it. -/
def Host.allocate (h : Host E) (size : Word) (name : String) : Host E × Option (Word × Word) :=
  let (address, memorySize) := moreMemory h.memoryMapList size
  if address = 0xFFFFFFFF#32 then (h, none)
  else
    (h.mapMemory u name address (address + memorySize - 1)
      (PROTECTION_TYPE_READ ||| PROTECTION_TYPE_WRITE), some (address, memorySize))

/-- `allocate_stack`. -/
def Host.allocateStack (h : Host E) (size : Word) (name : String) : Host E × Word :=
  let (h, block) := h.allocate u size (name ++ "_stack")
  (h, block.elim 0 fun (address, memorySize) => address + memorySize)

/-- `allocate_heap`. -/
def Host.allocateHeap (h : Host E) (size : Word) (name : String) : Host E × Word :=
  let (h, block) := h.allocate u size (name ++ "_heap")
  (h, block.elim 0 fun (address, _) => address)

/-- The two allocations of `start_thread`. -/
def Host.startThread (h : Host E) (t : Thread) : Host E :=
  let (h, _) := h.allocateStack u t.stackSize t.name
  let (h, _) := h.allocateHeap u 0x1000#32 (t.name ++ "_tls")
  h

variable {u}

/-- On the list they do what the allocator does that knows no engine. -/
theorem Host.allocateStack_list (h : Host E) (size : Word) (name : String) :
    ((h.allocateStack u size name).1.memoryMapList, (h.allocateStack u size name).2) =
      Hle.allocateStack h.memoryMapList size name := by
  unfold Host.allocateStack Host.allocate Hle.allocateStack
  dsimp only
  split <;> rfl

theorem Host.allocateHeap_list (h : Host E) (size : Word) (name : String) :
    ((h.allocateHeap u size name).1.memoryMapList, (h.allocateHeap u size name).2) =
      Hle.allocateHeap h.memoryMapList size name := by
  unfold Host.allocateHeap Host.allocate Hle.allocateHeap
  dsimp only
  split <;> rfl

theorem Host.startThread_list (h : Host E) (t : Thread) :
    (h.startThread u t).memoryMapList =
      (Hle.allocateHeap (Hle.allocateStack h.memoryMapList t.stackSize t.name).1 0x1000#32
        (t.name ++ "_tls")).1 := by
  rw [← Host.allocateStack_list (u := u), ← Host.allocateHeap_list (u := u)]
  rfl

/-- A block that was placed may be mapped. -/
theorem Host.admits_placed {h : Host E} {address memorySize : Word}
    (hp : Placed h.memoryMapList address memorySize) (halloc : AllocInv h.memoryMapList)
    (name : String) (protection : ProtectionType) :
    h.Admits (.mapMemory name address (address + memorySize - 1) protection) := by
  obtain ⟨hord, hap⟩ := hp.fresh_apart halloc name protection
  have haligned := hp.aligned
  have hsize := hp.sizeAligned
  have hpos := hp.sizePos
  have hwrap := hp.noWrap
  refine ⟨⟨hord, haligned, ?_⟩, ?_, ?_⟩
  · bv_omega
  · bv_omega
  · rintro it hit ⟨a, ha, hc⟩
    exact (hap it hit).not_mem (MemoryMap.covers_iff.mp ha) (MemoryMap.covers_iff.mp hc)

theorem Host.Inv.allocate (hu : u.ActsOnRange) {h : Host E} (hinv : h.Inv u)
    (halloc : AllocInv h.memoryMapList) {size : Word} (hroom : RoomFor h.memoryMapList size)
    (name : String) : (h.allocate u size name).1.Inv u := by
  rcases moreMemory_placed halloc hroom with ⟨hnone, -⟩ | ⟨address, hsome, -, hp⟩
  · simpa only [Host.allocate, hnone, if_true] using hinv
  · simp only [Host.allocate, hsome]
    split
    · exact hinv
    · exact hinv.perform hu (Host.admits_placed hp halloc _ _)

/-- The blocks of a thread, where both find room. -/
theorem Host.Inv.startThread (hu : u.ActsOnRange) {h : Host E} (hinv : h.Inv u)
    (halloc : AllocInv h.memoryMapList) {t : Thread} (hroom : StartRoom h.memoryMapList t) :
    (h.startThread u t).Inv u := by
  have hlist : (h.allocateStack u t.stackSize t.name).1.memoryMapList =
      (Hle.allocateStack h.memoryMapList t.stackSize t.name).1 :=
    congrArg Prod.fst (h.allocateStack_list t.stackSize t.name)
  obtain ⟨stack, hstack, -⟩ := allocateStack_ok halloc hroom.stack hroom.stackPlace t.name
  have hfirst : (h.allocateStack u t.stackSize t.name).1.Inv u :=
    hinv.allocate hu halloc hroom.stack _
  refine hfirst.allocate hu ?_ ?_ _
  · exact hlist ▸ hstack.inv
  · exact hlist ▸ hroom.tls

end Allocate

/-! ## Lists with the same headers -/

section Headers

variable {E : Type} {u : Unicorn E}

theorem Mirrors.sameMaps {maps maps' : List MemoryMap} {e : E} (h : Mirrors u maps e)
    (hsame : SameMaps maps maps') : Mirrors u maps' e := by
  have hold : ∀ it' ∈ maps', ∃ it ∈ maps, it.start = it'.start ∧ it.end_ = it'.end_ ∧
      it.protection = it'.protection := by
    intro it' hit'
    obtain ⟨it, hit, hheader⟩ := hsame.symm.mem hit'
    obtain ⟨hs, he, -⟩ := MemoryMap.header_eq hheader
    exact ⟨it, hit, hs, he, congrArg (fun e => e.2.2.2) hheader⟩
  refine ⟨⟨hsame.laid h.list.laid, fun it' hit' => ?_, fun it' hit' => ?_⟩,
    fun it' hit' a ha => ?_, fun a ha => h.uncovered a fun it hit hc => ?_⟩
  · obtain ⟨it, hit, hs, he, -⟩ := hold it' hit'
    exact hs ▸ he ▸ h.list.pages it hit
  · obtain ⟨it, hit, hs, he, -⟩ := hold it' hit'
    exact hs ▸ he ▸ h.list.sized it hit
  · obtain ⟨it, hit, hs, he, hprotection⟩ := hold it' hit'
    rw [MemoryMap.Covers, ← hs, ← he] at ha
    exact hprotection ▸ h.covered it hit a ha
  · obtain ⟨it', hit', hheader⟩ := hsame.mem hit
    obtain ⟨hs, he, -⟩ := MemoryMap.header_eq hheader
    rw [MemoryMap.Covers, ← hs, ← he] at hc
    exact ha it' hit' hc

/-- Permissions to execute come from a map that may be executed. -/
theorem executable_of_permsOf (protection : ProtectionType)
    (h : permsOf protection &&& UC_PROT_EXEC ≠ 0) :
    protection &&& PROTECTION_TYPE_EXECUTE ≠ 0 := by
  revert protection
  decide

end Headers

end Betavita.Processor

namespace Betavita.Hle

open Memory Processor Transition

variable {E : Type}

/-- The emulator with the mappings of its engine. -/
structure Hosted (E : Type) where
  machine : Machine
  unicorn : Option E

def Hosted.host (s : Hosted E) : Host E := ⟨s.machine.hle.maps, s.unicorn⟩

/-- An event, with what it does to the engine: the block of `sceKernelAllocMemBlock` is
mapped, and nothing else is. -/
inductive HostedEvent (u : Unicorn E) (rt : Runtime) : Hosted E → GuestEvent → Hosted E → Prop
  | allocates {s : Hosted E} {pc : Word} {m' : Machine} {name : List Byte}
      (hstep : RoomyStep rt s.machine (.svc pc) m')
      (hfunction : rt.functionAt pc = some .sceKernelAllocMemBlock)
      (hname : readCString s.machine.hle.maps
        (getPointerUnchecked s.machine.hle.maps (s.machine.engine (.r 0))) = .ok name) :
      HostedEvent u rt s (.svc pc)
        ⟨m', (s.host.allocateHeap u (s.machine.engine (.r 2)) (memblockName name)).1.engine⟩
  | keeps {s : Hosted E} {event : GuestEvent} {m' : Machine}
      (hstep : RoomyStep rt s.machine event m')
      (hother : ∀ pc, event = .svc pc → rt.functionAt pc ≠ some .sceKernelAllocMemBlock) :
      HostedEvent u rt s event ⟨m', s.unicorn⟩

/-- A call, with what it does to the engine: a thread that is started has its blocks mapped.
The slices are made of steps of `guest`. -/
inductive HostedCall (u : Unicorn E) (rt : Runtime)
    (guest : Hosted E → GuestEvent → Hosted E → Prop) : Hosted E → EmuCall → Hosted E → Prop
  | startThread {s : Hosted E} {thid : SceUID} {argLen argPtr : Word} {t : Thread} {m' : Machine}
      (hstep : RoomyCall rt s.machine (.startThread thid argLen argPtr) m')
      (ht : s.machine.hle.kernel.getThread thid = some t) :
      HostedCall u rt guest s (.startThread thid argLen argPtr)
        ⟨m', (s.host.startThread u t).engine⟩
  | run {s s₁ : Hosted E} {kernel : Kernel} {t : Thread} {events : List GuestEvent} {m' : Machine}
      (hfetch : s.machine.hle.kernel.fetchReadyThread = (kernel, some t))
      (hguest : Steps guest ⟨s.machine.beginSlice kernel t, s.unicorn⟩ events s₁)
      (hend : s₁.machine.endSlice t.uid = .ok m') :
      HostedCall u rt guest s (.run events (some
        { uid := t.uid
          initial := (s.machine.beginSlice kernel t).engine
          startPc := startPc t.context
          final := s₁.machine.engine })) ⟨m', s₁.unicorn⟩
  | keeps {s : Hosted E} {c : EmuCall} {m' : Machine} (hstep : RoomyCall rt s.machine c m')
      (hstart : ∀ thid argLen argPtr, c = .startThread thid argLen argPtr →
        s.machine.hle.kernel.getThread thid = none)
      (hrun : ∀ events slice, c ≠ .run events (some slice)) :
      HostedCall u rt guest s c ⟨m', s.unicorn⟩

theorem HostedCall.weaken {u : Unicorn E} {rt : Runtime}
    {guest guest' : Hosted E → GuestEvent → Hosted E → Prop}
    (hguest : ∀ s event s', guest s event s' → guest' s event s') {s s' : Hosted E} {c : EmuCall}
    (h : HostedCall u rt guest s c s') : HostedCall u rt guest' s c s' := by
  cases h with
  | startThread hstep ht => exact .startThread hstep ht
  | run hfetch hrun hend => exact .run hfetch (hrun.weaken hguest) hend
  | keeps hstep hstart hrun => exact .keeps hstep hstart hrun

variable {u : Unicorn E} {rt : Runtime}

/-! ## The two go together -/

/-- The maps that a start leaves are those of its two allocations. -/
theorem Kernel.startThread_maps {k k' : Kernel} {maps maps' : List MemoryMap} {thid : SceUID}
    {argLen argPtr : Word} {ret : Int}
    (h : k.startThread maps thid argLen argPtr = .ok (k', maps', ret)) :
    (k.getThread thid = none ∧ maps' = maps) ∨ ∃ t, k.getThread thid = some t ∧
      maps' = (allocateHeap (allocateStack maps t.stackSize t.name).1 0x1000#32
        (t.name ++ "_tls")).1 := by
  unfold Kernel.startThread at h
  split at h
  · rename_i hnone
    cases h
    exact .inl ⟨hnone, rfl⟩
  · rename_i t ht
    split at h
    · cases h
    · cases h
      exact .inr ⟨t, ht, rfl⟩

theorem HostedEvent.step {s s' : Hosted E} {event : GuestEvent} (h : HostedEvent u rt s event s') :
    RoomyStep rt s.machine event s'.machine := by
  cases h with
  | allocates hstep => exact hstep
  | keeps hstep => exact hstep

theorem HostedCall.step {s s' : Hosted E} {c : EmuCall}
    (h : HostedCall u rt (HostedEvent u rt) s c s') : RoomyCall rt s.machine c s'.machine := by
  cases h with
  | startThread hstep => exact hstep
  | run hfetch hguest hend =>
    exact ⟨trivial, .run hfetch (hguest.project Hosted.machine fun _ _ _ hstep => hstep.step) hend⟩
  | keeps hstep => exact hstep

theorem Hosted.host_eq {h : Host E} {m' : Machine} (hlist : m'.hle.maps = h.memoryMapList) :
    (⟨m', h.engine⟩ : Hosted E).host = h := by
  rw [Hosted.host, hlist]

theorem Hosted.inv_sameMaps {s : Hosted E} {m' : Machine} (h : s.host.Inv u)
    (hsame : SameMaps s.machine.hle.maps m'.hle.maps) :
    (⟨m', s.unicorn⟩ : Hosted E).host.Inv u := by
  obtain ⟨e, he, hm⟩ := h
  exact ⟨e, he, hm.sameMaps hsame⟩

/-- The block that a call allocates is the one the machine has afterwards. -/
theorem HostedEvent.inv (hu : u.ActsOnRange) {s s' : Hosted E} {event : GuestEvent}
    (h : HostedEvent u rt s event s') (hengine : EngineInv s.machine) (hinv : s.host.Inv u) :
    s'.host.Inv u := by
  cases h with
  | @allocates pc m' name hstep hfunction hname =>
    obtain ⟨hroom, hstep⟩ := hstep
    cases hstep with
    | svc _ hcall =>
      rcases Machine.handleSvc_cases hengine.core hcall with
        ⟨hnone, -⟩ | ⟨w, hle, ret, hw, hcalled, rfl⟩
      · rw [hnone] at hfunction
        cases hfunction
      · obtain rfl := Option.some.inj (hw.symm.trans hfunction)
        cases hcalled with
        | allocMemBlock hname' =>
          cases hname.symm.trans hname'
          have hlist := congrArg Prod.fst (s.host.allocateHeap_list (u := u)
            (s.machine.engine (.r 2)) (memblockName name))
          rw [Hosted.host_eq hlist.symm]
          exact hinv.allocate hu hengine.alloc (hroom hfunction) _
  | keeps hstep hother =>
    obtain ⟨-, hstep⟩ := hstep
    refine Hosted.inv_sameMaps hinv ?_
    cases hstep with
    | code _ hsame => exact hsame
    | svc _ hcall =>
      rcases Machine.handleSvc_cases hengine.core hcall with
        ⟨-, rfl⟩ | ⟨w, hle, ret, hw, hcalled, rfl⟩
      · exact .refl _
      · exact hcalled.sameMaps fun heq => hother _ rfl (heq ▸ hw)

theorem HostedRun.inv (hu : u.ActsOnRange) {s s' : Hosted E} {events : List GuestEvent}
    (hrun : Steps (HostedEvent u rt) s events s') (hengine : EngineInv s.machine)
    (hinv : s.host.Inv u) : s'.host.Inv u := by
  have hboth : EngineInv s'.machine ∧ s'.host.Inv u := by
    induction hrun with
    | nil => exact ⟨hengine, hinv⟩
    | snoc _ hlast ih => exact ⟨hlast.step.engineInv ih.1, hlast.inv hu ih.1 ih.2⟩
  exact hboth.2

/-- A slice, from where it begins to wherever it is left off. -/
theorem Hosted.inv_slice (hu : u.ActsOnRange) {base : List MemoryMap} {s s₁ : Hosted E}
    {kernel : Kernel} {t : Thread} {events : List GuestEvent} (hemu : EmuInv base s.machine)
    (hinv : s.host.Inv u)
    (hguest : Steps (HostedEvent u rt) ⟨s.machine.beginSlice kernel t, s.unicorn⟩ events s₁) :
    s₁.host.Inv u := by
  rw [Machine.beginSlice_eq] at hguest
  exact HostedRun.inv hu hguest ⟨rfl, hemu.alloc⟩ hinv

theorem HostedCall.inv (hu : u.ActsOnRange) {base : List MemoryMap} {s s' : Hosted E} {c : EmuCall}
    (h : HostedCall u rt (HostedEvent u rt) s c s') (hemu : EmuInv base s.machine)
    (hinv : s.host.Inv u) : s'.host.Inv u := by
  cases h with
  | @startThread thid argLen argPtr t m' hstep ht =>
    obtain ⟨hroom, hstep⟩ := hstep
    have hlist : m'.hle.maps = (s.host.startThread u t).memoryMapList := by
      cases hstep with
      | startThread hstart =>
        rw [Host.startThread_list]
        rcases Kernel.startThread_maps hstart with ⟨hnone, -⟩ | ⟨t', ht', hmaps⟩
        · rw [ht] at hnone
          cases hnone
        · obtain rfl := Option.some.inj (ht.symm.trans ht')
          exact hmaps
    rw [Hosted.host_eq hlist]
    exact hinv.startThread hu hemu.alloc (hroom t ht)
  | @run s₁ kernel t events m' hfetch hguest hend =>
    have hsteps := hguest.project Hosted.machine fun _ _ _ hstep => hstep.step
    rw [Machine.endSlice_eq (hsteps.weaken fun _ _ _ hstep => hstep.2)] at hend
    cases hend
    have hslice : s₁.host.Inv u := Hosted.inv_slice hu hemu hinv hguest
    exact hslice
  | keeps hstep hstart hrun =>
    refine Hosted.inv_sameMaps hinv ?_
    cases hstep.2 with
    | createThread => exact .refl _
    | startThread hok =>
      rcases Kernel.startThread_maps hok with ⟨-, rfl⟩ | ⟨t, ht, -⟩
      · exact .refl _
      · rw [hstart _ _ _ rfl] at ht
        cases ht
    | destroy => exact .refl _
    | idle => exact .refl _
    | run => exact absurd rfl (hrun _ _)

/-! ## Every run of the emulator is one -/

theorem HostedEvent.exists {m m' : Machine} {event : GuestEvent} (hstep : RoomyStep rt m event m')
    (hcore : m.hle.kernel.currentCore = 0) (unicorn : Option E) :
    ∃ unicorn', HostedEvent u rt ⟨m, unicorn⟩ event ⟨m', unicorn'⟩ := by
  by_cases hother : ∀ pc, event = .svc pc → rt.functionAt pc ≠ some .sceKernelAllocMemBlock
  · exact ⟨unicorn, .keeps hstep hother⟩
  · simp only [not_forall, not_not] at hother
    obtain ⟨pc, rfl, hfunction⟩ := hother
    have hcalled := hstep.2
    cases hcalled with
    | svc _ hcall =>
      rcases Machine.handleSvc_cases hcore hcall with ⟨hnone, -⟩ | ⟨w, hle, ret, hw, hcalled, rfl⟩
      · rw [hnone] at hfunction
        cases hfunction
      · obtain rfl := Option.some.inj (hw.symm.trans hfunction)
        cases hcalled with
        | allocMemBlock hname => exact ⟨_, .allocates hstep hfunction hname⟩

theorem HostedRun.exists {m m' : Machine} {events : List GuestEvent}
    (hrun : Steps (RoomyStep rt) m events m') (hcore : m.hle.kernel.currentCore = 0)
    (unicorn : Option E) :
    ∃ unicorn', Steps (HostedEvent u rt) ⟨m, unicorn⟩ events ⟨m', unicorn'⟩ := by
  induction hrun with
  | nil => exact ⟨unicorn, .nil⟩
  | snoc hbefore hlast ih =>
    obtain ⟨unicorn₁, hhosted⟩ := ih
    have hkernel := (GuestRun.frame (hbefore.weaken fun _ _ _ hstep => hstep.2) hcore).1
    obtain ⟨unicorn', hevent⟩ := HostedEvent.exists (u := u) hlast (hkernel ▸ hcore) unicorn₁
    exact ⟨unicorn', hhosted.snoc hevent⟩

/-- A call without a slice. -/
theorem HostedCall.exists_other (guest : Hosted E → GuestEvent → Hosted E → Prop) {m m' : Machine}
    {c : EmuCall} (hstep : RoomyCall rt m c m')
    (hother : ∀ events slice, c ≠ .run events (some slice)) (unicorn : Option E) :
    ∃ unicorn', HostedCall u rt guest ⟨m, unicorn⟩ c ⟨m', unicorn'⟩ := by
  by_cases hstart : ∃ thid argLen argPtr t, c = .startThread thid argLen argPtr ∧
      m.hle.kernel.getThread thid = some t
  · obtain ⟨thid, argLen, argPtr, t, rfl, ht⟩ := hstart
    exact ⟨_, .startThread hstep ht⟩
  · refine ⟨unicorn, .keeps hstep (fun thid argLen argPtr heq => ?_) hother⟩
    exact Option.eq_none_iff_forall_ne_some.mpr fun t ht =>
      hstart ⟨thid, argLen, argPtr, t, heq, ht⟩

theorem HostedCall.exists {m m' : Machine} {c : EmuCall} (hstep : RoomyCall rt m c m')
    (unicorn : Option E) :
    ∃ unicorn', HostedCall u rt (HostedEvent u rt) ⟨m, unicorn⟩ c ⟨m', unicorn'⟩ := by
  by_cases hrun : ∃ events slice, c = .run events (some slice)
  · obtain ⟨events, slice, rfl⟩ := hrun
    have hcall := hstep.2
    cases hcall with
    | @run m₁ _ kernel t _ hfetch hguest hend =>
      have hcore : (m.beginSlice kernel t).hle.kernel.currentCore = 0 := by
        rw [Machine.beginSlice_eq]
        rfl
      obtain ⟨unicorn', hhosted⟩ := HostedRun.exists (u := u) hguest hcore unicorn
      have hcall : HostedCall u rt (HostedEvent u rt) ⟨m, unicorn⟩ _ ⟨m', unicorn'⟩ :=
        @HostedCall.run E u rt _ ⟨m, unicorn⟩ ⟨m₁, unicorn'⟩ kernel t _ _ hfetch hhosted hend
      exact ⟨unicorn', hcall⟩
  · exact HostedCall.exists_other _ hstep (fun events slice heq => hrun ⟨events, slice, heq⟩)
      unicorn

/-- The engine's mappings stop no run, and they see every one. -/
theorem hosted_run_iff {m m' : Machine} {calls : List EmuCall} (unicorn : Option E) :
    Steps (RoomyCall rt) m calls m' ↔
      ∃ unicorn', Steps (HostedCall u rt (HostedEvent u rt)) ⟨m, unicorn⟩ calls ⟨m', unicorn'⟩ := by
  constructor
  · intro hrun
    induction hrun with
    | nil => exact ⟨unicorn, .nil⟩
    | snoc _ hlast ih =>
      obtain ⟨unicorn₁, hhosted⟩ := ih
      obtain ⟨unicorn', hcall⟩ := HostedCall.exists (u := u) hlast unicorn₁
      exact ⟨unicorn', hhosted.snoc hcall⟩
  · rintro ⟨unicorn', hhosted⟩
    exact hhosted.project Hosted.machine fun _ _ _ hcall => hcall.step

/-! ## Runs -/

theorem EmuStep.grown {m m' : Machine} {c : EmuCall} (h : EmuStep (GuestStep rt) m c m') :
    Grown m.hle.maps m'.hle.maps := by
  cases h with
  | createThread => exact SameMaps.grown (.refl _)
  | startThread hstart =>
    rcases Kernel.startThread_maps hstart with ⟨-, rfl⟩ | ⟨t, -, rfl⟩
    · exact SameMaps.grown (.refl _)
    · exact (allocateStack_grown ..).trans (allocateHeap_grown ..)
  | destroy => exact SameMaps.grown (.refl _)
  | idle => exact SameMaps.grown (.refl _)
  | run hfetch hguest hend =>
    rw [Machine.endSlice_eq hguest] at hend
    cases hend
    rw [Machine.beginSlice_eq] at hguest
    exact (GuestRun.frame hguest rfl).2

/-- What the guest finds in the engine: the maps of the list with their permissions, and
nothing to execute but what could be executed in `base`. -/
structure Hosted.Follows (u : Unicorn E) (base : List MemoryMap) (s : Hosted E) : Prop where
  agrees : s.host.Agrees u
  executable : ∀ e a q, s.unicorn = some e → u.view e a = some q → q &&& UC_PROT_EXEC ≠ 0 →
    ∃ it ∈ base, it.Covers a ∧ it.protection &&& PROTECTION_TYPE_EXECUTE ≠ 0

theorem Hosted.follows {base : List MemoryMap} {s : Hosted E} (hinv : s.host.Inv u)
    (hgrown : Grown base s.machine.hle.maps) : s.Follows u base := by
  have hagrees := hinv.agrees
  refine ⟨hagrees, fun e a q he hview hexec => ?_⟩
  obtain ⟨e', he', hiff⟩ := hagrees
  obtain rfl := Option.some.inj (he.symm.trans he')
  obtain ⟨it, hit, hc, rfl⟩ := (hiff a q).mp hview
  obtain ⟨old, hold, hheader⟩ := hgrown.executable hit (executable_of_permsOf _ hexec)
  obtain ⟨hs, he, -⟩ := MemoryMap.header_eq hheader
  refine ⟨old, hold, ?_, ?_⟩
  · rw [MemoryMap.Covers, hs, he]
    exact hc
  · rw [show old.protection = it.protection from congrArg (fun e => e.2.2.2) hheader]
    exact executable_of_permsOf _ hexec

/-- The list that is replayed into an empty engine. -/
theorem replay_inv (hu : u.ActsOnRange) {maps : List MemoryMap} (hmaps : AllocInv maps)
    (hsized : NoEmptyBuffer maps) {e : E} (hempty : ∀ a, u.view e a = none) :
    (replay u e maps).Inv u := by
  have hall : Replayable (maps ++ []) := by
    rw [List.append_nil]
    refine ⟨hmaps.paged.laid, fun it hit => ?_, fun it hit => it.size_eq ▸ hsized it hit⟩
    obtain ⟨hlo, hhi⟩ := hmaps.paged.aligned it hit
    exact ⟨hmaps.paged.laid.ordered it hit, hlo, hhi⟩
  obtain ⟨e', hfold, hm⟩ := (Mirrors.nil hempty).replay hu hall
  rw [List.append_nil] at hm
  exact ⟨e', hfold, hm⟩

/-- The emulator after the list was replayed into an engine that had no mappings. -/
def Hosted.fresh (u : Unicorn E) (e : E) (display : Display) (maps : List MemoryMap)
    (engine : RegisterFile) : Hosted E :=
  ⟨.fresh display maps engine, (replay u e maps).engine⟩

/-- Between calls. -/
structure HostedInv (u : Unicorn E) (base : List MemoryMap) (s : Hosted E) : Prop where
  emu : EmuInv base s.machine
  host : s.host.Inv u
  grown : Grown base s.machine.hle.maps

theorem HostedInv.step (hu : u.ActsOnRange) {base : List MemoryMap} {s s' : Hosted E} {c : EmuCall}
    (h : HostedInv u base s) (hcall : HostedCall u rt (HostedEvent u rt) s c s') :
    HostedInv u base s' where
  emu := h.emu.step hcall.step
  host := hcall.inv hu h.emu h.host
  grown := h.grown.trans (hcall.step.2.weaken fun _ _ _ hguest => hguest.2).grown

/-- In every run of the emulator in which each allocation finds room, between the calls and
at every point of every slice: the engine maps exactly the addresses of the maps in the list,
with their permissions, and the guest can execute nothing that was not executable before the
run. -/
theorem engine_follows (hu : u.ActsOnRange) {maps : List MemoryMap} (hmaps : AllocInv maps)
    (hsized : NoEmptyBuffer maps) {e : E} (hempty : ∀ a, u.view e a = none) {display : Display}
    {engine : RegisterFile} {calls : List EmuCall} {s : Hosted E}
    (hrun : Steps (HostedCall u rt (HostedEvent u rt)) (.fresh u e display maps engine) calls s) :
    s.Follows u maps ∧
      ∀ (kernel : Kernel) (t : Thread) (events : List GuestEvent) (s₁ : Hosted E),
        s.machine.hle.kernel.fetchReadyThread = (kernel, some t) →
        Steps (HostedEvent u rt) ⟨s.machine.beginSlice kernel t, s.unicorn⟩ events s₁ →
        s₁.Follows u maps := by
  have hfresh : HostedInv u maps (.fresh u e display maps engine) :=
    ⟨.fresh hmaps, replay_inv hu hmaps hsized hempty, SameMaps.grown (.refl _)⟩
  have h : HostedInv u maps s := hrun.invariant (fun _ _ _ hinv hcall => hinv.step hu hcall) hfresh
  refine ⟨Hosted.follows h.host h.grown, fun kernel t events s₁ _ hguest => ?_⟩
  have hsteps := hguest.project Hosted.machine fun _ _ _ hstep => hstep.step.2
  rw [Machine.beginSlice_eq] at hsteps
  have hgrown : Grown s.machine.hle.maps s₁.machine.hle.maps := (GuestRun.frame hsteps rfl).2
  exact Hosted.follows (Hosted.inv_slice hu h.emu h.host hguest) (h.grown.trans hgrown)

/-- The same with the engine. -/
theorem hosted_entry_thread (u : Unicorn E) (rt : Runtime)
    (guest : Hosted E → GuestEvent → Hosted E → Prop)
    {maps : List MemoryMap} (halloc : AllocInv maps) (hne : maps ≠ [])
    (hlow : ∀ it ∈ maps, it.hi < 0xA0000000) (unicorn : Option E) :
    ∃ s, Steps (HostedCall u rt guest) ⟨.fresh noDisplay maps fun _ => 0, unicorn⟩
        [.createThread "entry_thread" 0x81000001#32 32 0x2000#32 0 0, .startThread 0x100 0 0] s ∧
      (∃ t, s.machine.hle.kernel.getThread 0x100 = some t ∧ t.Started) ∧
      ∃ kernel t, s.machine.hle.kernel.fetchReadyThread = (kernel, some t) := by
  obtain ⟨m₁, m, hcreate, hstart, hstarted⟩ := entry_thread rt halloc hne hlow
  obtain ⟨unicorn₁, hfirst⟩ := HostedCall.exists_other (u := u) guest hcreate (by simp) unicorn
  obtain ⟨unicorn₂, hsecond⟩ := HostedCall.exists_other (u := u) guest hstart (by simp) unicorn₁
  exact ⟨⟨m, unicorn₂⟩, .snoc (.snoc .nil hfirst) hsecond, hstarted⟩

/-- A thread was started in an engine that is nothing but its view: there is no mapping at
address 0. -/
theorem engine_follows_main : ∃ (s : Hosted (Word → Option Perms)) (e : Word → Option Perms),
    Steps (HostedCall flatEngine lockRuntime (HostedEvent flatEngine lockRuntime))
      (.fresh flatEngine (fun _ => none) noDisplay [] fun _ => 0)
      [.createThread "main" 0x81000000#32 160 0x1000#32 0 0, .startThread 0x100 0 0] s ∧
    s.unicorn = some e ∧ e 0 = none := by
  obtain ⟨m, kernel, t, hrun, -, -, hnull⟩ := roomy_slice lockRuntime
  obtain ⟨unicorn, hhosted⟩ := (hosted_run_iff (u := flatEngine)
    (replay flatEngine (fun _ => none) []).engine).mp hrun
  have hsized : NoEmptyBuffer [] := fun it hit => absurd hit List.not_mem_nil
  obtain ⟨e, he, hiff⟩ :=
    (engine_follows flatEngine_actsOnRange .nil hsized (fun _ => rfl) hhosted).1.agrees
  refine ⟨_, e, hhosted, he, ?_⟩
  cases hview : e 0 with
  | none => rfl
  | some q =>
    obtain ⟨it, hit, hc, -⟩ := (hiff 0 q).mp hview
    exact absurd hc (getPointerUnchecked_eq_none.mp hnull it hit)

end Betavita.Hle
