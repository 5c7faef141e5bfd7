import Betavita.Hle.Emulator
import Betavita.Hle.GuestMemory
import Betavita.Hle.ThreadMemory

/-!
# Memory of threads in the emulator

Stacks and TLS blocks while the threads run: the guest allocates blocks in between and
writes where it likes, so a region is known by the header of its map. As long as every
allocation finds room, the regions of the started threads stay mapped and apart, and no
two TLS words have a byte in common.
-/

namespace Betavita.Hle

open Memory Processor Transition

/-- A map of that header is in the list. -/
def HasMap (maps : List MemoryMap) (region : MemoryMap) : Prop :=
  ∃ it ∈ maps, it.header = region.header

/-- The two blocks of a thread, whatever they hold: clear of each other and of the maps that
were there before any thread. -/
structure Thread.Regions (base : List MemoryMap) (t : Thread) (maps : List MemoryMap)
    (stack tls : MemoryMap) : Prop where
  mapped : HasMap maps stack ∧ HasMap maps tls
  apart : stack.Apart tls
  clear : ∀ it ∈ base, stack.Apart it ∧ tls.Apart it
  stackSize : t.stackSize.toNat ≤ stack.hi + 1 - stack.lo
  base : t.tlsLowAddress = tls.start
  length : tls.hi + 1 = tls.lo + 0x2000

/-- A thread that `start_thread` was called for. -/
def Thread.Started (t : Thread) : Prop := t.status ≠ SCE_THREAD_STAGNANT

/-- The started threads have their regions, each its own. -/
def KernelRegions (base : List MemoryMap) (k : Kernel) (maps : List MemoryMap) : Prop :=
  ∃ stack tls : SceUID → MemoryMap,
    (∀ u t, k.getThread u = some t → t.Started → t.Regions base maps (stack u) (tls u)) ∧
    ∀ u t u' t', k.getThread u = some t → t.Started → k.getThread u' = some t' → t'.Started →
      u ≠ u' → (stack u).Apart (stack u') ∧ (stack u).Apart (tls u') ∧ (tls u).Apart (tls u')

/-- What holds of the memory of the started threads, and of what was mapped before. -/
structure MemoryIsolated (base : List MemoryMap) (k : Kernel) (maps : List MemoryMap) : Prop where
  apart : maps.Pairwise MemoryMap.Apart
  kept : ∀ it ∈ base, HasMap maps it
  regions : KernelRegions base k maps
  words : ∀ u t u' t' (key key' : Int), k.getThread u = some t → t.Started →
    k.getThread u' = some t' → t'.Started → 0 ≤ key → key ≤ 0x100 → 0 ≤ key' → key' ≤ 0x100 →
    (u, key) ≠ (u', key') → AreasApart (t.tlsWord key) 4 (t'.tlsWord key') 4

/-! ## What keeps the regions -/

variable {base : List MemoryMap}

theorem HasMap.grown {maps maps' : List MemoryMap} {region : MemoryMap} (h : HasMap maps region)
    (hgrown : Grown maps maps') : HasMap maps' region := by
  obtain ⟨it, hit, hheader⟩ := h
  obtain ⟨blocks, -, hperm⟩ := hgrown
  have hmem : it.header ∈ maps'.map MemoryMap.header :=
    hperm.mem_iff.mpr (List.mem_append_right _ (List.mem_map_of_mem hit))
  obtain ⟨it', hit', heq⟩ := List.mem_map.mp hmem
  exact ⟨it', hit', heq.trans hheader⟩

theorem Thread.Regions.grown {t : Thread} {maps maps' : List MemoryMap} {stack tls : MemoryMap}
    (h : t.Regions base maps stack tls) (hgrown : Grown maps maps') :
    t.Regions base maps' stack tls :=
  ⟨⟨h.mapped.1.grown hgrown, h.mapped.2.grown hgrown⟩, h.apart, h.clear, h.stackSize, h.base,
    h.length⟩

/-- No thread is new or newly started, and none has moved. -/
def Kernel.Settled (k k' : Kernel) : Prop :=
  ∀ u t', k'.getThread u = some t' → t'.Started → ∃ t, k.getThread u = some t ∧ t.Started ∧
    t'.stackSize = t.stackSize ∧ t'.tlsLowAddress = t.tlsLowAddress

theorem KernelRegions.settled {k k' : Kernel} {maps maps' : List MemoryMap}
    (h : KernelRegions base k maps) (hk : k.Settled k') (hgrown : Grown maps maps') :
    KernelRegions base k' maps' := by
  obtain ⟨stack, tls, hregions, hapart⟩ := h
  refine ⟨stack, tls, fun u t' ht' hs' => ?_, fun u t u' t' ht hs ht' hs' hne => ?_⟩
  · obtain ⟨t, ht, hs, hsize, hlow⟩ := hk u t' ht' hs'
    have hr := (hregions u t ht hs).grown hgrown
    exact ⟨hr.mapped, hr.apart, hr.clear, hsize ▸ hr.stackSize, hlow.trans hr.base, hr.length⟩
  · obtain ⟨t₀, ht₀, hs₀, -⟩ := hk u t ht hs
    obtain ⟨t₁, ht₁, hs₁, -⟩ := hk u' t' ht' hs'
    exact hapart u t₀ u' t₁ ht₀ hs₀ ht₁ hs₁ hne

theorem Kernel.Settled.refl (k : Kernel) : k.Settled k :=
  fun _ t' ht' hs' => ⟨t', ht', hs', rfl, rfl⟩

theorem Kernel.Settled.destroy (k : Kernel) (uid : SceUID) :
    k.Settled (k.destroyKernelObject uid).1 := by
  intro u t' ht' hs'
  rw [Kernel.getThread_destroyKernelObject] at ht'
  split at ht'
  · cases ht'
  · exact ⟨t', ht', hs', rfl, rfl⟩

/-- A created thread is not started yet. -/
theorem Kernel.Settled.create {k k' : Kernel} {name : String} {entry stackSize attr option : Word}
    {initPriority : Int} {uid : SceUID}
    (hcreate : k.createThread name entry initPriority stackSize attr option = .ok (k', uid)) :
    k.Settled k' := by
  obtain ⟨-, -, hnew, hold⟩ := Kernel.createThread_ok hcreate
  intro u t' ht' hs'
  by_cases heq : u = uid
  · rw [heq, hnew] at ht'
    cases ht'
    exact absurd rfl hs'
  · rw [hold u heq] at ht'
    exact ⟨t', ht', hs', rfl, rfl⟩

/-- A store to a started thread that keeps its regions. -/
theorem Kernel.Settled.setThread {k k' : Kernel} {t t' : Thread}
    (hk : ∀ u, k'.getThread u = if u = t.uid then some t' else k.getThread u)
    (ht : k.getThread t.uid = some t) (hs : t.Started) (hsize : t'.stackSize = t.stackSize)
    (hlow : t'.tlsLowAddress = t.tlsLowAddress) : k.Settled k' := by
  intro u t'' ht'' hs''
  rw [hk] at ht''
  split at ht''
  · rename_i heq
    cases ht''
    exact ⟨t, heq ▸ ht, hs, hsize, hlow⟩
  · exact ⟨t'', ht'', hs'', rfl, rfl⟩

/-! ## TLS words -/

/-- A TLS word lies in the TLS block. -/
theorem Thread.Regions.word {t : Thread} {maps : List MemoryMap} {stack tls : MemoryMap}
    (h : t.Regions base maps stack tls) {key : Int} (h0 : 0 ≤ key) (h1 : key ≤ 0x100) :
    (t.tlsWord key).toNat = tls.lo + 4 * key.toNat ∧ (t.tlsWord key).toNat + 3 ≤ tls.hi := by
  have hhi := MemoryMap.hi_lt tls
  have hlen := h.length
  have haddr : (t.tlsWord key).toNat = tls.lo + 4 * key.toNat := by
    unfold Thread.tlsWord
    rw [if_pos ⟨h0, h1⟩, h.base, BitVec.toNat_add, BitVec.toNat_ofInt]
    unfold MemoryMap.lo at *
    omega
  omega

/-- Words that do not run around the address space are apart if their numbers are. -/
theorem areasApart_of_toNat {a b : Word} (ha : a.toNat + 3 < 2 ^ 32) (hb : b.toNat + 3 < 2 ^ 32)
    (h : a.toNat + 4 ≤ b.toNat ∨ b.toNat + 4 ≤ a.toNat) : AreasApart a 4 b 4 := by
  intro i hi j hj heq
  have heq := congrArg BitVec.toNat heq
  simp only [BitVec.toNat_add, BitVec.toNat_ofNat] at heq
  omega

theorem KernelRegions.words {k : Kernel} {maps : List MemoryMap} (h : KernelRegions base k maps)
    {u u' : SceUID} {t t' : Thread} {key key' : Int} (ht : k.getThread u = some t)
    (hs : t.Started) (ht' : k.getThread u' = some t') (hs' : t'.Started) (h0 : 0 ≤ key)
    (h1 : key ≤ 0x100) (h0' : 0 ≤ key') (h1' : key' ≤ 0x100) (hne : (u, key) ≠ (u', key')) :
    AreasApart (t.tlsWord key) 4 (t'.tlsWord key') 4 := by
  obtain ⟨stack, tls, hregions, hapart⟩ := h
  obtain ⟨haddr, hin⟩ := (hregions u t ht hs).word h0 h1
  obtain ⟨haddr', hin'⟩ := (hregions u' t' ht' hs').word h0' h1'
  have hhi := MemoryMap.hi_lt (tls u)
  have hhi' := MemoryMap.hi_lt (tls u')
  refine areasApart_of_toNat (by omega) (by omega) ?_
  by_cases heq : u = u'
  · subst heq
    have hkey : key ≠ key' := fun hkey => hne (by rw [hkey])
    omega
  · have hap := (hapart u t u' t' ht hs ht' hs' heq).2.2
    have hlen := (hregions u t ht hs).length
    have hlen' := (hregions u' t' ht' hs').length
    have hord : (tls u).lo ≤ (tls u).hi := by omega
    have hord' : (tls u').lo ≤ (tls u').hi := by omega
    rcases (Intervals.apart_iff hord hord').mp hap with hlt | hlt
    · omega
    · omega

theorem KernelRegions.isolated {k : Kernel} {maps : List MemoryMap} (h : KernelRegions base k maps)
    (halloc : AllocInv maps) (hkept : ∀ it ∈ base, HasMap maps it) : MemoryIsolated base k maps :=
  ⟨halloc.paged.laid.apart, hkept, h, fun _ _ _ _ _ _ ht hs ht' hs' h0 h1 h0' h1' hne =>
    h.words ht hs ht' hs' h0 h1 h0' h1' hne⟩

/-! ## Starting a thread -/

/-- Both blocks of a thread find their place, one after the other. -/
structure StartRoom (maps : List MemoryMap) (t : Thread) : Prop where
  stack : RoomFor maps t.stackSize
  stackPlace : ¬ FirstFit maps (pagedSize t.stackSize) 0
  tls : RoomFor (allocateStack maps t.stackSize t.name).1 0x1000#32
  tlsPlace : ¬ FirstFit (allocateStack maps t.stackSize t.name).1 (pagedSize 0x1000#32) 0

/-- What `start_thread` does with that room. -/
theorem StartRoom.start {k : Kernel} {maps : List MemoryMap} {thid : SceUID} {t : Thread}
    (hroom : StartRoom maps t) (halloc : AllocInv maps) (ht : k.getThread thid = some t)
    (argLen : Word) :
    ∃ stack tls maps₁ maps₂, Allocated maps (pagedSize t.stackSize) maps₁ stack ∧
      Allocated maps₁ (pagedSize 0x1000#32) maps₂ tls ∧
      k.startThread maps thid argLen 0 =
        .ok (k.setThread thid (t.started (stack.end_ + 1) tls.start), maps₂, 0) := by
  obtain ⟨stack, hstack, hsp⟩ := allocateStack_ok halloc hroom.stack hroom.stackPlace t.name
  obtain ⟨tls, htls, hlow⟩ :=
    allocateHeap_ok hstack.inv hroom.tls hroom.tlsPlace (t.name ++ "_tls")
  refine ⟨stack, tls, _, _, hstack, htls, ?_⟩
  simp only [Kernel.startThread, ht, ne_eq, not_true_eq_false, if_false, hsp, hlow]
  rfl

theorem Allocated.hasMap {maps maps' : List MemoryMap} {memorySize : Word} {it : MemoryMap}
    (h : Allocated maps memorySize maps' it) {region : MemoryMap}
    (hregion : region = it ∨ HasMap maps region) : HasMap maps' region := by
  rcases hregion with rfl | ⟨it', hit', hheader⟩
  · exact ⟨_, h.mem.mpr (.inl rfl), rfl⟩
  · exact ⟨it', h.mem.mpr (.inr hit'), hheader⟩

/-- A new block is apart from every region that was there. -/
theorem Allocated.apart_region {maps maps' : List MemoryMap} {memorySize : Word} {it : MemoryMap}
    (h : Allocated maps memorySize maps' it) {region : MemoryMap} (hregion : HasMap maps region) :
    it.Apart region := by
  obtain ⟨it', hit', hheader⟩ := hregion
  obtain ⟨hs, he, -⟩ := MemoryMap.header_eq hheader
  have hap := h.apart it' hit'
  simpa only [MemoryMap.Apart, Intervals.Apart, Intervals.span, MemoryMap.lo, MemoryMap.hi, hs, he]
    using hap

/-- The room that runs of starts alone ask for is enough. -/
theorem RoomForThread.startRoom {maps : List MemoryMap} {t : Thread}
    (h : RoomForThread maps t.stackSize) (halloc : AllocInv maps) (hbase : Based maps) :
    StartRoom maps t := by
  have hplace : ¬ FirstFit maps (pagedSize t.stackSize) 0 := fun hz => (h.tls 0 hz).1 rfl
  obtain ⟨stack, hstack, -⟩ := allocateStack_ok halloc h.stack hplace t.name
  obtain ⟨htls, htlsPlace⟩ :=
    hstack.roomFor_tls halloc hbase (h.tls stack.lo hstack.firstFit).2
  exact ⟨h.stack, hplace, htls, htlsPlace⟩

/-- The regions of a thread that was started are new; the others keep theirs. -/
theorem KernelRegions.start {k : Kernel} {maps maps₁ maps₂ : List MemoryMap} {thid : SceUID}
    {t : Thread} {stack tls : MemoryMap} (h : KernelRegions base k maps)
    (hkept : ∀ it ∈ base, HasMap maps it)
    (hstack : Allocated maps (pagedSize t.stackSize) maps₁ stack)
    (htls : Allocated maps₁ (pagedSize 0x1000#32) maps₂ tls)
    (hrounds : t.stackSize.toNat + 0x1000 < 2 ^ 32) :
    KernelRegions base (k.setThread thid (t.started (stack.end_ + 1) tls.start)) maps₂ := by
  obtain ⟨stackOf, tlsOf, hregions, hapart⟩ := h
  have hkeep : ∀ {region}, HasMap maps region → HasMap maps₂ region := fun hregion =>
    htls.hasMap (.inr (hstack.hasMap (.inr hregion)))
  have hmem : HasMap maps₁ stack := hstack.hasMap (.inl rfl)
  have hnew : (t.started (stack.end_ + 1) tls.start).Regions base maps₂ stack tls := by
    refine ⟨⟨htls.hasMap (.inr hmem), htls.hasMap (.inl rfl)⟩, (htls.apart_region hmem).symm,
      fun it hit => ⟨hstack.apart_region (hkept it hit),
        htls.apart_region (hstack.hasMap (.inr (hkept it hit)))⟩, ?_,
      rfl, by rw [htls.length, tlsSize]⟩
    have hlen := hstack.length
    have hsize := (pagedSize_bounds hrounds).2.2
    show t.stackSize.toNat ≤ _
    omega
  -- of another thread nothing has changed, and its regions are apart from the new ones
  have hother : ∀ u t', u ≠ thid →
      (k.setThread thid (t.started (stack.end_ + 1) tls.start)).getThread u = some t' →
      k.getThread u = some t' := by
    intro u t' hne ht'
    rwa [Kernel.getThread_setThread, if_neg hne] at ht'
  have hclear : ∀ u t', k.getThread u = some t' → t'.Started →
      stack.Apart (stackOf u) ∧ stack.Apart (tlsOf u) ∧ tls.Apart (stackOf u) ∧
        tls.Apart (tlsOf u) := by
    intro u t' ht' hs'
    have hm := (hregions u t' ht' hs').mapped
    exact ⟨hstack.apart_region hm.1, hstack.apart_region hm.2,
      htls.apart_region (hstack.hasMap (.inr hm.1)), htls.apart_region (hstack.hasMap (.inr hm.2))⟩
  refine ⟨Function.update stackOf thid stack, Function.update tlsOf thid tls, ?_, ?_⟩
  · intro u t' ht' hs'
    by_cases heq : u = thid
    · subst heq
      rw [Kernel.getThread_setThread, if_pos rfl] at ht'
      cases ht'
      rw [Function.update_self, Function.update_self]
      exact hnew
    · rw [Function.update_of_ne heq, Function.update_of_ne heq]
      have hr := hregions u t' (hother u t' heq ht') hs'
      exact ⟨⟨hkeep hr.mapped.1, hkeep hr.mapped.2⟩, hr.apart, hr.clear, hr.stackSize, hr.base,
        hr.length⟩
  · intro u t₁ u' t₂ ht₁ hs₁ ht₂ hs₂ hne
    by_cases heq : u = thid
    · subst heq
      obtain ⟨hss, hst, -, htt⟩ := hclear u' t₂ (hother u' t₂ hne.symm ht₂) hs₂
      simp only [Function.update_self, Function.update_of_ne hne.symm]
      exact ⟨hss, hst, htt⟩
    · have ht₁' := hother u t₁ heq ht₁
      by_cases heq' : u' = thid
      · subst heq'
        obtain ⟨hss, -, hts, htt⟩ := hclear u t₁ ht₁' hs₁
        simp only [Function.update_self, Function.update_of_ne hne]
        exact ⟨hss.symm, hts.symm, htt.symm⟩
      · simp only [Function.update_of_ne heq, Function.update_of_ne heq']
        exact hapart u t₁ u' t₂ ht₁' hs₁ (hother u' t₂ heq' ht₂) hs₂ hne

/-! ## Runs -/

/-- There is room for what a call allocates itself. -/
def EmuCall.HasRoom (m : Machine) : EmuCall → Prop
  | .startThread thid _ _ => ∀ t, m.hle.kernel.getThread thid = some t → StartRoom m.hle.maps t
  | _ => True

/-- A call during which every allocation finds room. -/
def RoomyCall (rt : Runtime) (m : Machine) (c : EmuCall) (m' : Machine) : Prop :=
  c.HasRoom m ∧ EmuStep (RoomyStep rt) m c m'

/-- Between calls. -/
structure EmuInv (base : List MemoryMap) (m : Machine) : Prop where
  idle : m.hle.kernel.Idle
  alloc : AllocInv m.hle.maps
  kept : ∀ it ∈ base, HasMap m.hle.maps it
  regions : KernelRegions base m.hle.kernel m.hle.maps

theorem EmuInv.fresh {display : Display} {maps : List MemoryMap} {engine : RegisterFile}
    (h : AllocInv maps) : EmuInv maps (.fresh display maps engine) := by
  have hnone : ∀ u t, ¬ Kernel.new.getThread u = some t := by
    intro u t ht
    rw [Kernel.getThread_new] at ht
    cases ht
  have it := MemoryMap.fresh "" 0 0 0
  exact ⟨.new, h, fun it hit => ⟨it, hit, rfl⟩, fun _ => it, fun _ => it,
    fun u t ht => absurd ht (hnone u t), fun u t _ _ ht => absurd ht (hnone u t)⟩

theorem EmuInv.isolated {m : Machine} (h : EmuInv base m) :
    MemoryIsolated base m.hle.kernel m.hle.maps := h.regions.isolated h.alloc h.kept

/-- While the engine runs. -/
structure EngineInv (m : Machine) : Prop where
  core : m.hle.kernel.currentCore = 0
  alloc : AllocInv m.hle.maps

theorem RoomyStep.engineInv {rt : Runtime} {m m' : Machine} {event : GuestEvent}
    (hstep : RoomyStep rt m event m') (h : EngineInv m) : EngineInv m' where
  core := (hstep.2.frame h.core).1 ▸ h.core
  alloc := (hstep.memoryStep h.core h.alloc).2

/-- A run of the engine in which every allocation finds room. -/
theorem RoomyRun.frame {rt : Runtime} {m m' : Machine} {events : List GuestEvent}
    (hrun : Steps (RoomyStep rt) m events m') (h : EngineInv m) :
    m'.hle.kernel = m.hle.kernel ∧ Grown m.hle.maps m'.hle.maps ∧ AllocInv m'.hle.maps := by
  obtain ⟨hkernel, hgrown⟩ := GuestRun.frame (hrun.weaken fun _ _ _ hstep => hstep.2) h.core
  have hinv : EngineInv m' := hrun.invariant (fun _ _ _ hinv hstep => hstep.engineInv hinv) h
  exact ⟨hkernel, hgrown, hinv.alloc⟩

/-- The slice of a READY thread, from where it begins to wherever it is left off. -/
theorem EmuInv.slice {rt : Runtime} {m m₁ : Machine} {kernel : Kernel} {t : Thread}
    {events : List GuestEvent} (h : EmuInv base m)
    (hfetch : m.hle.kernel.fetchReadyThread = (kernel, some t))
    (hguest : Steps (RoomyStep rt) (m.beginSlice kernel t) events m₁) :
    kernel = m.hle.kernel ∧ m.hle.kernel.getThread t.uid = some t ∧
      t.status = SCE_THREAD_READY ∧ m₁.hle.kernel = kernel.duringSlice t ∧
      Grown m.hle.maps m₁.hle.maps ∧ AllocInv m₁.hle.maps := by
  obtain ⟨hkept, ht, hready⟩ := h.idle.fetch_some hfetch
  rw [Machine.beginSlice_eq] at hguest
  obtain ⟨hkernel, hgrown, halloc⟩ := RoomyRun.frame hguest ⟨rfl, h.alloc⟩
  exact ⟨hkept, ht, hready, hkernel, hgrown, halloc⟩

theorem Thread.started_of_ready {t : Thread} (h : t.status = SCE_THREAD_READY) : t.Started := by
  unfold Thread.Started
  rw [h]
  decide

/-- In the middle of a slice. -/
theorem EmuInv.duringSlice {rt : Runtime} {m m₁ : Machine} {kernel : Kernel} {t : Thread}
    {events : List GuestEvent} (h : EmuInv base m)
    (hfetch : m.hle.kernel.fetchReadyThread = (kernel, some t))
    (hguest : Steps (RoomyStep rt) (m.beginSlice kernel t) events m₁) :
    MemoryIsolated base m₁.hle.kernel m₁.hle.maps := by
  obtain ⟨rfl, ht, hready, hkernel, hgrown, halloc⟩ := h.slice hfetch hguest
  have hsettled : m.hle.kernel.Settled m₁.hle.kernel := by
    rw [hkernel]
    exact .setThread (t := t) (fun u => Kernel.getThread_duringSlice ..) ht
      (Thread.started_of_ready hready) rfl rfl
  exact (h.regions.settled hsettled hgrown).isolated halloc fun it hit =>
    (h.kept it hit).grown hgrown

/-- A start that finds room, or does nothing. -/
theorem EmuInv.startThread {m : Machine} (h : EmuInv base m) {thid : SceUID} {argLen argPtr : Word}
    {kernel : Kernel} {maps : List MemoryMap} {ret : Int}
    (hroom : ∀ t, m.hle.kernel.getThread thid = some t → StartRoom m.hle.maps t)
    (hstart : m.hle.kernel.startThread m.hle.maps thid argLen argPtr = .ok (kernel, maps, ret)) :
    AllocInv maps ∧ (∀ it ∈ base, HasMap maps it) ∧ KernelRegions base kernel maps := by
  cases ht : m.hle.kernel.getThread thid with
  | none =>
    simp only [Kernel.startThread, ht, Except.ok.injEq, Prod.mk.injEq] at hstart
    obtain ⟨rfl, rfl, rfl⟩ := hstart
    exact ⟨h.alloc, h.kept, h.regions⟩
  | some t =>
    by_cases harg : argPtr = 0
    · subst harg
      obtain ⟨stack, tls, maps₁, maps₂, hstack, htls, hok⟩ :=
        (hroom t ht).start h.alloc ht argLen
      rw [hok] at hstart
      cases hstart
      exact ⟨htls.inv, fun it hit => htls.hasMap (.inr (hstack.hasMap (.inr (h.kept it hit)))),
        h.regions.start h.kept hstack htls (hroom t ht).stack.rounds⟩
    · have harg' : argPtr ≠ 0 := harg
      simp only [Kernel.startThread, ht, if_pos harg'] at hstart
      cases hstart

theorem EmuInv.step {rt : Runtime} {m m' : Machine} {c : EmuCall} (h : EmuInv base m)
    (hstep : RoomyCall rt m c m') : EmuInv base m' := by
  obtain ⟨hroom, hstep⟩ := hstep
  have hidle : m'.hle.kernel.Idle := by
    obtain ⟨c', -, hsched⟩ := (hstep.weaken fun _ _ _ hguest => hguest.2).sched
    exact hsched.idle h.idle
  cases hstep with
  | createThread hcreate =>
    exact ⟨hidle, h.alloc, h.kept, h.regions.settled (Kernel.Settled.create hcreate)
      (SameMaps.grown (.refl _))⟩
  | startThread hstart =>
    obtain ⟨halloc, hkept, hregions⟩ := h.startThread hroom hstart
    exact ⟨hidle, halloc, hkept, hregions⟩
  | destroy =>
    exact ⟨hidle, h.alloc, h.kept, h.regions.settled (Kernel.Settled.destroy _ _)
      (SameMaps.grown (.refl _))⟩
  | idle hfetch =>
    obtain ⟨rfl, -⟩ := h.idle.fetch_none hfetch
    exact h
  | @run m₁ _ kernel t events hfetch hguest hend =>
    obtain ⟨rfl, ht, hready, -, hgrown, halloc⟩ := h.slice hfetch hguest
    rw [Machine.endSlice_eq (hguest.weaken fun _ _ _ hstep => hstep.2)] at hend
    cases hend
    have hsettled : m.hle.kernel.Settled (m.hle.kernel.afterSlice t (m₁.execution events)) :=
      Kernel.Settled.setThread (fun u => Kernel.getThread_afterSlice ..) ht
        (Thread.started_of_ready hready) rfl rfl
    exact ⟨hidle, halloc, fun it hit => (h.kept it hit).grown hgrown,
      h.regions.settled hsettled hgrown⟩

/-- In every run of the emulator in which each allocation finds room, between the calls and
in the middle of every slice, whatever the guest does: the maps are disjoint, those that
were there before the run still are, every started thread has a stack and a TLS block that
are its own and clear of them, and no two TLS words overlap. -/
theorem emulator_memory {rt : Runtime} {display : Display} {maps : List MemoryMap}
    {engine : RegisterFile} (hmaps : AllocInv maps) {calls : List EmuCall} {m : Machine}
    (hrun : Steps (RoomyCall rt) (.fresh display maps engine) calls m) :
    MemoryIsolated maps m.hle.kernel m.hle.maps ∧
      ∀ (kernel : Kernel) (t : Thread) (events : List GuestEvent) (m₁ : Machine),
        m.hle.kernel.fetchReadyThread = (kernel, some t) →
        Steps (RoomyStep rt) (m.beginSlice kernel t) events m₁ →
        MemoryIsolated maps m₁.hle.kernel m₁.hle.maps := by
  have h : EmuInv maps m := hrun.invariant (fun _ _ _ hinv hstep => hinv.step hstep) (.fresh hmaps)
  exact ⟨h.isolated, fun kernel t events m₁ hfetch hguest =>
    h.duringSlice hfetch hguest⟩

/-! ### A thread above maps that are there -/

/-- A block finds room above maps that leave it. -/
theorem roomFor_above {maps : List MemoryMap} {size : Word} (hne : maps ≠ [])
    (hsize : size.toNat < 2 ^ 29) (hlow : ∀ it ∈ maps, it.hi < 0xD0000000) :
    RoomFor maps size ∧ ¬ FirstFit maps (pagedSize size) 0 := by
  have hrounds : size.toNat + 0x1000 < 2 ^ 32 := by omega
  have hpaged := pagedSize_toNat hrounds
  constructor
  · obtain ⟨pre, last, rfl⟩ := (List.eq_nil_or_concat maps).resolve_left hne
    rw [List.concat_eq_append] at hlow ⊢
    have hlast := hlow last (by simp)
    exact roomFor_top (by omega) (by omega)
  · intro hzero
    obtain ⟨pre, last, heq, -, htop⟩ := hzero.eq_zero
    have hlast := hlow last (by rw [heq]; simp)
    omega

/-- First fit goes no further than behind the last map. -/
theorem FirstFit.le {maps : List MemoryMap} {memorySize : Word} {address bound : Nat}
    (h : FirstFit maps memorySize address) (hne : maps ≠ []) (hlow : ∀ it ∈ maps, it.hi < bound) :
    address ≤ bound + 0x1000 := by
  cases h with
  | empty hmaps => exact absurd hmaps hne
  | @hole pre post a b hmaps =>
    have ha := hlow a (by rw [hmaps]; simp)
    omega
  | @top pre last hmaps =>
    have hlast := hlow last (by rw [hmaps]; simp)
    have hmod := Nat.mod_le (last.hi + 0x1001) (2 ^ 32)
    omega

/-- Both blocks of a thread find room above maps that are low. -/
theorem startRoom_above {maps : List MemoryMap} {t : Thread} (halloc : AllocInv maps)
    (hne : maps ≠ []) (hsize : t.stackSize.toNat < 2 ^ 29)
    (hlow : ∀ it ∈ maps, it.hi < 0xA0000000) : StartRoom maps t := by
  obtain ⟨hstack, hplace⟩ := roomFor_above hne hsize fun it hit => by
    have hit' := hlow it hit
    omega
  obtain ⟨stack, hallocated, -⟩ := allocateStack_ok halloc hstack hplace t.name
  have hpaged := pagedSize_toNat hstack.rounds
  have htop := hallocated.firstFit.le hne hlow
  have hlen := hallocated.length
  have hlow' : ∀ it ∈ (allocateStack maps t.stackSize t.name).1, it.hi < 0xD0000000 := by
    intro it hit
    rcases hallocated.mem.mp hit with rfl | hit
    · omega
    · have hit' := hlow it hit
      omega
  have hne' : (allocateStack maps t.stackSize t.name).1 ≠ [] :=
    List.ne_nil_of_mem (hallocated.mem.mpr (.inl rfl))
  have htls : RoomFor _ 0x1000#32 ∧ ¬ FirstFit _ (pagedSize 0x1000#32) 0 :=
    roomFor_above hne' (by decide) hlow'
  exact ⟨hstack, hplace, htls.1, htls.2⟩

/-- A thread is created and started in memory that is mapped below, and comes next. -/
theorem entry_thread (rt : Runtime) {maps : List MemoryMap} (halloc : AllocInv maps)
    (hne : maps ≠ []) (hlow : ∀ it ∈ maps, it.hi < 0xA0000000) :
    ∃ m₁ m, RoomyCall rt (.fresh noDisplay maps fun _ => 0)
        (.createThread "entry_thread" 0x81000001#32 32 0x2000#32 0 0) m₁ ∧
      RoomyCall rt m₁ (.startThread 0x100 0 0) m ∧
      (∃ t, m.hle.kernel.getThread 0x100 = some t ∧ t.Started) ∧
      ∃ kernel t, m.hle.kernel.fetchReadyThread = (kernel, some t) := by
  obtain ⟨m₁, hcreate, hmaps, t, hget, hsize⟩ : ∃ m₁,
      RoomyCall rt (.fresh noDisplay maps fun _ => 0)
        (.createThread "entry_thread" 0x81000001#32 32 0x2000#32 0 0) m₁ ∧ m₁.hle.maps = maps ∧
        ∃ t, m₁.hle.kernel.getThread 0x100 = some t ∧ t.stackSize = 0x2000#32 :=
    ⟨_, ⟨trivial, .createThread rfl⟩, rfl, _, rfl, rfl⟩
  have hroom : StartRoom m₁.hle.maps t := by
    rw [hmaps]
    exact startRoom_above halloc hne (by rw [hsize]; decide) hlow
  obtain ⟨stack, tls, maps₁, maps₂, -, -, hstart⟩ := hroom.start (hmaps ▸ halloc) hget 0
  have hstep : RoomyCall rt m₁ (.startThread 0x100 0 0) _ :=
    ⟨fun t' ht' => Option.some.inj (hget.symm.trans ht') ▸ hroom, .startThread hstart⟩
  have hstarted := (Kernel.getThread_setThread m₁.hle.kernel 0x100 0x100
    (t.started (stack.end_ + 1) tls.start)).trans (if_pos rfl)
  have hinv := ((EmuInv.fresh halloc).step hcreate).step hstep
  refine ⟨m₁, _, hcreate, hstep, ⟨_, hstarted, Thread.started_of_ready rfl⟩, ?_⟩
  rcases hinv.idle.fetch with ⟨hnone, -⟩ | ⟨t', -, -, hfetch⟩
  · exact absurd ⟨_, _, hstarted, rfl⟩ hnone
  · exact ⟨_, t', hfetch⟩

/-- The slice of a thread that was created and started, with nothing mapped at address 0. -/
theorem roomy_slice (rt : Runtime) : ∃ m kernel t,
    Steps (RoomyCall rt) (.fresh noDisplay [] fun _ => 0)
      [.createThread "main" 0x81000000#32 160 0x1000#32 0 0, .startThread 0x100 0 0] m ∧
    m.hle.kernel.fetchReadyThread = (kernel, some t) ∧ t.uid = 0x100 ∧
    getPointerUnchecked m.hle.maps 0 = none := by
  obtain ⟨m₁, m, t₁, kernel, t, hcreate, hmaps, hget, hsize, hstart, hfetch, huid, hnull⟩ :
      ∃ m₁ m t₁ kernel t,
        RoomyCall rt (.fresh noDisplay [] fun _ => 0)
          (.createThread "main" 0x81000000#32 160 0x1000#32 0 0) m₁ ∧
        m₁.hle.maps = [] ∧ m₁.hle.kernel.getThread 0x100 = some t₁ ∧
        t₁.stackSize = 0x1000#32 ∧ EmuStep (RoomyStep rt) m₁ (.startThread 0x100 0 0) m ∧
        m.hle.kernel.fetchReadyThread = (kernel, some t) ∧ t.uid = 0x100 ∧
        getPointerUnchecked m.hle.maps 0 = none :=
    ⟨_, _, _, _, _, ⟨trivial, .createThread rfl⟩, rfl, rfl, rfl, .startThread rfl, rfl, rfl, rfl⟩
  have hroom : StartRoom m₁.hle.maps t₁ := by
    rw [hmaps]
    refine RoomForThread.startRoom ?_ .nil (.inl rfl)
    rw [hsize]
    exact roomForThread_first _ (by decide)
  have hstep : RoomyCall rt m₁ (.startThread 0x100 0 0) m :=
    ⟨fun t' ht' => Option.some.inj (hget.symm.trans ht') ▸ hroom, hstart⟩
  have hrun : Steps (RoomyCall rt) (.fresh noDisplay [] fun _ => 0)
      (([] ++ [.createThread "main" 0x81000000#32 160 0x1000#32 0 0]) ++ [.startThread 0x100 0 0])
        m := .snoc (.snoc .nil hcreate) hstep
  exact ⟨m, kernel, t, hrun, hfetch, huid, hnull⟩

/-- A thread that was created and started owns its memory. -/
theorem emulator_memory_main :
    ∃ m, Steps (RoomyCall lockRuntime) (.fresh noDisplay [] fun _ => 0)
        [.createThread "main" 0x81000000#32 160 0x1000#32 0 0, .startThread 0x100 0 0] m ∧
      (∃ t, m.hle.kernel.getThread 0x100 = some t ∧ t.Started) ∧
      MemoryIsolated [] m.hle.kernel m.hle.maps := by
  obtain ⟨m, kernel, t, hrun, hfetch, huid, -⟩ := roomy_slice lockRuntime
  have h : EmuInv [] m := hrun.invariant (fun _ _ _ hinv hstep => hinv.step hstep) (.fresh .nil)
  obtain ⟨-, ht, hready⟩ := h.idle.fetch_some hfetch
  exact ⟨m, hrun, ⟨t, huid ▸ ht, Thread.started_of_ready hready⟩, (emulator_memory .nil hrun).1⟩

end Betavita.Hle
