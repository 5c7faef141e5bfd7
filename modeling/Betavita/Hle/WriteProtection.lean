import Betavita.Hle.EngineRun

/-!
# Write protection

A map without the write flag is one that the engine lets no instruction write to. The host
functions that supervisor calls lead to take a pointer into the buffer and look at no flag,
so they are the one way by which a byte of it can change.
-/

namespace Betavita.Hle

open Memory ByteBuffer ByteStore Processor Transition

/-- The address lies in a map without the write flag. -/
def ReadOnly (maps : List MemoryMap) (x : Word) : Prop :=
  ∃ it ∈ maps, it.Covers x ∧ it.protection &&& PROTECTION_TYPE_WRITE = 0

/-- The addresses that an operation writes to, those of a new block apart. -/
def MemoryOp.Writes (v : MemoryView) (x : Word) : MemoryOp → Prop
  | .memset dst _ len => v.Accepts dst (dst + len - 1) ∧ (x - dst).toNat < len.toNat
  | .memmove dst src len =>
    (v.Accepts dst (dst + len) ∧ v.Accepts src (src + len)) ∧ (x - dst).toNat < len.toNat
  | .storeLatest address => address ∈ v.bytes.dom ∧ (x - address).toNat < 4
  | _ => False

section Bytes

/-- An operation changes no byte but those it writes to. -/
theorem MemoryStep.kept {v v' : MemoryView} {op : MemoryOp} (h : MemoryStep v op v')
    (hop : op ≠ .code) {x : Word} (hdom : x ∈ v.bytes.dom) (hw : ¬ op.Writes v x) :
    v'.bytes x = v.bytes x := by
  cases h with
  | code => exact absurd rfl hop
  | @block size lo hi horder hsize hfree =>
    -- the block was put where there was no byte
    have hout : x ∉ {x | lo ≤ x ∧ x ≤ hi} := by
      rintro ⟨hlo, hhi⟩
      obtain ⟨b, hb⟩ := Option.isSome_iff_exists.mp hdom
      rw [hfree x hlo hhi] at hb
      cases hb
    exact Store.fill_outside _ hout 0
  | storeLatest hmapped =>
    refine Store.overwrite_outside _ (Nat.le_of_not_lt fun hlt => hw ⟨hmapped, ?_⟩)
    rwa [encode_length] at hlt
  | memset hrange =>
    refine Store.overwrite_outside _ (Nat.le_of_not_lt fun hlt => hw ⟨hrange, ?_⟩)
    rwa [List.length_replicate] at hlt
  | memmove hdst hsrc hlength =>
    refine Store.overwrite_outside _ (Nat.le_of_not_lt fun hlt => hw ⟨⟨hdst, hsrc⟩, ?_⟩)
    rwa [hlength] at hlt
  | noBlock => rfl
  | noStore => rfl
  | memsetRefused => rfl
  | memmoveRefused => rfl
  | other => rfl

/-- A map that is in both lists shows the same bytes in both. -/
theorem loadByte_of_mem_both {maps maps' : List MemoryMap} (hapart : maps.Pairwise MemoryMap.Apart)
    (hapart' : maps'.Pairwise MemoryMap.Apart) {it : MemoryMap} {x : Word} (hit : it ∈ maps)
    (hit' : it ∈ maps') (hc : it.Covers x) : loadByte maps' x = loadByte maps x :=
  (loadByte_of_covers hapart' hit' hc).trans (loadByte_of_covers hapart hit hc).symm

end Bytes

section ReadOnly

variable {maps maps' : List MemoryMap} {x : Word}

theorem ReadOnly.grown (h : ReadOnly maps x) (hgrown : Grown maps maps') : ReadOnly maps' x := by
  obtain ⟨it, hit, hc, hprot⟩ := h
  obtain ⟨it', hit', hheader⟩ := HasMap.grown ⟨it, hit, rfl⟩ hgrown
  obtain ⟨hs, he, -⟩ := MemoryMap.header_eq hheader
  refine ⟨it', hit', ?_, ?_⟩
  · rw [MemoryMap.Covers, hs, he]
    exact hc
  · rw [show it'.protection = it.protection from congrArg (fun e => e.2.2.2) hheader]
    exact hprot

/-- An address of a map has a byte, unless the map is the whole address space. -/
theorem ReadOnly.dom (h : ReadOnly maps x) (hapart : maps.Pairwise MemoryMap.Apart)
    (hsized : ∀ it ∈ maps, (it.end_ - it.start) + 1 ≠ 0) : x ∈ Store.dom (loadByte maps) := by
  obtain ⟨it, hit, hc, -⟩ := h
  have hsize : it.size ≠ 0 := by
    rw [it.size_eq]
    exact hsized it hit
  have hlen := MemoryMap.range_le_data_length (n := 1) (by decide) hc.1
    (Nat.add_le_add_right hc.2 1) hsize
  show (loadByte maps x).isSome
  rw [loadByte_of_covers hapart hit hc, List.getElem?_eq_getElem hlen]
  rfl

/-- A new block leaves the bytes of the maps that were there. -/
theorem Allocated.kept {memorySize : Word} {it : MemoryMap} (h : Allocated maps memorySize maps' it)
    (hapart : maps.Pairwise MemoryMap.Apart) (hro : ReadOnly maps x) :
    loadByte maps' x = loadByte maps x := by
  obtain ⟨old, hold, hc, -⟩ := hro
  exact loadByte_of_mem_both hapart h.inv.paged.laid.apart hold (h.mem.mpr (.inr hold)) hc

theorem permsOf_readOnly (protection : ProtectionType)
    (h : protection &&& PROTECTION_TYPE_WRITE = 0) : permsOf protection &&& UC_PROT_WRITE = 0 := by
  revert protection
  decide

end ReadOnly

/-! ## Events -/

variable {E : Type} {u : Unicorn E} {rt : Runtime}

/-- The engine maps the address with permission to write. -/
def Hosted.EngineWrites (u : Unicorn E) (s : Hosted E) (x : Word) : Prop :=
  ∃ e q, s.unicorn = some e ∧ u.view e x = some q ∧ q &&& UC_PROT_WRITE ≠ 0

/-- Instructions change no byte where the engine has no permission to write. -/
def Hosted.Enforces (u : Unicorn E) (s : Hosted E) : GuestEvent → Prop
  | .code _ maps => ∀ x, loadByte maps x ≠ loadByte s.machine.hle.maps x → s.EngineWrites u x
  | .svc _ => True

/-- An event under an engine that enforces its permissions, in which no supervisor call
writes to an address of `spared`. -/
structure SparingEvent (u : Unicorn E) (rt : Runtime) (spared : Set Word) (s : Hosted E)
    (event : GuestEvent) (s' : Hosted E) : Prop where
  step : HostedEvent u rt s event s'
  enforces : s.Enforces u event
  spares : ∀ x ∈ spared, ¬ (event.memoryOp rt s.machine).Writes s.machine.hle.memory x

theorem GuestStep.code_maps {m m' : Machine} {engine : RegisterFile} {maps : List MemoryMap}
    (h : GuestStep rt m (.code engine maps) m') : m'.hle.maps = maps := by
  cases h
  rfl

/-- The engine has the write flag from the list. -/
theorem ReadOnly.not_engineWrites {s : Hosted E} {x : Word} (h : ReadOnly s.machine.hle.maps x)
    (hinv : s.host.Inv u) : ¬ s.EngineWrites u x := by
  rintro ⟨e, q, he, hview, hwrite⟩
  obtain ⟨e', he', hm⟩ := hinv
  obtain rfl := Option.some.inj (he.symm.trans he')
  obtain ⟨it, hit, hc, hprot⟩ := h
  have hperms := (hm.covered it hit x hc).symm.trans hview
  rw [← Option.some.inj hperms, permsOf_readOnly _ hprot] at hwrite
  exact hwrite rfl

variable {spared : Set Word}

theorem SparingEvent.kept {s s' : Hosted E} {event : GuestEvent}
    (h : SparingEvent u rt spared s event s') (hengine : EngineInv s.machine)
    (hinv : s.host.Inv u) {x : Word} (hx : x ∈ spared) (hro : ReadOnly s.machine.hle.maps x) :
    loadByte s'.machine.hle.maps x = loadByte s.machine.hle.maps x := by
  obtain ⟨hmemory, -⟩ := h.step.step.memoryStep hengine.core hengine.alloc
  cases event with
  | code engine maps =>
    have hmaps : s'.machine.hle.maps = maps := h.step.step.2.code_maps
    rw [hmaps]
    by_contra hne
    exact hro.not_engineWrites hinv (h.enforces x hne)
  | svc pc =>
    obtain ⟨e, -, hm⟩ := hinv
    refine hmemory.kept (fun hop => ?_) (hro.dom hm.list.laid.apart hm.list.sized) (h.spares x hx)
    rw [GuestEvent.memoryOp] at hop
    cases hfunction : rt.functionAt pc with
    | none =>
      rw [hfunction] at hop
      cases hop
    | some w =>
      rw [hfunction] at hop
      cases w <;> cases hop

/-! ## Runs -/

/-- What a run from `base` keeps at the spared addresses. -/
def Spared (base : List MemoryMap) (spared : Set Word) (maps : List MemoryMap) : Prop :=
  ∀ x ∈ spared, loadByte maps x = loadByte base x

variable {base : List MemoryMap}

/-- A slice, from where it begins to wherever it is left off. -/
theorem SparingRun.kept (hu : u.ActsOnRange) {s s' : Hosted E} {events : List GuestEvent}
    (hrun : Steps (SparingEvent u rt spared) s events s') (hengine : EngineInv s.machine)
    (hinv : s.host.Inv u) (hro : ∀ x ∈ spared, ReadOnly s.machine.hle.maps x) :
    Spared s.machine.hle.maps spared s'.machine.hle.maps := by
  have hall : Spared s.machine.hle.maps spared s'.machine.hle.maps ∧ EngineInv s'.machine ∧
      s'.host.Inv u ∧ Grown s.machine.hle.maps s'.machine.hle.maps := by
    induction hrun with
    | nil => exact ⟨fun _ _ => rfl, hengine, hinv, SameMaps.grown (.refl _)⟩
    | snoc _ hlast ih =>
      obtain ⟨hkept, hengine₁, hinv₁, hgrown⟩ := ih
      have hstep := hlast.step.step
      refine ⟨fun x hx => ?_, hstep.engineInv hengine₁, hlast.step.inv hu hengine₁ hinv₁,
        hgrown.trans (hstep.2.frame hengine₁.core).2⟩
      exact (hlast.kept hengine₁ hinv₁ hx ((hro x hx).grown hgrown)).trans (hkept x hx)
  exact hall.1

theorem SparingRun.slice (hu : u.ActsOnRange) {s s₁ : Hosted E} {kernel : Kernel} {t : Thread}
    {events : List GuestEvent} (h : HostedInv u base s)
    (hro : ∀ x ∈ spared, ReadOnly s.machine.hle.maps x)
    (hguest : Steps (SparingEvent u rt spared) ⟨s.machine.beginSlice kernel t, s.unicorn⟩ events
      s₁) : Spared s.machine.hle.maps spared s₁.machine.hle.maps := by
  rw [Machine.beginSlice_eq] at hguest
  have hkept := SparingRun.kept hu hguest ⟨rfl, h.emu.alloc⟩ h.host hro
  exact hkept

theorem SparingCall.kept (hu : u.ActsOnRange) {s s' : Hosted E} {c : EmuCall}
    (hcall : HostedCall u rt (SparingEvent u rt spared) s c s') (h : HostedInv u base s)
    (hro : ∀ x ∈ spared, ReadOnly s.machine.hle.maps x) :
    Spared s.machine.hle.maps spared s'.machine.hle.maps := by
  have hsame : ∀ {maps}, maps = s.machine.hle.maps → Spared s.machine.hle.maps spared maps :=
    fun hmaps _ _ => by rw [hmaps]
  cases hcall with
  | @startThread thid argLen argPtr t m' hstep ht =>
    obtain ⟨hroom, hstep⟩ := hstep
    have hroom := hroom t ht
    cases hstep with
    | startThread hstart =>
      rcases Kernel.startThread_maps hstart with ⟨-, rfl⟩ | ⟨t', ht', rfl⟩
      · exact hsame rfl
      · obtain rfl := Option.some.inj (ht.symm.trans ht')
        obtain ⟨stack, hstack, -⟩ :=
          allocateStack_ok h.emu.alloc hroom.stack hroom.stackPlace t.name
        obtain ⟨tls, htls, -⟩ :=
          allocateHeap_ok hstack.inv hroom.tls hroom.tlsPlace (t.name ++ "_tls")
        intro x hx
        have hro₁ := (hro x hx).grown (allocateStack_grown _ t.stackSize t.name)
        exact (htls.kept hstack.inv.paged.laid.apart hro₁).trans
          (hstack.kept h.emu.alloc.paged.laid.apart (hro x hx))
  | @run s₁ kernel t events m' hfetch hguest hend =>
    have hsteps := hguest.project Hosted.machine fun _ _ _ hstep => hstep.step.step
    rw [Machine.endSlice_eq (hsteps.weaken fun _ _ _ hstep => hstep.2)] at hend
    cases hend
    have hkept := SparingRun.slice hu h hro hguest
    exact hkept
  | keeps hstep hstart hrun =>
    cases hstep.2 with
    | createThread => exact hsame rfl
    | startThread hok =>
      rcases Kernel.startThread_maps hok with ⟨-, rfl⟩ | ⟨t, ht, -⟩
      · exact hsame rfl
      · rw [hstart _ _ _ rfl] at ht
        cases ht
    | destroy => exact hsame rfl
    | idle => exact hsame rfl
    | run => exact absurd rfl (hrun _ _)

/-- Between calls. -/
structure SparedInv (u : Unicorn E) (base : List MemoryMap) (spared : Set Word) (s : Hosted E) :
    Prop where
  hosted : HostedInv u base s
  spared : Spared base spared s.machine.hle.maps

theorem SparedInv.readOnly {s : Hosted E} (h : SparedInv u base spared s)
    (hro : ∀ x ∈ spared, ReadOnly base x) : ∀ x ∈ spared, ReadOnly s.machine.hle.maps x :=
  fun x hx => (hro x hx).grown h.hosted.grown

theorem SparedInv.step (hu : u.ActsOnRange) (hro : ∀ x ∈ spared, ReadOnly base x)
    {s s' : Hosted E} {c : EmuCall} (h : SparedInv u base spared s)
    (hcall : HostedCall u rt (SparingEvent u rt spared) s c s') : SparedInv u base spared s' where
  hosted := h.hosted.step hu (hcall.weaken fun _ _ _ hstep => hstep.step)
  spared := fun x hx => (SparingCall.kept hu hcall h.hosted (h.readOnly hro) x hx).trans
    (h.spared x hx)

theorem SparedInv.run (hu : u.ActsOnRange) (hmaps : AllocInv base) (hsized : NoEmptyBuffer base)
    {e : E} (hempty : ∀ a, u.view e a = none) (hro : ∀ x ∈ spared, ReadOnly base x)
    {display : Display} {engine : RegisterFile} {calls : List EmuCall} {s : Hosted E}
    (hrun : Steps (HostedCall u rt (SparingEvent u rt spared)) (.fresh u e display base engine)
      calls s) : SparedInv u base spared s :=
  hrun.invariant (fun _ _ _ hinv hcall => hinv.step hu hro hcall)
    ⟨⟨.fresh hmaps, replay_inv hu hmaps hsized hempty, SameMaps.grown (.refl _)⟩, fun _ _ => rfl⟩

theorem SparedInv.slice (hu : u.ActsOnRange) (hro : ∀ x ∈ spared, ReadOnly base x)
    {s s₁ : Hosted E} {kernel : Kernel} {t : Thread} {events : List GuestEvent}
    (h : SparedInv u base spared s)
    (hguest : Steps (SparingEvent u rt spared) ⟨s.machine.beginSlice kernel t, s.unicorn⟩ events
      s₁) : Spared base spared s₁.machine.hle.maps :=
  fun x hx => (SparingRun.slice hu h.hosted (h.readOnly hro) hguest x hx).trans (h.spared x hx)

/-- In every run of the emulator whose engine enforces its permissions, between the calls and
at every point of every slice, a byte of a map without the write flag is what it was before
the run, unless a supervisor call has written to its address. -/
theorem read_only_kept (hu : u.ActsOnRange) {maps : List MemoryMap} (hmaps : AllocInv maps)
    (hsized : NoEmptyBuffer maps) {e : E} (hempty : ∀ a, u.view e a = none)
    (hro : ∀ x ∈ spared, ReadOnly maps x) {display : Display} {engine : RegisterFile}
    {calls : List EmuCall} {s : Hosted E}
    (hrun : Steps (HostedCall u rt (SparingEvent u rt spared)) (.fresh u e display maps engine)
      calls s) :
    Spared maps spared s.machine.hle.maps ∧
      ∀ (kernel : Kernel) (t : Thread) (events : List GuestEvent) (s₁ : Hosted E),
        s.machine.hle.kernel.fetchReadyThread = (kernel, some t) →
        Steps (SparingEvent u rt spared) ⟨s.machine.beginSlice kernel t, s.unicorn⟩ events s₁ →
        Spared maps spared s₁.machine.hle.maps := by
  have h : SparedInv u maps spared s := .run hu hmaps hsized hempty hro hrun
  exact ⟨h.spared, fun kernel t events s₁ _ hguest => h.slice hu hro hguest⟩

/-- A page that may be read and executed. -/
def codePage : MemoryMap :=
  .fresh "code" 0x81000000#32 0x81000FFF#32 (PROTECTION_TYPE_READ ||| PROTECTION_TYPE_EXECUTE)

theorem codePage_allocInv : AllocInv [codePage] := by
  refine ⟨⟨⟨?_, List.pairwise_singleton _ _⟩, ?_, List.pairwise_singleton _ _⟩,
    .inr (List.pairwise_singleton _ _)⟩
  · intro it hit
    rw [List.mem_singleton.mp hit]
    decide
  · intro it hit
    rw [List.mem_singleton.mp hit]
    decide

/-- A thread is started above it: the first byte of the page is still zero. -/
theorem read_only_kept_page : ∃ s,
    Steps (HostedCall flatEngine lockRuntime
        (SparingEvent flatEngine lockRuntime {0x81000000#32}))
      (.fresh flatEngine (fun _ => none) noDisplay [codePage] fun _ => 0)
      [.createThread "entry_thread" 0x81000001#32 32 0x2000#32 0 0, .startThread 0x100 0 0] s ∧
    (∃ t, s.machine.hle.kernel.getThread 0x100 = some t ∧ t.Started) ∧
    loadByte s.machine.hle.maps 0x81000000#32 = some 0 := by
  have hlow : ∀ it ∈ [codePage], it.hi < 0xA0000000 := by
    intro it hit
    rw [List.mem_singleton.mp hit]
    decide
  have hsized : NoEmptyBuffer [codePage] := by
    intro it hit
    rw [List.mem_singleton.mp hit]
    decide
  have hro : ∀ x ∈ ({0x81000000#32} : Set Word), ReadOnly [codePage] x := by
    intro x hx
    obtain rfl := Set.mem_singleton_iff.mp hx
    exact ⟨codePage, List.mem_singleton_self _, by decide, by decide⟩
  obtain ⟨s, hrun, hstarted, -⟩ := hosted_entry_thread flatEngine lockRuntime
    (SparingEvent flatEngine lockRuntime {0x81000000#32}) codePage_allocInv (by simp) hlow
    (replay flatEngine (fun _ => none) [codePage]).engine
  have hkept := (read_only_kept flatEngine_actsOnRange codePage_allocInv hsized (fun _ => rfl) hro
    hrun).1 _ rfl
  refine ⟨s, hrun, hstarted, hkept.trans ?_⟩
  have hbyte := loadByte_of_covers (List.pairwise_singleton _ _) (List.mem_singleton_self codePage)
    (x := 0x81000000#32) (by decide)
  rw [hbyte]
  exact List.getElem?_replicate_of_lt (by decide)

end Betavita.Hle
