import Betavita.Hle.ClibRange
import Betavita.Hle.EmulatorMemory

/-!
# Supervisor calls and host memory

The functions that the guest calls reach host memory through pointers made of guest
addresses, and most of them test no more than that a pointer is not null. A call that
leaves the buffers of the maps has no defined result. By what the guest sees of its
memory, this module says which calls those are.
-/

namespace Betavita.Hle

open Memory ByteStore Processor Results Transition

/-- The address lies in a span. -/
def MemoryView.Maps (v : MemoryView) (address : Word) : Prop :=
  ∃ span ∈ v.spans, span.1 ≤ address ∧ address ≤ span.2

/-- The `n` bytes from the address on lie in one span, and there are bytes in it. -/
def MemoryView.HasRange (v : MemoryView) (address : Word) (n : Nat) : Prop :=
  n = 0 ∨ address ∈ v.bytes.dom ∧
    ∃ span ∈ v.spans, span.1 ≤ address ∧ address.toNat + n ≤ span.2.toNat + 1

/-- A string starts at the address: a zero follows in the span. -/
def MemoryView.HasString (v : MemoryView) (address : Word) : Prop :=
  ∃ n, v.HasRange address (n + 1) ∧ v.bytes (address + BitVec.ofNat 32 n) = some 0

/-- What a function relies on. The name of a block is not tested at all; other pointers are
for null, and the ranges of the memory calls by their ends. -/
def FuncWrapper.Safe (w : FuncWrapper) (v : MemoryView) (engine : RegisterFile) : Prop :=
  let r : Nat → Word := fun i => readRegisterFromApi engine i
  match w with
  | .sceKernelAllocMemBlock => v.HasString (r 0)
  | .sceKernelGetMemBlockBase => v.Maps (r 1) → v.HasRange (r 1) 4
  | .sceKernelCreateMutex => v.Maps (r 0) → v.HasString (r 0)
  | .sceClibMemset => v.Accepts (r 0) (r 0 + r 2 - 1) → v.HasRange (r 0) (r 2).toNat
  | .sceClibMemmove => v.Accepts (r 0) (r 0 + r 2) → v.Accepts (r 1) (r 1 + r 2) →
    v.HasRange (r 0) (r 2).toNat ∧ v.HasRange (r 1) (r 2).toNat
  | .sceDisplaySetFramebuf => v.Maps (r 0) → v.HasRange (r 0) SceDisplayFramebuf.sizeOf_
  | .sceKernelGetThreadId | .sceKernelLockMutex | .sceKernelUnlockMutex
  | .sceKernelGetTLSAddr => True

/-! ## What the guest sees of a range -/

section View

variable {s : HleState} {address : Word} {n : Nat}

theorem maps_iff : s.memory.Maps address ↔ Mapped s.maps address := by
  constructor
  · rintro ⟨_, ⟨it, hit, rfl⟩, hcovers⟩
    cases hp : getPointerUnchecked s.maps address with
    | none => exact absurd hcovers (getPointerUnchecked_eq_none.mp hp it hit)
    | some p => exact mapped_of_some hp
  · intro hmapped
    obtain ⟨p, hp⟩ := mapped_iff.mp hmapped
    obtain ⟨it, hit, hcovers, -⟩ := getPointerUnchecked_eq_some.mp hp
    exact ⟨_, ⟨it, List.mem_of_getElem? hit, rfl⟩, hcovers⟩

theorem hasRange_iff (h : Laid s.maps) :
    s.memory.HasRange address n ↔ RangeInBuffer s.maps address n := by
  rcases Nat.eq_zero_or_pos n with rfl | hpos
  · exact ⟨fun _ k hk => absurd hk (Nat.not_lt_zero k), fun _ => .inl rfl⟩
  · rw [rangeInBuffer_iff_map h hpos]
    constructor
    · intro hrange
      obtain ⟨hdom, _, ⟨it, hit, rfl⟩, hlo, hhi⟩ := hrange.resolve_left (by omega)
      have hcovers : it.Covers address := ⟨hlo, by bv_omega⟩
      have hsize := size_ne_zero_of_loadByte h.apart hit hcovers (memory_dom_iff.mp hdom)
      exact ⟨it, hit, hlo, hhi, hsize⟩
    · rintro ⟨it, hit, hlo, hhi, hsize⟩
      have hfirst : RangeInBuffer s.maps address (1#32).toNat :=
        (rangeInBuffer_iff_map h (by decide)).mpr
          ⟨it, hit, hlo, by rw [show (1#32).toNat = 1 from rfl]; omega, hsize⟩
      have hdom := memory_dom_iff.mpr (loadByte_of_rangeInBuffer hfirst (by decide))
      exact .inr ⟨hdom, _, ⟨it, hit, rfl⟩, hlo, hhi⟩

/-- A range behind a pointer, for the calls that only test the pointer. -/
theorem mapped_hasRange_iff (h : Laid s.maps) :
    (s.memory.Maps address → s.memory.HasRange address n) ↔
      ∀ p, getPointerUnchecked s.maps address = some p → InBuffer s.maps p n := by
  rw [maps_iff, hasRange_iff h]
  constructor
  · intro hrange p hp
    exact (rangeInBuffer_of_some hp).mp (hrange (mapped_of_some hp))
  · intro hin hmapped
    obtain ⟨p, hp⟩ := mapped_iff.mp hmapped
    exact (rangeInBuffer_of_some hp).mpr (hin p hp)

theorem hasString_iff (h : Laid s.maps) :
    s.memory.HasString address ↔
      ∃ name, readCString s.maps (getPointerUnchecked s.maps address) = .ok name := by
  cases hp : getPointerUnchecked s.maps address with
  | none =>
    constructor
    · rintro ⟨n, hrange, -⟩
      have hzero := (rangeInBuffer_of_none hp).mp ((hasRange_iff h).mp hrange)
      omega
    · rintro ⟨name, hname⟩
      cases hname
  | some p =>
    rw [readCString_isOk_iff]
    constructor
    · rintro ⟨n, hrange, hbyte⟩
      have hin := (rangeInBuffer_of_some hp).mp ((hasRange_iff h).mp hrange)
      exact ⟨n, (loadByte_add h.apart hp hin (Nat.lt_succ_self n)).symm.trans hbyte⟩
    · rintro ⟨n, hbyte⟩
      -- the zero is in the buffer, and so is all in front of it
      have hin : InBuffer s.maps p (n + 1) := by
        obtain ⟨it, hit, hget⟩ := Option.bind_eq_some_iff.mp hbyte
        have hlt := (List.getElem?_eq_some_iff.mp hget).1
        exact ⟨it, hit, .inr hlt⟩
      exact ⟨n, (hasRange_iff h).mpr ((rangeInBuffer_of_some hp).mpr hin),
        (loadByte_add h.apart hp hin (Nat.lt_succ_self n)).trans hbyte⟩

end View

/-! ## The functions -/

section Functions

variable {maps : List MemoryMap}

theorem sceKernelAllocMemBlock_isOk_iff (s : SysmemSys) (namePtr type size opt : Word) :
    (∃ r, sceKernelAllocMemBlock s namePtr type size opt = .ok r) ↔
      ∃ name, readCString s.maps (getPointerUnchecked s.maps namePtr) = .ok name := by
  constructor
  · rintro ⟨⟨s', ret⟩, halloc⟩
    obtain ⟨name, hname, -⟩ := sceKernelAllocMemBlock_ok halloc
    exact ⟨name, hname⟩
  · rintro ⟨name, hname⟩
    exact ⟨_, bind_ok.mpr ⟨name, hname, rfl⟩⟩

theorem sceKernelGetMemBlockBase_isOk_iff (s : SysmemSys) (uid : Int) (baseAddr : Word) :
    (∃ r, sceKernelGetMemBlockBase s uid baseAddr = .ok r) ↔
      ∀ p, getPointerUnchecked s.maps baseAddr = some p → InBuffer s.maps p 4 := by
  unfold sceKernelGetMemBlockBase
  cases hp : getPointerUnchecked s.maps baseAddr with
  | none => simp
  | some p =>
    simp only [Option.some.injEq, forall_eq', ← writeWord_isOk_iff (v := s.fakeAddress)]
    exact exists_bind_ok

theorem sceKernelCreateMutex_isOk_iff {namePtr attr option : Word} {initCount : Int} :
    (∃ r, sceKernelCreateMutex maps namePtr attr initCount option = .ok r) ↔
      (Mapped maps namePtr →
        ∃ name, readCString maps (getPointerUnchecked maps namePtr) = .ok name) := by
  unfold sceKernelCreateMutex Mapped
  cases hp : getPointerUnchecked maps namePtr with
  | none => simp
  | some p =>
    simp only [Option.isSome_some, true_imp_iff]
    exact exists_bind_ok

theorem sceDisplaySetFramebuf_isOk_iff {display : Display} {pParam sync : Word} :
    (∃ r, sceDisplaySetFramebuf display maps pParam sync = .ok r) ↔
      ∀ p, getPointerUnchecked maps pParam = some p →
        InBuffer maps p SceDisplayFramebuf.sizeOf_ := by
  cases hp : getPointerUnchecked maps pParam with
  | none => simp [sceDisplaySetFramebuf_of_none hp]
  | some p =>
    simp only [Option.some.injEq, forall_eq']
    constructor
    · rintro ⟨r, hset⟩
      by_contra hin
      rw [sceDisplaySetFramebuf_error hp hin] at hset
      cases hset
    · intro hin
      obtain ⟨bytes, hread⟩ := readBytes_isOk_iff.mpr hin
      exact ⟨_, sceDisplaySetFramebuf_of_read hp hread sync⟩

end Functions

theorem Machine.wrap_isOk_iff {m : Machine}
    {f : (Nat → Word) → HleState → Except Trap (HleState × Word)} :
    (∃ m', m.wrap f = .ok m') ↔ ∃ r, f (fun i => readRegisterFromApi m.engine i) m.hle = .ok r :=
  exists_bind_ok

/-- A function returns exactly when what it relies on holds. -/
theorem Machine.callFuncWrapper_isOk_iff {m : Machine} (h : Laid m.hle.maps) {uid : SceUID}
    (huid : m.hle.kernel.currentThreadUid = .ok uid) (w : FuncWrapper) :
    (∃ m', m.callFuncWrapper w = .ok m') ↔ w.Safe m.hle.memory m.engine := by
  unfold Machine.callFuncWrapper
  cases w with
  | sceKernelAllocMemBlock =>
    refine Machine.wrap_isOk_iff.trans (exists_map_ok.trans ?_)
    exact (sceKernelAllocMemBlock_isOk_iff ⟨m.hle.maps, m.hle.fakeAddress⟩ (m.engine (.r 0))
      (m.engine (.r 1)) (m.engine (.r 2)) (m.engine (.r 3))).trans (hasString_iff h).symm
  | sceKernelGetMemBlockBase =>
    refine Machine.wrap_isOk_iff.trans (exists_map_ok.trans ?_)
    exact (sceKernelGetMemBlockBase_isOk_iff ⟨m.hle.maps, m.hle.fakeAddress⟩
      (m.engine (.r 0)).toInt (m.engine (.r 1))).trans (mapped_hasRange_iff h).symm
  | sceKernelGetThreadId => exact iff_of_true ⟨_, Machine.getThreadId_eq huid⟩ trivial
  | sceKernelCreateMutex =>
    refine Machine.wrap_isOk_iff.trans (exists_map_ok.trans ?_)
    exact sceKernelCreateMutex_isOk_iff.trans (imp_congr maps_iff.symm (hasString_iff h).symm)
  | sceKernelLockMutex => exact iff_of_true ⟨_, rfl⟩ trivial
  | sceKernelUnlockMutex => exact iff_of_true ⟨_, rfl⟩ trivial
  | sceKernelGetTLSAddr => exact iff_of_true ⟨_, Machine.getTLSAddr_eq huid⟩ trivial
  | sceClibMemset =>
    refine Machine.wrap_isOk_iff.trans (exists_map_ok.trans ?_)
    exact sceClibMemset_isOk_iff.trans (imp_congr accepts_iff.symm (hasRange_iff h).symm)
  | sceClibMemmove =>
    refine Machine.wrap_isOk_iff.trans (exists_map_ok.trans ?_)
    exact sceClibMemmove_isOk_iff.trans (imp_congr accepts_iff.symm
      (imp_congr accepts_iff.symm (and_congr (hasRange_iff h).symm (hasRange_iff h).symm)))
  | sceDisplaySetFramebuf =>
    refine Machine.wrap_isOk_iff.trans (exists_map_ok.trans ?_)
    exact sceDisplaySetFramebuf_isOk_iff.trans (mapped_hasRange_iff h).symm

/-! ## Runs -/

/-- In every slice of every run of the emulator in which each allocation finds room, after
whatever the guest did so far: a supervisor call returns exactly when what its function
relies on holds of the memory and the registers that the guest sees, and the slice can
always be ended. -/
theorem supervisor_call_returns_iff {rt : Runtime} {display : Display} {maps : List MemoryMap}
    {engine : RegisterFile} (hmaps : AllocInv maps) {calls : List EmuCall} {m : Machine}
    (hrun : Steps (RoomyCall rt) (.fresh display maps engine) calls m) {kernel : Kernel}
    {t : Thread} (hfetch : m.hle.kernel.fetchReadyThread = (kernel, some t))
    {events : List GuestEvent} {m₁ : Machine}
    (hguest : Steps (RoomyStep rt) (m.beginSlice kernel t) events m₁) :
    ((∃ m₂, m₁.handleSvc rt = .ok m₂) ↔ ∀ w, rt.functionAt (m₁.engine .pc) = some w →
      w.Safe m₁.hle.memory m₁.engine) ∧
    ∃ m', m₁.endSlice t.uid = .ok m' := by
  have h : EmuInv maps m := hrun.invariant (fun _ _ _ hinv hstep => hinv.step hstep) (.fresh hmaps)
  obtain ⟨-, -, -, hkernel, -, halloc⟩ := h.slice hfetch hguest
  have huid : m₁.hle.kernel.currentThreadUid = .ok t.uid := by
    rw [hkernel, Kernel.currentThreadUid_duringSlice]
  have hcore : m₁.hle.kernel.currentCore = 0 := by
    rw [hkernel]
    rfl
  refine ⟨?_, _, Machine.endSlice_eq (hguest.weaken fun _ _ _ hstep => hstep.2)⟩
  rw [Machine.handleSvc_eq hcore]
  cases hfunction : rt.functionAt (m₁.engine .pc) with
  | none => simp
  | some w =>
    simp only [Option.some.injEq, forall_eq']
    exact Machine.callFuncWrapper_isOk_iff halloc.paged.laid huid w

/-- The call of a guest that allocates a block without a name does not return. -/
theorem supervisor_call_returns_iff_null : ∃ m kernel t m₁ m',
    Steps (RoomyCall (importRuntime 0xB9D5EBDE#32)) (.fresh noDisplay [] fun _ => 0)
      [.createThread "main" 0x81000000#32 160 0x1000#32 0 0, .startThread 0x100 0 0] m ∧
    Steps (RoomyStep (importRuntime 0xB9D5EBDE#32)) (m.beginSlice kernel t)
      [.code atImport m.hle.maps] m₁ ∧
    (¬ ∃ m₂, m₁.handleSvc (importRuntime 0xB9D5EBDE#32) = .ok m₂) ∧
    m₁.endSlice t.uid = .ok m' := by
  obtain ⟨m, kernel, t, hrun, hfetch, -, hnull⟩ := roomy_slice (importRuntime 0xB9D5EBDE#32)
  have hguest : Steps (RoomyStep (importRuntime 0xB9D5EBDE#32)) (m.beginSlice kernel t)
      ([] ++ [.code atImport m.hle.maps]) _ := .snoc .nil ⟨trivial, .code rfl (.refl _)⟩
  obtain ⟨hsafe, m', hend⟩ := supervisor_call_returns_iff .nil hrun hfetch hguest
  refine ⟨m, kernel, t, _, m', hrun, hguest, ?_, hend⟩
  rw [hsafe]
  intro hall
  have hfunction : (importRuntime 0xB9D5EBDE#32).functionAt (atImport .pc) =
      some .sceKernelAllocMemBlock := rfl
  -- a string at address 0 would have its first byte in a map
  obtain ⟨n, hrange, -⟩ := hall _ hfunction
  obtain ⟨b, hb⟩ := memory_dom_iff.mp (hrange.resolve_left (Nat.succ_ne_zero n)).1
  have hnone : loadByte m.hle.maps 0 = none := by rw [loadByte, hnull, Option.bind_none]
  exact absurd (hnone.symm.trans hb) (by simp)

end Betavita.Hle
