import Betavita.Hle.AllocatorRun
import Betavita.Hle.GuestRun
import Betavita.Memory.Store

/-!
# Guest memory during a run

The calls of the guest that reach memory, as operations on a byte store: the map list with
its buffers, its pointers and its order is one way to implement that store. The spans of
the maps stay visible, since the range test of the memory calls reads them.
-/

namespace Betavita.Hle

open Memory ByteBuffer ByteStore Processor Transition

/-- The spans of the maps, the bytes at the addresses, and the base of the latest block. -/
structure MemoryView where
  spans : Set (Word × Word)
  bytes : Store 32 Byte
  latest : Word

/-- What happens to memory, with the arguments of a call. -/
inductive MemoryOp
  | code
  | allocBlock (size : Word)
  | storeLatest (address : Word)
  | memset (dst ch len : Word)
  | memmove (dst src len : Word)
  | other

/-- The range test: a start and an end inside one span, the end before its last address. -/
def MemoryView.Accepts (v : MemoryView) (start end_ : Word) : Prop :=
  ∃ span ∈ v.spans, span.1 ≤ start ∧ end_ < span.2

/-- The operations on the store. Instructions write to addresses that have a byte; a block
is put where there is none. -/
inductive MemoryStep : MemoryView → MemoryOp → MemoryView → Prop
  | code {v : MemoryView} {bytes : Store 32 Byte} (hdom : bytes.dom = v.bytes.dom) :
      MemoryStep v .code { v with bytes := bytes }
  | block {v : MemoryView} {size lo hi : Word} (horder : lo ≤ hi)
      (hsize : size.toNat ≤ hi.toNat - lo.toNat + 1)
      (hfree : ∀ x, lo ≤ x → x ≤ hi → v.bytes x = none) :
      MemoryStep v (.allocBlock size)
        ⟨insert (lo, hi) v.spans, v.bytes.fill {x | lo ≤ x ∧ x ≤ hi} 0, lo⟩
  | noBlock {v : MemoryView} {size : Word} :
      MemoryStep v (.allocBlock size) { v with latest := 0 }
  | storeLatest {v : MemoryView} {address : Word} (hmapped : address ∈ v.bytes.dom) :
      MemoryStep v (.storeLatest address)
        { v with bytes := v.bytes.overwrite address (encode 4 v.latest.toNat) }
  | noStore {v : MemoryView} {address : Word} (hmapped : address ∉ v.bytes.dom) :
      MemoryStep v (.storeLatest address) v
  | memset {v : MemoryView} {dst ch len : Word} (hrange : v.Accepts dst (dst + len - 1)) :
      MemoryStep v (.memset dst ch len)
        { v with bytes := v.bytes.overwrite dst (List.replicate len.toNat (ch.setWidth 8)) }
  | memsetRefused {v : MemoryView} {dst ch len : Word}
      (hrange : ¬ v.Accepts dst (dst + len - 1)) : MemoryStep v (.memset dst ch len) v
  | memmove {v : MemoryView} {dst src len : Word} {bytes : List Byte}
      (hdst : v.Accepts dst (dst + len)) (hsrc : v.Accepts src (src + len))
      (hlength : bytes.length = len.toNat)
      (hread : ∀ k < len.toNat, v.bytes (src + BitVec.ofNat 32 k) = bytes[k]?) :
      MemoryStep v (.memmove dst src len) { v with bytes := v.bytes.overwrite dst bytes }
  | memmoveRefused {v : MemoryView} {dst src len : Word}
      (hrange : ¬ (v.Accepts dst (dst + len) ∧ v.Accepts src (src + len))) :
      MemoryStep v (.memmove dst src len) v
  | other {v : MemoryView} : MemoryStep v .other v

/-- What an emulator shows of its memory. -/
def HleState.memory (s : HleState) : MemoryView where
  spans := {span | ∃ it ∈ s.maps, span = (it.start, it.end_)}
  bytes := loadByte s.maps
  latest := s.fakeAddress

/-- The operation that a call of a function is. -/
def FuncWrapper.memoryOp (w : FuncWrapper) (engine : RegisterFile) : MemoryOp :=
  let r : Nat → Word := fun i => readRegisterFromApi engine i
  match w with
  | .sceKernelAllocMemBlock => .allocBlock (r 2)
  | .sceKernelGetMemBlockBase => .storeLatest (r 1)
  | .sceClibMemset => .memset (r 0) (r 1) (r 2)
  | .sceClibMemmove => .memmove (r 0) (r 1) (r 2)
  | _ => .other

/-- The operation that an event is. -/
def GuestEvent.memoryOp (rt : Runtime) (m : Machine) : GuestEvent → MemoryOp
  | .code .. => .code
  | .svc pc =>
    match rt.functionAt pc with
    | none => .other
    | some w => w.memoryOp m.engine

/-! ## The range test -/

theorem accepts_iff {s : HleState} {start end_ : Word} :
    s.memory.Accepts start end_ ↔ isValidAddressRange s.maps start end_ = true := by
  rw [isValidAddressRange_iff]
  constructor
  · rintro ⟨_, ⟨it, hit, rfl⟩, hlo, hhi⟩
    exact ⟨it, hit, hlo, hhi⟩
  · rintro ⟨it, hit, hlo, hhi⟩
    exact ⟨_, ⟨it, hit, rfl⟩, hlo, hhi⟩

/-- The maps that are the same have the same spans. -/
theorem SameMaps.spans {s s' : HleState} (h : SameMaps s.maps s'.maps) :
    s'.memory.spans = s.memory.spans := by
  have hsub : ∀ {a b : List MemoryMap}, SameMaps a b → ∀ span : Word × Word,
      (∃ it ∈ a, span = (it.start, it.end_)) → ∃ it ∈ b, span = (it.start, it.end_) := by
    rintro a b hab span ⟨it, hit, rfl⟩
    obtain ⟨it', hit', hheader⟩ := hab.mem hit
    obtain ⟨hs, he, -⟩ := MemoryMap.header_eq hheader
    exact ⟨it', hit', by rw [hs, he]⟩
  ext span
  exact ⟨hsub h.symm span, hsub h span⟩

/-! ## The calls -/

section Calls

variable {s : HleState} {maps : List MemoryMap}

/-- A write leaves the spans and the latest block. -/
theorem memory_of_sameMaps (h : SameMaps s.maps maps) :
    ({ s with maps := maps } : HleState).memory = { s.memory with bytes := loadByte maps } := by
  have hspans : ({ s with maps := maps } : HleState).memory.spans = s.memory.spans :=
    SameMaps.spans h
  unfold HleState.memory at hspans ⊢
  rw [MemoryView.mk.injEq]
  exact ⟨hspans, rfl, rfl⟩

theorem memory_dom_iff {x : Word} : x ∈ s.memory.bytes.dom ↔ ∃ b, loadByte s.maps x = some b :=
  Option.isSome_iff_exists

theorem hostMemcpy_overwrite (hapart : s.maps.Pairwise MemoryMap.Apart) {a : Word}
    {bytes : List Byte} (h : hostMemcpy s.maps (getPointerUnchecked s.maps a) bytes = .ok maps) :
    loadByte maps = Store.overwrite (loadByte s.maps) a bytes := by
  cases hp : getPointerUnchecked s.maps a with
  | none =>
    rw [hp, hostMemcpy] at h
    split at h
    · rename_i hnil
      cases h
      rw [List.length_eq_zero_iff.mp hnil, Store.overwrite_nil]
    · cases h
  | some p =>
    rw [hp] at h
    exact loadByte_overwrite hapart hp h

theorem sceClibMemset_step (hapart : s.maps.Pairwise MemoryMap.Apart) {dst ch len ret : Word}
    (h : sceClibMemset s.maps dst ch len = .ok (maps, ret)) :
    MemoryStep s.memory (.memset dst ch len) ({ s with maps := maps } : HleState).memory := by
  have hsame := (sceClibMemset_sameMaps h).1
  unfold sceClibMemset at h
  split at h
  · rename_i hvalid
    obtain ⟨maps', hset, h⟩ := bind_ok.mp h
    cases h
    rw [memory_of_sameMaps hsame, hostMemcpy_overwrite hapart hset]
    exact .memset (accepts_iff.mpr hvalid)
  · rename_i hvalid
    cases h
    exact .memsetRefused fun hrange => hvalid (accepts_iff.mp hrange)

/-- The bytes that were read are those at the source. -/
theorem hostMemmove_overwrite (hapart : s.maps.Pairwise MemoryMap.Apart) {dst src : Word} {n : Nat}
    (h : hostMemmove s.maps (getPointer s.maps dst) (getPointer s.maps src) n = .ok maps) :
    ∃ bytes : List Byte, bytes.length = n ∧
      (∀ k < n, loadByte s.maps (src + BitVec.ofNat 32 k) = bytes[k]?) ∧
      loadByte maps = Store.overwrite (loadByte s.maps) dst bytes := by
  cases hq : getPointer s.maps src with
  | none =>
    rw [hq, hostMemmove] at h
    split at h
    · rename_i hzero
      cases h
      exact ⟨[], hzero.symm, fun k hk => absurd hk (by omega), rfl⟩
    · cases h
  | some q =>
    rw [hq, hostMemmove] at h
    obtain ⟨bytes, hread, hcpy⟩ := bind_ok.mp h
    refine ⟨bytes, readBytes_length hread, fun k hk => ?_, hostMemcpy_overwrite hapart hcpy⟩
    rw [loadByte_add hapart hq (readBytes_isOk_iff.mp ⟨bytes, hread⟩) hk,
      readBytes_getElem? hread hk]

theorem sceClibMemmove_step (hapart : s.maps.Pairwise MemoryMap.Apart) {dst src len ret : Word}
    (h : sceClibMemmove s.maps dst src len = .ok (maps, ret)) :
    MemoryStep s.memory (.memmove dst src len) ({ s with maps := maps } : HleState).memory := by
  have hsame := (sceClibMemmove_sameMaps h).1
  unfold sceClibMemmove at h
  dsimp only at h
  split at h
  · rename_i hvalid
    obtain ⟨hdst, hsrc⟩ := Bool.and_eq_true_iff.mp hvalid
    obtain ⟨maps', hmove, h⟩ := bind_ok.mp h
    cases h
    obtain ⟨bytes, hlength, hread, hbytes⟩ := hostMemmove_overwrite hapart hmove
    rw [memory_of_sameMaps hsame, hbytes]
    exact .memmove (accepts_iff.mpr hdst) (accepts_iff.mpr hsrc) hlength hread
  · rename_i hvalid
    cases h
    refine .memmoveRefused fun ⟨hdst, hsrc⟩ => hvalid ?_
    rw [accepts_iff.mp hdst, accepts_iff.mp hsrc]
    rfl

/-- The base of the latest block goes to a mapped address. -/
theorem getMemBlockBase_step (hapart : s.maps.Pairwise MemoryMap.Apart) {address : Word}
    (h : (getPointerUnchecked s.maps address = none ∧ maps = s.maps) ∨
      ∃ base, getPointerUnchecked s.maps address = some base ∧
        writeWord s.maps base s.fakeAddress = .ok maps) :
    MemoryStep s.memory (.storeLatest address) ({ s with maps := maps } : HleState).memory := by
  rcases h with ⟨hnone, rfl⟩ | ⟨base, hbase, hwrite⟩
  · refine .noStore fun hdom => ?_
    obtain ⟨b, hb⟩ := memory_dom_iff.mp hdom
    rw [loadByte, hnone] at hb
    cases hb
  · rw [memory_of_sameMaps (writeWord_sameMaps hwrite), loadByte_overwrite hapart hbase hwrite]
    refine .storeLatest (memory_dom_iff.mpr ?_)
    obtain ⟨w, hread⟩ := readWord_isOk_iff.mpr (writeWord_isOk_iff.mp ⟨maps, hwrite⟩)
    obtain ⟨bytes, hbytes, -⟩ := bind_ok.mp hread
    have hlength := readBytes_length hbytes
    have hfirst := readBytes_getElem? hbytes (show 0 < 4 by decide)
    refine ⟨bytes[0], ?_⟩
    rw [loadByte, hbase, Option.bind_some, ← HostPtr.add_zero base, ← hfirst,
      List.getElem?_eq_getElem]

end Calls

/-! ## Allocations -/

/-- A request that there is room for fails, or it maps a block where it was placed. -/
theorem allocateHeap_cases {maps : List MemoryMap} {size : Word} (h : AllocInv maps)
    (hr : RoomFor maps size) (name : String) :
    allocateHeap maps size name = (maps, 0) ∨
      ∃ address, Placed maps address (pagedSize size) ∧
        allocateHeap maps size name =
          (mapMemory maps (name ++ "_heap") address (address + pagedSize size - 1)
            blockProtection, address) := by
  rcases moreMemory_placed h hr with ⟨hnone, -⟩ | ⟨address, hsome, -, hp⟩
  · left
    simp only [allocateHeap, hnone, if_true]
  · refine .inr ⟨address, hp, ?_⟩
    have hne : address ≠ 0xFFFFFFFF#32 := by
      intro heq
      have hal := hp.aligned
      rw [heq] at hal
      simp at hal
    simp only [allocateHeap, hsome, if_neg hne]
    rfl

theorem AllocInv.sameMaps {maps maps' : List MemoryMap} (h : AllocInv maps)
    (hsame : SameMaps maps maps') : AllocInv maps' := by
  have hbounds : ∀ it' ∈ maps', ∃ it ∈ maps, it.lo = it'.lo ∧ it.hi = it'.hi := by
    intro it' hit'
    obtain ⟨it, hit, hheader⟩ := hsame.symm.mem hit'
    obtain ⟨hs, he, -⟩ := MemoryMap.header_eq hheader
    exact ⟨it, hit, by rw [MemoryMap.lo, hs]; rfl, by rw [MemoryMap.hi, he]; rfl⟩
  refine ⟨⟨hsame.laid h.paged.laid, fun it' hit' => ?_, ?_⟩, ?_⟩
  · obtain ⟨it, hit, hlo, hhi⟩ := hbounds it' hit'
    exact hlo ▸ hhi ▸ h.paged.aligned it hit
  · exact hsame.pairwise (R := fun a b => a.2.2.1.toNat ≤ b.2.2.1.toNat) h.paged.sorted
  · rcases h.guarded with ⟨it, hit, htop⟩ | hguarded
    · obtain ⟨it', hit', hheader⟩ := hsame.mem hit
      have he := (MemoryMap.header_eq hheader).2.1
      exact .inl ⟨it', hit', by rw [MemoryMap.hi, he]; exact htop⟩
    · exact .inr
        (hsame.pairwise (R := fun a b => a.2.2.1.toNat + 0x1001 ≤ b.2.1.toNat) hguarded)

/-- The block that was placed: its addresses were free, and now hold zeros. -/
theorem Placed.view {s : HleState} {address memorySize : Word} {name : String}
    (hp : Placed s.maps address memorySize) (h : AllocInv s.maps) :
    let hi := address + memorySize - 1
    address ≤ hi ∧ (∀ x, address ≤ x → x ≤ hi → s.memory.bytes x = none) ∧
      ({ s with
          maps := Memory.mapMemory s.maps name address hi blockProtection
          fakeAddress := address } : HleState).memory =
        ⟨insert (address, hi) s.memory.spans,
          s.memory.bytes.fill {x | address ≤ x ∧ x ≤ hi} 0, address⟩ := by
  obtain ⟨hord, hap⟩ := hp.fresh_apart h name blockProtection
  have hinv := hp.mapMemory h name blockProtection
  have hsize : (MemoryMap.fresh name address (address + memorySize - 1) blockProtection).size ≠
      0 := by
    intro hz
    obtain ⟨hs, he⟩ := (MemoryMap.size_eq_zero_iff hord).mp hz
    exact hp.nonzero hs
  refine ⟨hord, fun x hlo hhi => ?_, ?_⟩
  · refine loadByte_of_uncovered fun it hit hc => ?_
    exact Set.disjoint_left.mp (hap it hit) (MemoryMap.covers_iff.mp ⟨hlo, hhi⟩)
      (MemoryMap.covers_iff.mp hc)
  · unfold HleState.memory
    rw [MemoryView.mk.injEq]
    refine ⟨?_, loadByte_mapMemory hinv.paged.laid.apart (fun _ _ => hsize), rfl⟩
    have hperm := mapMemory_perm s.maps name address (address + memorySize - 1) blockProtection
    ext span
    constructor
    · rintro ⟨it, hit, rfl⟩
      rcases List.mem_cons.mp (hperm.mem_iff.mp hit) with rfl | hit
      · exact .inl rfl
      · exact .inr ⟨it, hit, rfl⟩
    · rintro (rfl | ⟨it, hit, rfl⟩)
      · exact ⟨_, hperm.mem_iff.mpr List.mem_cons_self, rfl⟩
      · exact ⟨it, hperm.mem_iff.mpr (List.mem_cons_of_mem _ hit), rfl⟩

theorem allocMemBlock_step {s : HleState} {size : Word} {name : String} (h : AllocInv s.maps)
    (hr : RoomFor s.maps size) :
    MemoryStep s.memory (.allocBlock size)
        ({ s with
          maps := (allocateHeap s.maps size name).1
          fakeAddress := (allocateHeap s.maps size name).2 } : HleState).memory ∧
      AllocInv (allocateHeap s.maps size name).1 := by
  rcases allocateHeap_cases h hr name with hfail | ⟨address, hp, hok⟩
  · rw [hfail]
    exact ⟨.noBlock, h⟩
  · obtain ⟨horder, hfree, hview⟩ := hp.view h
    rw [hok]
    refine ⟨?_, hp.mapMemory h _ _⟩
    rw [hview]
    refine .block horder ?_ hfree
    have hsize := (pagedSize_bounds hr.rounds).2.2
    have hwrap := hp.noWrap
    have hpos := hp.sizePos
    bv_omega

/-! ## Runs -/

/-- There is room for what an event allocates. -/
def GuestEvent.HasRoom (rt : Runtime) (m : Machine) : GuestEvent → Prop
  | .code .. => True
  | .svc pc => rt.functionAt pc = some .sceKernelAllocMemBlock →
    RoomFor m.hle.maps (readRegisterFromApi m.engine 2)

/-- An event that finds room. -/
def RoomyStep (rt : Runtime) (m : Machine) (event : GuestEvent) (m' : Machine) : Prop :=
  event.HasRoom rt m ∧ GuestStep rt m event m'

/-- A function does to memory what its operation says. -/
theorem Called.memoryStep {m : Machine} {w : FuncWrapper} {hle : HleState} {ret : Word}
    (hcalled : Called m w hle ret) (h : AllocInv m.hle.maps)
    (hr : w = .sceKernelAllocMemBlock → RoomFor m.hle.maps (m.engine (.r 2))) :
    MemoryStep m.hle.memory (w.memoryOp m.engine) hle.memory ∧ AllocInv hle.maps := by
  have hapart := h.paged.laid.apart
  cases hcalled with
  | allocMemBlock => exact allocMemBlock_step h (hr rfl)
  | getMemBlockBase hbase =>
    refine ⟨getMemBlockBase_step hapart hbase, ?_⟩
    rcases hbase with ⟨-, rfl⟩ | ⟨base, -, hwrite⟩
    · exact h
    · exact h.sameMaps (writeWord_sameMaps hwrite)
  | memset hset =>
    exact ⟨sceClibMemset_step hapart hset, h.sameMaps (sceClibMemset_sameMaps hset).1⟩
  | memmove hmove =>
    exact ⟨sceClibMemmove_step hapart hmove, h.sameMaps (sceClibMemmove_sameMaps hmove).1⟩
  | _ => exact ⟨.other, h⟩

theorem RoomyStep.memoryStep {rt : Runtime} {m m' : Machine} {event : GuestEvent}
    (hstep : RoomyStep rt m event m') (hcore : m.hle.kernel.currentCore = 0)
    (h : AllocInv m.hle.maps) :
    MemoryStep m.hle.memory (event.memoryOp rt m) m'.hle.memory ∧ AllocInv m'.hle.maps := by
  obtain ⟨hroom, hstep⟩ := hstep
  cases hstep with
  | @code engine maps _ hsame =>
    refine ⟨?_, h.sameMaps hsame⟩
    rw [memory_of_sameMaps hsame]
    refine .code (Set.ext fun x => ?_)
    show (loadByte maps x).isSome ↔ (loadByte m.hle.maps x).isSome
    rw [loadByte_isSome_of_sameMaps hsame]
  | svc _ hcall =>
    rcases Machine.handleSvc_cases hcore hcall with
      ⟨hnone, rfl⟩ | ⟨w, hle, ret, hfunction, hcalled, rfl⟩
    · refine ⟨?_, h⟩
      rw [GuestEvent.memoryOp, hnone]
      exact .other
    · rw [GuestEvent.memoryOp, hfunction]
      exact hcalled.memoryStep h fun hw => hroom (by rw [hfunction, hw])

/-- A run of the guest whose allocations find room is a run of the byte store: every call
does to the bytes at guest addresses what its operation says, and nothing else does. -/
theorem guest_memory_refines {rt : Runtime} {m m' : Machine}
    {trace : List (Machine × GuestEvent)} (hrun : Steps (Traced (RoomyStep rt)) m trace m')
    (hcore : m.hle.kernel.currentCore = 0) (h : AllocInv m.hle.maps) :
    Steps MemoryStep m.hle.memory (trace.map fun e => e.2.memoryOp rt e.1) m'.hle.memory := by
  have hinv : Steps MemoryStep m.hle.memory (trace.map fun e => e.2.memoryOp rt e.1)
      m'.hle.memory ∧ m'.hle.kernel.currentCore = 0 ∧ AllocInv m'.hle.maps := by
    induction hrun with
    | nil => exact ⟨.nil, hcore, h⟩
    | @snoc m₁ m₂ trace e _ hlast ih =>
      obtain ⟨m₀, event⟩ := e
      obtain ⟨hbegin, hstep⟩ := hlast
      obtain rfl : m₀ = m₁ := hbegin
      obtain ⟨hsteps, hcore₁, h₁⟩ := ih
      obtain ⟨hmemory, h₂⟩ := hstep.memoryStep hcore₁ h₁
      have hkernel := (hstep.2.frame hcore₁).1
      rw [List.map_append]
      exact ⟨.snoc hsteps hmemory, hkernel ▸ hcore₁, h₂⟩
  exact hinv.1

/-- A guest with one page of heap, of which it sets the first four bytes. -/
def memsetMachine : Machine where
  hle := ⟨{ Kernel.new with currentCore := 0 }, ⟨⟨0, 0, 0, 0, 0, 0⟩, 0⟩,
    ((AllocRequest.heap 0 "a").serve []).1, 0⟩
  engine
    | .r 0 => 0x60000000#32
    | .r 1 => 0xFF#32
    | .r 2 => 4#32
    | .pc => 0x81000014#32
    | _ => 0
  running := true

theorem guest_memory_refines_memset : ∃ m',
    Steps (RoomyStep (importRuntime 0x632980D7#32)) memsetMachine [.svc 0x81000014#32] m' ∧
      Steps MemoryStep memsetMachine.hle.memory [.memset 0x60000000#32 0xFF#32 4#32]
        m'.hle.memory := by
  have hroom : RoomFor [] (AllocRequest.heap 0 "a").size := roomFor_first 0 (by decide)
  have hinv : AllocInv memsetMachine.hle.maps := (AllocRequest.serve_ok .nil hroom).2
  have hfunction : (importRuntime 0x632980D7#32).functionAt 0x81000014#32 =
      some .sceClibMemset := rfl
  obtain ⟨⟨maps, ret⟩, hset⟩ : ∃ r,
      sceClibMemset memsetMachine.hle.maps 0x60000000#32 0xFF#32 4#32 = .ok r := by
    refine sceClibMemset_isOk_iff.mpr ((memsetInBuffer_iff hinv.paged.laid _ _).mpr fun _ _ => ?_)
    refine ⟨by decide, fun it hit => ?_⟩
    rw [List.mem_singleton.mp hit]
    decide
  have hcall : memsetMachine.handleSvc (importRuntime 0x632980D7#32) = .ok
      { memsetMachine with
        hle := { memsetMachine.hle with maps := maps }
        engine := ucRegWrite memsetMachine.engine (.r 0) ret } := by
    rw [Machine.handleSvc_eq rfl, show memsetMachine.engine .pc = 0x81000014#32 from rfl, hfunction]
    unfold Machine.callFuncWrapper
    refine Machine.wrap_ok.mpr ⟨_, ret, ?_, rfl⟩
    show HleState.clibCall memsetMachine.hle
      (sceClibMemset memsetMachine.hle.maps 0x60000000#32 0xFF#32 4#32) = _
    rw [hset]
    rfl
  have hstep : RoomyStep (importRuntime 0x632980D7#32) memsetMachine (.svc 0x81000014#32) _ :=
    ⟨fun hother => absurd (hfunction.symm.trans hother) (by decide), .svc rfl hcall⟩
  have htrace : Steps (Traced (RoomyStep (importRuntime 0x632980D7#32))) memsetMachine
      ([] ++ [(memsetMachine, .svc 0x81000014#32)]) _ := .snoc .nil ⟨rfl, hstep⟩
  have hrun : Steps (RoomyStep (importRuntime 0x632980D7#32)) memsetMachine
      ([] ++ [.svc 0x81000014#32]) _ := .snoc .nil hstep
  exact ⟨_, hrun, guest_memory_refines htrace rfl hinv⟩

end Betavita.Hle
