import Betavita.Hle.AllocatorRun
import Betavita.Hle.Kernel

/-!
# Stacks and TLS blocks of threads

Calls of `create_thread` and `start_thread` on a fresh kernel and an empty map
list. Each start makes two allocations, a stack and a TLS block; `RoomForThread`
says when both succeed where first fit puts them. On runs of such starts every
started thread owns two maps, and no two threads share memory.
-/

namespace Betavita.Hle

open Memory Transition

/-- The kernel, the map list and the threads whose `start_thread` returned `0`. -/
structure ThreadSys where
  kernel : Kernel
  maps : List MemoryMap
  started : List SceUID

def ThreadSys.fresh : ThreadSys := ⟨Kernel.new, [], []⟩

inductive ThreadCall
  | create (name : String) (entry : Word) (initPriority : Int) (stackSize attr option : Word)
  | start (thid : SceUID) (argLen argPtr : Word)

/-- A call and the `int` it returns. -/
def ThreadSys.perform (s : ThreadSys) : ThreadCall → Except Trap (ThreadSys × Int)
  | .create name entry initPriority stackSize attr option => do
    let (kernel, uid) ← s.kernel.createThread name entry initPriority stackSize attr option
    return ({ s with kernel := kernel }, uid)
  | .start thid argLen argPtr => do
    let (kernel, maps, ret) ← s.kernel.startThread s.maps thid argLen argPtr
    return (⟨kernel, maps, if ret = 0 then thid :: s.started else s.started⟩, ret)

/-- Behind a block of `n` bytes at `a` there is a guard page and room for the two
pages of a TLS block, and for its guard page where a map follows; or the block ends
with the address space and the pages from `0x1000` on are free. -/
def RoomBehind (maps : List MemoryMap) (a n : Nat) : Prop :=
  (a + n + 0x3000 ≤ 2 ^ 32 ∧ ∀ m ∈ maps, m.hi < a ∨ a + n + 0x4000 ≤ m.lo) ∨
    (a + n = 2 ^ 32 ∧ 0x3000 ≤ a ∧ ∀ m ∈ maps, 0x3000 ≤ m.lo)

/-- Starting a thread with this stack size allocates both of its blocks. -/
structure RoomForThread (maps : List MemoryMap) (stackSize : Word) : Prop where
  stack : RoomFor maps stackSize
  tls : ∀ a, FirstFit maps (pagedSize stackSize) a →
    a ≠ 0 ∧ RoomBehind maps a (pagedSize stackSize).toNat

/-- A start is the first of its thread and finds room. -/
def ThreadSys.Admits (s : ThreadSys) : ThreadCall → Prop
  | .create .. => True
  | .start thid _ _ => thid ∉ s.started ∧
      ∀ t, s.kernel.getThread thid = some t → RoomForThread s.maps t.stackSize

def ThreadStep (s : ThreadSys) (call : ThreadCall) (s' : ThreadSys) : Prop :=
  s.Admits call ∧ ∃ ret, s.perform call = .ok (s', ret)

/-- The thread's initial `SP` is one past the end of its stack map, and its TLS map
begins at the base and holds the slot of every key. -/
structure OwnsRegions (s : ThreadSys) (thid : SceUID) (stack tls : MemoryMap) : Prop where
  mapped : stack ∈ s.maps ∧ tls ∈ s.maps
  apart : stack.Apart tls
  sp : ∃ t, s.kernel.getThread thid = some t ∧ t.context.reg 13 = stack.end_ + 1 ∧
    t.tlsLowAddress = tls.start ∧ t.stackSize.toNat ≤ stack.hi + 1 - stack.lo
  slot : ∀ key : Int, 0 ≤ key → key ≤ 0x100 →
    (s.kernel.getTlsAddr thid key).toNat = tls.lo + 4 * key.toNat ∧
      (s.kernel.getTlsAddr thid key).toNat + 3 ≤ tls.hi

/-- The regions of the threads that were started are theirs alone, and only these
threads are READY. -/
structure Isolated (s : ThreadSys) : Prop where
  regions : ∃ stack tls : SceUID → MemoryMap,
    (∀ thid ∈ s.started, OwnsRegions s thid (stack thid) (tls thid)) ∧
    ∀ thid ∈ s.started, ∀ thid' ∈ s.started, thid ≠ thid' →
      (stack thid).Apart (stack thid') ∧ (stack thid).Apart (tls thid') ∧
        (tls thid).Apart (tls thid')
  ready : ∀ uid t, s.kernel.getThread uid = some t → t.status = SCE_THREAD_READY →
    uid ∈ s.started

/-! ## Room for the TLS block -/

theorem FirstFit.eq_zero {maps : List MemoryMap} {memorySize : Word}
    (h : FirstFit maps memorySize 0) : ∃ pre last, maps = pre ++ [last] ∧
      (∀ x y, [x, y] <:+: maps → ¬ FitsHole memorySize x y) ∧ last.hi + 0x1001 = 2 ^ 32 := by
  generalize hz : 0 = z at h
  cases h with
  | empty => simp at hz
  | hole => omega
  | @top pre last hmaps hnone =>
    have := MemoryMap.hi_lt last
    exact ⟨pre, last, hmaps, hnone, by omega⟩

theorem tlsSize : (pagedSize 0x1000#32).toNat = 0x2000 := by decide

/-- The first block of a run stays where it is. -/
def Based (maps : List MemoryMap) : Prop := maps = [] ∨ ∃ m ∈ maps, m.lo = 0x60000000

theorem Allocated.based {maps maps' : List MemoryMap} {memorySize : Word} {it : MemoryMap}
    (h : Allocated maps memorySize maps' it) (hb : Based maps) : Based maps' := by
  rcases hb with hnil | ⟨m, hm, hlo⟩
  · have hfirst := h.firstFit
    generalize hlo : it.lo = a at hfirst
    cases hfirst with
    | empty => exact .inr ⟨it, h.mem.mpr (.inl rfl), hlo⟩
    | hole hmaps => rw [hnil] at hmaps; simp at hmaps
    | top hmaps => rw [hnil] at hmaps; simp at hmaps
  · exact .inr ⟨m, h.mem.mpr (.inr hm), hlo⟩

/-- The new block and a map of the list stand one above the other. -/
theorem Allocated.below_or_above {maps maps' : List MemoryMap} {memorySize : Word}
    {it m : MemoryMap} (h : Allocated maps memorySize maps' it) (hmaps : AllocInv maps)
    (hm : m ∈ maps) : it.hi < m.lo ∨ m.hi < it.lo := by
  have hlen := h.length
  have hpos := h.nonempty
  refine (Intervals.apart_iff ?_ (hmaps.paged.lo_le_hi hm)).mp (h.apart m hm)
  show it.lo ≤ it.hi
  omega

/-- The nearest map above a block that first fit placed is less than `2 ^ 31` bytes away. -/
theorem Allocated.next_lt {maps maps' : List MemoryMap} {memorySize : Word} {it b : MemoryMap}
    (h : Allocated maps memorySize maps' it) (hmaps : AllocInv maps) (hbase : Based maps)
    (hb : b ∈ maps) (hnext : ∀ m ∈ maps, it.hi < m.lo → b.lo ≤ m.lo) :
    b.lo ≤ it.hi + 0x1001 + 2 ^ 31 := by
  have hlen := h.length
  have hpos := h.nonempty
  have hfirst := h.firstFit
  generalize hlo : it.lo = a at hfirst
  cases hfirst with
  | empty hnil =>
    rw [hnil] at hb
    cases hb
  | @hole pre post c d hmapseq hfits _ =>
    obtain ⟨hroom, hshort⟩ := hfits
    unfold hole at hroom hshort
    have := hnext d (by rw [hmapseq]; simp) (by omega)
    omega
  | @top pre last hmapseq _ =>
    subst hmapseq
    have hle := hmaps.paged.hi_le_last b hb
    have hord := hmaps.paged.lo_le_hi hb
    have hlt := MemoryMap.hi_lt last
    -- the candidate wrapped, so the block lies below the first block of the run
    rcases hbase with hnil | ⟨m, hm, hmlo⟩
    · simp at hnil
    · have hmord := hmaps.paged.lo_le_hi hm
      rcases h.below_or_above hmaps hm with habove | hbelow
      · have := hnext m hm habove
        omega
      · have := hmaps.paged.hi_le_last m hm
        omega

/-- In an increasing list the map behind `it` is the nearest one above it. -/
theorem Paged.next_le {pre post : List MemoryMap} {it b m : MemoryMap}
    (h : Paged (pre ++ it :: b :: post)) (hm : m ∈ pre ++ it :: b :: post)
    (hlt : it.hi < m.lo) : b.lo ≤ m.lo := by
  obtain ⟨_, hafter, hfront⟩ := List.pairwise_append.mp h.increasing
  have hord := h.lo_le_hi hm
  rcases List.mem_append.mp hm with hpre | hm
  · have := hfront m hpre it (by simp)
    have := h.lo_le_hi (show it ∈ pre ++ it :: b :: post by simp)
    omega
  · rcases List.mem_cons.mp hm with rfl | hm
    · omega
    · rcases List.mem_cons.mp hm with rfl | hm
      · exact le_rfl
      · have := (List.pairwise_cons.mp (List.pairwise_cons.mp hafter).2).1 m hm
        have := h.lo_le_hi (show b ∈ pre ++ it :: b :: post by simp)
        omega

/-- With room behind the new block, the hole behind it takes the TLS block. -/
theorem Allocated.fitsHole_tls {maps maps' pre post : List MemoryMap} {memorySize : Word}
    {it b : MemoryMap} (h : Allocated maps memorySize maps' it) (hmaps : AllocInv maps)
    (hbase : Based maps) (hroom : RoomBehind maps it.lo memorySize.toNat)
    (hsplit : maps' = pre ++ it :: b :: post) : FitsHole (pagedSize 0x1000#32) it b := by
  have hlen := h.length
  have hpos := h.nonempty
  have hpaged : Paged (pre ++ it :: b :: post) := hsplit ▸ h.inv.paged
  have hmem : ∀ {m}, m ∈ maps' ↔ m ∈ pre ++ it :: b :: post := by rw [hsplit]
  have hinc := (List.pairwise_append.mp hpaged.increasing).2.1
  have hitb := (List.pairwise_cons.mp hinc).1 b (by simp)
  have hbord := hpaged.lo_le_hi (show b ∈ pre ++ it :: b :: post by simp)
  have hb : b ∈ maps := by
    rcases h.mem.mp (hmem.mpr (show b ∈ pre ++ it :: b :: post by simp)) with rfl | hb
    · omega
    · exact hb
  have hfar := h.next_lt hmaps hbase hb fun m hm =>
    hpaged.next_le (hmem.mp (h.mem.mpr (.inr hm)))
  have hnear : it.lo + memorySize.toNat + 0x4000 ≤ b.lo := by
    rcases hroom with ⟨_, hall⟩ | ⟨htop, _⟩
    · rcases hall b hb with hlt | hle
      · omega
      · exact hle
    · have hblt := b.start.isLt
      unfold MemoryMap.lo at hitb
      omega
  rw [FitsHole, tlsSize, hole]
  omega

/-- The TLS block has its place: in a hole, or behind the last map. -/
theorem Allocated.place_tls {maps maps' : List MemoryMap} {memorySize : Word} {it : MemoryMap}
    (h : Allocated maps memorySize maps' it) (hmaps : AllocInv maps) (hbase : Based maps)
    (hroom : RoomBehind maps it.lo memorySize.toNat) :
    (∃ a b, [a, b] <:+: maps' ∧ FitsHole (pagedSize 0x1000#32) a b) ∨
      ∃ pre last, maps' = pre ++ [last] ∧ last.hi + 0x1001 ≠ 2 ^ 32 ∧
        (last.hi + 0x1001 + 0x2000 ≤ 2 ^ 32 ∨
          last.hi + 1 = 2 ^ 32 ∧ ∀ m ∈ maps', 0x1000 + 0x2000 ≤ m.lo) := by
  obtain ⟨pre, post, hsplit⟩ := List.append_of_mem (h.mem.mpr (.inl rfl))
  cases post with
  | nil =>
    have hlen := h.length
    have hpos := h.nonempty
    refine .inr ⟨pre, it, hsplit, ?_⟩
    rcases hroom with ⟨hfit, _⟩ | ⟨htop, hlo, hall⟩
    · exact ⟨by omega, .inl (by omega)⟩
    · refine ⟨by omega, .inr ⟨by omega, fun m hm => ?_⟩⟩
      rcases h.mem.mp hm with rfl | hm
      · exact hlo
      · exact hall m hm
  | cons b post =>
    exact .inl ⟨it, b, ⟨pre, post, by rw [hsplit]; simp⟩,
      h.fitsHole_tls hmaps hbase hroom hsplit⟩

/-- With room behind the new block, the TLS block finds its place and is not refused. -/
theorem Allocated.roomFor_tls {maps maps' : List MemoryMap} {memorySize : Word} {it : MemoryMap}
    (h : Allocated maps memorySize maps' it) (hmaps : AllocInv maps) (hbase : Based maps)
    (hroom : RoomBehind maps it.lo memorySize.toNat) :
    RoomFor maps' 0x1000#32 ∧ ¬ FirstFit maps' (pagedSize 0x1000#32) 0 := by
  have hplace := h.place_tls hmaps hbase hroom
  constructor
  · refine ⟨by decide, fun _ a b _ _ _ => ?_, ?_⟩
    · rw [tlsSize]
      omega
    · rw [tlsSize]
      rcases hplace with hfits | ⟨pre, last, hlast, _, hfit⟩
      · exact .inr (.inl hfits)
      · exact .inr (.inr ⟨pre, last, hlast, hfit.imp_right .inr⟩)
  · intro hzero
    obtain ⟨pre', last', hlast', hnone, htop⟩ := hzero.eq_zero
    rcases hplace with ⟨a, b, hab, hfits⟩ | ⟨pre, last, hlast, hne, _⟩
    · exact hnone a b hab hfits
    · have heq : pre ++ [last] = pre' ++ [last'] := hlast ▸ hlast'
      obtain ⟨_, hl⟩ := List.append_inj' heq rfl
      simp only [List.cons.injEq, and_true] at hl
      exact hne (hl ▸ htop)

/-! ## One start -/

/-- What an admitted start does: two maps are added, and their ends go to `SP` and to
the TLS base. -/
theorem Kernel.startThread_ok {k : Kernel} {maps : List MemoryMap} {thid : SceUID} {t : Thread}
    (hget : k.getThread thid = some t) (hmaps : AllocInv maps) (hbase : Based maps)
    (hroom : RoomForThread maps t.stackSize) (argLen : Word) :
    ∃ stack tls maps₁ maps₂, Allocated maps (pagedSize t.stackSize) maps₁ stack ∧
      Allocated maps₁ (pagedSize 0x1000#32) maps₂ tls ∧
      k.startThread maps thid argLen 0 =
        .ok (k.setThread thid { t with
          context := t.startContext (stack.end_ + 1)
          tlsLowAddress := tls.start
          status := SCE_THREAD_READY }, maps₂, 0) := by
  have hnz : ¬ FirstFit maps (pagedSize t.stackSize) 0 := fun hz => (hroom.tls 0 hz).1 rfl
  obtain ⟨stack, hstack, hsp⟩ := allocateStack_ok hmaps hroom.stack hnz t.name
  have hbehind := (hroom.tls stack.lo hstack.firstFit).2
  obtain ⟨htlsroom, htlsnz⟩ := hstack.roomFor_tls hmaps hbase hbehind
  obtain ⟨tls, htls, hlow⟩ := allocateHeap_ok hstack.inv htlsroom htlsnz (t.name ++ "_tls")
  refine ⟨stack, tls, _, _, hstack, htls, ?_⟩
  simp only [Kernel.startThread, hget, ne_eq, not_true_eq_false, if_false, hsp, hlow]

/-- Every slot address stays in the TLS block of a started thread. -/
theorem getTlsAddr_slot {k : Kernel} {thid : SceUID} {t : Thread} {tls : MemoryMap}
    (hget : k.getThread thid = some t) (hlow : t.tlsLowAddress = tls.start)
    (hlen : tls.hi + 1 = tls.lo + 0x2000) {key : Int} (h0 : 0 ≤ key) (h1 : key ≤ 0x100) :
    (k.getTlsAddr thid key).toNat = tls.lo + 4 * key.toNat ∧
      (k.getTlsAddr thid key).toNat + 3 ≤ tls.hi := by
  have hhi := MemoryMap.hi_lt tls
  have haddr : (k.getTlsAddr thid key).toNat = tls.lo + 4 * key.toNat := by
    unfold Kernel.getTlsAddr
    rw [hget]
    simp only [ge_iff_le, h0, h1, and_self, if_true, hlow]
    rw [BitVec.toNat_add, BitVec.toNat_ofInt]
    unfold MemoryMap.lo at *
    omega
  omega

/-! ## Runs -/

/-- What every admitted step keeps. -/
structure ThreadInv (s : ThreadSys) : Prop where
  alloc : AllocInv s.maps
  based : Based s.maps
  below : ∀ uid t, s.kernel.getThread uid = some t → uid < s.kernel.uidValue
  isolated : Isolated s

theorem ThreadInv.fresh : ThreadInv ThreadSys.fresh where
  alloc := .nil
  based := .inl rfl
  below := fun uid t h => by rw [ThreadSys.fresh, Kernel.getThread_new] at h; cases h
  isolated :=
    { regions :=
        let it := MemoryMap.fresh "" 0 0 0
        ⟨fun _ => it, fun _ => it, fun _ h => absurd h List.not_mem_nil,
          fun _ h => absurd h List.not_mem_nil⟩
      ready := fun uid t h => by rw [ThreadSys.fresh, Kernel.getThread_new] at h; cases h }

/-- A thread keeps its regions while its object is not written and no map goes away. -/
theorem OwnsRegions.keep {s s' : ThreadSys} {thid : SceUID} {stack tls : MemoryMap}
    (h : OwnsRegions s thid stack tls)
    (hget : s'.kernel.getThread thid = s.kernel.getThread thid)
    (hmaps : ∀ m ∈ s.maps, m ∈ s'.maps) : OwnsRegions s' thid stack tls where
  mapped := ⟨hmaps _ h.mapped.1, hmaps _ h.mapped.2⟩
  apart := h.apart
  sp := hget ▸ h.sp
  slot := by
    have htls : ∀ key, s'.kernel.getTlsAddr thid key = s.kernel.getTlsAddr thid key := by
      intro key
      rw [Kernel.getTlsAddr, Kernel.getTlsAddr, hget]
    simpa only [htls] using h.slot

theorem ThreadInv.create {s : ThreadSys} (h : ThreadInv s) {k : Kernel} {name : String}
    {entry stackSize attr option : Word} {initPriority : Int} {uid : SceUID}
    (hok : s.kernel.createThread name entry initPriority stackSize attr option = .ok (k, uid)) :
    ThreadInv { s with kernel := k } := by
  obtain ⟨huid, hvalue, hnew, hold⟩ := Kernel.createThread_ok hok
  obtain ⟨stack, tls, howns, hapart⟩ := h.isolated.regions
  refine ⟨h.alloc, h.based, ?_, ⟨stack, tls, ?_, hapart⟩, ?_⟩
  · intro uid' t ht
    show uid' < k.uidValue
    rw [hvalue]
    by_cases heq : uid' = uid
    · rw [heq, huid]
      exact Int.lt_succ _
    · exact (h.below uid' t (hold uid' heq ▸ ht)).trans (Int.lt_succ _)
  · intro thid hthid
    have ho := howns thid hthid
    obtain ⟨t, ht, _⟩ := ho.sp
    have hne : thid ≠ uid := fun heq => absurd (h.below thid t ht) (by rw [heq, huid]; simp)
    exact ho.keep (hold thid hne) fun _ hm => hm
  · intro uid' t ht hstatus
    by_cases heq : uid' = uid
    · subst heq
      have hcreated : some t = some (Thread.created ..) := ht.symm.trans hnew
      cases hcreated
      exact absurd hstatus (by show SCE_THREAD_STAGNANT ≠ SCE_THREAD_READY; decide)
    · exact h.isolated.ready uid' t (hold uid' heq ▸ ht) hstatus

/-- The thread that was started owns its two new maps. -/
theorem OwnsRegions.start {k : Kernel} {maps maps₁ maps₂ : List MemoryMap} {started : List SceUID}
    {thid : SceUID} {t : Thread} {stack tls : MemoryMap}
    (hstack : Allocated maps (pagedSize t.stackSize) maps₁ stack)
    (htls : Allocated maps₁ (pagedSize 0x1000#32) maps₂ tls)
    (hrounds : t.stackSize.toNat + 0x1000 < 2 ^ 32) :
    OwnsRegions ⟨k.setThread thid { t with
      context := t.startContext (stack.end_ + 1)
      tlsLowAddress := tls.start
      status := SCE_THREAD_READY }, maps₂, started⟩ thid stack tls := by
  have hself := Kernel.getThread_setThread k thid thid
    { t with
      context := t.startContext (stack.end_ + 1)
      tlsLowAddress := tls.start
      status := SCE_THREAD_READY }
  rw [if_pos rfl] at hself
  have hmem := hstack.mem.mpr (.inl rfl)
  refine ⟨⟨htls.mem.mpr (.inr hmem), htls.mem.mpr (.inl rfl)⟩, (htls.apart stack hmem).symm,
    ⟨_, hself, rfl, rfl, ?_⟩, fun key h0 h1 => getTlsAddr_slot hself rfl ?_ h0 h1⟩
  · have hlen := hstack.length
    have hsize := (pagedSize_bounds hrounds).2.2
    show t.stackSize.toNat ≤ _
    omega
  · rw [htls.length, tlsSize]

theorem ThreadInv.start {s : ThreadSys} (h : ThreadInv s) {thid : SceUID} {t : Thread}
    (hget : s.kernel.getThread thid = some t) (hnew : thid ∉ s.started)
    (hroom : RoomForThread s.maps t.stackSize) (argLen : Word) :
    ∃ k maps, s.kernel.startThread s.maps thid argLen 0 = .ok (k, maps, 0) ∧
      ThreadInv ⟨k, maps, thid :: s.started⟩ := by
  obtain ⟨stack, tls, maps₁, maps₂, hstack, htls, hok⟩ :=
    Kernel.startThread_ok hget h.alloc h.based hroom argLen
  refine ⟨_, _, hok, htls.inv, htls.based (hstack.based h.based), ?_, ⟨?_, ?_⟩⟩
  · intro uid u hu
    rw [Kernel.setThread_uidValue]
    rw [Kernel.getThread_setThread] at hu
    split at hu
    · rename_i heq
      exact heq ▸ h.below thid t hget
    · exact h.below uid u hu
  · obtain ⟨stackOf, tlsOf, howns, hapart⟩ := h.isolated.regions
    have hkeep : ∀ m ∈ s.maps, m ∈ maps₂ := fun m hm =>
      htls.mem.mpr (.inr (hstack.mem.mpr (.inr hm)))
    have hne : ∀ uid ∈ s.started, uid ≠ thid := fun uid huid heq => hnew (heq ▸ huid)
    refine ⟨Function.update stackOf thid stack, Function.update tlsOf thid tls, ?_, ?_⟩
    · intro uid huid
      rcases List.mem_cons.mp huid with rfl | huid
      · rw [Function.update_self, Function.update_self]
        exact .start hstack htls hroom.stack.rounds
      · rw [Function.update_of_ne (hne uid huid), Function.update_of_ne (hne uid huid)]
        refine (howns uid huid).keep ?_ hkeep
        rw [Kernel.getThread_setThread, if_neg (hne uid huid)]
    · -- the new regions meet no map of the old list, and so no region of another thread
      have hs : ∀ uid ∈ s.started, stack.Apart (stackOf uid) ∧ stack.Apart (tlsOf uid) ∧
          tls.Apart (stackOf uid) ∧ tls.Apart (tlsOf uid) := fun uid huid =>
        let hm := (howns uid huid).mapped
        ⟨hstack.apart _ hm.1, hstack.apart _ hm.2, htls.apart _ (hstack.mem.mpr (.inr hm.1)),
          htls.apart _ (hstack.mem.mpr (.inr hm.2))⟩
      intro uid huid uid' huid' hdiff
      rcases List.mem_cons.mp huid with rfl | hmem
      · have hmem' := (List.mem_cons.mp huid').resolve_left hdiff.symm
        simp only [Function.update_self, Function.update_of_ne (hne uid' hmem')]
        obtain ⟨hss, hst, _, htt⟩ := hs uid' hmem'
        exact ⟨hss, hst, htt⟩
      · rcases List.mem_cons.mp huid' with rfl | hmem'
        · simp only [Function.update_self, Function.update_of_ne (hne uid hmem)]
          obtain ⟨hss, _, hts, htt⟩ := hs uid hmem
          exact ⟨hss.symm, hts.symm, htt.symm⟩
        · simp only [Function.update_of_ne (hne uid hmem), Function.update_of_ne (hne uid' hmem')]
          exact hapart uid hmem uid' hmem' hdiff
  · intro uid u hu hstatus
    rw [Kernel.getThread_setThread] at hu
    split at hu
    · rename_i heq
      simp [heq]
    · exact List.mem_cons_of_mem _ (h.isolated.ready uid u hu hstatus)

theorem threadInv_step {s s' : ThreadSys} {call : ThreadCall} (h : ThreadInv s)
    (hstep : ThreadStep s call s') : ThreadInv s' := by
  obtain ⟨hadmits, ret, hok⟩ := hstep
  cases call with
  | create name entry initPriority stackSize attr option =>
    obtain ⟨⟨k, uid⟩, hcreate, heq⟩ := bind_ok.mp hok
    cases heq
    exact h.create hcreate
  | start thid argLen argPtr =>
    obtain ⟨⟨k, maps, ret'⟩, hstart, heq⟩ := bind_ok.mp hok
    cases heq
    obtain ⟨hnew, hroom⟩ := hadmits
    cases hget : s.kernel.getThread thid with
    | none =>
      simp only [Kernel.startThread, hget, Except.ok.injEq, Prod.mk.injEq] at hstart
      obtain ⟨rfl, rfl, rfl⟩ := hstart
      exact h
    | some t =>
      by_cases harg : argPtr = 0
      · subst harg
        obtain ⟨k', maps', hok', hinv⟩ := h.start hget hnew (hroom t hget) argLen
        rw [hok'] at hstart
        cases hstart
        exact hinv
      · have harg' : argPtr ≠ 0 := harg
        simp only [Kernel.startThread, hget, if_pos harg'] at hstart
        cases hstart

/-- On every run whose starts find room, each thread that was started owns a stack and
a TLS block of its own, and only these threads are READY. -/
theorem thread_memory_run {calls : List ThreadCall} {s : ThreadSys}
    (hrun : Steps ThreadStep ThreadSys.fresh calls s) : Isolated s :=
  (hrun.invariant (fun _ _ _ h hstep => threadInv_step h hstep) .fresh).isolated

theorem roomForThread_first (stackSize : Word) (h : stackSize.toNat ≤ 0x9FFFAFFF) :
    RoomForThread [] stackSize := by
  refine ⟨roomFor_first stackSize (by omega), fun a ha => ?_⟩
  cases ha with
  | empty =>
    have hrounds : stackSize.toNat + 0x1000 < 2 ^ 32 := by omega
    have hsize := pagedSize_toNat hrounds
    exact ⟨by decide, .inl ⟨by omega, by simp⟩⟩
  | hole hmaps => simp at hmaps
  | top hmaps => simp at hmaps

/-- Behind the last map, where no hole takes the stack. -/
theorem roomForThread_top {pre : List MemoryMap} {last : MemoryMap} {stackSize : Word}
    (hsize : stackSize.toNat ≤ 2 ^ 30)
    (hnone : ∀ x y, [x, y] <:+: pre ++ [last] → ¬ FitsHole (pagedSize stackSize) x y)
    (hlast : ∀ m ∈ pre ++ [last], m.hi ≤ last.hi)
    (htop : last.hi + 0x4001 + (pagedSize stackSize).toNat ≤ 2 ^ 32) :
    RoomForThread (pre ++ [last]) stackSize := by
  refine ⟨roomFor_top hsize (by omega), fun a ha => ?_⟩
  cases ha with
  | empty hmaps => simp at hmaps
  | @hole pre' post a b hmaps hfits =>
    exact absurd hfits (hnone a b ⟨pre', post, by rw [hmaps]; simp⟩)
  | @top pre' last' hmaps =>
    obtain ⟨-, rfl⟩ := List.append_inj' hmaps rfl |>.imp_right List.singleton_inj.mp
    have hmod : (last.hi + 0x1001) % 2 ^ 32 = last.hi + 0x1001 := Nat.mod_eq_of_lt (by omega)
    rw [hmod]
    refine ⟨by omega, .inl ⟨by omega, fun m hm => .inl ?_⟩⟩
    have hle := hlast m hm
    omega

/-- The system after the first `create_thread`, that of the entry thread. -/
def entryThread (stackSize : Word) : ThreadSys where
  kernel := { Kernel.new with
    uidValue := 0x101
    kernelObjectMap := Function.update (fun _ => none) 0x100
      (some (.thread (.created "entry_thread" 0x810001B9#32 32 stackSize 0 0x100)))
    threadList := [0x100] }
  maps := []
  started := []

theorem entryThread_perform (stackSize : Word) :
    ThreadSys.fresh.perform (.create "entry_thread" 0x810001B9#32 32 stackSize 0 0) =
      .ok (entryThread stackSize, 0x100) := rfl

/-- The maps of the entry thread: its stack of `0x2000` bytes, and its TLS block. -/
def entryMaps : List MemoryMap :=
  [.fresh ("entry_thread" ++ "_stack") 0x60000000#32 0x60002FFF#32 3#8] ++
    [.fresh ("entry_thread" ++ "_tls" ++ "_heap") 0x60004000#32 0x60005FFF#32 3#8]

theorem entryMaps_allocated :
    (allocateHeap (allocateStack [] 0x2000#32 "entry_thread").1 0x1000#32
      ("entry_thread" ++ "_tls")).1 = entryMaps := by
  have hstack : (allocateStack [] 0x2000#32 "entry_thread").1 =
      [.fresh ("entry_thread" ++ "_stack") 0x60000000#32 0x60002FFF#32 3#8] := rfl
  have hplace : moreMemory (allocateStack [] 0x2000#32 "entry_thread").1 0x1000#32 =
      (0x60004000#32, 0x2000#32) := by
    rw [hstack]
    decide
  rw [allocateHeap, hplace, hstack]
  rfl

theorem entryMaps_room : RoomForThread entryMaps 0x2000#32 := by
  refine roomForThread_top (by decide) (fun x y hxy hfits => ?_) (by decide) (by decide)
  have hpair : [x, y] = entryMaps := hxy.eq_of_length rfl
  cases hpair
  exact absurd hfits.1 (by decide)

/-- The entry thread and a second one get their stacks and their TLS blocks. -/
theorem thread_memory_run_two : ∃ s : ThreadSys,
    Steps ThreadStep ThreadSys.fresh [.create "entry_thread" 0x810001B9#32 32 0x2000#32 0 0,
      .create "second" 0x82000000#32 32 0x2000#32 0 0, .start 0x100 0 0, .start 0x101 0 0] s ∧
    s.started = [0x101, 0x100] ∧ Isolated s := by
  have hcreate : ThreadStep ThreadSys.fresh
      (.create "entry_thread" 0x810001B9#32 32 0x2000#32 0 0) (entryThread 0x2000#32) :=
    ⟨trivial, 0x100, entryThread_perform 0x2000#32⟩
  obtain ⟨s₂, t₂, hcreate₂, ht₂, hsize₂, hmaps₂, hstarted₂⟩ : ∃ s₂ t₂,
      (entryThread 0x2000#32).perform (.create "second" 0x82000000#32 32 0x2000#32 0 0) =
          .ok (s₂, 0x101) ∧
        s₂.kernel.getThread 0x100 = some t₂ ∧ t₂.stackSize = 0x2000#32 ∧ s₂.maps = [] ∧
        s₂.started = [] := ⟨_, _, rfl, rfl, rfl, rfl, rfl⟩
  obtain ⟨s₃, t₃, hstart₃, ht₃, hsize₃, hmaps₃, hstarted₃⟩ : ∃ s₃ t₃,
      s₂.perform (.start 0x100 0 0) = .ok (s₃, 0) ∧
        s₃.kernel.getThread 0x101 = some t₃ ∧ t₃.stackSize = 0x2000#32 ∧ s₃.maps = entryMaps ∧
        s₃.started = [0x100] := by
    cases hcreate₂
    exact ⟨_, _, rfl, rfl, rfl, entryMaps_allocated, rfl⟩
  obtain ⟨s₄, hstart₄, hstarted₄⟩ : ∃ s₄,
      s₃.perform (.start 0x101 0 0) = .ok (s₄, 0) ∧ s₄.started = [0x101, 0x100] := by
    simp only [ThreadSys.perform, Kernel.startThread, ht₃, hstarted₃]
    exact ⟨_, rfl, rfl⟩
  -- the first start finds an empty list, the second one the blocks of the first
  have hadmits₃ : s₂.Admits (.start 0x100 0 0) := by
    refine ⟨by simp [hstarted₂], fun t ht => ?_⟩
    cases ht₂.symm.trans ht
    rw [hmaps₂, hsize₂]
    exact roomForThread_first _ (by decide)
  have hadmits₄ : s₃.Admits (.start 0x101 0 0) := by
    refine ⟨by simp [hstarted₃], fun t ht => ?_⟩
    cases ht₃.symm.trans ht
    rw [hmaps₃, hsize₃]
    exact entryMaps_room
  have hsecond : ThreadStep (entryThread 0x2000#32)
      (.create "second" 0x82000000#32 32 0x2000#32 0 0) s₂ := ⟨trivial, 0x101, hcreate₂⟩
  have hrun := Steps.snoc (.snoc (.snoc (.snoc .nil hcreate) hsecond) ⟨hadmits₃, _, hstart₃⟩)
    ⟨hadmits₄, _, hstart₄⟩
  exact ⟨s₄, hrun, hstarted₄, thread_memory_run hrun⟩

/-- This stack leaves no room for the TLS block; `start_thread` returns `0` and stores
the `0` that `allocate_heap` reports its failure with. -/
theorem startThread_ignores_failure : ∃ s : ThreadSys,
    (entryThread 0x9FFFE000#32).perform (.start 0x100 0 0) = .ok (s, 0) ∧ ¬ Isolated s := by
  obtain ⟨s, hok, hstarted, hmaps, hlow⟩ : ∃ s,
      (entryThread 0x9FFFE000#32).perform (.start 0x100 0 0) = .ok (s, 0) ∧
      0x100 ∈ s.started ∧
      s.maps = [.fresh ("entry_thread" ++ "_stack") 0x60000000#32 0xFFFFEFFF#32
        (PROTECTION_TYPE_READ ||| PROTECTION_TYPE_WRITE)] ∧
      ∀ t, s.kernel.getThread 0x100 = some t → t.tlsLowAddress = 0 := by
    refine ⟨_, rfl, List.mem_cons_self, rfl, fun t ht => ?_⟩
    cases ht
    rfl
  refine ⟨s, hok, fun h => ?_⟩
  obtain ⟨stack, tls, howns, _⟩ := h.regions
  have ho := howns 0x100 hstarted
  obtain ⟨t, ht, _, htls, _⟩ := ho.sp
  have hmem := ho.mapped.2
  rw [hmaps, List.mem_singleton] at hmem
  rw [hlow t ht, hmem] at htls
  exact absurd htls (by decide)

end Betavita.Hle
