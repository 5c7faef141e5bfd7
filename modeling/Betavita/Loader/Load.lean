import Betavita.Loader.LoadWrites
import Betavita.Loader.SegmentMap

/-!
# self_loader.cpp — loading an image

`load_self_to_memory` maps the segments, relocates them, links the imports and checks the
exports. It returns `false` from six places, with as much done as was done by then;
`LoadFailure` lists them with the state they leave.
-/

namespace Betavita.Loader

open Memory Hle

/-- What loading changes: the map list and the list of runtime modules. -/
structure LoaderState where
  memoryMapList : List MemoryMap
  runtimeModuleList : List RuntimeModule
deriving DecidableEq

/-- The pointer to the module info: the entry has the segment in its two high bits and the
offset below. The segment is not checked against the list. -/
def moduleInfo (data : SELFProgramData) (maps : List MemoryMap) : Except Trap (Option HostPtr) :=
  let segment := (data.entry >>> 30).toNat
  let offset := data.entry &&& 0x3FFFFFFF#32
  match data.segments[segment]? with
  | none => .error .outOfBounds
  | some segment => .ok (getPointerUnchecked maps (segment.phdr.pVaddr + offset))

/-- `debug_module_info` prints the name and the type. -/
def debugModuleInfo (maps : List MemoryMap) (modinfo : HostPtr) : Except Trap Unit := do
  let _name ← readBytes maps (modinfo.add 0x04) 27
  let _type ← readBytes maps (modinfo.add 0x1F) 1
  return ()

/-- `load_self_to_memory`. -/
def loadSelfToMemory (fuel : Nat) (data : Option SELFProgramData) (st : LoaderState) :
    Except Trap (Bool × LoaderState) :=
  match data with
  | none => .ok (false, st)
  | some data => do
    let (bottomAddress, maps) ← mapSegments data.segments 0xFFFFFFFF#32 st.memoryMapList
    if data.relocatable then
      let modinfo ← moduleInfo data maps
      match modinfo with
      | none => return (false, ⟨maps, st.runtimeModuleList⟩)
      | some modinfo =>
        debugModuleInfo maps modinfo
        let (selfRelocated, maps) ← doSelfRelocationProgramData data maps
        -- `unmap_memory_all`, also of the maps that were there before
        if !selfRelocated then return (false, ⟨[], st.runtimeModuleList⟩)
        else
          let baseAddress := if data.relocatable then bottomAddress else 0
          let (selfRelocated, maps, modules) ←
            addModuleImports fuel modinfo baseAddress maps st.runtimeModuleList
          if !selfRelocated then return (false, ⟨maps, modules⟩)
          else
            let selfRelocated ← addModuleExports fuel modinfo baseAddress maps
            return (selfRelocated, ⟨maps, modules⟩)
    else return (false, ⟨maps, st.runtimeModuleList⟩)

/-! ## The ways to fail -/

/-- Where a call returns `false`, and the state it leaves. -/
inductive LoadFailure (fuel : Nat) (st : LoaderState) : Option SELFProgramData → LoaderState → Prop
  | noData : LoadFailure fuel st none st
  | noModuleInfo {data : SELFProgramData} {bottomAddress maps} :
    mapSegments data.segments 0xFFFFFFFF#32 st.memoryMapList = .ok (bottomAddress, maps) →
    (data.relocatable = false ∨ moduleInfo data maps = .ok none) →
    LoadFailure fuel st (some data) ⟨maps, st.runtimeModuleList⟩
  | notRelocated {data : SELFProgramData} {bottomAddress maps modinfo maps₁} :
    mapSegments data.segments 0xFFFFFFFF#32 st.memoryMapList = .ok (bottomAddress, maps) →
    data.relocatable = true → moduleInfo data maps = .ok (some modinfo) →
    doSelfRelocationProgramData data maps = .ok (false, maps₁) →
    LoadFailure fuel st (some data) ⟨[], st.runtimeModuleList⟩
  | notImported {data : SELFProgramData} {bottomAddress maps modinfo maps₁ maps₂ modules} :
    mapSegments data.segments 0xFFFFFFFF#32 st.memoryMapList = .ok (bottomAddress, maps) →
    data.relocatable = true → moduleInfo data maps = .ok (some modinfo) →
    doSelfRelocationProgramData data maps = .ok (true, maps₁) →
    addModuleImports fuel modinfo bottomAddress maps₁ st.runtimeModuleList =
      .ok (false, maps₂, modules) →
    LoadFailure fuel st (some data) ⟨maps₂, modules⟩
  | notExported {data : SELFProgramData} {bottomAddress maps modinfo maps₁ maps₂ modules} :
    mapSegments data.segments 0xFFFFFFFF#32 st.memoryMapList = .ok (bottomAddress, maps) →
    data.relocatable = true → moduleInfo data maps = .ok (some modinfo) →
    doSelfRelocationProgramData data maps = .ok (true, maps₁) →
    addModuleImports fuel modinfo bottomAddress maps₁ st.runtimeModuleList =
      .ok (true, maps₂, modules) →
    addModuleExports fuel modinfo bottomAddress maps₂ = .ok false →
    LoadFailure fuel st (some data) ⟨maps₂, modules⟩

section Failure

variable {fuel : Nat} {st st' : LoaderState} {data : SELFProgramData}

/-- A call that returns `false` does so at one of the exits. -/
theorem loadFailure_of_false {data : Option SELFProgramData}
    (h : loadSelfToMemory fuel data st = .ok (false, st')) : LoadFailure fuel st data st' := by
  cases data with
  | none =>
    cases h
    exact .noData
  | some data =>
    obtain ⟨⟨bottomAddress, maps⟩, hmap, h⟩ := bind_ok.mp h
    by_cases hrel : data.relocatable = true
    · simp only [hrel, if_true] at h
      obtain ⟨modinfo, hinfo, h⟩ := bind_ok.mp h
      cases modinfo with
      | none =>
        cases h
        exact .noModuleInfo hmap (.inr hinfo)
      | some modinfo =>
        obtain ⟨_, _, h⟩ := bind_ok.mp h
        obtain ⟨⟨relocated, maps₁⟩, hreloc, h⟩ := bind_ok.mp h
        cases relocated with
        | false =>
          cases h
          exact .notRelocated hmap hrel hinfo hreloc
        | true =>
          obtain ⟨⟨imported, maps₂, modules⟩, himport, h⟩ := bind_ok.mp h
          cases imported with
          | false =>
            cases h
            exact .notImported hmap hrel hinfo hreloc himport
          | true =>
            obtain ⟨exported, hexport, h⟩ := bind_ok.mp h
            cases h
            exact .notExported hmap hrel hinfo hreloc himport hexport
    · have hfalse : data.relocatable = false := by simpa using hrel
      simp only [hfalse, Bool.false_eq_true, if_false] at h
      cases h
      exact .noModuleInfo hmap (.inl hfalse)

/-- No segment of the image gets a map. -/
def MapsNothing (data : SELFProgramData) : Prop := ∀ i ∈ data.segments, i.isMapped = false

/-- A longer map list is another one. -/
theorem mapsNothing_of_length {bottomAddress : Word} {maps maps' : List MemoryMap}
    (hmap : mapSegments data.segments 0xFFFFFFFF#32 st.memoryMapList = .ok (bottomAddress, maps))
    (hlen : maps.length = maps'.length) (heq : maps' = st.memoryMapList) : MapsNothing data := by
  have hgrow := mapSegments_length hmap
  rw [hlen, heq] at hgrow
  have hcount : data.segments.countP DecryptedSegment.isMapped = 0 := by omega
  intro i hi
  simpa using List.countP_eq_zero.mp hcount i hi

/-- The failed call leaves the state as it was: there is no image; or no segment is mapped
and there is no module info; or a relocation is refused and no map was there before; or no
segment is mapped, an import is refused, and what the patches and the stubs until then write
last to a place is what it held. -/
inductive FailsCleanly (fuel : Nat) (st : LoaderState) : Option SELFProgramData → Prop
  | noData : FailsCleanly fuel st none
  | noModuleInfo {data : SELFProgramData} : MapsNothing data →
    (data.relocatable = false ∨ moduleInfo data st.memoryMapList = .ok none) →
    FailsCleanly fuel st (some data)
  | notRelocated {data : SELFProgramData} {bottomAddress maps modinfo maps₁} :
    st.memoryMapList = [] →
    mapSegments data.segments 0xFFFFFFFF#32 [] = .ok (bottomAddress, maps) →
    data.relocatable = true → moduleInfo data maps = .ok (some modinfo) →
    doSelfRelocationProgramData data maps = .ok (false, maps₁) →
    FailsCleanly fuel st (some data)
  | notImported {data : SELFProgramData} {modinfo maps₁ maps₂ modules} : MapsNothing data →
    data.relocatable = true → moduleInfo data st.memoryMapList = .ok (some modinfo) →
    doSelfRelocationProgramData data st.memoryMapList = .ok (true, maps₁) →
    addModuleImports fuel modinfo 0xFFFFFFFF#32 maps₁ st.runtimeModuleList =
      .ok (false, maps₂, modules) →
    Assignment.Restores (bitAt st.memoryMapList)
      (data.patches.map (Patch.assignment st.memoryMapList) ++
        (importStubs fuel modinfo 0xFFFFFFFF#32 maps₁).map Stub.assignment) →
    FailsCleanly fuel st (some data)

/-- A refused import registers nothing. -/
theorem addModuleImports_modules {modinfo : HostPtr} {baseAddress : Word}
    {maps maps' : List MemoryMap} {modules modules' : List RuntimeModule}
    (h : addModuleImports fuel modinfo baseAddress maps modules = .ok (false, maps', modules')) :
    modules' = modules := by
  obtain ⟨_, _, _, _, _, _, hresult⟩ := addModuleImports_cases h
  rcases hresult with ⟨_, _, hmodules⟩ | ⟨_, _, _, htrue, _⟩
  · exact hmodules
  · cases htrue

/-- The loop that maps nothing. -/
theorem MapsNothing.run (h : MapsNothing data) (maps : List MemoryMap) :
    mapSegments data.segments 0xFFFFFFFF#32 maps = .ok (0xFFFFFFFF#32, maps) :=
  mapSegments_of_none h _ _

/-- The relocations and the imports leave the memory as it is exactly when what they write last
to a place is what it held. -/
theorem restores_iff {maps maps₁ maps₂ : List MemoryMap} {modinfo : HostPtr} {baseAddress : Word}
    {modules modules' : List RuntimeModule} {b : Bool}
    (hreloc : doSelfRelocationProgramData data maps = .ok (true, maps₁))
    (himport : addModuleImports fuel modinfo baseAddress maps₁ modules =
      .ok (b, maps₂, modules')) :
    maps₂ = maps ↔ Assignment.Restores (bitAt maps)
      (data.patches.map (Patch.assignment maps) ++
        (importStubs fuel modinfo baseAddress maps₁).map Stub.assignment) := by
  have hbits : bitAt maps₂ = Assignment.writeAll (bitAt maps)
      (data.patches.map (Patch.assignment maps) ++
        (importStubs fuel modinfo baseAddress maps₁).map Stub.assignment) := by
    rw [Assignment.writeAll_append, ← bitAt_doSelfRelocation hreloc]
    exact bitAt_addModuleImports himport
  have hsame :=
    (doSelfRelocationProgramData_sameMaps hreloc).trans (addModuleImports_sameMaps himport)
  rw [← Assignment.writeAll_eq_self_iff, ← hbits]
  constructor
  · rintro rfl
    rfl
  · exact eq_of_bitAt hsame.symm

/-- An exit that leaves the state unchanged is one of the clean ones. -/
theorem LoadFailure.clean {data : Option SELFProgramData} (h : LoadFailure fuel st data st')
    (heq : st' = st) : FailsCleanly fuel st data := by
  have hmaps := congrArg LoaderState.memoryMapList heq
  cases h with
  | noData => exact .noData
  | noModuleInfo hmap hinfo =>
    exact .noModuleInfo (mapsNothing_of_length hmap rfl hmaps) (hmaps ▸ hinfo)
  | notRelocated hmap hrel hinfo hreloc =>
    have hempty := hmaps.symm
    rw [hempty] at hmap
    exact .notRelocated hempty hmap hrel hinfo hreloc
  | notImported hmap hrel hinfo hreloc himport =>
    have hsame :=
      (doSelfRelocationProgramData_sameMaps hreloc).trans (addModuleImports_sameMaps himport)
    have hn := mapsNothing_of_length hmap hsame.length hmaps
    cases hmap.symm.trans (hn.run _)
    exact .notImported hn hrel hinfo hreloc himport ((restores_iff hreloc himport).mp hmaps)
  | notExported _ _ _ _ himport _ =>
    -- the imports were linked, so a module was registered
    obtain ⟨_, _, _, _, _, _, hresult⟩ := addModuleImports_cases himport
    rcases hresult with ⟨htrue, _⟩ | ⟨libs, name, nid, _, _, hmodules⟩
    · cases htrue
    · have hlen := congrArg (·.runtimeModuleList.length) heq
      simp [hmodules, addRuntimeModule] at hlen

/-- In a clean case, the call leaves the state unchanged. -/
theorem FailsCleanly.unchanged {data : Option SELFProgramData} (hclean : FailsCleanly fuel st data)
    (h : loadSelfToMemory fuel data st = .ok (false, st')) : st' = st := by
  cases hclean with
  | noData =>
    cases h
    rfl
  | noModuleInfo hn hinfo =>
    rw [loadSelfToMemory, hn.run, ok_bind] at h
    rcases hinfo with hrel | hinfo
    · simp only [hrel, Bool.false_eq_true, if_false] at h
      cases h
      rfl
    · simp only [hinfo, ok_bind] at h
      split at h
      · cases h
        rfl
      · cases h
        rfl
  | notRelocated hempty hmap hrel hinfo hreloc =>
    obtain ⟨_, modules⟩ := st
    cases hempty
    rw [loadSelfToMemory, hmap, ok_bind] at h
    simp only [hrel, if_true, hinfo, ok_bind] at h
    obtain ⟨_, _, h⟩ := bind_ok.mp h
    simp only [hreloc, ok_bind] at h
    cases h
    rfl
  | notImported hn hrel hinfo hreloc himport hrestores =>
    rw [loadSelfToMemory, hn.run, ok_bind] at h
    simp only [hrel, if_true, hinfo, ok_bind] at h
    obtain ⟨_, _, h⟩ := bind_ok.mp h
    simp only [hreloc, ok_bind, Bool.not_true, Bool.false_eq_true, if_false, himport] at h
    cases h
    rw [addModuleImports_modules himport, (restores_iff hreloc himport).mpr hrestores]

/-- Load failure: a call that returns `false` leaves the state as it was exactly in the
cases of `FailsCleanly`. -/
theorem loadSelfToMemory_atomic_iff {data : Option SELFProgramData}
    (h : loadSelfToMemory fuel data st = .ok (false, st')) :
    st' = st ↔ FailsCleanly fuel st data :=
  ⟨(loadFailure_of_false h).clean, fun hclean => hclean.unchanged h⟩

end Failure

/-- An `ET_SCE_EXEC` image with one segment, the last 16 bytes of a page. -/
def execImage : SELFProgramData where
  entry := 0
  relocatable := false
  executableType := ET_SCE_EXEC
  segments :=
    [⟨"program_segment_0", [], 0, false, true,
      { ELFPhdr32.zero with pType := PT_LOAD, pVaddr := 0x81000FF0#32, pMemsz := 0x10#32 }⟩]

def execMap : MemoryMap := .fresh "program_segment_0" 0x81000FF0#32 0x81000FFF#32 0

/-- Loading it fails, and not cleanly. -/
theorem loadSelfToMemory_atomic_exec : ¬ FailsCleanly 0 ⟨[], []⟩ (some execImage) := by
  have hrun : loadSelfToMemory 0 (some execImage) ⟨[], []⟩ = .ok (false, ⟨[execMap], []⟩) := by
    decide +kernel
  intro hclean
  have heq := (loadSelfToMemory_atomic_iff hrun).mpr hclean
  cases heq

/-- The segment of an executable that is refused stays mapped. -/
theorem loadSelfToMemory_leaves_map :
    loadSelfToMemory 0 (some execImage) ⟨[], []⟩ = .ok (false, ⟨[execMap], []⟩) ∧
      (⟨[execMap], []⟩ : LoaderState) ≠ ⟨[], []⟩ :=
  ⟨by decide +kernel, by decide⟩

end Betavita.Loader
