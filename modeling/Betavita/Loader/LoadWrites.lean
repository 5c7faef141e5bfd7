import Betavita.Loader.ImportTables
import Betavita.Loader.RelocationOrder
import Betavita.Loader.TableBounds

/-!
# self_loader.cpp — what loading writes

Besides the copies of the segments, a load writes the words that relocations patch and the
stubs of the imported functions. `SELFProgramData.patches` and `importStubs` list them in the
order in which they are written. As assignments to bits they say what is left of the memory:
where nothing is written, or what is written last is what was there, it is as it was.
-/

namespace Betavita.Loader

open Memory Hle ByteBuffer

/-! ## The relocations -/

/-- The entries that the loop over a table reads, the last of which may stick out. -/
def DecryptedSegment.walkedEntries (seg : DecryptedSegment) : List EntryFormat0 :=
  (List.range ((seg.phdr.pFilesz.toNat + 11) / 12)).map fun k => entryAt seg (12 * k)

/-- The patches of all tables, in order. -/
def SELFProgramData.patches (data : SELFProgramData) : List Patch :=
  tablePatches data.segments 4#32
    ((data.segments.filter (·.relocatable)).flatMap DecryptedSegment.walkedEntries)

section Relocations

variable {segments : List DecryptedSegment} {maps maps' : List MemoryMap}

/-- A pass over a table that succeeds has run all entries that the loop reads. -/
theorem performSegmentRelocation_runEntries {seg : DecryptedSegment} {n k : Nat}
    (hk : k + n = (seg.phdr.pFilesz.toNat + 11) / 12)
    (h : performSegmentRelocation segments seg (12 * k) maps = .ok (true, maps')) :
    runEntries segments 4#32 (seg.walkedEntries.drop k) maps = .ok (true, maps') := by
  have hlen : seg.walkedEntries.length = (seg.phdr.pFilesz.toNat + 11) / 12 := by
    simp [DecryptedSegment.walkedEntries]
  induction n generalizing k maps with
  | zero =>
    rw [performSegmentRelocation, if_neg (by omega)] at h
    rw [List.drop_eq_nil_of_le (by omega)]
    exact h
  | succ n ih =>
    have hkt : k < seg.walkedEntries.length := by omega
    have hentry : seg.walkedEntries[k] = entryAt seg (12 * k) := by
      simp [DecryptedSegment.walkedEntries]
    rw [performSegmentRelocation, if_pos (by omega)] at h
    obtain ⟨relUnknown, _, h⟩ := bind_ok.mp h
    split at h
    · obtain ⟨bytes, hbytes, h⟩ := bind_ok.mp h
      obtain ⟨⟨applied, maps₁⟩, happly, h⟩ := bind_ok.mp h
      cases applied with
      | false => cases h
      | true =>
        have hslice : bytes = slice seg.data (12 * k) 12 := bufRead_eq hbytes
        rw [hslice, ← entryAt, applyEntry_eq] at happly
        rw [List.drop_eq_getElem_cons hkt, runEntries, hentry, happly, ok_bind]
        exact ih (k := k + 1) (by omega) h
    · cases h

/-- A pass over all tables that succeeds has run their entries in order. -/
theorem relocateSegments_runEntries {rest : List DecryptedSegment}
    (h : relocateSegments segments rest maps = .ok (true, maps')) :
    runEntries segments 4#32
      ((rest.filter (·.relocatable)).flatMap DecryptedSegment.walkedEntries) maps =
        .ok (true, maps') := by
  induction rest generalizing maps with
  | nil => exact h
  | cons seg rest ih =>
    rw [relocateSegments] at h
    by_cases hr : seg.relocatable = true
    · rw [if_pos hr] at h
      obtain ⟨⟨performed, maps₁⟩, hperform, h⟩ := bind_ok.mp h
      cases performed with
      | false => cases h
      | true =>
        have hrun := performSegmentRelocation_runEntries (k := 0) (Nat.zero_add _) hperform
        rw [List.drop_zero] at hrun
        rw [List.filter_cons_of_pos hr, List.flatMap_cons, runEntries_append, hrun, ok_bind]
        exact ih h
    · rw [if_neg hr] at h
      rw [List.filter_cons_of_neg hr]
      exact ih h

/-- Relocations that are all accepted write the patches, and nothing else. -/
theorem bitAt_doSelfRelocation {data : SELFProgramData}
    (h : doSelfRelocationProgramData data maps = .ok (true, maps')) :
    bitAt maps' =
      Assignment.writeAll (bitAt maps) (data.patches.map (Patch.assignment maps)) :=
  bitAt_runEntries (relocateSegments_runEntries h)

end Relocations

/-! ## The stubs -/

/-- The stub of an imported function, and where it is written. -/
structure Stub where
  place : HostPtr
  nid : Word

/-- The bits of its twelve bytes. -/
def Stub.assignment (s : Stub) : Assignment BitPlace (Option Bool) where
  places := {place | place.1.map = s.place.map ∧ s.place.offset ≤ place.1.offset ∧
    place.1.offset < s.place.offset + 12}
  value := fun place =>
    ((stubBytes s.nid)[place.1.offset - s.place.offset]?).map fun byte => byte.getLsbD place.2

/-- The stub that a turn of the loop over the functions writes, if it gets there. -/
def functionStub (nid entryAddr : HostPtr) (maps : List MemoryMap) : Option Stub := do
  let entry ← (readWord maps entryAddr).toOption
  let entryData ← getPointerUnchecked maps entry
  let patchNid ← (readWord maps nid).toOption
  return ⟨entryData, patchNid⟩

/-- The stubs that the loop over the functions writes, in order: up to the first entry address
that is not mapped. -/
def functionStubs : Nat → HostPtr → HostPtr → List MemoryMap → List Stub
  | 0, _, _, _ => []
  | n + 1, nid, entryAddr, maps =>
    match functionStub nid entryAddr maps with
    | none => []
    | some stub =>
      stub :: match writeBytes maps stub.place (stubBytes stub.nid) with
        | .ok maps => functionStubs n (nid.add 4) (entryAddr.add 4) maps
        | .error _ => []

/-- The stubs that the round on a descriptor writes: none if it does not get to the functions. -/
def libraryStubs (import_ : HostPtr) (maps : List MemoryMap) : List Stub :=
  match readHalf maps import_, readModuleImports maps import_ with
  | .ok importStructSize, .ok imports =>
    if importStructSize = 0x34#16 then
      match getPointerUnchecked maps imports.funcNidTable,
        getPointerUnchecked maps imports.funcEntryTable with
      | some nid, some entryAddr =>
        functionStubs imports.numSymsFuncs.toNat nid entryAddr maps
      | _, _ => []
    else []
  | _, _ => []

/-- The stubs of the walk over the descriptors, up to the one that is refused. -/
def walkStubs (importEnd baseAddress : Word) : Nat → Word → List MemoryMap → List Stub
  | 0, _, _ => []
  | fuel + 1, importStart, maps =>
    if importStart < importEnd then
      match getPointerUnchecked maps (baseAddress + importStart) with
      | none => []
      | some import_ =>
        libraryStubs import_ maps ++ match importLibrary import_ maps with
          | .ok (some _, maps) =>
            walkStubs importEnd baseAddress fuel (importStart + 0x34#32) maps
          | _ => []
    else []

/-- The stubs of `add_module_imports`, in order. -/
def importStubs (fuel : Nat) (modinfo : HostPtr) (baseAddress : Word) (maps : List MemoryMap) :
    List Stub :=
  match readWord maps (modinfo.add 0x2C), readWord maps (modinfo.add 0x30) with
  | .ok importTop, .ok importEnd => walkStubs importEnd baseAddress fuel importTop maps
  | _, _ => []

section Stubs

variable {maps maps' : List MemoryMap}

theorem bitAt_writeStub {s : Stub} (h : writeBytes maps s.place (stubBytes s.nid) = .ok maps') :
    bitAt maps' = Assignment.write (bitAt maps) s.assignment := by
  funext ⟨q, j⟩
  rw [bitAt, writeBytes_byteAt h, stubBytes_length]
  by_cases hin : q.map = s.place.map ∧ s.place.offset ≤ q.offset ∧ q.offset < s.place.offset + 12
  · have hmem : (q, j) ∈ s.assignment.places := hin
    rw [Assignment.write_of_mem hmem, if_pos hin]
    rfl
  · have hmem : (q, j) ∉ s.assignment.places := hin
    rw [Assignment.write_of_not_mem hmem, if_neg hin]
    rfl

theorem bitAt_importFunctions {n : Nat} {nid entryAddr : HostPtr}
    {functionImports : List FunctionImport} {r : Option (List FunctionImport)}
    (h : importFunctions n nid entryAddr functionImports maps = .ok (r, maps')) :
    bitAt maps' = Assignment.writeAll (bitAt maps)
      ((functionStubs n nid entryAddr maps).map Stub.assignment) := by
  induction n generalizing nid entryAddr functionImports maps with
  | zero =>
    cases h
    rfl
  | succ n ih =>
    obtain ⟨entry, hentry, h⟩ := bind_ok.mp h
    cases hdata : getPointerUnchecked maps entry with
    | none =>
      have hstub : functionStub nid entryAddr maps = none := by
        simp [functionStub, hentry, hdata, Except.toOption]
      rw [hdata] at h
      cases h
      rw [functionStubs, hstub]
      rfl
    | some entryData =>
      rw [hdata] at h
      obtain ⟨patchNid, hnid, h⟩ := bind_ok.mp h
      obtain ⟨maps₁, hpatch, h⟩ := bind_ok.mp h
      obtain ⟨_, _, h⟩ := bind_ok.mp h
      obtain ⟨_, _, h⟩ := bind_ok.mp h
      rw [patchFunctionImportData_eq] at hpatch
      have hstub : functionStub nid entryAddr maps = some ⟨entryData, patchNid⟩ := by
        simp [functionStub, hentry, hdata, hnid, Except.toOption]
      have hwrite := bitAt_writeStub (s := ⟨entryData, patchNid⟩) hpatch
      rw [functionStubs, hstub]
      simp only [hpatch, List.map_cons, Assignment.writeAll_cons]
      rw [ih h, hwrite]

theorem bitAt_importLibrary {import_ : HostPtr} {r : Option FunctionImportLibrary}
    (h : importLibrary import_ maps = .ok (r, maps')) :
    bitAt maps' = Assignment.writeAll (bitAt maps)
      ((libraryStubs import_ maps).map Stub.assignment) := by
  obtain ⟨importStructSize, hsize, _⟩ := bind_ok.mp h
  by_cases hstruct : importStructSize = 0x34#16
  · subst hstruct
    rw [importLibrary, hsize, ok_bind, if_neg (by decide), if_pos rfl] at h
    obtain ⟨imports, himports, h⟩ := bind_ok.mp h
    rw [libraryStubs, hsize, himports]
    simp only [if_true]
    cases hnid : getPointerUnchecked maps imports.funcNidTable with
    | none =>
      rw [hnid] at h
      cases h
      rfl
    | some nid =>
      cases hentry : getPointerUnchecked maps imports.funcEntryTable with
      | none =>
        rw [hnid, hentry] at h
        cases h
        rfl
      | some entryAddr =>
        simp only [hnid, hentry] at h ⊢
        obtain ⟨libraryName, _, h⟩ := bind_ok.mp h
        obtain ⟨⟨functionImports, maps₁⟩, hfunctions, h⟩ := bind_ok.mp h
        -- the variables are only read
        have hkept : maps' = maps₁ := by
          cases functionImports with
          | none =>
            cases h
            rfl
          | some fs =>
            obtain ⟨checked, _, h⟩ := bind_ok.mp h
            cases checked <;> cases h <;> rfl
        rw [hkept]
        exact bitAt_importFunctions hfunctions
  · have hnone : libraryStubs import_ maps = [] := by
      rw [libraryStubs, hsize]
      cases readModuleImports maps import_ with
      | error trap => rfl
      | ok imports => exact if_neg hstruct
    cases h.symm.trans (importLibrary_of_size hsize hstruct)
    rw [hnone]
    rfl

theorem bitAt_importLibraries {importEnd baseAddress importStart : Word} {fuel : Nat}
    {libraries : List FunctionImportLibrary} {r : Option (List FunctionImportLibrary)}
    (h : importLibraries importEnd baseAddress fuel importStart libraries maps = .ok (r, maps')) :
    bitAt maps' = Assignment.writeAll (bitAt maps)
      ((walkStubs importEnd baseAddress fuel importStart maps).map Stub.assignment) := by
  induction fuel generalizing importStart libraries maps with
  | zero => cases h
  | succ fuel ih =>
    rw [importLibraries] at h
    rw [walkStubs]
    split at h
    · rename_i hlt
      rw [if_pos hlt]
      cases himport : getPointerUnchecked maps (baseAddress + importStart) with
      | none =>
        rw [himport] at h
        cases h
        rfl
      | some import_ =>
        rw [himport] at h
        obtain ⟨⟨library, maps₁⟩, hlibrary, h⟩ := bind_ok.mp h
        simp only [hlibrary, List.map_append, Assignment.writeAll_append]
        rw [← bitAt_importLibrary hlibrary]
        cases library with
        | none =>
          cases h
          rfl
        | some library => exact ih h
    · rename_i hge
      rw [if_neg hge]
      cases h
      rfl

/-- The import pass writes its stubs, and nothing else. -/
theorem bitAt_addModuleImports {fuel : Nat} {modinfo : HostPtr} {baseAddress : Word}
    {modules modules' : List RuntimeModule} {b : Bool}
    (h : addModuleImports fuel modinfo baseAddress maps modules = .ok (b, maps', modules')) :
    bitAt maps' = Assignment.writeAll (bitAt maps)
      ((importStubs fuel modinfo baseAddress maps).map Stub.assignment) := by
  obtain ⟨importTop, importEnd, libraries, htop, hend, hlibraries, _⟩ := addModuleImports_cases h
  rw [importStubs, htop, hend]
  exact bitAt_importLibraries hlibraries

end Stubs

end Betavita.Loader
