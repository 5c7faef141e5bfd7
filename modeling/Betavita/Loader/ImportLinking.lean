import Betavita.Loader.Import

/-!
# From import descriptors to supervisor calls

What an image imports is read off its own memory, before any stub is written. The import
pass works on the memory it patches: `Linked` says how far the two have come apart after
some descriptors and some functions of the next one. Where the stubs keep clear of the
tables, nothing that is still to be read has changed.
-/

namespace Betavita.Loader

open Memory Hle ByteBuffer KeyedMap

/-! ## What an image lists -/

/-- The bounds of the descriptors, and the base their addresses are taken from. -/
structure ImportTable where
  baseAddress : Word
  importTop : Word
  importEnd : Word
deriving DecidableEq

/-- `modinfo->import_top` and `modinfo->import_end`. -/
def readImportTable (maps : List MemoryMap) (modinfo : HostPtr) (baseAddress : Word) :
    Except Trap ImportTable := do
  let importTop ← readWord maps (modinfo.add 0x2C)
  let importEnd ← readWord maps (modinfo.add 0x30)
  return ⟨baseAddress, importTop, importEnd⟩

/-- Where descriptor `k` starts, counted in 32 bits as the loop does. -/
def ImportTable.start (t : ImportTable) (k : Nat) : Word :=
  t.importTop + BitVec.ofNat 32 (0x34 * k)

def ImportTable.address (t : ImportTable) (k : Nat) : Word := t.baseAddress + t.start k

/-- The table has a descriptor `k`: it and all before it start below the end. -/
def ImportTable.Has (t : ImportTable) (k : Nat) : Prop := ∀ j ≤ k, t.start j < t.importEnd

theorem ImportTable.start_succ (t : ImportTable) (k : Nat) :
    t.start (k + 1) = t.start k + 0x34#32 := by
  unfold ImportTable.start
  apply BitVec.eq_of_toNat_eq
  simp only [BitVec.toNat_add, BitVec.toNat_ofNat]
  omega

/-- Unless the end is one of the last addresses, the descriptors are those that start in
`[import_top, import_end)`. -/
theorem ImportTable.has_iff {t : ImportTable} (h : t.importEnd.toNat + 0x34 ≤ 2 ^ 32) (k : Nat) :
    t.Has k ↔ t.importTop.toNat + 0x34 * k < t.importEnd.toNat := by
  have hlt : ∀ j, t.importTop.toNat + 0x34 * j < 2 ^ 32 →
      (t.start j).toNat = t.importTop.toNat + 0x34 * j := by
    intro j hj
    rw [ImportTable.start, BitVec.toNat_add, BitVec.toNat_ofNat]
    omega
  constructor
  · intro hhas
    -- each descriptor starts below the end, so the next start does not wrap
    induction k with
    | zero =>
      have h0 : (t.start 0).toNat < t.importEnd.toNat := hhas 0 (Nat.le_refl 0)
      rw [hlt 0 t.importTop.isLt] at h0
      exact h0
    | succ k ih =>
      have hk := ih fun j hj => hhas j (Nat.le_succ_of_le hj)
      have hnext : (t.start (k + 1)).toNat < t.importEnd.toNat := hhas (k + 1) (Nat.le_refl _)
      rw [hlt (k + 1) (by omega)] at hnext
      exact hnext
  · intro hk j hj
    have hend := t.importEnd.isLt
    show (t.start j).toNat < t.importEnd.toNat
    rw [hlt j (by omega)]
    omega

def loadModuleImports (maps : List MemoryMap) (address : Word) : Option ModuleImports :=
  (getPointerUnchecked maps address).bind fun p => (readModuleImports maps p).toOption

/-- Descriptor `k` of the table, as the memory has it. -/
def ListsDescriptor (maps : List MemoryMap) (t : ImportTable) (k : Nat)
    (imports : ModuleImports) : Prop :=
  t.Has k ∧ loadModuleImports maps (t.address k) = some imports

/-- Function import `i` of descriptor `k`: the library it is imported from, its NID and
its entry address. -/
def ListsImport (maps : List MemoryMap) (t : ImportTable) (k i : Nat) (libraryName : GuestString)
    (f : FunctionImport) : Prop :=
  ∃ imports, ListsDescriptor maps t k imports ∧
    loadCString maps imports.libraryName = some libraryName ∧ i < imports.numSymsFuncs.toNat ∧
    loadWord maps (imports.funcNidTable + BitVec.ofNat 32 (4 * i)) = some f.nid ∧
    loadWord maps (imports.funcEntryTable + BitVec.ofNat 32 (4 * i)) = some f.entryAddress

/-- An image whose stubs keep clear of each other and of everything the pass reads. -/
structure LinkableImage (maps : List MemoryMap) (t : ImportTable) : Prop where
  apart : maps.Pairwise MemoryMap.Apart
  named : ∀ {k imports}, ListsDescriptor maps t k imports →
    ∃ libraryName, loadCString maps imports.libraryName = some libraryName
  stubs : ∀ {k i L f k' i' L' f'}, ListsImport maps t k i L f → ListsImport maps t k' i' L' f' →
    (k, i) ≠ (k', i') → AreasApart f.entryAddress 12 f'.entryAddress 12
  descriptors : ∀ {k i L f k'}, ListsImport maps t k i L f → t.Has k' →
    AreasApart f.entryAddress 12 (t.address k') 0x34
  nidTables : ∀ {k i L f k' imports}, ListsImport maps t k i L f →
    ListsDescriptor maps t k' imports →
    AreasApart f.entryAddress 12 imports.funcNidTable (4 * imports.numSymsFuncs.toNat)
  entryTables : ∀ {k i L f k' imports}, ListsImport maps t k i L f →
    ListsDescriptor maps t k' imports →
    AreasApart f.entryAddress 12 imports.funcEntryTable (4 * imports.numSymsFuncs.toNat)
  names : ∀ {k i L f k' imports L'}, ListsImport maps t k i L f →
    ListsDescriptor maps t k' imports → loadCString maps imports.libraryName = some L' →
    AreasApart f.entryAddress 12 imports.libraryName (L'.length + 1)

/-- The three words of the stub, read as the guest reads them. -/
def HoldsStub (maps : List MemoryMap) (f : FunctionImport) : Prop :=
  loadWord maps f.entryAddress = some 0xEF000000#32 ∧
    loadWord maps (f.entryAddress + 4#32) = some 0xE1A0F00E#32 ∧
    loadWord maps (f.entryAddress + 8#32) = some f.nid

section Listed

variable {maps : List MemoryMap} {t : ImportTable}

theorem ListsDescriptor.unique {k : Nat} {imports imports' : ModuleImports}
    (h : ListsDescriptor maps t k imports) (h' : ListsDescriptor maps t k imports') :
    imports = imports' := Option.some.inj (h.2.symm.trans h'.2)

theorem ListsImport.unique {k i : Nat} {L L' : GuestString} {f f' : FunctionImport}
    (h : ListsImport maps t k i L f) (h' : ListsImport maps t k i L' f') : L = L' ∧ f = f' := by
  obtain ⟨imports, hd, hname, _, hnid, hentry⟩ := h
  obtain ⟨imports', hd', hname', _, hnid', hentry'⟩ := h'
  cases hd.unique hd'
  refine ⟨Option.some.inj (hname.symm.trans hname'), ?_⟩
  obtain ⟨nid, entryAddress⟩ := f
  obtain ⟨nid', entryAddress'⟩ := f'
  rw [FunctionImport.mk.injEq]
  exact ⟨Option.some.inj (hnid.symm.trans hnid'), Option.some.inj (hentry.symm.trans hentry')⟩

end Listed

/-! ## The memory between two rounds -/

/-- The stub of an import that comes before function `i` of descriptor `k`. -/
def StubBefore (maps₀ : List MemoryMap) (t : ImportTable) (k i : Nat) (p : HostPtr)
    (f : FunctionImport) : Prop :=
  ∃ k' i' L, (k' < k ∨ k' = k ∧ i' < i) ∧ ListsImport maps₀ t k' i' L f ∧
    getPointerUnchecked maps₀ f.entryAddress = some p

/-- The memory after the functions before function `i` of descriptor `k`: their stubs are
written, and every other byte is as it was. -/
structure Linked (maps₀ : List MemoryMap) (t : ImportTable) (k i : Nat)
    (maps : List MemoryMap) : Prop where
  same : SameMaps maps₀ maps
  kept : ∀ q, (∀ p f, StubBefore maps₀ t k i p f → q.Clear 1 p 12) →
    byteAt maps q = byteAt maps₀ q
  stub : ∀ p f, StubBefore maps₀ t k i p f → readBytes maps p 12 = .ok (stubBytes f.nid)

section Rounds

variable {maps₀ maps maps' : List MemoryMap} {t : ImportTable} {k i : Nat}

theorem Linked.start (maps₀ : List MemoryMap) (t : ImportTable) : Linked maps₀ t 0 0 maps₀ where
  same := .refl _
  kept := fun _ _ => rfl
  stub := by
    intro p f h
    obtain ⟨k', i', L, hbefore, _⟩ := h
    omega

/-- An area that all stubs keep clear of reads as in the image. -/
theorem Linked.byteAt_area (h : Linked maps₀ t k i maps) {a : Word} {n : Nat} {p : HostPtr}
    (hp : getPointerUnchecked maps₀ a = some p)
    (hclear : ∀ {k' i' L f}, ListsImport maps₀ t k' i' L f → AreasApart f.entryAddress 12 a n)
    {j : Nat} (hj : j < n) : byteAt maps (p.add j) = byteAt maps₀ (p.add j) := by
  refine h.kept _ fun q f hstub => ?_
  obtain ⟨_, _, _, _, hlists, hq⟩ := hstub
  exact ((hclear hlists).clear hq hp (by decide) (by omega)).byte hj

theorem Linked.readWord_area (h : Linked maps₀ t k i maps) {a : Word} {n : Nat} {p : HostPtr}
    (hp : getPointerUnchecked maps₀ a = some p)
    (hclear : ∀ {k' i' L f}, ListsImport maps₀ t k' i' L f → AreasApart f.entryAddress 12 a n)
    {j : Nat} (hj : j + 4 ≤ n) : readWord maps (p.add j) = readWord maps₀ (p.add j) := by
  refine readWord_congr h.same fun b hb => ?_
  rw [HostPtr.add_add]
  exact h.byteAt_area hp hclear (by omega)

/-- Writing the stub of function `i` takes the memory one function further. -/
theorem Linked.write (himage : LinkableImage maps₀ t) (h : Linked maps₀ t k i maps)
    {L : GuestString} {f : FunctionImport} {p : HostPtr} (hlists : ListsImport maps₀ t k i L f)
    (hp : getPointerUnchecked maps₀ f.entryAddress = some p)
    (hwrite : writeBytes maps p (stubBytes f.nid) = .ok maps') :
    Linked maps₀ t k (i + 1) maps' where
  same := h.same.trans (writeBytes_sameMaps hwrite)
  kept := by
    intro q hq
    have hself : StubBefore maps₀ t k (i + 1) p f :=
      ⟨k, i, L, .inr ⟨rfl, Nat.lt_succ_self i⟩, hlists, hp⟩
    have hclear : q.Clear 1 p (stubBytes f.nid).length := by
      rw [stubBytes_length]
      exact hq p f hself
    rw [writeBytes_byteAt_clear hwrite hclear]
    refine h.kept q fun p' f' hbefore => hq p' f' ?_
    obtain ⟨k', i', L', hle, hlists', hp'⟩ := hbefore
    exact ⟨k', i', L', by omega, hlists', hp'⟩
  stub := by
    intro p' f' hbefore
    obtain ⟨k', i', L', hle, hlists', hp'⟩ := hbefore
    by_cases hnow : k' = k ∧ i' = i
    · obtain ⟨rfl, rfl⟩ := hnow
      obtain ⟨_, rfl⟩ := hlists.unique hlists'
      cases hp.symm.trans hp'
      have hself := readBytes_writeBytes_self hwrite
      rwa [stubBytes_length] at hself
    · -- an earlier stub, which the new one keeps clear of
      have hne : (k', i') ≠ (k, i) := fun he => hnow (Prod.mk.inj he)
      have hclear : p'.Clear 12 p 12 :=
        (himage.stubs hlists' hlists hne).clear hp' hp (by decide) (by decide)
      rw [readBytes_writeBytes_clear hwrite (by rw [stubBytes_length]; exact hclear)]
      exact h.stub p' f' ⟨k', i', L', by omega, hlists', hp'⟩

/-- The loop over the functions registers what the image lists, from function `i` on. -/
theorem importFunctions_linked (himage : LinkableImage maps₀ t) {imports : ModuleImports}
    {L : GuestString} {nid entryAddr : HostPtr} (hd : ListsDescriptor maps₀ t k imports)
    (hname : loadCString maps₀ imports.libraryName = some L)
    (hnid : getPointerUnchecked maps₀ imports.funcNidTable = some nid)
    (hentry : getPointerUnchecked maps₀ imports.funcEntryTable = some entryAddr)
    {n i : Nat} {done fs : List FunctionImport} {maps : List MemoryMap}
    (hn : i + n = imports.numSymsFuncs.toNat) (h : Linked maps₀ t k i maps)
    (hrun : importFunctions n (nid.add (4 * i)) (entryAddr.add (4 * i)) done maps =
      .ok (some fs, maps')) :
    ∃ new, fs = done ++ new ∧ new.length = n ∧
      (∀ j f, new[j]? = some f →
        ListsImport maps₀ t k (i + j) L f ∧ Mapped maps₀ f.entryAddress) ∧
      Linked maps₀ t k (i + n) maps' := by
  induction n generalizing i done maps with
  | zero =>
    cases hrun
    exact ⟨[], by simp, rfl, by simp, h⟩
  | succ n ih =>
    have htable : 4 * i + 4 ≤ 4 * imports.numSymsFuncs.toNat := by omega
    have hnids : ∀ {i' maps}, Linked maps₀ t k i' maps →
        readWord maps (nid.add (4 * i)) = readWord maps₀ (nid.add (4 * i)) :=
      fun hl => hl.readWord_area hnid (fun hf => himage.nidTables hf hd) htable
    have hentries : ∀ {i' maps}, Linked maps₀ t k i' maps →
        readWord maps (entryAddr.add (4 * i)) = readWord maps₀ (entryAddr.add (4 * i)) :=
      fun hl => hl.readWord_area hentry (fun hf => himage.entryTables hf hd) htable
    obtain ⟨entry, hreadEntry, hrun⟩ := bind_ok.mp hrun
    cases hdata : getPointerUnchecked maps entry with
    | none =>
      rw [hdata] at hrun
      cases hrun
    | some data =>
      rw [hdata] at hrun
      obtain ⟨patchNid, hreadNid, hrun⟩ := bind_ok.mp hrun
      obtain ⟨maps₁, hpatch, hrun⟩ := bind_ok.mp hrun
      obtain ⟨importNid, hreadNid', hrun⟩ := bind_ok.mp hrun
      obtain ⟨importEntry, hreadEntry', hrun⟩ := bind_ok.mp hrun
      rw [hentries h] at hreadEntry
      rw [hnids h] at hreadNid
      have hlists : ListsImport maps₀ t k i L ⟨patchNid, entry⟩ :=
        ⟨imports, hd, hname, by omega, loadWord_add himage.apart hnid hreadNid,
          loadWord_add himage.apart hentry hreadEntry⟩
      rw [patchFunctionImportData_eq] at hpatch
      have hp := (h.same.getPointerUnchecked entry).trans hdata
      have hnext : Linked maps₀ t k (i + 1) maps₁ := h.write himage hlists hp hpatch
      -- the tables are clear of the stub just written, so the second reads give the same
      rw [hnids hnext, hreadNid] at hreadNid'
      rw [hentries hnext, hreadEntry] at hreadEntry'
      cases hreadNid'
      cases hreadEntry'
      rw [HostPtr.add_add, HostPtr.add_add, ← Nat.mul_succ] at hrun
      obtain ⟨new, hfs, hlen, hnew, hlinked⟩ := ih (by omega) hnext hrun
      refine ⟨⟨patchNid, entry⟩ :: new, by simp [hfs], by simp [hlen], ?_, ?_⟩
      · intro j f hj
        cases j with
        | zero =>
          cases hj
          exact ⟨hlists, mapped_of_some hp⟩
        | succ j =>
          have hlists' := hnew j f (by simpa using hj)
          rwa [Nat.add_assoc, Nat.add_comm 1 j] at hlists'
      · rwa [Nat.add_assoc, Nat.add_comm 1 n] at hlinked

/-- A descriptor that no stub touches is read as the image has it. -/
theorem Linked.readModuleImports (himage : LinkableImage maps₀ t) (h : Linked maps₀ t k i maps)
    {k' : Nat} (hhas : t.Has k') {p : HostPtr}
    (hp : getPointerUnchecked maps₀ (t.address k') = some p) :
    readModuleImports maps p = Loader.readModuleImports maps₀ p := by
  have hword : ∀ j, j + 4 ≤ 0x34 → readWord maps (p.add j) = readWord maps₀ (p.add j) :=
    fun j hj => h.readWord_area hp (fun hf => himage.descriptors hf hhas) hj
  have hhalf : ∀ j, j + 2 ≤ 0x34 → readHalf maps (p.add j) = readHalf maps₀ (p.add j) := by
    intro j hj
    refine readHalf_congr h.same fun b hb => ?_
    rw [HostPtr.add_add]
    exact h.byteAt_area hp (fun hf => himage.descriptors hf hhas) (by omega)
  unfold Loader.readModuleImports
  rw [hhalf 0x06 (by decide), hhalf 0x08 (by decide), hword 0x10 (by decide),
    hword 0x14 (by decide), hword 0x1C (by decide), hword 0x20 (by decide),
    hword 0x24 (by decide), hword 0x28 (by decide)]

/-- A registered library is that of descriptor `k`, with an entry to patch for every
function. -/
def ListsLibrary (maps : List MemoryMap) (t : ImportTable) (k : Nat)
    (library : FunctionImportLibrary) : Prop :=
  ∃ imports, ListsDescriptor maps t k imports ∧
    loadCString maps imports.libraryName = some library.libraryName ∧
    library.functionImports.length = imports.numSymsFuncs.toNat ∧
    ∀ i f, library.functionImports[i]? = some f →
      ListsImport maps t k i library.libraryName f ∧ Mapped maps f.entryAddress

/-- The name the pass reads is the one the image has. -/
theorem Linked.readName (himage : LinkableImage maps₀ t) (h : Linked maps₀ t k i maps)
    {k' : Nat} {imports : ModuleImports} (hd : ListsDescriptor maps₀ t k' imports)
    {name : GuestString}
    (hname : readCString maps (getPointerUnchecked maps imports.libraryName) = .ok name) :
    loadCString maps₀ imports.libraryName = some name := by
  obtain ⟨L, hL⟩ := himage.named hd
  have hread := toOption_eq_some.mp hL
  rw [h.same.getPointerUnchecked] at hread
  cases hq : getPointerUnchecked maps imports.libraryName with
  | none =>
    rw [hq] at hname
    cases hname
  | some q =>
    rw [hq] at hname hread
    have hnow := readCString_congr hread fun j hj => h.byteAt_area
      ((h.same.getPointerUnchecked _).trans hq) (fun hf => himage.names hf hd hL) hj
    cases hnow.symm.trans hname
    exact hL

/-- The functions before the next descriptor are those before the end of this one. -/
theorem stubBefore_succ_iff {imports : ModuleImports} (hd : ListsDescriptor maps₀ t k imports)
    {p : HostPtr} {f : FunctionImport} :
    StubBefore maps₀ t (k + 1) 0 p f ↔ StubBefore maps₀ t k imports.numSymsFuncs.toNat p f := by
  constructor
  · rintro ⟨k', i', L', hle, hlists, hp⟩
    refine ⟨k', i', L', ?_, hlists, hp⟩
    by_cases hk : k' = k
    · subst hk
      obtain ⟨imports', hd', _, hi', _⟩ := hlists
      cases hd.unique hd'
      omega
    · omega
  · rintro ⟨k', i', L', hle, hlists, hp⟩
    exact ⟨k', i', L', by omega, hlists, hp⟩

/-- The end of a descriptor is the beginning of the next. -/
theorem Linked.succ {imports : ModuleImports} (hd : ListsDescriptor maps₀ t k imports)
    (h : Linked maps₀ t k imports.numSymsFuncs.toNat maps) : Linked maps₀ t (k + 1) 0 maps where
  same := h.same
  kept := fun q hq => h.kept q fun p f hstub => hq p f ((stubBefore_succ_iff hd).mpr hstub)
  stub := fun p f hstub => h.stub p f ((stubBefore_succ_iff hd).mp hstub)

/-- One round registers the library that the image lists, and takes the memory to the
next descriptor. -/
theorem importLibrary_linked (himage : LinkableImage maps₀ t) (h : Linked maps₀ t k 0 maps)
    (hhas : t.Has k) {import_ : HostPtr} {library : FunctionImportLibrary}
    (hp : getPointerUnchecked maps₀ (t.address k) = some import_)
    (hrun : importLibrary import_ maps = .ok (some library, maps')) :
    ListsLibrary maps₀ t k library ∧ Linked maps₀ t (k + 1) 0 maps' := by
  rcases importLibrary_cases hrun with ⟨hnone, _⟩ |
    ⟨imports, nid, entryAddr, name, functionImports, himports, hnid, hentry, hname, hfunctions,
      hlibrary⟩
  · cases hnone
  · obtain ⟨fs, rfl, rfl⟩ := hlibrary library rfl
    rw [h.readModuleImports himage hhas hp] at himports
    have hd : ListsDescriptor maps₀ t k imports := by
      refine ⟨hhas, ?_⟩
      rw [loadModuleImports, hp, Option.bind_some, himports]
      rfl
    have hL := h.readName himage hd hname
    rw [← h.same.getPointerUnchecked] at hnid hentry
    obtain ⟨new, hfs, hlen, hnew, hlinked⟩ := importFunctions_linked himage hd hL hnid hentry
      (Nat.zero_add _) h hfunctions
    rw [List.nil_append] at hfs
    rw [Nat.zero_add] at hlinked
    subst hfs
    refine ⟨⟨imports, hd, hL, hlen, fun j f hj => ?_⟩, hlinked.succ hd⟩
    have hlists := hnew j f hj
    rwa [Nat.zero_add] at hlists

/-- The loop over the descriptors registers the libraries of all of them, in order. -/
theorem importLibraries_linked (himage : LinkableImage maps₀ t) {fuel k : Nat}
    {done libraries : List FunctionImportLibrary} {maps : List MemoryMap}
    (hbefore : ∀ j < k, t.start j < t.importEnd) (h : Linked maps₀ t k 0 maps)
    (hrun : importLibraries t.importEnd t.baseAddress fuel (t.start k) done maps =
      .ok (some libraries, maps')) :
    ∃ new, libraries = done ++ new ∧
      (∀ j library, new[j]? = some library → ListsLibrary maps₀ t (k + j) library) ∧
      ¬ t.Has (k + new.length) ∧ Linked maps₀ t (k + new.length) 0 maps' := by
  induction fuel generalizing k done maps with
  | zero => cases hrun
  | succ fuel ih =>
    rw [importLibraries] at hrun
    split at hrun
    · rename_i hstart
      have hhas : t.Has k := fun j hj => by
        rcases Nat.lt_or_eq_of_le hj with hlt | rfl
        · exact hbefore j hlt
        · exact hstart
      cases himport : getPointerUnchecked maps (t.baseAddress + t.start k) with
      | none =>
        rw [himport] at hrun
        cases hrun
      | some import_ =>
        rw [himport] at hrun
        obtain ⟨⟨library, maps₁⟩, hlibrary, hrun⟩ := bind_ok.mp hrun
        cases library with
        | none => cases hrun
        | some library =>
          have hp : getPointerUnchecked maps₀ (t.address k) = some import_ :=
            (h.same.getPointerUnchecked _).trans himport
          obtain ⟨hlists, hnext⟩ := importLibrary_linked himage h hhas hp hlibrary
          simp only [← t.start_succ] at hrun
          obtain ⟨new, hlibs, hnew, hend, hlinked⟩ :=
            ih (fun j hj => hhas j (Nat.le_of_lt_succ hj)) hnext hrun
          have hlen : k + 1 + new.length = k + (library :: new).length := by
            rw [List.length_cons]
            omega
          rw [hlen] at hend hlinked
          refine ⟨library :: new, by simp [hlibs], ?_, hend, hlinked⟩
          intro j lib hj
          cases j with
          | zero =>
            cases hj
            exact hlists
          | succ j =>
            have hnth : k + 1 + j = k + (j + 1) := by omega
            exact hnth ▸ hnew j lib (by simpa using hj)
    · rename_i hstart
      cases hrun
      exact ⟨[], by simp, by simp, fun hhas => hstart (hhas k (Nat.le_refl k)), h⟩

/-- A run that returns `true` registers one module, with the libraries of all descriptors. -/
theorem addModuleImports_linked {fuel : Nat} {modinfo : HostPtr} {modules : List RuntimeModule}
    (ht : readImportTable maps modinfo t.baseAddress = .ok t) (himage : LinkableImage maps t)
    (hrun : addModuleImports fuel modinfo t.baseAddress maps [] = .ok (true, maps', modules)) :
    ∃ name nid libraries, modules = [⟨name, nid, libraries⟩] ∧
      (∀ j library, libraries[j]? = some library → ListsLibrary maps t j library) ∧
      ¬ t.Has libraries.length ∧ Linked maps t libraries.length 0 maps' := by
  obtain ⟨importTop, importEnd, libraries, htop, hend, hlibraries, hresult⟩ :=
    addModuleImports_cases hrun
  rcases hresult with ⟨hfalse, _⟩ | ⟨libs, name, nid, _, rfl, rfl⟩
  · cases hfalse
  · have hbounds : importTop = t.importTop ∧ importEnd = t.importEnd := by
      simp only [readImportTable, htop, hend, ok_bind] at ht
      have heq := Except.ok.inj ht
      exact ⟨congrArg ImportTable.importTop heq, congrArg ImportTable.importEnd heq⟩
    obtain ⟨rfl, rfl⟩ := hbounds
    have hstart : t.start 0 = t.importTop := by simp [ImportTable.start]
    rw [← hstart] at hlibraries
    obtain ⟨new, hnew, hlists, hno, hlinked⟩ := importLibraries_linked himage (by simp)
      (Linked.start maps t) hlibraries
    rw [List.nil_append] at hnew
    subst hnew
    rw [Nat.zero_add] at hno hlinked
    refine ⟨name, nid, libs, rfl, fun j library hj => ?_, hno, hlinked⟩
    have hlists' := hlists j library hj
    rwa [Nat.zero_add] at hlists'

/-- Every import the image lists is one of a registered library, and its entry is mapped. -/
theorem ListsImport.registered {libraries : List FunctionImportLibrary}
    (hlists : ∀ j library, libraries[j]? = some library → ListsLibrary maps t j library)
    (hno : ¬ t.Has libraries.length) {L : GuestString} {f : FunctionImport}
    (h : ListsImport maps t k i L f) :
    k < libraries.length ∧ Mapped maps f.entryAddress ∧
      ∃ library ∈ libraries, library.libraryName = L ∧ f ∈ library.functionImports := by
  have h' := h
  obtain ⟨imports, hd, hname, hi, _⟩ := h'
  have hk : k < libraries.length := by
    by_contra hge
    exact hno fun j hj => hd.1 j (by omega)
  obtain ⟨imports', hd', hname', hlen, hfunctions⟩ := hlists k _ (List.getElem?_eq_getElem hk)
  cases hd.unique hd'
  rw [← hlen] at hi
  obtain ⟨hf, hmapped⟩ := hfunctions i _ (List.getElem?_eq_getElem hi)
  obtain ⟨hL, rfl⟩ := hf.unique h
  exact ⟨hk, hmapped, libraries[k], List.getElem_mem hk, hL, List.getElem_mem hi⟩

/-- And every import of a registered library is one the image lists. -/
theorem ListsImport.of_registered {libraries : List FunctionImportLibrary}
    (hlists : ∀ j library, libraries[j]? = some library → ListsLibrary maps t j library)
    {library : FunctionImportLibrary} {f : FunctionImport} (hlibrary : library ∈ libraries)
    (hf : f ∈ library.functionImports) :
    ∃ k i, ListsImport maps t k i library.libraryName f := by
  obtain ⟨k, hk, rfl⟩ := List.getElem_of_mem hlibrary
  obtain ⟨i, hi, rfl⟩ := List.getElem_of_mem hf
  obtain ⟨_, _, _, _, hfunctions⟩ := hlists k _ (List.getElem?_eq_getElem hk)
  exact ⟨k, i, (hfunctions i _ (List.getElem?_eq_getElem hi)).1⟩

/-- Two imports at one entry address are one import. -/
theorem LinkableImage.entry_unique (himage : LinkableImage maps t) {k' i' : Nat}
    {L L' : GuestString} {f f' : FunctionImport} (h : ListsImport maps t k i L f)
    (h' : ListsImport maps t k' i' L' f') (he : f.entryAddress = f'.entryAddress) :
    L = L' ∧ f = f' := by
  by_cases hindex : (k, i) = (k', i')
  · cases hindex
    exact h.unique h'
  · exact absurd (congrArg (· + BitVec.ofNat 32 0) he)
      (himage.stubs h h' hindex 0 (by decide) 0 (by decide))

end Rounds

/-! ## The linked program -/

/-- The stub's bytes are its three words, at their guest addresses. -/
theorem holdsStub_of_readBytes {maps : List MemoryMap} (hapart : maps.Pairwise MemoryMap.Apart)
    {f : FunctionImport} {p : HostPtr} (hp : getPointerUnchecked maps f.entryAddress = some p)
    (h : readBytes maps p 12 = .ok (stubBytes f.nid)) : HoldsStub maps f := by
  have hword : ∀ (j : Nat) (w : Word), j + 4 ≤ 12 →
      slice (stubBytes f.nid) j 4 = encode 4 w.toNat →
      loadWord maps (f.entryAddress + BitVec.ofNat 32 j) = some w := by
    intro j w hj hslice
    refine loadWord_add hapart hp ?_
    rw [readWord, readBytes_slice h hj, hslice, ok_bind, decode_encode,
      Nat.mod_eq_of_lt (by exact w.isLt), BitVec.ofNat_toNat, BitVec.setWidth_eq]
    rfl
  obtain ⟨hslice, hslice4, hslice8⟩ := stubBytes_words f.nid
  refine ⟨?_, hword 4 _ (by decide) hslice4, hword 8 _ (by decide) hslice8⟩
  have hfirst := hword 0 0xEF000000#32 (by decide) hslice
  rwa [BitVec.add_zero] at hfirst

/-- `init_modules` and `resolve_runtime_modules` after the registered modules. -/
def linkedRuntime (modules : List RuntimeModule) : Runtime :=
  ({ Runtime.new with runtimeModuleList := modules } : Runtime).initModules.resolveRuntimeModules

/-- Import linking: an import pass that returns `true`, over an image whose stubs keep
clear of the tables, leaves at every listed entry address the stub of its NID; a
supervisor call from there finds the library, the NID and the emulator's function for it,
and none is found from anywhere else. What is listed is all there is: every function of
every descriptor has a listed import. -/
theorem import_linking {fuel : Nat} {maps maps' : List MemoryMap} {modinfo : HostPtr}
    {t : ImportTable} {modules : List RuntimeModule}
    (ht : readImportTable maps modinfo t.baseAddress = .ok t) (himage : LinkableImage maps t)
    (hrun : addModuleImports fuel modinfo t.baseAddress maps [] = .ok (true, maps', modules)) :
    (∀ k i L f, ListsImport maps t k i L f →
      let function := getFunctionFromModuleList (linkedRuntime modules).moduleList f.nid
      HoldsStub maps' f ∧
      (linkedRuntime modules).getFunctionFromAddress f.entryAddress =
        some ⟨L, f.nid, function⟩ ∧
      ∀ kernel, handleSvc (linkedRuntime modules) kernel (f.entryAddress + 4#32) =
        match function with
        | none => (kernel, .stopped)
        | some function => (kernel.setCore 0, .called function.funcWrapper)) ∧
    (∀ address svc, (linkedRuntime modules).getFunctionFromAddress address = some svc →
      ∃ k i L f, ListsImport maps t k i L f ∧ f.entryAddress = address) ∧
    ∀ k, t.Has k → ∃ imports, ListsDescriptor maps t k imports ∧
      ∀ i < imports.numSymsFuncs.toNat, ∃ L f, ListsImport maps t k i L f := by
  obtain ⟨name, nid, libraries, rfl, hlists, hno, hlinked⟩ :=
    addModuleImports_linked ht himage hrun
  have hmap : ∀ address, (linkedRuntime [⟨name, nid, libraries⟩]).getFunctionFromAddress address =
      insertAll (fun _ => none) (svcCalls (linkedRuntime [⟨name, nid, libraries⟩]).moduleList
        [⟨name, nid, libraries⟩]) address :=
    fun address => congrFun (resolveModules_eq _ _ _) address
  refine ⟨fun k i L f hf => ?_, fun address svc hsvc => ?_, fun k hhas => ?_⟩
  · obtain ⟨hk, hmapped, library, hlibrary, hname, hmem⟩ := hf.registered hlists hno
    have hfound : (linkedRuntime [⟨name, nid, libraries⟩]).getFunctionFromAddress f.entryAddress =
        some ⟨L, f.nid, getFunctionFromModuleList
          (linkedRuntime [⟨name, nid, libraries⟩]).moduleList f.nid⟩ := by
      rw [hmap]
      refine insertAll_of_mem (mem_svcCalls.mpr ⟨_, List.mem_singleton_self _, library, hlibrary, f,
        hmem, by rw [FunctionImportLibrary.svcCall, hname]⟩) fun svc hsvc => ?_
      -- whatever else is filed under the address comes from the same import
      obtain ⟨mod, hmod, library', hlibrary', f', hf', he⟩ := mem_svcCalls.mp hsvc
      cases List.mem_singleton.mp hmod
      obtain ⟨k', i', hlisted⟩ := ListsImport.of_registered hlists hlibrary' hf'
      simp only [FunctionImportLibrary.svcCall, Prod.mk.injEq] at he
      obtain ⟨hL, rfl⟩ := himage.entry_unique hf hlisted he.1
      rw [he.2, hL]
    refine ⟨?_, hfound, fun kernel => handleSvc_of_found hfound kernel⟩
    obtain ⟨p, hp⟩ := mapped_iff.mp hmapped
    exact holdsStub_of_readBytes (hlinked.same.apart himage.apart)
      ((hlinked.same.getPointerUnchecked _).symm.trans hp)
      (hlinked.stub p f ⟨k, i, L, .inl hk, hf, hp⟩)
  · rw [hmap] at hsvc
    rcases mem_of_insertAll hsvc with hmem | hnone
    · obtain ⟨mod, hmod, library, hlibrary, f, hf, he⟩ := mem_svcCalls.mp hmem
      cases List.mem_singleton.mp hmod
      obtain ⟨k, i, hlisted⟩ := ListsImport.of_registered hlists hlibrary hf
      exact ⟨k, i, _, f, hlisted, (Prod.mk.inj he).1.symm⟩
    · cases hnone
  · have hk : k < libraries.length := by
      by_contra hge
      exact hno fun j hj => hhas j (by omega)
    obtain ⟨imports, hd, _, hlen, hfunctions⟩ := hlists k _ (List.getElem?_eq_getElem hk)
    refine ⟨imports, hd, fun i hi => ?_⟩
    rw [← hlen] at hi
    exact ⟨_, _, (hfunctions i _ (List.getElem?_eq_getElem hi)).1⟩

/-! ### One import -/

/-- A module info at `0x1000`, one descriptor at `0x1060`, and its tables, name and stub. -/
def oneImportData : List Byte :=
  List.replicate 0x2C 0 ++ encode 4 0x60 ++ encode 4 0x94 ++ List.replicate 0x2C 0 ++
    encode 2 0x34 ++ List.replicate 4 0 ++ encode 2 1 ++ List.replicate 0x0C 0 ++
    encode 4 0x10A0 ++ List.replicate 4 0 ++ encode 4 0x1098 ++ encode 4 0x109C ++
    List.replicate 0x14 0 ++
    encode 4 0x632980D7 ++ encode 4 0x10A4 ++ [0x4C#8, 0, 0, 0] ++ List.replicate 12 0

set_option maxRecDepth 8000 in
def oneImportMap : MemoryMap where
  name := "self"
  start := 0x1000#32
  end_ := 0x10AF#32
  size := 0xB0#32
  protection := 7#8
  data := oneImportData
  size_eq := by decide
  data_length := by decide

def oneImportTable : ImportTable := ⟨0x1000#32, 0x60#32, 0x94#32⟩

/-- `sceClibMemset`, from a library named `L`. -/
def oneImport : FunctionImport := ⟨0x632980D7#32, 0x10A4#32⟩

def oneImportDescriptor : ModuleImports :=
  ⟨1#16, 0#16, 0#32, 0x10A0#32, 0x1098#32, 0x109C#32, 0#32, 0#32⟩

theorem oneImport_lists {k : Nat} {imports : ModuleImports}
    (h : ListsDescriptor [oneImportMap] oneImportTable k imports) :
    k = 0 ∧ imports = oneImportDescriptor := by
  obtain ⟨hhas, hload⟩ := h
  have hk : k = 0 := by
    have hlt := (oneImportTable.has_iff (by decide) k).mp hhas
    simp only [oneImportTable, BitVec.reduceToNat] at hlt
    omega
  subst hk
  have hdescriptor : loadModuleImports [oneImportMap] (oneImportTable.address 0) =
      some oneImportDescriptor := by decide +kernel
  exact ⟨rfl, Option.some.inj (hload.symm.trans hdescriptor)⟩

theorem oneImport_only {k i : Nat} {L : GuestString} {f : FunctionImport}
    (h : ListsImport [oneImportMap] oneImportTable k i L f) :
    k = 0 ∧ i = 0 ∧ L = [0x4C#8] ∧ f = oneImport := by
  obtain ⟨imports, hd, hname, hi, hnid, hentry⟩ := h
  obtain ⟨rfl, rfl⟩ := oneImport_lists hd
  have hi0 : i = 0 := by
    have hlt : i < 1 := hi
    omega
  subst hi0
  have hname' : loadCString [oneImportMap] 0x10A0#32 = some [0x4C#8] := by decide +kernel
  have hnid' : loadWord [oneImportMap] 0x1098#32 = some 0x632980D7#32 := by decide +kernel
  have hentry' : loadWord [oneImportMap] 0x109C#32 = some 0x10A4#32 := by decide +kernel
  obtain ⟨nid, entryAddress⟩ := f
  refine ⟨rfl, rfl, Option.some.inj (hname.symm.trans hname'), ?_⟩
  rw [oneImport, FunctionImport.mk.injEq]
  exact ⟨Option.some.inj (hnid.symm.trans hnid'), Option.some.inj (hentry.symm.trans hentry')⟩

theorem oneImport_linkable : LinkableImage [oneImportMap] oneImportTable where
  apart := List.pairwise_singleton _ _
  named := by
    intro k imports hd
    obtain ⟨_, rfl⟩ := oneImport_lists hd
    exact ⟨[0x4C#8], by decide +kernel⟩
  stubs := by
    intro k i L f k' i' L' f' h h' hne
    obtain ⟨rfl, rfl, _⟩ := oneImport_only h
    obtain ⟨rfl, rfl, _⟩ := oneImport_only h'
    exact absurd rfl hne
  descriptors := by
    intro k i L f k' h hhas
    obtain ⟨_, _, _, rfl⟩ := oneImport_only h
    have hlt := (oneImportTable.has_iff (by decide) k').mp hhas
    have hk : k' = 0 := by
      simp only [oneImportTable, BitVec.reduceToNat] at hlt
      omega
    subst hk
    decide +kernel
  nidTables := by
    intro k i L f k' imports h hd
    obtain ⟨_, _, _, rfl⟩ := oneImport_only h
    obtain ⟨_, rfl⟩ := oneImport_lists hd
    decide +kernel
  entryTables := by
    intro k i L f k' imports h hd
    obtain ⟨_, _, _, rfl⟩ := oneImport_only h
    obtain ⟨_, rfl⟩ := oneImport_lists hd
    decide +kernel
  names := by
    intro k i L f k' imports L' h hd hname
    obtain ⟨_, _, _, rfl⟩ := oneImport_only h
    obtain ⟨_, rfl⟩ := oneImport_lists hd
    have hname' : loadCString [oneImportMap] 0x10A0#32 = some [0x4C#8] := by decide +kernel
    cases hname.symm.trans hname'
    decide +kernel

/-- The one import is patched, and a call from its stub gets to the host's `sceClibMemset`. -/
theorem import_linking_one :
    HoldsStub [oneImportMap.store 0xA4 (stubBytes 0x632980D7#32)] oneImport ∧
    handleSvc (linkedRuntime [⟨[], 0, [⟨[0x4C#8], 0, [oneImport]⟩]⟩]) Kernel.new 0x10A8#32 =
      (Kernel.new.setCore 0, .called .sceClibMemset) := by
  have hlists : ListsImport [oneImportMap] oneImportTable 0 0 [0x4C#8] oneImport :=
    ⟨oneImportDescriptor,
      ⟨fun j hj => by obtain rfl := Nat.le_zero.mp hj; decide, by decide +kernel⟩,
      by decide +kernel, by decide, by decide +kernel, by decide +kernel⟩
  have ht : readImportTable [oneImportMap] ⟨0, 0⟩ oneImportTable.baseAddress =
      .ok oneImportTable := by decide +kernel
  have hrun : addModuleImports 2 ⟨0, 0⟩ oneImportTable.baseAddress [oneImportMap] [] =
      .ok (true, [oneImportMap.store 0xA4 (stubBytes 0x632980D7#32)],
        [⟨[], 0, [⟨[0x4C#8], 0, [oneImport]⟩]⟩]) := by decide +kernel
  obtain ⟨hlinked, _⟩ := import_linking ht oneImport_linkable hrun
  obtain ⟨hstub, _, hcall⟩ := hlinked 0 0 [0x4C#8] oneImport hlists
  exact ⟨hstub, hcall Kernel.new⟩

end Betavita.Loader
