import Betavita.Vfs.View

/-!
# vfs.cpp — createFile and the tree it leaves

The loop of `createFile` enters the directories it finds. Where it finds nothing it adds a
file, if it is at the last branch, so that what a call creates can be told from the tree.
-/

namespace Betavita.Vfs

open PathWalk Results

/-! ## A new file -/

section Appended

variable {fs fs' : VirtualFilesystem} {r : Ref} {d : Directory} {file : AbstractFile}
  (hadded : Appended fs fs' r d file) (h : fs.WellFormed) {top : Ref} {dtop : Directory}
  (htop : fs.directories top = some dtop) (hself : dtop.previousDirectory = top)
  {dir : List Name} (hr : fs.dirAt top dir = some r) (hd : fs.directories r = some d)
  (habsent : d.findFile file.name = none)
include hadded h htop hself hr hd habsent

/-- The new directory is where the new file is, the others are where they were. -/
theorem Appended.dirAt (path : List Name) :
    fs'.dirAt top path =
      if path = dir ++ [file.name] then file.directory else fs.dirAt top path := by
  induction path using List.reverseRecOn with
  | nil => simp [VirtualFilesystem.dirAt_nil]
  | append_singleton path n ih =>
    rw [VirtualFilesystem.dirAt_concat, ih]
    by_cases hnew : path = dir ++ [file.name]
    · have hne : path ++ [n] ≠ dir ++ [file.name] := by simp [hnew]
      have hnone : fs.dirAt top path = none := by
        rw [hnew, VirtualFilesystem.dirAt_concat, hr, Option.bind_some, hd, Option.bind_some,
          habsent, Option.bind_none]
      rw [if_pos hnew, if_neg hne, VirtualFilesystem.dirAt_concat, hnone]
      cases hk : file.directory with
      | none => rfl
      | some k => rw [Option.bind_some, hadded.empty k hk]; rfl
    rw [if_neg hnew]
    by_cases hdir : path = dir
    · rw [hdir, hr, Option.bind_some, hadded.changed, Option.bind_some,
        d.append_findFile habsent, VirtualFilesystem.dirAt_concat, hr, Option.bind_some, hd]
      by_cases hn : n = file.name <;> simp [hn]
    · have hne : path ++ [n] ≠ dir ++ [file.name] := fun heq => hdir (List.append_inj' heq rfl).1
      rw [if_neg hne, VirtualFilesystem.dirAt_concat]
      cases hx : fs.dirAt top path with
      | none => rfl
      | some x =>
        have hxr : x ≠ r := by
          rintro rfl
          exact hdir (h.dirAt_injective htop hself hx hr)
        obtain ⟨dx, hdx⟩ := h.dirAt_live htop hx
        rw [Option.bind_some, Option.bind_some, hdx, hadded.kept x dx hxr hdx]

/-- The tree has one more entry. -/
theorem Appended.treeAt (htag : file.type = FILE_TYPE_DIRECTORY ↔ file.directory.isSome) :
    fs'.treeAt top = (fs.treeAt top).append isDirectory dir file.name file.type := by
  funext path
  rw [VirtualFilesystem.treeAt, hadded.dirAt h htop hself hr hd habsent, Tree.append]
  by_cases hdir : path = dir
  · have hne : path ≠ dir ++ [file.name] := by simp [hdir]
    rw [if_neg hne, if_pos hdir, hdir, VirtualFilesystem.treeAt_of_dirAt hr hd, hr,
      Option.bind_some, hadded.changed]
    simp [Directory.entries]
  by_cases hnew : path = dir ++ [file.name]
  · rw [if_pos hnew, if_neg hdir, if_pos hnew]
    cases hk : file.directory with
    | none =>
      rw [hk] at htag
      simp [isDirectory, htag]
    | some k =>
      rw [hk] at htag
      simp [isDirectory, htag, hadded.empty k hk, Directory.entries]
  rw [if_neg hnew, if_neg hdir, if_neg hnew, VirtualFilesystem.treeAt]
  refine Option.bind_congr fun x hx => ?_
  have hxr : x ≠ r := by
    rintro rfl
    exact hdir (h.dirAt_injective htop hself hx hr)
  obtain ⟨dx, hdx⟩ := h.dirAt_live htop hx
  rw [hdx, hadded.kept x dx hxr hdx]

end Appended

/-! ## The loop -/

/-- What the loop yields, given what is created below `top`: its own filesystem with `false`,
or one with `true` whose tree is the new one. -/
def LoopYields (fs : VirtualFilesystem) (top : Ref) (new : Option (Tree Name Int))
    (result : Except Fault (VirtualFilesystem × Bool)) : Prop :=
  match new with
  | none => result = .ok (fs, false)
  | some T => ∃ fs', result = .ok (fs', true) ∧ fs'.mountpoints = fs.mountpoints ∧
      fs'.treeAt top = T

theorem componentOf_name {i : Name} (hup : i ≠ ['.', '.']) (hdot : i ≠ ['.']) :
    componentOf i = .name i := by
  rw [componentOf, if_neg hup, if_neg hdot]

/-- The loop creates what is created in the tree. -/
theorem createLoop_createFrom {fs : VirtualFilesystem} (h : fs.WellFormed) {top : Ref}
    {dtop : Directory} (htop : fs.directories top = some dtop)
    (hself : dtop.previousDirectory = top) (fileType : Int) {dir : List Name} {r : Ref}
    (hr : fs.dirAt top dir = some r) (x : Nat) (branches : List Name) :
    LoopYields fs top (createFrom isDirectory (fs.treeAt top) creatable fileType dir
        (branches.map componentOf))
      (createLoop fileType (x + branches.length) fs r x branches) := by
  induction branches generalizing dir r x with
  | nil => exact ⟨fs, rfl, rfl, rfl⟩
  | cons i branches ih =>
    have hsize : x + (i :: branches).length = x + 1 + branches.length := by
      rw [List.length_cons]
      omega
    obtain ⟨d, hd⟩ := h.dirAt_live htop hr
    rw [List.map_cons]
    by_cases hup : i = ['.', '.']
    · subst hup
      have hstep : step isDirectory (fs.treeAt top) ⟨dir, none⟩ (componentOf ['.', '.']) =
          some ⟨dir.dropLast, none⟩ := rfl
      rw [createFrom_cons_some hstep, createLoop_up hd, hsize]
      exact ih (h.dirAt_previous htop hself hr hd) (x + 1)
    by_cases hdot : i = ['.']
    · subst hdot
      have hstep : step isDirectory (fs.treeAt top) ⟨dir, none⟩ (componentOf ['.']) =
          some ⟨dir, none⟩ := rfl
      rw [createFrom_cons_some hstep, createLoop_stay, hsize]
      exact ih hr (x + 1)
    have hkind := VirtualFilesystem.treeAt_kind hr hd i
    rw [componentOf_name hup hdot]
    cases hfile : d.findFile i with
    | some file =>
      rw [hfile, Option.map_some] at hkind
      have hstep : step isDirectory (fs.treeAt top) ⟨dir, none⟩ (.name i) =
          some (.entry dir i (isDirectory file.type)) := by simp [step, hkind]
      rw [createFrom_cons_some hstep, createLoop_found hd hup hdot hfile]
      by_cases htype : file.type = FILE_TYPE_DIRECTORY
      · obtain ⟨k, hk, hcast, -⟩ := h.toDirectory hd (Directory.findFile_some hfile).1 htype
        rw [if_neg (not_not.mpr htype), hcast, ok_bind, hsize]
        simpa [Position.entry, isDirectory, htype] using
          ih (VirtualFilesystem.dirAt_enter hr hd hfile hk) (x + 1)
      · rw [if_pos htype]
        simp [LoopYields, Position.entry, isDirectory, htype]
    | none =>
      rw [hfile, Option.map_none] at hkind
      rw [createFrom_cons_none hkind]
      split_ifs with hlast
      · obtain ⟨hnil, hcreatable⟩ := Bool.and_eq_true_iff.mp hlast
        rw [List.isEmpty_iff, List.map_eq_nil_iff] at hnil
        subst hnil
        obtain ⟨fs', file, hloop, rfl, rfl, htag, hadded, -⟩ :=
          createLoop_last hd h hup hdot hfile hcreatable x
        exact ⟨fs', hloop, hadded.mountpoints, hadded.treeAt h htop hself hr hd hfile htag⟩
      · rw [List.isEmpty_map] at hlast
        exact createLoop_missing hd hup hdot hfile hlast

/-! ## createFile -/

/-- What `createFile` is to make of the tree. -/
def VirtualFilesystem.created (fs : VirtualFilesystem) (fileType : Int)
    (components : List Name) : Option (Tree Name Int) :=
  create isDirectory fs.tree creatable fileType (components.map componentOf)

section Mounted

variable {fs : VirtualFilesystem} (h : fs.WellFormed) {mp : MountPoint}
  (hmp : fs.mountpoints ['u', 'x', '0'] = some mp)
include h hmp

theorem createFile_yields (fileType : Int) (path : List Char) :
    LoopYields { fs with scanner := (parse path).2 } mp.root
      (fs.created fileType (parse path).1) (fs.createFile fileType path) := by
  have hwf := h.setScanner (parse path).2
  have hroot := VirtualFilesystem.ux0Root_eq { fs with scanner := (parse path).2 } hmp
  obtain ⟨d, hd, hself⟩ := h.roots _ mp hmp
  have hnil := VirtualFilesystem.dirAt_nil { fs with scanner := (parse path).2 } mp.root
  have hloop := createLoop_createFrom hwf hd hself fileType hnil 0 (parse path).1
  rw [Nat.zero_add] at hloop
  rw [VirtualFilesystem.created, VirtualFilesystem.tree_eq hmp]
  simp only [VirtualFilesystem.createFile, hroot, ok_bind]
  exact hloop

/-- `createFile` makes of the tree what it is to make of it, or fails and leaves everything as
it was. -/
theorem createFile_created (fileType : Int) (path : List Char) :
    ∃ fs' created, fs.createFile fileType path = .ok (fs', created) ∧ fs'.WellFormed ∧
      fs'.mountpoints = fs.mountpoints ∧
      ((created = false ∧ fs.created fileType (parse path).1 = none ∧
          fs' = { fs with scanner := (parse path).2 }) ∨
        (created = true ∧ fs.created fileType (parse path).1 = some fs'.tree)) := by
  obtain ⟨fs', created, hrun, hwf, hmount, -⟩ := createFile_ok h hmp fileType path
  refine ⟨fs', created, hrun, hwf, hmount, ?_⟩
  have hyields := createFile_yields h hmp fileType path
  rw [hrun] at hyields
  cases hcreated : fs.created fileType (parse path).1 with
  | none =>
    rw [hcreated] at hyields
    cases hyields
    exact .inl ⟨rfl, rfl, rfl⟩
  | some T =>
    rw [hcreated] at hyields
    obtain ⟨fs'', heq, -, htree⟩ := hyields
    cases heq
    refine .inr ⟨rfl, ?_⟩
    rw [VirtualFilesystem.tree_eq (hmount ▸ hmp), htree]

end Mounted

/-- Of the components only the last is missing, a name, from the directory at `dir`. -/
def VirtualFilesystem.LastMissing (fs : VirtualFilesystem) (components : List Name)
    (dir : List Name) (n : Name) : Prop :=
  ∃ init, components = init ++ [n] ∧ n ≠ ['.', '.'] ∧ n ≠ ['.'] ∧
    fs.resolve init = some ⟨dir, none⟩ ∧ fs.tree.kind dir n = none

/-- The components lead to an entry of type `type`. -/
def VirtualFilesystem.LeadsTo (fs : VirtualFilesystem) (components : List Name) (type : Int) :
    Prop :=
  PathWalk.LeadsTo isDirectory fs.tree (components.map componentOf) type

theorem componentOf_eq_name {i n : Name} (h : componentOf i = .name n) :
    i = n ∧ n ≠ ['.', '.'] ∧ n ≠ ['.'] := by
  unfold componentOf at h
  split_ifs at h with hup hdot
  cases h
  exact ⟨rfl, hup, hdot⟩

theorem VirtualFilesystem.lastMissing_iff (fs : VirtualFilesystem) (components : List Name)
    (dir : List Name) (n : Name) :
    fs.LastMissing components dir n ↔
      Missing isDirectory fs.tree (components.map componentOf) dir n := by
  constructor
  · rintro ⟨init, rfl, hup, hdot, hinit, hn⟩
    refine ⟨init.map componentOf, ?_, hinit, hn⟩
    rw [List.map_append, List.map_singleton, componentOf_name hup hdot]
  · rintro ⟨walked, hwalked, hinit, hn⟩
    obtain ⟨init, last, rfl, rfl, hlast⟩ := List.map_eq_append_iff.mp hwalked
    obtain ⟨i, rfl, hi⟩ := List.map_eq_singleton_iff.mp hlast
    obtain ⟨rfl, hup, hdot⟩ := componentOf_eq_name hi
    exact ⟨init, rfl, hup, hdot, hinit, hn⟩

theorem VirtualFilesystem.created_eq_some_iff (fs : VirtualFilesystem) (fileType : Int)
    (components : List Name) (T : Tree Name Int) :
    fs.created fileType components = some T ↔
      (fs.tree = T ∧ ∃ dir, fs.resolve components = some ⟨dir, none⟩) ∨
      (creatable fileType = true ∧ ∃ dir n, fs.LastMissing components dir n ∧
        fs.tree.append isDirectory dir n fileType = T) := by
  simp only [VirtualFilesystem.lastMissing_iff]
  exact create_eq_some_iff

theorem VirtualFilesystem.created_eq_none_iff (fs : VirtualFilesystem) (fileType : Int)
    (components : List Name) :
    fs.created fileType components = none ↔
      (∀ dir, fs.resolve components ≠ some ⟨dir, none⟩) ∧
      (creatable fileType = true → ∀ dir n, ¬ fs.LastMissing components dir n) := by
  simp only [Option.eq_none_iff_forall_ne_some, ne_eq, fs.created_eq_some_iff]
  constructor
  · intro hnone
    exact ⟨fun dir hdir => hnone fs.tree (.inl ⟨rfl, dir, hdir⟩),
      fun hcreatable dir n hlast => hnone _ (.inr ⟨hcreatable, dir, n, hlast, rfl⟩)⟩
  · rintro ⟨hdir, hmissing⟩ T (⟨-, dir, hresolve⟩ | ⟨hcreatable, dir, n, hlast, -⟩)
    · exact hdir dir hresolve
    · exact hmissing hcreatable dir n hlast

/-- A call of `createFile` that fails leaves the tree as it was. One that succeeds does so too,
or adds one entry with the name of the last branch at the end of the directory that the
branches before it lead to. -/
theorem createFile_minimal {fs : VirtualFilesystem} (h : fs.WellFormed) {mp : MountPoint}
    (hmp : fs.mountpoints ['u', 'x', '0'] = some mp) (fileType : Int) (path : List Char) :
    ∃ fs' created, fs.createFile fileType path = .ok (fs', created) ∧ fs'.WellFormed ∧
      (created = false → fs'.tree = fs.tree) ∧
      (created = true → fs'.tree = fs.tree ∨
        ∃ dir n entries, fs.LastMissing (parse path).1 dir n ∧ fs.tree dir = some entries ∧
          fs'.tree dir = some (entries ++ [(n, fileType)]) ∧
          fs'.tree (dir ++ [n]) = (if isDirectory fileType then some [] else none) ∧
          ∀ q, q ≠ dir → q ≠ dir ++ [n] → fs'.tree q = fs.tree q) := by
  obtain ⟨fs', created, hrun, hwf, -, hcreated⟩ := createFile_created h hmp fileType path
  refine ⟨fs', created, hrun, hwf, ?_, ?_⟩
  · rintro rfl
    obtain ⟨-, -, rfl⟩ | ⟨hfalse, -⟩ := hcreated
    · rfl
    · cases hfalse
  · rintro rfl
    obtain ⟨hfalse, -⟩ | ⟨-, hcreated⟩ := hcreated
    · cases hfalse
    obtain ⟨htree, -⟩ | ⟨-, dir, n, hlast, htree⟩ :=
      (fs.created_eq_some_iff fileType _ _).mp hcreated
    · exact .inl htree.symm
    · obtain ⟨init, hinit, hup, hdot, hresolve, hn⟩ := hlast
      obtain ⟨entries, hentries⟩ :=
        Option.isSome_iff_exists.mp ((h.tree_proper hmp).resolve hresolve)
      refine .inr ⟨dir, n, entries, ⟨init, hinit, hup, hdot, hresolve, hn⟩, hentries, ?_, ?_,
        fun q hdir hnew => ?_⟩
      · rw [← htree, Tree.append, if_pos rfl, hentries, Option.map_some]
      · rw [← htree, Tree.append, if_neg (by simp), if_pos rfl]
      · rw [← htree, Tree.append, if_neg hdir, if_neg hnew]

/-- The calls that make the directories `d` and `d/s`, and a file in each directory. -/
def nestedTreeCalls : List VfsCall :=
  [.createFile FILE_TYPE_DIRECTORY ['d'], .createFile FILE_TYPE_FILE ['x'],
    .createFile FILE_TYPE_DIRECTORY ['d', '/', 's'], .createFile FILE_TYPE_FILE ['d', '/', 'y'],
    .createFile FILE_TYPE_FILE ['d', '/', 's', '/', 'a']]

/-- A new file in `d/s` comes behind the file there, and the other directories stay. -/
theorem createFile_minimal_nested :
    ∃ fs fs', nestedTreeCalls.foldlM VirtualFilesystem.perform (.mounted []) = .ok fs ∧
      fs.createFile FILE_TYPE_FILE ['d', '/', 's', '/', 'b'] = .ok (fs', true) ∧
      fs.tree [] = some [(['d'], FILE_TYPE_DIRECTORY), (['x'], FILE_TYPE_FILE)] ∧
      fs.tree [['d']] = some [(['s'], FILE_TYPE_DIRECTORY), (['y'], FILE_TYPE_FILE)] ∧
      fs'.tree [['d'], ['s']] = some [(['a'], FILE_TYPE_FILE), (['b'], FILE_TYPE_FILE)] ∧
      ∀ q, q ≠ [['d'], ['s']] → q ≠ [['d'], ['s'], ['b']] → fs'.tree q = fs.tree q := by
  obtain ⟨h₀, mp, hmp₀⟩ := mounted_ok []
  obtain ⟨fs, hrun, h, hmp⟩ := run_ok h₀ hmp₀ nestedTreeCalls
  obtain ⟨fs', created, hcreate, -, -, hcreated⟩ :=
    createFile_minimal h hmp FILE_TYPE_FILE ['d', '/', 's', '/', 'b']
  have htrue : created = true := by
    have hret := eq_of_map_ok (b := Except.ok true)
      (fun fs => (fs.createFile FILE_TYPE_FILE ['d', '/', 's', '/', 'b']).map Prod.snd) hrun
      (by decide +kernel)
    rw [hcreate] at hret
    exact Except.ok.inj hret
  have hold : fs.tree [['d'], ['s']] = some [(['a'], FILE_TYPE_FILE)] :=
    eq_of_map_ok (fun fs => fs.tree [['d'], ['s']]) hrun (by decide +kernel)
  have hnew : fs'.tree [['d'], ['s']] =
      some [(['a'], FILE_TYPE_FILE), (['b'], FILE_TYPE_FILE)] := by
    have hret := eq_of_map_ok
      (b := Except.ok (some [(['a'], FILE_TYPE_FILE), (['b'], FILE_TYPE_FILE)]))
      (fun fs => (fs.createFile FILE_TYPE_FILE ['d', '/', 's', '/', 'b']).map fun r =>
        r.1.tree [['d'], ['s']]) hrun (by decide +kernel)
    rw [hcreate] at hret
    exact Except.ok.inj hret
  have hdir : fs.resolve [['d'], ['s']] = some ⟨[['d'], ['s']], none⟩ :=
    eq_of_map_ok (fun fs => fs.resolve [['d'], ['s']]) hrun (by decide +kernel)
  subst htrue
  refine ⟨fs, fs', hrun, hcreate, eq_of_map_ok (fun fs => fs.tree []) hrun (by decide +kernel),
    eq_of_map_ok (fun fs => fs.tree [['d']]) hrun (by decide +kernel), hnew, ?_⟩
  obtain hsame | ⟨dir, n, entries, hlast, -, -, -, hframe⟩ := hcreated rfl
  · rw [hsame, hold] at hnew
    exact absurd hnew (by decide)
  · obtain ⟨init, hinit, -, -, hresolve, -⟩ := hlast
    have hparse : (parse ['d', '/', 's', '/', 'b']).1 = [['d'], ['s']] ++ [['b']] := by
      decide +kernel
    have hsplit := hparse.symm.trans hinit
    obtain ⟨rfl, hn⟩ := List.append_inj' hsplit rfl
    cases hn
    cases hdir.symm.trans hresolve
    exact hframe

/-- After `createFile` has succeeded its path leads to an entry of the type that was asked for
if and only if the path did not lead to a directory before, or to one other than the root when
a directory was asked for. -/
theorem createFile_leadsTo_iff {fs : VirtualFilesystem} (h : fs.WellFormed) {mp : MountPoint}
    (hmp : fs.mountpoints ['u', 'x', '0'] = some mp) {type : Int}
    (htype : type = FILE_TYPE_DIRECTORY ∨ type = FILE_TYPE_FILE) {components : List Name}
    {p : List Char} (hp : RelPath components p) :
    (∃ fs' created, fs.createFile type p = .ok (fs', created) ∧
        (created = true → fs'.LeadsTo components type)) ↔
      ∀ dir, fs.resolve components = some ⟨dir, none⟩ →
        dir ≠ [] ∧ type = FILE_TYPE_DIRECTORY := by
  obtain ⟨fs', created, hrun, -, -, hcreated⟩ := createFile_created h hmp type p
  rw [hp.parse] at hcreated
  have hproper := h.tree_proper hmp
  constructor
  · rintro ⟨fs'', created', hrun', hleads⟩ dir hdir
    rw [hrun] at hrun'
    cases hrun'
    have hsame : fs.created type components = some fs.tree :=
      (fs.created_eq_some_iff type components fs.tree).mpr (.inl ⟨rfl, dir, hdir⟩)
    obtain ⟨-, hnone, -⟩ | ⟨rfl, hsome⟩ := hcreated
    · rw [hsame] at hnone
      cases hnone
    have htree : fs'.tree = fs.tree := Option.some.inj (hsome.symm.trans hsame)
    have hleads' : PathWalk.LeadsTo isDirectory fs.tree (components.map componentOf) type :=
      htree ▸ hleads rfl
    exact ⟨(exists_leadsTo_iff hproper hdir).mp ⟨type, hleads'⟩,
      of_decide_eq_true (hleads'.directory hproper hdir)⟩
  · intro hcond
    refine ⟨fs', created, hrun, ?_⟩
    rintro rfl
    obtain ⟨hfalse, -⟩ | ⟨-, hsome⟩ := hcreated
    · cases hfalse
    rcases (fs.created_eq_some_iff type components _).mp hsome with
      ⟨htree, dir, hdir⟩ | ⟨-, dir, n, hlast, htree⟩
    · -- nothing is created: the directory was there
      obtain ⟨hne, rfl⟩ := hcond dir hdir
      obtain ⟨k, hk⟩ := (exists_leadsTo_iff hproper hdir).mpr hne
      have hkind : k = FILE_TYPE_DIRECTORY := of_decide_eq_true (hk.directory hproper hdir)
      rw [VirtualFilesystem.LeadsTo, ← htree, ← hkind]
      exact hk
    · rw [VirtualFilesystem.LeadsTo, ← htree]
      exact ((fs.lastMissing_iff components dir n).mp hlast).leadsTo hproper

/-- With a new file below a directory. -/
theorem createFile_leadsTo_iff_nested :
    ∃ fs, [VfsCall.createFile FILE_TYPE_DIRECTORY ['d']].foldlM VirtualFilesystem.perform
        (.mounted []) = .ok fs ∧
      ((∃ fs' created, fs.createFile FILE_TYPE_FILE ['d', '/', 'e'] = .ok (fs', created) ∧
          (created = true → fs'.LeadsTo [['d'], ['e']] FILE_TYPE_FILE)) ↔
        ∀ dir, fs.resolve [['d'], ['e']] = some ⟨dir, none⟩ →
          dir ≠ [] ∧ FILE_TYPE_FILE = FILE_TYPE_DIRECTORY) := by
  obtain ⟨h₀, mp, hmp₀⟩ := mounted_ok []
  obtain ⟨fs, hrun, h, hmp⟩ := run_ok h₀ hmp₀ [.createFile FILE_TYPE_DIRECTORY ['d']]
  have hp : RelPath [['d'], ['e']] ['d', '/', 'e'] :=
    .cons (.of_all (by decide) (by decide)) 0 (.last (.of_all (by decide) (by decide)) 0)
  exact ⟨fs, hrun, createFile_leadsTo_iff h hmp (.inr rfl) hp⟩

/-- A file that is to be made where a directory is: the call succeeds, and there is no file. -/
theorem createFile_leaves_directory :
    ∃ fs, [VfsCall.createFile FILE_TYPE_DIRECTORY ['d']].foldlM VirtualFilesystem.perform
        (.mounted []) = .ok fs ∧
      fs.WellFormed ∧ (∃ mp, fs.mountpoints ['u', 'x', '0'] = some mp) ∧ RelPath [['d']] ['d'] ∧
      ∃ fs', fs.createFile FILE_TYPE_FILE ['d'] = .ok (fs', true) ∧
        ¬ fs'.LeadsTo [['d']] FILE_TYPE_FILE := by
  obtain ⟨h₀, mp, hmp₀⟩ := mounted_ok []
  obtain ⟨fs, hrun, h, hmp⟩ := run_ok h₀ hmp₀ [.createFile FILE_TYPE_DIRECTORY ['d']]
  have hdir : fs.resolve [['d']] = some ⟨[['d']], none⟩ :=
    eq_of_map_ok (fun fs => fs.resolve [['d']]) hrun (by decide +kernel)
  have hp : RelPath [['d']] ['d'] := .last (.of_all (by decide) (by decide)) 0
  refine ⟨fs, hrun, h, ⟨mp, hmp⟩, hp, ?_⟩
  obtain ⟨fs', created, hcreate, -, -, hcreated⟩ := createFile_created h hmp FILE_TYPE_FILE ['d']
  rw [hp.parse, (fs.created_eq_some_iff FILE_TYPE_FILE [['d']] fs.tree).mpr
    (.inl ⟨rfl, [['d']], hdir⟩)] at hcreated
  obtain ⟨-, hnone, -⟩ | ⟨rfl, hsome⟩ := hcreated
  · cases hnone
  refine ⟨fs', hcreate, fun hleads => ?_⟩
  have hleads' : PathWalk.LeadsTo isDirectory fs.tree ([['d']].map componentOf) FILE_TYPE_FILE :=
    Option.some.inj hsome ▸ hleads
  have htrue := hleads'.directory (h.tree_proper hmp) hdir
  exact absurd htrue (by decide)

end Betavita.Vfs
