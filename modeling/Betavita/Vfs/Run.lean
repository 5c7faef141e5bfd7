import Betavita.Vfs.Kept

/-!
# vfs.cpp — runs of calls

In trees that are well formed every pointer that a walk follows leads to a live directory
of the tree of `ux0`, so that no call is undefined, and every call leaves the trees well
formed.
-/

namespace Betavita.Vfs

open Ownership Results

/-! ## The loop of createFile -/

/-- The types of the files that `createFile` makes. -/
def creatable (fileType : Int) : Bool :=
  decide (fileType = FILE_TYPE_DIRECTORY) || decide (fileType = FILE_TYPE_FILE)

section CreateLoop

variable {fs : VirtualFilesystem} {r : Ref} {d : Directory} (hd : fs.directories r = some d)
  {i : Name}
include hd

theorem createLoop_up (fileType : Int) (size x : Nat) (branches : List Name) :
    createLoop fileType size fs r x (['.', '.'] :: branches) =
      createLoop fileType size fs d.previousDirectory (x + 1) branches := by
  rw [createLoop.eq_def]
  simp only [if_pos, fs.deref_eq hd, ok_bind]

omit hd in
theorem createLoop_stay (fileType : Int) (size x : Nat) (branches : List Name) :
    createLoop fileType size fs r x (['.'] :: branches) =
      createLoop fileType size fs r (x + 1) branches := by
  rw [createLoop.eq_def]
  rfl

/-- A name that is found is entered, or ends the walk. -/
theorem createLoop_found (hup : i ≠ ['.', '.']) (hdot : i ≠ ['.']) {file : AbstractFile}
    (hfile : d.findFile i = some file) (fileType : Int) (size x : Nat) (branches : List Name) :
    createLoop fileType size fs r x (i :: branches) =
      if file.type ≠ FILE_TYPE_DIRECTORY then .ok (fs, false)
      else file.toDirectory >>= fun root =>
        createLoop fileType size fs root (x + 1) branches := by
  rw [createLoop.eq_def]
  simp only [if_neg hup, if_neg hdot, fs.deref_eq hd, ok_bind, hfile]
  rfl

/-- One that is not found is an error, unless it is the last branch. -/
theorem createLoop_missing (hup : i ≠ ['.', '.']) (hdot : i ≠ ['.']) (hnone : d.findFile i = none)
    {fileType : Int} {x : Nat} {branches : List Name}
    (h : ¬ (branches.isEmpty && creatable fileType) = true) :
    createLoop fileType (x + (i :: branches).length) fs r x (i :: branches) = .ok (fs, false) := by
  have hlast : x + 1 ≠ x + (i :: branches).length ∨
      fileType ≠ FILE_TYPE_DIRECTORY ∧ fileType ≠ FILE_TYPE_FILE := by
    cases branches with
    | nil => simpa [creatable] using h
    | cons i branches => simp
  rw [createLoop.eq_def]
  simp only [if_neg hup, if_neg hdot, fs.deref_eq hd, ok_bind, hnone]
  rcases hlast with hlast | ⟨hdir, hreg⟩
  · simp only [if_pos hlast, ite_self]
    rfl
  · rw [if_neg hdir, if_neg hreg]
    rfl

/-- There it is added. -/
theorem createLoop_last (hfs : fs.WellFormed) (hup : i ≠ ['.', '.']) (hdot : i ≠ ['.'])
    (hnone : d.findFile i = none) {fileType : Int} (h : creatable fileType = true) (x : Nat) :
    ∃ fs' file, createLoop fileType (x + 1) fs r x [i] = .ok (fs', true) ∧
      file.name = i ∧ file.type = fileType ∧
      (file.type = FILE_TYPE_DIRECTORY ↔ file.directory.isSome) ∧ Appended fs fs' r d file ∧
      (i ≠ [] → fs'.WellFormed) := by
  by_cases hdir : fileType = FILE_TYPE_DIRECTORY
  · have hr : r ≠ fs.nextRef := Nat.ne_of_lt (hfs.below r d hd)
    have hd' : (fs.newDirectory r).directories r = some d := by
      rw [VirtualFilesystem.newDirectory_directories, if_neg hr, hd]
    refine ⟨_, _, ?_, rfl, rfl, by simpa using hdir, .directory hfs hd fileType i, fun hne => ?_⟩
    · rw [createLoop.eq_def]
      simp only [if_neg hup, if_neg hdot, fs.deref_eq hd, ok_bind, hnone, if_pos hdir]
      rw [if_neg (not_not.mpr rfl), (fs.newDirectory r).addFile_eq hd']
      rfl
    · rw [hdir]
      exact hfs.addDirectory hd hnone ⟨hne, hdot, hup⟩
  · have hreg : fileType = FILE_TYPE_FILE := by simpa [creatable, hdir] using h
    refine ⟨_, _, ?_, rfl, rfl, by simpa using hdir, .regular fs r d fileType i,
      fun hne => hfs.addRegular hd hnone ⟨hne, hdot, hup⟩ hdir⟩
    rw [createLoop.eq_def]
    simp only [if_neg hup, if_neg hdot, fs.deref_eq hd, ok_bind, hnone, if_neg hdir, if_pos hreg]
    rw [if_neg (not_not.mpr rfl), fs.addFile_eq hd]
    rfl

end CreateLoop

/-! ## Walks -/

/-- How the loops move: `..` follows `previousDirectory`, a name may enter a directory, and
in all other cases they stay where they are. -/
inductive VirtualFilesystem.Moves (fs : VirtualFilesystem) : Ref → List Name → Ref → Prop
  | nil {r : Ref} : Moves fs r [] r
  | up {r r' : Ref} {d : Directory} {branches : List Name} (hd : fs.directories r = some d)
      (h : Moves fs d.previousDirectory branches r') : Moves fs r (['.', '.'] :: branches) r'
  | stay {r r' : Ref} {i : Name} {branches : List Name} (hi : i ≠ ['.', '.'])
      (h : Moves fs r branches r') : Moves fs r (i :: branches) r'
  | enter {r k r' : Ref} {d : Directory} {i : Name} {file : AbstractFile} {branches : List Name}
      (hd : fs.directories r = some d) (hfile : d.findFile i = some file)
      (hk : file.directory = some k) (h : Moves fs k branches r') : Moves fs r (i :: branches) r'

/-- Wherever the moves lead, there is a live directory, and what has the tag of a
directory there is one. -/
def VirtualFilesystem.Sound (fs : VirtualFilesystem) (r : Ref) : Prop :=
  ∀ branches r', fs.Moves r branches r' → ∃ d, fs.directories r' = some d ∧
    ∀ file ∈ d.files, file.type = FILE_TYPE_DIRECTORY → file.directory.isSome

section Loops

variable {fs : VirtualFilesystem} {r : Ref}

theorem VirtualFilesystem.Sound.up (h : fs.Sound r) {d : Directory}
    (hd : fs.directories r = some d) : fs.Sound d.previousDirectory :=
  fun branches r' hmoves => h (['.', '.'] :: branches) r' (.up hd hmoves)

theorem VirtualFilesystem.Sound.enter (h : fs.Sound r) {d : Directory} {i : Name}
    {file : AbstractFile} (hd : fs.directories r = some d) (hfile : d.findFile i = some file)
    (htype : file.type = FILE_TYPE_DIRECTORY) :
    ∃ k, file.directory = some k ∧ file.toDirectory = .ok k ∧ fs.Sound k := by
  obtain ⟨d', hd', htag⟩ := h [] r .nil
  rw [hd] at hd'
  cases hd'
  obtain ⟨k, hk⟩ :=
    Option.isSome_iff_exists.mp (htag file (Directory.findFile_some hfile).1 htype)
  refine ⟨k, hk, by rw [AbstractFile.toDirectory, hk], fun branches r' hmoves => ?_⟩
  exact h (i :: branches) r' (.enter hd hfile hk hmoves)

theorem VirtualFilesystem.Sound.live (h : fs.Sound r) : ∃ d, fs.directories r = some d := by
  obtain ⟨d, hd, -⟩ := h [] r .nil
  exact ⟨d, hd⟩

theorem getLoop_ok (h : fs.Sound r) (currentPath : List Char) (oldPath : List (List Char))
    (branches : List Name) : ∃ s, getLoop fs r currentPath oldPath branches = .ok s := by
  induction branches generalizing r currentPath oldPath with
  | nil => exact ⟨currentPath, rfl⟩
  | cons i branches ih =>
    obtain ⟨d, hd⟩ := h.live
    unfold getLoop
    simp only [fs.deref_eq hd, ok_bind]
    split_ifs
    · exact ih (h.up hd) _ _
    · exact ih h _ _
    · cases hfile : d.findFile i with
      | none => exact ⟨[], rfl⟩
      | some file =>
        dsimp only
        split_ifs with htype
        · obtain ⟨k, -, hcast, hk⟩ := h.enter hd hfile htype
          rw [hcast]
          exact ih hk _ _
        · exact ih h _ _

theorem removeLoop_ok (h : fs.Sound r) (last : Name) (branches : List Name) :
    ∃ r' last', removeLoop fs r last branches = .ok (r', last') ∧ fs.Moves r branches r' := by
  induction branches generalizing r last with
  | nil => exact ⟨r, last, rfl, .nil⟩
  | cons i branches ih =>
    obtain ⟨d, hd⟩ := h.live
    unfold removeLoop
    simp only [fs.deref_eq hd, ok_bind]
    split_ifs with hup hdot
    · obtain ⟨r', last', hrun, hmoves⟩ := ih (h.up hd) last
      exact ⟨r', last', hrun, hup ▸ .up hd hmoves⟩
    · obtain ⟨r', last', hrun, hmoves⟩ := ih h last
      exact ⟨r', last', hrun, .stay hup hmoves⟩
    · obtain ⟨r', last', hrun, hmoves⟩ := ih h i
      exact ⟨r', last', hrun, .stay hup hmoves⟩

/-- Every directory keeps the files that `names` does not name. -/
def VirtualFilesystem.Spares (fs fs' : VirtualFilesystem) (names : List Name) : Prop :=
  ∀ r d, fs.directories r = some d →
    ∃ d', fs'.directories r = some d' ∧ ∀ n ∉ names, d'.findFile n = d.findFile n

theorem VirtualFilesystem.Spares.refl (fs : VirtualFilesystem) (names : List Name) :
    fs.Spares fs names :=
  fun _ d hd => ⟨d, hd, fun _ _ => rfl⟩

theorem VirtualFilesystem.Spares.cons {fs' : VirtualFilesystem} {names : List Name}
    (h : fs.Spares fs' names) (i : Name) : fs.Spares fs' (i :: names) := by
  intro r d hd
  obtain ⟨d', hd', hkept⟩ := h r d hd
  exact ⟨d', hd', fun n hn => hkept n (mt (List.mem_cons_of_mem i) hn)⟩

/-- Adding a file spares the others. -/
theorem Appended.spares {fs' : VirtualFilesystem} {d : Directory} {file : AbstractFile}
    (hadded : Appended fs fs' r d file) (hd : fs.directories r = some d)
    (habsent : d.findFile file.name = none) (names : List Name) :
    fs.Spares fs' (file.name :: names) := by
  intro x dx hdx
  by_cases hx : x = r
  · rw [hx, hd] at hdx
    cases hdx
    refine ⟨_, hx ▸ hadded.changed, fun n hn => ?_⟩
    have hne : n ≠ file.name := fun heq => hn (heq ▸ List.mem_cons_self ..)
    rw [d.append_findFile habsent, if_neg hne]
  · exact ⟨dx, hadded.kept x dx hx hdx, fun _ _ => rfl⟩

/-- The walk of `createFile` ends with the same filesystem or with one file more. -/
theorem createLoop_ok (hfs : fs.WellFormed) (fileType : Int) (h : fs.Sound r)
    (x : Nat) {branches : List Name} (hne : ∀ i ∈ branches, i ≠ []) :
    ∃ fs' created, createLoop fileType (x + branches.length) fs r x branches =
        .ok (fs', created) ∧
      fs'.WellFormed ∧ fs'.mountpoints = fs.mountpoints ∧ fs.Spares fs' branches := by
  induction branches generalizing r x with
  | nil => exact ⟨fs, true, rfl, hfs, rfl, .refl fs _⟩
  | cons i branches ih =>
    obtain ⟨d, hd⟩ := h.live
    have hne' : ∀ i ∈ branches, i ≠ [] := fun i hi => hne i (List.mem_cons_of_mem _ hi)
    have hsize : x + (i :: branches).length = x + 1 + branches.length := by
      rw [List.length_cons]
      omega
    by_cases hup : i = ['.', '.']
    · subst hup
      rw [createLoop_up hd, hsize]
      obtain ⟨fs', created, hrun, hwf, hmount, hspares⟩ := ih (h.up hd) (x + 1) hne'
      exact ⟨fs', created, hrun, hwf, hmount, hspares.cons _⟩
    by_cases hdot : i = ['.']
    · subst hdot
      rw [createLoop_stay, hsize]
      obtain ⟨fs', created, hrun, hwf, hmount, hspares⟩ := ih h (x + 1) hne'
      exact ⟨fs', created, hrun, hwf, hmount, hspares.cons _⟩
    cases hfile : d.findFile i with
    | some file =>
      rw [createLoop_found hd hup hdot hfile]
      split_ifs with htype
      · exact ⟨fs, false, rfl, hfs, rfl, .refl fs _⟩
      · obtain ⟨k, -, hcast, hk⟩ := h.enter hd hfile (not_not.mp htype)
        rw [hcast, ok_bind, hsize]
        obtain ⟨fs', created, hrun, hwf, hmount, hspares⟩ := ih hk (x + 1) hne'
        exact ⟨fs', created, hrun, hwf, hmount, hspares.cons i⟩
    | none =>
      by_cases hlast : (branches.isEmpty && creatable fileType) = true
      · obtain ⟨hnil, hcreatable⟩ := Bool.and_eq_true_iff.mp hlast
        rw [List.isEmpty_iff] at hnil
        subst hnil
        obtain ⟨fs', file, hloop, rfl, rfl, -, hadded, hwf⟩ :=
          createLoop_last hd hfs hup hdot hfile hcreatable x
        exact ⟨fs', true, hloop, hwf (hne _ (List.mem_cons_self ..)), hadded.mountpoints,
          hadded.spares hd hfile []⟩
      · exact ⟨fs, false, createLoop_missing hd hup hdot hfile hlast, hfs, rfl, .refl fs _⟩

end Loops

/-! ## Calls -/

section Calls

variable {fs : VirtualFilesystem} (h : fs.WellFormed)
include h

/-- Moving from a directory of a mounted tree stays in the tree. -/
theorem VirtualFilesystem.WellFormed.moves {top r r' : Ref} {dtop : Directory}
    (htop : fs.directories top = some dtop) (hself : dtop.previousDirectory = top)
    (hr : fs.InTree top r) {branches : List Name} (hmoves : fs.Moves r branches r') :
    fs.InTree top r' := by
  induction hmoves with
  | nil => exact hr
  | up hd _ ih => exact ih (h.previous htop hself hr hd)
  | stay _ _ ih => exact ih hr
  | enter hd hfile hk _ ih =>
    exact ih (hr.tail ⟨_, hd, _, (Directory.findFile_some hfile).1, hk⟩)

theorem VirtualFilesystem.WellFormed.sound {top : Ref} {dtop : Directory}
    (htop : fs.directories top = some dtop) (hself : dtop.previousDirectory = top) :
    fs.Sound top := by
  intro branches r' hmoves
  obtain ⟨d, hd⟩ := h.live ⟨dtop, htop⟩ (h.moves htop hself .refl hmoves)
  exact ⟨d, hd, fun file hfile => ((h.ok r' d hd).tagged file hfile).mp⟩

end Calls

theorem VirtualFilesystem.ux0Root_eq (fs : VirtualFilesystem) {mp : MountPoint}
    (h : fs.mountpoints ['u', 'x', '0'] = some mp) : fs.ux0Root = .ok mp.root := by
  rw [VirtualFilesystem.ux0Root, h]

/-- `getFile` yields what its loop does from the root. -/
theorem getFile_eq {fs : VirtualFilesystem} {mp : MountPoint}
    (hmp : fs.mountpoints ['u', 'x', '0'] = some mp) {path s : List Char}
    (hrun : getLoop { fs with scanner := (parse path).2 } mp.root [] [] (parse path).1 = .ok s) :
    fs.getFile path = .ok ({ fs with scanner := (parse path).2 }, s) := by
  have hroot := VirtualFilesystem.ux0Root_eq { fs with scanner := (parse path).2 } hmp
  simp only [VirtualFilesystem.getFile, hroot, hrun, ok_bind]
  rfl

section Mounted

variable {fs : VirtualFilesystem} (h : fs.WellFormed) {mp : MountPoint}
  (hmp : fs.mountpoints ['u', 'x', '0'] = some mp)
include h hmp

theorem VirtualFilesystem.WellFormed.ux0_sound : fs.Sound mp.root := by
  obtain ⟨d, hd, hself⟩ := h.roots _ mp hmp
  exact h.sound hd hself

theorem createFile_ok (fileType : Int) (path : List Char) :
    ∃ fs' created, fs.createFile fileType path = .ok (fs', created) ∧ fs'.WellFormed ∧
      fs'.mountpoints = fs.mountpoints ∧ fs.Spares fs' (parse path).1 := by
  have hwf := h.setScanner (parse path).2
  have hroot := VirtualFilesystem.ux0Root_eq { fs with scanner := (parse path).2 } hmp
  obtain ⟨fs', created, hrun, hfs', hmount, hspares⟩ := createLoop_ok hwf fileType
    (hwf.ux0_sound hmp) 0 (parse_ne_nil path)
  rw [Nat.zero_add] at hrun
  refine ⟨fs', created, ?_, hfs', hmount, hspares⟩
  simp only [VirtualFilesystem.createFile, hroot, ok_bind]
  exact hrun

theorem getFile_ok (path : List Char) :
    ∃ s, fs.getFile path = .ok ({ fs with scanner := (parse path).2 }, s) := by
  obtain ⟨s, hrun⟩ := getLoop_ok ((h.setScanner (parse path).2).ux0_sound hmp) [] []
    (parse path).1
  exact ⟨s, getFile_eq hmp hrun⟩

theorem removeFile_ok (path : List Char) :
    ∃ fs' removed, fs.removeFile path = .ok (fs', removed) ∧ fs'.WellFormed ∧
      fs'.mountpoints = fs.mountpoints := by
  have hwf := h.setScanner (parse fs.scanner).2
  have hroot := VirtualFilesystem.ux0Root_eq
    { fs with scanner := (parse fs.scanner).2 } hmp
  have hsound := hwf.ux0_sound hmp
  obtain ⟨r, last, hrun, hmoves⟩ := removeLoop_ok hsound [] (parse fs.scanner).1
  obtain ⟨d, hd, -⟩ := hsound _ r hmoves
  simp only [VirtualFilesystem.removeFile, hroot, hrun, VirtualFilesystem.deref_eq _ hd, ok_bind]
  split_ifs with hlast hfound
  · obtain ⟨file, hfile⟩ := Option.isSome_iff_exists.mp hfound
    obtain ⟨fs', hremove, hremoved⟩ := hwf.removeFrom hd hfile
    refine ⟨fs', true, by rw [hremove]; rfl, ?_, hremoved.mountpoints⟩
    exact hremoved.wellFormed hwf hd (Directory.findFile_some hfile).1
  · exact ⟨_, false, rfl, hwf, rfl⟩
  · exact ⟨_, false, rfl, hwf, rfl⟩

end Mounted

inductive VfsCall
  | mount (name : Name)
  | createFile (fileType : Int) (path : List Char)
  | removeFile (path : List Char)
  | getFile (path : List Char)

def VirtualFilesystem.perform (fs : VirtualFilesystem) : VfsCall → Except Fault VirtualFilesystem
  | .mount name => .ok (fs.mount name).1
  | .createFile fileType path => do return (← fs.createFile fileType path).1
  | .removeFile path => do return (← fs.removeFile path).1
  | .getFile path => do return (← fs.getFile path).1

/-- A mount point stays where it is. -/
theorem VirtualFilesystem.mount_mountpoints {fs : VirtualFilesystem} {name : Name}
    {mp : MountPoint} (h : fs.mountpoints name = some mp) (name' : Name) :
    (fs.mount name').1.mountpoints name = some mp := by
  unfold VirtualFilesystem.mount
  split
  · exact h
  · rename_i hnone
    have hne : name ≠ name' := by
      rintro rfl
      rw [h] at hnone
      cases hnone
    simp only [Function.update_of_ne hne]
    exact h

theorem VirtualFilesystem.mount_self (fs : VirtualFilesystem) (name : Name) :
    ∃ mp, (fs.mount name).1.mountpoints name = some mp := by
  unfold VirtualFilesystem.mount
  split
  · rename_i mp hmp
    exact ⟨mp, hmp⟩
  · exact ⟨_, Function.update_self ..⟩

theorem perform_ok {fs : VirtualFilesystem} (h : fs.WellFormed) {mp : MountPoint}
    (hmp : fs.mountpoints ['u', 'x', '0'] = some mp) (call : VfsCall) :
    ∃ fs', fs.perform call = .ok fs' ∧ fs'.WellFormed ∧
      fs'.mountpoints ['u', 'x', '0'] = some mp := by
  cases call with
  | mount name =>
    exact ⟨_, rfl, h.mount name, VirtualFilesystem.mount_mountpoints hmp name⟩
  | createFile fileType path =>
    obtain ⟨fs', created, hrun, hfs', hmount, -⟩ := createFile_ok h hmp fileType path
    exact ⟨fs', by rw [VirtualFilesystem.perform, hrun]; rfl, hfs', hmount ▸ hmp⟩
  | removeFile path =>
    obtain ⟨fs', removed, hrun, hfs', hmount⟩ := removeFile_ok h hmp path
    exact ⟨fs', by rw [VirtualFilesystem.perform, hrun]; rfl, hfs', hmount ▸ hmp⟩
  | getFile path =>
    obtain ⟨s, hrun⟩ := getFile_ok h hmp path
    refine ⟨{ fs with scanner := (parse path).2 }, ?_, h.setScanner _, hmp⟩
    rw [VirtualFilesystem.perform, hrun]
    rfl

theorem run_ok {fs : VirtualFilesystem} (h : fs.WellFormed) {mp : MountPoint}
    (hmp : fs.mountpoints ['u', 'x', '0'] = some mp) (calls : List VfsCall) :
    ∃ fs', calls.foldlM VirtualFilesystem.perform fs = .ok fs' ∧ fs'.WellFormed ∧
      fs'.mountpoints ['u', 'x', '0'] = some mp := by
  induction calls generalizing fs with
  | nil => exact ⟨fs, rfl, h, hmp⟩
  | cons call calls ih =>
    obtain ⟨fs₁, hcall, h₁, hmp₁⟩ := perform_ok h hmp call
    obtain ⟨fs', hrun, hfs'⟩ := ih h₁ hmp₁
    refine ⟨fs', ?_, hfs'⟩
    rw [List.foldlM_cons, hcall]
    exact hrun

/-- Any mount points, `ux0` among them. -/
def VirtualFilesystem.mounted (names : List Name) : VirtualFilesystem :=
  let fs := names.foldl (fun (fs : VirtualFilesystem) name => (fs.mount name).1) .new
  (fs.mount ['u', 'x', '0']).1

theorem mounted_ok (names : List Name) :
    (VirtualFilesystem.mounted names).WellFormed ∧
      ∃ mp, (VirtualFilesystem.mounted names).mountpoints ['u', 'x', '0'] = some mp := by
  have hfold : ∀ {fs : VirtualFilesystem}, fs.WellFormed →
      (names.foldl (fun fs name => (fs.mount name).1) fs).WellFormed := by
    induction names with
    | nil => exact id
    | cons name names ih => exact fun h => ih (h.mount name)
  exact ⟨(hfold .new).mount _, VirtualFilesystem.mount_self _ _⟩

/-- With `ux0` mounted every sequence of calls is defined, and in the tree of every mount
point: names are distinct and none is empty, `.` or `..`; exactly the directories have the
tag of one; each directory is where the `previousDirectory` of its subdirectories points
to, and the root is its own. And no walk leaves the tree of `ux0`. -/
theorem tree_invariant (names : List Name) (calls : List VfsCall) :
    ∃ fs, calls.foldlM VirtualFilesystem.perform (.mounted names) = .ok fs ∧
      (∀ name mp, fs.mountpoints name = some mp →
        (∃ d, fs.directories mp.root = some d ∧ d.previousDirectory = mp.root) ∧
        ∀ r, fs.InTree mp.root r → ∃ d, fs.directories r = some d ∧
          (d.files.map AbstractFile.name).Nodup ∧
          ∀ file ∈ d.files, (file.name ≠ [] ∧ file.name ≠ ['.'] ∧ file.name ≠ ['.', '.']) ∧
            (file.type = FILE_TYPE_DIRECTORY ↔ file.directory.isSome) ∧
            ∀ k, file.directory = some k →
              ∃ d', fs.directories k = some d' ∧ d'.previousDirectory = r) ∧
      ∃ mp, fs.mountpoints ['u', 'x', '0'] = some mp ∧
        ∀ branches r, fs.Moves mp.root branches r →
          fs.InTree mp.root r ∧ ∃ d, fs.directories r = some d := by
  obtain ⟨h₀, mp, hmp₀⟩ := mounted_ok names
  obtain ⟨fs, hrun, h, hmp⟩ := run_ok h₀ hmp₀ calls
  refine ⟨fs, hrun, fun name mp' hmp' => ?_, mp, hmp, fun branches r hmoves => ?_⟩
  · obtain ⟨d, hd, hself⟩ := h.roots name mp' hmp'
    refine ⟨⟨d, hd, hself⟩, fun r hr => ?_⟩
    obtain ⟨dr, hdr⟩ := h.live ⟨d, hd⟩ hr
    have hok := h.ok r dr hdr
    exact ⟨dr, hdr, hok.names, fun file hfile => ⟨hok.valid file hfile, hok.tagged file hfile,
      fun k hk => (hok.owned file hfile k hk).2⟩⟩
  · obtain ⟨d, hd, hself⟩ := h.roots _ mp hmp
    have hr := h.moves hd hself .refl hmoves
    exact ⟨hr, h.live ⟨d, hd⟩ hr⟩

end Betavita.Vfs
