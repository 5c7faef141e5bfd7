import Betavita.Lib.Transition
import Betavita.Vfs.Tree
import Mathlib.Data.List.Nodup
import Mathlib.Data.List.Pairwise

/-!
# vfs.cpp — what the calls keep

Creating appends to the files of one directory, removing frees one subtree. Neither
disturbs the other directories, so the trees stay trees over every sequence of calls, and
no walk ever leaves the tree of `ux0`.
-/

namespace Betavita.Vfs

open Ownership Results Transition

theorem DirectoryOk.mono {directories directories' : Directories} {r : Ref} {d : Directory}
    (h : DirectoryOk directories r d)
    (hkeep : ∀ file ∈ d.files, ∀ k, file.directory = some k → ∀ d', directories k = some d' →
      ∃ d'', directories' k = some d'' ∧ d''.previousDirectory = d'.previousDirectory) :
    DirectoryOk directories' r d where
  names := h.names
  valid := h.valid
  tagged := h.tagged
  owned file hfile k hk := by
    obtain ⟨hlt, d', hd', hprev⟩ := h.owned file hfile k hk
    obtain ⟨d'', hd'', hprev'⟩ := hkeep file hfile k hk d' hd'
    exact ⟨hlt, d'', hd'', hprev'.trans hprev⟩
  refs := h.refs

/-- A filesystem that has grown: the old directories are there with their owners, and
those that are new or changed are good. -/
theorem VirtualFilesystem.WellFormed.grow {fs fs' : VirtualFilesystem} (h : fs.WellFormed)
    (hnext : fs.nextRef ≤ fs'.nextRef)
    (hkeep : ∀ r d, fs.directories r = some d →
      ∃ d', fs'.directories r = some d' ∧ d'.previousDirectory = d.previousDirectory)
    (hnew : ∀ r d', fs'.directories r = some d' →
      fs.directories r = some d' ∨ r < fs'.nextRef ∧ DirectoryOk fs'.directories r d')
    (hroots : ∀ name mp, fs'.mountpoints name = some mp → fs.mountpoints name = some mp ∨
      ∃ d, fs'.directories mp.root = some d ∧ d.previousDirectory = mp.root) :
    fs'.WellFormed where
  ok r d' hd' := by
    rcases hnew r d' hd' with hold | ⟨-, hok⟩
    · exact (h.ok r d' hold).mono fun _ _ k _ => hkeep k
    · exact hok
  below r d' hd' := by
    rcases hnew r d' hd' with hold | ⟨hlt, -⟩
    · exact Nat.lt_of_lt_of_le (h.below r d' hold) hnext
    · exact hlt
  roots name mp hmp := by
    rcases hroots name mp hmp with hold | hnew
    · obtain ⟨d, hd, hself⟩ := h.roots name mp hold
      obtain ⟨d', hd', hprev⟩ := hkeep mp.root d hd
      exact ⟨d', hd', hprev.trans hself⟩
    · exact hnew

theorem VirtualFilesystem.WellFormed.new : VirtualFilesystem.new.WellFormed where
  ok r d hd := by cases hd
  below r d hd := by cases hd
  roots name mp hmp := by cases hmp

theorem VirtualFilesystem.WellFormed.setScanner {fs : VirtualFilesystem} (h : fs.WellFormed)
    (scanner : List Char) : VirtualFilesystem.WellFormed { fs with scanner := scanner } :=
  ⟨h.ok, h.below, h.roots⟩

theorem VirtualFilesystem.WellFormed.fresh {fs : VirtualFilesystem} (h : fs.WellFormed) :
    fs.directories fs.nextRef = none := by
  cases hd : fs.directories fs.nextRef with
  | none => rfl
  | some d => exact absurd (h.below _ d hd) (Nat.lt_irrefl _)

/-- A directory without files. -/
theorem DirectoryOk.empty (directories : Directories) (r r' : Ref) :
    DirectoryOk directories r ⟨r', []⟩ :=
  ⟨by simp, by simp, by simp, by simp, by simp⟩

theorem VirtualFilesystem.WellFormed.newDirectory {fs : VirtualFilesystem} (h : fs.WellFormed)
    (root : Ref) : (fs.newDirectory root).WellFormed := by
  refine h.grow (Nat.le_succ _) (fun r d hd => ?_) (fun r d' hd' => ?_)
    (fun name mp hmp => .inl hmp)
  · have hne : r ≠ fs.nextRef := Nat.ne_of_lt (h.below r d hd)
    exact ⟨d, by rw [VirtualFilesystem.newDirectory_directories, if_neg hne, hd], rfl⟩
  · rw [VirtualFilesystem.newDirectory_directories] at hd'
    split_ifs at hd' with hr
    · cases hd'
      exact .inr ⟨hr ▸ Nat.lt_succ_self _, .empty ..⟩
    · exact .inl hd'

theorem VirtualFilesystem.WellFormed.mount {fs : VirtualFilesystem} (h : fs.WellFormed)
    (name : Name) : (fs.mount name).1.WellFormed := by
  unfold VirtualFilesystem.mount
  split
  · exact h
  · have hnew := h.newDirectory fs.nextRef
    refine ⟨hnew.ok, hnew.below, fun name' mp hmp => ?_⟩
    by_cases hname : name' = name
    · subst hname
      simp only [Function.update_self] at hmp
      cases hmp
      exact ⟨⟨fs.nextRef, []⟩, by simp [VirtualFilesystem.newDirectory_directories], rfl⟩
    · simp only [Function.update_of_ne hname] at hmp
      exact hnew.roots name' mp hmp

/-! ## Creation -/

/-- A directory with one more file. -/
theorem DirectoryOk.append {directories : Directories} {r : Ref} {d : Directory}
    {file : AbstractFile} (h : DirectoryOk directories r d)
    (habsent : d.findFile file.name = none)
    (hvalid : file.name ≠ [] ∧ file.name ≠ ['.'] ∧ file.name ≠ ['.', '.'])
    (htag : file.type = FILE_TYPE_DIRECTORY ↔ file.directory.isSome)
    (howned : ∀ k, file.directory = some k → r < k ∧
      (∃ d', directories k = some d' ∧ d'.previousDirectory = r) ∧
      ∀ file' ∈ d.files, file'.directory ≠ some k) :
    DirectoryOk directories r { d with files := d.files ++ [file] } where
  names := by
    rw [List.map_append, List.nodup_append]
    refine ⟨h.names, List.nodup_singleton _, fun name hname name' hname' => ?_⟩
    obtain ⟨file', hfile', rfl⟩ := List.mem_map.mp hname
    rw [List.map_singleton, List.mem_singleton] at hname'
    rw [hname']
    exact Directory.findFile_none habsent file' hfile'
  valid file' hfile' := by
    rcases List.mem_append.mp hfile' with hold | hnew
    · exact h.valid file' hold
    · rw [List.mem_singleton.mp hnew]
      exact hvalid
  tagged file' hfile' := by
    rcases List.mem_append.mp hfile' with hold | hnew
    · exact h.tagged file' hold
    · rw [List.mem_singleton.mp hnew]
      exact htag
  owned file' hfile' k hk := by
    rcases List.mem_append.mp hfile' with hold | hnew
    · exact h.owned file' hold k hk
    · rw [List.mem_singleton.mp hnew] at hk
      exact ⟨(howned k hk).1, (howned k hk).2.1⟩
  refs := by
    rw [List.filterMap_append, List.nodup_append]
    refine ⟨h.refs, ?_, fun k hk k' hk' => ?_⟩
    · cases hdir : file.directory <;> simp [hdir]
    · obtain ⟨file', hfile', hdir'⟩ := List.mem_filterMap.mp hk
      have hdir : file.directory = some k' := by
        obtain ⟨file'', hfile'', hdir⟩ := List.mem_filterMap.mp hk'
        rw [List.mem_singleton.mp hfile''] at hdir
        exact hdir
      rintro rfl
      exact (howned k hdir).2.2 file' hfile' hdir'

/-- A store to a directory that leaves its owner. -/
theorem VirtualFilesystem.WellFormed.setFiles {fs : VirtualFilesystem} (h : fs.WellFormed)
    {root : Ref} {d : Directory} (hd : fs.directories root = some d) {files : List AbstractFile}
    (hok : DirectoryOk fs.directories root { d with files := files }) :
    (fs.setDirectory root { d with files := files }).WellFormed := by
  have hkeep : ∀ r d₀, fs.directories r = some d₀ →
      ∃ d', (fs.setDirectory root { d with files := files }).directories r = some d' ∧
        d'.previousDirectory = d₀.previousDirectory := by
    intro r d₀ hd₀
    rw [VirtualFilesystem.setDirectory_directories]
    split_ifs with hr
    · rw [hr, hd] at hd₀
      cases hd₀
      exact ⟨_, rfl, rfl⟩
    · exact ⟨d₀, hd₀, rfl⟩
  refine h.grow (Nat.le_refl _) hkeep (fun r d' hd' => ?_) (fun name mp hmp => .inl hmp)
  have hd'' := hd'
  rw [VirtualFilesystem.setDirectory_directories] at hd''
  split_ifs at hd'' with hr
  · cases hd''
    exact .inr ⟨hr ▸ h.below root d hd, hr ▸ hok.mono fun _ _ k _ => hkeep k⟩
  · exact .inl hd''

/-- Appending a regular file. -/
theorem VirtualFilesystem.WellFormed.addRegular {fs : VirtualFilesystem} (h : fs.WellFormed)
    {root : Ref} {d : Directory} (hd : fs.directories root = some d) {type : Int} {i : Name}
    (habsent : d.findFile i = none) (hvalid : i ≠ [] ∧ i ≠ ['.'] ∧ i ≠ ['.', '.'])
    (htype : type ≠ FILE_TYPE_DIRECTORY) :
    (fs.setDirectory root { d with files := d.files ++ [⟨type, i, none⟩] }).WellFormed :=
  h.setFiles hd ((h.ok root d hd).append habsent hvalid (by simpa using htype) (by simp))

/-- Appending a new directory. -/
theorem VirtualFilesystem.WellFormed.addDirectory {fs : VirtualFilesystem} (h : fs.WellFormed)
    {root : Ref} {d : Directory} (hd : fs.directories root = some d) {i : Name}
    (habsent : d.findFile i = none) (hvalid : i ≠ [] ∧ i ≠ ['.'] ∧ i ≠ ['.', '.']) :
    ((fs.newDirectory root).setDirectory root
      { d with files := d.files ++ [⟨FILE_TYPE_DIRECTORY, i, some fs.nextRef⟩] }).WellFormed := by
  have hnew := h.newDirectory root
  have hroot : root ≠ fs.nextRef := Nat.ne_of_lt (h.below root d hd)
  have hd' : (fs.newDirectory root).directories root = some d := by
    rw [VirtualFilesystem.newDirectory_directories, if_neg hroot, hd]
  refine hnew.setFiles hd' ((hnew.ok root d hd').append habsent hvalid (by simp) ?_)
  rintro k hk
  cases hk
  refine ⟨h.below root d hd, ⟨⟨root, []⟩, ?_, rfl⟩, fun file' hfile' hdir => ?_⟩
  · rw [VirtualFilesystem.newDirectory_directories, if_pos rfl]
  · obtain ⟨-, d', hd', -⟩ := (h.ok root d hd).owned file' hfile' _ hdir
    rw [h.fresh] at hd'
    cases hd'

/-- What adding a file leaves: the directory `r` with the file at its end, a new directory if
the file is one, and the other directories. -/
structure Appended (fs fs' : VirtualFilesystem) (r : Ref) (d : Directory) (file : AbstractFile) :
    Prop where
  mountpoints : fs'.mountpoints = fs.mountpoints
  changed : fs'.directories r = some { d with files := d.files ++ [file] }
  empty : ∀ k, file.directory = some k → fs'.directories k = some ⟨r, []⟩
  kept : ∀ x dx, x ≠ r → fs.directories x = some dx → fs'.directories x = some dx

theorem Appended.regular (fs : VirtualFilesystem) (r : Ref) (d : Directory) (type : Int)
    (i : Name) :
    Appended fs (fs.setDirectory r { d with files := d.files ++ [⟨type, i, none⟩] }) r d
      ⟨type, i, none⟩ where
  mountpoints := rfl
  changed := by rw [VirtualFilesystem.setDirectory_directories, if_pos rfl]
  empty k hk := by cases hk
  kept x dx hx hdx := by rw [VirtualFilesystem.setDirectory_directories, if_neg hx, hdx]

theorem Appended.directory {fs : VirtualFilesystem} (h : fs.WellFormed) {r : Ref}
    {d : Directory} (hd : fs.directories r = some d) (type : Int) (i : Name) :
    Appended fs ((fs.newDirectory r).setDirectory r
      { d with files := d.files ++ [⟨type, i, some fs.nextRef⟩] }) r d
      ⟨type, i, some fs.nextRef⟩ where
  mountpoints := rfl
  changed := by rw [VirtualFilesystem.setDirectory_directories, if_pos rfl]
  empty k hk := by
    cases hk
    have hne : fs.nextRef ≠ r := Nat.ne_of_gt (h.below r d hd)
    rw [VirtualFilesystem.setDirectory_directories, if_neg hne,
      VirtualFilesystem.newDirectory_directories, if_pos rfl]
  kept x dx hx hdx := by
    have hne : x ≠ fs.nextRef := Nat.ne_of_lt (h.below x dx hdx)
    rw [VirtualFilesystem.setDirectory_directories, if_neg hx,
      VirtualFilesystem.newDirectory_directories, if_neg hne, hdx]

theorem Directory.append_findFile (d : Directory) {file : AbstractFile}
    (habsent : d.findFile file.name = none) (n : Name) :
    Directory.findFile { d with files := d.files ++ [file] } n =
      if n = file.name then some file else d.findFile n := by
  rw [Directory.findFile, List.find?_append, ← Directory.findFile]
  split_ifs with hn
  · rw [hn, habsent]
    simp
  · simp [Ne.symm hn]

/-! ## Removal -/

/-- With distinct names, erasing the first file of a name leaves none of that name. -/
theorem eraseP_name {files : List AbstractFile} (h : (files.map AbstractFile.name).Nodup)
    (name : Name) :
    files.eraseP (fun file => decide (file.name = name)) =
      files.filter fun file => decide (file.name ≠ name) := by
  induction files with
  | nil => rfl
  | cons file files ih =>
    rw [List.map_cons, List.nodup_cons] at h
    by_cases hname : file.name = name
    · rw [List.eraseP_cons_of_pos (by simpa using hname),
        List.filter_cons_of_neg (by simpa using hname)]
      refine (List.filter_eq_self.mpr fun file' hfile' => ?_).symm
      simp only [ne_eq, decide_eq_true_eq]
      intro hname'
      exact h.1 (List.mem_map.mpr ⟨file', hfile', hname'.trans hname.symm⟩)
    · rw [List.eraseP_cons_of_neg (by simpa using hname),
        List.filter_cons_of_pos (by simpa using hname), ih h.2]

/-- The files with other names. -/
def Directory.without (d : Directory) (name : Name) : Directory :=
  { d with files := d.files.filter fun file => decide (file.name ≠ name) }

/-- The directory `x` is freed with `file`. -/
def VirtualFilesystem.FreedWith (fs : VirtualFilesystem) (file : AbstractFile) (x : Ref) : Prop :=
  ∃ k, file.directory = some k ∧ fs.InTree k x

/-- What `removeFrom` leaves: the directory without the file, the rest of the directories
without the subtree of the file. -/
structure Removed (fs fs' : VirtualFilesystem) (root : Ref) (d : Directory) (file : AbstractFile) :
    Prop where
  mountpoints : fs'.mountpoints = fs.mountpoints
  nextRef : fs'.nextRef = fs.nextRef
  scanner : fs'.scanner = fs.scanner
  changed : fs'.directories root = some (d.without file.name)
  freed : ∀ x, x ≠ root → fs.FreedWith file x → fs'.directories x = none
  kept : ∀ x, x ≠ root → ¬ fs.FreedWith file x → fs'.directories x = fs.directories x

theorem VirtualFilesystem.WellFormed.removeFrom {fs : VirtualFilesystem} (h : fs.WellFormed)
    {root : Ref} {d : Directory} (hd : fs.directories root = some d) {name : Name}
    {file : AbstractFile} (hfile : d.findFile name = some file) :
    ∃ fs', fs.removeFrom root name = .ok fs' ∧ Removed fs fs' root d file := by
  obtain ⟨hmem, rfl⟩ := Directory.findFile_some hfile
  have herase := eraseP_name (h.ok root d hd).names file.name
  have hdelete : ∃ directories, deleteFile (fs.nextRef + 1) fs.directories file = .ok directories ∧
      (∀ x, fs.FreedWith file x → directories x = none) ∧
      ∀ x, ¬ fs.FreedWith file x → directories x = fs.directories x := by
    cases hk : file.directory with
    | none =>
      refine ⟨fs.directories, by rw [deleteFile, hk], ?_, fun _ _ => rfl⟩
      rintro x ⟨k, hk', -⟩
      rw [hk] at hk'
      cases hk'
    | some k =>
      have hchild : Child fs.directories root k := ⟨d, hd, file, hmem, hk⟩
      obtain ⟨dk, hdk, -⟩ := h.child_live hchild
      obtain ⟨directories, hrun, hgone, hkept⟩ :=
        deleteFile_directory h fs.nextRef fs.directories hk ⟨dk, hdk⟩ (fun _ _ => rfl)
          (Nat.lt_succ_of_le (Nat.le_add_left ..))
      refine ⟨directories, hrun, ?_, fun x hx => hkept x fun hin => hx ⟨k, hk, hin⟩⟩
      rintro x ⟨k', hk', hx⟩
      rw [hk] at hk'
      cases hk'
      exact hgone x hx
  obtain ⟨directories, hrun, hgone, hkept⟩ := hdelete
  refine ⟨VirtualFilesystem.setDirectory { fs with directories := directories } root
    (d.without file.name), ?_, ⟨rfl, rfl, rfl, ?_, fun x hne hx => ?_, fun x hne hx => ?_⟩⟩
  · rw [VirtualFilesystem.removeFrom, fs.deref_eq hd, ok_bind]
    simp only [hfile, hrun, herase]
    rfl
  · rw [VirtualFilesystem.setDirectory_directories, if_pos rfl]
  · rw [VirtualFilesystem.setDirectory_directories, if_neg hne]
    exact hgone x hx
  · rw [VirtualFilesystem.setDirectory_directories, if_neg hne]
    exact hkept x hx

section Removed

variable {fs fs' : VirtualFilesystem} {root : Ref} {d : Directory} {file : AbstractFile}

/-- A mount point is not freed. -/
theorem VirtualFilesystem.WellFormed.not_freed_root (h : fs.WellFormed)
    (hd : fs.directories root = some d) (hfile : file ∈ d.files) {r : Ref} {dr : Directory}
    (hr : fs.directories r = some dr) (hself : dr.previousDirectory = r) :
    ¬ fs.FreedWith file r := by
  rintro ⟨k, hk, hin⟩
  have hchild : Child fs.directories root k := ⟨d, hd, file, hfile, hk⟩
  by_cases heq : r = k
  · exact h.not_child_root hr hself (heq ▸ hchild)
  · exact h.not_child_root hr hself (h.forest.owns_owner hin heq).2

/-- Neither is the directory that holds the file. -/
theorem VirtualFilesystem.WellFormed.not_freed_self (h : fs.WellFormed)
    (hd : fs.directories root = some d) (hfile : file ∈ d.files) : ¬ fs.FreedWith file root := by
  rintro ⟨k, hk, hin⟩
  exact h.forest.not_owns_owner ⟨d, hd, file, hfile, hk⟩ hin

/-- What another file owns is freed only with its owner. -/
theorem VirtualFilesystem.WellFormed.not_freed_child (h : fs.WellFormed)
    (hd : fs.directories root = some d) (hfile : file ∈ d.files) {r k : Ref} {dr : Directory}
    (hr : fs.directories r = some dr) (hfreed : ¬ fs.FreedWith file r) {file' : AbstractFile}
    (hfile' : file' ∈ dr.files) (hk : file'.directory = some k)
    (hother : r = root → file' ≠ file) : ¬ fs.FreedWith file k := by
  rintro ⟨k', hk', hin⟩
  have hchild : Child fs.directories root k' := ⟨d, hd, file, hfile, hk'⟩
  have hchild' : Child fs.directories r k := ⟨dr, hr, file', hfile', hk⟩
  by_cases heq : k = k'
  · subst heq
    have hroot : r = root := (h.forest.owner_eq hchild').symm.trans (h.forest.owner_eq hchild)
    subst hroot
    rw [hd] at hr
    cases hr
    exact hother rfl ((h.ok r d hd).file_eq hfile' hfile hk hk')
  · obtain ⟨howner, -⟩ := h.forest.owns_owner hin heq
    rw [h.forest.owner_eq hchild'] at howner
    exact hfreed ⟨k', hk', howner⟩

/-- A live directory other than the one that held the file is an old one. -/
theorem Removed.of_live (hremoved : Removed fs fs' root d file) {r : Ref} {d' : Directory}
    (hd' : fs'.directories r = some d') (hr : r ≠ root) :
    fs.directories r = some d' ∧ ¬ fs.FreedWith file r := by
  have hfreed : ¬ fs.FreedWith file r := by
    intro hfreed
    rw [hremoved.freed r hr hfreed] at hd'
    cases hd'
  rw [hremoved.kept r hr hfreed] at hd'
  exact ⟨hd', hfreed⟩

/-- A directory that is not freed stays where it is. -/
theorem Removed.keep (hremoved : Removed fs fs' root d file)
    (hd : fs.directories root = some d) {k : Ref} {d₀ : Directory}
    (hd₀ : fs.directories k = some d₀) (hfreed : ¬ fs.FreedWith file k) :
    ∃ d', fs'.directories k = some d' ∧ d'.previousDirectory = d₀.previousDirectory := by
  by_cases hk : k = root
  · subst hk
    rw [hd] at hd₀
    cases hd₀
    exact ⟨_, hremoved.changed, rfl⟩
  · exact ⟨d₀, (hremoved.kept k hk hfreed).trans hd₀, rfl⟩

/-- The directory that held the file is good without it. -/
theorem Removed.ok_changed (hremoved : Removed fs fs' root d file) (h : fs.WellFormed)
    (hd : fs.directories root = some d) (hfile : file ∈ d.files) :
    DirectoryOk fs'.directories root (d.without file.name) := by
  have hok := h.ok root d hd
  have hsub : (d.without file.name).files.Sublist d.files := List.filter_sublist
  refine ⟨hok.names.sublist (hsub.map _),
    fun file' hfile' => hok.valid file' (hsub.subset hfile'),
    fun file' hfile' => hok.tagged file' (hsub.subset hfile'), fun file' hfile' k hk => ?_,
    hok.refs.sublist (hsub.filterMap _)⟩
  obtain ⟨hmem, hname⟩ := List.mem_filter.mp hfile'
  obtain ⟨hlt, d₀, hd₀, hprev⟩ := hok.owned file' hmem k hk
  have hother : root = root → file' ≠ file := by
    rintro - rfl
    simp at hname
  have hfreed := h.not_freed_child hd hfile hd (h.not_freed_self hd hfile) hmem hk hother
  obtain ⟨d', hd', hprev'⟩ := hremoved.keep hd hd₀ hfreed
  exact ⟨hlt, d', hd', hprev'.trans hprev⟩

theorem Removed.wellFormed (hremoved : Removed fs fs' root d file) (h : fs.WellFormed)
    (hd : fs.directories root = some d) (hfile : file ∈ d.files) : fs'.WellFormed where
  ok r d' hd' := by
    by_cases hr : r = root
    · subst hr
      rw [hremoved.changed] at hd'
      cases hd'
      exact hremoved.ok_changed h hd hfile
    · obtain ⟨hold, hfreed⟩ := hremoved.of_live hd' hr
      refine (h.ok r d' hold).mono fun file' hfile' k hk d₀ hd₀ => hremoved.keep hd hd₀ ?_
      exact h.not_freed_child hd hfile hold hfreed hfile' hk fun heq => absurd heq hr
  below r d' hd' := by
    rw [hremoved.nextRef]
    by_cases hr : r = root
    · exact hr ▸ h.below root d hd
    · exact h.below r d' (hremoved.of_live hd' hr).1
  roots name mp hmp := by
    rw [hremoved.mountpoints] at hmp
    obtain ⟨d₀, hd₀, hself⟩ := h.roots name mp hmp
    obtain ⟨d', hd', hprev⟩ := hremoved.keep hd hd₀ (h.not_freed_root hd hfile hd₀ hself)
    exact ⟨d', hd', hprev.trans hself⟩

end Removed

end Betavita.Vfs
