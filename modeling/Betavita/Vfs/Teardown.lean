import Betavita.Vfs.Run

/-!
# vfs.cpp — the end of a filesystem

The destructor deletes the mount points in the order in which the map is gone through,
each of them its root, and each directory its files. That frees every directory once,
since a directory has one place in one of the trees: there is no pointer to it but from
its owner, and no mount point shares a root with another.
-/

namespace Betavita.Vfs

open Ownership Results

/-- `delete i.second` for the mount point of that name: `~MountPoint` deletes the root. -/
def VirtualFilesystem.deleteMountpoint (fs : VirtualFilesystem) (directories : Directories)
    (name : Name) : Except Fault Directories :=
  match fs.mountpoints name with
  | none => .error .nullMountpoint
  | some mp => deleteFile (fs.nextRef + 1) directories
      ⟨0, ['n', 'o', 'n', 'a', 'm', 'e'], some mp.root⟩

/-- `~VirtualFilesystem`, given the order in which the names are gone through: the
directories that are left. -/
def VirtualFilesystem.delete (fs : VirtualFilesystem) (order : List Name) :
    Except Fault Directories :=
  order.foldlM fs.deleteMountpoint fs.directories

/-- The root of a mount point. -/
def VirtualFilesystem.IsRoot (fs : VirtualFilesystem) (r : Ref) : Prop :=
  ∃ name mp, fs.mountpoints name = some mp ∧ mp.root = r

/-- The mount points have different roots, and every directory is one of these or a file of
its `previousDirectory`. -/
structure VirtualFilesystem.Rooted (fs : VirtualFilesystem) : Prop where
  apart : ∀ name name' mp mp', fs.mountpoints name = some mp → fs.mountpoints name' = some mp' →
    mp.root = mp'.root → name = name'
  held : ∀ r d, fs.directories r = some d →
    fs.IsRoot r ∨ Child fs.directories d.previousDirectory r

theorem VirtualFilesystem.Rooted.new : VirtualFilesystem.new.Rooted where
  apart name name' mp mp' hmp := by cases hmp
  held r d hd := by cases hd

/-- Only the mount points and the directories count. -/
theorem VirtualFilesystem.Rooted.congr {fs fs' : VirtualFilesystem} (h : fs.Rooted)
    (hmount : fs'.mountpoints = fs.mountpoints) (hdir : fs'.directories = fs.directories) :
    fs'.Rooted where
  apart := by
    rw [hmount]
    exact h.apart
  held := by
    unfold VirtualFilesystem.IsRoot
    rw [hmount, hdir]
    exact h.held

/-- A directory stays where it is held if its owner keeps it. -/
theorem Child.keep {directories directories' : Directories} {a b : Ref}
    (h : Child directories a b)
    (hkeep : ∀ d, directories a = some d → ∃ d', directories' a = some d' ∧
      ∀ file ∈ d.files, file.directory = some b → file ∈ d'.files) : Child directories' a b := by
  obtain ⟨d, hd, file, hfile, hb⟩ := h
  obtain ⟨d', hd', hin⟩ := hkeep d hd
  exact ⟨d', hd', file, hin file hfile hb, hb⟩

theorem VirtualFilesystem.Rooted.mount {fs : VirtualFilesystem} (h : fs.Rooted)
    (hwf : fs.WellFormed) (name : Name) : (fs.mount name).1.Rooted := by
  unfold VirtualFilesystem.mount
  split
  · exact h
  · rename_i hnone
    have hold : ∀ n mp, fs.mountpoints n = some mp → mp.root ≠ fs.nextRef := by
      intro n mp hmp
      obtain ⟨d, hd, -⟩ := hwf.roots n mp hmp
      exact Nat.ne_of_lt (hwf.below _ d hd)
    have hmount : ∀ n mp, Function.update fs.mountpoints name (some ⟨name, fs.nextRef⟩) n =
        some mp ↔ (n = name ∧ mp = ⟨name, fs.nextRef⟩) ∨ fs.mountpoints n = some mp := by
      intro n mp
      by_cases hn : n = name
      · subst hn
        simp [hnone, eq_comm]
      · simp [hn]
    constructor
    · intro n n' mp mp' hmp hmp' hroot
      rcases (hmount n mp).mp hmp with ⟨rfl, rfl⟩ | hsome <;>
        rcases (hmount n' mp').mp hmp' with ⟨rfl, rfl⟩ | hsome'
      · rfl
      · exact absurd hroot.symm (hold n' mp' hsome')
      · exact absurd hroot (hold n mp hsome)
      · exact h.apart n n' mp mp' hsome hsome' hroot
    · intro r d hd
      have hd' : (fs.newDirectory fs.nextRef).directories r = some d := hd
      rw [VirtualFilesystem.newDirectory_directories] at hd'
      split at hd'
      · rename_i hr
        exact .inl ⟨name, ⟨name, fs.nextRef⟩, (hmount _ _).mpr (.inl ⟨rfl, rfl⟩), hr.symm⟩
      · rcases h.held r d hd' with ⟨n, mp, hmp, hroot⟩ | hchild
        · exact .inl ⟨n, mp, (hmount n mp).mpr (.inr hmp), hroot⟩
        · refine .inr (hchild.keep fun dp hdp => ⟨dp, ?_, fun file hfile _ => hfile⟩)
          have hne : d.previousDirectory ≠ fs.nextRef := Nat.ne_of_lt (hwf.below _ dp hdp)
          show (fs.newDirectory fs.nextRef).directories _ = _
          rw [VirtualFilesystem.newDirectory_directories, if_neg hne, hdp]

/-! ## Creation -/

/-- Every directory that there is afterwards was there before, the one that holds the new
file and the one that is the new file apart. -/
def OnlyAppended (fs fs' : VirtualFilesystem) (r : Ref) (file : AbstractFile) : Prop :=
  ∀ x d', fs'.directories x = some d' →
    x = r ∨ file.directory = some x ∨ fs.directories x = some d'

theorem VirtualFilesystem.Rooted.appended {fs fs' : VirtualFilesystem} (h : fs.Rooted)
    {r : Ref} {d : Directory} {file : AbstractFile} (hd : fs.directories r = some d)
    (hadded : Appended fs fs' r d file) (honly : OnlyAppended fs fs' r file) : fs'.Rooted where
  apart := by
    rw [hadded.mountpoints]
    exact h.apart
  held x d' hd' := by
    -- what held an old directory holds it still
    have hold : ∀ dx, fs.directories x = some dx →
        fs'.IsRoot x ∨ Child fs'.directories dx.previousDirectory x := by
      intro dx hdx
      rcases h.held x dx hdx with ⟨n, mp, hmp, hroot⟩ | hchild
      · exact .inl ⟨n, mp, hadded.mountpoints ▸ hmp, hroot⟩
      · refine .inr (hchild.keep fun dp hdp => ?_)
        by_cases hp : dx.previousDirectory = r
        · rw [hp] at hdp ⊢
          rw [hd] at hdp
          cases hdp
          exact ⟨_, hadded.changed, fun file' hfile' _ => List.mem_append_left _ hfile'⟩
        · exact ⟨dp, hadded.kept _ dp hp hdp, fun file' hfile' _ => hfile'⟩
    rcases honly x d' hd' with rfl | hnew | hx
    · rw [hadded.changed] at hd'
      cases hd'
      exact hold d hd
    · rw [hadded.empty x hnew] at hd'
      cases hd'
      exact .inr ⟨_, hadded.changed, file, by simp, hnew⟩
    · exact hold d' hx

theorem createLoop_last_only {fs fs' : VirtualFilesystem} {r : Ref} {d : Directory}
    (hfs : fs.WellFormed) (hd : fs.directories r = some d) {i : Name} (hup : i ≠ ['.', '.'])
    (hdot : i ≠ ['.']) (hnone : d.findFile i = none) {fileType : Int}
    (hcreatable : creatable fileType = true) {x : Nat} {created : Bool}
    (hrun : createLoop fileType (x + 1) fs r x [i] = .ok (fs', created)) :
    ∃ file, Appended fs fs' r d file ∧ OnlyAppended fs fs' r file := by
  rw [createLoop.eq_def] at hrun
  simp only [if_neg hup, if_neg hdot, fs.deref_eq hd, ok_bind, hnone, ne_eq, not_true,
    if_false] at hrun
  by_cases hdir : fileType = FILE_TYPE_DIRECTORY
  · have hr : r ≠ fs.nextRef := Nat.ne_of_lt (hfs.below r d hd)
    have hd' : (fs.newDirectory r).directories r = some d := by
      rw [VirtualFilesystem.newDirectory_directories, if_neg hr, hd]
    rw [if_pos hdir, (fs.newDirectory r).addFile_eq hd'] at hrun
    cases hrun
    refine ⟨_, .directory hfs hd fileType i, fun x d' hx => ?_⟩
    rw [VirtualFilesystem.setDirectory_directories,
      VirtualFilesystem.newDirectory_directories] at hx
    split at hx
    · exact .inl (by assumption)
    · split at hx
      · rename_i hnew
        exact .inr (.inl (by rw [hnew]))
      · exact .inr (.inr hx)
  · have hreg : fileType = FILE_TYPE_FILE := by simpa [creatable, hdir] using hcreatable
    rw [if_neg hdir, if_pos hreg, fs.addFile_eq hd] at hrun
    cases hrun
    refine ⟨_, .regular fs r d fileType i, fun x d' hx => ?_⟩
    rw [VirtualFilesystem.setDirectory_directories] at hx
    split at hx
    · exact .inl (by assumption)
    · exact .inr (.inr hx)

/-- The loop of `createFile` returns the filesystem it was given, or adds one file to it. -/
theorem createLoop_rooted {fs fs' : VirtualFilesystem} (hfs : fs.WellFormed) (h : fs.Rooted)
    {fileType : Int} {r : Ref} (hsound : fs.Sound r) {x : Nat} {branches : List Name}
    {created : Bool}
    (hrun : createLoop fileType (x + branches.length) fs r x branches = .ok (fs', created)) :
    fs'.Rooted := by
  induction branches generalizing r x with
  | nil =>
    cases hrun
    exact h
  | cons i branches ih =>
    have hsize : x + (i :: branches).length = x + 1 + branches.length := by
      rw [List.length_cons]
      omega
    obtain ⟨d, hd⟩ := hsound.live
    by_cases hup : i = ['.', '.']
    · subst hup
      rw [createLoop_up hd, hsize] at hrun
      exact ih (hsound.up hd) hrun
    by_cases hdot : i = ['.']
    · subst hdot
      rw [createLoop_stay, hsize] at hrun
      exact ih hsound hrun
    cases hfile : d.findFile i with
    | some file =>
      rw [createLoop_found hd hup hdot hfile] at hrun
      split at hrun
      · cases hrun
        exact h
      · rename_i htype
        obtain ⟨k, -, hcast, hk⟩ := hsound.enter hd hfile (not_not.mp htype)
        rw [hcast, ok_bind, hsize] at hrun
        exact ih hk hrun
    | none =>
      by_cases hlast : (branches.isEmpty && creatable fileType) = true
      · obtain ⟨hnil, hcreatable⟩ := Bool.and_eq_true_iff.mp hlast
        rw [List.isEmpty_iff] at hnil
        subst hnil
        obtain ⟨file, hadded, honly⟩ :=
          createLoop_last_only hfs hd hup hdot hfile hcreatable hrun
        exact h.appended hd hadded honly
      · rw [createLoop_missing hd hup hdot hfile hlast] at hrun
        cases hrun
        exact h

/-! ## Removal -/

theorem VirtualFilesystem.Rooted.removed {fs fs' : VirtualFilesystem} (h : fs.Rooted)
    (hfs : fs.WellFormed) {root : Ref} {d : Directory} {file : AbstractFile}
    (hd : fs.directories root = some d) (hfile : file ∈ d.files)
    (hremoved : Removed fs fs' root d file) : fs'.Rooted where
  apart := by
    rw [hremoved.mountpoints]
    exact h.apart
  held x d' hd' := by
    have hold : ∀ dx, fs.directories x = some dx → ¬ fs.FreedWith file x →
        fs'.IsRoot x ∨ Child fs'.directories dx.previousDirectory x := by
      intro dx hdx hfreed
      rcases h.held x dx hdx with ⟨n, mp, hmp, hroot⟩ | hchild
      · exact .inl ⟨n, mp, hremoved.mountpoints ▸ hmp, hroot⟩
      · refine .inr (hchild.keep fun dp hdp => ?_)
        by_cases hp : dx.previousDirectory = root
        · rw [hp] at hdp ⊢
          rw [hd] at hdp
          cases hdp
          refine ⟨_, hremoved.changed, fun file' hfile' hx => List.mem_filter.mpr ⟨hfile', ?_⟩⟩
          -- the file of that name is the one that is freed, with the directory
          have hne : file' ≠ file := by
            rintro rfl
            exact hfreed ⟨x, hx, .refl⟩
          have hname := List.inj_on_of_nodup_map (hfs.ok root d hd).names hfile' hfile
          simpa using mt hname hne
        · -- a directory that is freed takes its files with it
          have hkept : ¬ fs.FreedWith file dx.previousDirectory := by
            rintro ⟨k, hk, hin⟩
            exact hfreed ⟨k, hk, hin.tail hchild⟩
          exact ⟨dp, (hremoved.kept _ hp hkept).trans hdp, fun file' hfile' _ => hfile'⟩
    by_cases hx : x = root
    · subst hx
      rw [hremoved.changed] at hd'
      cases hd'
      exact hold d hd (hfs.not_freed_self hd hfile)
    · obtain ⟨hlive, hfreed⟩ := hremoved.of_live hd' hx
      exact hold d' hlive hfreed

theorem removeFile_rooted {fs fs' : VirtualFilesystem} (hfs : fs.WellFormed) (h : fs.Rooted)
    {path : List Char} {removed : Bool} (hrun : fs.removeFile path = .ok (fs', removed)) :
    fs'.Rooted := by
  have hwf := hfs.setScanner (parse fs.scanner).2
  have hrooted : VirtualFilesystem.Rooted { fs with scanner := (parse fs.scanner).2 } :=
    h.congr rfl rfl
  obtain ⟨top, -, hrun⟩ := bind_ok.mp hrun
  obtain ⟨⟨root, last⟩, -, hrun⟩ := bind_ok.mp hrun
  dsimp only at hrun
  split at hrun
  · obtain ⟨d, hderef, hrun⟩ := bind_ok.mp hrun
    split at hrun
    · rename_i hfound
      obtain ⟨fs₁, hremove, hrun⟩ := bind_ok.mp hrun
      cases hrun
      have hd : fs.directories root = some d := by
        unfold VirtualFilesystem.deref at hderef
        split at hderef
        · cases hderef
        · rename_i hsome
          cases hderef
          exact hsome
      obtain ⟨file, hfile⟩ := Option.isSome_iff_exists.mp hfound
      obtain ⟨fs₂, hremove', hremoved⟩ := hwf.removeFrom hd hfile
      rw [hremove] at hremove'
      cases hremove'
      exact hrooted.removed hwf hd (Directory.findFile_some hfile).1 hremoved
    · cases hrun
      exact hrooted
  · cases hrun
    exact hrooted

/-! ## Runs -/

theorem perform_rooted {fs fs' : VirtualFilesystem} (hfs : fs.WellFormed) {mp : MountPoint}
    (hmp : fs.mountpoints ['u', 'x', '0'] = some mp) (h : fs.Rooted) {call : VfsCall}
    (hrun : fs.perform call = .ok fs') : fs'.Rooted := by
  cases call with
  | mount name =>
    cases hrun
    exact h.mount hfs name
  | createFile fileType path =>
    obtain ⟨⟨fs₁, created⟩, hcreate, hrun⟩ := bind_ok.mp hrun
    cases hrun
    obtain ⟨root, hroot, hloop⟩ := bind_ok.mp hcreate
    have hux0 := VirtualFilesystem.ux0Root_eq { fs with scanner := (parse path).2 } hmp
    rw [hux0] at hroot
    cases hroot
    have hwf := hfs.setScanner (parse path).2
    have hrooted : VirtualFilesystem.Rooted { fs with scanner := (parse path).2 } :=
      h.congr rfl rfl
    rw [← Nat.zero_add (parse path).1.length] at hloop
    exact createLoop_rooted hwf hrooted (hwf.ux0_sound hmp) hloop
  | removeFile path =>
    obtain ⟨⟨fs₁, removed⟩, hremove, hrun⟩ := bind_ok.mp hrun
    cases hrun
    exact removeFile_rooted hfs h hremove
  | getFile path =>
    obtain ⟨s, hget⟩ := getFile_ok hfs hmp path
    rw [VirtualFilesystem.perform, hget] at hrun
    cases hrun
    exact h.congr rfl rfl

theorem run_rooted {fs : VirtualFilesystem} (hfs : fs.WellFormed) {mp : MountPoint}
    (hmp : fs.mountpoints ['u', 'x', '0'] = some mp) (h : fs.Rooted) (calls : List VfsCall) :
    ∃ fs', calls.foldlM VirtualFilesystem.perform fs = .ok fs' ∧ fs'.WellFormed ∧
      fs'.Rooted := by
  induction calls generalizing fs with
  | nil => exact ⟨fs, rfl, hfs, h⟩
  | cons call calls ih =>
    obtain ⟨fs₁, hcall, hfs₁, hmp₁⟩ := perform_ok hfs hmp call
    obtain ⟨fs', hrun, hfs'⟩ := ih hfs₁ hmp₁ (perform_rooted hfs hmp h hcall)
    refine ⟨fs', ?_, hfs'⟩
    rw [List.foldlM_cons, hcall]
    exact hrun

theorem mounted_rooted (names : List Name) : (VirtualFilesystem.mounted names).Rooted := by
  have hfold : ∀ {fs : VirtualFilesystem}, fs.WellFormed → fs.Rooted →
      (names.foldl (fun fs name => (fs.mount name).1) fs).WellFormed ∧
        (names.foldl (fun fs name => (fs.mount name).1) fs).Rooted := by
    induction names with
    | nil => exact fun h h' => ⟨h, h'⟩
    | cons name names ih => exact fun h h' => ih (h.mount name) (h'.mount h name)
  obtain ⟨hwf, hrooted⟩ := hfold .new .new
  exact hrooted.mount hwf _

/-! ## The destructor -/

section Delete

variable {fs : VirtualFilesystem} (hfs : fs.WellFormed) (h : fs.Rooted)
include hfs

/-- Deleting a mount point whose tree is all there frees its tree. -/
theorem deleteMountpoint_ok {name : Name} {mp : MountPoint}
    (hmp : fs.mountpoints name = some mp) {directories : Directories}
    (hthere : ∀ x, fs.InTree mp.root x → directories x = fs.directories x) :
    ∃ directories', fs.deleteMountpoint directories name = .ok directories' ∧
      (∀ x, fs.InTree mp.root x → directories' x = none) ∧
      ∀ x, ¬ fs.InTree mp.root x → directories' x = directories x := by
  obtain ⟨d, hd, -⟩ := hfs.roots name mp hmp
  have hfuel : fs.nextRef < mp.root + fs.nextRef + 1 := Nat.lt_succ_of_le (Nat.le_add_left ..)
  rw [VirtualFilesystem.deleteMountpoint, hmp]
  exact deleteFile_directory hfs fs.nextRef directories rfl ⟨d, hd⟩ hthere hfuel

include h

/-- The trees of different mount points have nothing in common. -/
theorem mountpoints_apart {name name' : Name} {mp mp' : MountPoint}
    (hmp : fs.mountpoints name = some mp) (hmp' : fs.mountpoints name' = some mp')
    (hne : name ≠ name') {x : Ref} (hx : fs.InTree mp.root x) : ¬ fs.InTree mp'.root x := by
  intro hx'
  obtain ⟨d, hd, hself⟩ := hfs.roots name mp hmp
  obtain ⟨d', hd', hself'⟩ := hfs.roots name' mp' hmp'
  have hroot := hfs.forest.top_unique (fun _ => hfs.not_child_root hd hself)
    (fun _ => hfs.not_child_root hd' hself') hx hx'
  exact hne (h.apart name name' mp mp' hmp hmp' hroot)

/-- The mount points one after another. -/
theorem deleteMountpoints_ok {order : List Name} (hnodup : order.Nodup)
    (hmounted : ∀ name ∈ order, ∃ mp, fs.mountpoints name = some mp) {directories : Directories}
    (hthere : ∀ name ∈ order, ∀ mp, fs.mountpoints name = some mp →
      ∀ x, fs.InTree mp.root x → directories x = fs.directories x) :
    ∃ directories', order.foldlM fs.deleteMountpoint directories = .ok directories' ∧
      (∀ name ∈ order, ∀ mp, fs.mountpoints name = some mp →
        ∀ x, fs.InTree mp.root x → directories' x = none) ∧
      ∀ x, directories x = none → directories' x = none := by
  induction order generalizing directories with
  | nil => exact ⟨directories, rfl, by simp, fun _ hx => hx⟩
  | cons name order ih =>
    obtain ⟨hname, hnodup⟩ := List.nodup_cons.mp hnodup
    obtain ⟨mp, hmp⟩ := hmounted name (List.mem_cons_self ..)
    obtain ⟨directories₁, hfirst, hgone₁, hkept₁⟩ :=
      deleteMountpoint_ok hfs hmp (hthere name (List.mem_cons_self ..) mp hmp)
    -- the trees of the other mount points are untouched
    have hthere₁ : ∀ name' ∈ order, ∀ mp', fs.mountpoints name' = some mp' →
        ∀ x, fs.InTree mp'.root x → directories₁ x = fs.directories x := by
      intro name' hin mp' hmp' x hx
      have hne : name' ≠ name := by
        rintro rfl
        exact hname hin
      rw [hkept₁ x (mountpoints_apart hfs h hmp' hmp hne hx)]
      exact hthere name' (List.mem_cons_of_mem name hin) mp' hmp' x hx
    obtain ⟨directories', hrun, hgone, hnone⟩ := ih hnodup
      (fun name' hin => hmounted name' (List.mem_cons_of_mem name hin)) hthere₁
    refine ⟨directories', ?_, fun name' hin mp' hmp' x hx => ?_, fun x hx => hnone x ?_⟩
    · rw [List.foldlM_cons, hfirst]
      exact hrun
    · rcases List.mem_cons.mp hin with rfl | hin
      · rw [hmp] at hmp'
        cases hmp'
        exact hnone x (hgone₁ x hx)
      · exact hgone name' hin mp' hmp' x hx
    · by_cases hin : fs.InTree mp.root x
      · exact hgone₁ x hin
      · rw [hkept₁ x hin, hx]

/-- Every directory is in the tree of a mount point. -/
theorem VirtualFilesystem.Rooted.inTree {r : Ref} {d : Directory}
    (hd : fs.directories r = some d) :
    ∃ name mp, fs.mountpoints name = some mp ∧ fs.InTree mp.root r := by
  have hlive : ∀ b, (∃ d, fs.directories b = some d) → fs.IsRoot b ∨
      (∃ d, fs.directories (ownerOf fs.directories b) = some d) ∧
        Child fs.directories (ownerOf fs.directories b) b := by
    rintro b ⟨db, hdb⟩
    apply (h.held b db hdb).imp_right
    intro hchild
    have howner : ownerOf fs.directories b = db.previousDirectory := by simp [ownerOf, hdb]
    rw [howner]
    obtain ⟨dp, hdp, hfile⟩ := hchild
    exact ⟨⟨dp, hdp⟩, dp, hdp, hfile⟩
  obtain ⟨root, ⟨name, mp, hmp, rfl⟩, hin⟩ := hfs.forest.exists_top hlive ⟨d, hd⟩
  exact ⟨name, mp, hmp, hin⟩

end Delete

/-- After every sequence of calls, in whatever order the destructor goes through the mount
points: it follows no pointer to a directory that is deleted, and deletes every directory
of every tree. -/
theorem destructor_frees_all (names : List Name) (calls : List VfsCall) :
    ∃ fs, calls.foldlM VirtualFilesystem.perform (.mounted names) = .ok fs ∧
      ∀ order : List Name, order.Nodup →
        (∀ name, name ∈ order ↔ (fs.mountpoints name).isSome) →
        ∃ directories, fs.delete order = .ok directories ∧ ∀ r, directories r = none := by
  obtain ⟨h₀, mp, hmp₀⟩ := mounted_ok names
  obtain ⟨fs, hrun, hfs, h⟩ := run_rooted h₀ hmp₀ (mounted_rooted names) calls
  refine ⟨fs, hrun, fun order hnodup horder => ?_⟩
  have hmounted : ∀ name ∈ order, ∃ mp, fs.mountpoints name = some mp :=
    fun name hin => Option.isSome_iff_exists.mp ((horder name).mp hin)
  obtain ⟨directories, hdelete, hgone, hnone⟩ :=
    deleteMountpoints_ok hfs h hnodup hmounted fun _ _ _ _ _ _ => rfl
  refine ⟨directories, hdelete, fun r => ?_⟩
  cases hd : fs.directories r with
  | none => exact hnone r hd
  | some d =>
    obtain ⟨name, mp, hmp, hin⟩ := h.inTree hfs hd
    exact hgone name ((horder name).mpr (by simp [hmp])) mp hmp r hin

end Betavita.Vfs
