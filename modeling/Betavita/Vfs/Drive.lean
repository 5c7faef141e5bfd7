import Betavita.Lib.Simulation
import Betavita.Vfs.GetFile
import Betavita.Vfs.RemoveFile
import Betavita.Vfs.Spellings

/-!
# vfs.cpp — what the callers of the filesystem can tell

A drive is the mounted names, the tree of `ux0` and the text that is left in the scanner:
no pointers, no objects. The calls on a drive are the specification, and the filesystem
with its pointers and its deletions implements it, whatever was called before.
-/

namespace Betavita.Vfs

open PathWalk Results Simulation

structure Drive where
  mounted : Name → Bool
  tree : Tree Name Int
  pending : List Char

/-- What a call returns. -/
inductive Answer
  | done (ok : Bool)
  | path (s : List Char)
deriving DecidableEq, Repr

/-! ## Paths along a walk -/

/-- A walk that goes on from a regular file in the directory of that file: the directory,
and the entries that were not taken back, the last one first, each with whether it is a
directory. -/
structure Trail where
  dir : List Name
  entered : List (Name × Bool)

def trailStep (T : Tree Name Int) (t : Trail) : Component Name → Option Trail
  | .stay => some t
  | .up => some ⟨t.dir.dropLast, t.entered.tail⟩
  | .name n => (T.kind t.dir n).map fun k =>
      ⟨if isDirectory k then t.dir ++ [n] else t.dir, (n, isDirectory k) :: t.entered⟩

/-- The names of the entries, the first one first, with a slash behind each directory. -/
def spelled : List (Name × Bool) → List Char
  | [] => []
  | e :: entered => spelled entered ++ e.1 ++ if e.2 then ['/'] else []

/-- The path that is spelled along the walk, or none if a name is missing. -/
def spelledPath (T : Tree Name Int) (components : List (Component Name)) : List Char :=
  match components.foldlM (trailStep T) ⟨[], []⟩ with
  | none => []
  | some t => spelled t.entered

/-! ## The calls -/

/-- Only `createFile` and `getFile` put their path in the scanner; `removeFile` takes the
name of an entry of the root from what they have left there. -/
def Drive.call (d : Drive) : VfsCall → Drive × Answer
  | .mount name => ({ d with mounted := Function.update d.mounted name true },
      .done (!d.mounted name))
  | .createFile fileType p =>
    let (branches, rest) := parse p
    match create isDirectory d.tree creatable fileType (branches.map componentOf) with
    | none => ({ d with pending := rest }, .done false)
    | some T => ({ d with tree := T, pending := rest }, .done true)
  | .removeFile _ =>
    let (branches, rest) := parse d.pending
    let name := lastName [] branches
    if (d.tree.kind [] name).isSome then
      ({ d with tree := d.tree.remove [name], pending := rest }, .done true)
    else ({ d with pending := rest }, .done false)
  | .getFile p =>
    let (branches, rest) := parse p
    ({ d with pending := rest }, .path (spelledPath d.tree (branches.map componentOf)))

/-- A drive on which nothing was created. -/
def Drive.blank (names : List Name) : Drive where
  mounted := fun name => decide (name ∈ names ∨ name = ['u', 'x', '0'])
  tree := fun path => if path = [] then some [] else none
  pending := []

/-- A call with its answer. -/
def VirtualFilesystem.answer (fs : VirtualFilesystem) :
    VfsCall → Except Fault (VirtualFilesystem × Answer)
  | .mount name => .ok ((fs.mount name).1, .done (fs.mount name).2)
  | .createFile fileType path => do
    let (fs, created) ← fs.createFile fileType path
    return (fs, .done created)
  | .removeFile path => do
    let (fs, removed) ← fs.removeFile path
    return (fs, .done removed)
  | .getFile path => do
    let (fs, s) ← fs.getFile path
    return (fs, .path s)

/-- What a filesystem shows. -/
def VirtualFilesystem.drive (fs : VirtualFilesystem) : Drive where
  mounted := fun name => (fs.mountpoints name).isSome
  tree := fs.tree
  pending := fs.scanner

/-- With `ux0` mounted. -/
structure VirtualFilesystem.Ready (fs : VirtualFilesystem) : Prop where
  wellFormed : fs.WellFormed
  ux0 : ∃ mp, fs.mountpoints ['u', 'x', '0'] = some mp

/-! ## getFile -/

/-- The paths before each of the entries was entered. -/
def spelledBefore : List (Name × Bool) → List (List Char)
  | [] => []
  | _ :: entered => spelled entered :: spelledBefore entered

/-- Taking back an entry takes back its path. -/
theorem pop_spelled (entered : List (Name × Bool)) :
    pop (spelled entered) (spelledBefore entered) =
      (spelled entered.tail, spelledBefore entered.tail) := by
  cases entered <;> rfl

/-- The loop of `getFile` spells the path of the walk. -/
theorem getLoop_spelled {fs : VirtualFilesystem} (h : fs.WellFormed) {top : Ref}
    {dtop : Directory} (htop : fs.directories top = some dtop)
    (hself : dtop.previousDirectory = top) {dir : List Name} {root : Ref}
    (hr : fs.dirAt top dir = some root) (entered : List (Name × Bool)) (branches : List Name) :
    getLoop fs root (spelled entered) (spelledBefore entered) branches =
      .ok (match (branches.map componentOf).foldlM (trailStep (fs.treeAt top)) ⟨dir, entered⟩ with
        | none => []
        | some t => spelled t.entered) := by
  induction branches generalizing dir root entered with
  | nil => rfl
  | cons i branches ih =>
    obtain ⟨d, hd⟩ := h.dirAt_live htop hr
    rw [List.map_cons, List.foldlM_cons]
    by_cases hup : i = ['.', '.']
    · subst hup
      rw [getLoop_up hd, pop_spelled]
      exact ih (h.dirAt_previous htop hself hr hd) entered.tail
    by_cases hdot : i = ['.']
    · subst hdot
      rw [getLoop.eq_def]
      exact ih hr entered
    have hkind := VirtualFilesystem.treeAt_kind hr hd i
    rw [getLoop_name hd hup hdot, componentOf_name hup hdot]
    cases hfile : d.findFile i with
    | none =>
      rw [hfile, Option.map_none] at hkind
      simp [trailStep, hkind]
    | some file =>
      rw [hfile, Option.map_some] at hkind
      obtain ⟨hmem, rfl⟩ := Directory.findFile_some hfile
      by_cases htype : file.type = FILE_TYPE_DIRECTORY
      · obtain ⟨k, hk, hcast, -⟩ := h.toDirectory hd hmem htype
        have hspelled : spelled entered ++ file.name ++ ['/'] =
            spelled ((file.name, true) :: entered) := rfl
        simp only [if_pos htype, hcast, ok_bind, hspelled]
        have hrest := ih (VirtualFilesystem.dirAt_enter hr hd hfile hk)
          ((file.name, true) :: entered)
        simpa [spelledBefore, trailStep, hkind, isDirectory, htype] using hrest
      · have hspelled : spelled entered ++ file.name =
            spelled ((file.name, false) :: entered) := by
          simp [spelled]
        simp only [if_neg htype, hspelled]
        have hrest := ih hr ((file.name, false) :: entered)
        simpa [spelledBefore, trailStep, hkind, isDirectory, htype] using hrest

/-! ## The other calls -/

/-- The tree is that of the directories below its root. -/
theorem VirtualFilesystem.treeAt_congr {fs fs' : VirtualFilesystem} {root : Ref}
    (h : ∀ r, fs.InTree root r → fs'.directories r = fs.directories r) :
    fs'.treeAt root = fs.treeAt root := by
  have hdir : ∀ path, fs'.dirAt root path = fs.dirAt root path := by
    intro path
    induction path using List.reverseRecOn with
    | nil => rfl
    | append_singleton path n ih =>
      rw [VirtualFilesystem.dirAt_concat, VirtualFilesystem.dirAt_concat, ih]
      apply Option.bind_congr
      intro r hr
      rw [h r (VirtualFilesystem.dirAt_inTree hr)]
  funext path
  rw [VirtualFilesystem.treeAt, VirtualFilesystem.treeAt, hdir]
  apply Option.bind_congr
  intro r hr
  rw [h r (VirtualFilesystem.dirAt_inTree hr)]

theorem VirtualFilesystem.mount_isSome (fs : VirtualFilesystem) (name n : Name) :
    ((fs.mount name).1.mountpoints n).isSome =
      (decide (n = name) || (fs.mountpoints n).isSome) := by
  unfold VirtualFilesystem.mount
  cases hname : fs.mountpoints name with
  | some mp => by_cases hn : n = name <;> simp [hn, hname]
  | none =>
    show (Function.update fs.mountpoints name _ n).isSome = _
    by_cases hn : n = name <;> simp [hn]

theorem VirtualFilesystem.mount_directories (fs : VirtualFilesystem) (name : Name) (r : Ref) :
    (fs.mount name).1.directories r =
      if fs.mountpoints name = none ∧ r = fs.nextRef then some ⟨fs.nextRef, []⟩
      else fs.directories r := by
  unfold VirtualFilesystem.mount
  cases hname : fs.mountpoints name with
  | some mp => simp
  | none =>
    show (fs.newDirectory fs.nextRef).directories r = _
    simp [VirtualFilesystem.newDirectory_directories]

theorem VirtualFilesystem.mount_scanner (fs : VirtualFilesystem) (name : Name) :
    (fs.mount name).1.scanner = fs.scanner := by
  unfold VirtualFilesystem.mount
  split <;> rfl

theorem createFile_scanner {fs fs' : VirtualFilesystem} {fileType : Int} {p : List Char}
    {created : Bool} (h : fs.createFile fileType p = .ok (fs', created)) :
    fs'.scanner = (parse p).2 := by
  obtain ⟨root, -, hloop⟩ := bind_ok.mp h
  rw [createLoop_scanner] at hloop
  obtain ⟨r, -, heq⟩ := map_ok.mp hloop
  cases heq
  rfl

theorem VirtualFilesystem.removeFrom_scanner {fs fs' : VirtualFilesystem} {root : Ref}
    {name : Name} (h : fs.removeFrom root name = .ok fs') : fs'.scanner = fs.scanner := by
  obtain ⟨d, -, h⟩ := bind_ok.mp h
  split at h
  · cases h
    rfl
  · obtain ⟨directories, -, h⟩ := bind_ok.mp h
    cases h
    rfl

theorem removeFile_scanner {fs fs' : VirtualFilesystem} {p : List Char} {removed : Bool}
    (h : fs.removeFile p = .ok (fs', removed)) : fs'.scanner = (parse fs.scanner).2 := by
  obtain ⟨root, -, h⟩ := bind_ok.mp h
  obtain ⟨⟨r, last⟩, -, h⟩ := bind_ok.mp h
  dsimp only at h
  split at h
  · obtain ⟨d, -, h⟩ := bind_ok.mp h
    split at h
    · obtain ⟨fs₁, hremove, h⟩ := bind_ok.mp h
      cases h
      exact VirtualFilesystem.removeFrom_scanner hremove
    · cases h
      rfl
  · cases h
    rfl

/-! ## The filesystem implements the drive -/

section Calls

variable {fs : VirtualFilesystem} (h : fs.Ready)
include h

theorem VirtualFilesystem.Ready.mount (name : Name) :
    ∃ fs', fs.answer (.mount name) = .ok (fs', (fs.drive.call (.mount name)).2) ∧
      fs'.drive = (fs.drive.call (.mount name)).1 ∧ fs'.Ready := by
  obtain ⟨mp, hmp⟩ := h.ux0
  have hmp' := VirtualFilesystem.mount_mountpoints hmp name
  refine ⟨(fs.mount name).1, ?_, ?_, h.wellFormed.mount name, mp, hmp'⟩
  · cases hname : fs.mountpoints name <;>
      simp [VirtualFilesystem.answer, VirtualFilesystem.mount, Drive.call,
        VirtualFilesystem.drive, hname]
  · -- the new directory is in no tree but its own
    have htree : (fs.mount name).1.tree = fs.tree := by
      rw [VirtualFilesystem.tree_eq hmp, VirtualFilesystem.tree_eq hmp']
      apply VirtualFilesystem.treeAt_congr
      intro r hr
      obtain ⟨d, hd, -⟩ := h.wellFormed.roots _ mp hmp
      obtain ⟨dr, hdr⟩ := h.wellFormed.live ⟨d, hd⟩ hr
      have hne : r ≠ fs.nextRef := Nat.ne_of_lt (h.wellFormed.below r dr hdr)
      rw [VirtualFilesystem.mount_directories, if_neg fun heq => hne heq.2]
    have hmounted : (fun n => ((fs.mount name).1.mountpoints n).isSome) =
        Function.update (fun n => (fs.mountpoints n).isSome) name true := by
      funext n
      rw [VirtualFilesystem.mount_isSome]
      by_cases hn : n = name <;> simp [hn]
    simp [VirtualFilesystem.drive, Drive.call, htree, hmounted, VirtualFilesystem.mount_scanner]

theorem VirtualFilesystem.Ready.createFile (fileType : Int) (p : List Char) :
    ∃ fs', fs.answer (.createFile fileType p) =
        .ok (fs', (fs.drive.call (.createFile fileType p)).2) ∧
      fs'.drive = (fs.drive.call (.createFile fileType p)).1 ∧ fs'.Ready := by
  obtain ⟨mp, hmp⟩ := h.ux0
  obtain ⟨fs', created, hrun, hwf, hmount, hcreated⟩ :=
    createFile_created h.wellFormed hmp fileType p
  have hscanner := createFile_scanner hrun
  have hready : fs'.Ready := ⟨hwf, mp, hmount ▸ hmp⟩
  have hanswer : fs.answer (.createFile fileType p) = .ok (fs', .done created) := by
    rw [VirtualFilesystem.answer, hrun]
    rfl
  have hcreate : create isDirectory fs.drive.tree creatable fileType
      ((parse p).1.map componentOf) = fs.created fileType (parse p).1 := rfl
  refine ⟨fs', ?_, ?_, hready⟩ <;> rcases hcreated with ⟨rfl, hnone, rfl⟩ | ⟨rfl, hsome⟩
  · simp [hanswer, Drive.call, hcreate, hnone]
  · simp [hanswer, Drive.call, hcreate, hsome]
  · simp only [Drive.call, hcreate, hnone]
    rfl
  · simp only [Drive.call, hcreate, hsome]
    simp [VirtualFilesystem.drive, hmount, hscanner]

theorem VirtualFilesystem.Ready.removeFile (p : List Char) :
    ∃ fs', fs.answer (.removeFile p) = .ok (fs', (fs.drive.call (.removeFile p)).2) ∧
      fs'.drive = (fs.drive.call (.removeFile p)).1 ∧ fs'.Ready := by
  obtain ⟨mp, hmp⟩ := h.ux0
  obtain ⟨fs', removed, hrun, hwf, hmount⟩ := removeFile_ok h.wellFormed hmp p
  obtain ⟨fs'', hrun', htree⟩ := removeFile_eq h.wellFormed hmp p
  rw [hrun] at hrun'
  cases hrun'
  have hscanner := removeFile_scanner hrun
  have hdrive : fs'.drive = { fs.drive with tree := fs'.tree, pending := fs'.scanner } := by
    simp [VirtualFilesystem.drive, hmount]
  refine ⟨fs', ?_, ?_, hwf, mp, hmount ▸ hmp⟩
  · rw [VirtualFilesystem.answer, hrun]
    cases hkind : (fs.tree.kind [] (lastName [] (parse fs.scanner).1)).isSome <;>
      simp [Drive.call, VirtualFilesystem.drive, hkind]
  · rw [hdrive, hscanner, htree]
    cases hkind : (fs.tree.kind [] (lastName [] (parse fs.scanner).1)).isSome <;>
      simp [Drive.call, VirtualFilesystem.drive, hkind]

theorem VirtualFilesystem.Ready.getFile (p : List Char) :
    ∃ fs', fs.answer (.getFile p) = .ok (fs', (fs.drive.call (.getFile p)).2) ∧
      fs'.drive = (fs.drive.call (.getFile p)).1 ∧ fs'.Ready := by
  obtain ⟨mp, hmp⟩ := h.ux0
  obtain ⟨d, hd, hself⟩ := h.wellFormed.roots _ mp hmp
  have hwf := h.wellFormed.setScanner (parse p).2
  have hloop := getLoop_spelled hwf hd hself (VirtualFilesystem.dirAt_nil _ mp.root) []
    (parse p).1
  refine ⟨{ fs with scanner := (parse p).2 }, ?_, rfl, hwf, mp, hmp⟩
  have htree : fs.drive.tree = fs.treeAt mp.root := VirtualFilesystem.tree_eq hmp
  rw [VirtualFilesystem.answer, getFile_eq hmp hloop, Drive.call]
  simp only [htree]
  rfl

end Calls

theorem answer_implements :
    Implements VirtualFilesystem.answer Drive.call VirtualFilesystem.Ready
      VirtualFilesystem.drive := by
  intro fs call h
  cases call with
  | mount name => exact h.mount name
  | createFile fileType p => exact h.createFile fileType p
  | removeFile p => exact h.removeFile p
  | getFile p => exact h.getFile p

/-! ## From the start -/

/-- Nothing was created, and nothing was put in the scanner. -/
structure VirtualFilesystem.Blank (fs : VirtualFilesystem) : Prop where
  files : ∀ r d, fs.directories r = some d → d.files = []
  scanner : fs.scanner = []

theorem VirtualFilesystem.Blank.mount {fs : VirtualFilesystem} (h : fs.Blank) (name : Name) :
    (fs.mount name).1.Blank where
  files r d hd := by
    rw [VirtualFilesystem.mount_directories] at hd
    split at hd
    · cases hd
      rfl
    · exact h.files r d hd
  scanner := (fs.mount_scanner name).trans h.scanner

theorem VirtualFilesystem.Blank.foldl_mount {fs : VirtualFilesystem} (h : fs.Blank)
    (names : List Name) :
    let fs' := names.foldl (fun (fs : VirtualFilesystem) name => (fs.mount name).1) fs
    fs'.Blank ∧ ∀ n, (fs'.mountpoints n).isSome =
      (decide (n ∈ names) || (fs.mountpoints n).isSome) := by
  induction names generalizing fs with
  | nil => exact ⟨h, fun n => by simp⟩
  | cons name names ih =>
    obtain ⟨hblank, hmounted⟩ := ih (h.mount name)
    refine ⟨hblank, fun n => ?_⟩
    rw [List.foldl_cons, hmounted, VirtualFilesystem.mount_isSome]
    by_cases hn : n = name <;> simp [hn]

/-- The tree of an empty directory. -/
theorem VirtualFilesystem.treeAt_empty {fs : VirtualFilesystem} {root : Ref} {d : Directory}
    (hd : fs.directories root = some d) (hfiles : d.files = []) (path : List Name) :
    fs.treeAt root path = if path = [] then some [] else none := by
  cases path with
  | nil => simp [VirtualFilesystem.treeAt_nil, hd, Directory.entries, hfiles]
  | cons n path => simp [VirtualFilesystem.treeAt_cons, hd, Directory.findFile, hfiles]

theorem mounted_drive (names : List Name) :
    (VirtualFilesystem.mounted names).drive = Drive.blank names := by
  obtain ⟨h, mp, hmp⟩ := mounted_ok names
  have hnew : VirtualFilesystem.new.Blank := ⟨fun r d hd => (by cases hd), rfl⟩
  obtain ⟨hfold, hnames⟩ := hnew.foldl_mount names
  have hblank : (VirtualFilesystem.mounted names).Blank := hfold.mount ['u', 'x', '0']
  obtain ⟨d, hd, -⟩ := h.roots _ mp hmp
  have htree : (VirtualFilesystem.mounted names).tree =
      fun path => if path = [] then some [] else none := by
    rw [VirtualFilesystem.tree_eq hmp]
    funext path
    exact VirtualFilesystem.treeAt_empty hd (hblank.files _ d hd) path
  have hmounted : ∀ n, ((VirtualFilesystem.mounted names).mountpoints n).isSome =
      decide (n ∈ names ∨ n = ['u', 'x', '0']) := by
    intro n
    rw [VirtualFilesystem.mounted, VirtualFilesystem.mount_isSome, hnames]
    by_cases hn : n = ['u', 'x', '0'] <;> simp [hn, VirtualFilesystem.new]
  simp [VirtualFilesystem.drive, Drive.blank, htree, hmounted, hblank.scanner]

/-- Whatever the calls, none goes wrong, and each is answered as the drive answers it: the
mounted names, the tree of `ux0` and the text in the scanner are all that a call depends
on and all that it changes. -/
theorem filesystem_implements_drive (names : List Name) (calls : List VfsCall) :
    ∃ fs, converse VirtualFilesystem.answer (.mounted names) calls =
        .ok (fs, (specified Drive.call (.blank names) calls).2) ∧
      fs.drive = (specified Drive.call (.blank names) calls).1 := by
  obtain ⟨h, hux0⟩ := mounted_ok names
  have hready : (VirtualFilesystem.mounted names).Ready := ⟨h, hux0⟩
  obtain ⟨fs, hrun, hdrive, -⟩ := answer_implements.converse hready calls
  rw [mounted_drive] at hrun hdrive
  exact ⟨fs, hrun, hdrive⟩

end Betavita.Vfs
