import Betavita.Lib.Ownership
import Betavita.Vfs.Filesystem
import Mathlib.Data.List.Nodup
import Mathlib.Data.List.Pairwise

/-!
# vfs.cpp — the directory trees

Every directory owns the directories among its files and is where their
`previousDirectory` points to. That is what a deletion relies on to free each directory
once, and what the walks rely on to stay inside the tree they began in.
-/

namespace Betavita.Vfs

open Ownership

/-- The live directories. -/
abbrev Directories := Ref → Option Directory

/-- `b` is one of the files of `a`. -/
def Child (directories : Directories) (a b : Ref) : Prop :=
  ∃ d, directories a = some d ∧ ∃ file ∈ d.files, file.directory = some b

/-- Where the `previousDirectory` of `b` points to. -/
def ownerOf (directories : Directories) (b : Ref) : Ref :=
  match directories b with
  | none => b
  | some d => d.previousDirectory

/-- What holds of the files of a directory. -/
structure DirectoryOk (directories : Directories) (r : Ref) (d : Directory) : Prop where
  names : (d.files.map AbstractFile.name).Nodup
  valid : ∀ file ∈ d.files, file.name ≠ [] ∧ file.name ≠ ['.'] ∧ file.name ≠ ['.', '.']
  tagged : ∀ file ∈ d.files, file.type = FILE_TYPE_DIRECTORY ↔ file.directory.isSome
  owned : ∀ file ∈ d.files, ∀ k, file.directory = some k →
    r < k ∧ ∃ d', directories k = some d' ∧ d'.previousDirectory = r
  refs : (d.files.filterMap AbstractFile.directory).Nodup

/-- The files of a directory own different directories. -/
theorem DirectoryOk.file_eq {directories : Directories} {r k : Ref} {d : Directory}
    (h : DirectoryOk directories r d) {file file' : AbstractFile} (hfile : file ∈ d.files)
    (hfile' : file' ∈ d.files) (hk : file.directory = some k) (hk' : file'.directory = some k) :
    file = file' := by
  by_contra hne
  have hrefs := List.pairwise_filterMap.mp h.refs
  have hsymm : Std.Symm fun f f' : AbstractFile =>
      ∀ a, f.directory = some a → ∀ b, f'.directory = some b → a ≠ b :=
    ⟨fun f f' hne a ha b hb => (hne b hb a ha).symm⟩
  exact hrefs.forall hfile hfile' hne k hk k hk' rfl

/-- The live directories form trees whose roots are the mount points. -/
structure VirtualFilesystem.WellFormed (fs : VirtualFilesystem) : Prop where
  ok : ∀ r d, fs.directories r = some d → DirectoryOk fs.directories r d
  below : ∀ r d, fs.directories r = some d → r < fs.nextRef
  roots : ∀ name mp, fs.mountpoints name = some mp →
    ∃ d, fs.directories mp.root = some d ∧ d.previousDirectory = mp.root

/-- The directories of the tree below `root`. -/
abbrev VirtualFilesystem.InTree (fs : VirtualFilesystem) (root r : Ref) : Prop :=
  Owns (Child fs.directories) root r

namespace VirtualFilesystem.WellFormed

variable {fs : VirtualFilesystem}

theorem forest (h : fs.WellFormed) : Forest (Child fs.directories) (ownerOf fs.directories) id where
  owner_eq := by
    rintro a b ⟨d, hd, file, hfile, hb⟩
    obtain ⟨-, d', hd', hprev⟩ := (h.ok a d hd).owned file hfile b hb
    simp [ownerOf, hd', hprev]
  rank_lt := by
    rintro a b ⟨d, hd, file, hfile, hb⟩
    exact ((h.ok a d hd).owned file hfile b hb).1

theorem child_live (h : fs.WellFormed) {a b : Ref} (hab : Child fs.directories a b) :
    ∃ d, fs.directories b = some d ∧ d.previousDirectory = a := by
  obtain ⟨d, hd, file, hfile, hb⟩ := hab
  exact ((h.ok a d hd).owned file hfile b hb).2

/-- The directories of a tree are live. -/
theorem live (h : fs.WellFormed) {root r : Ref} (hroot : ∃ d, fs.directories root = some d)
    (hr : fs.InTree root r) : ∃ d, fs.directories r = some d := by
  cases hr with
  | refl => exact hroot
  | tail _ hchild =>
    obtain ⟨d, hd, -⟩ := h.child_live hchild
    exact ⟨d, hd⟩

/-- From a directory of a mounted tree `..` leads to one of the tree. -/
theorem previous (h : fs.WellFormed) {root r : Ref} {d dr : Directory}
    (hroot : fs.directories root = some dr) (hself : dr.previousDirectory = root)
    (hr : fs.InTree root r) (hd : fs.directories r = some d) :
    fs.InTree root d.previousDirectory := by
  cases hr with
  | refl =>
    rw [hroot] at hd
    cases hd
    rw [hself]
  | @tail a _ hra hchild =>
    obtain ⟨d', hd', hprev⟩ := h.child_live hchild
    rw [hd] at hd'
    cases hd'
    rw [hprev]
    exact hra

/-- The root of a mount point is nobody's child. -/
theorem not_child_root (h : fs.WellFormed) {root a : Ref} {d : Directory}
    (hroot : fs.directories root = some d) (hself : d.previousDirectory = root) :
    ¬ Child fs.directories a root := by
  intro hchild
  obtain ⟨d', hd', hprev⟩ := h.child_live hchild
  rw [hroot] at hd'
  cases hd'
  have hlt : a < root := h.forest.rank_lt hchild
  exact absurd (hself.symm.trans hprev) (Nat.ne_of_gt hlt)

/-- The cast of a file with the tag of a directory is good. -/
theorem toDirectory (h : fs.WellFormed) {r : Ref} {d : Directory} {file : AbstractFile}
    (hd : fs.directories r = some d) (hfile : file ∈ d.files)
    (htype : file.type = FILE_TYPE_DIRECTORY) :
    ∃ k, file.directory = some k ∧ file.toDirectory = .ok k ∧ Child fs.directories r k := by
  obtain ⟨k, hk⟩ := Option.isSome_iff_exists.mp (((h.ok r d hd).tagged file hfile).mp htype)
  refine ⟨k, hk, ?_, d, hd, file, hfile, hk⟩
  rw [AbstractFile.toDirectory, hk]

end VirtualFilesystem.WellFormed

/-! ## Deletion -/

/-- Deleting the file frees the subtree of `k`, and leaves the rest. -/
def Deletes (fs : VirtualFilesystem) (fuel : Nat) (directories : Directories)
    (file : AbstractFile) (k : Ref) : Prop :=
  ∃ directories', deleteFile (fuel + 1) directories file = .ok directories' ∧
    (∀ x, fs.InTree k x → directories' x = none) ∧
    ∀ x, ¬ fs.InTree k x → directories' x = directories x

section Delete

variable {fs : VirtualFilesystem} (h : fs.WellFormed)
include h

/-- The subtrees of files that own different directories are apart. -/
theorem subtrees_apart {a k : Ref} {files : List AbstractFile} (hk : Child fs.directories a k)
    (hchild : ∀ file ∈ files, ∀ k, file.directory = some k → Child fs.directories a k)
    (hfresh : k ∉ files.filterMap AbstractFile.directory) :
    ∀ file ∈ files, ∀ k', file.directory = some k' →
      ∀ x, fs.InTree k' x → ¬ fs.InTree k x := by
  intro file hfile k' hk' x hx' hx
  have heq := h.forest.siblings hk (hchild file hfile k' hk') hx hx'
  exact hfresh (List.mem_filterMap.mpr ⟨file, hfile, heq ▸ hk'⟩)

/-- Deleting files whose subtrees are all there frees these subtrees, given that the
deletion of each does. -/
theorem foldlM_deleteFile {fuel : Nat} {a : Ref} (hone : ∀ (directories : Directories)
      (file : AbstractFile) (k : Ref), file.directory = some k → Child fs.directories a k →
      (∀ x, fs.InTree k x → directories x = fs.directories x) →
      Deletes fs fuel directories file k)
    {files : List AbstractFile} (hrefs : (files.filterMap AbstractFile.directory).Nodup)
    (hchild : ∀ file ∈ files, ∀ k, file.directory = some k → Child fs.directories a k)
    {directories : Directories}
    (hthere : ∀ file ∈ files, ∀ k, file.directory = some k →
      ∀ x, fs.InTree k x → directories x = fs.directories x) :
    ∃ directories', files.foldlM (deleteFile (fuel + 1)) directories = .ok directories' ∧
      (∀ file ∈ files, ∀ k, file.directory = some k →
        ∀ x, fs.InTree k x → directories' x = none) ∧
      ∀ x, (∀ file ∈ files, ∀ k, file.directory = some k → ¬ fs.InTree k x) →
        directories' x = directories x := by
  induction files generalizing directories with
  | nil => exact ⟨directories, rfl, by simp, fun _ _ => rfl⟩
  | cons file files ih =>
    have hchild' : ∀ file' ∈ files, ∀ k, file'.directory = some k → Child fs.directories a k :=
      fun file' hfile' => hchild file' (List.mem_cons_of_mem _ hfile')
    cases hk : file.directory with
    | none =>
      rw [List.filterMap_cons_none hk] at hrefs
      obtain ⟨directories', hrun, hgone, hkept⟩ := ih hrefs hchild'
        fun file' hfile' => hthere file' (List.mem_cons_of_mem _ hfile')
      refine ⟨directories', ?_, ?_, fun x hx => hkept x fun file' hfile' =>
        hx file' (List.mem_cons_of_mem _ hfile')⟩
      · rw [List.foldlM_cons, deleteFile, hk]
        exact hrun
      · intro file' hfile' k' hk'
        rcases List.mem_cons.mp hfile' with rfl | hfile'
        · rw [hk] at hk'
          cases hk'
        · exact hgone file' hfile' k' hk'
    | some k =>
      rw [List.filterMap_cons_some hk, List.nodup_cons] at hrefs
      have hself : file ∈ file :: files := List.mem_cons_self ..
      obtain ⟨directories₁, hfirst, hgone₁, hkept₁⟩ :=
        hone directories file k hk (hchild file hself k hk) (hthere file hself k hk)
      -- so that the subtrees of the other files are untouched
      have hapart := subtrees_apart h (hchild file hself k hk) hchild' hrefs.1
      have hthere' : ∀ file' ∈ files, ∀ k', file'.directory = some k' →
          ∀ x, fs.InTree k' x → directories₁ x = fs.directories x :=
        fun file' hfile' k' hk' x hx => (hkept₁ x (hapart file' hfile' k' hk' x hx)).trans
          (hthere file' (List.mem_cons_of_mem _ hfile') k' hk' x hx)
      obtain ⟨directories', hrun, hgone, hkept⟩ := ih hrefs.2 hchild' hthere'
      refine ⟨directories', ?_, ?_, ?_⟩
      · rw [List.foldlM_cons, hfirst]
        exact hrun
      · intro file' hfile' k' hk' x hx
        rcases List.mem_cons.mp hfile' with rfl | hfile'
        · rw [hk] at hk'
          cases hk'
          exact (hkept x fun file'' hfile'' k'' hk'' hx'' =>
            hapart file'' hfile'' k'' hk'' x hx'' hx).trans (hgone₁ x hx)
        · exact hgone file' hfile' k' hk' x hx
      · intro x hx
        have hrest := hkept x fun file' hfile' => hx file' (List.mem_cons_of_mem _ hfile')
        exact hrest.trans (hkept₁ x (hx file hself k hk))

/-- Deleting a directory whose subtree is all there frees its subtree, once and for all. -/
theorem deleteFile_directory (fuel : Nat) (directories : Directories) {file : AbstractFile}
    {k : Ref} (hk : file.directory = some k) (hlive : ∃ d, fs.directories k = some d)
    (hthere : ∀ x, fs.InTree k x → directories x = fs.directories x)
    (hfuel : fs.nextRef < k + fuel + 1) : Deletes fs fuel directories file k := by
  induction fuel generalizing directories file k with
  | zero =>
    obtain ⟨d, hd⟩ := hlive
    exact absurd (h.below k d hd) (Nat.not_lt.mpr (Nat.le_of_lt_succ hfuel))
  | succ fuel ih =>
    obtain ⟨d, hd⟩ := hlive
    have hdk : directories k = some d := (hthere k .refl).trans hd
    have hchild : ∀ file' ∈ d.files, ∀ k', file'.directory = some k' →
        Child fs.directories k k' :=
      fun file' hfile' k' hk' => ⟨d, hd, file', hfile', hk'⟩
    have hone : ∀ (directories₁ : Directories) (file' : AbstractFile) (k' : Ref),
        file'.directory = some k' → Child fs.directories k k' →
        (∀ x, fs.InTree k' x → directories₁ x = fs.directories x) →
        Deletes fs fuel directories₁ file' k' := by
      intro directories₁ file' k' hk' hkk' hthere'
      obtain ⟨d', hd', -⟩ := h.child_live hkk'
      have hlt : k + 1 ≤ k' := h.forest.rank_lt hkk'
      refine ih directories₁ hk' ⟨d', hd'⟩ hthere' ?_
      calc fs.nextRef < k + (fuel + 1) + 1 := hfuel
        _ = k + 1 + fuel + 1 := by rw [Nat.add_comm fuel 1, ← Nat.add_assoc]
        _ ≤ k' + fuel + 1 := Nat.add_le_add_right (Nat.add_le_add_right hlt fuel) 1
    have hsub : ∀ file' ∈ d.files, ∀ k', file'.directory = some k' →
        ∀ x, fs.InTree k' x → directories x = fs.directories x :=
      fun file' hfile' k' hk' x hx => hthere x (.head (hchild file' hfile' k' hk') hx)
    obtain ⟨directories', hrun, hgone, hkept⟩ :=
      foldlM_deleteFile h hone (h.ok k d hd).refs hchild hsub
    refine ⟨Function.update directories' k none, ?_, ?_, ?_⟩
    · rw [deleteFile, hk]
      simp only [hdk, hrun]
      rfl
    · intro x hx
      by_cases hxk : x = k
      · rw [hxk, Function.update_self]
      · rw [Function.update_of_ne hxk]
        rcases Relation.ReflTransGen.cases_head hx with rfl | ⟨k', hkk', hx'⟩
        · exact absurd rfl hxk
        · obtain ⟨d', hd', file', hfile', hk'⟩ := hkk'
          rw [hd] at hd'
          cases hd'
          exact hgone file' hfile' k' hk' x hx'
    · intro x hx
      have hxk : x ≠ k := by
        rintro rfl
        exact hx .refl
      rw [Function.update_of_ne hxk]
      exact hkept x fun file' hfile' k' hk' hx' => hx (.head (hchild file' hfile' k' hk') hx')

end Delete

end Betavita.Vfs
