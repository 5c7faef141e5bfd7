import Betavita.Lib.Results
import Betavita.Vfs.Scanner
import Mathlib.Logic.Function.Basic

/-!
# vfs.cpp — the virtual filesystem

Directories are objects that are pointed to: from the mount point or the one entry that
owns them, and from their subdirectories. A `Directory *` is a `Ref` into the map of the
live ones; what else an `AbstractFile` is stays with its entry. Following a null pointer
or one to a dead directory is a fault.
-/

namespace Betavita.Vfs

/-- A `Directory *`. -/
abbrev Ref := Nat

def FILE_TYPE_DIRECTORY : Int := 2
def FILE_TYPE_FILE : Int := 3

/-- `AbstractFile`. If the object is a `Directory`, `directory` says which one. -/
structure AbstractFile where
  type : Int
  name : Name
  directory : Option Ref
deriving DecidableEq, Repr

structure Directory where
  previousDirectory : Ref
  files : List AbstractFile
deriving DecidableEq, Repr

structure MountPoint where
  name : Name
  root : Ref
deriving DecidableEq, Repr

/-- `VirtualFilesystem`, with the live directories and the next one that `new` returns. -/
structure VirtualFilesystem where
  mountpoints : Name → Option MountPoint
  directories : Ref → Option Directory
  nextRef : Ref
  scanner : List Char

/-- How a call can go wrong: through a null `MountPoint *`, a pointer to a dead directory
or a cast to `Directory *` of an object that is none. The last one is not of the source:
the recursion of a destructor that does not end. -/
inductive Fault
  | nullMountpoint
  | deadDirectory
  | badCast
  | endless
deriving DecidableEq, Repr

/-- `VirtualFilesystem::VirtualFilesystem`. -/
def VirtualFilesystem.new : VirtualFilesystem where
  mountpoints := fun _ => none
  directories := fun _ => none
  nextRef := 0
  scanner := []

/-- The directory that is pointed to. -/
def VirtualFilesystem.deref (fs : VirtualFilesystem) (r : Ref) : Except Fault Directory :=
  match fs.directories r with
  | none => .error .deadDirectory
  | some d => .ok d

/-- `(Directory *) file`. -/
def AbstractFile.toDirectory (file : AbstractFile) : Except Fault Ref :=
  match file.directory with
  | none => .error .badCast
  | some r => .ok r

/-- `Directory::findFile`. -/
def Directory.findFile (d : Directory) (name : Name) : Option AbstractFile :=
  d.files.find? fun file => decide (file.name = name)

/-- A store to a directory. -/
def VirtualFilesystem.setDirectory (fs : VirtualFilesystem) (r : Ref) (d : Directory) :
    VirtualFilesystem :=
  { fs with directories := Function.update fs.directories r (some d) }

/-- `new Directory`, with its `previousDirectory` set. -/
def VirtualFilesystem.newDirectory (fs : VirtualFilesystem) (previousDirectory : Ref) :
    VirtualFilesystem :=
  { fs.setDirectory fs.nextRef ⟨previousDirectory, []⟩ with nextRef := fs.nextRef + 1 }

/-- `root->addFile(file)`. -/
def VirtualFilesystem.addFile (fs : VirtualFilesystem) (root : Ref) (file : AbstractFile) :
    Except Fault VirtualFilesystem := do
  let d ← fs.deref root
  return fs.setDirectory root { d with files := d.files ++ [file] }

/-- `delete file`: a directory deletes its files first. -/
def deleteFile : Nat → (Ref → Option Directory) → AbstractFile →
    Except Fault (Ref → Option Directory)
  | 0, _, _ => .error .endless
  | fuel + 1, directories, file =>
    match file.directory with
    | none => .ok directories
    | some r =>
      match directories r with
      | none => .error .deadDirectory
      | some d => do
        let directories ← d.files.foldlM (deleteFile fuel) directories
        return Function.update directories r none

/-- `Directory::removeFile`. -/
def VirtualFilesystem.removeFrom (fs : VirtualFilesystem) (root : Ref) (name : Name) :
    Except Fault VirtualFilesystem := do
  let d ← fs.deref root
  match d.findFile name with
  | none => return fs
  | some file =>
    let directories ← deleteFile (fs.nextRef + 1) fs.directories file
    return VirtualFilesystem.setDirectory { fs with directories := directories } root
      { d with files := d.files.eraseP fun file => decide (file.name = name) }

/-- `mount`, with the constructor of `MountPoint`. -/
def VirtualFilesystem.mount (fs : VirtualFilesystem) (name : Name) : VirtualFilesystem × Bool :=
  match fs.mountpoints name with
  | some _ => (fs, false)
  | none =>
    let root := fs.nextRef
    let fs := fs.newDirectory root
    ({ fs with mountpoints := Function.update fs.mountpoints name (some ⟨name, root⟩) }, true)

/-- `findMountpoint("ux0")->root`. -/
def VirtualFilesystem.ux0Root (fs : VirtualFilesystem) : Except Fault Ref :=
  match fs.mountpoints ['u', 'x', '0'] with
  | none => .error .nullMountpoint
  | some mp => .ok mp.root

/-- The loop of `createFile`. A directory that is created in mid path is lost: it is not
kept here either. -/
def createLoop (fileType : Int) (size : Nat) :
    VirtualFilesystem → Ref → Nat → List Name → Except Fault (VirtualFilesystem × Bool)
  | fs, _, _, [] => .ok (fs, true)
  | fs, root, x, i :: branches =>
    let x := x + 1
    if i = ['.', '.'] then do
      let d ← fs.deref root
      createLoop fileType size fs d.previousDirectory x branches
    else if i = ['.'] then createLoop fileType size fs root x branches
    else do
      let d ← fs.deref root
      match d.findFile i with
      | some file =>
        if file.type ≠ FILE_TYPE_DIRECTORY then return (fs, false)
        else do
          let root ← file.toDirectory
          createLoop fileType size fs root x branches
      | none =>
        if fileType = FILE_TYPE_DIRECTORY then
          if x ≠ size then return (fs, false)
          else do
            let dir : Ref := fs.nextRef
            let fs := fs.newDirectory root
            let fs ← fs.addFile root ⟨fileType, i, some dir⟩
            createLoop fileType size fs root x branches
        else if fileType = FILE_TYPE_FILE then
          if x ≠ size then return (fs, false)
          else do
            let fs ← fs.addFile root ⟨fileType, i, none⟩
            createLoop fileType size fs root x branches
        else return (fs, false)

/-- `createFile`. -/
def VirtualFilesystem.createFile (fs : VirtualFilesystem) (fileType : Int) (path : List Char) :
    Except Fault (VirtualFilesystem × Bool) := do
  let (branches, scanner) := parse path
  let fs := { fs with scanner := scanner }
  let root ← fs.ux0Root
  createLoop fileType branches.length fs root 0 branches

/-- The loop of `removeFile`: the directory and the name it ends with. -/
def removeLoop (fs : VirtualFilesystem) : Ref → Name → List Name → Except Fault (Ref × Name)
  | root, last, [] => .ok (root, last)
  | root, last, i :: branches =>
    if i = ['.', '.'] then do
      let d ← fs.deref root
      removeLoop fs d.previousDirectory last branches
    else if i = ['.'] then removeLoop fs root last branches
    else removeLoop fs root i branches

/-- `removeFile`. The scanner is not set to the path. -/
def VirtualFilesystem.removeFile (fs : VirtualFilesystem) (_path : List Char) :
    Except Fault (VirtualFilesystem × Bool) := do
  let (branches, scanner) := parse fs.scanner
  let fs := { fs with scanner := scanner }
  let root ← fs.ux0Root
  let (root, last) ← removeLoop fs root [] branches
  if last.length ≠ 0 then
    let d ← fs.deref root
    if (d.findFile last).isSome then
      let fs ← fs.removeFrom root last
      return (fs, true)
    else return (fs, false)
  else return (fs, false)

/-- The loop of `getFile`. The back of `oldPath` is the head of the list. -/
def getLoop (fs : VirtualFilesystem) :
    Ref → List Char → List (List Char) → List Name → Except Fault (List Char)
  | _, currentPath, _, [] => .ok currentPath
  | root, currentPath, oldPath, i :: branches =>
    if i = ['.', '.'] then do
      let (currentPath, oldPath) := match oldPath with
        | [] => (currentPath, [])
        | back :: oldPath => (back, oldPath)
      let d ← fs.deref root
      getLoop fs d.previousDirectory currentPath oldPath branches
    else if i = ['.'] then getLoop fs root currentPath oldPath branches
    else do
      let d ← fs.deref root
      match d.findFile i with
      | some file =>
        let oldPath := currentPath :: oldPath
        let currentPath := currentPath ++ file.name
        if file.type = FILE_TYPE_DIRECTORY then do
          let root ← file.toDirectory
          getLoop fs root (currentPath ++ ['/']) oldPath branches
        else getLoop fs root currentPath oldPath branches
      | none => return []

/-- `getFile`. -/
def VirtualFilesystem.getFile (fs : VirtualFilesystem) (path : List Char) :
    Except Fault (VirtualFilesystem × List Char) := do
  let (branches, scanner) := parse path
  let fs := { fs with scanner := scanner }
  let root ← fs.ux0Root
  let currentPath ← getLoop fs root [] [] branches
  return (fs, currentPath)

/-! ## Stores -/

theorem VirtualFilesystem.deref_eq (fs : VirtualFilesystem) {r : Ref} {d : Directory}
    (h : fs.directories r = some d) : fs.deref r = .ok d := by
  rw [VirtualFilesystem.deref, h]

theorem VirtualFilesystem.setDirectory_directories (fs : VirtualFilesystem) (r x : Ref)
    (d : Directory) :
    (fs.setDirectory r d).directories x = if x = r then some d else fs.directories x := by
  simp [VirtualFilesystem.setDirectory, Function.update_apply]

theorem VirtualFilesystem.newDirectory_directories (fs : VirtualFilesystem) (r x : Ref) :
    (fs.newDirectory r).directories x =
      if x = fs.nextRef then some ⟨r, []⟩ else fs.directories x :=
  fs.setDirectory_directories fs.nextRef x ⟨r, []⟩

theorem VirtualFilesystem.addFile_eq (fs : VirtualFilesystem) {root : Ref} {d : Directory}
    (h : fs.directories root = some d) (file : AbstractFile) :
    fs.addFile root file = .ok (fs.setDirectory root { d with files := d.files ++ [file] }) := by
  rw [VirtualFilesystem.addFile, fs.deref_eq h]
  rfl

theorem Directory.findFile_some {d : Directory} {name : Name} {file : AbstractFile}
    (h : d.findFile name = some file) : file ∈ d.files ∧ file.name = name := by
  refine ⟨List.mem_of_find?_eq_some h, ?_⟩
  simpa using List.find?_some h

theorem Directory.findFile_none {d : Directory} {name : Name} (h : d.findFile name = none) :
    ∀ file ∈ d.files, file.name ≠ name := by
  simpa [Directory.findFile] using h

end Betavita.Vfs
