import DevopsBroker.Adt.ListOf
import DevopsBroker.Lang.String
import DevopsBroker.Lang.StringBuilder

/-!
# `fs/directory.c`: finding files

`find` reads a directory into two sorted lists, goes into each of its subdirectories, and adds the
path of each file that matches. The path of the directory it is in is one `StringBuilder` for all
levels: it is longer by a name while a subdirectory is searched, and is cut again then.

Mirroring notes vs the C source:
- The file system is what `opendir` and `readdir` give for a path; it does not change, and
  `closedir` succeeds. An empty path cannot be opened. `none` stands for an abort, and for an
  access outside of an object.
- `name` is the text in front of the `NUL`. A name or a path is copied into the whole `Directory`,
  in which the lists are behind `name`; they are cleared after that.
- A list is of the structures that its elements point to. What `cleanUpDirectory` frees is not
  used after that.
- `isMatch` is a function of the name. `filePathList` is not `NULL`.
- `garbage` is what the buffers hold that are allocated one after the other.
-/

namespace DevopsBroker.Fs

open DevopsBroker.Adt DevopsBroker.Lang
open DevopsBroker.Lib (Mem)

def DT_DIR : UInt8 := 4
def DT_REG : UInt8 := 8
def SLASH : UInt8 := 0x2F
def DOT : UInt8 := 0x2E

def SIZEOF_NAME : Nat := 256
def SIZEOF_FILE : Nat := 256
def SIZEOF_DIRECTORY : Nat := 288
def FILEPATHLIST_SIZE : UInt32 := 64

/-- `struct dirent`: `d_name` is a string in 256 bytes, and not empty. -/
structure Dirent where
  d_type : UInt8
  d_name : List UInt8
  notNul : 0 ∉ d_name
  pos : 0 < d_name.length
  le : d_name.length ≤ 255

/-- What `readdir` gives for a path until it gives `NULL`, where `opendir` gives a stream. -/
abbrev FileSystem := List UInt8 → Option (List Dirent)

/-- `opendir`, and `readdir` until `NULL`. -/
def opendir (fs : FileSystem) (path : List UInt8) : Option (List Dirent) :=
  if path = [] then none else fs path

/-- `struct File`. -/
structure File where
  name : List UInt8

/-- `struct Directory`; a list that `values` is `NULL` of is `none`. -/
structure Directory where
  name : List UInt8
  subdirList : Option (ListOf Directory)
  fileList : Option (ListOf File)

abbrev DirPath := StringBuilder

/-- The elements are strings. -/
abbrev FilePathList := ListOf Block

/-- `f6215943_copy` into an object. -/
def copyInto (size : Nat) (name : List UInt8) : Option (List UInt8) :=
  if name.length < size then some name else none

/-- `d0059b5b_initDirectory`, and `d0059b5b_createDirectory` for the structure that it allocates. -/
def initDirectory (name : List UInt8) : Option Directory := do
  let name ← copyInto SIZEOF_DIRECTORY name
  return { name := name.take SIZEOF_NAME, subdirList := none, fileList := none }

/-- `d0059b5b_createFile`. -/
def createFile (name : List UInt8) : Option File := do
  let name ← copyInto SIZEOF_FILE name
  return { name := name }

/-- `d0059b5b_initFilePathList`. -/
def initFilePathList : FilePathList := ListOf.initWithSize FILEPATHLIST_SIZE

/-! ## Reading a directory -/

/-- `addSubdir` and `addFile`: the list is initialized where `values` is `NULL`. -/
def addTo {α : Type} (list : Option (ListOf α)) (element : α) : Option (ListOf α) :=
  (list.getD ListOf.init).add (some element)

/-- `addSubdir`. -/
def addSubdir (directory subdir : Directory) : Option Directory := do
  let subdirList ← addTo directory.subdirList subdir
  return { directory with subdirList := some subdirList }

/-- `addFile`. -/
def addFile (directory : Directory) (file : File) : Option Directory := do
  let fileList ← addTo directory.fileList file
  return { directory with fileList := some fileList }

def compareDirectory (first second : Directory) : Int := Lang.compare first.name second.name

def compareFile (first second : File) : Int := Lang.compare first.name second.name

/-- The current directory, or the previous one. -/
def IsDots (name : List UInt8) : Prop := name = [DOT] ∨ name = [DOT, DOT]

instance (name : List UInt8) : Decidable (IsDots name) := inferInstanceAs (Decidable (_ ∨ _))

/-- One round of `do … while (true)`. -/
def readEntry (directory : Directory) (dirEntry : Dirent) : Option Directory :=
  if dirEntry.d_type = DT_DIR then
    if IsDots dirEntry.d_name then some directory
    else do
      let subdir ← initDirectory dirEntry.d_name
      addSubdir directory subdir
  else if dirEntry.d_type = DT_REG then do
    let file ← createFile dirEntry.d_name
    addFile directory file
  else some directory

/-- `b196167f_sort`; a list that `values` is `NULL` of has no elements. -/
def sortList {α : Type} (compare : α → α → Int) : Option (ListOf α) → Option (Option (ListOf α))
  | none => some none
  | some list => (list.sort compare).map some

/-- `readDirectory`. -/
def readDirectory (fs : FileSystem) (directory : Directory) (path : List UInt8) :
    Option Directory := do
  let entries ← opendir fs path
  let directory ← entries.foldlM readEntry directory
  let subdirList ← sortList compareDirectory directory.subdirList
  let fileList ← sortList compareFile directory.fileList
  return { directory with subdirList := subdirList, fileList := fileList }

/-- The elements of a list. -/
def elements {α : Type} (list : Option (ListOf α)) : List α := (list.map ListOf.values).getD []

/-! ## Finding files -/

/-- What `find` works on, with what the buffers hold that are allocated next. -/
structure Search where
  filePathList : FilePathList
  dirPath : DirPath
  garbage : Nat → Mem

namespace Search

/-- `c598a24c_append_char(dirPath, ch)`. -/
def appendChar (s : Search) (ch : UInt8) : Option Search := do
  let dirPath ← s.dirPath.appendChar (s.garbage 0) ch
  return { s with dirPath := dirPath, garbage := fun i => s.garbage (i + 1) }

/-- `c598a24c_append_string(dirPath, name)`. -/
def appendString (s : Search) (name : List UInt8) : Option Search := do
  let dirPath ← s.dirPath.appendString (s.garbage 0) name
  return { s with dirPath := dirPath, garbage := fun i => s.garbage (i + 1) }

/-- `c598a24c_reduceLength(dirPath, newLength)`. -/
def reduceLength (s : Search) (newLength : Nat) : Option Search := do
  let dirPath ← s.dirPath.reduceLength newLength
  return { s with dirPath := dirPath }

/-- `b196167f_add(filePathList, c598a24c_createString(dirPath, name))`. -/
def addFilePath (s : Search) (name : List UInt8) : Option Search := do
  let (filePath, dirPath) ← s.dirPath.createString (s.garbage 0) (s.garbage 1) (some name)
  let filePathList ← s.filePathList.add filePath
  return { filePathList := filePathList, dirPath := dirPath, garbage := fun i => s.garbage (i + 2) }

end Search

/-- One round of the loop over `subdirList`. -/
def findSubdir (find : Search → Option Search) (dirPathLen : Nat) (s : Search) (subdir : Directory) :
    Option Search := do
  let s ← s.appendString subdir.name
  let s ← find s
  s.reduceLength dirPathLen

/-- One round of the loop over `fileList`. -/
def findFile (isMatch : List UInt8 → Bool) (s : Search) (file : File) : Option Search :=
  if isMatch file.name then s.addFilePath file.name else some s

/-- `d0059b5b_find`, down to some depth. -/
def find (fs : FileSystem) (isMatch : List UInt8 → Bool) : Nat → Search → Option Search
  | 0, _ => none
  | depth + 1, s => do
    let path ← s.dirPath.buffer.text
    let currentDir ← initDirectory path
    let currentDir ← readDirectory fs currentDir path
    let s ← s.appendChar SLASH
    let dirPathLen := s.dirPath.length
    let s ← (elements currentDir.subdirList).foldlM (findSubdir (find fs isMatch depth) dirPathLen) s
    let s ← (elements currentDir.fileList).foldlM (findFile isMatch) s
    s.reduceLength (dirPathLen - 1)

end DevopsBroker.Fs
