import DevopsBroker.Fs.Directory

/-!
# `fs/directory.c`: listing a directory, and printing what is listed

`listContents` reads a directory into its structure, and each subdirectory into the structure that
the list of subdirectories has for it, if it is told to. `printDirectory` goes through the
structures. Both are in a directory whose path is in one `StringBuilder` for all levels.

Mirroring notes vs the C source:
- What `Directory` says of the file system and of `none` is said here as well.
- A subdirectory is a structure that its list points to: the list has the structure that the
  calls leave.
- What is printed is the bytes of the calls of `printf` and `puts`, one after the other; they
  succeed.
-/

namespace DevopsBroker.Fs

open DevopsBroker.Adt DevopsBroker.Lang
open DevopsBroker.Lib (Mem)

def COLON : UInt8 := 0x3A
def NEWLINE : UInt8 := 0x0A

/-- `ANSI_BLUE`: an escape, and `[94m`. -/
def ANSI_BLUE : List UInt8 := [0x1B, 0x5B, 0x39, 0x34, 0x6D]

/-- `ANSI_RESET`: an escape, and `[0m`. -/
def ANSI_RESET : List UInt8 := [0x1B, 0x5B, 0x30, 0x6D]

/-- The path that a directory is in, with what the buffers hold that are allocated next. -/
structure Walk where
  dirPath : DirPath
  garbage : Nat → Mem

namespace Walk

/-- `c598a24c_append_char(dirPath, ch)`. -/
def appendChar (w : Walk) (ch : UInt8) : Option Walk := do
  let dirPath ← w.dirPath.appendChar (w.garbage 0) ch
  return { dirPath := dirPath, garbage := fun i => w.garbage (i + 1) }

/-- `c598a24c_append_string(dirPath, name)`. -/
def appendString (w : Walk) (name : List UInt8) : Option Walk := do
  let dirPath ← w.dirPath.appendString (w.garbage 0) name
  return { dirPath := dirPath, garbage := fun i => w.garbage (i + 1) }

/-- `c598a24c_reduceLength(dirPath, newLength)`. -/
def reduceLength (w : Walk) (newLength : Nat) : Option Walk := do
  let dirPath ← w.dirPath.reduceLength newLength
  return { w with dirPath := dirPath }

end Walk

/-! ## Listing -/

/-- The loop over `subdirList`, and the structures as it leaves them. -/
def listSubdirs (listContents : Directory → Walk → Option (Directory × Walk)) (dirPathLen : Nat) :
    List Directory → Walk → Option (List Directory × Walk)
  | [], w => some ([], w)
  | subdir :: subdirs, w => do
    let w ← w.appendString subdir.name
    let (subdir, w) ← listContents subdir w
    let w ← w.reduceLength dirPathLen
    let (subdirs, w) ← listSubdirs listContents dirPathLen subdirs w
    return (subdir :: subdirs, w)

/-- The structures that `subdirList` points to. -/
def Directory.withSubdirs (directory : Directory) (subdirs : List Directory) : Directory :=
  { directory with subdirList := directory.subdirList.map ({ · with values := subdirs }) }

/-- `d0059b5b_listContents`, down to some depth. -/
def listContents (fs : FileSystem) (isRecursive : Bool) :
    Nat → Directory → Walk → Option (Directory × Walk)
  | 0, _, _ => none
  | depth + 1, directory, w => do
    let path ← w.dirPath.buffer.text
    let directory ← readDirectory fs directory path
    let w ← w.appendChar SLASH
    let dirPathLen := w.dirPath.length
    if isRecursive then do
      let (subdirs, w) ← listSubdirs (listContents fs isRecursive depth) dirPathLen
        (elements directory.subdirList) w
      let w ← w.reduceLength (dirPathLen - 1)
      return (directory.withSubdirs subdirs, w)
    else do
      let w ← w.reduceLength (dirPathLen - 1)
      return (directory, w)

/-! ## Printing -/

/-- `puts`. -/
def puts (string : List UInt8) : List UInt8 := string ++ [NEWLINE]

/-- What is printed of a directory itself. -/
def heading (path : List UInt8) (directory : Directory) : List UInt8 :=
  path ++ [COLON, NEWLINE] ++ ANSI_BLUE ++
    (elements directory.subdirList).flatMap (fun subdir => puts subdir.name) ++ ANSI_RESET ++
    (elements directory.fileList).flatMap (fun file => puts file.name) ++ [NEWLINE]

/-- One round of the loop over `subdirList`, after some output. -/
def printSubdir (printDirectory : Directory → Walk → Option (List UInt8 × Walk)) (dirPathLen : Nat) :
    List UInt8 × Walk → Directory → Option (List UInt8 × Walk)
  | (output, w), subdir => do
    let w ← w.appendString subdir.name
    let (printed, w) ← printDirectory subdir w
    let w ← w.reduceLength dirPathLen
    return (output ++ printed, w)

/-- `d0059b5b_printDirectory`, down to some depth. -/
def printDirectory : Nat → Directory → Walk → Option (List UInt8 × Walk)
  | 0, _, _ => none
  | depth + 1, directory, w => do
    let path ← w.dirPath.buffer.text
    if 0 < (elements directory.subdirList).length then do
      let dirPathLen := (w.dirPath.length + 1) % 2 ^ 32
      let w ← w.appendChar SLASH
      (elements directory.subdirList).foldlM (printSubdir (printDirectory depth) dirPathLen)
        (heading path directory, w)
    else return (heading path directory, w)

end DevopsBroker.Fs
