import DevopsBroker.Fs.Directory
import DevopsBroker.Lang.StringSplit

/-!
# `fs/directory.c`: making directories

`makeDirectory` cuts a path at its slashes, and puts them back one after the other. What there is in
front of the next `NUL` is a directory of the path then, and is made if it is missing.

Mirroring notes vs the C source:
- The path is in memory with everything else; the list is apart from it. Only the length of the list
  is used.
- `none` is a path that is `NULL`, or out of fuel; `some none` is an abort. Both loops run on the same
  fuel.
- The kernel is an input: `mkdir` answers with `errno` or, if it succeeds, with `none`. `stat` fails for
  a path that does not exist, and only then.
- A message is shown as the text that its `StringBuilder` has.
- `garbage` is what the list holds that is allocated, and what it holds if it grows.
-/

namespace DevopsBroker.Fs

open DevopsBroker.Adt.ListArray (initListArray)
open DevopsBroker.Lang DevopsBroker.Lib

def ENOENT : Nat := 2
def QUOTE : UInt8 := 0x27

/-- `"Cannot make directory '"`. -/
def CANNOT_MAKE : List UInt8 := "Cannot make directory '".toUTF8.toList

/-- The paths that exist, what `mkdir` was called with, and what `printLibError` was. -/
structure DirTree where
  existing : List UInt8 → Bool
  calls : List (List UInt8 × UInt32)
  errors : List (List UInt8 × Nat)

/-- What `mkdir` answers, for the paths that exist. -/
abbrev Answer := (List UInt8 → Bool) → List UInt8 → UInt32 → Option Nat

namespace DirTree

/-- `stat`. -/
def stat (tree : DirTree) (path : List UInt8) : Option Nat :=
  if tree.existing path then none else some ENOENT

/-- `mkdir`. -/
def mkdir (answer : Answer) (tree : DirTree) (path : List UInt8) (mode : UInt32) :
    Option Nat × DirTree :=
  let called := { tree with calls := tree.calls ++ [(path, mode)] }
  match answer tree.existing path mode with
  | some errno => (some errno, called)
  | none => (none, { called with existing := fun other => decide (other = path) || tree.existing other })

/-- `c7c88e52_printLibError`. -/
def printLibError (tree : DirTree) (message : List UInt8) (errno : Nat) : DirTree :=
  { tree with errors := tree.errors ++ [(message, errno)] }

end DirTree

/-- What is in memory, and the local variables. -/
structure MakeState where
  mem : Mem
  subdir : Nat
  i : UInt32
  makeDir : Bool
  tree : DirTree

/-- `while ((*subdir) != '\0')`. -/
def subdirRound (mem : Mem) (subdir : Nat) : Option (Turn Nat Nat) :=
  if mem subdir ≠ 0 then some (.next (subdir + 1)) else some (.done subdir)

/-- `stat` and `mkdir` for `pathName`. -/
def makeMissing (fuel : Nat) (answer : Answer) (pathName : Nat) (mode : UInt32) (s : MakeState) :
    Option MakeState := do
  let stop ← rounds (subdirRound s.mem) fuel pathName
  let path := bytesAt s.mem pathName (stop - pathName)
  if s.tree.stat path = some ENOENT then
    match s.tree.mkdir answer path mode with
    | (some errno, tree) =>
      some { s with tree := tree.printLibError (CANNOT_MAKE ++ path ++ [QUOTE]) errno }
    | (none, tree) => some { s with makeDir := true, tree := tree }
  else some s

/-- Advance to the next subdirectory and put back the `/`. -/
def advance (fuel : Nat) (s : MakeState) : Option MakeState := do
  let subdir ← rounds (subdirRound s.mem) fuel s.subdir
  some { s with mem := storeByte s.mem subdir SLASH, subdir := subdir }

/-- One round of the loop over `subdirList`. -/
def makeRound (answer : Answer) (pathName : Nat) (mode : UInt32) (hasFilename : Bool) (length : UInt32)
    (fuel : Nat) (s : MakeState) : Option (Turn MakeState MakeState) :=
  if s.i ≤ length then do
    let s ← (if s.i < length ∨ hasFilename = false then makeMissing fuel answer pathName mode s else some s)
    let s ← (if s.i < length then advance fuel s else some s)
    some (.next { s with i := s.i + 1 })
  else some (.done s)

/-- What follows the split, for the length of the list. -/
def makeSubdirs (fuel : Nat) (answer : Answer) (mem : Mem) (pathName : Nat) (mode : UInt32)
    (hasFilename : Bool) (length : UInt32) (tree : DirTree) : Option (Option (Bool × Mem × DirTree)) :=
  let (mem, length) :=
    if mem pathName = 0 then (storeByte mem pathName SLASH, length - 1) else (mem, length)
  (rounds (makeRound answer pathName mode hasFilename length fuel) fuel
    ⟨mem, pathName, 1, false, tree⟩).map fun s => some (s.makeDir, s.mem, s.tree)

/-- `d0059b5b_makeDirectory`: whether a directory was made, the memory, and the directories. -/
def makeDirectory (fuel : Nat) (garbage garbage' : Mem) (answer : Answer) (mem : Mem) (pathName : Nat)
    (mode : UInt32) (hasFilename : Bool) (tree : DirTree) : Option (Option (Bool × Mem × DirTree)) :=
  match initListArray garbage with
  | none => some none
  | some subdirList =>
    (splitWithChar fuel garbage' mem pathName SLASH subdirList).bind fun
      | none => some none
      | some (mem, subdirList) =>
        if pathName = 0 then none
        else makeSubdirs fuel answer mem pathName mode hasFilename (UInt32.ofNat subdirList.length) tree

end DevopsBroker.Fs
