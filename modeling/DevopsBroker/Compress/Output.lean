import DevopsBroker.Compress.ZipArchive

/-!
# The files of an extraction

`Output` is a log of what is done with files: a file is opened, written, and closed before the next
one is opened; creating one while another is open, or writing where none is open, is no step.
`Disk` is what the calls do to files that may be there already: `createFile` opens with `O_CREAT` and
without `O_TRUNC`, so that the bytes behind those that are written stay.

- `Leaves`: some calls open and close some files, and leave none open; it goes along with `++`;
- **`Leaves.onDisk`**: on a disk, they are laid over what is there, one after the other
  (`laid`); new files with names of their own have exactly the bytes that are written (`laid_new`).

Each call is taken to succeed. `place` says where a path leads to, links and dots resolved.
-/

namespace DevopsBroker.Compress

open DevopsBroker.Lib DevopsBroker.Io DevopsBroker.Lang

/-! ## The log -/

/-- What was done with a file from `createFile` to `closeFile`: its name, the bytes that were written,
and the timestamp that it was given. -/
structure OutputFile where
  pathName : List UInt8
  bytes : List UInt8
  date : UInt16
  time : UInt16
deriving DecidableEq

/-- The files that are closed again, and the one that is open. -/
structure Output where
  files : List OutputFile
  opened : Option OutputFile
deriving DecidableEq

/-- What a call adds to the log. -/
def Output.step (output : Output) : Call → Option Output
  | .createFile pathName =>
    if output.opened.isNone then some { output with opened := some ⟨pathName, [], 0, 0⟩ } else none
  | .writeFile bytes =>
    output.opened.map fun file =>
      { output with opened := some { file with bytes := file.bytes ++ bytes } }
  | .setTimestamp date time =>
    output.opened.map fun file =>
      { output with opened := some { file with date := date, time := time } }
  | .closeFile => output.opened.map fun file => ⟨output.files ++ [file], none⟩
  | _ => some output

/-- The files that some calls finish, if they leave none open. -/
def outputOf (calls : List Call) : Option (List OutputFile) := do
  let output ← calls.foldlM Output.step ⟨[], none⟩
  if output.opened.isNone then some output.files else none

/-- The calls finish these files, whatever was finished before. -/
def Leaves (calls : List Call) (files : List OutputFile) : Prop :=
  ∀ before, calls.foldlM Output.step ⟨before, none⟩ = some ⟨before ++ files, none⟩

theorem Leaves.outputOf {calls : List Call} {files : List OutputFile} (h : Leaves calls files) :
    outputOf calls = some files := by
  unfold Compress.outputOf
  rw [h [], List.nil_append]
  rfl

theorem leaves_nil : Leaves [] [] := fun before => by
  rw [List.append_nil]
  rfl

theorem Leaves.append {calls calls' : List Call} {files files' : List OutputFile}
    (h : Leaves calls files) (h' : Leaves calls' files') : Leaves (calls ++ calls') (files ++ files') := by
  intro before
  rw [List.foldlM_append, h before, Option.bind_eq_bind, Option.bind_some, h', List.append_assoc]

/-- Calls that are not about files. -/
def Call.aloof : Call → Bool
  | .createFile _ => false
  | .writeFile _ => false
  | .setTimestamp _ _ => false
  | .closeFile => false
  | _ => true

theorem leaves_aloof {calls : List Call} (h : ∀ call ∈ calls, call.aloof) : Leaves calls [] := by
  induction calls with
  | nil => exact leaves_nil
  | cons call calls ih =>
    intro before
    have hstep : ∀ output, Output.step output call = some output := by
      have hcall := h call List.mem_cons_self
      cases call <;> first | exact fun _ => rfl | exact absurd hcall Bool.false_ne_true
    rw [List.foldlM_cons, hstep, Option.bind_eq_bind, Option.bind_some]
    exact ih (fun call hcall => h call (List.mem_cons_of_mem _ hcall)) before

/-- They may come first. -/
theorem Leaves.behind_aloof {before calls : List Call} {files : List OutputFile} (h : Leaves calls files)
    (hbefore : ∀ call ∈ before, call.aloof) : Leaves (before ++ calls) files :=
  (leaves_aloof hbefore).append h

/-- The file that is open gets all that is written. -/
theorem writeFiles_step (files : List OutputFile) :
    ∀ (writes : List (List UInt8)) (file : OutputFile),
      (writes.map Call.writeFile).foldlM Output.step ⟨files, some file⟩ =
        some ⟨files, some { file with bytes := file.bytes ++ writes.flatten }⟩ := by
  intro writes
  induction writes with
  | nil =>
    intro file
    rw [List.flatten_nil, List.append_nil]
    rfl
  | cons bytes writes ih =>
    intro file
    rw [List.map_cons, List.foldlM_cons, List.flatten_cons, ← List.append_assoc]
    exact ih { file with bytes := file.bytes ++ bytes }

/-- **The calls for a file finish that file.** -/
theorem createAndWrite_leaves (fileName : List UInt8) (fileHeader : FileHeader)
    (writes : List (List UInt8)) :
    Leaves (createAndWrite fileName fileHeader writes)
      [⟨fileName, writes.flatten, fileHeader.lastModFileDate, fileHeader.lastModFileTime⟩] := by
  intro before
  have hwrites := writeFiles_step before writes ⟨fileName, [], 0, 0⟩
  have hcreate : Output.step ⟨before, none⟩ (.createFile fileName) =
      some ⟨before, some ⟨fileName, [], 0, 0⟩⟩ := rfl
  unfold createAndWrite
  rw [List.cons_append, List.foldlM_cons, hcreate, Option.bind_eq_bind, Option.bind_some,
    List.foldlM_append, hwrites]
  rfl

/-! ## The disk -/

/-- Bytes over those from a position on. -/
def overwrite (old : List UInt8) (position : Nat) (bytes : List UInt8) : List UInt8 :=
  old.take position ++ bytes ++ old.drop (position + bytes.length)

/-- A further piece goes behind what was written. -/
theorem overwrite_overwrite (old bytes more : List UInt8) :
    overwrite (overwrite old 0 bytes) bytes.length more = overwrite old 0 (bytes ++ more) := by
  simp only [overwrite, List.take_zero, List.nil_append, Nat.zero_add, List.take_left, List.drop_append,
    List.length_append, Nat.add_sub_cancel_left, List.drop_drop]
  rw [List.drop_of_length_le (Nat.le_add_right _ _), List.nil_append]

section

variable {φ : Type} [DecidableEq φ]

/-- The bytes of the files that there are, and the file that is open, with the position in it. -/
structure Disk (φ : Type) where
  file : φ → Option (List UInt8)
  opened : Option (φ × Nat)

/-- What a call does to the disk. -/
def Disk.step (place : List UInt8 → φ) (disk : Disk φ) : Call → Disk φ
  | .createFile pathName =>
    { file := Function.update disk.file (place pathName) ((disk.file (place pathName)).getD [])
      opened := some (place pathName, 0) }
  | .writeFile bytes =>
    match disk.opened with
    | none => disk
    | some (p, position) =>
      { file := Function.update disk.file p (overwrite ((disk.file p).getD []) position bytes)
        opened := some (p, position + bytes.length) }
  | .closeFile => { disk with opened := none }
  | _ => disk

/-- What calls make of a disk. -/
def onDisk (place : List UInt8 → φ) (start : φ → Option (List UInt8)) (calls : List Call) : Disk φ :=
  calls.foldl (Disk.step place) ⟨start, none⟩

/-- A file laid over what there is. -/
def lay (place : List UInt8 → φ) (files : φ → Option (List UInt8)) (file : OutputFile) :
    φ → Option (List UInt8) :=
  Function.update files (place file.pathName)
    (overwrite ((files (place file.pathName)).getD []) 0 file.bytes)

/-- Files laid over what there is, one after the other. -/
def laid (place : List UInt8 → φ) (start : φ → Option (List UInt8)) (files : List OutputFile) :
    φ → Option (List UInt8) :=
  files.foldl (lay place) start

/-- The disk is what the log says. -/
structure Shows (place : List UInt8 → φ) (start : φ → Option (List UInt8)) (output : Output)
    (disk : Disk φ) : Prop where
  file : disk.file = laid place start (output.files ++ output.opened.toList)
  opened : disk.opened = output.opened.map fun file => (place file.pathName, file.bytes.length)

theorem laid_concat (place : List UInt8 → φ) (start : φ → Option (List UInt8))
    (files : List OutputFile) (file : OutputFile) :
    laid place start (files ++ [file]) = lay place (laid place start files) file := List.foldl_append

/-- Writing on is laying more over what there was. -/
theorem lay_more (place : List UInt8 → φ) (files : φ → Option (List UInt8)) (file : OutputFile)
    (more : List UInt8) :
    Function.update (lay place files file) (place file.pathName)
        (overwrite ((lay place files file (place file.pathName)).getD []) file.bytes.length more) =
      lay place files { file with bytes := file.bytes ++ more } := by
  unfold lay
  rw [Function.update_self, Function.update_idem, Option.getD_some, overwrite_overwrite]

/-- **A call does to the disk what it adds to the log.** -/
theorem Shows.step {place : List UInt8 → φ} {start : φ → Option (List UInt8)} {output output' : Output}
    {disk : Disk φ} {call : Call} (h : Shows place start output disk)
    (hstep : Output.step output call = some output') :
    Shows place start output' (disk.step place call) := by
  obtain ⟨hfile, hopened⟩ := h
  cases call with
  | createFile pathName =>
    obtain ⟨hnone, hstep⟩ := Option.ite_none_right_eq_some.mp hstep
    rw [Option.isNone_iff_eq_none.mp hnone, Option.toList_none, List.append_nil] at hfile
    rw [← Option.some.inj hstep]
    refine ⟨?_, rfl⟩
    show _ = laid place start (output.files ++ [_])
    rw [laid_concat, ← hfile]
    rfl
  | writeFile bytes =>
    obtain ⟨file, hsome, rfl⟩ := Option.map_eq_some_iff.mp hstep
    rw [hsome, Option.toList_some, laid_concat] at hfile
    rw [hsome, Option.map_some] at hopened
    unfold Disk.step
    rw [hopened]
    refine ⟨?_, ?_⟩
    · show _ = laid place start (output.files ++ [_])
      rw [laid_concat, ← lay_more, ← hfile]
    · dsimp only
      rw [Option.map_some, List.length_append]
  | setTimestamp date time =>
    obtain ⟨file, hsome, rfl⟩ := Option.map_eq_some_iff.mp hstep
    rw [hsome] at hfile hopened
    rw [Option.toList_some, laid_concat] at hfile
    -- the timestamp is no part of the disk
    refine ⟨?_, hopened⟩
    show disk.file = laid place start (output.files ++ [_])
    rw [laid_concat, hfile]
    rfl
  | closeFile =>
    obtain ⟨file, hsome, rfl⟩ := Option.map_eq_some_iff.mp hstep
    rw [hsome] at hfile
    refine ⟨?_, rfl⟩
    show disk.file = laid place start (output.files ++ [file] ++ [])
    rw [List.append_nil]
    exact hfile
  | makeDirectory pathName hasFilename => exact Option.some.inj hstep ▸ ⟨hfile, hopened⟩
  | findHeader offset length => exact Option.some.inj hstep ▸ ⟨hfile, hopened⟩
  | findData offset length => exact Option.some.inj hstep ▸ ⟨hfile, hopened⟩
  | printf message => exact Option.some.inj hstep ▸ ⟨hfile, hopened⟩

theorem Shows.run {place : List UInt8 → φ} {start : φ → Option (List UInt8)} {calls : List Call} :
    ∀ {output output' : Output} {disk : Disk φ}, Shows place start output disk →
      calls.foldlM Output.step output = some output' →
      Shows place start output' (calls.foldl (Disk.step place) disk) := by
  induction calls with
  | nil =>
    intro output output' disk h hrun
    rw [← Option.some.inj hrun]
    exact h
  | cons call calls ih =>
    intro output output' disk h hrun
    rw [List.foldlM_cons] at hrun
    obtain ⟨next, hstep, hrun⟩ := Option.bind_eq_some_iff.mp hrun
    exact ih (h.step hstep) hrun

/-- **On a disk, the files are laid over what is there**, and none is left open. -/
theorem Leaves.onDisk {calls : List Call} {files : List OutputFile} (h : Leaves calls files)
    (place : List UInt8 → φ) (start : φ → Option (List UInt8)) :
    onDisk place start calls = ⟨laid place start files, none⟩ := by
  have hstart : Shows place start ⟨[], none⟩ ⟨start, none⟩ := ⟨rfl, rfl⟩
  obtain ⟨hfile, hopened⟩ := hstart.run (h [])
  rw [List.nil_append, Option.toList_none, List.append_nil] at hfile
  unfold Compress.onDisk
  generalize calls.foldl (Disk.step place) ⟨start, none⟩ = disk at hfile hopened
  cases disk
  cases hfile
  cases hopened
  rfl

/-- Other files are as they were. -/
theorem laid_other (place : List UInt8 → φ) {q : φ} :
    ∀ (files : List OutputFile) (start : φ → Option (List UInt8)),
      (∀ file ∈ files, place file.pathName ≠ q) → laid place start files q = start q := by
  intro files
  induction files with
  | nil => exact fun _ _ => rfl
  | cons file files ih =>
    intro start hother
    have hrest := ih (lay place start file) fun file' hmem => hother file' (List.mem_cons_of_mem _ hmem)
    exact hrest.trans (Function.update_of_ne (hother file List.mem_cons_self).symm _ _)

/-- **New files with places of their own have the bytes that are written.** -/
theorem laid_new (place : List UInt8 → φ) :
    ∀ (files : List OutputFile) (start : φ → Option (List UInt8)),
      (files.map fun file => place file.pathName).Nodup →
      (∀ file ∈ files, start (place file.pathName) = none) →
      ∀ file ∈ files, laid place start files (place file.pathName) = some file.bytes := by
  intro files
  induction files with
  | nil => exact fun _ _ _ _ hmem => absurd hmem List.not_mem_nil
  | cons first files ih =>
    intro start hnodup hnone file hmem
    rw [List.map_cons, List.nodup_cons] at hnodup
    have hapart : ∀ file' ∈ files, place file'.pathName ≠ place first.pathName := fun file' hmem' heq =>
      hnodup.1 (List.mem_map.mpr ⟨file', hmem', heq⟩)
    show laid place (lay place start first) files (place file.pathName) = some file.bytes
    rcases List.mem_cons.mp hmem with rfl | hmem
    · -- the later files are elsewhere
      rw [laid_other place files _ hapart, lay, Function.update_self,
        hnone _ List.mem_cons_self]
      simp [overwrite]
    · refine ih _ hnodup.2 (fun file' hmem' => ?_) file hmem
      rw [lay, Function.update_of_ne (hapart file' hmem')]
      exact hnone file' (List.mem_cons_of_mem _ hmem')

end

end DevopsBroker.Compress
