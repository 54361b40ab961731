import DevopsBroker.Compress.DeflatedSpec
import DevopsBroker.Compress.Output
import DevopsBroker.Io.FileBufferListSpec
import Mathlib.Data.List.Forall2

/-!
# What extracting leaves behind

**`processFileHeaderList_intact`**: whatever the archive holds, files are opened one at a time and
closed again, each for a member of its own, in the order of the list, and each of them is `Intact`:
what a stored member is written as has the size and the CRC-32 of its FileHeader; a deflated member
has them if it is written with the size that is stated.
-/

namespace DevopsBroker.Compress

open DevopsBroker.Lib DevopsBroker.Io DevopsBroker.Lang DevopsBroker.Hash

theorem aloof_of_aside {call : Call} (h : call.aside) : call.aloof := by
  cases call <;> first | rfl | cases h

/-! ## What a member is written as -/

/-- A file has the name of a member, as a path, and that has at most eight pieces. -/
def NamedFor (fileHeader : FileHeader) (pathName : List UInt8) : Prop :=
  ∃ fileName, fileHeader.fileName = some fileName ∧
    (fileName.length < 2 ^ 31 → FewPieces fileName ∧ (asPath fileName ≠ [] → pathName = asPath fileName))

/-- A file that is as the FileHeader of its member says, as far as the code looks. -/
structure Intact (fileHeader : FileHeader) (file : OutputFile) : Prop where
  member : fileHeader.isDirectory = false
  named : NamedFor fileHeader file.pathName
  timestamp : file.date = fileHeader.lastModFileDate ∧ file.time = fileHeader.lastModFileTime
  method : fileHeader.compressMethod = ZIP_METHOD_STORED ∨
    fileHeader.compressMethod = ZIP_METHOD_DEFLATE
  stored : fileHeader.compressMethod = ZIP_METHOD_STORED →
    file.bytes.length = fileHeader.uncompressSize.toNat ∧
      crcOf crc32Polynomial file.bytes = fileHeader.crc32.toBitVec
  -- a deflated member is checked for the stated size, and written for the size that came out
  deflated : fileHeader.compressMethod = ZIP_METHOD_DEFLATE →
    file.bytes.length ≤ INFLATE_OUTPUT_LENGTH ∧
      (file.bytes.length = fileHeader.uncompressSize.toNat → fileHeader.uncompressSize ≠ 0 →
        crcOf crc32Polynomial file.bytes = fileHeader.crc32.toBitVec)

/-- No more and no fewer bytes are processed than asked for. -/
theorem processed_length {chain : List FileBuffer} {length : Nat} {addresses : List Nat}
    (h : processed chain length = some addresses) : addresses.length = length := by
  have hrun : ∀ (chain : List FileBuffer) (length : Nat) (front addresses : List Nat),
      forPieces (fun addresses p n => addresses ++ List.range' p n) chain length front =
        some addresses → addresses.length = front.length + length := by
    intro chain
    induction chain with
    | nil =>
      intro length front addresses h
      cases length with
      | zero => rw [← Option.some.inj h, Nat.add_zero]
      | succ length => cases h
    | cons b next ih =>
      intro length front addresses h
      cases length with
      | zero => rw [← Option.some.inj h, Nat.add_zero]
      | succ length =>
        rw [forPieces] at h
        have hrest := ih _ _ _ h
        rw [hrest, List.length_append, List.length_range']
        split <;> omega
  have hlength := hrun chain length [] addresses h
  rw [hlength, List.length_nil, Nat.zero_add]

/-- The bytes at the processed addresses are what is written. -/
theorem written_bytes (mem : Mem) (writes : List (Nat × Nat)) :
    (writes.flatMap fun call => List.range' call.1 call.2).map mem =
      (writes.map fun call => bytesAt mem call.1 call.2).flatten := by
  rw [List.map_flatMap, ← List.flatMap_def]
  refine List.flatMap_congr fun call _ => ?_
  rw [← Nat.add_zero call.1, ← List.map_add_range', List.map_map, ← List.range_eq_range',
    Nat.add_zero]
  rfl

/-- **Checksum and file are of the same bytes**, and of as many as stated. -/
theorem stored_bytes {mem : Mem} {chain : List FileBuffer} {length : Nat} {crc : BitVec 32}
    {writes : List (Nat × Nat)} (hcrc : Io.crc32 mem chain length = some crc)
    (hwrite : Io.write chain length = some writes) :
    (writes.map fun call => bytesAt mem call.1 call.2).flatten.length = length ∧
      crcOf crc32Polynomial (writes.map fun call => bytesAt mem call.1 call.2).flatten = crc := by
  have hprocessed := write_eq chain length
  rw [hwrite, Option.map_some] at hprocessed
  rw [crc32_eq_processed, ← hprocessed, Option.map_some, Option.some_inj, written_bytes] at hcrc
  refine ⟨?_, hcrc⟩
  rw [← written_bytes, List.length_map]
  exact processed_length hprocessed.symm

/-- The calls finish at most one file, and that one is intact. -/
def LeavesIntact (fileHeader : FileHeader) (calls : List Call) : Prop :=
  ∃ files, Leaves calls files ∧ (files = [] ∨ ∃ file, files = [file] ∧ Intact fileHeader file)

theorem LeavesIntact.none {fileHeader : FileHeader} {calls : List Call}
    (h : ∀ call ∈ calls, call.aloof) : LeavesIntact fileHeader calls :=
  ⟨[], leaves_aloof h, Or.inl rfl⟩

theorem LeavesIntact.after {fileHeader : FileHeader} {before calls : List Call}
    (hbefore : ∀ call ∈ before, call.aloof) (h : LeavesIntact fileHeader calls) :
    LeavesIntact fileHeader (before ++ calls) := by
  obtain ⟨files, hleaves, hfiles⟩ := h
  exact ⟨files, hleaves.behind_aloof hbefore, hfiles⟩

theorem LeavesIntact.one {fileHeader : FileHeader} {fileName : List UInt8}
    {writes : List (List UInt8)}
    (h : Intact fileHeader
      ⟨fileName, writes.flatten, fileHeader.lastModFileDate, fileHeader.lastModFileTime⟩) :
    LeavesIntact fileHeader (createAndWrite fileName fileHeader writes) :=
  ⟨_, createAndWrite_leaves fileName fileHeader writes, Or.inr ⟨_, rfl, h⟩⟩

theorem findMemberData_aloof {s s' : Archive} {fileHeader : FileHeader} {dataLength : Nat}
    {call : Call} {chain : List FileBuffer}
    (h : findMemberData s fileHeader dataLength = (call, s', chain)) : ∀ c ∈ [call], c.aloof := by
  intro c hc
  obtain rfl : Call.findData (dataOffsetOf fileHeader dataLength) fileHeader.compressSize.toNat =
    call := congrArg Prod.fst h
  rw [List.mem_singleton.mp hc]
  rfl

/-- Extraction is of a member that has a name. -/
theorem extraction_named {env : Env} {s s' : Archive} {fileHeader : FileHeader}
    {fileName : List UInt8} {dataLength : Nat}
    (h : extraction env s fileHeader = some (s', fileName, dataLength)) :
    NamedFor fileHeader fileName := by
  have hmember := extraction_member h
  obtain ⟨hfound, hname⟩ := found_of_extraction h
  obtain ⟨left, hleft⟩ := Option.ne_none_iff_exists'.mp hname
  rw [extraction_found hmember hfound hleft, Option.some_inj, Prod.mk.injEq, Prod.mk.injEq] at h
  obtain rfl := h.2.1
  obtain ⟨name, hsome, hmade⟩ := Option.bind_eq_some_iff.mp hleft
  have hmade := Option.join_eq_some_iff.mp hmade
  refine ⟨name, hsome, fun hlength => ?_⟩
  have hfew : FewPieces name := (makeDirectory_eq_some_iff env true hlength).mp ⟨left, hmade⟩
  obtain ⟨fileName', hmade', hpath⟩ := makeDirectory_leaves env true hfew
  obtain rfl := Option.some.inj (Option.some.inj (hmade.symm.trans hmade'))
  exact ⟨hfew, hpath⟩

section

variable {s : Archive} {fileName : List UInt8} {fileHeader : FileHeader} {dataLength : Nat}

/-- A stored member. -/
theorem extractStored_intact (hmember : fileHeader.isDirectory = false)
    (hname : NamedFor fileHeader fileName)
    (hstored : fileHeader.compressMethod = ZIP_METHOD_STORED) :
    LeavesIntact fileHeader (extractStored s fileName fileHeader dataLength).1 := by
  rcases hfind : findMemberData s fileHeader dataLength with ⟨call, s', chain⟩
  have haloof := findMemberData_aloof hfind
  have hne : ZIP_METHOD_STORED ≠ ZIP_METHOD_DEFLATE := by decide
  unfold extractStored
  rw [hfind]
  dsimp only
  split
  next crc writes hcrc hwrite =>
    obtain ⟨hlength, hbytes⟩ := stored_bytes hcrc hwrite
    split
    next hmatch =>
      refine LeavesIntact.after haloof (LeavesIntact.one ⟨hmember, hname, ⟨rfl, rfl⟩, Or.inl hstored,
        fun _ => ⟨hlength, hbytes.trans hmatch⟩, fun hdeflate => ?_⟩)
      exact absurd (hstored.symm.trans hdeflate) hne
    next _ => exact LeavesIntact.none haloof
  next _ => exact LeavesIntact.none haloof

/-- A deflated member. -/
theorem extractDeflated_intact (env : Env) (hmember : fileHeader.isDirectory = false)
    (hname : NamedFor fileHeader fileName)
    (hdeflate : fileHeader.compressMethod = ZIP_METHOD_DEFLATE) :
    LeavesIntact fileHeader (extractDeflated env s fileName fileHeader dataLength).1 := by
  rcases hfind : findMemberData s fileHeader dataLength with ⟨call, s', chain⟩
  have haloof := findMemberData_aloof hfind
  have hne : ZIP_METHOD_DEFLATE ≠ ZIP_METHOD_STORED := by decide
  unfold extractDeflated
  rw [hfind]
  cases chain with
  | nil => exact LeavesIntact.none haloof
  | cons fileBuffer next =>
    dsimp only
    rcases hrun : inflate s'.mem env.garbage
      (initInflate env.slab fileBuffer next fileHeader.compressSize.toNat) with _ | ⟨ok, st⟩
    · exact LeavesIntact.none haloof
    dsimp only
    have hstart : (initInflate env.slab fileBuffer next fileHeader.compressSize.toNat).Fits :=
      Nat.zero_le _
    have hfits : st.outputBuffer.length ≤ INFLATE_OUTPUT_LENGTH := inflate_fits hstart hrun
    split
    next hmatch =>
      rw [outputBuffer_crc32_eq] at hmatch
      have hlength : [st.outputBuffer.write].flatten.length = st.outputBuffer.length := by
        rw [List.flatten_singleton, OutputBuffer.write, bytesAt_length]
      refine LeavesIntact.after haloof (LeavesIntact.one ⟨hmember, hname, ⟨rfl, rfl⟩, Or.inr hdeflate,
        fun hstored => absurd (hdeflate.symm.trans hstored) hne,
        fun _ => ⟨hlength ▸ hfits, fun hsize _ => ?_⟩⟩)
      -- the checksum was taken of exactly what is written
      dsimp only at hsize
      rw [hlength] at hsize
      rw [← hmatch, List.flatten_singleton, OutputBuffer.write, hsize, Nat.min_eq_left]
      exact hsize ▸ hfits
    next _ =>
      refine LeavesIntact.none fun c hc => ?_
      rcases List.mem_cons.mp hc with rfl | hc
      · exact haloof _ (List.mem_singleton_self _)
      · rw [List.mem_singleton.mp hc]
        rfl

theorem extract_intact (env : Env) (hmember : fileHeader.isDirectory = false)
    (hname : NamedFor fileHeader fileName) :
    LeavesIntact fileHeader (extract env s fileName fileHeader dataLength).1 := by
  have hne : ZIP_METHOD_DEFLATE ≠ ZIP_METHOD_STORED := by decide
  unfold extract
  split
  next hstored => exact extractStored_intact hmember hname hstored
  next _ =>
    split
    next hdeflate =>
      split
      next hzero =>
        refine LeavesIntact.one ⟨hmember, hname, ⟨rfl, rfl⟩, Or.inr hdeflate,
          fun hstored => absurd (hdeflate.symm.trans hstored) hne,
          fun _ => ⟨Nat.zero_le _, fun _ hsize => absurd hzero hsize⟩⟩
      next _ => exact extractDeflated_intact env hmember hname hdeflate
    next _ => exact LeavesIntact.none fun _ hcall => absurd hcall List.not_mem_nil

end

/-- **One member.** -/
theorem processFileHeader_intact (env : Env) (s : Archive) (fileHeader : FileHeader) :
    LeavesIntact fileHeader (processFileHeader env s fileHeader).1 := by
  obtain ⟨before, haside, hnone, hsome⟩ := processFileHeader_extraction env s fileHeader
  have hbefore : ∀ call ∈ before, call.aloof := fun call hcall => aloof_of_aside (haside call hcall)
  rcases hextract : extraction env s fileHeader with _ | ⟨s', fileName, dataLength⟩
  · rw [(hnone hextract).1]
    exact LeavesIntact.none hbefore
  · rw [hsome s' fileName dataLength hextract]
    exact LeavesIntact.after hbefore
      (extract_intact env (extraction_member hextract) (extraction_named hextract))

/-! ## All members -/

/-- **The members one after another.** -/
theorem processFileHeaderList_leaves (env : Nat → Env) (fileHeaderList : List FileHeader) :
    ∀ (i : Nat) (s : Archive), ∃ files members,
      Leaves (processFileHeaderList env i fileHeaderList s).1 files ∧
        members.Sublist fileHeaderList ∧ List.Forall₂ Intact members files := by
  induction fileHeaderList with
  | nil => exact fun i s => ⟨[], [], leaves_nil, List.Sublist.slnil, List.Forall₂.nil⟩
  | cons fileHeader fileHeaderList ih =>
    intro i s
    obtain ⟨files, hleaves, hfiles⟩ := processFileHeader_intact (env i) s fileHeader
    -- the member by itself, and with the ones that come behind it
    have hone : ∃ members, members.Sublist [fileHeader] ∧ List.Forall₂ Intact members files := by
      rcases hfiles with rfl | ⟨file, rfl, hintact⟩
      · exact ⟨[], List.nil_sublist _, List.Forall₂.nil⟩
      · exact ⟨[fileHeader], List.Sublist.refl _, List.Forall₂.cons hintact List.Forall₂.nil⟩
    obtain ⟨members, hsub, hintact⟩ := hone
    have halone : ∃ files members, Leaves (processFileHeader (env i) s fileHeader).1 files ∧
        members.Sublist (fileHeader :: fileHeaderList) ∧ List.Forall₂ Intact members files :=
      ⟨files, members, hleaves,
        hsub.trans (List.singleton_sublist.mpr List.mem_cons_self), hintact⟩
    unfold processFileHeaderList
    split
    next calls s' hmember =>
      obtain ⟨files', members', hleaves', hsub', hintact'⟩ := ih (i + 1) s'
      rw [hmember] at hleaves
      exact ⟨files ++ files', members ++ members', hleaves.append hleaves',
        List.Sublist.append hsub hsub', List.rel_append hintact hintact'⟩
    next stopped _ => exact halone

/-- **Whatever the archive holds, whatever reading and `mkdir` give and wherever it ends**: files are
opened one at a time and all closed again, each for a member of its own, in the order of the members,
and each intact. On a disk, they are laid over what is there. -/
theorem processFileHeaderList_intact (env : Nat → Env) (fileHeaderList : List FileHeader) (i : Nat)
    (s : Archive) :
    ∃ files members,
      outputOf (processFileHeaderList env i fileHeaderList s).1 = some files ∧
        members.Sublist fileHeaderList ∧ List.Forall₂ Intact members files ∧
        ∀ {φ : Type} [DecidableEq φ] (place : List UInt8 → φ) (start : φ → Option (List UInt8)),
          onDisk place start (processFileHeaderList env i fileHeaderList s).1 =
            ⟨laid place start files, none⟩ := by
  obtain ⟨files, members, hleaves, hsub, hintact⟩ := processFileHeaderList_leaves env fileHeaderList i s
  exact ⟨files, members, hleaves.outputOf, hsub, hintact, fun place start => hleaves.onDisk place start⟩

end DevopsBroker.Compress
