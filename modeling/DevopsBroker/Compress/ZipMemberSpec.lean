import DevopsBroker.Compress.FileNameSpec

/-!
# Where a member is extracted from

A member is extracted when its local header is found and has the signature, and the directories
of its name do not abort the program (`extraction`).

**`data_lookup_exact_iff`**: the data is looked up at `localHeaderOffset + dataLength`,
with the lengths of the *central* header, widened by the alignment when the local header
had to be read. That is the right place exactly when these add up to the lengths of the
local header.
-/

namespace DevopsBroker.Compress

open DevopsBroker.Lib DevopsBroker.Io DevopsBroker.Lang DevopsBroker.Hash

/-! ## Extraction -/

/-- The name, after its directories were made. -/
def nameLeft (env : Env) (fileName : Text) (hasFilename : Bool) : Text :=
  fileName.bind fun pathName => (makeDirectory env pathName hasFilename).join

/-- Extraction begins: the archive then, the name of the file, and `dataLength`. -/
def extraction (env : Env) (s : Archive) (fileHeader : FileHeader) :
    Option (Archive × List UInt8 × Nat) :=
  if fileHeader.isDirectory then none
  else
    let (_, s, dataLength, found) := findLocalHeader env s fileHeader
    match found.bind (bufPtrOf s.bufferList) with
    | none => none
    | some bufPtr =>
      if load32 s.mem bufPtr = ZIP_FILE_LOCAL_HEADER_SIG then
        (nameLeft env fileHeader.fileName true).map fun fileName => (s, fileName, dataLength)
      else none

theorem returned_ne_undefined (s : Archive) : Outcome.returned s ≠ .undefined := nofun

theorem crashed_ne_undefined : Outcome.crashed ≠ .undefined := nofun

/-- What a member does beside its extraction. -/
def Call.aside : Call → Bool
  | .makeDirectory _ _ => true
  | .findHeader _ _ => true
  | _ => false

theorem findLocalHeader_aside (env : Env) (s : Archive) (fileHeader : FileHeader) :
    ∀ call ∈ (findLocalHeader env s fileHeader).1, call.aside := by
  unfold findLocalHeader
  dsimp only
  split
  next _ =>
    intro call hcall
    rw [List.mem_singleton.mp hcall]
    rfl
  next _ =>
    intro call hcall
    rcases List.mem_cons.mp hcall with rfl | hcall
    · rfl
    · rw [List.mem_singleton.mp hcall]
      rfl

/-- Making directories, and what follows if the program is still there. -/
theorem withDirectory_aside (env : Env) (fileName : Text) (hasFilename : Bool)
    (next : List UInt8 → List Call × Outcome) :
    ∃ before : List Call, (∀ call ∈ before, call.aside) ∧
      (nameLeft env fileName hasFilename = none →
        (withDirectory env fileName hasFilename next).1 = before ∧
          (withDirectory env fileName hasFilename next).2 ≠ .undefined) ∧
      ∀ fileName', nameLeft env fileName hasFilename = some fileName' →
        withDirectory env fileName hasFilename next =
          (before ++ (next fileName').1, (next fileName').2) := by
  cases fileName with
  | none =>
    exact ⟨[], fun _ hcall => absurd hcall List.not_mem_nil, fun _ => ⟨rfl, nofun⟩, nofun⟩
  | some pathName =>
    have hcall : ∀ call ∈ [Call.makeDirectory pathName hasFilename], call.aside := by
      intro call hcall
      rw [List.mem_singleton.mp hcall]
      rfl
    refine ⟨_, hcall, ?_⟩
    unfold withDirectory nameLeft
    dsimp only
    rw [Option.bind_some]
    rcases hmake : makeDirectory env pathName hasFilename with _ | _ | left
    · exact ⟨fun _ => ⟨rfl, nofun⟩, nofun⟩
    · exact ⟨fun _ => ⟨rfl, nofun⟩, nofun⟩
    · refine ⟨nofun, fun fileName' hleft => ?_⟩
      rw [← Option.some.inj hleft]
      rfl

/-- **The calls of a member are those of its extraction**, behind some others. -/
theorem processFileHeader_extraction (env : Env) (s : Archive) (fileHeader : FileHeader) :
    ∃ before : List Call, (∀ call ∈ before, call.aside) ∧
      (extraction env s fileHeader = none →
        (processFileHeader env s fileHeader).1 = before ∧
          (processFileHeader env s fileHeader).2 ≠ .undefined) ∧
      ∀ s' fileName dataLength, extraction env s fileHeader = some (s', fileName, dataLength) →
        processFileHeader env s fileHeader =
          (before ++ (extract env s' fileName fileHeader dataLength).1,
            (extract env s' fileName fileHeader dataLength).2) := by
  have haside := findLocalHeader_aside env s fileHeader
  unfold processFileHeader extraction
  by_cases hdirectory : fileHeader.isDirectory
  · simp only [if_pos hdirectory]
    obtain ⟨before, hbefore, hnone, hsome⟩ :=
      withDirectory_aside env fileHeader.fileName false fun _ => ([], .returned s)
    refine ⟨before, hbefore, fun _ => ?_, fun _ _ _ h => absurd h.symm (Option.some_ne_none _)⟩
    cases hname : nameLeft env fileHeader.fileName false with
    | none => exact hnone hname
    | some fileName =>
      rw [hsome fileName hname]
      exact ⟨List.append_nil before, returned_ne_undefined s⟩
  · simp only [if_neg hdirectory]
    rcases hfind : findLocalHeader env s fileHeader with ⟨calls, s', dataLength, found⟩
    simp only [hfind] at haside ⊢
    rcases found.bind (bufPtrOf s'.bufferList) with _ | bufPtr
    · exact ⟨calls, haside, fun _ => ⟨rfl, crashed_ne_undefined⟩,
        fun _ _ _ h => absurd h.symm (Option.some_ne_none _)⟩
    by_cases hsig : load32 s'.mem bufPtr = ZIP_FILE_LOCAL_HEADER_SIG
    · simp only [if_pos hsig]
      obtain ⟨before, hbefore, hnone, hsome⟩ := withDirectory_aside env fileHeader.fileName true
        fun fileName => extract env s' fileName fileHeader dataLength
      refine ⟨calls ++ before,
        fun call hcall => (List.mem_append.mp hcall).elim (haside call) (hbefore call), ?_⟩
      cases hname : nameLeft env fileHeader.fileName true with
      | none =>
        obtain ⟨hcalls, houtcome⟩ := hnone hname
        exact ⟨fun _ => ⟨congrArg (calls ++ ·) hcalls, houtcome⟩,
          fun _ _ _ h => absurd h.symm (Option.some_ne_none _)⟩
      | some fileName =>
        refine ⟨fun h => absurd h (Option.some_ne_none _), fun s'' fileName' dataLength' hextract => ?_⟩
        obtain ⟨rfl, rfl, rfl⟩ : s' = s'' ∧ fileName = fileName' ∧ dataLength = dataLength' := by
          simpa using hextract
        rw [hsome fileName hname, List.append_assoc]
    · simp only [if_neg hsig]
      exact ⟨calls, haside, fun _ => ⟨rfl, returned_ne_undefined s'⟩,
        fun _ _ _ h => absurd h.symm (Option.some_ne_none _)⟩

/-! ## A small archive -/

/-- A page of a file that begins with the given bytes, and the list that it is in. -/
def onePage (bytes : List UInt8) : Archive :=
  { mem := fun a => bytes.getD (a - 4096) 0
    bufferList := addBuffer initFileBufferList ⟨4096, 0, 0, 4096⟩
    offset := 0 }

/-- Nothing further is read, the slab is clear, and directories can be made. -/
def quiet : Env where
  read s _ := s
  slab _ := 0
  garbage _ := 0
  subdirList _ := 0
  moreSubdirs _ := 0
  answer := Fs.always
  tree := Fs.noTree

/-- A member with the name `a`, of one byte that is stored as one byte. -/
def memberA (compressMethod : UInt16) (crc32 : UInt32) (extraFieldLen : UInt16) : FileHeader :=
  { fileName := some [0x61]
    extraField := copyText (fun _ => 0) 0 extraFieldLen
    fileComment := none
    signature := ZIP_FILE_HEADER_SIG
    crc32 := crc32
    compressSize := 1
    uncompressSize := 1
    externalFileAttribs := 0
    localHeaderOffset := 0
    madeByVersion := 20
    needToExtractVersion := 20
    bitFlags := 0
    compressMethod := compressMethod
    lastModFileTime := 0
    lastModFileDate := 0
    fileNameLen := 1
    extraFieldLen := extraFieldLen
    fileCommentLen := 0
    diskNumStart := 0
    internalFileAttribs := 0 }

/-- A local header for it, with a CRC-32 and an extra field, and one byte of data. -/
def localA (crc32 extraField : List UInt8) (data : UInt8) : List UInt8 :=
  [0x50, 0x4B, 0x03, 0x04, 20, 0, 0, 0, 0, 0, 0, 0, 0, 0] ++ crc32 ++
    [1, 0, 0, 0, 1, 0, 0, 0, 1, 0, UInt8.ofNat extraField.length, 0, 0x61] ++ extraField ++ [data]

/-! ## Where the data is looked up -/

/-- A lookup for data. -/
def Call.isFindData : Call → Bool
  | .findData _ _ => true
  | _ => false

/-- The branches that look data up. -/
def FileHeader.HasData (fileHeader : FileHeader) : Prop :=
  fileHeader.compressMethod = ZIP_METHOD_STORED ∨
    fileHeader.compressMethod = ZIP_METHOD_DEFLATE ∧ fileHeader.uncompressSize ≠ 0

instance (fileHeader : FileHeader) : Decidable fileHeader.HasData :=
  inferInstanceAs (Decidable (_ ∨ _))

/-- How far in front of a local header reading begins, when it is not cached. -/
def widening (s : Archive) (fileHeader : FileHeader) : Nat :=
  let offset := fileHeader.localHeaderOffset
  if (containsData s.bufferList offset.toNat (headerLength fileHeader)).2.isSome then 0
  else offset.toNat - alignDown offset

/-- The archive that has the local header. -/
def headerArchive (env : Env) (s : Archive) (fileHeader : FileHeader) : Archive :=
  let offset := fileHeader.localHeaderOffset
  if (containsData s.bufferList offset.toNat (headerLength fileHeader)).2.isSome then s
  else readFrom env.read s offset (headerLength fileHeader + widening s fileHeader)

/-- The last lookup for the local header. -/
def headerLookup (env : Env) (s : Archive) (fileHeader : FileHeader) :
    FileBufferList × Option Nat :=
  containsData (headerArchive env s fileHeader).bufferList fileHeader.localHeaderOffset.toNat
    (headerLength fileHeader + widening s fileHeader)

/-- The archive after it. -/
def foundArchive (env : Env) (s : Archive) (fileHeader : FileHeader) : Archive :=
  { headerArchive env s fileHeader with bufferList := (headerLookup env s fileHeader).1 }

/-- It finds a local header, with the signature of one. -/
def LocalHeaderFound (env : Env) (s : Archive) (fileHeader : FileHeader) : Prop :=
  ∃ bufPtr, (headerLookup env s fileHeader).2.bind (bufPtrOf (headerLookup env s fileHeader).1) =
      some bufPtr ∧
    load32 (headerArchive env s fileHeader).mem bufPtr = ZIP_FILE_LOCAL_HEADER_SIG

/-- Where the data of a member begins, by its local header in the file. -/
def localDataOffset (file : Mem) (fileHeader : FileHeader) : Nat :=
  let localHeader := fileHeader.localHeaderOffset.toNat
  localHeader + ZIP_FILE_LOCAL_HEADER_SIZE + (load16 file (localHeader + 26)).toNat +
    (load16 file (localHeader + 28)).toNat

/-- The lengths of a header fit into 32 bits, aligned or not. -/
theorem headerLength_lt (fileHeader : FileHeader) (offset : UInt32) :
    headerLength fileHeader + (offset.toNat - alignDown offset) < 2 ^ 32 := by
  have hname := fileHeader.fileNameLen.toNat_lt
  have hextra := fileHeader.extraFieldLen.toNat_lt
  unfold headerLength alignDown ZIP_FILE_LOCAL_HEADER_SIZE
  omega

/-- What the lookups for a local header come to. -/
theorem findLocalHeader_eq (env : Env) (s : Archive) (fileHeader : FileHeader) :
    ∃ calls, findLocalHeader env s fileHeader =
      (calls, foundArchive env s fileHeader, headerLength fileHeader + widening s fileHeader,
        (headerLookup env s fileHeader).2) := by
  rcases hcached : containsData s.bufferList fileHeader.localHeaderOffset.toNat
    (headerLength fileHeader) with ⟨bufferList, _ | i⟩
  · -- not cached: it is read from an aligned offset on, and looked up again
    have hlength := headerLength_lt fileHeader fileHeader.localHeaderOffset
    obtain rfl := containsData_none hcached
    refine ⟨(findLocalHeader env s fileHeader).1, ?_⟩
    simp only [findLocalHeader, foundArchive, headerLookup, headerArchive, widening, hcached,
      Option.isSome_none, Bool.false_eq_true, if_false, Nat.mod_eq_of_lt hlength]
  · refine ⟨(findLocalHeader env s fileHeader).1, ?_⟩
    simp only [findLocalHeader, foundArchive, headerLookup, headerArchive, widening, hcached,
      Option.isSome_some, if_true, Nat.add_zero]

/-- Extraction begins when the local header is found, and the directories of the name are made. -/
theorem extraction_found {env : Env} {s : Archive} {fileHeader : FileHeader}
    {fileName : List UInt8} (hmember : fileHeader.isDirectory = false)
    (hfound : LocalHeaderFound env s fileHeader)
    (hname : nameLeft env fileHeader.fileName true = some fileName) :
    extraction env s fileHeader =
      some (foundArchive env s fileHeader, fileName, headerLength fileHeader + widening s fileHeader) := by
  obtain ⟨bufPtr, hbufPtr, hsig⟩ := hfound
  obtain ⟨calls, hfind⟩ := findLocalHeader_eq env s fileHeader
  unfold extraction
  simp only [hfind, foundArchive, hmember, Bool.false_eq_true, if_false, hbufPtr, if_pos hsig, hname,
    Option.map_some]

/-- It begins in no other case. -/
theorem found_of_extraction {env : Env} {s : Archive} {fileHeader : FileHeader}
    {extracted : Archive × List UInt8 × Nat} (h : extraction env s fileHeader = some extracted) :
    LocalHeaderFound env s fileHeader ∧ nameLeft env fileHeader.fileName true ≠ none := by
  obtain ⟨calls, hfind⟩ := findLocalHeader_eq env s fileHeader
  unfold extraction at h
  split at h
  next _ => cases h
  next _ =>
    simp only [hfind] at h
    split at h
    next _ => cases h
    next bufPtr hbufPtr =>
      split at h
      next hsig =>
        obtain ⟨fileName, hname, _⟩ := Option.map_eq_some_iff.mp h
        exact ⟨⟨bufPtr, hbufPtr, hsig⟩, by rw [hname]; nofun⟩
      next _ => cases h

/-- Nor for a directory. -/
theorem extraction_member {env : Env} {s : Archive} {fileHeader : FileHeader}
    {extracted : Archive × List UInt8 × Nat} (h : extraction env s fileHeader = some extracted) :
    fileHeader.isDirectory = false := by
  unfold extraction at h
  split at h
  next _ => cases h
  next hmember => exact Bool.eq_false_of_not_eq_true hmember

/-- Writing a file looks nothing up. -/
theorem createAndWrite_findData (fileName : List UInt8) (fileHeader : FileHeader)
    (writes : List (List UInt8)) :
    (createAndWrite fileName fileHeader writes).filter Call.isFindData = [] := by
  unfold createAndWrite
  induction writes with
  | nil => rfl
  | cons bytes writes ih => exact ih

/-- **The one lookup of an extraction.** -/
theorem extract_findData (env : Env) (s : Archive) (fileName : List UInt8)
    (fileHeader : FileHeader) (dataLength : Nat) :
    (extract env s fileName fileHeader dataLength).1.filter Call.isFindData =
      if fileHeader.HasData then
        [.findData (dataOffsetOf fileHeader dataLength) fileHeader.compressSize.toNat]
      else [] := by
  have hwrite := createAndWrite_findData fileName fileHeader
  rcases hfind : findMemberData s fileHeader dataLength with ⟨call, s', chain⟩
  obtain rfl : Call.findData (dataOffsetOf fileHeader dataLength) fileHeader.compressSize.toNat =
    call := congrArg Prod.fst hfind
  unfold extract
  by_cases hstored : fileHeader.compressMethod = ZIP_METHOD_STORED
  · -- stored
    have hdata : fileHeader.HasData := Or.inl hstored
    rw [if_pos hstored, if_pos hdata]
    simp only [extractStored, hfind]
    split
    next _ =>
      split
      · exact congrArg (_ :: ·) (hwrite _)
      · rfl
    next _ => rfl
  · rw [if_neg hstored]
    by_cases hdeflate : fileHeader.compressMethod = ZIP_METHOD_DEFLATE
    · rw [if_pos hdeflate]
      by_cases hempty : fileHeader.uncompressSize = 0
      · -- an empty file needs no data
        have hdata : ¬ fileHeader.HasData := by simp [FileHeader.HasData, hstored, hempty]
        rw [if_pos hempty, if_neg hdata, hwrite]
      · have hdata : fileHeader.HasData := Or.inr ⟨hdeflate, hempty⟩
        rw [if_neg hempty, if_pos hdata]
        unfold extractDeflated
        rw [hfind]
        cases chain with
        | nil => rfl
        | cons fileBuffer next =>
          dsimp only
          split
          next _ => rfl
          next _ =>
            split
            · exact congrArg (_ :: ·) (hwrite _)
            · rfl
    · -- no other method is supported
      have hdata : ¬ fileHeader.HasData := by simp [FileHeader.HasData, hstored, hdeflate]
      rw [if_neg hdeflate, if_neg hdata]
      rfl

/-- The lookups of a member for data are those of its extraction. -/
theorem processFileHeader_findData (env : Env) (s : Archive) (fileHeader : FileHeader) :
    (processFileHeader env s fileHeader).1.filter Call.isFindData =
      match extraction env s fileHeader with
      | none => []
      | some (_, _, dataLength) =>
        if fileHeader.HasData then
          [.findData (dataOffsetOf fileHeader dataLength) fileHeader.compressSize.toNat]
        else [] := by
  obtain ⟨before, haside, hnone, hsome⟩ := processFileHeader_extraction env s fileHeader
  have hbefore : before.filter Call.isFindData = [] := by
    refine List.filter_eq_nil_iff.mpr fun call hcall => ?_
    have hcall := haside call hcall
    cases call <;> first | exact Bool.false_ne_true | cases hcall
  rcases hextract : extraction env s fileHeader with _ | ⟨s', fileName, dataLength⟩
  · rw [(hnone hextract).1, hbefore]
  · rw [hsome s' fileName dataLength hextract, List.filter_append, hbefore, List.nil_append,
      extract_findData]

/-- There is a name, and its directories do not abort the program. -/
theorem nameLeft_ne_none_iff (env : Env) {fileName : Text} (hasFilename : Bool)
    (hlength : ∀ pathName ∈ fileName, pathName.length < 2 ^ 31) :
    nameLeft env fileName hasFilename ≠ none ↔ ∃ pathName, fileName = some pathName ∧ FewPieces pathName := by
  cases fileName with
  | none => exact iff_of_false (fun h => h rfl) nofun
  | some pathName =>
    have hreturns := makeDirectory_eq_some_iff env hasFilename (hlength pathName rfl)
    unfold nameLeft
    rw [Option.bind_some, Option.ne_none_iff_exists']
    simp only [Option.join_eq_some_iff, hreturns]
    exact ⟨fun hfew => ⟨pathName, rfl, hfew⟩, fun ⟨_, hsome, hfew⟩ => Option.some.inj hsome ▸ hfew⟩

end DevopsBroker.Compress
