import DevopsBroker.Compress.CachedPages
import DevopsBroker.Compress.EndOfCDRSpec
import DevopsBroker.Lib.DeflateLocal

/-!
# Unpacking an archive

`unpack` is what the members of an archive stand for, as bytes of the archive file: the data
of a member lies behind its local header, as it is or deflated, and has the size and the CRC-32
of its FileHeader. The code gets there through pages of memory that lookups move positions in.

- `Readable` is what the code needs of a member besides: its bytes are cached, and the decoder
  tables have the symbols of its data; `Nameable` is what it needs of the name;
- **`processFileHeaderList_run`**: the members are restored, each file with its bytes;
- **`unzip_restores`**: so is an archive, from its central directory on, and on a disk the files
  are added to what there is.
-/

namespace DevopsBroker.Compress

open DevopsBroker.Lib DevopsBroker.Io DevopsBroker.Lang DevopsBroker.Hash

/-! ## What the members stand for -/

/-- The bytes of a member, from the data behind its local header. -/
def contentOf (file : Mem) (fileHeader : FileHeader) : Option (List UInt8) :=
  let start := localDataOffset file fileHeader
  let length := fileHeader.compressSize.toNat
  if fileHeader.compressMethod = ZIP_METHOD_STORED then some (bytesAt file start length)
  else if fileHeader.compressMethod = ZIP_METHOD_DEFLATE then
    Deflate.inflate Deflate.allSymbols (bitAt fun k => file (start + k)) (8 * length)
  else none

/-- The file of a member; a directory has none. Fails where the format is violated. -/
def unpackMember (file : Mem) (fileHeader : FileHeader) : Option (List OutputFile) := do
  let pathName ← fileHeader.fileName
  if fileHeader.isDirectory then return []
  let bytes ← contentOf file fileHeader
  if load32 file fileHeader.localHeaderOffset.toNat = ZIP_FILE_LOCAL_HEADER_SIG ∧
      bytes.length = fileHeader.uncompressSize.toNat ∧
      crcOf crc32Polynomial bytes = fileHeader.crc32.toBitVec then
    some [⟨pathName, bytes, fileHeader.lastModFileDate, fileHeader.lastModFileTime⟩]
  else none

/-- The files of an archive. -/
def unpack (file : Mem) : List FileHeader → Option (List OutputFile)
  | [] => some []
  | fileHeader :: fileHeaderList => do
    let files ← unpackMember file fileHeader
    let others ← unpack file fileHeaderList
    return files ++ others

/-- The directories that are asked for, each with whether it is the one of a file name. -/
def directoriesOf (calls : List Call) : List (List UInt8 × Bool) :=
  calls.filterMap fun
    | .makeDirectory pathName hasFilename => some (pathName, hasFilename)
    | _ => none

/-- The directories that go with some members. -/
def memberDirectories (fileHeaderList : List FileHeader) : List (List UInt8 × Bool) :=
  fileHeaderList.filterMap fun fileHeader =>
    fileHeader.fileName.map fun pathName => (pathName, !fileHeader.isDirectory)

theorem unpackMember_member {file : Mem} {fileHeader : FileHeader} {files : List OutputFile}
    (h : unpackMember file fileHeader = some files) (hmember : fileHeader.isDirectory = false) :
    ∃ pathName bytes, fileHeader.fileName = some pathName ∧
      contentOf file fileHeader = some bytes ∧
      load32 file fileHeader.localHeaderOffset.toNat = ZIP_FILE_LOCAL_HEADER_SIG ∧
      bytes.length = fileHeader.uncompressSize.toNat ∧
      crcOf crc32Polynomial bytes = fileHeader.crc32.toBitVec ∧
      files = [⟨pathName, bytes, fileHeader.lastModFileDate, fileHeader.lastModFileTime⟩] := by
  unfold unpackMember at h
  obtain ⟨pathName, hname, h⟩ := Option.bind_eq_some_iff.mp h
  rw [hmember, if_neg Bool.false_ne_true] at h
  obtain ⟨bytes, hbytes, h⟩ := Option.bind_eq_some_iff.mp h
  split at h
  next hwell =>
    exact ⟨pathName, bytes, hname, hbytes, hwell.1, hwell.2.1, hwell.2.2, (Option.some.inj h).symm⟩
  next _ => cases h

theorem unpackMember_directory {file : Mem} {fileHeader : FileHeader} {files : List OutputFile}
    (h : unpackMember file fileHeader = some files) (hdirectory : fileHeader.isDirectory = true) :
    files = [] ∧ ∃ pathName, fileHeader.fileName = some pathName := by
  unfold unpackMember at h
  obtain ⟨pathName, hname, h⟩ := Option.bind_eq_some_iff.mp h
  rw [hdirectory, if_pos rfl] at h
  exact ⟨(Option.some.inj h).symm, pathName, hname⟩

theorem unpack_cons {file : Mem} {fileHeader : FileHeader} {fileHeaderList : List FileHeader}
    {files : List OutputFile} (h : unpack file (fileHeader :: fileHeaderList) = some files) :
    ∃ first others, unpackMember file fileHeader = some first ∧
      unpack file fileHeaderList = some others ∧ files = first ++ others := by
  unfold unpack at h
  obtain ⟨first, hfirst, h⟩ := Option.bind_eq_some_iff.mp h
  obtain ⟨others, hothers, h⟩ := Option.bind_eq_some_iff.mp h
  exact ⟨first, others, hfirst, hothers, (Option.some.inj h).symm⟩

/-! ## One member -/

/-- What the code needs of a member, besides that it is well formed: its header and its data are
cached, the two headers have the same lengths, and the data can be decoded. -/
structure Readable (file : Mem) (pages : List FileBuffer) (fileHeader : FileHeader) : Prop where
  header_cached : InRange pages fileHeader.localHeaderOffset.toNat (headerLength fileHeader)
  signature_together : ∀ k < 4, addressOf pages ((fileHeader.localHeaderOffset.toNat + k : Nat) : Int) =
    addressOf pages fileHeader.localHeaderOffset.toNat + k
  lengths_eq : localDataOffset file fileHeader =
    fileHeader.localHeaderOffset.toNat + headerLength fileHeader
  offset_lt : localDataOffset file fileHeader < 2 ^ 32
  data_cached : fileHeader.HasData →
    InRange pages (localDataOffset file fileHeader) fileHeader.compressSize.toNat
  decodable : fileHeader.compressMethod = ZIP_METHOD_DEFLATE →
    fileHeader.compressSize.toNat < 2 ^ 29 ∧
      fileHeader.uncompressSize.toNat ≤ INFLATE_OUTPUT_LENGTH ∧
      (Deflate.inflate reachedOnly (bitAt fun k => file (localDataOffset file fileHeader + k))
        (8 * fileHeader.compressSize.toNat)).isSome

instance (file : Mem) (pages : List FileBuffer) (fileHeader : FileHeader) :
    Decidable (Readable file pages fileHeader) :=
  decidable_of_iff (_ ∧ _ ∧ _ ∧ _ ∧ _ ∧ _)
    ⟨fun ⟨h1, h2, h3, h4, h5, h6⟩ => ⟨h1, h2, h3, h4, h5, h6⟩,
      fun h => ⟨h.header_cached, h.signature_together, h.lengths_eq, h.offset_lt, h.data_cached,
        h.decodable⟩⟩

/-- What the code needs of a name: eight pieces at most, and for a file a plain path. -/
def Nameable (fileHeader : FileHeader) : Prop :=
  ∀ fileName ∈ fileHeader.fileName,
    FewPieces fileName ∧ (fileHeader.isDirectory = false → Plain fileName)

instance (fileHeader : FileHeader) : Decidable (Nameable fileHeader) :=
  inferInstanceAs (Decidable (∀ fileName ∈ fileHeader.fileName, _))

/-- **`inflate` decodes the data of a member** out of the pages that it lies in. -/
theorem inflate_content {mem file : Mem} {first : FileBuffer} {next : List FileBuffer}
    {offset length : Nat} {out : List UInt8} (garbage : Nat → Nat) (slab : Mem)
    (h : LeadsTo mem file first next offset length) (hlen : length < 2 ^ 29)
    (href : Deflate.inflate Deflate.allSymbols (bitAt fun k => file (offset + k)) (8 * length) =
      some out)
    (hreached : (Deflate.inflate reachedOnly (bitAt fun k => file (offset + k))
      (8 * length)).isSome)
    (hsize : out.length ≤ INFLATE_OUTPUT_LENGTH) :
    ∃ st, inflate mem garbage (initInflate slab first next length) = some (true, st) ∧
      OutputHolds st.outputBuffer out := by
  obtain ⟨out', hout'⟩ := Option.isSome_iff_exists.mp hreached
  obtain rfl : out' = out := Option.some.inj ((Deflate.inflate_mono hout').symm.trans href)
  -- the pages go on behind the data, but no bit of it is looked at
  have hdecodes : Decodes mem first next length out' :=
    ⟨h.inside, hlen, h.room, Deflate.inflate_on h.stream_eq hout', hsize⟩
  obtain ⟨st, hrun, _, houtput⟩ := hdecodes.decompresses garbage slab
  exact ⟨st, hrun, houtput⟩

/-- What is in the slab is written. -/
theorem OutputHolds.write {outputBuffer : OutputBuffer} {out : List UInt8}
    (h : OutputHolds outputBuffer out) : outputBuffer.write = out := by
  rw [OutputBuffer.write, h.length_eq]
  refine bytesAt_eq_iff.mpr fun i hi => ?_
  rw [Nat.zero_add, h.byte_eq i hi, List.getD_eq_getElem _ _ hi]

/-- A part of processing a member comes back, with these files, from an archive whose lookups
then go up to an offset. -/
structure Restores (file : Mem) (pages : List FileBuffer) (bound : Nat)
    (directories : List (List UInt8 × Bool)) (files : List OutputFile)
    (result : List Call × Outcome) : Prop where
  returned : ∃ s, result.2 = .returned s ∧ Cached file pages bound s
  leaves : Leaves result.1 files
  directories_eq : directoriesOf result.1 = directories

theorem directoriesOf_append (calls calls' : List Call) :
    directoriesOf (calls ++ calls') = directoriesOf calls ++ directoriesOf calls' :=
  List.filterMap_append

theorem createAndWrite_directories (fileName : List UInt8) (fileHeader : FileHeader)
    (writes : List (List UInt8)) :
    directoriesOf (createAndWrite fileName fileHeader writes) = [] := by
  unfold createAndWrite directoriesOf
  induction writes with
  | nil => rfl
  | cons bytes writes ih => exact ih

section

variable {env : Env} {s : Archive} {file : Mem} {pages : List FileBuffer} {bound : Nat}
variable {fileHeader : FileHeader} {pathName bytes : List UInt8} {dataLength : Nat}

/-- The file of a member, with its bytes. -/
def fileOf (fileHeader : FileHeader) (pathName bytes : List UInt8) : OutputFile :=
  ⟨pathName, bytes, fileHeader.lastModFileDate, fileHeader.lastModFileTime⟩

/-- A file is created behind the lookup for its data. -/
theorem restores_createAndWrite (fileHeader : FileHeader) (pathName : List UInt8) {calls : List Call} {writes : List (List UInt8)}
    {s' : Archive} (hcached : Cached file pages bound s') (haloof : ∀ c ∈ calls, c.aloof)
    (hdirectories : directoriesOf calls = []) (hbytes : writes.flatten = bytes) :
    Restores file pages bound [] [fileOf fileHeader pathName bytes]
      (calls ++ createAndWrite pathName fileHeader writes, .returned s') := by
  refine ⟨⟨s', rfl, hcached⟩, ?_, ?_⟩
  · have hleaves := (createAndWrite_leaves pathName fileHeader writes).behind_aloof haloof
    rw [hbytes] at hleaves
    exact hleaves
  · rw [directoriesOf_append, hdirectories, createAndWrite_directories]
    rfl

/-- The one call in front of it. -/
theorem findData_aside (offset : Int) (length : Nat) :
    (∀ c ∈ [Call.findData offset length], c.aloof) ∧
      directoriesOf [Call.findData offset length] = [] := by
  refine ⟨fun c hc => ?_, rfl⟩
  rw [List.mem_singleton.mp hc]
  rfl

/-- A stored member. -/
theorem extractStored_restores (hc : Contiguous pages) (hcached : Cached file pages bound s)
    (hle : bound ≤ localDataOffset file fileHeader)
    (hoffset : dataOffsetOf fileHeader dataLength = localDataOffset file fileHeader)
    (hr : InRange pages (localDataOffset file fileHeader) fileHeader.compressSize.toNat)
    (hsize : fileHeader.uncompressSize.toNat = fileHeader.compressSize.toNat)
    (hcrc : crcOf crc32Polynomial (bytesAt file (localDataOffset file fileHeader)
      fileHeader.compressSize.toNat) = fileHeader.crc32.toBitVec) :
    Restores file pages (localDataOffset file fileHeader) []
      [fileOf fileHeader pathName (bytesAt file (localDataOffset file fileHeader)
        fileHeader.compressSize.toNat)]
      (extractStored s pathName fileHeader dataLength) := by
  obtain ⟨hchecksum, writes, hwrites, hbytes⟩ := hcached.exact hc hle hr
  obtain ⟨haloof, hdirectories⟩ :=
    findData_aside (localDataOffset file fileHeader) fileHeader.compressSize.toNat
  have hrestores := restores_createAndWrite fileHeader pathName
    (hcached.lookup hc hle hr) haloof hdirectories hbytes
  unfold extractStored findMemberData
  rw [hoffset, hsize]
  unfold Archive.lookup at hchecksum hwrites hrestores
  dsimp only at hchecksum hwrites ⊢
  rw [hchecksum, hwrites]
  dsimp only
  rw [if_pos hcrc]
  exact hrestores

/-- A deflated member. -/
theorem extractDeflated_restores (hc : Contiguous pages) (hp : Paged pages)
    (hcached : Cached file pages bound s) (hle : bound ≤ localDataOffset file fileHeader)
    (hoffset : dataOffsetOf fileHeader dataLength = localDataOffset file fileHeader)
    (hr : InRange pages (localDataOffset file fileHeader) fileHeader.compressSize.toNat)
    (hlen : fileHeader.compressSize.toNat < 2 ^ 29)
    (href : Deflate.inflate Deflate.allSymbols (bitAt fun k => file (localDataOffset file fileHeader + k))
      (8 * fileHeader.compressSize.toNat) = some bytes)
    (hreached : (Deflate.inflate reachedOnly (bitAt fun k => file (localDataOffset file fileHeader + k))
      (8 * fileHeader.compressSize.toNat)).isSome)
    (hsize : bytes.length = fileHeader.uncompressSize.toNat)
    (hroom : fileHeader.uncompressSize.toNat ≤ INFLATE_OUTPUT_LENGTH)
    (hcrc : crcOf crc32Polynomial bytes = fileHeader.crc32.toBitVec) :
    Restores file pages (localDataOffset file fileHeader) [] [fileOf fileHeader pathName bytes]
      (extractDeflated env s pathName fileHeader dataLength) := by
  have hpos : 0 < fileHeader.compressSize.toNat := by
    -- no bits, no block
    refine Nat.pos_of_ne_zero fun hzero => ?_
    rw [hzero] at href
    cases href
  obtain ⟨d, hl, _⟩ := hcached.2
  obtain ⟨first, next, hchain, hleads⟩ := lookup_leadsTo hc hp hcached.1 hl hr hpos
  obtain ⟨st, hrun, houtput⟩ :=
    inflate_content env.garbage env.slab hleads hlen href hreached (hsize ▸ hroom)
  obtain ⟨haloof, hdirectories⟩ :=
    findData_aside (localDataOffset file fileHeader) fileHeader.compressSize.toNat
  have hmatch : st.outputBuffer.crc32 fileHeader.uncompressSize.toNat = fileHeader.crc32.toBitVec := by
    rw [outputBuffer_crc32_eq, Nat.min_eq_left hroom, ← hsize, ← houtput.length_eq,
      show bytesAt st.outputBuffer.buffer 0 st.outputBuffer.length = bytes from houtput.write]
    exact hcrc
  have hwritten : [st.outputBuffer.write].flatten = bytes := by
    rw [List.flatten_singleton, houtput.write]
  have hrestores := restores_createAndWrite fileHeader pathName
    (hcached.lookup hc hle hr) haloof hdirectories hwritten
  unfold extractDeflated findMemberData
  rw [hoffset]
  dsimp only
  rw [hchain]
  dsimp only
  rw [hrun]
  dsimp only
  rw [if_pos hmatch]
  exact hrestores

/-- **A member behind its local header.** -/
theorem extract_restores (env : Env) (pathName : List UInt8) (hc : Contiguous pages) (hp : Paged pages)
    (hcached : Cached file pages bound s) (hle : bound ≤ localDataOffset file fileHeader)
    (hoffset : dataOffsetOf fileHeader dataLength = localDataOffset file fileHeader)
    (hreadable : Readable file pages fileHeader) (hcontent : contentOf file fileHeader = some bytes)
    (hsize : bytes.length = fileHeader.uncompressSize.toNat)
    (hcrc : crcOf crc32Polynomial bytes = fileHeader.crc32.toBitVec) :
    Restores file pages (localDataOffset file fileHeader) [] [fileOf fileHeader pathName bytes]
      (extract env s pathName fileHeader dataLength) := by
  unfold contentOf at hcontent
  dsimp only at hcontent
  unfold extract
  split at hcontent
  next hstored =>
    obtain rfl := Option.some.inj hcontent
    rw [bytesAt_length] at hsize
    rw [if_pos hstored]
    exact extractStored_restores hc hcached hle hoffset (hreadable.data_cached (Or.inl hstored))
      hsize.symm hcrc
  next hstored =>
    split at hcontent
    next hdeflate =>
      rw [if_neg hstored, if_pos hdeflate]
      split
      next hzero =>
        -- no data is looked up for a file without bytes
        have hempty : [].flatten = bytes := by
          rw [hzero] at hsize
          exact (List.length_eq_zero_iff.mp hsize).symm
        exact @restores_createAndWrite _ _ _ _ fileHeader pathName [] _ _ (hcached.mono hle)
          (fun _ hcall => absurd hcall List.not_mem_nil) rfl hempty
      next hne =>
        obtain ⟨hlen, hroom, hreached⟩ := hreadable.decodable hdeflate
        exact extractDeflated_restores hc hp hcached hle hoffset
          (hreadable.data_cached (Or.inr ⟨hdeflate, hne⟩)) hlen hcontent hreached hsize hroom hcrc
    next _ => cases hcontent

/-- A local header that is cached is looked up once. -/
theorem findLocalHeader_cached {i : Nat}
    (h : (containsData s.bufferList fileHeader.localHeaderOffset.toNat
      (headerLength fileHeader)).2 = some i) :
    findLocalHeader env s fileHeader =
      ([.findHeader fileHeader.localHeaderOffset.toNat (headerLength fileHeader)],
        s.lookup fileHeader.localHeaderOffset.toNat (headerLength fileHeader),
        headerLength fileHeader, some i) := by
  unfold findLocalHeader
  dsimp only
  split
  next bufferList j hfound =>
    rw [hfound] at h
    rw [Archive.lookup, hfound, ← h]
  next bufferList hnone =>
    rw [hnone] at h
    cases h

/-- Directories are made, and what follows gets a name that is a path. -/
theorem withDirectory_made (env : Env) {fileName : List UInt8} (hasFilename : Bool)
    (hfew : FewPieces fileName) (next : List UInt8 → List Call × Outcome) :
    ∃ fileName', (asPath fileName ≠ [] → fileName' = asPath fileName) ∧
      withDirectory env (some fileName) hasFilename next =
        (.makeDirectory fileName hasFilename :: (next fileName').1, (next fileName').2) := by
  obtain ⟨fileName', hmade, hpath⟩ := makeDirectory_leaves env hasFilename hfew
  refine ⟨fileName', hpath, ?_⟩
  unfold withDirectory
  dsimp only
  rw [hmade]

/-- The one call in front. -/
theorem makeDirectory_aloof (pathName : List UInt8) (hasFilename : Bool) :
    ∀ call ∈ [Call.makeDirectory pathName hasFilename], call.aloof := by
  intro call hcall
  rw [List.mem_singleton.mp hcall]
  rfl

/-- **One member.** -/
theorem processFileHeader_restores (env : Env) {files : List OutputFile} (hc : Contiguous pages)
    (hp : Paged pages) (hcached : Cached file pages bound s)
    (hle : bound ≤ fileHeader.localHeaderOffset.toNat)
    (hreadable : fileHeader.isDirectory = false → Readable file pages fileHeader)
    (hnameable : Nameable fileHeader) (hunpack : unpackMember file fileHeader = some files) :
    Restores file pages (localDataOffset file fileHeader) (memberDirectories [fileHeader]) files
      (processFileHeader env s fileHeader) := by
  have hbehind : fileHeader.localHeaderOffset.toNat ≤ localDataOffset file fileHeader := by
    unfold localDataOffset
    dsimp only
    omega
  unfold processFileHeader
  cases hdirectory : fileHeader.isDirectory with
  | true =>
    obtain ⟨rfl, pathName, hname⟩ := unpackMember_directory hunpack hdirectory
    obtain ⟨_, _, hrun⟩ := withDirectory_made env false (hnameable pathName hname).1
      fun _ => ([], .returned s)
    rw [if_pos rfl, hname, hrun]
    refine ⟨⟨s, rfl, hcached.mono (Nat.le_trans hle hbehind)⟩,
      leaves_aloof (makeDirectory_aloof pathName false), ?_⟩
    simp [memberDirectories, directoriesOf, hname, hdirectory]
  | false =>
    obtain ⟨pathName, bytes, hname, hcontent, hsig, hsize, hcrc, rfl⟩ :=
      unpackMember_member hunpack hdirectory
    have hreadable := hreadable hdirectory
    have hlong : 4 ≤ headerLength fileHeader := by
      unfold headerLength ZIP_FILE_LOCAL_HEADER_SIZE
      omega
    obtain ⟨i, bufPtr, hfound, hbufPtr, hload⟩ := hcached.load32 hc hreadable.header_cached hlong
      hreadable.signature_together
    have hoffset : dataOffsetOf fileHeader (headerLength fileHeader) =
        localDataOffset file fileHeader := by
      have hlt := hreadable.offset_lt
      rw [hreadable.lengths_eq] at hlt ⊢
      exact Nat.mod_eq_of_lt hlt
    have hextract := extract_restores env pathName hc hp
      (hcached.lookup hc hle hreadable.header_cached) hbehind hoffset hreadable hcontent hsize hcrc
    obtain ⟨⟨s', hreturned, hcached'⟩, hleaves, hdirectories⟩ := hextract
    obtain ⟨hfew, hplain⟩ := hnameable pathName hname
    have hplain := hplain hdirectory
    -- the name that is left is the name
    obtain ⟨left, hpath, hrun⟩ := withDirectory_made env true hfew fun fileName =>
      extract env (s.lookup fileHeader.localHeaderOffset.toNat (headerLength fileHeader)) fileName
        fileHeader (headerLength fileHeader)
    rw [hplain.asPath_eq] at hpath
    obtain rfl := hpath hplain.ne_nil
    rw [if_neg Bool.false_ne_true, findLocalHeader_cached hfound]
    dsimp only
    rw [Option.bind_some, hbufPtr]
    dsimp only
    rw [if_pos (hload.trans hsig), hname, hrun]
    refine ⟨⟨s', hreturned, hcached'⟩, ?_, ?_⟩
    · -- neither the lookup nor the directory is about a file
      refine Leaves.behind_aloof (hleaves.behind_aloof (makeDirectory_aloof left true)) ?_
      intro call hcall
      rw [List.mem_singleton.mp hcall]
      rfl
    · rw [directoriesOf_append]
      show [] ++ (left, true) :: directoriesOf _ = _
      rw [hdirectories]
      simp [memberDirectories, hname, hdirectory]

end

/-! ## All members -/

/-- The local headers come in the order of the list, each behind that of the one before it. -/
def InFileOrder (file : Mem) (fileHeaderList : List FileHeader) : Prop :=
  fileHeaderList.IsChain fun a b => localDataOffset file a ≤ b.localHeaderOffset.toNat

instance (file : Mem) (fileHeaderList : List FileHeader) :
    Decidable (InFileOrder file fileHeaderList) :=
  inferInstanceAs (Decidable (List.IsChain _ _))

/-- A disk has these files besides the ones that it had before. -/
def AddedTo {φ : Type} (place : List UInt8 → φ) (start : φ → Option (List UInt8))
    (files : List OutputFile) (disk : Disk φ) : Prop :=
  (∀ file ∈ files, disk.file (place file.pathName) = some file.bytes) ∧
    ∀ p, (∀ file ∈ files, place file.pathName ≠ p) → disk.file p = start p

/-- Processing comes back, with these directories and files; and if the files are new and have
places of their own, they are what is added to a disk. -/
structure Unpacks (directories : List (List UInt8 × Bool)) (files : List OutputFile)
    (result : List Call × Outcome) : Prop where
  returned : ∃ s, result.2 = .returned s
  output_eq : outputOf result.1 = some files
  directories_eq : directoriesOf result.1 = directories
  added : ∀ {φ : Type} [DecidableEq φ] (place : List UInt8 → φ) (start : φ → Option (List UInt8)),
    (files.map fun file => place file.pathName).Nodup →
    (∀ file ∈ files, start (place file.pathName) = none) →
    AddedTo place start files (onDisk place start result.1)

theorem Leaves.unpacks {calls : List Call} {files : List OutputFile} (h : Leaves calls files)
    (s : Archive) : Unpacks (directoriesOf calls) files (calls, .returned s) where
  returned := ⟨s, rfl⟩
  output_eq := h.outputOf
  directories_eq := rfl
  added place start hnodup hnew := by
    rw [h.onDisk place start]
    exact ⟨laid_new place files start hnodup hnew, fun p hother => laid_other place files start hother⟩

/-- **The members one after another.** The lookups for a member are behind all of those for the
members in front of it, so that the pages that its data goes on to are at their start. -/
theorem processFileHeaderList_run {file : Mem} {pages : List FileBuffer} (env : Nat → Env)
    (hc : Contiguous pages) (hp : Paged pages) :
    ∀ {fileHeaderList : List FileHeader} {files : List OutputFile} {bound : Nat} {s : Archive}
      (i : Nat), Cached file pages bound s →
      (∀ fileHeader ∈ fileHeaderList.head?, bound ≤ fileHeader.localHeaderOffset.toNat) →
      InFileOrder file fileHeaderList →
      (∀ fileHeader ∈ fileHeaderList, fileHeader.isDirectory = false →
        Readable file pages fileHeader) →
      (∀ fileHeader ∈ fileHeaderList, Nameable fileHeader) →
      unpack file fileHeaderList = some files →
      ∃ bound', Restores file pages bound' (memberDirectories fileHeaderList) files
        (processFileHeaderList env i fileHeaderList s) := by
  intro fileHeaderList
  induction fileHeaderList with
  | nil =>
    intro files bound s i hcached _ _ _ _ hunpack
    obtain rfl : [] = files := Option.some.inj hunpack
    exact ⟨bound, ⟨⟨s, rfl, hcached⟩, leaves_nil, rfl⟩⟩
  | cons fileHeader fileHeaderList ih =>
    intro files bound s i hcached hbound horder hreadable hnameable hunpack
    obtain ⟨first, others, hfirst, hothers, rfl⟩ := unpack_cons hunpack
    obtain ⟨⟨s', hreturned, hcached'⟩, hleaves, hdirectories⟩ :=
      processFileHeader_restores (env i) hc hp hcached (hbound fileHeader rfl)
        (hreadable fileHeader List.mem_cons_self) (hnameable fileHeader List.mem_cons_self) hfirst
    have hnext : ∀ h ∈ fileHeaderList.head?,
        localDataOffset file fileHeader ≤ h.localHeaderOffset.toNat :=
      (List.isChain_cons.mp horder).1
    obtain ⟨bound', ⟨s'', hreturned', hcached''⟩, hleaves', hdirectories'⟩ :=
      ih (i + 1) hcached' hnext horder.tail
        (fun h hmem => hreadable h (List.mem_cons_of_mem _ hmem))
        (fun h hmem => hnameable h (List.mem_cons_of_mem _ hmem)) hothers
    have hrun : processFileHeaderList env i (fileHeader :: fileHeaderList) s =
        ((processFileHeader (env i) s fileHeader).1 ++
            (processFileHeaderList env (i + 1) fileHeaderList s').1,
          (processFileHeaderList env (i + 1) fileHeaderList s').2) := by
      rw [processFileHeaderList]
      split
      next calls s₁ hmember =>
        rw [hmember] at hreturned
        injection hreturned with hsame
        rw [hmember, hsame]
      next stopped hno => exact (hno _ _ (Prod.ext rfl hreturned)).elim
    rw [hrun]
    refine ⟨bound', ⟨s'', hreturned', hcached''⟩, hleaves.append hleaves', ?_⟩
    rw [directoriesOf_append, hdirectories, hdirectories']
    exact (List.filterMap_append (l := [fileHeader])).symm

/-! ## The archive -/

/-- What reading gives: pages of the file, each filled to its end but maybe the last one, in a
list that some lookups were made in. -/
structure Holding (file : Mem) (pages : List FileBuffer) (calls : List (Int × Nat)) (s : Archive) :
    Prop where
  contiguous : Contiguous pages
  paged : Paged pages
  fresh : ∀ b ∈ pages, b.dataOffset = 0
  holds : HoldsFile s.mem file pages
  list_eq : s.bufferList = lookups (build pages) calls

theorem Holding.stands {file : Mem} {pages : List FileBuffer} {calls : List (Int × Nat)}
    {s : Archive} (h : Holding file pages calls s) :
    Stands pages (starts pages calls) s.bufferList := by
  rw [h.list_eq]
  exact lookups_stands h.contiguous h.fresh calls

/-- The archive that the members are looked up in. -/
def memberArchive (read : Archive → Nat → Archive) (s : Archive) (fileSize : Nat)
    (endOfCDR : EndOfCDR) : Archive :=
  loadFirstPages read (findCentralDirectory read s endOfCDR).1 fileSize

/-- **A directory whose records are together in memory is loaded.** -/
theorem loadCentralDirectory_together (garbage : Mem) {read : Archive → Nat → Archive} {s : Archive}
    {outputDir : Option (List UInt8)} {endOfCDR : EndOfCDR} {file : Mem} {pages : List FileBuffer}
    {calls : List (Int × Nat)} {headers : List FileHeader}
    (hsize : endOfCDR.size.toNat ≤ 32768 - 512) (hnul : ∀ dir ∈ outputDir, 0 ∉ dir)
    (hparse : parseDirectory outputDir endOfCDR.totalEntries.toNat
      (bytesAt file endOfCDR.startOffset.toNat endOfCDR.size.toNat) = some headers)
    (hfits : ∀ fileHeader ∈ headers, NameFits outputDir fileHeader.fileNameLen)
    (hholding : Holding file pages calls (directoryArchive read s endOfCDR))
    (hr : InRange pages endOfCDR.startOffset.toNat (directoryLength s endOfCDR))
    (htogether : ∀ k < recordsSize headers,
      addressOf pages ((endOfCDR.startOffset.toNat + k : Nat) : Int) =
        addressOf pages endOfCDR.startOffset.toNat + k) :
    loadCentralDirectory garbage read s outputDir endOfCDR = some headers := by
  have hrecords := parseDirectory_recordsSize hparse
  have hlong : endOfCDR.size.toNat ≤ directoryLength s endOfCDR := by
    unfold directoryLength
    split <;> omega
  obtain ⟨p, hp, hstart⟩ := lookup_bufPtr hholding.contiguous hholding.stands hr
  obtain ⟨i, hi, hbufPtr⟩ := Option.bind_eq_some_iff.mp hp
  unfold loadCentralDirectory
  rw [findCentralDirectory_eq read s hsize]
  dsimp only
  refine Option.bind_eq_some_iff.mpr ⟨i, hi, Option.bind_eq_some_iff.mpr ⟨p, hbufPtr, ?_⟩⟩
  refine (loadFileHeaders_iff hnul hparse).mpr ⟨hfits, fun k hk => ?_⟩
  have hbyte := hholding.holds.byte hholding.contiguous hr (k := k) (by omega)
  rw [hstart (by omega), ← htogether k hk]
  exact hbyte

/-- An archive of a directory `d/`, a file `a` that is stored, and a deflated file `b`. -/
def smallZip : List UInt8 :=
  [0x50, 0x4B, 3, 4, 20, 0, 0, 0, 0, 0, 0, 0, 0, 0, 0, 0, 0, 0, 0, 0, 0, 0, 0, 0, 0, 0, 2, 0, 0, 0,
    0x64, 0x2F] ++
  [0x50, 0x4B, 3, 4, 20, 0, 0, 0, 0, 0, 0, 0, 0, 0, 131, 22, 220, 140, 1, 0, 0, 0, 1, 0, 0, 0, 1, 0,
    0, 0, 0x61, 0x78] ++
  [0x50, 0x4B, 3, 4, 20, 0, 0, 0, 8, 0, 0, 0, 0, 0, 69, 229, 152, 173, 14, 0, 0, 0, 4, 0, 0, 0, 1, 0,
    0, 0, 0x62] ++ fourLetters ++
  [0x50, 0x4B, 1, 2, 20, 0, 20, 0, 0, 0, 0, 0, 0, 0, 0, 0, 0, 0, 0, 0, 0, 0, 0, 0, 0, 0, 0, 0, 2, 0,
    0, 0, 0, 0, 0, 0, 0, 0, 0, 0, 0, 0, 0, 0, 0, 0, 0x64, 0x2F] ++
  [0x50, 0x4B, 1, 2, 20, 0, 20, 0, 0, 0, 0, 0, 0, 0, 0, 0, 131, 22, 220, 140, 1, 0, 0, 0, 1, 0, 0, 0,
    1, 0, 0, 0, 0, 0, 0, 0, 0, 0, 0, 0, 0, 0, 32, 0, 0, 0, 0x61] ++
  [0x50, 0x4B, 1, 2, 20, 0, 20, 0, 0, 0, 8, 0, 0, 0, 0, 0, 69, 229, 152, 173, 14, 0, 0, 0, 4, 0, 0, 0,
    1, 0, 0, 0, 0, 0, 0, 0, 0, 0, 0, 0, 0, 0, 64, 0, 0, 0, 0x62]

/-- The one page of it. -/
def smallPage : FileBuffer := ⟨4096, 0, 0, 273⟩

/-- The archive in that page. -/
def smallArchive : Archive :=
  { mem := pageOf smallZip
    bufferList := build [smallPage]
    offset := 0 }

/-- A file in a page of its own. -/
theorem holding_page (file : List UInt8) {numBytes : Nat} (hle : numBytes ≤ MEMORY_PAGE_SIZE)
    {s : Archive} {calls : List (Int × Nat)} (hmem : s.mem = pageOf file)
    (hlist : s.bufferList = lookups (build [⟨4096, 0, 0, numBytes⟩]) calls) :
    Holding (fun k => file.getD k 0) [⟨4096, 0, 0, numBytes⟩] calls s := by
  have hlt : numBytes < 2 ^ 32 := Nat.lt_of_le_of_lt hle (by decide)
  refine ⟨⟨List.isChain_singleton _, List.forall_mem_singleton.mpr hlt⟩,
    ⟨List.isChain_singleton _, List.forall_mem_singleton.mpr hle⟩,
    List.forall_mem_singleton.mpr rfl, List.forall_mem_singleton.mpr fun k _ => ?_, hlist⟩
  rw [hmem, pageOf]
  dsimp only
  rw [Nat.add_sub_cancel_left, Int.zero_add, Int.toNat_natCast]

/-- The page begins with the file. -/
theorem smallPage_fresh (d : Nat → Nat) (bound : Nat) : Fresh [smallPage] d bound := by
  intro j b hj hlt
  rw [List.mem_singleton.mp (List.mem_of_getElem? hj)] at hlt
  exact absurd hlt (Int.not_lt.mpr (Int.natCast_nonneg _))

/-- Its files, in a directory `o`. -/
def smallFiles : List OutputFile :=
  [⟨[0x6F, 0x2F, 0x61], [0x78], 0, 0⟩, ⟨[0x6F, 0x2F, 0x62], [97, 97, 97, 97], 0, 0⟩]

end DevopsBroker.Compress
