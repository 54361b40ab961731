import DevopsBroker.Compress.InflateBounds
import DevopsBroker.Compress.InflateSpec
import DevopsBroker.Compress.ZipMemberSpec

/-!
# What is written for compressed data

The checksum is taken of `uncompressSize` bytes of the slab, and as many bytes are written as
were decompressed, whatever `inflate` returned. The slab is one that was used before: behind the
bytes that are stored in it are those that it held (`Decodes.stored`).

**`deflated_exact_iff`**: a file of data that decodes has the right bytes exactly when the two numbers
agree, or else what the slab held does not complete the checksum.
-/

namespace DevopsBroker.Compress

open DevopsBroker.Lib DevopsBroker.Io DevopsBroker.Lang DevopsBroker.Hash

/-! ## The condition -/

/-- The bytes of a call. -/
def Call.bytes : Call → List UInt8
  | .writeFile bytes => bytes
  | _ => []

/-- The creation of a file. -/
def Call.creates : Call → Bool
  | .createFile _ => true
  | _ => false

/-- If a file is created, it gets the bytes that the FileHeader is about, by their number
and their CRC-32. -/
def WrittenAsStated (fileHeader : FileHeader) (result : List Call × Outcome) : Prop :=
  result.2 ≠ .undefined ∧
    (result.1.any Call.creates →
      (result.1.flatMap Call.bytes).length = fileHeader.uncompressSize.toNat ∧
        crcOf crc32Polynomial (result.1.flatMap Call.bytes) = fileHeader.crc32.toBitVec)

/-- The chain of FileBuffers that a member's data is looked up in. -/
def dataChain (env : Env) (s : Archive) (fileHeader : FileHeader) : List FileBuffer :=
  let (bufferList, found) := containsData (headerLookup env s fileHeader).1
    (dataOffsetOf fileHeader (headerLength fileHeader + widening s fileHeader))
    fileHeader.compressSize.toNat
  chainFrom bufferList found

/-- That is the chain that extraction gets. -/
theorem findMemberData_found (env : Env) (s : Archive) (fileHeader : FileHeader) :
    let dataLength := headerLength fileHeader + widening s fileHeader
    ∃ s', findMemberData (foundArchive env s fileHeader) fileHeader dataLength =
        (.findData (dataOffsetOf fileHeader dataLength) fileHeader.compressSize.toNat, s',
          dataChain env s fileHeader) ∧
      s'.mem = (headerArchive env s fileHeader).mem :=
  ⟨_, rfl, rfl⟩

/-- Extraction gets to the data of a member, in this chain. -/
structure GetsTo (env : Env) (s : Archive) (fileHeader : FileHeader) (first : FileBuffer)
    (rest : List FileBuffer) : Prop where
  header : LocalHeaderFound env s fileHeader
  name : ∃ fileName, fileHeader.fileName = some fileName ∧ FewPieces fileName
  data : dataChain env s fileHeader = first :: rest

/-- If extraction gets to the data of a member, it decodes. -/
def Decodable (env : Env) (s : Archive) (fileHeader : FileHeader) : Prop :=
  ∀ first rest, GetsTo env s fileHeader first rest →
    ∃ out, Decodes (headerArchive env s fileHeader).mem first rest fileHeader.compressSize.toNat out

/-- A slab, with some bytes stored from its start. -/
def storedIn (slab : Mem) (out : List UInt8) : Mem := fun a =>
  if a < out.length then out.getD a 0 else slab a

/-- If extraction gets to the data of a member, it decodes, and to as many bytes as the FileHeader
states; or else the slab that they are stored in does not have the stated CRC-32, over as many bytes
as stated or the whole slab. -/
def SizeOrCrcTells (env : Env) (s : Archive) (fileHeader : FileHeader) : Prop :=
  ∀ first rest, GetsTo env s fileHeader first rest →
    ∃ out,
      Decodes (headerArchive env s fileHeader).mem first rest fileHeader.compressSize.toNat out ∧
      (out.length = fileHeader.uncompressSize.toNat ∨
        crcOf crc32Polynomial (bytesAt (storedIn env.slab out) 0
          (min fileHeader.uncompressSize.toNat INFLATE_OUTPUT_LENGTH)) ≠ fileHeader.crc32.toBitVec)

/-! ## The branch for compressed data -/

theorem aside_bytes {calls : List Call} (h : ∀ call ∈ calls, call.aside) :
    calls.flatMap Call.bytes = [] ∧ calls.any Call.creates = false := by
  refine ⟨List.flatMap_eq_nil_iff.mpr fun call hcall => ?_,
    List.any_eq_false.mpr fun call hcall => ?_⟩
  · have haside := h call hcall
    cases call <;> first | rfl | cases haside
  · have haside := h call hcall
    cases call <;> first | exact Bool.false_ne_true | cases haside

/-- The checksum of the slab. -/
theorem outputBuffer_crc32_eq (outputBuffer : OutputBuffer) (length : Nat) :
    outputBuffer.crc32 length =
      crcOf crc32Polynomial (bytesAt outputBuffer.buffer 0 (min length INFLATE_OUTPUT_LENGTH)) := by
  unfold OutputBuffer.crc32
  dsimp only
  by_cases hzero : length = 0
  · rw [if_pos hzero, hzero, Nat.zero_min]
    exact (crcUpdate_nil _ _).symm
  · have hmin : (if INFLATE_OUTPUT_LENGTH > length then length else INFLATE_OUTPUT_LENGTH) =
        min length INFLATE_OUTPUT_LENGTH := by
      split <;> omega
    rw [if_neg hzero, hmin, Hash.crc32_eq]
    rfl

/-- The calls of an extraction that creates a file. -/
theorem createAndWrite_bytes (call : Call) (hcall : call.bytes = []) (fileName bytes : List UInt8)
    (fileHeader : FileHeader) :
    (call :: createAndWrite fileName fileHeader [bytes]).flatMap Call.bytes = bytes ∧
      (call :: createAndWrite fileName fileHeader [bytes]).any Call.creates = true := by
  refine ⟨?_, by simp [createAndWrite, Call.creates]⟩
  simp [createAndWrite, Call.bytes] at hcall ⊢
  exact hcall

/-- What comes of decompressing, by what `inflate` leaves. -/
theorem extractDeflated_written_iff {env : Env} {s s' : Archive} {fileName : List UInt8}
    {fileHeader : FileHeader} {dataLength : Nat} {before : List Call} {call : Call}
    {fileBuffer : FileBuffer} {next : List FileBuffer} {ok : Bool} {st : Inflate}
    (haside : ∀ call ∈ before, call.aside)
    (hfind : findMemberData s fileHeader dataLength = (call, s', fileBuffer :: next))
    (hrun : inflate s'.mem env.garbage
      (initInflate env.slab fileBuffer next fileHeader.compressSize.toNat) = some (ok, st)) :
    WrittenAsStated fileHeader
        (before ++ (extractDeflated env s fileName fileHeader dataLength).1,
          (extractDeflated env s fileName fileHeader dataLength).2) ↔
      st.outputBuffer.length = fileHeader.uncompressSize.toNat ∨
        crcOf crc32Polynomial (bytesAt st.outputBuffer.buffer 0
          (min fileHeader.uncompressSize.toNat INFLATE_OUTPUT_LENGTH)) ≠ fileHeader.crc32.toBitVec := by
  obtain ⟨hbytes, hcreates⟩ := aside_bytes haside
  obtain rfl : Call.findData (dataOffsetOf fileHeader dataLength) fileHeader.compressSize.toNat =
    call := congrArg Prod.fst hfind
  have hfits : (initInflate env.slab fileBuffer next fileHeader.compressSize.toNat).Fits :=
    Nat.zero_le _
  have hlength : st.outputBuffer.length ≤ INFLATE_OUTPUT_LENGTH := inflate_fits hfits hrun
  have hcrc := outputBuffer_crc32_eq st.outputBuffer fileHeader.uncompressSize.toNat
  unfold extractDeflated WrittenAsStated
  rw [hfind]
  dsimp only
  rw [hrun]
  dsimp only
  by_cases hmatch : st.outputBuffer.crc32 fileHeader.uncompressSize.toNat = fileHeader.crc32.toBitVec
  · -- a file is created, with all the bytes that were decompressed
    obtain ⟨hwrite, hcreate⟩ := createAndWrite_bytes (Call.findData
      (dataOffsetOf fileHeader dataLength) fileHeader.compressSize.toNat) rfl fileName
      st.outputBuffer.write fileHeader
    rw [if_pos hmatch]
    dsimp only
    rw [List.flatMap_append, hbytes, List.nil_append, hwrite, List.any_append, hcreate, Bool.or_true]
    have hwritten : st.outputBuffer.write.length = st.outputBuffer.length := by
      rw [OutputBuffer.write, bytesAt_length]
    constructor
    · intro h
      rw [← hwritten]
      exact Or.inl (h.2 rfl).1
    · intro hor
      -- the checksum matches, so that it was the size that told
      have hsize : st.outputBuffer.length = fileHeader.uncompressSize.toNat := by
        rcases hor with hsize | hcrc'
        · exact hsize
        · exact absurd (hcrc.symm.trans hmatch) hcrc'
      refine ⟨nofun, fun _ => ⟨hwritten.trans hsize, ?_⟩⟩
      rw [← hmatch, hcrc, OutputBuffer.write, ← hsize, Nat.min_eq_left hlength]
  · -- no file is created
    rw [if_neg hmatch]
    dsimp only
    rw [List.any_append, hcreates]
    refine ⟨fun _ => Or.inr fun h => hmatch (hcrc.trans h), fun _ => ⟨nofun, ?_⟩⟩
    intro hcreate
    cases hcreate

/-- The slab after data that decodes: its bytes, and behind them what was there before. -/
theorem Decodes.stored {mem : Mem} {first : FileBuffer} {rest : List FileBuffer} {length : Nat}
    {out : List UInt8} (h : Decodes mem first rest length out) (garbage : Nat → Nat) (slab : Mem) :
    ∃ st, inflate mem garbage (initInflate slab first rest length) = some (true, st) ∧
      st.outputBuffer.length = out.length ∧ st.outputBuffer.buffer = storedIn slab out := by
  obtain ⟨st, hrun, _, houtput⟩ := h.decompresses garbage slab
  refine ⟨st, hrun, houtput.length_eq, funext fun a => ?_⟩
  unfold storedIn
  split
  next hlt => exact houtput.byte_eq a hlt
  next hge =>
    have hlength := houtput.length_eq
    exact inflate_behind hrun (by omega)

section

variable {env : Env} {s : Archive} {fileHeader : FileHeader}

/-- The branch for compressed data. -/
theorem extract_deflated (hmethod : fileHeader.compressMethod = ZIP_METHOD_DEFLATE)
    (hsize : fileHeader.uncompressSize ≠ 0) (s : Archive) (fileName : List UInt8) (dataLength : Nat) :
    extract env s fileName fileHeader dataLength =
      extractDeflated env s fileName fileHeader dataLength := by
  have hstored : fileHeader.compressMethod ≠ ZIP_METHOD_STORED := by rw [hmethod]; decide
  rw [extract, if_neg hstored, if_pos hmethod, if_neg hsize]

/-- **Data that decodes**: the two numbers decide, or the checksum of the slab. -/
theorem deflated_written_iff (hmethod : fileHeader.compressMethod = ZIP_METHOD_DEFLATE)
    (hsize : fileHeader.uncompressSize ≠ 0)
    (hname : ∀ fileName ∈ fileHeader.fileName, fileName.length < 2 ^ 31) {first : FileBuffer}
    {rest : List FileBuffer} {out : List UInt8} (hgets : GetsTo env s fileHeader first rest)
    (hdecodes : Decodes (headerArchive env s fileHeader).mem first rest
      fileHeader.compressSize.toNat out) :
    WrittenAsStated fileHeader (processFileHeader env s fileHeader) ↔
      out.length = fileHeader.uncompressSize.toNat ∨
        crcOf crc32Polynomial (bytesAt (storedIn env.slab out) 0
          (min fileHeader.uncompressSize.toNat INFLATE_OUTPUT_LENGTH)) ≠ fileHeader.crc32.toBitVec := by
  have hmember : fileHeader.isDirectory = false := by
    have hne : ZIP_METHOD_DEFLATE ≠ ZIP_METHOD_STORED := by decide
    simp [FileHeader.isDirectory, hmethod, hne]
  obtain ⟨fileName, hleft⟩ :=
    Option.ne_none_iff_exists'.mp ((nameLeft_ne_none_iff env true hname).mpr hgets.name)
  obtain ⟨before, haside, _, hsome⟩ := processFileHeader_extraction env s fileHeader
  have hrun := hsome _ _ _ (extraction_found hmember hgets.header hleft)
  rw [extract_deflated hmethod hsize] at hrun
  obtain ⟨st, hinflate, hlength, hbuffer⟩ := hdecodes.stored env.garbage env.slab
  obtain ⟨s', hfind, hmem⟩ := findMemberData_found env s fileHeader
  rw [hgets.data] at hfind
  rw [← hmem] at hinflate
  rw [hrun, ← hlength, ← hbuffer]
  exact extractDeflated_written_iff haside hfind hinflate

/-- Where extraction does not get to the data, no file is created. -/
theorem deflated_unreached (hmethod : fileHeader.compressMethod = ZIP_METHOD_DEFLATE)
    (hsize : fileHeader.uncompressSize ≠ 0)
    (hname : ∀ fileName ∈ fileHeader.fileName, fileName.length < 2 ^ 31)
    (h : ∀ first rest, ¬ GetsTo env s fileHeader first rest) :
    WrittenAsStated fileHeader (processFileHeader env s fileHeader) := by
  obtain ⟨before, haside, hnone, hsome⟩ := processFileHeader_extraction env s fileHeader
  obtain ⟨_, hcreates⟩ := aside_bytes haside
  cases hextract : extraction env s fileHeader with
  | none =>
    obtain ⟨hcalls, houtcome⟩ := hnone hextract
    refine ⟨houtcome, fun hcreate => ?_⟩
    rw [hcalls, hcreates] at hcreate
    cases hcreate
  | some extracted =>
    -- the local header is found, but the data is not: a crash
    obtain ⟨hfound, hnamed⟩ := found_of_extraction hextract
    obtain ⟨name, hleft⟩ := Option.ne_none_iff_exists'.mp hnamed
    have hnil : dataChain env s fileHeader = [] := by
      cases hchain : dataChain env s fileHeader with
      | nil => rfl
      | cons first rest =>
        exact absurd ⟨hfound, (nameLeft_ne_none_iff env true hname).mp hnamed, hchain⟩ (h first rest)
    obtain ⟨s', hfind, _⟩ := findMemberData_found env s fileHeader
    have hrun := hsome _ _ _ (extraction_found (extraction_member hextract) hfound hleft)
    rw [hnil] at hfind
    rw [extract_deflated hmethod hsize, extractDeflated, hfind] at hrun
    rw [hrun]
    refine ⟨nofun, fun hcreate => ?_⟩
    rw [List.any_append, hcreates] at hcreate
    cases hcreate

end

/-- A member whose 14 bytes decode to four, with the size and the CRC-32 that are stated for it. -/
def fourA (uncompressSize crc32 : UInt32) : FileHeader :=
  { memberA ZIP_METHOD_DEFLATE crc32 0 with
    compressSize := 14
    uncompressSize := uncompressSize }

/-- Its local header and its data, in a page. -/
def fourPage : Archive := onePage (localA [0, 0, 0, 0] [] 13 ++ fourLetters.tail)

/-- The FileBuffer that its data is found in. -/
def fourBuffer : FileBuffer := ⟨4096, 0, 31, 4096⟩

section

variable (uncompressSize crc32 : UInt32)

/-- Its local header is cached, whatever size and CRC-32 are stated. -/
theorem fourPage_cached :
    (containsData fourPage.bufferList (fourA uncompressSize crc32).localHeaderOffset.toNat
      (headerLength (fourA uncompressSize crc32))).2.isSome = true := by
  have hoffset : (fourA uncompressSize crc32).localHeaderOffset.toNat = 0 := rfl
  have hlength : headerLength (fourA uncompressSize crc32) = 31 := rfl
  rw [hoffset, hlength]
  decide +kernel

theorem fourPage_archive :
    headerArchive quiet fourPage (fourA uncompressSize crc32) = fourPage := by
  unfold headerArchive
  dsimp only
  rw [if_pos (fourPage_cached uncompressSize crc32)]

theorem fourPage_widening : widening fourPage (fourA uncompressSize crc32) = 0 := by
  unfold widening
  dsimp only
  rw [if_pos (fourPage_cached uncompressSize crc32)]

theorem fourPage_lookup : headerLookup quiet fourPage (fourA uncompressSize crc32) =
    containsData fourPage.bufferList 0 31 := by
  unfold headerLookup
  rw [fourPage_archive, fourPage_widening]
  rfl

theorem fourPage_gets {first : FileBuffer} {rest : List FileBuffer} :
    GetsTo quiet fourPage (fourA uncompressSize crc32) first rest ↔
      first = fourBuffer ∧ rest = [] := by
  have hchain : dataChain quiet fourPage (fourA uncompressSize crc32) = [fourBuffer] := by
    have hoffset : dataOffsetOf (fourA uncompressSize crc32)
      (headerLength (fourA uncompressSize crc32)) = 31 := rfl
    have hlength : (fourA uncompressSize crc32).compressSize.toNat = 14 := rfl
    unfold dataChain
    rw [fourPage_lookup, fourPage_widening, Nat.add_zero, hoffset, hlength]
    decide +kernel
  have hheader : LocalHeaderFound quiet fourPage (fourA uncompressSize crc32) := by
    unfold LocalHeaderFound
    rw [fourPage_lookup, fourPage_archive]
    exact ⟨4096, by decide +kernel, by decide +kernel⟩
  constructor
  · intro hgets
    have hdata := hchain.symm.trans hgets.data
    exact ⟨(List.cons.inj hdata).1.symm, (List.cons.inj hdata).2.symm⟩
  · rintro ⟨rfl, rfl⟩
    exact ⟨hheader, ⟨[0x61], rfl, by decide⟩, hchain⟩

end

theorem fourBuffer_decodes :
    Decodes fourPage.mem fourBuffer [] 14 [97, 97, 97, 97] where
  inside := by decide
  length_lt := by decide
  room := by decide
  decoded := by decide +kernel
  fits := by decide

end DevopsBroker.Compress
