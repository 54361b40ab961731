import DevopsBroker.Compress.Inflate
import DevopsBroker.Fs.MakeDirectory
import DevopsBroker.Io.Async
import DevopsBroker.Lang.StringBuilder

/-!
# `compress/ziparchive.c`: the central directory, and the members

`findEndOfCDR` reads the end of the file and looks for the record behind the central directory.
`loadCentralDirectory` looks the central directory up in the FileBufferList, reads it if
it is not there, and maps its records. `processFileHeaderList` goes through the records:
it looks the local header of a member up, skips it, looks the data up and writes it out.

Mirroring notes vs the C source:
- `Archive` is what both functions work on: memory, the FileBufferList and the offset of
  the AIOFile. What `ce97d170_readFileBufferList` makes of it is a parameter, `Env.read`.
- `findEndOfCDR` gives the address that `mapEndOfCDR` is called with, or `none` for `false`;
  `mem` is memory once the file is read. `mapEndOfCDR` is declared but not part of the sources.
- `bufPtr` walks through memory, not through the FileBuffers.
- A text is copied with its length (`memcopy` copies all its bytes, `copyObject`), the
  NUL behind it is not part of it. A text without characters is not allocated: `none`.
- `outputDir` is the list of its characters before the `NUL`. `garbage` is what the buffers hold that
  are allocated for a name. `none` is a crash, an abort or an access outside of a buffer.
- `processFileHeader` is the body of the loop of `processFileHeaderList`. It gives the
  calls that it makes, in order; lookups for a local header and for data are kept apart.
- `localFileHeader` is filled and freed again. Nothing is taken from it but its signature.
- A `Call` is recorded with what it is handed. `createFile`, `writeFile`, `setTimestamp` and `closeFile`
  are taken to succeed; what they do to a disk is in `Output`.
- The name that `makeDirectory` is handed is in memory at address 1, and it is read again afterwards.
- `crashed` is an access through `NULL`, and `aborted` an abort of `makeDirectory`; `undefined` is
  undefined behaviour of `inflate`.
- `unzip` is handed what `mapEndOfCDR` filled; what it prints of that is left out.
-/

namespace DevopsBroker.Compress

open DevopsBroker.Lib DevopsBroker.Io DevopsBroker.Lang

/-- `ZIP_FILE_HEADER_SIG`. -/
def ZIP_FILE_HEADER_SIG : UInt32 := 0x02014b50

/-- `ZIP_FILE_LOCAL_HEADER_SIG`. -/
def ZIP_FILE_LOCAL_HEADER_SIG : UInt32 := 0x04034b50

/-- `ZIP_FILE_LOCAL_HEADER_SIZE`. -/
abbrev ZIP_FILE_LOCAL_HEADER_SIZE : Nat := 30

/-- `ZIP_END_OF_CDR_SIG`. -/
def ZIP_END_OF_CDR_SIG : UInt32 := 0x06054b50

/-- `ZIP_END_OF_CDR_SIZE`. -/
abbrev ZIP_END_OF_CDR_SIZE : Nat := 22

/-- `ZIP_METHOD_STORED`. -/
def ZIP_METHOD_STORED : UInt16 := 0

/-- `ZIP_METHOD_DEFLATE`. -/
def ZIP_METHOD_DEFLATE : UInt16 := 8

/-- A `char *` with its length. -/
abbrev Text := Option (List UInt8)

/-- `struct FileHeader`. -/
structure FileHeader where
  fileName : Text
  extraField : Text
  fileComment : Text
  signature : UInt32
  crc32 : UInt32
  compressSize : UInt32
  uncompressSize : UInt32
  externalFileAttribs : UInt32
  localHeaderOffset : UInt32
  madeByVersion : UInt16
  needToExtractVersion : UInt16
  bitFlags : UInt16
  compressMethod : UInt16
  lastModFileTime : UInt16
  lastModFileDate : UInt16
  fileNameLen : UInt16
  extraFieldLen : UInt16
  fileCommentLen : UInt16
  diskNumStart : UInt16
  internalFileAttribs : UInt16
deriving DecidableEq

/-- `struct EndOfCDR`, what is used of it. -/
structure EndOfCDR where
  size : UInt32
  startOffset : UInt32
  totalEntries : UInt16

/-- What the functions work on. -/
structure Archive where
  mem : Mem
  bufferList : FileBufferList
  offset : Int

/-- `*(uint16_t*)bufPtr`. -/
def load16 (mem : Mem) (bufPtr : Nat) : UInt16 := UInt16.ofNat (orBytes mem 2 bufPtr 0 0)

/-- `*(uint32_t*)bufPtr`. -/
def load32 (mem : Mem) (bufPtr : Nat) : UInt32 := UInt32.ofNat (orBytes mem 4 bufPtr 0 0)

/-! ## The end of central directory record -/

/-- The loop of `findEndOfCDR`, from byte `i` of the buffer down. -/
def scanEndOfCDR (mem : Mem) (buffer : Nat) : Nat → Option Nat
  | 0 => if load32 mem buffer = ZIP_END_OF_CDR_SIG then some buffer else none
  | i + 1 =>
    if load32 mem (buffer + (i + 1)) = ZIP_END_OF_CDR_SIG then some (buffer + (i + 1))
    else scanEndOfCDR mem buffer i

/-- `findEndOfCDR`. -/
def findEndOfCDR {φ : Type} [DecidableEq φ] (mem : Mem) (s : Aio φ) (aioFile : φ) (fileSize : Nat)
    (bufferList : FileBufferList) (page : Nat) (kernel : Io.Kernel) :
    Option (Option Nat × FileBufferList × Aio φ) := do
  -- a file of more than a page: its last page, from a multiple of 512 on
  let s :=
    if fileSize > MEMORY_PAGE_SIZE then
      s.setFile aioFile
        { s.files aioFile with offset := (fileSize - MEMORY_PAGE_SIZE + 511) / 512 * 512 }
    else s
  let length := ((fileSize - (s.files aioFile).offset : Int) % 2 ^ 32).toNat
  let (fileBuffer, s) ← s.readFileBuffer aioFile length page kernel
  let fileBuffer ← fileBuffer
  let bufferList := addBuffer bufferList fileBuffer
  let found :=
    if fileBuffer.numBytes > ZIP_END_OF_CDR_SIZE then
      scanEndOfCDR mem fileBuffer.buffer (fileBuffer.numBytes - ZIP_END_OF_CDR_SIZE)
    else none
  return (found, bufferList, s)

/-! ## The central directory -/

/-- Copy a text. -/
def copyText (mem : Mem) (bufPtr : Nat) (length : UInt16) : Text :=
  if length = 0 then none else some (bytesAt mem bufPtr length.toNat)

/-- A slash, unless there is one. -/
def appendSlash (garbage : Mem) (outputFileName : StringBuilder) : Option StringBuilder :=
  if outputFileName.getLastChar ≠ Fs.SLASH then outputFileName.appendChar garbage Fs.SLASH
  else some outputFileName

/-- The output directory, with a slash at its end, and the file name. -/
def outputFileName (garbage : Mem) (outputDir bytes : List UInt8) : Option Text := do
  let outputFileName ← StringBuilder.initStringBuilder garbage
  let outputFileName ← outputFileName.appendString garbage outputDir
  let outputFileName ← appendSlash garbage outputFileName
  let outputFileName ← outputFileName.appendBytes garbage bytes
  let (fileName, outputFileName) ← outputFileName.createString garbage garbage none
  return fileName.map fun fileName => bytesAt fileName.byte 0 outputFileName.length

/-- `fileHeader->fileName`. -/
def copyFileName (garbage mem : Mem) (outputDir : Option (List UInt8)) (bufPtr : Nat)
    (length : UInt16) : Option Text :=
  match outputDir with
  | none => some (copyText mem bufPtr length)
  | some outputDir =>
    if length = 0 then some none
    else outputFileName garbage outputDir (bytesAt mem bufPtr length.toNat)

/-- Fill a FileHeader, with its name. -/
def mapFileHeader (mem : Mem) (fileName : Text) (bufPtr : Nat) : FileHeader :=
  let fileNameLen := load16 mem (bufPtr + 28)
  let extraFieldLen := load16 mem (bufPtr + 30)
  let fileCommentLen := load16 mem (bufPtr + 32)
  let extraField := bufPtr + 46 + fileNameLen.toNat
  let fileComment := extraField + extraFieldLen.toNat
  { signature := load32 mem bufPtr
    madeByVersion := load16 mem (bufPtr + 4)
    needToExtractVersion := load16 mem (bufPtr + 6)
    bitFlags := load16 mem (bufPtr + 8)
    compressMethod := load16 mem (bufPtr + 10)
    lastModFileTime := load16 mem (bufPtr + 12)
    lastModFileDate := load16 mem (bufPtr + 14)
    crc32 := load32 mem (bufPtr + 16)
    compressSize := load32 mem (bufPtr + 20)
    uncompressSize := load32 mem (bufPtr + 24)
    fileNameLen := fileNameLen
    extraFieldLen := extraFieldLen
    fileCommentLen := fileCommentLen
    diskNumStart := load16 mem (bufPtr + 34)
    internalFileAttribs := load16 mem (bufPtr + 36)
    externalFileAttribs := load32 mem (bufPtr + 38)
    localHeaderOffset := load32 mem (bufPtr + 42)
    fileName := fileName
    extraField := copyText mem extraField extraFieldLen
    fileComment := copyText mem fileComment fileCommentLen }

/-- How many bytes the record of a FileHeader takes. -/
def FileHeader.recordSize (fileHeader : FileHeader) : Nat :=
  46 + fileHeader.fileNameLen.toNat + fileHeader.extraFieldLen.toNat +
    fileHeader.fileCommentLen.toNat

/-- The loop of `loadCentralDirectory`, with so many entries to go. -/
def loadFileHeaders (garbage mem : Mem) (outputDir : Option (List UInt8)) :
    Nat → Nat → Option (List FileHeader)
  | 0, _ => some []
  | entries + 1, bufPtr =>
    if load32 mem bufPtr = ZIP_FILE_HEADER_SIG then do
      let fileName ← copyFileName garbage mem outputDir (bufPtr + 46) (load16 mem (bufPtr + 28))
      let fileHeader := mapFileHeader mem fileName bufPtr
      let fileHeaderList ←
        loadFileHeaders garbage mem outputDir entries (bufPtr + fileHeader.recordSize)
      return fileHeader :: fileHeaderList
    else loadFileHeaders garbage mem outputDir entries bufPtr

/-- `fileBuffer->buffer + fileBuffer->dataOffset`. -/
def bufPtrOf (bufferList : FileBufferList) (i : Nat) : Option Nat :=
  bufferList.values[i]?.map fun fileBuffer => fileBuffer.buffer + fileBuffer.dataOffset

/-- The largest multiple of 512 that is not larger. -/
def alignDown (offset : UInt32) : Nat := offset.toNat / 512 * 512

/-- Release all FileBuffers, and read `dataLength` bytes from the aligned offset on. -/
def readFrom (read : Archive → Nat → Archive) (s : Archive) (offset : UInt32)
    (dataLength : Nat) : Archive :=
  read { s with bufferList := resetFileBufferList s.bufferList, offset := alignDown offset }
    dataLength

/-- Look the central directory up, and read it if it is not there. -/
def findCentralDirectory (read : Archive → Nat → Archive) (s : Archive) (endOfCDR : EndOfCDR) :
    Archive × Option Nat :=
  match containsData s.bufferList endOfCDR.startOffset.toNat endOfCDR.size.toNat with
  | (bufferList, some i) => ({ s with bufferList := bufferList }, some i)
  | (bufferList, none) =>
    let dataLength :=
      (endOfCDR.startOffset.toNat - alignDown endOfCDR.startOffset + endOfCDR.size.toNat) % 2 ^ 32
    let s := readFrom read { s with bufferList := bufferList } endOfCDR.startOffset dataLength
    let (bufferList, found) := containsData s.bufferList endOfCDR.startOffset.toNat dataLength
    ({ s with bufferList := bufferList }, found)

/-- `loadCentralDirectory`: the list of FileHeaders. -/
def loadCentralDirectory (garbage : Mem) (read : Archive → Nat → Archive) (s : Archive)
    (outputDir : Option (List UInt8)) (endOfCDR : EndOfCDR) : Option (List FileHeader) := do
  let (s, found) := findCentralDirectory read s endOfCDR
  let bufPtr ← bufPtrOf s.bufferList (← found)
  loadFileHeaders garbage s.mem outputDir endOfCDR.totalEntries.toNat bufPtr

/-! ## The members -/

/-- `DIR_DEFAULT_MODE`. -/
def DIR_DEFAULT_MODE : UInt32 := 0x1E8

/-- What processing a member finds outside of the archive: reading from the file, the slab that it
acquires, and the local variable of `inflate` that is not initialised; and for its directories what the
list of `makeDirectory` holds, what `mkdir` answers, and what there is. -/
structure Env where
  read : Archive → Nat → Archive
  slab : Mem
  garbage : Nat → Nat
  subdirList : Mem
  moreSubdirs : Mem
  answer : Fs.Answer
  tree : Fs.DirTree

/-- A call that processing a member makes. -/
inductive Call where
  | makeDirectory (pathName : List UInt8) (hasFilename : Bool)
  | findHeader (offset : Int) (length : Nat)
  | findData (offset : Int) (length : Nat)
  | createFile (pathName : List UInt8)
  | writeFile (bytes : List UInt8)
  | setTimestamp (date time : UInt16)
  | closeFile
  | printf (message : String)
deriving DecidableEq

/-- How processing a member ends. -/
inductive Outcome where
  | returned (s : Archive)
  | crashed
  | aborted
  | undefined

/-- `dataLength`, for a local header that is cached. -/
def headerLength (fileHeader : FileHeader) : Nat :=
  ZIP_FILE_LOCAL_HEADER_SIZE + fileHeader.fileNameLen.toNat + fileHeader.extraFieldLen.toNat

/-- Look the local header up, and read it if it is not there; with the lookups go
`dataLength` and the index of the FileBuffer. -/
def findLocalHeader (env : Env) (s : Archive) (fileHeader : FileHeader) :
    List Call × Archive × Nat × Option Nat :=
  let offset := fileHeader.localHeaderOffset
  let dataLength := headerLength fileHeader
  match containsData s.bufferList offset.toNat dataLength with
  | (bufferList, some i) =>
    ([.findHeader offset.toNat dataLength], { s with bufferList := bufferList }, dataLength, some i)
  | (bufferList, none) =>
    -- the length to read is kept as the length of the header
    let readLength := (dataLength + (offset.toNat - alignDown offset)) % 2 ^ 32
    let s := readFrom env.read { s with bufferList := bufferList } offset readLength
    let (bufferList, found) := containsData s.bufferList offset.toNat readLength
    ([.findHeader offset.toNat dataLength, .findHeader offset.toNat readLength],
      { s with bufferList := bufferList }, readLength, found)

/-- The chain of FileBuffers from the one that was found, or none from `NULL`. -/
def chainFrom (bufferList : FileBufferList) : Option Nat → List FileBuffer
  | some i => bufferList.values.drop i
  | none => []

/-- `localHeaderOffset + dataLength`, the offset that the data is looked up at. -/
def dataOffsetOf (fileHeader : FileHeader) (dataLength : Nat) : Nat :=
  (fileHeader.localHeaderOffset.toNat + dataLength) % 2 ^ 32

/-- Look the data up: the call, and the list and the chain of FileBuffers after it. -/
def findMemberData (s : Archive) (fileHeader : FileHeader) (dataLength : Nat) :
    Call × Archive × List FileBuffer :=
  let offset := dataOffsetOf fileHeader dataLength
  let length := fileHeader.compressSize.toNat
  let (bufferList, found) := containsData s.bufferList offset length
  (.findData offset length, { s with bufferList := bufferList }, chainFrom bufferList found)

/-- Create a file, write it, set its timestamp and close it. -/
def createAndWrite (fileName : List UInt8) (fileHeader : FileHeader) (writes : List (List UInt8)) :
    List Call :=
  .createFile fileName :: writes.map .writeFile ++
    [.setTimestamp fileHeader.lastModFileDate fileHeader.lastModFileTime, .closeFile]

/-- The branch for `ZIP_METHOD_STORED`. -/
def extractStored (s : Archive) (fileName : List UInt8) (fileHeader : FileHeader)
    (dataLength : Nat) : List Call × Outcome :=
  let length := fileHeader.uncompressSize.toNat
  match findMemberData s fileHeader dataLength with
  | (call, s, chain) =>
    match Io.crc32 s.mem chain length, Io.write chain length with
    | some crc, some writes =>
      if crc = fileHeader.crc32.toBitVec then
        (call :: createAndWrite fileName fileHeader
          (writes.map fun (bufPtr, length) => bytesAt s.mem bufPtr length), .returned s)
      else ([call], .returned s)
    | _, _ => ([call], .crashed)

/-- `c49f5b0d_crc32`, for an OutputBuffer that has no next one. -/
def OutputBuffer.crc32 (outputBuffer : OutputBuffer) (length : Nat) : BitVec 32 :=
  let bufferLength := if INFLATE_OUTPUT_LENGTH > length then length else INFLATE_OUTPUT_LENGTH
  if length = 0 then 0 else Hash.crc32 outputBuffer.buffer 0 bufferLength 0

/-- `c49f5b0d_write`: the bytes that are written. -/
def OutputBuffer.write (outputBuffer : OutputBuffer) : List UInt8 :=
  bytesAt outputBuffer.buffer 0 outputBuffer.length

/-- The branch for `ZIP_METHOD_DEFLATE`, for a member that is not empty. -/
def extractDeflated (env : Env) (s : Archive) (fileName : List UInt8) (fileHeader : FileHeader)
    (dataLength : Nat) : List Call × Outcome :=
  match findMemberData s fileHeader dataLength with
  | (call, _, []) => ([call], .crashed)
  | (call, s, fileBuffer :: next) =>
    let inflateData := initInflate env.slab fileBuffer next fileHeader.compressSize.toNat
    match inflate s.mem env.garbage inflateData with
    | none => ([call], .undefined)
    | some (_, inflateData) =>
      let outputBuffer := inflateData.outputBuffer
      if outputBuffer.crc32 fileHeader.uncompressSize.toNat = fileHeader.crc32.toBitVec then
        (call :: createAndWrite fileName fileHeader [outputBuffer.write], .returned s)
      else ([call, .printf "CRC-32 does not match!"], .returned s)

/-- A member behind its local header. -/
def extract (env : Env) (s : Archive) (fileName : List UInt8) (fileHeader : FileHeader)
    (dataLength : Nat) : List Call × Outcome :=
  if fileHeader.compressMethod = ZIP_METHOD_STORED then
    extractStored s fileName fileHeader dataLength
  else if fileHeader.compressMethod = ZIP_METHOD_DEFLATE then
    if fileHeader.uncompressSize = 0 then (createAndWrite fileName fileHeader [], .returned s)
    else extractDeflated env s fileName fileHeader dataLength
  else ([], .returned s)

/-- A directory entry. -/
def FileHeader.isDirectory (fileHeader : FileHeader) : Bool :=
  fileHeader.compressMethod = ZIP_METHOD_STORED ∧ fileHeader.compressSize = 0

/-- The string at an address, of so many bytes at most. -/
def stringAt (mem : Mem) (p length : Nat) : List UInt8 := (bytesAt mem p length).takeWhile (· ≠ 0)

/-- `d0059b5b_makeDirectory`: what it leaves of the name, or `some none` for an abort. -/
def makeDirectory (env : Env) (pathName : List UInt8) (hasFilename : Bool) :
    Option (Option (List UInt8)) :=
  -- a round for each character and for each piece that there is room for, and some to spare
  (Fs.makeDirectory (pathName.length + 10) env.subdirList env.moreSubdirs env.answer
    (textMem (0x20 :: pathName)) 1 DIR_DEFAULT_MODE hasFilename env.tree).map
      (Option.map fun (_, mem, _) => stringAt mem 1 pathName.length)

/-- `d0059b5b_makeDirectory`, and what is done after it with the name that it leaves. -/
def withDirectory (env : Env) (fileName : Text) (hasFilename : Bool)
    (next : List UInt8 → List Call × Outcome) : List Call × Outcome :=
  match fileName with
  | none => ([], .crashed)
  | some pathName =>
    let call := .makeDirectory pathName hasFilename
    match makeDirectory env pathName hasFilename with
    | none => ([call], .crashed)
    | some none => ([call], .aborted)
    | some (some pathName) => (call :: (next pathName).1, (next pathName).2)

/-- The body of the loop of `processFileHeaderList`. -/
def processFileHeader (env : Env) (s : Archive) (fileHeader : FileHeader) :
    List Call × Outcome :=
  if fileHeader.isDirectory then
    withDirectory env fileHeader.fileName false fun _ => ([], .returned s)
  else
    let (calls, s, dataLength, found) := findLocalHeader env s fileHeader
    match found.bind (bufPtrOf s.bufferList) with
    | none => (calls, .crashed)
    | some bufPtr =>
      if load32 s.mem bufPtr = ZIP_FILE_LOCAL_HEADER_SIG then
        let (calls', outcome) := withDirectory env fileHeader.fileName true fun fileName =>
          extract env s fileName fileHeader dataLength
        (calls ++ calls', outcome)
      else (calls, .returned s)

/-- `processFileHeaderList`; `env` says what each member finds. -/
def processFileHeaderList (env : Nat → Env) : Nat → List FileHeader → Archive →
    List Call × Outcome
  | _, [], s => ([], .returned s)
  | i, fileHeader :: fileHeaderList, s =>
    match processFileHeader (env i) s fileHeader with
    | (calls, .returned s) =>
      let (calls', outcome) := processFileHeaderList env (i + 1) fileHeaderList s
      (calls ++ calls', outcome)
    | stopped => stopped

/-! ## The archive -/

/-- Read up to the first 32 KB of the file, unless its first page is there. -/
def loadFirstPages (read : Archive → Nat → Archive) (s : Archive) (fileSize : Nat) : Archive :=
  if s.bufferList.fileOffset > 0 then
    let dataLength :=
      if fileSize > ASYNC_AIOTICKET_MAXSIZE then ASYNC_AIOTICKET_MAXSIZE else fileSize
    readFrom read s 0 dataLength
  else s

/-- `ce667b0d_unzip`, behind `findEndOfCDR`: `none` if that returned `false`. -/
def unzip (garbage : Mem) (read : Archive → Nat → Archive) (env : Nat → Env) (s : Archive)
    (outputDir : Option (List UInt8)) (fileSize : Nat) :
    Option EndOfCDR → List Call × Outcome
  | none => ([], .returned s)
  | some endOfCDR =>
    match loadCentralDirectory garbage read s outputDir endOfCDR with
    | none => ([], .crashed)
    | some fileHeaderList =>
      let s := (findCentralDirectory read s endOfCDR).1
      processFileHeaderList env 0 fileHeaderList (loadFirstPages read s fileSize)

end DevopsBroker.Compress
