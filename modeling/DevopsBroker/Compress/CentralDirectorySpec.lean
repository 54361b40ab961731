import DevopsBroker.Compress.FileNameSpec
import DevopsBroker.Io.FileBufferListSpec
import DevopsBroker.Lib.LittleEndian

/-!
# What comes out of the central directory

`parseDirectory` is what a central directory means, as a sequence of bytes: a record is
46 bytes of numbers and three texts behind them. `loadFileHeaders` reads records off
memory, from one pointer on, wherever the pages lie.

- **`loadFileHeaders_iff`**: it gives the headers of the directory exactly when memory has
  the bytes of the records behind the pointer, and names fit behind the output directory.
- **`loadCentralDirectory_exact_iff`**: for a FileBufferList that has the directory, this is
  so exactly when the FileBuffer where the directory begins is found, what lies behind
  it in memory is what comes behind it in the file, and the names fit.
-/

namespace DevopsBroker.Compress

open DevopsBroker.Lib DevopsBroker.Io

/-! ## The directory as bytes -/

/-- A number of a record. -/
def numberAt (record : List UInt8) (position length : Nat) : Nat :=
  littleEndian ((record.drop position).take length)

/-- A text of a record. -/
def textAt (record : List UInt8) (position length : Nat) : Text :=
  if length = 0 then none else some ((record.drop position).take length)

/-- The FileHeader that a record stands for. -/
def headerOf (outputDir : Option (List UInt8)) (record : List UInt8) : FileHeader :=
  let number16 := fun position => UInt16.ofNat (numberAt record position 2)
  let number32 := fun position => UInt32.ofNat (numberAt record position 4)
  let nameLength := numberAt record 28 2
  let extraLength := numberAt record 30 2
  { signature := number32 0
    madeByVersion := number16 4
    needToExtractVersion := number16 6
    bitFlags := number16 8
    compressMethod := number16 10
    lastModFileTime := number16 12
    lastModFileDate := number16 14
    crc32 := number32 16
    compressSize := number32 20
    uncompressSize := number32 24
    fileNameLen := number16 28
    extraFieldLen := number16 30
    fileCommentLen := number16 32
    diskNumStart := number16 34
    internalFileAttribs := number16 36
    externalFileAttribs := number32 38
    localHeaderOffset := number32 42
    fileName := (textAt record 46 nameLength).map (nameIn outputDir)
    extraField := textAt record (46 + nameLength) extraLength
    fileComment := textAt record (46 + nameLength + extraLength) (numberAt record 32 2) }

/-- The FileHeaders of so many records, if the bytes are well formed: all the records are
there, each with its signature. What follows them is not looked at. -/
def parseDirectory (outputDir : Option (List UInt8)) : Nat → List UInt8 → Option (List FileHeader)
  | 0, _ => some []
  | entries + 1, bytes =>
    let fileHeader := headerOf outputDir bytes
    if fileHeader.signature = ZIP_FILE_HEADER_SIG ∧ fileHeader.recordSize ≤ bytes.length then
      (parseDirectory outputDir entries (bytes.drop fileHeader.recordSize)).map (fileHeader :: ·)
    else none

/-! ## Records in memory -/

theorem drop_bytesAt (mem : Mem) (p : Nat) {n k : Nat} (h : k ≤ n) :
    (bytesAt mem p n).drop k = bytesAt mem (p + k) (n - k) := by
  rw [show n = k + (n - k) by omega, bytesAt_add, List.drop_left' (bytesAt_length ..),
    Nat.add_sub_cancel_left]

theorem take_bytesAt (mem : Mem) (p : Nat) {n k : Nat} (h : k ≤ n) :
    (bytesAt mem p n).take k = bytesAt mem p k := by
  rw [show n = k + (n - k) by omega, bytesAt_add, List.take_left' (bytesAt_length ..)]

/-- A number of a record in memory. -/
theorem numberAt_bytesAt (mem : Mem) (p : Nat) {n position length : Nat}
    (h : position + length ≤ n) :
    numberAt (bytesAt mem p n) position length = orBytes mem length (p + position) 0 0 := by
  rw [numberAt, drop_bytesAt mem p (by omega), take_bytesAt mem _ (by omega),
    orBytes_eq_littleEndian]

/-- A text of a record in memory. -/
theorem textAt_bytesAt (mem : Mem) (p : Nat) {n position length : Nat}
    (h : position + length ≤ n) :
    textAt (bytesAt mem p n) position length =
      if length = 0 then none else some (bytesAt mem (p + position) length) := by
  rw [textAt, drop_bytesAt mem p (by omega), take_bytesAt mem _ (by omega)]

theorem load16_toNat (mem : Mem) (p : Nat) : (load16 mem p).toNat = orBytes mem 2 p 0 0 :=
  UInt16.toNat_ofNat_of_lt' (orBytes_lt mem 2 p)

theorem load32_toNat (mem : Mem) (p : Nat) : (load32 mem p).toNat = orBytes mem 4 p 0 0 :=
  UInt32.toNat_ofNat_of_lt' (orBytes_lt mem 4 p)

theorem load16_injective {mem mem' : Mem} {p q : Nat} (h : load16 mem p = load16 mem' q) :
    ∀ k < 2, mem (p + k) = mem' (q + k) := by
  have h := congrArg UInt16.toNat h
  rw [load16_toNat, load16_toNat] at h
  exact orBytes_injective h

theorem load32_injective {mem mem' : Mem} {p q : Nat} (h : load32 mem p = load32 mem' q) :
    ∀ k < 4, mem (p + k) = mem' (q + k) := by
  have h := congrArg UInt32.toNat h
  rw [load32_toNat, load32_toNat] at h
  exact orBytes_injective h

theorem copyText_eq (mem : Mem) (p n position : Nat) (length : UInt16)
    (h : position + length.toNat ≤ n) :
    textAt (bytesAt mem p n) position length.toNat = copyText mem (p + position) length := by
  rw [textAt_bytesAt mem p h, copyText]
  by_cases hzero : length = 0
  · rw [if_pos hzero, hzero]
    rfl
  · have hne : length.toNat ≠ 0 := fun h => hzero (UInt16.toNat_inj.mp h)
    rw [if_neg hzero, if_neg hne]

/-- Texts of one length differ when their bytes do. -/
theorem copyText_injective {mem mem' : Mem} {p q : Nat} {length : UInt16}
    (h : copyText mem p length = copyText mem' q length) :
    ∀ k < length.toNat, mem (p + k) = mem' (q + k) := by
  unfold copyText at h
  split at h
  next hzero =>
    intro k hk
    rw [hzero] at hk
    exact absurd hk (Nat.not_lt_zero k)
  next _ => exact bytesAt_inj.mp (Option.some.inj h)

theorem nameIn_injective (outputDir : Option (List UInt8)) : Function.Injective (nameIn outputDir) := by
  intro xs ys h
  cases outputDir with
  | none => exact h
  | some dir => exact List.append_cancel_left h

theorem numberAt_load16 (mem : Mem) (p : Nat) {n position : Nat} (h : position + 2 ≤ n) :
    numberAt (bytesAt mem p n) position 2 = (load16 mem (p + position)).toNat := by
  rw [load16_toNat, numberAt_bytesAt mem p h]

/-- The FileHeader of a record in memory, when its name can be joined with the output directory. -/
def headerAt (mem : Mem) (outputDir : Option (List UInt8)) (p : Nat) : FileHeader :=
  mapFileHeader mem ((copyText mem (p + 46) (load16 mem (p + 28))).map (nameIn outputDir)) p

theorem headerOf_recordSize (mem : Mem) (outputDir : Option (List UInt8)) (p : Nat) {n : Nat}
    (h : 46 ≤ n) :
    (headerOf outputDir (bytesAt mem p n)).recordSize =
      (headerAt mem outputDir p).recordSize := by
  simp only [FileHeader.recordSize, headerOf, headerAt, mapFileHeader,
    numberAt_load16 mem p (show 28 + 2 ≤ n by omega),
    numberAt_load16 mem p (show 30 + 2 ≤ n by omega),
    numberAt_load16 mem p (show 32 + 2 ≤ n by omega), UInt16.ofNat_toNat]

theorem le_recordSize (fileHeader : FileHeader) : 46 ≤ fileHeader.recordSize := by
  unfold FileHeader.recordSize
  omega

/-- **The FileHeader of a record in memory is what the bytes of the record stand for.** -/
theorem headerOf_bytesAt {mem : Mem} {outputDir : Option (List UInt8)} {p n : Nat}
    (h : (headerAt mem outputDir p).recordSize ≤ n) :
    headerOf outputDir (bytesAt mem p n) = headerAt mem outputDir p := by
  have hfixed : 46 ≤ n := Nat.le_trans (le_recordSize _) h
  have hnumber16 : ∀ {position : Nat}, position + 2 ≤ 46 →
      numberAt (bytesAt mem p n) position 2 = (load16 mem (p + position)).toNat :=
    fun hle => numberAt_load16 mem p (Nat.le_trans hle hfixed)
  have hnumber32 : ∀ {position : Nat}, position + 4 ≤ 46 →
      UInt32.ofNat (numberAt (bytesAt mem p n) position 4) = load32 mem (p + position) := by
    intro position hle
    rw [load32, numberAt_bytesAt mem p (by omega)]
  -- the three texts end inside of the record
  have hend : 46 + (load16 mem (p + 28)).toNat + (load16 mem (p + 30)).toNat +
      (load16 mem (p + 32)).toNat ≤ n := h
  have hfileName := copyText_eq mem p n 46 (load16 mem (p + 28)) (by omega)
  have hextraField := copyText_eq mem p n (46 + (load16 mem (p + 28)).toNat)
    (load16 mem (p + 30)) (by omega)
  have hfileComment := copyText_eq mem p n
    (46 + (load16 mem (p + 28)).toNat + (load16 mem (p + 30)).toNat) (load16 mem (p + 32)) hend
  rw [← Nat.add_assoc] at hextraField
  rw [← Nat.add_assoc, ← Nat.add_assoc] at hfileComment
  simp (disch := decide) only [headerOf, headerAt, mapFileHeader, hnumber16, hnumber32,
    UInt16.ofNat_toNat, hfileName, hextraField, hfileComment, Nat.add_zero]

/-- The numbers of a record: where they are, two or four bytes of them. -/
theorem record_covered : ∀ k < 46,
    (∃ position ∈ [4, 6, 8, 10, 12, 14, 28, 30, 32, 34, 36], position ≤ k ∧ k < position + 2) ∨
      ∃ position ∈ [0, 16, 20, 24, 38, 42], position ≤ k ∧ k < position + 4 := by
  decide

/-- The numbers of a FileHeader determine the first 46 bytes of its record. -/
theorem headerAt_numbers {mem mem' : Mem} {outputDir : Option (List UInt8)} {p q : Nat}
    (h : headerAt mem outputDir p = headerAt mem' outputDir q) :
    ∀ k < 46, mem (p + k) = mem' (q + k) := by
  have h16 : ∀ position ∈ [4, 6, 8, 10, 12, 14, 28, 30, 32, 34, 36],
      load16 mem (p + position) = load16 mem' (q + position) := by
    simp only [List.forall_mem_cons]
    refine ⟨congrArg FileHeader.madeByVersion h, congrArg FileHeader.needToExtractVersion h,
      congrArg FileHeader.bitFlags h, congrArg FileHeader.compressMethod h,
      congrArg FileHeader.lastModFileTime h, congrArg FileHeader.lastModFileDate h,
      congrArg FileHeader.fileNameLen h, congrArg FileHeader.extraFieldLen h,
      congrArg FileHeader.fileCommentLen h, congrArg FileHeader.diskNumStart h,
      congrArg FileHeader.internalFileAttribs h, fun _ h => absurd h List.not_mem_nil⟩
  have h32 : ∀ position ∈ [0, 16, 20, 24, 38, 42],
      load32 mem (p + position) = load32 mem' (q + position) := by
    simp only [List.forall_mem_cons]
    refine ⟨congrArg FileHeader.signature h, congrArg FileHeader.crc32 h,
      congrArg FileHeader.compressSize h, congrArg FileHeader.uncompressSize h,
      congrArg FileHeader.externalFileAttribs h, congrArg FileHeader.localHeaderOffset h,
      fun _ h => absurd h List.not_mem_nil⟩
  intro k hk
  rcases record_covered k hk with ⟨position, hmem, hle, hlt⟩ | ⟨position, hmem, hle, hlt⟩
  · have hbyte := load16_injective (h16 position hmem) (k - position) (by omega)
    rw [Nat.add_assoc, Nat.add_assoc, Nat.add_sub_cancel' hle] at hbyte
    exact hbyte
  · have hbyte := load32_injective (h32 position hmem) (k - position) (by omega)
    rw [Nat.add_assoc, Nat.add_assoc, Nat.add_sub_cancel' hle] at hbyte
    exact hbyte

/-- **A FileHeader determines the bytes of its record.** -/
theorem headerAt_injective {mem mem' : Mem} {outputDir : Option (List UInt8)} {p q : Nat}
    (h : headerAt mem outputDir p = headerAt mem' outputDir q) :
    ∀ k < (headerAt mem' outputDir q).recordSize, mem (p + k) = mem' (q + k) := by
  have hname := congrArg FileHeader.fileNameLen h
  have hextra := congrArg FileHeader.extraFieldLen h
  have hcomment := congrArg FileHeader.fileCommentLen h
  have hfileName : ∀ k < (load16 mem' (q + 28)).toNat, mem (p + 46 + k) = mem' (q + 46 + k) := by
    have h := congrArg FileHeader.fileName h
    dsimp only [headerAt, mapFileHeader] at h hname
    rw [hname] at h
    exact copyText_injective (Option.map_injective (nameIn_injective outputDir) h)
  have hextraField : ∀ k < (load16 mem' (q + 30)).toNat,
      mem (p + 46 + (load16 mem' (q + 28)).toNat + k) =
        mem' (q + 46 + (load16 mem' (q + 28)).toNat + k) := by
    have h := congrArg FileHeader.extraField h
    dsimp only [headerAt, mapFileHeader] at h hname hextra
    rw [hname, hextra] at h
    exact copyText_injective h
  have hfileComment : ∀ k < (load16 mem' (q + 32)).toNat,
      mem (p + 46 + (load16 mem' (q + 28)).toNat + (load16 mem' (q + 30)).toNat + k) =
        mem' (q + 46 + (load16 mem' (q + 28)).toNat + (load16 mem' (q + 30)).toNat + k) := by
    have h := congrArg FileHeader.fileComment h
    dsimp only [headerAt, mapFileHeader] at h hname hextra hcomment
    rw [hname, hextra, hcomment] at h
    exact copyText_injective h
  intro k hk
  have hk : k < 46 + (load16 mem' (q + 28)).toNat + (load16 mem' (q + 30)).toNat +
      (load16 mem' (q + 32)).toNat := hk
  -- the numbers, or one of the three texts behind them
  by_cases hfixed : k < 46
  · exact headerAt_numbers h k hfixed
  obtain ⟨k, rfl⟩ := Nat.exists_eq_add_of_le (Nat.not_lt.mp hfixed)
  rw [← Nat.add_assoc, ← Nat.add_assoc]
  by_cases hname : k < (load16 mem' (q + 28)).toNat
  · exact hfileName k hname
  obtain ⟨k, rfl⟩ := Nat.exists_eq_add_of_le (Nat.not_lt.mp hname)
  rw [← Nat.add_assoc, ← Nat.add_assoc]
  by_cases hextra : k < (load16 mem' (q + 30)).toNat
  · exact hextraField k hextra
  obtain ⟨k, rfl⟩ := Nat.exists_eq_add_of_le (Nat.not_lt.mp hextra)
  rw [← Nat.add_assoc, ← Nat.add_assoc]
  exact hfileComment k (by omega)

/-- The bytes of a record determine its FileHeader. -/
theorem headerAt_congr {mem mem' : Mem} {outputDir : Option (List UInt8)} {p q : Nat}
    (h : ∀ k < (headerAt mem' outputDir q).recordSize, mem (p + k) = mem' (q + k)) :
    headerAt mem outputDir p = headerAt mem' outputDir q := by
  have hbytes := bytesAt_inj.mpr h
  have hle := le_recordSize (headerAt mem' outputDir q)
  have hsize := headerOf_recordSize mem outputDir p hle
  rw [hbytes, headerOf_bytesAt (Nat.le_refl _)] at hsize
  rw [← headerOf_bytesAt (Nat.le_of_eq hsize.symm), hbytes, headerOf_bytesAt (Nat.le_refl _)]

/-! ## The loop over the records -/

/-- How many bytes the records of some FileHeaders take. -/
def recordsSize (headers : List FileHeader) : Nat := (headers.map FileHeader.recordSize).sum

section

variable {garbage mem : Mem} {outputDir : Option (List UInt8)} {entries bufPtr : Nat}

/-- **A record that is there**: it takes room for its name in the output directory. -/
theorem loadFileHeaders_succ (hnul : ∀ dir ∈ outputDir, 0 ∉ dir)
    (hsig : load32 mem bufPtr = ZIP_FILE_HEADER_SIG) :
    loadFileHeaders garbage mem outputDir (entries + 1) bufPtr =
      if NameFits outputDir (headerAt mem outputDir bufPtr).fileNameLen then
        (loadFileHeaders garbage mem outputDir entries
          (bufPtr + (headerAt mem outputDir bufPtr).recordSize)).map (headerAt mem outputDir bufPtr :: ·)
      else none := by
  rw [loadFileHeaders, if_pos hsig, copyFileName_eq garbage mem hnul]
  show _ = if NameFits outputDir (load16 mem (bufPtr + 28)) then _ else none
  split
  next _ =>
    simp only [Option.bind_eq_bind, Option.bind_some]
    cases hrest : loadFileHeaders garbage mem outputDir entries
      (bufPtr + (headerAt mem outputDir bufPtr).recordSize) with
    | none =>
      rw [headerAt] at hrest
      rw [hrest]
      rfl
    | some rest =>
      rw [headerAt] at hrest
      rw [hrest]
      rfl
  next _ => rfl

theorem loadFileHeaders_length (hnul : ∀ dir ∈ outputDir, 0 ∉ dir) :
    ∀ {entries bufPtr : Nat} {headers : List FileHeader},
      loadFileHeaders garbage mem outputDir entries bufPtr = some headers → headers.length ≤ entries := by
  intro entries
  induction entries with
  | zero =>
    intro bufPtr headers h
    rw [← Option.some.inj h]
    exact Nat.le_refl 0
  | succ entries ih =>
    intro bufPtr headers h
    by_cases hsig : load32 mem bufPtr = ZIP_FILE_HEADER_SIG
    · rw [loadFileHeaders_succ hnul hsig] at h
      split at h
      next _ =>
        obtain ⟨rest, hrest, rfl⟩ := Option.map_eq_some_iff.mp h
        exact Nat.succ_le_succ (ih hrest)
      next _ => cases h
    · rw [loadFileHeaders, if_neg hsig] at h
      exact Nat.le_succ_of_le (ih h)

end

theorem parseDirectory_length {outputDir : Option (List UInt8)} :
    ∀ {entries : Nat} {bytes : List UInt8} {headers : List FileHeader},
      parseDirectory outputDir entries bytes = some headers → headers.length = entries := by
  intro entries
  induction entries with
  | zero =>
    intro bytes headers h
    rw [← Option.some.inj h]
    rfl
  | succ entries ih =>
    intro bytes headers h
    unfold parseDirectory at h
    dsimp only at h
    split at h
    next _ =>
      obtain ⟨rest, hrest, rfl⟩ := Option.map_eq_some_iff.mp h
      rw [List.length_cons, ih hrest]
    next _ => cases h

/-- A well-formed directory in memory: its first record, and the others. -/
theorem parseDirectory_succ {file : Mem} {outputDir : Option (List UInt8)} {entries q size : Nat}
    {headers : List FileHeader}
    (h : parseDirectory outputDir (entries + 1) (bytesAt file q size) = some headers) :
    load32 file q = ZIP_FILE_HEADER_SIG ∧ ∃ rest,
      headers = headerAt file outputDir q :: rest ∧
      (headerAt file outputDir q).recordSize ≤ size ∧
      parseDirectory outputDir entries
        (bytesAt file (q + (headerAt file outputDir q).recordSize)
          (size - (headerAt file outputDir q).recordSize)) = some rest := by
  unfold parseDirectory at h
  dsimp only at h
  split at h
  next hwell =>
    obtain ⟨hsig, hle⟩ := hwell
    rw [bytesAt_length] at hle
    have hfixed := Nat.le_trans (le_recordSize _) hle
    have hsize := headerOf_recordSize file outputDir q hfixed
    have hheader := headerOf_bytesAt (hsize ▸ hle)
    rw [hheader] at h hsig hle
    obtain ⟨rest, hrest, rfl⟩ := Option.map_eq_some_iff.mp h
    rw [drop_bytesAt file q hle] at hrest
    exact ⟨hsig, rest, rfl, hle, hrest⟩
  next _ => cases h

/-- **The FileHeaders of a directory are loaded exactly when memory has its records**, and there is room
for the names. A record that is not there is not skipped either: the list comes out too short. -/
theorem loadFileHeaders_iff {garbage mem file : Mem} {outputDir : Option (List UInt8)}
    (hnul : ∀ dir ∈ outputDir, 0 ∉ dir) :
    ∀ {entries p q size : Nat} {headers : List FileHeader},
      parseDirectory outputDir entries (bytesAt file q size) = some headers →
      (loadFileHeaders garbage mem outputDir entries p = some headers ↔
        (∀ fileHeader ∈ headers, NameFits outputDir fileHeader.fileNameLen) ∧
          ∀ k < recordsSize headers, mem (p + k) = file (q + k)) := by
  intro entries
  induction entries with
  | zero =>
    intro p q size headers h
    rw [← Option.some.inj h]
    exact iff_of_true rfl
      ⟨fun _ hmem => absurd hmem List.not_mem_nil, fun k hk => absurd hk (Nat.not_lt_zero k)⟩
  | succ entries ih =>
    intro p q size headers h
    obtain ⟨hsig, rest, rfl, hle, hrest⟩ := parseDirectory_succ h
    have hsize : recordsSize (headerAt file outputDir q :: rest) =
        (headerAt file outputDir q).recordSize + recordsSize rest := List.sum_cons
    constructor
    · intro hload
      by_cases hsig' : load32 mem p = ZIP_FILE_HEADER_SIG
      · rw [loadFileHeaders_succ hnul hsig'] at hload
        split at hload
        next hfits =>
          obtain ⟨rest', hrest', heq⟩ := Option.map_eq_some_iff.mp hload
          obtain ⟨hheader, rfl⟩ := List.cons_eq_cons.mp heq
          have hfirst := headerAt_injective hheader
          rw [hheader] at hrest' hfits
          obtain ⟨hnames, hothers⟩ := (ih hrest).mp hrest'
          refine ⟨List.forall_mem_cons.mpr ⟨hfits, hnames⟩, fun k hk => ?_⟩
          by_cases hin : k < (headerAt file outputDir q).recordSize
          · exact hfirst k hin
          · obtain ⟨k, rfl⟩ := Nat.exists_eq_add_of_le (Nat.not_lt.mp hin)
            rw [← Nat.add_assoc, ← Nat.add_assoc]
            exact hothers k (by omega)
        next _ => cases hload
      · -- the signature is not there: at most `entries` FileHeaders are left
        rw [loadFileHeaders, if_neg hsig'] at hload
        have hshort := loadFileHeaders_length hnul hload
        rw [List.length_cons, parseDirectory_length hrest] at hshort
        omega
    · intro ⟨hnames, hbytes⟩
      obtain ⟨hfits, hnames⟩ := List.forall_mem_cons.mp hnames
      have hheader : headerAt mem outputDir p = headerAt file outputDir q :=
        headerAt_congr fun k hk => hbytes k (by omega)
      have hsig' : load32 mem p = ZIP_FILE_HEADER_SIG :=
        (congrArg FileHeader.signature hheader).trans hsig
      have htail : loadFileHeaders garbage mem outputDir entries
          (p + (headerAt file outputDir q).recordSize) = some rest := by
        refine (ih hrest).mpr ⟨hnames, fun k hk => ?_⟩
        rw [Nat.add_assoc, Nat.add_assoc]
        exact hbytes _ (by omega)
      rw [loadFileHeaders_succ hnul hsig', hheader, if_pos hfits, htail]
      rfl

theorem parseDirectory_recordsSize {file : Mem} {outputDir : Option (List UInt8)} :
    ∀ {entries q size : Nat} {headers : List FileHeader},
      parseDirectory outputDir entries (bytesAt file q size) = some headers →
      recordsSize headers ≤ size := by
  intro entries
  induction entries with
  | zero =>
    intro q size headers h
    rw [← Option.some.inj h]
    exact Nat.zero_le _
  | succ entries ih =>
    intro q size headers h
    obtain ⟨_, rest, rfl, hle, hrest⟩ := parseDirectory_succ h
    have hothers := ih hrest
    have hsize : recordsSize (headerAt file outputDir q :: rest) =
        (headerAt file outputDir q).recordSize + recordsSize rest := List.sum_cons
    omega

/-! ## Pages of a file -/

/-- The pages have the bytes of a file. -/
def HoldsFile (mem file : Mem) (pages : List FileBuffer) : Prop :=
  ∀ b ∈ pages, ∀ k < b.numBytes, mem (b.buffer + k) = file (b.fileOffset + k).toNat

/-- A range inside of a range. -/
theorem inRange_sub {pages : List FileBuffer} {offset : Int} {length k m : Nat}
    (h : InRange pages offset length) (hle : k + m ≤ length) : InRange pages (offset + k) m := by
  cases pages with
  | nil => exact h
  | cons b rest =>
    obtain ⟨hstart, hend⟩ := h
    refine ⟨by omega, ?_⟩
    omega

/-- The page where a range begins is that of its first byte. -/
theorem addressOf_home {pages : List FileBuffer} (hc : Contiguous pages) {offset : Int}
    {length : Nat} (hpos : 0 < length) {b : FileBuffer} (hb : IsHome pages offset length b) :
    offset < b.fileEnd ∧ addressOf pages offset = b.buffer + (offset - b.fileOffset).toNat := by
  have hend : offset < b.fileEnd := by
    rcases hb.inside with hin | hlast
    · exact hin
    · have hle := hb.le_end hlast
      omega
  refine ⟨hend, ?_⟩
  obtain ⟨hlt, hget⟩ := List.getElem?_eq_some_iff.mp hb.found
  have hdrop : pages.drop (home pages offset) = b :: pages.drop (home pages offset + 1) := by
    rw [List.drop_eq_getElem_cons hlt, hget]
  have haddress := fileAddresses_drop 1 _ hc hb.found hb.starts_le
  rw [hdrop] at haddress
  have hone : ∀ buffers : List FileBuffer,
      fileAddresses buffers offset 1 = [addressOf buffers offset] := by
    intro buffers
    show [addressOf buffers (offset + (0 : Nat))] = _
    rw [Int.natCast_zero, Int.add_zero]
  rw [hone, hone, List.singleton_inj, addressOf_cons_self _ hb.starts_le hend] at haddress
  exact haddress.symm

/-- Every byte of a range is in memory where `addressOf` says. -/
theorem HoldsFile.byte {mem file : Mem} {pages : List FileBuffer} (h : HoldsFile mem file pages)
    (hc : Contiguous pages) {offset : Nat} {length k : Nat}
    (hr : InRange pages (offset : Int) length) (hk : k < length) :
    mem (addressOf pages ((offset + k : Nat) : Int)) = file (offset + k) := by
  have hr := inRange_sub (k := k) (m := 1) hr hk
  rw [← Int.natCast_add] at hr
  obtain ⟨b, hb⟩ := exists_isHome hc hr
  obtain ⟨hend, haddress⟩ := addressOf_home hc Nat.one_pos hb
  have hstart := hb.starts_le
  have hfileEnd : b.fileEnd = b.fileOffset + b.numBytes := rfl
  have hbyte := h b (List.mem_of_getElem? hb.found) (((offset + k : Nat) : Int) - b.fileOffset).toNat
    (by omega)
  rw [haddress, hbyte]
  congr 1
  omega

/-- A lookup that succeeds leads to the first byte of the range. -/
theorem lookup_bufPtr {pages : List FileBuffer} (hc : Contiguous pages) {d : Nat → Nat}
    {l : FileBufferList} (hl : Stands pages d l) {offset : Int} {length : Nat}
    (hr : InRange pages offset length) :
    ∃ p, (containsData l offset length).2.bind (bufPtrOf (containsData l offset length).1) = some p ∧
      (0 < length → p = addressOf pages offset) := by
  obtain ⟨hfound, hstands⟩ := (containsData_spec hc hl offset length).2 hr
  obtain ⟨b, hb⟩ := exists_isHome hc hr
  have hstart : startIn pages offset = (offset - b.fileOffset).toNat := by
    rw [startIn, hb.found]
    rfl
  refine ⟨b.buffer + (offset - b.fileOffset).toNat, ?_, fun hpos => (addressOf_home hc hpos hb).2.symm⟩
  rw [hfound, Option.bind_some, bufPtrOf, hstands.values_eq, place_getElem?, hb.found,
    Option.map_some, Option.map_some, Function.update_self, hstart]

/-! ## Loading -/

/-- The lookup finds the central directory without reading. -/
def directoryCached (s : Archive) (endOfCDR : EndOfCDR) : Bool :=
  (containsData s.bufferList endOfCDR.startOffset.toNat endOfCDR.size.toNat).2.isSome

/-- How many bytes the last lookup asks for: from the start of the directory on, but as many
as are read from the aligned offset on. -/
def directoryLength (s : Archive) (endOfCDR : EndOfCDR) : Nat :=
  if directoryCached s endOfCDR then endOfCDR.size.toNat
  else endOfCDR.startOffset.toNat - alignDown endOfCDR.startOffset + endOfCDR.size.toNat

/-- The archive that has the directory. -/
def directoryArchive (read : Archive → Nat → Archive) (s : Archive) (endOfCDR : EndOfCDR) :
    Archive :=
  if directoryCached s endOfCDR then s
  else readFrom read s endOfCDR.startOffset (directoryLength s endOfCDR)

/-- The last lookup for the directory. -/
def directoryLookup (read : Archive → Nat → Archive) (s : Archive) (endOfCDR : EndOfCDR) :
    FileBufferList × Option Nat :=
  containsData (directoryArchive read s endOfCDR).bufferList endOfCDR.startOffset.toNat
    (directoryLength s endOfCDR)

/-- What the lookups for the directory come to. -/
theorem findCentralDirectory_eq (read : Archive → Nat → Archive) (s : Archive)
    {endOfCDR : EndOfCDR} (hsize : endOfCDR.size.toNat ≤ 32768 - 512) :
    findCentralDirectory read s endOfCDR =
      ({ directoryArchive read s endOfCDR with
          bufferList := (directoryLookup read s endOfCDR).1 },
        (directoryLookup read s endOfCDR).2) := by
  have hread : endOfCDR.startOffset.toNat - alignDown endOfCDR.startOffset +
      endOfCDR.size.toNat < 2 ^ 32 := by
    unfold alignDown
    omega
  rcases hcached : containsData s.bufferList endOfCDR.startOffset.toNat endOfCDR.size.toNat
    with ⟨bufferList, _ | i⟩
  · obtain rfl := containsData_none hcached
    simp only [findCentralDirectory, directoryLookup, directoryArchive, directoryLength,
      directoryCached, hcached, Option.isSome_none, Bool.false_eq_true, if_false,
      Nat.mod_eq_of_lt hread]
  · simp only [findCentralDirectory, directoryLookup, directoryArchive, directoryLength,
      directoryCached, hcached, Option.isSome_some, if_true]

/-- **The central directory is loaded as its bytes in the file are parsed, exactly when** the
names fit behind the output directory, the last lookup is for a range that the list has, and the
records lie behind their first byte in memory as they do in the file. -/
theorem loadCentralDirectory_exact_iff (garbage : Mem) (read : Archive → Nat → Archive) (s : Archive)
    (outputDir : Option (List UInt8)) (endOfCDR : EndOfCDR) (file : Mem)
    (pages : List FileBuffer) (calls : List (Int × Nat)) (headers : List FileHeader)
    (hsize : endOfCDR.size.toNat ≤ 32768 - 512) (hnul : ∀ dir ∈ outputDir, 0 ∉ dir)
    (hwell : parseDirectory outputDir endOfCDR.totalEntries.toNat
      (bytesAt file endOfCDR.startOffset.toNat endOfCDR.size.toNat) = some headers)
    (hc : Contiguous pages) (hfresh : ∀ b ∈ pages, b.dataOffset = 0)
    (hlist : (directoryArchive read s endOfCDR).bufferList = lookups (build pages) calls)
    (hpages : HoldsFile (directoryArchive read s endOfCDR).mem file pages)
    (hheld : InRange pages endOfCDR.startOffset.toNat endOfCDR.size.toNat) :
    loadCentralDirectory garbage read s outputDir endOfCDR = some headers ↔
      (∀ fileHeader ∈ headers, NameFits outputDir fileHeader.fileNameLen) ∧
        InRange pages endOfCDR.startOffset.toNat (directoryLength s endOfCDR) ∧
        ∀ k < recordsSize headers,
          (directoryArchive read s endOfCDR).mem
              (addressOf pages endOfCDR.startOffset.toNat + k) =
            (directoryArchive read s endOfCDR).mem
              (addressOf pages ((endOfCDR.startOffset.toNat + k : Nat) : Int)) := by
  have hstands := lookups_stands hc hfresh calls
  rw [← hlist] at hstands
  have hrecords := parseDirectory_recordsSize hwell
  have hlong : endOfCDR.size.toNat ≤ directoryLength s endOfCDR := by
    unfold directoryLength
    split <;> omega
  unfold loadCentralDirectory
  rw [findCentralDirectory_eq read s hsize]
  dsimp only
  by_cases hr : InRange pages endOfCDR.startOffset.toNat (directoryLength s endOfCDR)
  · obtain ⟨p, hp, hstart⟩ := lookup_bufPtr hc hstands hr
    have hload : ((directoryLookup read s endOfCDR).2.bind fun found => do
        let bufPtr ← bufPtrOf (directoryLookup read s endOfCDR).1 found
        loadFileHeaders garbage (directoryArchive read s endOfCDR).mem outputDir
          endOfCDR.totalEntries.toNat bufPtr) =
        loadFileHeaders garbage (directoryArchive read s endOfCDR).mem outputDir
          endOfCDR.totalEntries.toNat p := by
      obtain ⟨found, hfound, hbufPtr⟩ := Option.bind_eq_some_iff.mp hp
      have hlookup : (directoryLookup read s endOfCDR).2 = some found := hfound
      have hstarts : bufPtrOf (directoryLookup read s endOfCDR).1 found = some p := hbufPtr
      rw [hlookup, Option.bind_some, hstarts]
      rfl
    refine (Iff.of_eq (congrArg (· = some headers) hload)).trans ?_
    rw [loadFileHeaders_iff hnul hwell]
    refine and_congr_right fun _ => ⟨fun h => ⟨hr, fun k hk => ?_⟩, fun h k hk => ?_⟩
    · rw [hpages.byte hc hheld (by omega), ← hstart (by omega)]
      exact h k hk
    · have hbyte := h.2 k hk
      rw [hpages.byte hc hheld (by omega), ← hstart (by omega)] at hbyte
      exact hbyte
  · have hnone : directoryLookup read s endOfCDR = _ :=
      (containsData_spec hc hstands _ _).1 hr
    rw [hnone]
    exact ⟨fun h => (nomatch h), fun h => absurd h.2.1 hr⟩

/-- A name that is loaded is that of a record, with 127 bytes in front of it at most. -/
theorem loadFileHeaders_fileName {garbage mem : Mem} {outputDir : Option (List UInt8)}
    (hnul : ∀ dir ∈ outputDir, 0 ∉ dir) :
    ∀ {entries bufPtr : Nat} {headers : List FileHeader},
      loadFileHeaders garbage mem outputDir entries bufPtr = some headers →
      ∀ fileHeader ∈ headers, ∀ fileName ∈ fileHeader.fileName, fileName.length < 2 ^ 17 := by
  intro entries
  induction entries with
  | zero =>
    intro bufPtr headers h
    rw [← Option.some.inj h]
    exact fun _ hmem => absurd hmem List.not_mem_nil
  | succ entries ih =>
    intro bufPtr headers h
    by_cases hsig : load32 mem bufPtr = ZIP_FILE_HEADER_SIG
    · rw [loadFileHeaders_succ hnul hsig] at h
      split at h
      next hfits =>
        obtain ⟨rest, hrest, rfl⟩ := Option.map_eq_some_iff.mp h
        refine List.forall_mem_cons.mpr ⟨fun fileName hname => ?_, ih hrest⟩
        obtain ⟨bytes, hcopy, rfl⟩ := Option.map_eq_some_iff.mp hname
        unfold copyText at hcopy
        split at hcopy
        next _ => cases hcopy
        next hne =>
          have hlt := (load16 mem (bufPtr + 28)).toNat_lt
          have hlength : bytes.length = (load16 mem (bufPtr + 28)).toNat := by
            rw [← Option.some.inj hcopy, bytesAt_length]
          cases outputDir with
          | none => exact hlength ▸ Nat.lt_trans hlt (by decide)
          | some dir =>
            have hshort := hfits hne dir rfl
            show (withSlash dir ++ bytes).length < _
            rw [List.length_append]
            omega
      next _ => cases h
    · rw [loadFileHeaders, if_neg hsig] at h
      exact ih h

/-- **Every name that comes out of the central directory** is short enough for `makeDirectory`. -/
theorem loadCentralDirectory_fileName {garbage : Mem} {read : Archive → Nat → Archive} {s : Archive}
    {outputDir : Option (List UInt8)} {endOfCDR : EndOfCDR} {headers : List FileHeader}
    (hnul : ∀ dir ∈ outputDir, 0 ∉ dir)
    (h : loadCentralDirectory garbage read s outputDir endOfCDR = some headers) :
    ∀ fileHeader ∈ headers, ∀ fileName ∈ fileHeader.fileName, fileName.length < 2 ^ 31 := by
  intro fileHeader hmem fileName hname
  obtain ⟨found, _, h⟩ := Option.bind_eq_some_iff.mp h
  obtain ⟨bufPtr, _, hload⟩ := Option.bind_eq_some_iff.mp h
  exact Nat.lt_trans (loadFileHeaders_fileName hnul hload fileHeader hmem fileName hname) (by decide)

/-- Two pages of a file, the second one in front of the first in memory. -/
def swappedPages : List FileBuffer := [⟨8192, 0, 0, 4096⟩, ⟨4096, 4096, 0, 4096⟩]

/-- A file with a directory of one record, for the name `a`, across its first two pages. -/
def splitDirectory : Mem := fun k =>
  if k < 4060 then 0
  else ([0x50, 0x4B, 0x01, 0x02, 20, 0, 20, 0, 0, 0, 0, 0, 0, 0, 0, 0, 0, 0, 0, 0, 1, 0, 0, 0,
    1, 0, 0, 0, 1, 0, 0, 0, 0, 0, 0, 0, 0, 0, 0, 0, 0, 0, 0, 0, 0, 0, 0x61] : List UInt8).getD
      (k - 4060) 0

/-- The file in these pages, each filled front to back. -/
def splitArchive : Archive :=
  { mem := fun a =>
      if 8192 ≤ a ∧ a < 12288 then splitDirectory (a - 8192)
      else if 4096 ≤ a ∧ a < 8192 then splitDirectory a
      else 0
    bufferList := build swappedPages
    offset := 0 }

/-- The end of its central directory. -/
def splitEnd : EndOfCDR := { size := 47, startOffset := 4060, totalEntries := 1 }

theorem swappedPages_contiguous : Contiguous swappedPages :=
  ⟨List.isChain_pair.mpr rfl, by decide⟩

theorem splitArchive_holdsFile : HoldsFile splitArchive.mem splitDirectory swappedPages := by
  intro b hb k hk
  rcases List.mem_cons.mp hb with rfl | hb
  · have hk : k < 4096 := hk
    show splitArchive.mem (8192 + k) = splitDirectory (0 + (k : Int)).toNat
    unfold splitArchive
    dsimp only
    rw [if_pos (by omega), Nat.add_sub_cancel_left]
    congr 1
    omega
  · rcases List.mem_singleton.mp hb
    have hk : k < 4096 := hk
    show splitArchive.mem (4096 + k) = splitDirectory (4096 + (k : Int)).toNat
    unfold splitArchive
    dsimp only
    rw [if_neg (by omega), if_pos (by omega)]
    congr 1

/-- With the directory across two pages. -/
theorem loadCentralDirectory_exact_iff_split :
    let headers := (parseDirectory none 1 (bytesAt splitDirectory 4060 47)).getD []
    loadCentralDirectory (fun _ => 0) (fun s _ => s) splitArchive none splitEnd = some headers ↔
      (∀ fileHeader ∈ headers, NameFits none fileHeader.fileNameLen) ∧
        InRange swappedPages splitEnd.startOffset.toNat (directoryLength splitArchive splitEnd) ∧
        ∀ k < recordsSize headers,
          (directoryArchive (fun s _ => s) splitArchive splitEnd).mem
              (addressOf swappedPages splitEnd.startOffset.toNat + k) =
            (directoryArchive (fun s _ => s) splitArchive splitEnd).mem
              (addressOf swappedPages ((splitEnd.startOffset.toNat + k : Nat) : Int)) := by
  have hcached : directoryArchive (fun s _ => s) splitArchive splitEnd = splitArchive :=
    if_pos (by decide +kernel)
  refine loadCentralDirectory_exact_iff (fun _ => 0) (fun s _ => s) splitArchive none splitEnd
    splitDirectory swappedPages [] _ (by decide) nofun (by decide +kernel) swappedPages_contiguous
    (by decide) ?_ ?_ (by decide)
  · rw [hcached]
    rfl
  · rw [hcached]
    exact splitArchive_holdsFile

/-- The last byte of the record is in the second page, and not behind the first one: the name of the
FileHeader is one `NUL` instead of `a`. -/
theorem directory_misread :
    Contiguous swappedPages ∧ HoldsFile splitArchive.mem splitDirectory swappedPages ∧
      InRange swappedPages splitEnd.startOffset.toNat splitEnd.size.toNat ∧
      (parseDirectory none splitEnd.totalEntries.toNat (bytesAt splitDirectory
        splitEnd.startOffset.toNat splitEnd.size.toNat)).isSome ∧
      loadCentralDirectory (fun _ => 0) (fun s _ => s) splitArchive none splitEnd ≠
        parseDirectory none splitEnd.totalEntries.toNat (bytesAt splitDirectory
          splitEnd.startOffset.toNat splitEnd.size.toNat) := by
  refine ⟨swappedPages_contiguous, splitArchive_holdsFile, by decide, ?_, ?_⟩ <;> decide +kernel

end DevopsBroker.Compress
