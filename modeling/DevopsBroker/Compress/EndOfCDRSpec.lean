import DevopsBroker.Compress.CentralDirectorySpec
import DevopsBroker.Io.AsyncRuns

/-!
# Finding the end of central directory record

A file ends in a record where the comment that the record announces reaches the end of the
file. `findEndOfCDR` goes back from the last place that has room for a record, and takes the
first signature that it meets. **It finds the record exactly where something comes in front
of it or behind it, and no signature follows in the comment** (`findEndOfCDR_iff`).
-/

namespace DevopsBroker.Compress

open DevopsBroker.Lib DevopsBroker.Io

/-- There is a signature at byte `p` of the file. -/
def SignatureAt (file : List UInt8) (p : Nat) : Prop :=
  numberAt file p 4 = ZIP_END_OF_CDR_SIG.toNat

instance (file : List UInt8) (p : Nat) : Decidable (SignatureAt file p) :=
  inferInstanceAs (Decidable (_ = _))

/-- The file ends in a record at byte `p`: its comment is what is left of the file. -/
structure EndsInRecord (file : List UInt8) (p : Nat) : Prop where
  signature : SignatureAt file p
  comment : p + ZIP_END_OF_CDR_SIZE + numberAt file (p + 20) 2 = file.length

/-- The signatures of a file in memory. -/
theorem load32_eq_sig_iff {mem : Mem} {page : Nat} {file : List UInt8} {p : Nat}
    (hmem : bytesAt mem page file.length = file) (hp : p + 4 ≤ file.length) :
    load32 mem (page + p) = ZIP_END_OF_CDR_SIG ↔ SignatureAt file p := by
  have hnumber := numberAt_bytesAt mem page hp
  rw [hmem] at hnumber
  unfold SignatureAt
  rw [hnumber, ← load32_toNat, UInt32.toNat_inj]

/-- **The scan stops at the last signature**: at a given one, if no other one comes behind it. -/
theorem scanEndOfCDR_eq_some_iff {mem : Mem} {buffer p : Nat}
    (hsig : load32 mem (buffer + p) = ZIP_END_OF_CDR_SIG) :
    ∀ {n : Nat}, p ≤ n →
      (scanEndOfCDR mem buffer n = some (buffer + p) ↔
        ∀ q, p < q → q ≤ n → load32 mem (buffer + q) ≠ ZIP_END_OF_CDR_SIG) := by
  intro n
  induction n with
  | zero =>
    intro hp
    obtain rfl : p = 0 := Nat.le_zero.mp hp
    rw [Nat.add_zero] at hsig ⊢
    refine iff_of_true (if_pos hsig) ?_
    intro q hq hle
    omega
  | succ n ih =>
    intro hp
    rw [scanEndOfCDR]
    split
    next hhere =>
      -- the scan stops here
      rw [Option.some_inj]
      constructor
      · intro hsame q hq hle
        omega
      · intro hnone
        by_cases hlast : p = n + 1
        · rw [hlast]
        · exact absurd hhere (hnone (n + 1) (by omega) (Nat.le_refl _))
    next hno =>
      have hbelow : p ≠ n + 1 := by
        intro h
        rw [h] at hsig
        exact hno hsig
      rw [ih (by omega)]
      constructor
      · intro hnone q hq hle
        by_cases hlast : q = n + 1
        · rw [hlast]
          exact hno
        · exact hnone q hq (by omega)
      · intro hnone q hq hle
        exact hnone q hq (by omega)

/-- What `findEndOfCDR` makes of a file of at most a page. -/
theorem findEndOfCDR_eq {φ : Type} [DecidableEq φ] {mem : Mem} {s s' : Aio φ} {aioFile : φ}
    {bufferList : FileBufferList} {page : Nat} {kernel : Io.Kernel} {size : Nat}
    (hsize : size ≤ MEMORY_PAGE_SIZE) (hoffset : (s.files aioFile).offset = 0)
    (hread : s.readFileBuffer aioFile size page kernel = some (some ⟨page, 0, 0, size⟩, s')) :
    (findEndOfCDR mem s aioFile size bufferList page kernel).map Prod.fst =
      some (if size > ZIP_END_OF_CDR_SIZE then
        scanEndOfCDR mem page (size - ZIP_END_OF_CDR_SIZE) else none) := by
  have hpage : MEMORY_PAGE_SIZE = 4096 := rfl
  have hlength : ((size - 0 : Int) % 2 ^ 32).toNat = size := by omega
  unfold findEndOfCDR
  dsimp only
  rw [if_neg (Nat.not_lt.mpr hsize), hoffset, hlength, hread]
  rfl

/-- **`findEndOfCDR` finds the record that a file ends in exactly where it is not the whole file
and its comment has no signature with room for a record behind it.** -/
theorem findEndOfCDR_iff {φ : Type} [DecidableEq φ] (mem : Mem) (s : Aio φ) (aioFile : φ)
    (bufferList : FileBufferList) (page : Nat) (kernel : Io.Kernel) {file : List UInt8} {p : Nat}
    {s' : Aio φ} (hsize : file.length ≤ MEMORY_PAGE_SIZE)
    (hoffset : (s.files aioFile).offset = 0)
    (hread : s.readFileBuffer aioFile file.length page kernel =
      some (some ⟨page, 0, 0, file.length⟩, s'))
    (hmem : bytesAt mem page file.length = file) (hrecord : EndsInRecord file p) :
    (findEndOfCDR mem s aioFile file.length bufferList page kernel).map Prod.fst =
        some (some (page + p)) ↔
      file.length ≠ ZIP_END_OF_CDR_SIZE ∧
        ∀ q, p < q → q + ZIP_END_OF_CDR_SIZE ≤ file.length → ¬ SignatureAt file q := by
  have hcomment := hrecord.comment
  have hrecordSize : ZIP_END_OF_CDR_SIZE = 22 := rfl
  rw [findEndOfCDR_eq hsize hoffset hread, Option.some_inj]
  split
  next hmore =>
    have hsig := (load32_eq_sig_iff hmem (by omega)).mpr hrecord.signature
    rw [scanEndOfCDR_eq_some_iff hsig (by omega)]
    constructor
    · intro hnone
      refine ⟨by omega, ?_⟩
      intro q hq hle hat
      exact hnone q hq (by omega) ((load32_eq_sig_iff hmem (by omega)).mpr hat)
    · intro ⟨_, hnone⟩ q hq hle hat
      exact hnone q hq (by omega) ((load32_eq_sig_iff hmem (by omega)).mp hat)
  next hfew =>
    refine iff_of_false nofun ?_
    intro ⟨hne, _⟩
    omega

/-- A byte, and a record without a comment. -/
def recordBehindByte : List UInt8 := [0, 0x50, 0x4b, 0x05, 0x06] ++ List.replicate 18 0

/-- The file in the page at 4096. -/
def pageOf (file : List UInt8) : Mem := fun a => file.getD (a - 4096) 0

theorem findEndOfCDR_iff_behindByte :
    (findEndOfCDR (pageOf recordBehindByte) (Aio.start 8) () recordBehindByte.length
        initFileBufferList 4096 ⟨1, some [⟨0, 23⟩]⟩).map Prod.fst = some (some (4096 + 1)) ↔
      recordBehindByte.length ≠ ZIP_END_OF_CDR_SIZE ∧
        ∀ q, 1 < q → q + ZIP_END_OF_CDR_SIZE ≤ recordBehindByte.length →
          ¬ SignatureAt recordBehindByte q :=
  findEndOfCDR_iff (pageOf recordBehindByte) (Aio.start 8) () initFileBufferList 4096
    ⟨1, some [⟨0, 23⟩]⟩ (by decide) rfl rfl (by decide) ⟨by decide, by decide⟩

/-- The archive without members, a record and nothing else: it is not found. -/
theorem not_findEndOfCDR_recordAlone :
    let file : List UInt8 := [0x50, 0x4b, 0x05, 0x06] ++ List.replicate 18 0
    EndsInRecord file 0 ∧ bytesAt (pageOf file) 4096 file.length = file ∧
      (findEndOfCDR (pageOf file) (Aio.start 8) () file.length initFileBufferList 4096
        ⟨1, some [⟨0, 22⟩]⟩).map Prod.fst ≠ some (some (4096 + 0)) :=
  ⟨⟨by decide, by decide⟩, by decide, by decide⟩

end DevopsBroker.Compress
