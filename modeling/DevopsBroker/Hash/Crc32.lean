import DevopsBroker.Lib.BitStream
import DevopsBroker.Lib.Crc

/-!
# `hash/crc32.linux-x86_64.asm`: CRC-32

`crc32` looks up half a byte at a time, and loads the buffer eight bytes at a time.
The last load is for the bytes that are left over, and happens also when there are
none: what lies behind the buffer is read, but not used.

Mirroring notes vs the assembly source:
- `rcx` is a natural number below `2 ^ 64`; `cl` is its low byte.
- The loop over whole words runs `length / 8` times, and `sil`, the low byte of what
  is left of `length`, is `length % 8` then.
-/

namespace DevopsBroker.Hash

open DevopsBroker.Lib

/-- `halfByteLUT`. -/
def halfByteLUT : Array (BitVec 32) :=
  #[0x00000000, 0x1DB71064, 0x3B6E20C8, 0x26D930AC, 0x76DC4190, 0x6B6B51F4, 0x4DB26158,
    0x5005713C, 0xEDB88320, 0xF00F9344, 0xD6D6A3E8, 0xCB61B38C, 0x9B64C2B0, 0x86D3D2D4,
    0xA00AE278, 0xBDBDF21C]

/-- `lut[(crc ^ cl) & 0x0F] ^ (crc >> 4)`. -/
def halfByte (eax : BitVec 32) (cl : Nat) : BitVec 32 :=
  let index := (eax ^^^ BitVec.ofNat 32 cl) &&& 0x0F
  halfByteLUT.getD index.toNat 0 ^^^ eax >>> 4

/-- `dl` rounds over the low bytes of `rcx`. -/
def crcBytes : Nat → Nat → BitVec 32 → BitVec 32
  | 0, _, eax => eax
  | dl + 1, rcx, eax =>
    let cl := rcx % 2 ^ 8
    crcBytes dl (rcx / 2 ^ 8) (halfByte (halfByte eax cl) (cl / 2 ^ 4))

/-- The loop over whole words, from address `rdi` on. -/
def crcWords (mem : Mem) : Nat → Nat → BitVec 32 → BitVec 32
  | 0, _, eax => eax
  | n + 1, rdi, eax => crcWords mem n (rdi + 8) (crcBytes 8 (orBytes mem 8 rdi 0 0) eax)

/-- `b7e0468d_crc32`. -/
def crc32 (mem : Mem) (buffer length : Nat) (crc : BitVec 32) : BitVec 32 :=
  let words := length / 8
  let eax := crcWords mem words buffer (~~~ crc)
  ~~~ (crcBytes (length % 8) (orBytes mem 8 (buffer + 8 * words) 0 0) eax)

/-! ## The checksum it computes -/

/-- The polynomial of CRC-32, bits reversed. -/
def crc32Polynomial : BitVec 32 := 0xEDB88320

/-- A table entry stands for four division steps. -/
theorem halfByteLUT_getD : ∀ i < 16,
    halfByteLUT.getD i 0 = crcBits crc32Polynomial 4 (BitVec.ofNat 32 i) := by
  decide

/-- Half a byte is four division steps; the rest of the byte is not taken in yet. -/
theorem halfByte_eq (eax : BitVec 32) (cl : Nat) :
    halfByte eax cl = crcBits crc32Polynomial 4 (eax ^^^ BitVec.ofNat 32 cl)
      ^^^ BitVec.ofNat 32 cl >>> 4 := by
  have hmask : ∀ i < 32, (0x0F : BitVec 32).getLsbD i = decide (i < 4) := by decide
  have hindex : ((eax ^^^ BitVec.ofNat 32 cl) &&& 0x0F).toNat < 16 := by
    rw [BitVec.toNat_and]
    exact Nat.lt_of_le_of_lt Nat.and_le_right (by decide)
  unfold halfByte
  dsimp only
  rw [halfByteLUT_getD _ hindex, BitVec.ofNat_toNat, BitVec.setWidth_eq,
    crcBits_table _ 4 (eax ^^^ BitVec.ofNat 32 cl) 0x0F hmask, BitVec.ushiftRight_xor_distrib,
    BitVec.xor_assoc, BitVec.xor_assoc, BitVec.xor_self, BitVec.xor_zero]

/-- Both halves of a byte. -/
theorem halfByte_halfByte (eax : BitVec 32) {cl : Nat} (hcl : cl < 2 ^ 8) :
    halfByte (halfByte eax cl) (cl / 2 ^ 4) =
      crcBits crc32Polynomial 8 (eax ^^^ BitVec.ofNat 32 cl) := by
  have hhigh : BitVec.ofNat 32 cl >>> 4 = BitVec.ofNat 32 (cl / 2 ^ 4) := by
    refine BitVec.eq_of_toNat_eq ?_
    rw [BitVec.toNat_ushiftRight, BitVec.toNat_ofNat, BitVec.toNat_ofNat,
      Nat.shiftRight_eq_div_pow, Nat.mod_eq_of_lt (by omega), Nat.mod_eq_of_lt (by omega)]
  have hzero : BitVec.ofNat 32 (cl / 2 ^ 4) >>> 4 = 0#32 := by
    refine BitVec.eq_of_toNat_eq ?_
    rw [BitVec.toNat_ushiftRight, BitVec.toNat_ofNat, Nat.shiftRight_eq_div_pow,
      Nat.mod_eq_of_lt (by omega), Nat.div_eq_of_lt (by omega)]
    rfl
  rw [halfByte_eq, halfByte_eq, hhigh, hzero, BitVec.xor_zero, BitVec.xor_assoc, BitVec.xor_self,
    BitVec.xor_zero, crcBits_add _ 4 4]

/-- The bytes of a word, lowest first. -/
theorem crcBytes_eq (mem : Mem) :
    ∀ (dl : Nat) {address rcx : Nat} (eax : BitVec 32),
      (∀ i < 8 * dl, rcx.testBit i = bitAt (fun a => mem (address + a)) i) →
      crcBytes dl rcx eax = (bytesAt mem address dl).foldl (crcByte crc32Polynomial) eax := by
  intro dl
  induction dl with
  | zero => intro address rcx eax _; rfl
  | succ dl ih =>
    intro address rcx eax h
    have hbyte : rcx % 2 ^ 8 = (mem address).toNat := by
      refine Nat.eq_of_testBit_eq fun i => ?_
      rw [Nat.testBit_mod_two_pow]
      by_cases hi : i < 8
      · rw [decide_eq_true hi, h i (by omega), bitAt, Nat.div_eq_of_lt hi, Nat.mod_eq_of_lt hi]
        rfl
      · rw [decide_eq_false hi, testBit_byte_ge _ (by omega)]
        rfl
    have hrest : ∀ i < 8 * dl,
        (rcx / 2 ^ 8).testBit i = bitAt (fun a => mem (address + 1 + a)) i := by
      intro i hi
      rw [← Nat.shiftRight_eq_div_pow, Nat.testBit_shiftRight, h (8 + i) (by omega)]
      unfold bitAt
      rw [show (8 + i) / 8 = 1 + i / 8 by omega, show (8 + i) % 8 = i % 8 by omega]
      dsimp only
      rw [Nat.add_assoc]
    rw [crcBytes, bytesAt_succ, List.foldl_cons]
    rw [halfByte_halfByte eax (Nat.mod_lt _ (by omega)), ih _ hrest, hbyte]
    rfl

/-- The bits of a word of eight bytes. -/
theorem testBit_word (mem : Mem) (address : Nat) {i : Nat} (hi : i < 64) :
    (orBytes mem 8 address 0 0).testBit i = bitAt (fun a => mem (address + a)) i := by
  rw [testBit_orBytes, Nat.zero_testBit, Bool.false_or, decide_eq_true (by omega),
    decide_eq_true (by omega)]
  rfl

theorem crcWords_eq (mem : Mem) :
    ∀ (n : Nat) {rdi : Nat} (eax : BitVec 32),
      crcWords mem n rdi eax = (bytesAt mem rdi (8 * n)).foldl (crcByte crc32Polynomial) eax := by
  intro n
  induction n with
  | zero => intro rdi eax; rfl
  | succ n ih =>
    intro rdi eax
    have hword := crcBytes_eq mem 8 eax fun i hi => testBit_word mem rdi hi
    rw [crcWords, ih, hword, ← List.foldl_append, ← bytesAt_add, Nat.mul_succ, Nat.add_comm 8]

/-- **`crc32` extends the CRC-32 of what came before by the bytes of the buffer.** -/
theorem crc32_eq (mem : Mem) (buffer length : Nat) (crc : BitVec 32) :
    crc32 mem buffer length crc =
      crcUpdate crc32Polynomial crc (bytesAt mem buffer length) := by
  have hmod : length % 8 < 8 := Nat.mod_lt _ (by omega)
  have htail := crcBytes_eq mem (length % 8) (crcWords mem (length / 8) buffer (~~~ crc))
    fun i hi => testBit_word mem (buffer + 8 * (length / 8)) (by omega)
  unfold crc32 crcUpdate
  dsimp only
  rw [htail, crcWords_eq, ← List.foldl_append, ← bytesAt_add, Nat.div_add_mod]

/-- **`b7e0468d_crc32` is the reflected CRC-32, continued from any checksum**, and so a
buffer can be split anywhere. -/
theorem crc32_continues (mem : Mem) (buffer length : Nat) (crc : BitVec 32) :
    crc32 mem buffer length crc =
        crcUpdate crc32Polynomial crc (bytesAt mem buffer length) ∧
      ∀ a b, crc32 mem buffer (a + b) crc =
        crc32 mem (buffer + a) b (crc32 mem buffer a crc) := by
  refine ⟨crc32_eq mem buffer length crc, ?_⟩
  intro a b
  rw [crc32_eq, crc32_eq, crc32_eq, bytesAt_add, crcUpdate_append]

/-- The check value of CRC-32: the checksum of `"123456789"`. -/
example : crcOf crc32Polynomial [0x31, 0x32, 0x33, 0x34, 0x35, 0x36, 0x37, 0x38, 0x39] =
    0xCBF43926 := by
  decide +kernel

end DevopsBroker.Hash
