import Mathlib.Data.Nat.Digits.Lemmas
import DevopsBroker.Lib.BitStream

/-!
# Numbers in memory

The number that some bytes stand for, lowest byte first. `orBytes` assembles it, and a
number of known length determines its bytes.
-/

namespace DevopsBroker.Lib

/-- The number that some bytes stand for, lowest byte first. -/
def littleEndian (bytes : List UInt8) : Nat := Nat.ofDigits 256 (bytes.map UInt8.toNat)

@[simp] theorem littleEndian_cons (b : UInt8) (bytes : List UInt8) :
    littleEndian (b :: bytes) = b.toNat + 256 * littleEndian bytes :=
  Nat.ofDigits_cons

theorem byte_lt_of_mem {bytes : List UInt8} {d : Nat} (h : d ∈ bytes.map UInt8.toNat) :
    d < 256 := by
  obtain ⟨b, _, rfl⟩ := List.mem_map.mp h
  exact b.toNat_lt

theorem littleEndian_lt (bytes : List UInt8) : littleEndian bytes < 256 ^ bytes.length := by
  have h : Nat.ofDigits 256 (bytes.map UInt8.toNat) < 256 ^ (bytes.map UInt8.toNat).length :=
    Nat.ofDigits_lt_base_pow_length (by omega) fun _ => byte_lt_of_mem
  rw [List.length_map] at h
  exact h

/-- A bit of the number is one of its bytes. -/
theorem testBit_littleEndian (bytes : List UInt8) :
    ∀ (k : Nat) {j : Nat}, j < 8 →
      (littleEndian bytes).testBit (8 * k + j) = (bytes.getD k 0).toNat.testBit j := by
  induction bytes with
  | nil =>
    intro k j _
    exact (Nat.zero_testBit _).trans (Nat.zero_testBit _).symm
  | cons b bytes ih =>
    intro k j hj
    have hsum : b.toNat + 256 * littleEndian bytes = 2 ^ 8 * littleEndian bytes + b.toNat :=
      Nat.add_comm ..
    rw [littleEndian_cons, hsum, Nat.testBit_two_pow_mul_add _ b.toNat_lt]
    cases k with
    | zero => rw [Nat.mul_zero, Nat.zero_add, if_pos hj, List.getD_cons_zero]
    | succ k =>
      rw [if_neg (by omega), show 8 * (k + 1) + j - 8 = 8 * k + j by omega, ih k hj,
        List.getD_cons_succ]

/-- Numbers of one length differ when their bytes do. -/
theorem littleEndian_injective {xs ys : List UInt8} (hlength : xs.length = ys.length)
    (h : littleEndian xs = littleEndian ys) : xs = ys := by
  have hdigits := Nat.ofDigits_inj_of_len_eq (b := 256) (by decide)
    (by rw [List.length_map, List.length_map, hlength]) (fun _ => byte_lt_of_mem)
    (fun _ => byte_lt_of_mem) h
  exact List.map_injective_iff.mpr (fun _ _ => UInt8.toNat_inj.mp) hdigits

/-- **Assembling bytes with `orBytes`.** -/
theorem orBytes_eq (mem : Mem) :
    ∀ (k next i bits : Nat), bits < 256 ^ i →
      orBytes mem k next i bits = bits + 256 ^ i * littleEndian (bytesAt mem next k) := by
  intro k
  induction k with
  | zero => intro next i bits _; rfl
  | succ k ih =>
    intro next i bits h
    have hpow : 256 ^ i = 2 ^ (i * 8) := by rw [Nat.mul_comm, Nat.pow_mul]
    have hbyte := (mem next).toNat_lt
    have hor : bits ||| (mem next).toNat <<< (i * 8) = bits + 256 ^ i * (mem next).toNat := by
      rw [Nat.lor_comm, ← Nat.shiftLeft_add_eq_or_of_lt (hpow ▸ h), Nat.shiftLeft_eq, hpow]
      ring
    have hlt : bits + 256 ^ i * (mem next).toNat < 256 ^ (i + 1) := by
      calc bits + 256 ^ i * (mem next).toNat < 256 ^ i + 256 ^ i * (mem next).toNat := by omega
        _ = 256 ^ i * ((mem next).toNat + 1) := by ring
        _ ≤ 256 ^ i * 256 := Nat.mul_le_mul_left _ hbyte
        _ = 256 ^ (i + 1) := (Nat.pow_succ ..).symm
    rw [orBytes, hor, ih _ _ _ hlt, bytesAt_succ, littleEndian_cons, Nat.pow_succ]
    ring

theorem orBytes_eq_littleEndian (mem : Mem) (k next : Nat) :
    orBytes mem k next 0 0 = littleEndian (bytesAt mem next k) := by
  rw [orBytes_eq mem k next 0 0 (by omega), Nat.pow_zero, Nat.one_mul, Nat.zero_add]

/-- The bytes of memory, one by one. -/
theorem bytesAt_inj {mem mem' : Mem} {p q n : Nat} :
    bytesAt mem p n = bytesAt mem' q n ↔ ∀ k < n, mem (p + k) = mem' (q + k) := by
  unfold bytesAt
  rw [List.map_inj_left]
  exact ⟨fun h k hk => h k (List.mem_range.mpr hk), fun h k hk => h k (List.mem_range.mp hk)⟩

/-- Equal numbers in memory have equal bytes. -/
theorem orBytes_injective {mem mem' : Mem} {p q n : Nat}
    (h : orBytes mem n p 0 0 = orBytes mem' n q 0 0) : ∀ k < n, mem (p + k) = mem' (q + k) := by
  rw [orBytes_eq_littleEndian, orBytes_eq_littleEndian] at h
  exact bytesAt_inj.mp (littleEndian_injective (by rw [bytesAt_length, bytesAt_length]) h)

theorem orBytes_lt (mem : Mem) (n p : Nat) : orBytes mem n p 0 0 < 256 ^ n := by
  have h := littleEndian_lt (bytesAt mem p n)
  rw [bytesAt_length] at h
  rw [orBytes_eq_littleEndian]
  exact h

end DevopsBroker.Lib
