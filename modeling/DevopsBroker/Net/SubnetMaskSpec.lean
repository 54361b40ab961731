import DevopsBroker.Net.IPv4AddressSpec

/-!
# Subnet masks and routing prefixes

Both entries of `.subnetMask` make the mask of the first `cidrSuffix` bits, in network byte order,
except that the processor takes a shift by 32 for one by 0: **`subnetMask_masks_iff`**. A text never
gets there with the suffix `0`.
-/

namespace DevopsBroker.Net

open DevopsBroker.Lib

/-- A bit of four bytes in a row. Bit `0` is the highest one of the first byte. -/
def networkBit (word : UInt32) (i : Nat) : Bool := word.toNat.testBit (8 * (i / 8) + (7 - i % 8))

/-- The structure has an address with its suffix, the mask of that many bits, and the prefix. -/
structure Masks (ipv4Address : IPv4Address) (host suffix : UInt32) : Prop where
  address : ipv4Address.address = host
  cidrSuffix : ipv4Address.cidrSuffix = suffix
  subnetMask : ∀ i < 32, networkBit ipv4Address.subnetMask i = decide (i < suffix.toNat)
  routingPrefix : ipv4Address.routingPrefix = host &&& ipv4Address.subnetMask

/-! ## Network byte order -/

/-- A byte of the reversed register. -/
theorem reverse_charsOf (x : Nat) {k : Nat} (hk : k < 4) :
    (charsOf 4 x).reverse.getD k 0 = lowByte (x / 256 ^ (3 - k)) := by
  simp only [charsOf, Nat.div_div_eq_div_mul]
  obtain rfl | rfl | rfl | rfl : k = 0 ∨ k = 1 ∨ k = 2 ∨ k = 3 := by omega
  · rfl
  · rfl
  · rfl
  · rw [Nat.sub_self, Nat.pow_zero, Nat.div_one]
    rfl

/-- **`bswap`** puts the highest bit first. -/
theorem testBit_bswap (x : Nat) {i : Nat} (hi : i < 32) :
    (bswap x).testBit (8 * (i / 8) + (7 - i % 8)) = x.testBit (31 - i) := by
  have hpow : (256 : Nat) ^ (3 - i / 8) = 2 ^ (8 * (3 - i / 8)) := by rw [Nat.pow_mul]
  have hindex : 7 - i % 8 + 8 * (3 - i / 8) = 31 - i := by omega
  rw [bswap, testBit_littleEndian _ _ (by omega), reverse_charsOf x (by omega), lowByte,
    UInt8.toNat_ofNat', Nat.testBit_mod_two_pow, decide_eq_true (by omega), Bool.true_and, hpow,
    Nat.testBit_div_two_pow, hindex]

theorem networkBit_bswap {x : Nat} {i : Nat} (hi : i < 32) :
    networkBit (UInt32.ofNat (bswap x)) i = x.testBit (31 - i) := by
  have hlt : bswap x < 2 ^ 32 := by
    have h := littleEndian_lt (charsOf 4 x).reverse
    rw [List.length_reverse, show (charsOf 4 x).length = 4 from rfl] at h
    exact Nat.lt_of_lt_of_eq h (by decide)
  rw [networkBit, UInt32.toNat_ofNat', Nat.mod_eq_of_lt hlt, testBit_bswap x hi]

/-! ## The mask -/

/-- `not` of the bits below `ecx`. -/
theorem toNat_highBits {ecx : UInt32} (h : ecx.toNat < 32) :
    (~~~ ((1 <<< ecx) - 1 : UInt32)).toNat = 2 ^ 32 - (2 ^ ecx.toNat - 1 + 1) := by
  have hpow : 2 ^ ecx.toNat < 2 ^ 32 := Nat.pow_lt_pow_right (by decide) h
  have hpos : 0 < 2 ^ ecx.toNat := Nat.two_pow_pos _
  have hshift : (1 <<< ecx : UInt32).toNat = 2 ^ ecx.toNat := by
    rw [UInt32.toNat_shiftLeft, Nat.mod_eq_of_lt h, UInt32.toNat_one, Nat.one_shiftLeft,
      Nat.mod_eq_of_lt hpow]
  have hone : (1 : UInt32) ≤ 1 <<< ecx := by
    rw [UInt32.le_iff_toNat_le, hshift]
    exact hpos
  rw [UInt32.toNat_not, UInt32.toNat_sub_of_le _ _ hone, hshift]
  show 2 ^ 32 - 1 - (2 ^ ecx.toNat - 1) = _
  omega

/-- **The mask** of a suffix that is not `0`. -/
theorem networkBit_mask {address cidrSuffix : UInt32} (hne : cidrSuffix ≠ 0)
    (hle : cidrSuffix.toNat ≤ 32) {i : Nat} (hi : i < 32) :
    networkBit (maskAndPrefix address cidrSuffix).1 i = decide (i < cidrSuffix.toNat) := by
  have hpos : 0 < cidrSuffix.toNat := Nat.pos_of_ne_zero fun h => hne (UInt32.toNat_inj.mp h)
  have hecx : (0x20 - cidrSuffix).toNat = 32 - cidrSuffix.toNat :=
    UInt32.toNat_sub_of_le _ _ (UInt32.le_iff_toNat_le.mpr hle)
  unfold maskAndPrefix
  dsimp only
  split
  next hzero =>
    -- all 32 bits
    rw [← UInt32.toNat_inj, hecx] at hzero
    have hfull : cidrSuffix.toNat = 32 := by
      have := (show 32 - cidrSuffix.toNat = 0 from hzero)
      omega
    rw [networkBit, hfull, decide_eq_true hi]
    exact (Nat.testBit_two_pow_sub_one 32 _).trans (decide_eq_true (by omega))
  next _ =>
    have hlt : 2 ^ (32 - cidrSuffix.toNat) - 1 < 2 ^ 32 :=
      Nat.lt_of_lt_of_le (Nat.sub_lt (Nat.two_pow_pos _) Nat.one_pos)
        (Nat.pow_le_pow_right (by decide) (Nat.sub_le _ _))
    rw [networkBit_bswap hi, toNat_highBits (by omega), hecx, Nat.testBit_two_pow_sub_succ hlt,
      Nat.testBit_two_pow_sub_one, decide_eq_true (by omega : 31 - i < 32), Bool.true_and,
      ← decide_not, decide_eq_decide]
    omega

/-- A shift by 32 is none, and the mask has all of its bits. -/
theorem networkBit_mask_zero (address : UInt32) : networkBit (maskAndPrefix address 0).1 0 = true := by
  have hmask : (maskAndPrefix address 0).1 = (maskAndPrefix 0 0).1 := rfl
  rw [hmask]
  decide

/-- `deriveSubnetMask` masks for every suffix that is not `0`. -/
theorem deriveSubnetMask_iff {ipv4Address : IPv4Address} (hle : ipv4Address.cidrSuffix.toNat ≤ 32) :
    Masks (deriveSubnetMask ipv4Address) ipv4Address.address ipv4Address.cidrSuffix ↔
      ipv4Address.cidrSuffix ≠ 0 := by
  constructor
  · intro hmasks hzero
    have hbit := hmasks.subnetMask 0 (by decide)
    unfold deriveSubnetMask at hbit
    dsimp only at hbit
    rw [hzero, networkBit_mask_zero] at hbit
    exact absurd hbit (by decide)
  · intro hne
    exact ⟨rfl, rfl, fun _ => @networkBit_mask ipv4Address.address _ hne hle _, rfl⟩

/-- A text with a suffix that is not `0` stores all four fields. -/
theorem initIPv4Address_masks {mem : Mem} {p : Nat} {text : List UInt8}
    {address cidrSuffix : UInt32} (h : TextAt mem p text) (hipv4 : IsIPv4 text address cidrSuffix)
    (hne : cidrSuffix ≠ 0) (ipv4Address : IPv4Address) :
    (initIPv4Address mem p ipv4Address).1 = 0 ∧
      Masks (initIPv4Address mem p ipv4Address).2 address cidrSuffix := by
  obtain ⟨hzero, haddress, hsuffix⟩ := initIPv4Address_of_isIPv4 h hipv4 ipv4Address
  obtain ⟨q, tail, rfl, _, rfl, ⟨rfl, rfl⟩ | ⟨digits, rfl, hfield, htwo, hle, hvalue⟩⟩ := hipv4
  · exact absurd rfl hne
  · rw [initIPv4Address_suffix h (takenSuffix_of_le hfield htwo hle)] at hsuffix ⊢
    have hnonzero : octetValue digits % 256 ≠ 0 := by
      rw [octetValue_of_le hfield htwo, Nat.mod_eq_of_lt (by omega)]
      exact fun h => hne (UInt32.toNat_inj.mp (hvalue.trans h))
    rw [withSuffix, if_neg hnonzero] at hsuffix ⊢
    have hmasks := @deriveSubnetMask_iff { ipv4Address with
      address := q.address, cidrSuffix := UInt32.ofNat (octetValue digits) }
    dsimp only at hmasks
    have hfield : UInt32.ofNat (octetValue digits) = cidrSuffix := hsuffix
    rw [hfield] at hmasks ⊢
    exact ⟨rfl, (hmasks (by omega)).mpr hne⟩

/-! ## Both entries -/

/-- What both entries promise for the address and the suffix of a structure: `deriveSubnetMask` on
it, and `initIPv4Address` on their text, whatever it stores into. -/
def BothMask (ipv4Address : IPv4Address) : Prop :=
  Masks (deriveSubnetMask ipv4Address) ipv4Address.address ipv4Address.cidrSuffix ∧
    ∀ (mem : Mem) (p : Nat) (text : List UInt8) (stored : IPv4Address), TextAt mem p text →
      IsIPv4 text ipv4Address.address ipv4Address.cidrSuffix → ipv4Address.cidrSuffix ≠ 0 →
      (initIPv4Address mem p stored).1 = 0 ∧
        Masks (initIPv4Address mem p stored).2 ipv4Address.address ipv4Address.cidrSuffix

/-- **The masks are right exactly when the suffix is not `0`.** -/
theorem subnetMask_masks_iff {ipv4Address : IPv4Address} (hle : ipv4Address.cidrSuffix.toNat ≤ 32) :
    BothMask ipv4Address ↔ ipv4Address.cidrSuffix ≠ 0 := by
  constructor
  · rintro ⟨hderive, _⟩
    exact (deriveSubnetMask_iff hle).mp hderive
  · intro hne
    exact ⟨(deriveSubnetMask_iff hle).mpr hne, fun _ _ _ stored htext hipv4 _ =>
      initIPv4Address_masks htext hipv4 hne stored⟩

/-- `10.0.0.1/8`. -/
theorem subnetMask_masks_iff_eight :
    BothMask ⟨0x0100000A, 8, 0, 0⟩ ↔ (8 : UInt32) ≠ 0 :=
  @subnetMask_masks_iff ⟨0x0100000A, 8, 0, 0⟩ (by decide)

/-- The mask of `10.0.0.1/0` is `255.255.255.255`. -/
theorem deriveSubnetMask_allOnes :
    deriveSubnetMask ⟨0x0100000A, 0, 0, 0⟩ = ⟨0x0100000A, 0, 0xFFFFFFFF, 0x0100000A⟩ ∧
      ¬ Masks (deriveSubnetMask ⟨0x0100000A, 0, 0, 0⟩) 0x0100000A 0 :=
  ⟨by decide, fun hmasks => absurd (hmasks.subnetMask 0 (by decide)) (by decide)⟩

end DevopsBroker.Net
