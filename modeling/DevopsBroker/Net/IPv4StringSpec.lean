import DevopsBroker.Net.IPv4AddressSpec

/-!
# IPv4 addresses written and read back

`convertOctetToString` stores four bytes whatever the octet is: its digits, the character
that ends it, and some bytes that the next store, or nobody, overwrites. `Written` is the
text that stays. **`initIPv4Address_extractString`**: every address and every suffix up to
32 comes back.
-/

namespace DevopsBroker.Net

open DevopsBroker.Lib

/-! ## Octets -/

/-- `shl ecx, 8` drops the last of four characters. -/
theorem pushChar_littleEndian {chars : List UInt8} (h : chars.length = 4) (ch : Nat) :
    pushChar (littleEndian chars) ch = littleEndian (UInt8.ofNat ch :: chars.take 3) := by
  match chars, h with
  | [a, b, c, d], _ =>
    have ha := a.toNat_lt
    have hb := b.toNat_lt
    have hc := c.toNat_lt
    simp only [pushChar, littleEndian_cons, littleEndian_nil, List.take_succ_cons, List.take_zero,
      UInt8.toNat_ofNat']
    omega

/-- The text that is in the buffer so far, with nothing behind it that counts. -/
structure Written (st : TextState) (buffer : Nat) (text : List UInt8) : Prop where
  bytes : bytesAt st.mem buffer text.length = text
  rdx : st.rdx = buffer + text.length
  ecx : ∃ chars, chars.length = 4 ∧ st.ecx = littleEndian chars

/-- A store of digits, a last byte, and what else is in `ecx`. -/
theorem Written.store {st : TextState} {buffer : Nat} {text : List UInt8}
    (h : Written st buffer text) {digits surplus : List UInt8} {lastByte : UInt8}
    (hlen : (digits ++ lastByte :: surplus).length = 4) {ecx : Nat}
    (hecx : ecx = littleEndian (digits ++ lastByte :: surplus)) :
    Written
      { mem := storeBytes st.mem st.rdx (charsOf 4 ecx)
        rdx := st.rdx + (digits.length + 1)
        ecx := ecx } buffer (text ++ (digits ++ [lastByte])) where
  bytes := by
    have hbytes := @bytesAt_storeBytes st.mem buffer text (digits ++ [lastByte]) surplus h.bytes
    rw [hecx, charsOf_littleEndian (Nat.le_of_eq hlen.symm), List.take_of_length_le (by omega), h.rdx]
    rw [List.append_assoc, List.singleton_append] at hbytes
    exact hbytes
  rdx := by
    show st.rdx + (digits.length + 1) = _
    rw [h.rdx, List.length_append, List.length_append, List.length_singleton, Nat.add_assoc]
  ecx := ⟨_, hlen, hecx⟩

/-- The digits of an octet. -/
theorem numeral_octet {value : Nat} (h : value < 256) :
    numeral value =
      if 100 ≤ value then [digitOf (value / 100), digitOf (value / 10 % 10), digitOf (value % 10)]
      else if 10 ≤ value then [digitOf (value / 10), digitOf (value % 10)]
      else [digitOf value] := by
  split
  next hge =>
    rw [numeral_of_le (by omega), numeral_of_le (by omega), numeral_of_lt (by omega),
      Nat.div_div_eq_div_mul]
    rfl
  next _ =>
    split
    next hge =>
      rw [numeral_of_le hge, numeral_of_lt (by omega)]
      rfl
    next hlt => exact numeral_of_lt (by omega)

/-- **An octet and the character behind it.** -/
theorem convertOctetToString_written {st : TextState} {buffer : Nat} {text : List UInt8}
    (h : Written st buffer text) {value : Nat} (hvalue : value < 256) (lastByte : UInt8) :
    ∃ st', convertOctetToString st value lastByte = some st' ∧
      Written st' buffer (text ++ (numeral value ++ [lastByte])) := by
  obtain ⟨chars, hlen, hecx⟩ := h.ecx
  obtain ⟨a, b, c, d, rfl⟩ : ∃ a b c d, chars = [a, b, c, d] := by
    match chars, hlen with
    | [a, b, c, d], _ => exact ⟨a, b, c, d, rfl⟩
  have hlast : st.ecx / 256 * 256 + lastByte.toNat = littleEndian [lastByte, b, c, d] := by
    rw [hecx, littleEndian_shift, littleEndian_cons, List.tail_cons, Nat.mul_comm, Nat.add_comm]
  have hdigit (n : Nat) : UInt8.ofNat (n + ZERO) = digitOf n := by
    rw [digitOf, ZERO, Nat.add_comm]
  have hbyte : value % 256 = value := Nat.mod_eq_of_lt hvalue
  have hword : value % 2 ^ 16 = value := Nat.mod_eq_of_lt (by omega)
  rw [numeral_octet hvalue]
  unfold convertOctetToString pushDigit
  simp only [hbyte, hword, hlast]
  have hsmall : value / 10 < 256 := by omega
  have hsmaller : value / 10 / 10 < 256 := by omega
  split
  next hge =>
    dsimp only [Option.bind_eq_bind, Option.bind_some]
    rw [if_pos hsmaller]
    dsimp only [Option.bind_some]
    refine ⟨_, rfl, @Written.store st buffer text h [_, _, _] [] lastByte rfl _ ?_⟩
    rw [Nat.mod_eq_of_lt hsmaller, pushChar_littleEndian rfl, hdigit, pushChar_littleEndian rfl,
      hdigit, pushChar_littleEndian rfl, hdigit, Nat.div_div_eq_div_mul]
    rfl
  next _ =>
    split
    next hge =>
      dsimp only [Option.bind_eq_bind, Option.bind_some]
      refine ⟨_, rfl, @Written.store st buffer text h [_, _] [b] lastByte rfl _ ?_⟩
      rw [Nat.mod_eq_of_lt hsmall, pushChar_littleEndian rfl, hdigit, pushChar_littleEndian rfl,
        hdigit]
      rfl
    next hlt =>
      dsimp only [Option.bind_eq_bind, Option.bind_some]
      refine ⟨_, rfl, @Written.store st buffer text h [_] [b, c] lastByte rfl _ ?_⟩
      rw [hbyte, pushChar_littleEndian rfl, hdigit]
      rfl

/-! ## Addresses -/

/-- The digits of a byte. -/
theorem isField_numeral {value : Nat} (h : value < 256) : IsField (numeral value) where
  decimal := numeral_isDecimal value
  pos := numeral_length_pos value
  le := @numeral_length_le value 2 (by omega)

/-- The octets of an address, in digits. -/
def quadOf (address : Nat) : Quad where
  first := numeral (address % 256)
  second := numeral (address / 256 % 256)
  third := numeral (address / 256 / 256 % 256)
  fourth := numeral (address / 256 / 256 / 256 % 256)
  isField := by
    simp only [List.mem_cons, List.not_mem_nil, or_false]
    rintro _ (rfl | rfl | rfl | rfl) <;> exact isField_numeral (Nat.mod_lt _ (by omega))

theorem quadOf_address (address : UInt32) : (quadOf address.toNat).address = address := by
  have hlt := address.toNat_lt
  rw [← UInt32.toNat_inj, Quad.address, UInt32.toNat_ofNat']
  simp only [Quad.all, quadOf, List.map_cons, List.map_nil, decimal_numeral, littleEndian_cons,
    littleEndian_nil, UInt8.toNat_ofNat']
  omega

theorem quadOf_le (address : Nat) : ∀ digits ∈ (quadOf address).all, decimal digits ≤ 255 := by
  simp only [Quad.all, quadOf, List.mem_cons, List.not_mem_nil, or_false]
  rintro _ (rfl | rfl | rfl | rfl) <;>
    exact Nat.le_of_lt_succ (by rw [decimal_numeral]; exact Nat.mod_lt _ (by omega))

/-- The text of an address, with a suffix or without one. -/
def addressText (address : Nat) (suffix : Option Nat) : List UInt8 :=
  (quadOf address).text (match suffix with
    | none => []
    | some suffix => 0x2F :: numeral suffix)

/-- No character of it is `NUL`. -/
theorem addressText_noNul (address : Nat) (suffix : Option Nat) : 0 ∉ addressText address suffix := by
  have hnumeral (value : Nat) : 0 ∉ numeral value :=
    fun hmem => (numeral_isDecimal value 0 hmem).ne_zero rfl
  cases suffix <;> simp [addressText, Quad.text, quadOf, hnumeral]

/-- A text with a `NUL` behind it. -/
theorem Written.textAt {st : TextState} {buffer : Nat} {text : List UInt8}
    (h : Written st buffer (text ++ [0])) (hnul : 0 ∉ text) : TextAt st.mem buffer text where
  noNul := hnul
  bytes := by
    have hbytes := h.bytes
    rw [List.length_append, List.length_singleton] at hbytes
    exact hbytes

/-- **`extractString` writes the text of the address**, and of the suffix when it is asked for. -/
theorem extractString_textAt (mem : Mem) (ipv4Address : IPv4Address)
    (h : ipv4Address.cidrSuffix.toNat < 256) (buffer : Nat) :
    (∃ mem', extractString mem ipv4Address IPV4_ADDR buffer = some mem' ∧
      TextAt mem' buffer (addressText ipv4Address.address.toNat none)) ∧
    ∃ mem', extractString mem ipv4Address IVP4_CIDR_SUFFIX buffer = some mem' ∧
      TextAt mem' buffer
        (addressText ipv4Address.address.toNat (some ipv4Address.cidrSuffix.toNat)) := by
  have hbyte (n : Nat) : n % 256 < 256 := Nat.mod_lt n (by omega)
  have hlt := ipv4Address.address.toNat_lt
  have hfourth : ipv4Address.address.toNat / 256 / 256 / 256 < 256 := by omega
  have hstart : Written { mem := mem, rdx := buffer, ecx := 0 } buffer [] :=
    ⟨rfl, rfl, [0, 0, 0, 0], rfl, rfl⟩
  obtain ⟨st₁, hrun₁, hwritten₁⟩ := convertOctetToString_written hstart
    (hbyte ipv4Address.address.toNat) 0x2E
  obtain ⟨st₂, hrun₂, hwritten₂⟩ := convertOctetToString_written hwritten₁
    (hbyte (ipv4Address.address.toNat / 256)) 0x2E
  obtain ⟨st₃, hrun₃, hwritten₃⟩ := convertOctetToString_written hwritten₂
    (hbyte (ipv4Address.address.toNat / 256 / 256)) 0x2E
  have hmod : ipv4Address.address.toNat / 256 / 256 / 256 % 256 =
      ipv4Address.address.toNat / 256 / 256 / 256 := Nat.mod_eq_of_lt hfourth
  constructor
  · obtain ⟨st₄, hrun₄, hwritten₄⟩ := convertOctetToString_written hwritten₃ hfourth 0
    refine ⟨st₄.mem, ?_, Written.textAt ?_ (addressText_noNul _ none)⟩
    · show extractString mem ipv4Address 0 buffer = _
      rw [extractString]
      simp only [Nat.zero_mod, Nat.zero_div, field, hrun₁, hrun₂, hrun₃, hrun₄, if_true,
        Option.bind_eq_bind, Option.bind_some]
    · rw [← hmod] at hwritten₄
      simpa [addressText, Quad.text, quadOf] using hwritten₄
  · obtain ⟨st₄, hrun₄, hwritten₄⟩ := convertOctetToString_written hwritten₃ hfourth 0x2F
    obtain ⟨st₅, hrun₅, hwritten₅⟩ := convertOctetToString_written hwritten₄ h 0
    refine ⟨st₅.mem, ?_, Written.textAt ?_ (addressText_noNul _ (some _))⟩
    · show extractString mem ipv4Address 256 buffer = _
      rw [extractString]
      simp only [Nat.mod_self, field, hrun₁, hrun₂, hrun₃, hrun₄, hrun₅, Option.bind_eq_bind,
        Option.bind_some]
      rfl
    · rw [← hmod] at hwritten₅
      simpa [addressText, Quad.text, quadOf] using hwritten₅

/-- The text of an address is one. -/
theorem isIPv4_addressText (address : UInt32) (suffix : Option UInt32)
    (h : ∀ s ∈ suffix, s ≤ 32) :
    IsIPv4 (addressText address.toNat (suffix.map UInt32.toNat)) address (suffix.getD 0) := by
  refine ⟨quadOf address.toNat, _, rfl, quadOf_le _, (quadOf_address address).symm, ?_⟩
  cases suffix with
  | none => exact Or.inl ⟨rfl, rfl⟩
  | some suffix =>
    have hle : suffix.toNat ≤ 32 := h suffix rfl
    exact Or.inr ⟨numeral suffix.toNat, rfl, isField_numeral (by omega),
      @numeral_length_le _ 1 (by omega), by rw [decimal_numeral]; exact hle,
      (decimal_numeral _).symm⟩

/-- **What `extractString` writes, `initIPv4Address` reads**, whatever is in the buffer, behind
it, and in the structure. -/
theorem initIPv4Address_extractString (mem : Mem) (buffer : Nat) {ipv4Address : IPv4Address}
    (h : ipv4Address.cidrSuffix ≤ 32) (prior : IPv4Address) :
    (∃ mem', extractString mem ipv4Address IVP4_CIDR_SUFFIX buffer = some mem' ∧
      (initIPv4Address mem' buffer prior).1 = 0 ∧
      (initIPv4Address mem' buffer prior).2.address = ipv4Address.address ∧
      (initIPv4Address mem' buffer prior).2.cidrSuffix = ipv4Address.cidrSuffix) ∧
    ∃ mem', extractString mem ipv4Address IPV4_ADDR buffer = some mem' ∧
      (initIPv4Address mem' buffer prior).1 = 0 ∧
      (initIPv4Address mem' buffer prior).2.address = ipv4Address.address ∧
      (initIPv4Address mem' buffer prior).2.cidrSuffix = 0 := by
  have hle : ipv4Address.cidrSuffix.toNat ≤ 32 := h
  obtain ⟨⟨mem₁, hrun₁, htext₁⟩, mem₂, hrun₂, htext₂⟩ :=
    extractString_textAt mem ipv4Address (by omega) buffer
  constructor
  · exact ⟨mem₂, hrun₂, initIPv4Address_of_isIPv4 htext₂
      (isIPv4_addressText ipv4Address.address (some ipv4Address.cidrSuffix)
        (by rintro _ ⟨⟩; exact h)) prior⟩
  · exact ⟨mem₁, hrun₁, initIPv4Address_of_isIPv4 htext₁
      (isIPv4_addressText ipv4Address.address none (by rintro _ ⟨⟩)) prior⟩

/-- `192.168.1.102/24`. -/
theorem initIPv4Address_extractString_homeNetwork :
    (∃ mem', extractString (fun _ => 0x58) ⟨0x6601A8C0, 24, 0, 0⟩ IVP4_CIDR_SUFFIX 16 = some mem' ∧
      (initIPv4Address mem' 16 ⟨0, 0, 0, 0⟩).1 = 0 ∧
      (initIPv4Address mem' 16 ⟨0, 0, 0, 0⟩).2.address = 0x6601A8C0 ∧
      (initIPv4Address mem' 16 ⟨0, 0, 0, 0⟩).2.cidrSuffix = 24) ∧
    ∃ mem', extractString (fun _ => 0x58) ⟨0x6601A8C0, 24, 0, 0⟩ IPV4_ADDR 16 = some mem' ∧
      (initIPv4Address mem' 16 ⟨0, 0, 0, 0⟩).1 = 0 ∧
      (initIPv4Address mem' 16 ⟨0, 0, 0, 0⟩).2.address = 0x6601A8C0 ∧
      (initIPv4Address mem' 16 ⟨0, 0, 0, 0⟩).2.cidrSuffix = 0 :=
  initIPv4Address_extractString (fun _ => 0x58) 16 (by decide) ⟨0, 0, 0, 0⟩

end DevopsBroker.Net
