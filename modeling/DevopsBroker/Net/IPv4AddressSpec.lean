import DevopsBroker.Net.IPv4Address

/-!
# Which texts `initIPv4Address` accepts

`IsIPv4` says what the text of an address is: four octets, and a suffix or none.
`initIPv4Address` also accepts octets above 255, since it adds up eight bits, suffixes of
three digits, for the same reason, and anything behind a suffix that ends where the
register does. **`initIPv4Address_iff`**: these are the texts it gets wrong, and no others.
**`initIPv4Address_extractString`**: what `extractString` writes is read back.
-/

namespace DevopsBroker.Net

open DevopsBroker.Lib

/-! ## Octets -/

/-- One to three digits. -/
structure IsField (digits : List UInt8) : Prop where
  decimal : ∀ c ∈ digits, IsDecimal c
  pos : 0 < digits.length
  le : digits.length ≤ 3

instance (digits : List UInt8) : Decidable (IsField digits) :=
  haveI : Decidable (∀ c ∈ digits, IsDecimal c) := List.decidableBAll _ digits
  decidable_of_iff ((∀ c ∈ digits, IsDecimal c) ∧ 0 < digits.length ∧ digits.length ≤ 3)
    ⟨fun h => ⟨h.1, h.2.1, h.2.2⟩, fun h => ⟨h.decimal, h.pos, h.le⟩⟩

/-- Some digits in front of a text that a register is loaded from, and the register behind
them. -/
structure Scanned (text : List UInt8) (m : Nat) (digits rest : List UInt8) (rdx : Nat) : Prop where
  text : text = digits ++ rest
  room : digits.length ≤ m
  register : Loaded rdx rest (m - digits.length)

/-- A digit in front of those that are scanned. -/
theorem Scanned.cons {text digits rest : List UInt8} {m rdx : Nat}
    (h : Scanned text m digits rest rdx) (c : UInt8) :
    Scanned (c :: text) (m + 1) (c :: digits) rest rdx where
  text := by rw [h.text, List.cons_append]
  room := Nat.succ_le_succ h.room
  register := by
    rw [List.length_cons, Nat.add_sub_add_right]
    exact h.register

/-- What `convertStringToOctet` makes of digits. -/
def octetValue (digits : List UInt8) : Nat :=
  digits.tail.foldl mulAdd (digitValue (digits.headD 0))

theorem mulAdd_mod (rax : Nat) (ch : UInt8) :
    mulAdd rax ch % 256 = (10 * rax + digitValue ch) % 256 := by
  unfold mulAdd digitValue ZERO
  dsimp only
  omega

theorem foldl_mulAdd_mod (digits : List UInt8) :
    ∀ rax, digits.foldl mulAdd rax % 256 = decimalFrom rax digits % 256 := by
  induction digits with
  | nil => exact fun _ => rfl
  | cons c digits ih =>
    intro rax
    rw [List.foldl_cons, ih, ← decimalFrom_mod, mulAdd_mod, decimalFrom_mod, decimalFrom_cons]

/-- The value is right in eight bits. -/
theorem octetValue_mod {digits : List UInt8} (h : 0 < digits.length) :
    octetValue digits % 256 = decimal digits % 256 := by
  cases digits with
  | nil => exact absurd h (Nat.lt_irrefl 0)
  | cons c digits =>
    show digits.foldl mulAdd (digitValue c) % 256 = _
    rw [foldl_mulAdd_mod, decimal, decimalFrom_cons, Nat.mul_zero, Nat.zero_add]

/-- With two digits it is right. -/
theorem octetValue_of_le {digits : List UInt8} (hfield : IsField digits)
    (hle : digits.length ≤ 2) : octetValue digits = decimal digits := by
  match digits, hfield, hle with
  | [], hfield, _ => exact absurd hfield.pos (Nat.lt_irrefl 0)
  | [c], _, _ =>
    show digitValue c = 10 * 0 + digitValue c
    omega
  | [c, d], hfield, _ =>
    have hc := digitValue_lt (hfield.decimal c List.mem_cons_self)
    have hd := digitValue_lt (hfield.decimal d (List.mem_cons_of_mem _ List.mem_cons_self))
    show mulAdd (digitValue c) d = 10 * (10 * 0 + digitValue c) + digitValue d
    have hsub : d.toNat - ZERO = digitValue d := rfl
    rw [mulAdd, hsub, Nat.mod_eq_of_lt (by omega)]
    omega
  | _ :: _ :: _ :: _, _, hle =>
    rw [List.length_cons, List.length_cons, List.length_cons] at hle
    omega

/-- A digit is a character between `ZERO` and `NINE`. -/
theorem isDecimal_iff {c : UInt8} : IsDecimal c ↔ ¬ signed c > NINE ∧ ¬ signed c < ZERO :=
  isDecimal_iff_signed

/-- **Where `octetChars` stops, it has taken digits.** -/
theorem octetChars_some {n : Nat} :
    ∀ {rdx rax numChars m : Nat} {text : List UInt8} {rdx' rax' numChars' : Nat},
      Loaded rdx text m → octetChars n rdx rax numChars = some (rdx', rax', numChars') →
      ∃ digits rest, Scanned text m digits rest rdx' ∧ (∀ c ∈ digits, IsDecimal c) ∧
        digits.length ≤ n ∧ rax' = digits.foldl mulAdd rax ∧
        numChars' = numChars + digits.length := by
  induction n with
  | zero =>
    intro rdx rax numChars m text rdx' rax' numChars' hload hrun
    cases hrun
    exact ⟨[], text, ⟨rfl, Nat.zero_le m, hload⟩, fun _ hc => absurd hc List.not_mem_nil,
      Nat.le_refl 0, rfl, rfl⟩
  | succ n ih =>
    intro rdx rax numChars m text rdx' rax' numChars' hload hrun
    rw [octetChars] at hrun
    split at hrun
    next _ => cases hrun
    next hnine =>
      split at hrun
      next _ =>
        cases hrun
        exact ⟨[], text, ⟨rfl, Nat.zero_le m, hload⟩, fun _ hc => absurd hc List.not_mem_nil,
          Nat.zero_le _, rfl, rfl⟩
      next hzero =>
        have hc := isDecimal_iff.mpr ⟨hnine, hzero⟩
        obtain ⟨k, text, rfl, rfl⟩ := hload.cons hc.ne_zero rfl
        obtain ⟨digits, rest, hscan, hdigits, hle, rfl, rfl⟩ := ih hload.shift hrun
        refine ⟨_ :: digits, rest, hscan.cons _, List.forall_mem_cons.mpr ⟨hc, hdigits⟩,
          Nat.succ_le_succ hle, rfl, ?_⟩
        rw [List.length_cons]
        omega

/-- **It takes all of them**, up to its own number and what is in the register. -/
theorem octetChars_eq {n : Nat} :
    ∀ {rdx rax numChars m : Nat} {digits rest : List UInt8},
      Loaded rdx (digits ++ rest) m → (∀ c ∈ digits, IsDecimal c) → digits.length ≤ n →
      digits.length ≤ m → digits.length = n ∨ digits.length = m ∨ rest.headD 0 < 0x30 →
      ∃ rdx', octetChars n rdx rax numChars =
          some (rdx', digits.foldl mulAdd rax, numChars + digits.length) ∧
        Loaded rdx' rest (m - digits.length) := by
  induction n with
  | zero =>
    intro rdx rax numChars m digits rest hload _ hle _ _
    obtain rfl : digits = [] := List.length_eq_zero_iff.mp (Nat.le_zero.mp hle)
    exact ⟨rdx, rfl, hload⟩
  | succ n ih =>
    intro rdx rax numChars m digits rest hload hdigits hle hroom hend
    cases digits with
    | nil =>
      -- the register is used up, or the next character is below the digits
      have hch : lowByte rdx < 0x30 := by
        rcases Nat.eq_zero_or_pos m with rfl | hpos
        · rw [hload.lowByte_used]
          decide
        · obtain ⟨k, rfl⟩ : ∃ k, m = k + 1 := ⟨m - 1, by omega⟩
          rw [hload.lowByte_eq]
          rcases hend with hend | hend | hend
          · exact absurd hend (Nat.succ_ne_zero n).symm
          · exact absurd hend (Nat.succ_ne_zero k).symm
          · exact hend
      have hlt : (lowByte rdx).toNat < 0x30 := hch
      have hsmall : lowByte rdx < 0x80 := UInt8.lt_iff_toNat_lt.mpr (Nat.lt_trans hlt (by decide))
      refine ⟨rdx, ?_, hload⟩
      rw [octetChars]
      unfold signed NINE ZERO
      rw [if_pos hsmall, if_neg (by omega), if_pos (by omega)]
      rfl
    | cons c digits =>
      obtain ⟨k, rfl⟩ : ∃ k, m = k + 1 := ⟨m - 1, by rw [List.length_cons] at hroom; omega⟩
      obtain ⟨hc, hdigits⟩ := List.forall_mem_cons.mp hdigits
      obtain ⟨hnine, hzero⟩ := isDecimal_iff.mp hc
      have hch : lowByte rdx = c := hload.lowByte_eq
      rw [List.length_cons] at hle hroom hend
      obtain ⟨rdx', hrun, hload'⟩ := @ih (rdx / 256) (mulAdd rax c) (numChars + 1) k digits rest
        hload.shift hdigits (by omega) (by omega)
        (hend.imp Nat.succ.inj (Or.imp_left Nat.succ.inj))
      refine ⟨rdx', ?_, by rw [List.length_cons, Nat.add_sub_add_right]; exact hload'⟩
      rw [octetChars, hch, if_neg hnine, if_neg hzero, hrun, List.foldl_cons, List.length_cons]
      congr 3
      omega

/-- `convertStringToOctet` takes one to three digits. -/
theorem convertStringToOctet_some {rdx numChars m : Nat} {text : List UInt8}
    {rdx' rax numChars' : Nat} (hload : Loaded rdx text m)
    (hrun : convertStringToOctet rdx 0 numChars = some (rdx', rax, numChars')) :
    ∃ digits rest, Scanned text m digits rest rdx' ∧ IsField digits ∧ rax = octetValue digits ∧
      numChars' = numChars + digits.length := by
  unfold convertStringToOctet at hrun
  dsimp only at hrun
  split at hrun
  next _ => cases hrun
  next hnine =>
    split at hrun
    next _ => cases hrun
    next hzero =>
      have hc := isDecimal_iff.mpr ⟨hnine, hzero⟩
      obtain ⟨k, text, rfl, rfl⟩ := hload.cons hc.ne_zero rfl
      obtain ⟨digits, rest, hscan, hdigits, hle, rfl, rfl⟩ := octetChars_some hload.shift hrun
      refine ⟨_ :: digits, rest, hscan.cons _,
        ⟨List.forall_mem_cons.mpr ⟨hc, hdigits⟩, Nat.succ_pos _, Nat.succ_le_succ hle⟩, ?_, ?_⟩
      · rw [Nat.zero_div, Nat.zero_mul, Nat.zero_add]
        rfl
      · rw [List.length_cons]
        omega

theorem convertStringToOctet_eq {rdx m : Nat} {digits rest : List UInt8} (numChars : Nat)
    (hload : Loaded rdx (digits ++ rest) m) (hfield : IsField digits) (hroom : digits.length ≤ m)
    (hend : digits.length = 3 ∨ digits.length = m ∨ rest.headD 0 < 0x30) :
    ∃ rdx', convertStringToOctet rdx 0 numChars =
        some (rdx', octetValue digits, numChars + digits.length) ∧
      Loaded rdx' rest (m - digits.length) := by
  obtain ⟨hdigits, hpos, hle⟩ := hfield
  cases digits with
  | nil => exact absurd hpos (Nat.lt_irrefl 0)
  | cons c digits =>
    obtain ⟨k, rfl⟩ : ∃ k, m = k + 1 := ⟨m - 1, by rw [List.length_cons] at hroom; omega⟩
    obtain ⟨hc, hdigits⟩ := List.forall_mem_cons.mp hdigits
    obtain ⟨hnine, hzero⟩ := isDecimal_iff.mp hc
    have hch : lowByte rdx = c := hload.lowByte_eq
    rw [List.length_cons] at hle hroom hend
    obtain ⟨rdx', hrun, hload'⟩ := @octetChars_eq 2 (rdx / 256) (0 / 256 * 256 + (c.toNat - ZERO))
      (numChars + 1) k digits rest hload.shift hdigits (by omega) (by omega)
      (hend.imp Nat.succ.inj (Or.imp_left Nat.succ.inj))
    refine ⟨rdx', ?_, by rw [List.length_cons, Nat.add_sub_add_right]; exact hload'⟩
    rw [convertStringToOctet, hch, if_neg hnine, if_neg hzero, hrun, Nat.zero_div, Nat.zero_mul,
      Nat.zero_add, List.length_cons, Nat.add_right_comm, Nat.add_assoc numChars]
    rfl

/-- `dottedOctet` takes digits and a `.`. -/
theorem dottedOctet_some {rdx numChars r9 m : Nat} {text : List UInt8} {rdx' numChars' r9' : Nat}
    (hload : Loaded rdx text m)
    (hrun : dottedOctet rdx numChars r9 = some (rdx', numChars', r9')) :
    ∃ digits rest, text = digits ++ 0x2E :: rest ∧ IsField digits ∧ digits.length + 1 ≤ m ∧
      Loaded rdx' rest (m - (digits.length + 1)) ∧ numChars' = numChars + (digits.length + 1) ∧
      r9' = accumulate r9 (octetValue digits) := by
  obtain ⟨⟨rdx₁, rax, numChars₁⟩, hconvert, hrun⟩ := Option.bind_eq_some_iff.mp hrun
  obtain ⟨digits, rest, hscan, hfield, rfl, rfl⟩ := convertStringToOctet_some hload hconvert
  dsimp only at hrun
  split at hrun
  next _ => cases hrun
  next hdot =>
    cases hrun
    obtain ⟨k, rest, hk, rfl⟩ := hscan.register.cons (by decide) (not_not.mp hdot)
    have hregister := hscan.register
    rw [hk] at hregister
    refine ⟨digits, rest, hscan.text, hfield, by omega, ?_, by omega, rfl⟩
    rw [← Nat.sub_sub, hk]
    exact hregister.shift

theorem dottedOctet_eq {rdx m : Nat} {digits rest : List UInt8} (numChars r9 : Nat)
    (hload : Loaded rdx (digits ++ 0x2E :: rest) m) (hfield : IsField digits)
    (hroom : digits.length + 1 ≤ m) :
    ∃ rdx', dottedOctet rdx numChars r9 =
        some (rdx', numChars + (digits.length + 1), accumulate r9 (octetValue digits)) ∧
      Loaded rdx' rest (m - (digits.length + 1)) := by
  obtain ⟨rdx', hconvert, hload'⟩ := convertStringToOctet_eq numChars hload hfield (by omega)
    (Or.inr (Or.inr (by rw [List.headD_cons]; decide)))
  obtain ⟨k, hk⟩ : ∃ k, m - digits.length = k + 1 := ⟨m - digits.length - 1, by omega⟩
  rw [hk] at hload'
  refine ⟨rdx' / 256, ?_, by rw [← Nat.sub_sub, hk]; exact hload'.shift⟩
  have hdot : lowByte rdx' = 0x2E := hload'.lowByte_eq
  rw [dottedOctet, hconvert]
  dsimp only [Option.bind_eq_bind, Option.bind_some]
  rw [hdot, if_neg (not_not.mpr rfl), Nat.add_assoc]

/-! ## Addresses -/

/-- The digits of four octets. -/
structure Quad where
  first : List UInt8
  second : List UInt8
  third : List UInt8
  fourth : List UInt8
  isField : ∀ digits ∈ [first, second, third, fourth], IsField digits

namespace Quad

/-- The four octets. -/
def all (q : Quad) : List (List UInt8) := [q.first, q.second, q.third, q.fourth]

/-- What stands in front of the third octet. -/
def front (q : Quad) : List UInt8 := q.first ++ 0x2E :: (q.second ++ [0x2E])

/-- The octets with dots between them, and what is behind. -/
def text (q : Quad) (tail : List UInt8) : List UInt8 :=
  q.first ++ 0x2E :: (q.second ++ 0x2E :: (q.third ++ 0x2E :: (q.fourth ++ tail)))

/-- The bytes of the octets, as far as eight bits go, in network byte order. -/
def address (q : Quad) : UInt32 :=
  UInt32.ofNat (littleEndian (q.all.map fun digits => UInt8.ofNat (decimal digits)))

theorem text_eq (q : Quad) (tail : List UInt8) :
    q.text tail = q.front ++ (q.third ++ 0x2E :: (q.fourth ++ tail)) := by
  simp [text, front]

theorem front_length (q : Quad) : q.front.length = q.first.length + 1 + (q.second.length + 1) := by
  simp only [front, List.length_append, List.length_cons, List.length_nil]
  omega

end Quad

/-- A byte behind those of the accumulator. -/
theorem accumulate_littleEndian {bytes : List UInt8} {digits : List UInt8}
    (hlen : bytes.length ≤ 3) (hpos : 0 < digits.length) :
    accumulate (littleEndian bytes) (octetValue digits) =
      littleEndian (UInt8.ofNat (decimal digits) :: bytes) := by
  have hlt := littleEndian_lt bytes
  have hpow : 256 ^ bytes.length ≤ 256 ^ 3 := Nat.pow_le_pow_right (by omega) hlen
  rw [accumulate, Nat.mod_eq_of_lt (by omega), octetValue_mod hpos, littleEndian_cons,
    UInt8.toNat_ofNat']
  omega

theorem bswap_littleEndian {bytes : List UInt8} (h : bytes.length = 4) :
    bswap (littleEndian bytes) = littleEndian bytes.reverse := by
  rw [bswap, charsOf_littleEndian (Nat.le_of_eq h.symm), ← h, List.take_length]

/-- The accumulator at the end. -/
theorem accumulate_quad (q : Quad) :
    UInt32.ofNat (bswap (accumulate (accumulate (accumulate (accumulate 0 (octetValue q.first))
      (octetValue q.second)) (octetValue q.third)) (octetValue q.fourth))) = q.address := by
  have hpos {digits : List UInt8} (h : digits ∈ q.all) : 0 < digits.length := (q.isField _ h).pos
  have hzero : (0 : Nat) = littleEndian [] := rfl
  rw [hzero, accumulate_littleEndian (by simp) (hpos (by simp [Quad.all])),
    accumulate_littleEndian (by simp) (hpos (by simp [Quad.all])),
    accumulate_littleEndian (by simp) (hpos (by simp [Quad.all])),
    accumulate_littleEndian (by simp) (hpos (by simp [Quad.all])), bswap_littleEndian rfl]
  rfl

/-- Digits that `initIPv4Address` takes for a suffix, and what is behind them. -/
structure TakenSuffix (q : Quad) (tail digits rest : List UInt8) : Prop where
  tail : tail = 0x2F :: (digits ++ rest)
  isField : IsField digits
  le : decimal digits % 256 ≤ 32
  /-- The register that the octets are in has two characters at least of the suffix. -/
  fits : q.third.length + q.fourth.length ≤ 4 →
    q.third.length + q.fourth.length + digits.length ≤ 6
  /-- That register ends with the digits, or the text does. -/
  ends : rest = [] ∨ 2 ≤ digits.length ∧ q.third.length + q.fourth.length + digits.length = 6

/-- The structure with an address and a suffix. -/
def withSuffix (ipv4Address : IPv4Address) (address : UInt32) (digits : List UInt8) :
    IPv4Address :=
  if octetValue digits % 256 = 0 then { ipv4Address with address := address, cidrSuffix := 0 }
  else
    deriveSubnetMask
      { ipv4Address with address := address, cidrSuffix := UInt32.ofNat (octetValue digits) }

/-- The register that the suffix is taken from. -/
theorem suffix_loaded {mem : Mem} {p numChars : Nat} {third fourth tail : List UInt8} {rdx : Nat}
    (h : TextAt mem p (third ++ 0x2E :: (fourth ++ 0x2F :: tail)))
    (hnum : numChars = third.length + fourth.length + 2)
    (hload : Loaded rdx (0x2F :: tail) (8 - (third.length + 1) - fourth.length)) :
    Loaded (if numChars ≤ 6 then rdx / 256 else orBytes mem 4 (p + numChars) 0 0) tail
      (if numChars ≤ 6 then 8 - numChars else 4) := by
  split
  next hle =>
    obtain ⟨k, hk⟩ : ∃ k, 8 - (third.length + 1) - fourth.length = k + 1 := ⟨8 - numChars, by omega⟩
    rw [hk] at hload
    rw [show 8 - numChars = k by omega]
    exact hload.shift
  next _ =>
    have htext : third ++ 0x2E :: (fourth ++ 0x2F :: tail) =
        (third ++ 0x2E :: (fourth ++ [0x2F])) ++ tail := by simp
    have hlength : (third ++ 0x2E :: (fourth ++ [0x2F])).length = numChars := by
      simp only [List.length_append, List.length_cons, List.length_nil]
      omega
    rw [htext] at h
    have hbehind := h.drop
    rw [hlength] at hbehind
    exact hbehind.loaded 4

/-- **Four octets with dots between them.** -/
theorem fourOctets_some {mem : Mem} {p : Nat} {text : List UInt8} {rdx rsi numChars : Nat}
    {address : UInt32} (h : TextAt mem p text)
    (hrun : fourOctets mem p = some (rdx, rsi, numChars, address)) :
    ∃ (q : Quad) (tail : List UInt8), text = q.text tail ∧
      Loaded rdx tail (8 - (q.third.length + 1) - q.fourth.length) ∧ rsi = p + q.front.length ∧
      numChars = q.third.length + q.fourth.length + 1 ∧ address = q.address := by
  obtain ⟨⟨rdx₁, n₁, r9₁⟩, hfirst, hrun⟩ := Option.bind_eq_some_iff.mp hrun
  obtain ⟨⟨rdx₂, n₂, r9₂⟩, hsecond, hrun⟩ := Option.bind_eq_some_iff.mp hrun
  obtain ⟨first, text₁, rfl, hfield₁, _, hload₁, rfl, rfl⟩ :=
    dottedOctet_some (h.loaded 8) hfirst
  obtain ⟨second, text₂, rfl, hfield₂, _, _, rfl, rfl⟩ := dottedOctet_some hload₁ hsecond
  obtain ⟨⟨rdx₃, n₃, r9₃⟩, hthird, hrun⟩ := Option.bind_eq_some_iff.mp hrun
  obtain ⟨⟨rdx₄, rax, n₄⟩, hfourth, hrun⟩ := Option.bind_eq_some_iff.mp hrun
  -- the register is loaded again, behind the second dot
  have htext : first ++ 0x2E :: (second ++ 0x2E :: text₂) =
      (first ++ 0x2E :: (second ++ [0x2E])) ++ text₂ := by simp
  have hlength : (first ++ 0x2E :: (second ++ [0x2E])).length =
      0 + (first.length + 1) + (second.length + 1) := by
    simp only [List.length_append, List.length_cons, List.length_nil]
    omega
  rw [htext] at h
  have hbehind := h.drop
  rw [hlength] at hbehind
  obtain ⟨third, text₃, rfl, hfield₃, _, hload₃, rfl, rfl⟩ :=
    dottedOctet_some (hbehind.loaded 8) hthird
  obtain ⟨fourth, tail, ⟨rfl, _, hload₄⟩, hfield₄, rfl, rfl⟩ :=
    convertStringToOctet_some hload₃ hfourth
  let q : Quad := ⟨first, second, third, fourth, by
    simp only [List.mem_cons, List.not_mem_nil, or_false]
    rintro _ (rfl | rfl | rfl | rfl) <;> assumption⟩
  cases hrun
  refine ⟨q, tail, rfl, hload₄, by rw [← hlength]; rfl, ?_, accumulate_quad q⟩
  show 0 + (third.length + 1) + fourth.length = third.length + fourth.length + 1
  omega

theorem fourOctets_eq {mem : Mem} {p : Nat} {q : Quad} {tail : List UInt8}
    (h : TextAt mem p (q.text tail)) (htail : tail.headD 0 < 0x30) :
    ∃ rdx, Loaded rdx tail (8 - (q.third.length + 1) - q.fourth.length) ∧
      fourOctets mem p =
        some (rdx, p + q.front.length, q.third.length + q.fourth.length + 1, q.address) := by
  have hfirst := q.isField q.first (by simp)
  have hsecond := q.isField q.second (by simp)
  have hthird := q.isField q.third (by simp)
  have hfourth := q.isField q.fourth (by simp)
  have hfirst₃ := hfirst.le
  have hsecond₃ := hsecond.le
  have hthird₃ := hthird.le
  have hfourth₃ := hfourth.le
  have hbehind : TextAt mem (p + q.front.length) (q.third ++ 0x2E :: (q.fourth ++ tail)) := by
    rw [q.text_eq] at h
    exact h.drop
  obtain ⟨rdx₁, hrun₁, hload₁⟩ := dottedOctet_eq 0 0 (h.loaded 8) hfirst (by omega)
  obtain ⟨rdx₂, hrun₂, _⟩ := dottedOctet_eq (0 + (q.first.length + 1))
    (accumulate 0 (octetValue q.first)) hload₁ hsecond (by omega)
  have hlength : q.front.length = 0 + (q.first.length + 1) + (q.second.length + 1) := by
    rw [q.front_length, Nat.zero_add]
  rw [hlength] at hbehind ⊢
  obtain ⟨rdx₃, hrun₃, hload₃⟩ := dottedOctet_eq 0
    (accumulate (accumulate 0 (octetValue q.first)) (octetValue q.second)) (hbehind.loaded 8) hthird
    (by omega)
  obtain ⟨rdx₄, hrun₄, hload₄⟩ := convertStringToOctet_eq (0 + (q.third.length + 1)) hload₃ hfourth
    (by omega) (Or.inr (Or.inr htail))
  refine ⟨rdx₄, hload₄, ?_⟩
  rw [fourOctets, hrun₁]
  dsimp only [Option.bind_eq_bind, Option.bind_some]
  rw [hrun₂]
  dsimp only [Option.bind_some]
  rw [hrun₃]
  dsimp only [Option.bind_some]
  rw [hrun₄]
  dsimp only [Option.bind_some]
  rw [accumulate_quad, show 0 + (q.third.length + 1) + q.fourth.length =
    q.third.length + q.fourth.length + 1 by omega]

/-- **Behind the octets**: the end of the text, or a suffix. -/
theorem getCIDRSuffix_some {mem : Mem} {p rdx : Nat} {q : Quad} {tail : List UInt8}
    {ipv4Address ipv4Address' : IPv4Address} (h : TextAt mem p (q.text tail))
    (hload : Loaded rdx tail (8 - (q.third.length + 1) - q.fourth.length))
    (hrun : getCIDRSuffix mem ipv4Address rdx (p + q.front.length)
      (q.third.length + q.fourth.length + 1) q.address = some ipv4Address') :
    (tail = [] ∧ ipv4Address' = { ipv4Address with address := q.address, cidrSuffix := 0 }) ∨
      ∃ digits rest, TakenSuffix q tail digits rest ∧
        ipv4Address' = withSuffix ipv4Address q.address digits := by
  have hthird := (q.isField q.third (by simp)).le
  have hfourth := (q.isField q.fourth (by simp)).le
  rw [q.text_eq] at h
  have hbehind := h.drop
  have hnul : 0 ∉ tail := fun hmem => hbehind.noNul (by simp [hmem])
  unfold getCIDRSuffix at hrun
  dsimp only at hrun
  split at hrun
  next hzero =>
    rcases hload.end_of_zero hnul hzero with rfl | hused
    · exact Or.inl ⟨rfl, (Option.some.inj hrun).symm⟩
    · omega
  next _ =>
    split at hrun
    next _ => cases hrun
    next hslash =>
      obtain ⟨k, tail, hk, rfl⟩ := hload.cons (by decide) (not_not.mp hslash)
      have hsuffix := suffix_loaded hbehind rfl hload
      obtain ⟨⟨rdx₅, rax, n₅⟩, hfifth, hrun⟩ := Option.bind_eq_some_iff.mp hrun
      obtain ⟨digits, rest, ⟨rfl, hroom, hload₅⟩, hfield, rfl, rfl⟩ :=
        convertStringToOctet_some hsuffix hfifth
      dsimp only at hrun
      split at hrun
      next _ => cases hrun
      next hend =>
        split at hrun
        next _ => cases hrun
        next hle =>
          rw [octetValue_mod hfield.pos] at hle
          have hthree := hfield.le
          have hnul : 0 ∉ rest := fun hmem => hnul (by simp [hmem])
          refine Or.inr ⟨digits, rest, ⟨rfl, hfield, Nat.le_of_not_lt hle, ?_, ?_⟩, ?_⟩
          · intro hshort
            rw [if_pos (by omega)] at hroom
            omega
          · rcases hload₅.end_of_zero hnul (not_not.mp hend) with rfl | hused
            · exact Or.inl rfl
            · -- the register is used up behind the digits
              refine Or.inr ?_
              by_cases hshort : q.third.length + q.fourth.length + 2 ≤ 6
              · rw [if_pos hshort] at hused hroom
                omega
              · rw [if_neg hshort] at hused
                omega
          · unfold withSuffix
            split at hrun
            next hnone => rw [if_pos hnone]; exact (Option.some.inj hrun).symm
            next hsome => rw [if_neg hsome]; exact (Option.some.inj hrun).symm

theorem getCIDRSuffix_nil {mem : Mem} {rdx rsi numChars : Nat} {m : Nat}
    (hload : Loaded rdx [] m) (ipv4Address : IPv4Address) (address : UInt32) :
    getCIDRSuffix mem ipv4Address rdx rsi numChars address =
      some { ipv4Address with address := address, cidrSuffix := 0 } := by
  rw [getCIDRSuffix, if_pos hload.lowByte_nil]

theorem getCIDRSuffix_eq {mem : Mem} {p rdx : Nat} {q : Quad} {tail digits rest : List UInt8}
    (h : TextAt mem p (q.text tail))
    (hload : Loaded rdx tail (8 - (q.third.length + 1) - q.fourth.length))
    (hsuffix : TakenSuffix q tail digits rest) (ipv4Address : IPv4Address) :
    getCIDRSuffix mem ipv4Address rdx (p + q.front.length)
      (q.third.length + q.fourth.length + 1) q.address =
      some (withSuffix ipv4Address q.address digits) := by
  have hthird := (q.isField q.third (by simp)).le
  have hfourth := (q.isField q.fourth (by simp)).le
  obtain ⟨rfl, hfield, hle, hfits, hends⟩ := hsuffix
  have hthree := hfield.le
  rw [q.text_eq] at h
  obtain ⟨k, hk⟩ : ∃ k, 8 - (q.third.length + 1) - q.fourth.length = k + 1 :=
    ⟨8 - (q.third.length + 1) - q.fourth.length - 1, by omega⟩
  have hslash : lowByte rdx = 0x2F := by
    rw [hk] at hload
    exact hload.lowByte_eq
  have hload₅ := suffix_loaded h.drop rfl hload
  have hroom : digits.length ≤ if q.third.length + q.fourth.length + 2 ≤ 6 then
      8 - (q.third.length + q.fourth.length + 2) else 4 := by
    split <;> omega
  obtain ⟨rdx₆, hconvert, hload₆⟩ := convertStringToOctet_eq
    (q.third.length + q.fourth.length + 2) hload₅ hfield hroom (by
      rcases hends with rfl | ⟨htwo, hsix⟩
      · exact Or.inr (Or.inr (by decide))
      · refine Or.inr (Or.inl ?_)
        rw [if_pos (by omega)]
        omega)
  have hend : lowByte rdx₆ = 0 := by
    rcases hends with rfl | ⟨htwo, hsix⟩
    · exact hload₆.lowByte_nil
    · rw [if_pos (by omega), show 8 - (q.third.length + q.fourth.length + 2) - digits.length = 0 by
        omega] at hload₆
      exact hload₆.lowByte_used
  unfold getCIDRSuffix
  dsimp only
  rw [hslash, if_neg (by decide), if_neg (by decide), hconvert]
  dsimp only [Option.bind_eq_bind, Option.bind_some]
  rw [hend, if_neg (by decide), octetValue_mod hfield.pos, if_neg (Nat.not_lt.mpr hle), withSuffix,
    octetValue_mod hfield.pos]
  split <;> rfl

/-! ## Which texts are addresses -/

/-- The text of an IPv4 address: four octets up to 255, and a suffix up to 32 or none. -/
def IsIPv4 (text : List UInt8) (address cidrSuffix : UInt32) : Prop :=
  ∃ (q : Quad) (tail : List UInt8), text = q.text tail ∧ (∀ digits ∈ q.all, decimal digits ≤ 255) ∧
    address = q.address ∧
    ((tail = [] ∧ cidrSuffix = 0) ∨
      ∃ digits, tail = 0x2F :: digits ∧ IsField digits ∧ digits.length ≤ 2 ∧ decimal digits ≤ 32 ∧
        cidrSuffix.toNat = decimal digits)

/-- The texts that are accepted and are none: an octet is above 255, or a suffix has three
digits, or something stands behind it. -/
def Misread (text : List UInt8) : Prop :=
  ∃ (q : Quad) (tail : List UInt8), text = q.text tail ∧
    ((tail = [] ∧ ∃ octet ∈ q.all, 255 < decimal octet) ∨
      ∃ digits rest, TakenSuffix q tail digits rest ∧
        ((∃ octet ∈ q.all, 255 < decimal octet) ∨ digits.length = 3 ∨ rest ≠ []))

/-- What the text of an address is for: the call accepts it, and nothing else. -/
def ReadsAddress (text : List UInt8) (result : Int × IPv4Address) : Prop :=
  (result.1 = 0 ↔ ∃ address cidrSuffix, IsIPv4 text address cidrSuffix) ∧
    (∀ address cidrSuffix, IsIPv4 text address cidrSuffix →
      result.2.address = address ∧ result.2.cidrSuffix = cidrSuffix) ∧
    ((¬ ∃ address cidrSuffix, IsIPv4 text address cidrSuffix) → result.1 = -1)

/-- The octets of a text, and what is behind them. -/
theorem Quad.text_injective {q q' : Quad} {tail tail' : List UInt8}
    (htail : ¬ IsDecimal (tail.headD 0)) (htail' : ¬ IsDecimal (tail'.headD 0))
    (h : q.text tail = q'.text tail') : q = q' ∧ tail = tail' := by
  obtain ⟨first, second, third, fourth, hfield⟩ := q
  obtain ⟨first', second', third', fourth', hfield'⟩ := q'
  have hdot (rest : List UInt8) : ¬ IsDecimal ((0x2E :: rest).headD 0) := by
    rw [List.headD_cons]
    decide
  have hdec {digits : List UInt8} (h : digits ∈ [first, second, third, fourth]) :=
    (hfield digits h).decimal
  have hdec' {digits : List UInt8} (h : digits ∈ [first', second', third', fourth']) :=
    (hfield' digits h).decimal
  obtain ⟨rfl, h₁⟩ := prefix_unique (hdec (by simp)) (hdec' (by simp)) (hdot _) (hdot _) h
  obtain ⟨rfl, h₂⟩ := prefix_unique (hdec (by simp)) (hdec' (by simp)) (hdot _) (hdot _)
    (List.cons.inj h₁).2
  obtain ⟨rfl, h₃⟩ := prefix_unique (hdec (by simp)) (hdec' (by simp)) (hdot _) (hdot _)
    (List.cons.inj h₂).2
  obtain ⟨rfl, rfl⟩ := prefix_unique (hdec (by simp)) (hdec' (by simp)) htail htail'
    (List.cons.inj h₃).2
  exact ⟨rfl, rfl⟩

/-- Behind the octets there is no digit. -/
theorem suffix_not_decimal {tail : List UInt8} (h : tail = [] ∨ ∃ rest, tail = 0x2F :: rest) :
    ¬ IsDecimal (tail.headD 0) := by
  rcases h with rfl | ⟨rest, rfl⟩
  · decide
  · rw [List.headD_cons]
    decide

/-- The text of an address is not misread. -/
theorem not_misread_of_isIPv4 {text : List UInt8} {address cidrSuffix : UInt32}
    (h : IsIPv4 text address cidrSuffix) : ¬ Misread text := by
  rintro ⟨q', tail', htext, hmisread⟩
  obtain ⟨q, tail, rfl, hoctets, -, hsuffix⟩ := h
  have hdecimal' : ¬ IsDecimal (tail'.headD 0) := suffix_not_decimal
    (hmisread.imp And.left fun ⟨_, _, htaken, _⟩ => ⟨_, htaken.tail⟩)
  obtain ⟨rfl, rfl⟩ := Quad.text_injective
    (suffix_not_decimal (hsuffix.imp And.left fun ⟨digits, h⟩ => ⟨digits, h.1⟩)) hdecimal' htext
  have hlarge : ¬ ∃ octet ∈ q.all, 255 < decimal octet :=
    fun ⟨octet, hmem, hlt⟩ => absurd (hoctets octet hmem) (Nat.not_le.mpr hlt)
  rcases hmisread with ⟨_, hoctet⟩ | ⟨digits, rest, ⟨htail, _, _, _, hends⟩, hwrong⟩
  · exact hlarge hoctet
  · rcases hsuffix with ⟨rfl, _⟩ | ⟨digits', rfl, _, htwo, _⟩
    · cases htail
    · -- the digits that are taken, and what is behind them, are two digits together
      have hlength := congrArg List.length (List.cons.inj htail).2
      rw [List.length_append] at hlength
      rcases hwrong with hoctet | hthree | hrest
      · exact hlarge hoctet
      · omega
      · have hpos := List.length_pos_iff.mpr hrest
        rcases hends with rfl | ⟨hends, _⟩
        · exact hrest rfl
        · omega

/-! ## What `initIPv4Address` returns -/

/-- It fails, or it accepts what `TakenSuffix` says. -/
theorem initIPv4Address_cases {mem : Mem} {p : Nat} {text : List UInt8} (h : TextAt mem p text)
    (ipv4Address : IPv4Address) :
    initIPv4Address mem p ipv4Address = (ERROR_CODE, ipv4Address) ∨
      ∃ (q : Quad) (tail : List UInt8), text = q.text tail ∧
        ((tail = [] ∧ initIPv4Address mem p ipv4Address =
            (0, { ipv4Address with address := q.address, cidrSuffix := 0 })) ∨
          ∃ digits rest, TakenSuffix q tail digits rest ∧ initIPv4Address mem p ipv4Address =
            (0, withSuffix ipv4Address q.address digits)) := by
  unfold initIPv4Address
  cases hfour : fourOctets mem p with
  | none => exact Or.inl rfl
  | some result =>
    obtain ⟨rdx, rsi, numChars, address⟩ := result
    obtain ⟨q, tail, rfl, hload, rfl, rfl, rfl⟩ := fourOctets_some h hfour
    dsimp only
    cases hsuffix : getCIDRSuffix mem ipv4Address rdx (p + q.front.length)
      (q.third.length + q.fourth.length + 1) q.address with
    | none => exact Or.inl rfl
    | some ipv4Address' =>
      refine Or.inr ⟨q, tail, rfl, ?_⟩
      rcases getCIDRSuffix_some h hload hsuffix with ⟨hnil, rfl⟩ | ⟨digits, rest, htaken, rfl⟩
      · exact Or.inl ⟨hnil, rfl⟩
      · exact Or.inr ⟨digits, rest, htaken, rfl⟩

theorem initIPv4Address_nil {mem : Mem} {p : Nat} {q : Quad} (h : TextAt mem p (q.text []))
    (ipv4Address : IPv4Address) :
    initIPv4Address mem p ipv4Address =
      (0, { ipv4Address with address := q.address, cidrSuffix := 0 }) := by
  obtain ⟨rdx, hload, hfour⟩ := fourOctets_eq h (by decide)
  rw [initIPv4Address, hfour]
  dsimp only
  rw [getCIDRSuffix_nil hload]

theorem initIPv4Address_suffix {mem : Mem} {p : Nat} {q : Quad} {tail digits rest : List UInt8}
    (h : TextAt mem p (q.text tail)) (hsuffix : TakenSuffix q tail digits rest)
    (ipv4Address : IPv4Address) :
    initIPv4Address mem p ipv4Address = (0, withSuffix ipv4Address q.address digits) := by
  obtain ⟨rdx, hload, hfour⟩ := fourOctets_eq h
    (by rw [hsuffix.tail, List.headD_cons]; decide)
  rw [initIPv4Address, hfour]
  dsimp only
  rw [getCIDRSuffix_eq h hload hsuffix]

/-- A suffix of two digits is taken. -/
theorem takenSuffix_of_le {q : Quad} {digits : List UInt8} (hfield : IsField digits)
    (htwo : digits.length ≤ 2) (hle : decimal digits ≤ 32) :
    TakenSuffix q (0x2F :: digits) digits [] where
  tail := by rw [List.append_nil]
  isField := hfield
  le := Nat.le_trans (Nat.mod_le _ _) hle
  fits := by intro h; omega
  ends := Or.inl rfl

/-- With its address and suffix in the structure. -/
theorem withSuffix_of_le {digits : List UInt8} (hfield : IsField digits) (htwo : digits.length ≤ 2)
    (hle : decimal digits ≤ 32) (ipv4Address : IPv4Address) (address : UInt32) :
    (withSuffix ipv4Address address digits).address = address ∧
      (withSuffix ipv4Address address digits).cidrSuffix.toNat = decimal digits := by
  unfold withSuffix
  rw [octetValue_of_le hfield htwo, Nat.mod_eq_of_lt (by omega)]
  split
  next hzero => exact ⟨rfl, hzero.symm⟩
  next _ =>
    refine ⟨rfl, ?_⟩
    show (UInt32.ofNat (decimal digits)).toNat = _
    rw [UInt32.toNat_ofNat']
    omega

/-- **The text of an address is accepted, and gives that address.** -/
theorem initIPv4Address_of_isIPv4 {mem : Mem} {p : Nat} {text : List UInt8}
    {address cidrSuffix : UInt32} (h : TextAt mem p text) (hipv4 : IsIPv4 text address cidrSuffix)
    (ipv4Address : IPv4Address) :
    (initIPv4Address mem p ipv4Address).1 = 0 ∧
      (initIPv4Address mem p ipv4Address).2.address = address ∧
      (initIPv4Address mem p ipv4Address).2.cidrSuffix = cidrSuffix := by
  obtain ⟨q, tail, rfl, _, rfl, ⟨rfl, rfl⟩ | ⟨digits, rfl, hfield, htwo, hle, hvalue⟩⟩ := hipv4
  · rw [initIPv4Address_nil h]
    exact ⟨rfl, rfl, rfl⟩
  · rw [initIPv4Address_suffix h (takenSuffix_of_le hfield htwo hle)]
    obtain ⟨haddress, hsuffix⟩ := withSuffix_of_le hfield htwo hle ipv4Address q.address
    exact ⟨rfl, haddress, UInt32.toNat_inj.mp (hsuffix.trans hvalue.symm)⟩

/-- Whatever is accepted is an address, or is misread. -/
theorem isIPv4_or_misread {mem : Mem} {p : Nat} {text : List UInt8} (h : TextAt mem p text)
    (ipv4Address : IPv4Address) (hzero : (initIPv4Address mem p ipv4Address).1 ≠ ERROR_CODE) :
    (∃ address cidrSuffix, IsIPv4 text address cidrSuffix) ∨ Misread text := by
  rcases initIPv4Address_cases h ipv4Address with herror | ⟨q, tail, rfl, haccept⟩
  · rw [herror] at hzero
    exact absurd rfl hzero
  rcases haccept with ⟨rfl, _⟩ | ⟨digits, rest, htaken, _⟩
  · by_cases hlarge : ∃ octet ∈ q.all, 255 < decimal octet
    · exact Or.inr ⟨q, [], rfl, Or.inl ⟨rfl, hlarge⟩⟩
    · exact Or.inl ⟨q.address, 0, q, [], rfl,
        fun octet hmem => Nat.le_of_not_lt fun hlt => hlarge ⟨octet, hmem, hlt⟩, rfl,
        Or.inl ⟨rfl, rfl⟩⟩
  · by_cases hwrong : (∃ octet ∈ q.all, 255 < decimal octet) ∨ digits.length = 3 ∨ rest ≠ []
    · exact Or.inr ⟨q, tail, rfl, Or.inr ⟨digits, rest, htaken, hwrong⟩⟩
    · rw [not_or, not_or, not_not] at hwrong
      obtain ⟨hsmall, hthree, rfl⟩ := hwrong
      obtain ⟨rfl, hfield, hle, _, _⟩ := htaken
      have hle₃ := hfield.le
      have hlt := decimalFrom_lt digits hfield.decimal 0
      rw [Nat.zero_add, Nat.one_mul] at hlt
      have hpow : 10 ^ digits.length ≤ 10 ^ 2 := Nat.pow_le_pow_right (by omega) (by omega)
      have hhundred : decimal digits < 100 := Nat.lt_of_lt_of_le hlt hpow
      rw [Nat.mod_eq_of_lt (by omega)] at hle
      refine Or.inl ⟨q.address, UInt32.ofNat (decimal digits), q, _, rfl,
        fun octet hmem => Nat.le_of_not_lt fun hlt => hsmall ⟨octet, hmem, hlt⟩, rfl,
        Or.inr ⟨digits, by rw [List.append_nil], hfield, by omega, hle, ?_⟩⟩
      rw [UInt32.toNat_ofNat']
      omega

/-- **`initIPv4Address` reads a text right exactly when it does not misread it.** -/
theorem initIPv4Address_iff {mem : Mem} {p : Nat} {text : List UInt8} (h : TextAt mem p text)
    (ipv4Address : IPv4Address) :
    ReadsAddress text (initIPv4Address mem p ipv4Address) ↔ ¬ Misread text := by
  constructor
  · rintro ⟨hiff, _, _⟩ hmisread
    have hzero : (initIPv4Address mem p ipv4Address).1 = 0 := by
      obtain ⟨q, tail, rfl, ⟨rfl, _⟩ | ⟨digits, rest, htaken, _⟩⟩ := hmisread
      · rw [initIPv4Address_nil h]
      · rw [initIPv4Address_suffix h htaken]
    obtain ⟨address, cidrSuffix, hipv4⟩ := hiff.mp hzero
    exact not_misread_of_isIPv4 hipv4 hmisread
  · intro hmisread
    have haccept {address cidrSuffix : UInt32} (hipv4 : IsIPv4 text address cidrSuffix) :=
      initIPv4Address_of_isIPv4 h hipv4 ipv4Address
    have hreject (hzero : (initIPv4Address mem p ipv4Address).1 ≠ ERROR_CODE) :
        ∃ address cidrSuffix, IsIPv4 text address cidrSuffix :=
      (isIPv4_or_misread h ipv4Address hzero).resolve_right hmisread
    refine ⟨⟨fun hzero => hreject (by rw [hzero]; decide),
      fun ⟨_, _, hipv4⟩ => (haccept hipv4).1⟩, fun _ _ hipv4 => (haccept hipv4).2, fun hno => ?_⟩
    by_contra hne
    exact hno (hreject hne)

/-- `10.0.0.1/8`. -/
def privateNetwork : List UInt8 :=
  [0x31, 0x30, 0x2E, 0x30, 0x2E, 0x30, 0x2E, 0x31, 0x2F, 0x38]

theorem initIPv4Address_iff_privateNetwork :
    ReadsAddress privateNetwork (initIPv4Address (textMem privateNetwork) 0 ⟨0, 0, 0, 0⟩) ↔
      ¬ Misread privateNetwork :=
  initIPv4Address_iff (textAt_textMem (by decide)) ⟨0, 0, 0, 0⟩

/-- **`256.0.0.1`** is accepted. -/
theorem initIPv4Address_largeOctet :
    ¬ ∀ (mem : Mem) (p : Nat) (text : List UInt8) (ipv4Address : IPv4Address),
      TextAt mem p text → ReadsAddress text (initIPv4Address mem p ipv4Address) := by
  intro h
  let q : Quad := ⟨[0x32, 0x35, 0x36], [0x30], [0x30], [0x31], by decide⟩
  have htext : TextAt (textMem (q.text [])) 0 (q.text []) := textAt_textMem (by decide)
  have hmisread : Misread (q.text []) :=
    ⟨q, [], rfl, Or.inl ⟨rfl, [0x32, 0x35, 0x36], List.mem_cons_self, by decide⟩⟩
  have hread := (h _ 0 _ ⟨0, 0, 0, 0⟩ htext).1
  rw [initIPv4Address_nil htext] at hread
  obtain ⟨address, cidrSuffix, hipv4⟩ := hread.mp rfl
  exact not_misread_of_isIPv4 hipv4 hmisread

end DevopsBroker.Net
