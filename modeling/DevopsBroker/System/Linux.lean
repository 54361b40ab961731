import DevopsBroker.Lib.Characters

/-!
# `system/linux.linux-x86_64.asm`: unsigned integers in files

`getUnsignedInt` reads a number out of a file under `/proc` or `/sys`, and `setUnsignedInt`
writes one. A number is read through a register of eight characters; a second load is
there for the characters behind these. **`getUnsignedInt_setUnsignedInt_iff`**: that load
is never made, and what was written is read back up to eight digits.

Mirroring notes vs the assembly source:
- What the system calls answer is an input; an error is its number. `read` gives 16 bytes
  at most, as many as were asked for.
- `buf` is the memory from `rsp` on. What it holds before the call is `stack`.
- `.whileString` is a loop with fuel, and so is `.whileValue`; `none` is out of fuel.
- `e0004944_printError` leaves something in `eax` that is returned when the file cannot be
  opened: `leftover`.
-/

namespace DevopsBroker.System

open DevopsBroker.Lib

def ZERO : Nat := 0x30
def NINE : Nat := 0x39

/-- What is written to `stderr`. -/
inductive Report where
  | printError (errorNum : Int)
  | perror (message : String)
deriving DecidableEq

def closeErrorMsg : String := "Cannot close file"

/-- What `SYS_CLOSE` leads to. -/
def closeReport (closeFile : Except Nat Unit) : List Report :=
  match closeFile with
  | .error _ => [.perror closeErrorMsg]
  | .ok _ => []

/-! ## Reading -/

/-- `.whileString`, with the characters in `r8` and the loop counter in `cl`. -/
def whileString (buf : Mem) : Nat → Nat → Nat → Nat → Option Nat
  | 0, _, _, _ => none
  | fuel + 1, eax, r8, cl =>
    let ch := lowByte r8
    if signed ch > NINE then some eax
    else if signed ch < ZERO then some eax
    else
      let eax := (5 * eax % 2 ^ 32 * 2 + (ch.toNat - ZERO)) % 2 ^ 32
      let r8 := r8 / 256
      -- also when `r8` is used up
      if lowByte r8 = 0 then some eax
      else if cl - 1 ≠ 0 then whileString buf fuel eax r8 (cl - 1)
      else whileString buf fuel eax (orBytes buf 4 8 0 0) 4

/-- `.convertString`. -/
def convertString (buf : Mem) (numBytes : Nat) : Option Nat :=
  if numBytes = 0 then some 0
  else
    let buf := Function.update buf numBytes 0
    let r8 := orBytes buf 8 0 0 0
    let ch := lowByte r8
    if signed ch > NINE then some 0
    else if signed ch < ZERO then some 0
    else
      let eax := ch.toNat - ZERO
      let r8 := r8 / 256
      if lowByte r8 = 0 then some eax else whileString buf 16 eax r8 7

/-- What the system calls of `getUnsignedInt` answer. -/
structure ReadCalls where
  openFile : Except Nat Unit
  readFile : Except Nat (List UInt8)
  closeFile : Except Nat Unit

/-- The bytes that were read, in `buf`. -/
def readInto (stack : Mem) (bytes : List UInt8) : Mem := fun a => bytes.getD a (stack a)

/-- `e0004944_getUnsignedInt`: the value, and what is reported. -/
def getUnsignedInt (stack : Mem) (leftover : Nat) (calls : ReadCalls) :
    Option Nat × List Report :=
  match calls.openFile with
  | .error errorNum => (some leftover, [.printError errorNum])
  | .ok _ =>
    match calls.readFile with
    | .error errorNum => (some 0, [.printError errorNum])
    | .ok bytes =>
      let bytes := bytes.take 0x10
      if 0x0C ≤ bytes.length then (some 0, [.printError (-(bytes.length : Int))])
      else (convertString (readInto stack bytes) bytes.length, closeReport calls.closeFile)

/-! ## Writing -/

/-- `.whileValue` and `.lessThanTenValue`: the characters in `xmm0`, and their number. -/
def whileValue : Nat → Nat → Nat → Nat → Option (Nat × Nat)
  | 0, _, _, _ => none
  | fuel + 1, eax, xmm0, cl =>
    if eax < 10 then some (xmm0 ||| (eax + ZERO), cl + 1)
    else whileValue fuel (eax / 10) ((xmm0 ||| (eax % 10 + ZERO)) * 256 % 2 ^ 128) (cl + 1)

/-- What the system calls of `setUnsignedInt` answer. -/
structure WriteCalls where
  openFile : Except Nat Unit
  writeFile : Except Nat Unit
  closeFile : Except Nat Unit

/-- `e0004944_setUnsignedInt`: the bytes that are written, and what is reported. -/
def setUnsignedInt (calls : WriteCalls) (value : UInt32) :
    Option (List UInt8 × List Report) := do
  let (xmm0, strLen) ← whileValue 10 value.toNat 0 0
  let text := charsOf strLen xmm0
  match calls.openFile with
  | .error errorNum => return ([], [.printError errorNum])
  | .ok _ =>
    match calls.writeFile with
    | .error errorNum =>
      return ([], .printError errorNum :: closeReport calls.closeFile)
    | .ok _ => return (text, closeReport calls.closeFile)

/-! ## What is written -/

/-- **The loop puts the digits of `eax` in front of those that are there.** -/
theorem whileValue_eq {fuel : Nat} :
    ∀ {eax : Nat} {pending : List UInt8}, (numeral eax).length ≤ fuel →
      (numeral eax).length + pending.length ≤ 16 →
      whileValue fuel eax (littleEndian pending * 256) pending.length =
        some (littleEndian (numeral eax ++ pending), (numeral eax).length + pending.length) := by
  induction fuel with
  | zero =>
    intro eax pending hfuel _
    have := numeral_length_pos eax
    omega
  | succ fuel ih =>
    intro eax pending hfuel hroom
    rw [whileValue]
    rcases Nat.lt_or_ge eax 10 with hlt | hge
    · rw [if_pos hlt, numeral_of_lt hlt, List.singleton_append, List.length_singleton,
        Nat.add_comm 1, show eax + ZERO = _ from (digitOf_toNat hlt).symm, littleEndian_or]
    · have hmod : eax % 10 < 10 := Nat.mod_lt _ (by omega)
      rw [numeral_of_le hge, List.length_append, List.length_singleton] at hfuel hroom
      rw [if_neg (by omega), show eax % 10 + ZERO = _ from (digitOf_toNat hmod).symm,
        littleEndian_or]
      -- sixteen characters fit into `xmm0`
      have hfit : littleEndian (digitOf (eax % 10) :: pending) * 256 < 2 ^ 128 := by
        have hlen := littleEndian_lt (digitOf (eax % 10) :: pending)
        have hpow : 256 ^ (digitOf (eax % 10) :: pending).length ≤ 256 ^ 15 :=
          Nat.pow_le_pow_right (by omega) (by
            rw [List.length_cons]
            have := numeral_length_pos (eax / 10)
            omega)
        omega
      have hlength : pending.length + 1 = (digitOf (eax % 10) :: pending).length := rfl
      rw [Nat.mod_eq_of_lt hfit, hlength, ih (by omega) (by rw [← hlength]; omega),
        numeral_of_le hge, List.append_assoc, List.singleton_append, List.length_append,
        List.length_singleton, List.length_cons]
      congr 2
      omega

/-- **The decimal digits of the value are written.** -/
theorem setUnsignedInt_eq {calls : WriteCalls} (hopen : calls.openFile = .ok ())
    (hwrite : calls.writeFile = .ok ()) (value : UInt32) :
    setUnsignedInt calls value = some (numeral value.toNat, closeReport calls.closeFile) := by
  have hlen : (numeral value.toNat).length ≤ 10 :=
    numeral_length_le (k := 9) (by have := value.toNat_lt; omega)
  have hrun : whileValue 10 value.toNat 0 0 =
      some (littleEndian (numeral value.toNat), (numeral value.toNat).length) := by
    have hloop := @whileValue_eq 10 value.toNat [] hlen
      (by rw [List.length_nil]; omega)
    rw [List.append_nil, List.length_nil, Nat.add_zero] at hloop
    exact hloop
  rw [setUnsignedInt, hrun, hopen, hwrite]
  dsimp only [Option.bind_eq_bind, Option.bind_some]
  rw [charsOf_littleEndian (Nat.le_refl _), List.take_length]
  rfl

/-! ## What is read -/

theorem signed_digit {c : UInt8} (h : IsDecimal c) :
    ¬ signed c > NINE ∧ ¬ signed c < ZERO ∧ c ≠ 0 := by
  obtain ⟨hnine, hzero⟩ := isDecimal_iff_signed.mp h
  exact ⟨hnine, hzero, h.ne_zero⟩

/-- **Digits in the register are read to their end, or to the end of the register.** -/
theorem whileString_eq (buf : Mem) (digits : List UInt8) :
    ∀ {rest : List UInt8} {fuel eax : Nat}, digits ≠ [] → (∀ c ∈ digits, IsDecimal c) →
      rest.headD 0 < 0x30 → digits.length < fuel →
      whileString buf fuel eax (littleEndian (digits ++ rest)) (digits ++ rest).length =
        some (decimalFrom eax digits % 2 ^ 32) := by
  induction digits with
  | nil => exact fun hne => absurd rfl hne
  | cons c digits ih =>
    intro rest fuel eax _ hdigits hrest hfuel
    obtain ⟨fuel, rfl⟩ : ∃ n, fuel = n + 1 := ⟨fuel - 1, by omega⟩
    obtain ⟨hnine, hzero, _⟩ := signed_digit (hdigits c List.mem_cons_self)
    have hvalue : (5 * eax % 2 ^ 32 * 2 + (c.toNat - ZERO)) % 2 ^ 32 =
        (10 * eax + digitValue c) % 2 ^ 32 := by
      unfold digitValue ZERO
      omega
    rw [whileString]
    simp only [lowByte_littleEndian, littleEndian_shift, List.cons_append, List.headD_cons,
      List.tail_cons, if_neg hnine, if_neg hzero, hvalue, List.length_cons]
    rw [decimalFrom_cons, ← decimalFrom_mod]
    have heax : (10 * eax + digitValue c) % 2 ^ 32 < 2 ^ 32 := Nat.mod_lt _ (by omega)
    generalize (10 * eax + digitValue c) % 2 ^ 32 = eax at heax ⊢
    cases digits with
    | nil =>
      -- the last digit: the register is used up, or the character behind it stops the loop
      rw [List.nil_append]
      split
      next _ => rw [decimalFrom_nil, Nat.mod_eq_of_lt heax]
      next hne =>
        obtain ⟨r, rest, rfl⟩ : ∃ r rest', rest = r :: rest' := by
          cases rest with
          | nil => exact absurd rfl hne
          | cons r rest => exact ⟨r, rest, rfl⟩
        have hr : r.toNat < 0x30 := hrest
        obtain ⟨fuel, rfl⟩ : ∃ n, fuel = n + 1 := ⟨fuel - 1, by rw [List.length_cons] at hfuel; omega⟩
        have hlt : r < 0x80 := UInt8.lt_iff_toNat_lt.mpr (Nat.lt_trans hr (by decide))
        rw [if_pos (by rw [List.length_cons]; omega), whileString, lowByte_littleEndian,
          List.headD_cons]
        unfold signed NINE ZERO
        simp only [if_pos hlt]
        rw [if_neg (by omega), if_pos (by omega), decimalFrom_nil, Nat.mod_eq_of_lt heax]
    | cons d digits =>
      have hd := (signed_digit (hdigits d (List.mem_cons_of_mem _ List.mem_cons_self))).2.2
      rw [List.cons_append, List.headD_cons, if_neg hd,
        if_pos (by rw [List.length_cons]; omega), Nat.add_sub_cancel]
      exact ih (List.cons_ne_nil _ _) (fun x hx => hdigits x (List.mem_cons_of_mem _ hx)) hrest
        (by rw [List.length_cons] at hfuel; omega)

/-- The first character is read like the others. -/
theorem convertString_eq_whileString (buf : Mem) {numBytes : Nat} (h : numBytes ≠ 0) :
    convertString buf numBytes =
      whileString (Function.update buf numBytes 0) 17 0
        (orBytes (Function.update buf numBytes 0) 8 0 0 0) 8 := by
  rw [convertString, if_neg h, whileString]
  simp only
  have hvalue : (5 * 0 % 2 ^ 32 * 2 +
      ((lowByte (orBytes (Function.update buf numBytes 0) 8 0 0 0)).toNat - ZERO)) % 2 ^ 32 =
      (lowByte (orBytes (Function.update buf numBytes 0) 8 0 0 0)).toNat - ZERO := by
    have := (lowByte (orBytes (Function.update buf numBytes 0) 8 0 0 0)).toNat_lt
    omega
  rw [hvalue, if_pos (show 8 - 1 ≠ 0 by omega)]

/-- What `buf` holds, with the `NUL` behind the text. -/
theorem bytesAt_buf (stack : Mem) (text : List UInt8) (n : Nat) :
    bytesAt (Function.update (readInto stack text) text.length 0) 0 (text.length + 1 + n) =
      text ++ 0 :: bytesAt stack (text.length + 1) n := by
  let shown := text ++ 0 :: bytesAt stack (text.length + 1) n
  have hlength : shown.length = text.length + 1 + n := by
    rw [List.length_append, List.length_cons, bytesAt_length]
    omega
  show _ = shown
  rw [← hlength]
  refine bytesAt_eq_iff.mpr fun i hi => ?_
  rw [Nat.zero_add]
  rcases Nat.lt_trichotomy i text.length with hlt | rfl | hgt
  · rw [Function.update_of_ne (by omega), List.getElem_append_left hlt, readInto,
      List.getD_eq_getElem _ _ hlt]
  · rw [Function.update_self, List.getElem_append_right (Nat.le_refl _)]
    simp
  · rw [Function.update_of_ne (by omega), List.getElem_append_right (by omega), readInto,
      List.getD_eq_default _ _ (by omega)]
    obtain ⟨k, rfl⟩ : ∃ k, i = text.length + 1 + k := ⟨i - (text.length + 1), by omega⟩
    simp [bytesAt, show text.length + 1 + k - text.length = k + 1 by omega]

/-- **Up to eight digits count**, whatever stands behind them. -/
theorem convertString_eq (stack : Mem) {digits tail : List UInt8} (hne : digits ≠ [])
    (hdigits : ∀ c ∈ digits, IsDecimal c) (htail : tail.headD 0 < 0x30) :
    convertString (readInto stack (digits ++ tail)) (digits ++ tail).length =
      some (decimal (digits.take 8) % 2 ^ 32) := by
  have hpos : (digits ++ tail).length ≠ 0 := by
    rw [List.length_append]
    have := List.length_pos_iff.mpr hne
    omega
  let behind := tail ++ 0 :: bytesAt stack ((digits ++ tail).length + 1) 8
  have hload : bytesAt (Function.update (readInto stack (digits ++ tail)) (digits ++ tail).length 0)
      0 8 = digits.take 8 ++ behind.take (8 - digits.length) := by
    rw [← bytesAt_take _ _ (by omega : 8 ≤ (digits ++ tail).length + 1 + 8), bytesAt_buf,
      List.append_assoc, List.take_append]
  have hbehind : (behind.take (8 - digits.length)).headD 0 < 0x30 := by
    cases hroom : 8 - digits.length with
    | zero =>
      rw [List.take_zero]
      decide
    | succ k =>
      cases htl : tail with
      | nil => simp [behind, htl]
      | cons c tl =>
        rw [htl] at htail
        simpa [behind, htl] using htail
  have hlength : (digits.take 8 ++ behind.take (8 - digits.length)).length = 8 := by
    rw [← hload, bytesAt_length]
  have hread := @whileString_eq
    (Function.update (readInto stack (digits ++ tail)) (digits ++ tail).length 0) (digits.take 8)
    (behind.take (8 - digits.length)) 17 0 (List.take_eq_nil_iff.not.mpr (by simp [hne]))
    (fun c hc => hdigits c (List.mem_of_mem_take hc)) hbehind
    (by rw [List.length_take]; omega)
  rw [hlength] at hread
  rw [convertString_eq_whileString _ hpos, orBytes_eq_littleEndian, hload, hread]
  rfl

/-! ## What was written is read back -/

/-- The first digits of a long number are a smaller number. -/
theorem decimal_take_lt {digits : List UInt8} (hdigits : ∀ c ∈ digits, IsDecimal c) (k : Nat) :
    decimal (digits.take k) < 10 ^ k := by
  have hlt := decimalFrom_lt (digits.take k) (fun c hc => hdigits c (List.mem_of_mem_take hc)) 0
  rw [Nat.zero_add, Nat.one_mul] at hlt
  exact Nat.lt_of_lt_of_le hlt (Nat.pow_le_pow_right (by omega) (by rw [List.length_take]; omega))

/-- A file that returns what was written to it, with a newline or without one. -/
def ReturnsWritten (calls : WriteCalls) (value : UInt32) (newline : Bool) (reads : ReadCalls) :
    Prop :=
  calls.openFile = .ok () ∧ calls.writeFile = .ok () ∧ reads.openFile = .ok () ∧
    ∃ text reports, setUnsignedInt calls value = some (text, reports) ∧
      reads.readFile = .ok (text ++ if newline then [0x0A] else [])

/-- **The value is read back exactly when it has eight digits at most.** -/
theorem getUnsignedInt_setUnsignedInt_iff {calls : WriteCalls} {value : UInt32} {newline : Bool}
    {reads : ReadCalls} (h : ReturnsWritten calls value newline reads) (stack : Mem)
    (leftover : Nat) :
    (getUnsignedInt stack leftover reads).1 = some value.toNat ↔ value < 100000000 := by
  obtain ⟨hopen, hwrite, hopenRead, text, reports, hset, hread⟩ := h
  rw [setUnsignedInt_eq hopen hwrite] at hset
  obtain rfl : numeral value.toNat = text := (Prod.mk.inj (Option.some.inj hset)).1
  have hdigits := numeral_isDecimal value.toNat
  have hlen : (numeral value.toNat).length ≤ 10 :=
    numeral_length_le (k := 9) (by have := value.toNat_lt; omega)
  have htail : ((if newline then [0x0A] else [] : List UInt8)).headD 0 < 0x30 := by
    cases newline <;> decide
  have hshort : (numeral value.toNat ++ if newline then [0x0A] else []).length ≤ 11 := by
    rw [List.length_append]
    cases newline <;> simp <;> omega
  have hget : (getUnsignedInt stack leftover reads).1 =
      some (decimal ((numeral value.toNat).take 8) % 2 ^ 32) := by
    unfold getUnsignedInt
    simp only [hopenRead, hread]
    rw [List.take_of_length_le (by omega), if_neg (by omega)]
    exact convertString_eq stack (List.length_pos_iff.mp (numeral_length_pos _)) hdigits htail
  have hsmall := decimal_take_lt hdigits 8
  rw [hget, Nat.mod_eq_of_lt (Nat.lt_trans hsmall (by omega)), Option.some.injEq,
    UInt32.lt_iff_toNat_lt]
  constructor
  · intro heq
    rw [← heq]
    exact hsmall
  · intro hlt
    rw [List.take_of_length_le (numeral_length_le (k := 7) hlt), decimal_numeral]

/-- All system calls succeed, and the file returns `text`. -/
def succeeds : WriteCalls := ⟨.ok (), .ok (), .ok ()⟩
def returns (text : List UInt8) : ReadCalls := ⟨.ok (), .ok text, .ok ()⟩

theorem getUnsignedInt_setUnsignedInt_fourDigits :
    (getUnsignedInt (fun _ => 0) 0 (returns [0x34, 0x30, 0x39, 0x36, 0x0A])).1 = some 4096 ↔
      (4096 : UInt32) < 100000000 :=
  getUnsignedInt_setUnsignedInt_iff
    (show ReturnsWritten succeeds 4096 true _ from
      ⟨rfl, rfl, rfl, [0x34, 0x30, 0x39, 0x36], [], rfl, rfl⟩) (fun _ => 0) 0

/-- **Nine digits**: `100000000` is written, and `10000000` is read. -/
theorem getUnsignedInt_nineDigits :
    ¬ ∀ (calls : WriteCalls) (value : UInt32) (newline : Bool) (reads : ReadCalls),
      ReturnsWritten calls value newline reads → ∀ (stack : Mem) (leftover : Nat),
      (getUnsignedInt stack leftover reads).1 = some value.toNat := by
  intro h
  let text : List UInt8 := [0x31, 0x30, 0x30, 0x30, 0x30, 0x30, 0x30, 0x30, 0x30]
  have hreturns : ReturnsWritten succeeds 100000000 false (returns text) :=
    ⟨rfl, rfl, rfl, text, [], rfl, rfl⟩
  have hread := h succeeds 100000000 false (returns text) hreturns (fun _ => 0) 0
  have hcode : (getUnsignedInt (fun _ => 0) 0 (returns text)).1 = some 10000000 := by decide +kernel
  rw [hcode] at hread
  exact absurd hread (by decide)

end DevopsBroker.System
