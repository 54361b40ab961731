import Mathlib.Data.Int.Lemmas
import DevopsBroker.Lang.IntegerText

/-!
# Formatting integers

A formatter writes from the end of its buffer: what is shown there grows at its front
(`Target.Shows`), and the ladder of `getStringSize` has exactly room for the digits of the value, its
sign and the `NUL`. So the buffer is filled from its first byte on.
-/

namespace DevopsBroker.Lang

open DevopsBroker.Lib

/-! ## Writing from the end -/

namespace Target

/-- A text is at the end of a buffer that is allocated for some size, and its characters are what
was written. -/
structure Shows (size : Nat) (text : List UInt8) (target : Target) : Prop where
  ends : target.offset + text.length = size
  allocated : target.object.size = (size + 15) / 16 * 16
  bytes : bytesAt target.object.byte target.offset text.length = text
  written : target.written = List.range' target.offset text.length

theorem Shows.room {size : Nat} {text : List UInt8} {target : Target} (h : target.Shows size text) :
    size ≤ target.object.size := by
  have hallocated := h.allocated
  omega

/-- The buffer is the one that is allocated for the size, and each byte of the size is written, from
the first one on. -/
structure Fills (size : Nat) (target : Target) : Prop where
  allocated : target.object.size = (size + 15) / 16 * 16
  offset : target.offset = 0
  written : target.written = List.range size

/-- **A character goes in front.** -/
theorem Shows.put {size : Nat} {text : List UInt8} {target : Target} (h : target.Shows size text)
    (hroom : text.length < size) (ch : UInt8) :
    ∃ target', target.put ch = some target' ∧ target'.Shows size (ch :: text) := by
  have hends := h.ends
  have hsize := h.room
  have hallocated := h.allocated
  obtain ⟨object, offset, written⟩ := target
  cases offset with
  | zero =>
    dsimp only at hends
    omega
  | succ offset =>
    dsimp only at hends hsize
    have hstore : object.storeByte offset ch =
        some { object with byte := storeByte object.byte offset ch } := if_pos (by omega)
    refine ⟨⟨{ object with byte := storeByte object.byte offset ch }, offset, offset :: written⟩,
      ?_, ?_, hallocated, ?_, ?_⟩
    · simp only [Target.put, hstore, Option.map_some]
    · dsimp only
      rw [List.length_cons]
      omega
    · have hfirst : storeByte object.byte offset ch offset = ch := if_pos rfl
      have hrest : bytesAt (storeByte object.byte offset ch) (offset + 1) text.length = text := by
        conv => rhs; rw [← h.bytes]
        exact bytesAt_inj.mpr fun k _ => if_neg (by omega)
      dsimp only
      rw [List.length_cons, bytesAt_succ, hfirst, hrest]
    · rw [List.length_cons, List.range'_succ]
      exact congrArg (offset :: ·) h.written

/-- Two characters. -/
theorem Shows.putTwo {size : Nat} {text : List UInt8} {target : Target} (h : target.Shows size text)
    (hroom : text.length + 1 < size) (first second : UInt8) :
    ∃ target', (target.put second).bind (Target.put · first) = some target' ∧
      target'.Shows size (first :: second :: text) := by
  obtain ⟨target₁, hput, hshows⟩ := h.put (by omega) second
  obtain ⟨target₂, hput', hshows'⟩ := hshows.put (by rw [List.length_cons]; omega) first
  exact ⟨target₂, by rw [hput]; exact hput', hshows'⟩

theorem allocate_shows (garbage : Mem) {size : Nat} (hpos : 0 < size) (hsmall : size + 15 < 2 ^ 63) :
    ∃ target, allocate garbage size = some target ∧ target.Shows size [0] := by
  have hshows : Shows size [] ⟨⟨(size + 15) / 16 * 16, garbage⟩, size, []⟩ :=
    ⟨rfl, rfl, rfl, rfl⟩
  obtain ⟨target, hput, hshows'⟩ := hshows.put hpos 0
  refine ⟨target, ?_, hshows'⟩
  rw [allocate, malloc_eq garbage hsmall]
  exact hput

/-- A text with its `NUL` that is as long as the buffer. -/
theorem Shows.fills {size : Nat} {text : List UInt8} {target : Target}
    (h : target.Shows size (text ++ [0])) (hnul : 0 ∉ text) (hlength : size = text.length + 1) :
    target.Fills size ∧ TextAt target.object.byte target.offset text := by
  have hends := h.ends
  have hbytes := h.bytes
  have hwritten := h.written
  rw [List.length_append, List.length_singleton] at hends hbytes hwritten
  have hzero : target.offset = 0 := by omega
  refine ⟨⟨h.allocated, hzero, ?_⟩, hnul, hbytes⟩
  rw [hwritten, hzero, ← hlength, List.range_eq_range']

theorem textAt_literal {text : List UInt8} (h : 0 ∉ text) :
    TextAt (literal text).object.byte (literal text).offset text := textAt_textMem h

end Target

/-! ## Digits -/

theorem digitOnes_getD : ∀ n < 100, digitOnes.getD n 0 = digitOf (n % 10) := by decide +kernel

theorem digitTens_getD : ∀ n < 100, digitTens.getD n 0 = digitOf (n / 10) := by decide +kernel

/-- What the digits of a number are, from those of the number without the last one. -/
structure IsNumeralIn (base : Nat) (digit : Nat → UInt8) (digits : Nat → List UInt8) : Prop where
  of_lt : ∀ n < base, digits n = [digit n]
  of_le : ∀ n, base ≤ n → digits n = digits (n / base) ++ [digit (n % base)]

/-- A loop that writes two digits at a time, the last one first, and then what is left: one or two. -/
structure WritesPairs (base : Nat) (digit : Nat → UInt8) (write : Nat → Target → Option Target) :
    Prop where
  more : ∀ value target, base * base ≤ value → write value target =
    ((target.put (digit (value % base))).bind (Target.put · (digit (value / base % base)))).bind
      (write (value / base / base))
  two : ∀ value target, base ≤ value → value < base * base → write value target =
    (target.put (digit (value % base))).bind (Target.put · (digit (value / base)))
  one : ∀ value target, value < base → write value target = target.put (digit value)

/-- **The digits of a value are written in front.** -/
theorem WritesPairs.shows {base : Nat} {digit : Nat → UInt8} {digits : Nat → List UInt8}
    {write : Nat → Target → Option Target} (hwrite : WritesPairs base digit write)
    (hdigits : IsNumeralIn base digit digits) (hbase : 1 < base) {size : Nat} (value : Nat) :
    ∀ {text : List UInt8} {target : Target}, target.Shows size text →
      (digits value).length + text.length ≤ size →
      ∃ target', write value target = some target' ∧ target'.Shows size (digits value ++ text) := by
  induction value using Nat.strong_induction_on with
  | _ value ih =>
    intro text target hshows hroom
    rcases Nat.lt_or_ge value base with hone | hle
    · rw [hdigits.of_lt value hone] at hroom ⊢
      rw [hwrite.one value target hone]
      exact hshows.put (by rw [List.length_singleton] at hroom; omega) _
    have hlast := hdigits.of_le value hle
    rcases Nat.lt_or_ge value (base * base) with htwo | hmore
    · rw [hdigits.of_lt (value / base) (Nat.div_lt_of_lt_mul htwo)] at hlast
      rw [hlast, List.length_append, List.length_singleton, List.length_singleton] at hroom
      rw [hwrite.two value target hle htwo, hlast]
      exact hshows.putTwo (by omega) _ _
    · have hle' : base ≤ value / base := (Nat.le_div_iff_mul_le (by omega)).mpr hmore
      rw [hdigits.of_le (value / base) hle', List.append_assoc] at hlast
      rw [hlast, List.length_append] at hroom
      rw [hwrite.more value target hmore, hlast, List.append_assoc]
      have hpair : ([digit (value / base % base)] ++ [digit (value % base)]).length = 2 := rfl
      obtain ⟨target₁, hput, hshows₁⟩ := hshows.putTwo (by omega) (digit (value / base % base))
        (digit (value % base))
      have hsmaller : value / base / base < value :=
        Nat.lt_of_le_of_lt (Nat.div_le_self ..) (Nat.div_lt_self (by omega) hbase)
      obtain ⟨target', hrun, hshows'⟩ := ih (value / base / base) hsmaller hshows₁
        (by rw [List.length_cons, List.length_cons]; omega)
      exact ⟨target', by rw [hput]; exact hrun, hshows'⟩

theorem isNumeralIn_numeral : IsNumeralIn 10 digitOf numeral :=
  ⟨fun _ h => numeral_of_lt h, fun _ h => numeral_of_le h⟩

theorem digitOf_tables {value : Nat} (h : value < 100) (target : Target) :
    (target.put (digitOnes.getD value 0)).bind (Target.put · (digitTens.getD value 0)) =
      (target.put (digitOf (value % 10))).bind (Target.put · (digitOf (value / 10))) := by
  rw [digitOnes_getD value h, digitTens_getD value h]

theorem writesPairs_writeDecimal : WritesPairs 10 digitOf writeDecimal where
  more := fun value target h => by
    have hones : value % 100 % 10 = value % 10 := by omega
    have htens : value % 100 / 10 = value / 10 % 10 := by omega
    have hpair := digitOf_tables (Nat.mod_lt value (by decide : 0 < 100)) target
    rw [hones, htens] at hpair
    rw [writeDecimal, if_pos h, ← hpair, Nat.div_div_eq_div_mul]
    exact (Option.bind_assoc ..).symm
  two := fun value target hle hlt => by
    rw [writeDecimal, if_neg (by omega), if_neg (by omega), ← digitOf_tables hlt target]
    rfl
  one := fun value target h => by
    rw [writeDecimal, if_neg (by omega), if_pos h]
    rfl

/-- The decimal digits of a value. -/
theorem writeDecimal_shows {size : Nat} (value : Nat) {text : List UInt8} {target : Target}
    (hshows : target.Shows size text) (hroom : (numeral value).length + text.length ≤ size) :
    ∃ target', writeDecimal value target = some target' ∧
      target'.Shows size (numeral value ++ text) :=
  writesPairs_writeDecimal.shows isNumeralIn_numeral (by decide) value hshows hroom

/-- The digits of a value with its sign. -/
def signedNumeral (sign : Bool) (value : Nat) : List UInt8 :=
  if sign then 0x2D :: numeral value else numeral value

theorem signedNumeral_ne_zero (sign : Bool) (value : Nat) : 0 ∉ signedNumeral sign value := by
  have hdigits : 0 ∉ numeral value := fun hmem => (numeral_isDecimal value 0 hmem).ne_zero rfl
  cases sign with
  | false => exact hdigits
  | true => exact fun hmem => (List.mem_cons.mp hmem).elim (by decide) hdigits

/-- **A buffer with room for the digits, the sign and the `NUL` is filled with them.** -/
theorem writeSigned_fills (garbage : Mem) {size value : Nat} {sign : Bool}
    (hsize : size = (signedNumeral sign value).length + 1) (hsmall : size + 15 < 2 ^ 63) :
    ∃ target, (Target.allocate garbage size).bind (writeSigned value sign) = some target ∧
      target.Fills size ∧
      TextAt target.object.byte target.offset (signedNumeral sign value) := by
  obtain ⟨target₁, halloc, hshows₁⟩ := Target.allocate_shows garbage (by omega : 0 < size) hsmall
  have hnul := signedNumeral_ne_zero sign value
  rw [halloc, Option.bind_some, writeSigned]
  cases sign with
  | false =>
    rw [signedNumeral, if_neg Bool.false_ne_true] at hsize hnul ⊢
    obtain ⟨target, hrun, hshows⟩ := writeDecimal_shows value hshows₁
      (by rw [List.length_singleton]; omega)
    exact ⟨target, by rw [hrun]; rfl, hshows.fills hnul hsize⟩
  | true =>
    rw [signedNumeral, if_pos rfl] at hsize hnul ⊢
    rw [List.length_cons] at hsize
    obtain ⟨target₂, hrun, hshows₂⟩ := writeDecimal_shows value hshows₁
      (by rw [List.length_singleton]; omega)
    obtain ⟨target, hput, hshows⟩ := hshows₂.put
      (by rw [List.length_append, List.length_singleton]; omega) 0x2D
    exact ⟨target, by rw [hrun]; exact hput, hshows.fills hnul (by rw [List.length_cons]; omega)⟩

/-! ## Sizes -/

theorem size_of_digits {value k : Nat} {size : UInt32} (hsize : size.toNat = k + 2)
    (hle : k = 0 ∨ 10 ^ k ≤ value) (hlt : value < 10 ^ (k + 1)) :
    size.toNat = (numeral value).length + 1 := by
  rcases hle with rfl | hle
  · rw [hsize, numeral_of_lt hlt, List.length_singleton]
  · rw [hsize, numeral_length hle hlt]

/-- **The ladder counts the digits**, and the `NUL`. -/
theorem getStringSize_uint32_eq (value : UInt32) :
    (getStringSize_uint32 value).toNat = (numeral value.toNat).length + 1 := by
  have hlt := value.toNat_lt
  unfold getStringSize_uint32
  simp only [UInt32.lt_iff_toNat_lt, UInt32.reduceToNat]
  split_ifs
  · exact size_of_digits (k := 0) rfl (by omega) (by omega)
  · exact size_of_digits (k := 1) rfl (by omega) (by omega)
  · exact size_of_digits (k := 2) rfl (by omega) (by omega)
  · exact size_of_digits (k := 3) rfl (by omega) (by omega)
  · exact size_of_digits (k := 4) rfl (by omega) (by omega)
  · exact size_of_digits (k := 5) rfl (by omega) (by omega)
  · exact size_of_digits (k := 6) rfl (by omega) (by omega)
  · exact size_of_digits (k := 7) rfl (by omega) (by omega)
  · exact size_of_digits (k := 8) rfl (by omega) (by omega)
  · exact size_of_digits (k := 9) rfl (by omega) (by omega)

theorem getStringSize_uint64_eq (value : UInt64) :
    (getStringSize_uint64 value).toNat = (numeral value.toNat).length + 1 := by
  have hlt := value.toNat_lt
  unfold getStringSize_uint64
  simp only [UInt64.lt_iff_toNat_lt, UInt64.reduceToNat]
  split_ifs
  · exact size_of_digits (k := 0) rfl (by omega) (by omega)
  · exact size_of_digits (k := 1) rfl (by omega) (by omega)
  · exact size_of_digits (k := 2) rfl (by omega) (by omega)
  · exact size_of_digits (k := 3) rfl (by omega) (by omega)
  · exact size_of_digits (k := 4) rfl (by omega) (by omega)
  · exact size_of_digits (k := 5) rfl (by omega) (by omega)
  · exact size_of_digits (k := 6) rfl (by omega) (by omega)
  · exact size_of_digits (k := 7) rfl (by omega) (by omega)
  · exact size_of_digits (k := 8) rfl (by omega) (by omega)
  · exact size_of_digits (k := 9) rfl (by omega) (by omega)
  · exact size_of_digits (k := 10) rfl (by omega) (by omega)
  · exact size_of_digits (k := 11) rfl (by omega) (by omega)
  · exact size_of_digits (k := 12) rfl (by omega) (by omega)
  · exact size_of_digits (k := 13) rfl (by omega) (by omega)
  · exact size_of_digits (k := 14) rfl (by omega) (by omega)
  · exact size_of_digits (k := 15) rfl (by omega) (by omega)
  · exact size_of_digits (k := 16) rfl (by omega) (by omega)
  · exact size_of_digits (k := 17) rfl (by omega) (by omega)
  · exact size_of_digits (k := 18) rfl (by omega) (by omega)
  · exact size_of_digits (k := 19) rfl (by omega) (by omega)

/-! ## Signs -/

/-- The value without its sign, when it is taken off by negation. -/
theorem magnitude_eq {n negated : Int} {sign : Prop} [Decidable sign] (hsign : sign ↔ n < 0)
    (hneg : negated = -n) : (if decide sign = true then negated else n).toNat = n.natAbs := by
  by_cases hs : sign
  · have hlt := hsign.mp hs
    rw [if_pos (decide_eq_true hs), hneg]
    omega
  · have hge := mt hsign.mpr hs
    rw [if_neg (mt of_decide_eq_true hs)]
    omega

/-- The size that `getStringSize` adds up: one more for the sign. -/
theorem size_of_signed {n : Int} {nonneg sign : Prop} [Decidable nonneg] [Decidable sign]
    {size size' : UInt32} (hsign : sign ↔ n < 0) (hnonneg : nonneg ↔ 0 ≤ n) (hsmall : n.natAbs < 2 ^ 64)
    (hsize : 0 ≤ n → size.toNat = (numeral n.natAbs).length + 1)
    (hsize' : n < 0 → size'.toNat = (numeral n.natAbs).length + 1) :
    (if nonneg then size else size' + 1).toNat =
      (signedNumeral (decide sign) n.natAbs).length + 1 := by
  rcases Int.lt_or_le n 0 with hlt | hge
  · have hshort : (numeral n.natAbs).length ≤ 20 := numeral_length_le (k := 19) (by omega)
    have hone : (1 : UInt32).toNat = 1 := rfl
    rw [if_neg (mt hnonneg.mp (by omega)), decide_eq_true (hsign.mpr hlt), UInt32.toNat_add,
      hsize' hlt, hone, Nat.mod_eq_of_lt (by omega)]
    rfl
  · rw [if_pos (hnonneg.mpr hge), decide_eq_false (mt hsign.mp (by omega)), hsize hge]
    rfl

/-- The size for a value of some width, from the one for its magnitude. -/
theorem size_of_magnitude {S U : Type} [Neg S] {toInt : S → Int} {toUnsigned : S → U} {toNat : U → Nat}
    {getStringSize : U → UInt32} {value : S} {nonneg sign : Prop} [Decidable nonneg] [Decidable sign]
    (hsize : ∀ u, (getStringSize u).toNat = (numeral (toNat u)).length + 1)
    (hnat : ∀ {v : S}, 0 ≤ toInt v → toNat (toUnsigned v) = (toInt v).natAbs)
    (hneg : toInt (-value) = -toInt value) (hsign : sign ↔ toInt value < 0)
    (hnonneg : nonneg ↔ 0 ≤ toInt value) (hsmall : (toInt value).natAbs < 2 ^ 64) :
    (if nonneg then getStringSize (toUnsigned value) else getStringSize (toUnsigned (-value)) + 1).toNat =
      (signedNumeral (decide sign) (toInt value).natAbs).length + 1 := by
  refine size_of_signed hsign hnonneg hsmall (fun hge => ?_) fun hlt => ?_
  · rw [hsize, hnat hge]
  · rw [hsize, hnat (by omega), hneg, Int.natAbs_neg]

section

variable {value : Int32}

theorem neg_iff_int32 : value < 0 ↔ value.toInt < 0 := by
  rw [Int32.lt_iff_toInt_lt, Int32.toInt_zero]

theorem nonneg_iff_int32 : 0 ≤ value ↔ 0 ≤ value.toInt := by
  rw [Int32.le_iff_toInt_le, Int32.toInt_zero]

theorem toInt_neg_int32 (hmin : value ≠ Int32.minValue) : (-value).toInt = -value.toInt := by
  have hne : value.toInt ≠ -2 ^ 31 := fun h => hmin (Int32.toInt_inj.mp h)
  have hle := value.le_toInt
  have hlt := value.toInt_lt
  rw [Int32.toInt_neg, Int.bmod_eq_of_le (by omega) (by omega)]

theorem magnitude_int32 (hmin : value ≠ Int32.minValue) :
    (if decide (value < 0) = true then -value else value).toInt.toNat = value.toInt.natAbs := by
  rw [apply_ite Int32.toInt]
  exact magnitude_eq neg_iff_int32 (toInt_neg_int32 hmin)

theorem toNat_toUInt32 {v : Int32} (hv : 0 ≤ v.toInt) : v.toUInt32.toNat = v.toInt.natAbs := by
  rw [Int32.toNat_toUInt32_of_le (nonneg_iff_int32.mpr hv), ← Int32.toNat_toInt]
  omega

theorem getStringSize_int32_eq (hmin : value ≠ Int32.minValue) :
    (getStringSize_int32 value).toNat =
      (signedNumeral (decide (value < 0)) value.toInt.natAbs).length + 1 := by
  have hle := value.le_toInt
  have hlt := value.toInt_lt
  exact size_of_magnitude getStringSize_uint32_eq toNat_toUInt32 (toInt_neg_int32 hmin)
    neg_iff_int32 nonneg_iff_int32 (by omega)

end

section

variable {value : Int64}

theorem neg_iff_int64 : value < 0 ↔ value.toInt < 0 := by
  rw [Int64.lt_iff_toInt_lt, Int64.toInt_zero]

theorem nonneg_iff_int64 : 0 ≤ value ↔ 0 ≤ value.toInt := by
  rw [Int64.le_iff_toInt_le, Int64.toInt_zero]

theorem toInt_neg_int64 (hmin : value ≠ Int64.minValue) : (-value).toInt = -value.toInt := by
  have hne : value.toInt ≠ -2 ^ 63 := fun h => hmin (Int64.toInt_inj.mp h)
  have hle := value.le_toInt
  have hlt := value.toInt_lt
  rw [Int64.toInt_neg, Int.bmod_eq_of_le (by omega) (by omega)]

theorem magnitude_int64 (hmin : value ≠ Int64.minValue) :
    (if decide (value < 0) = true then -value else value).toInt.toNat = value.toInt.natAbs := by
  rw [apply_ite Int64.toInt]
  exact magnitude_eq neg_iff_int64 (toInt_neg_int64 hmin)

theorem toNat_toUInt64 {v : Int64} (hv : 0 ≤ v.toInt) : v.toUInt64.toNat = v.toInt.natAbs := by
  rw [Int64.toNat_toUInt64_of_le (nonneg_iff_int64.mpr hv), ← Int64.toNat_toInt]
  omega

theorem getStringSize_int64_eq (hmin : value ≠ Int64.minValue) :
    (getStringSize_int64 value).toNat =
      (signedNumeral (decide (value < 0)) value.toInt.natAbs).length + 1 := by
  have hle := value.le_toInt
  have hlt := value.toInt_lt
  exact size_of_magnitude getStringSize_uint64_eq toNat_toUInt64 (toInt_neg_int64 hmin)
    neg_iff_int64 nonneg_iff_int64 (by omega)

end

/-! ## Formatters -/

section

variable (garbage : Mem)

theorem writeSigned_false (value : Nat) : writeSigned value false = writeDecimal value := by
  funext target
  rw [writeSigned]
  cases writeDecimal value target <;> rfl

theorem toString_uint32_fills (value : UInt32) :
    ∃ target, toString_uint32 garbage value = some target ∧
      target.Fills (getStringSize_uint32 value).toNat ∧
      TextAt target.object.byte target.offset (numeral value.toNat) := by
  have hsize := getStringSize_uint32_eq value
  have hsmall := (getStringSize_uint32 value).toNat_lt
  have hfills := @writeSigned_fills garbage _ value.toNat false hsize (by omega)
  rw [writeSigned_false] at hfills
  exact hfills

theorem toString_uint64_fills (value : UInt64) :
    ∃ target, toString_uint64 garbage value = some target ∧
      target.Fills (getStringSize_uint64 value).toNat ∧
      TextAt target.object.byte target.offset (numeral value.toNat) := by
  have hsize := getStringSize_uint64_eq value
  have hsmall := (getStringSize_uint64 value).toNat_lt
  have hfills := @writeSigned_fills garbage _ value.toNat false hsize (by omega)
  rw [writeSigned_false] at hfills
  exact hfills

theorem toString_int32_fills {value : Int32} (hmin : value ≠ Int32.minValue) :
    ∃ target, toString_int32 garbage value = some target ∧
      target.Fills (getStringSize_int32 value).toNat ∧
      TextAt target.object.byte target.offset
        (signedNumeral (decide (value < 0)) value.toInt.natAbs) := by
  have hsize := getStringSize_int32_eq hmin
  have hsmall := (getStringSize_int32 value).toNat_lt
  unfold toString_int32
  rw [if_neg hmin]
  dsimp only
  rw [magnitude_int32 hmin]
  exact writeSigned_fills garbage hsize (by omega)

theorem toString_int64_fills {value : Int64} (hmin : value ≠ Int64.minValue) :
    ∃ target, toString_int64 garbage value = some target ∧
      target.Fills (getStringSize_int64 value).toNat ∧
      TextAt target.object.byte target.offset
        (signedNumeral (decide (value < 0)) value.toInt.natAbs) := by
  have hsize := getStringSize_int64_eq hmin
  have hsmall := (getStringSize_int64 value).toNat_lt
  unfold toString_int64
  rw [if_neg hmin]
  dsimp only
  rw [magnitude_int64 hmin]
  exact writeSigned_fills garbage hsize (by omega)

end

end DevopsBroker.Lang
