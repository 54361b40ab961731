import DevopsBroker.Lang.IntegerFormatSpec

/-!
# Parsing integers

`parse_uint32` and `parse_uint64` add up digits modulo the size of their type. `parseInt` reads
eleven characters at most, eight of them at a time. **`parse_toString`**: parsing undoes
formatting. **`parseInt_meets_iff`**: `parseInt` stores what a text denotes, but eleven
characters also have room for numbers that do not fit in an `int`, and for these it stores
something else.
-/

namespace DevopsBroker.Lang

open DevopsBroker.Lib

/-! ## Unsigned integers -/

theorem signed_sub_zero {c : UInt8} (h : IsDecimal c) : signed c - 0x30 = digitValue c := by
  have hle : 0x30 ≤ c.toNat := h.1
  have hge : c.toNat ≤ 0x39 := h.2
  have hsmall : c < 0x80 := UInt8.lt_iff_toNat_lt.mpr (Nat.lt_of_le_of_lt hge (by decide))
  rw [signed, if_pos hsmall, digitValue]
  omega

/-- **Digits are added up**, modulo a power of two. -/
theorem parseRound_returns {mem : Mem} {width : Nat} {text : List UInt8} :
    ∀ {source value : Nat}, TextAt mem source text → (∀ c ∈ text, IsDecimal c) → value < 2 ^ width →
      Returns (fun fuel => rounds (parseRound width mem) fuel (source, value))
        (.ok (decimalFrom value text % 2 ^ width)) := by
  induction text with
  | nil =>
    intro source value htext _ hvalue
    apply returns_done
    rw [parseRound, htext.char, List.headD_nil, if_pos rfl, decimalFrom_nil, Nat.mod_eq_of_lt hvalue]
  | cons c text ih =>
    intro source value htext hdigits hvalue
    obtain ⟨hc, hrest⟩ := List.forall_mem_cons.mp hdigits
    have hdigit := digitValue_lt hc
    have hround : parseRound width mem (source, value) =
        some (.next (source + 1, (10 * value + digitValue c) % 2 ^ width)) := by
      rw [parseRound, htext.char, List.headD_cons, if_neg htext.ne_zero, signed_sub_zero hc,
        if_neg (by omega), Int.toNat_natCast, Nat.mod_add_mod]
    have hrun := @ih (source + 1) ((10 * value + digitValue c) % 2 ^ width) htext.tail hrest
      (Nat.mod_lt _ (Nat.two_pow_pos width))
    rw [decimalFrom_mod] at hrun
    rw [decimalFrom_cons]
    exact returns_next hround hrun

/-! ## What a text denotes -/

/-- One decimal digit or more. -/
def IsNumeral (text : List UInt8) : Prop := text ≠ [] ∧ ∀ c ∈ text, IsDecimal c

instance (text : List UInt8) : Decidable (IsNumeral text) := inferInstanceAs (Decidable (_ ∧ _))

/-- Digits, or a minus and digits. -/
inductive Denotes : List UInt8 → Int → Prop where
  | digits {text : List UInt8} (h : IsNumeral text) : Denotes text (decimal text)
  | minus {text : List UInt8} (h : IsNumeral text) : Denotes (0x2D :: text) (-(decimal text : Int))

/-- It fits in an `int`. -/
def FitsInt (n : Int) : Prop := -2 ^ 31 ≤ n ∧ n < 2 ^ 31

instance (n : Int) : Decidable (FitsInt n) := inferInstanceAs (Decidable (_ ∧ _))

theorem isNumeral_numeral (n : Nat) : IsNumeral (numeral n) :=
  ⟨List.ne_nil_of_length_pos (numeral_length_pos n), numeral_isDecimal n⟩

/-- A minus is no digit. -/
theorem not_isNumeral_minus (text : List UInt8) : ¬ IsNumeral (0x2D :: text) :=
  fun h => absurd (h.2 0x2D List.mem_cons_self) (by decide)

theorem denotes_minus_iff {text : List UInt8} {n : Int} :
    Denotes (0x2D :: text) n ↔ IsNumeral text ∧ n = -(decimal text : Int) := by
  constructor
  · intro h
    cases h with
    | digits h => exact absurd h (not_isNumeral_minus text)
    | minus h => exact ⟨h, rfl⟩
  · rintro ⟨h, rfl⟩
    exact .minus h

theorem denotes_digits_iff {text : List UInt8} (hminus : text.head? ≠ some 0x2D) {n : Int} :
    Denotes text n ↔ IsNumeral text ∧ n = decimal text := by
  constructor
  · intro h
    cases h with
    | digits h => exact ⟨h, rfl⟩
    | minus h => exact absurd rfl hminus
  · rintro ⟨h, rfl⟩
    exact .digits h

/-! ## `parseInt` on a text -/

/-- `jg` and `jl`. -/
theorem isDecimal_iff_jumps {c : UInt8} :
    IsDecimal c ↔ ¬ signed c > 0x39 ∧ ¬ signed c < 0x30 := isDecimal_iff_signed

/-- `eax` behind one more digit. -/
theorem eax_toNat {c : UInt8} (h : IsDecimal c) (eax : UInt32) :
    (10 * eax + (c - 0x30).toUInt32).toNat = (10 * eax.toNat + digitValue c) % 2 ^ 32 := by
  have hdigit : (c - 0x30).toNat = digitValue c := UInt8.toNat_sub_of_le c 0x30 h.1
  have hten : (10 : UInt32).toNat = 10 := rfl
  rw [UInt32.toNat_add, UInt32.toNat_mul, UInt8.toNat_toUInt32, hdigit, hten, Nat.mod_add_mod]

/-- **`.whileInteger` on a text.** -/
theorem whileInteger_eq {text : List UInt8} :
    ∀ {numChars : Nat} {eax : UInt32}, text ≠ [] → numChars ≤ 10 →
      whileInteger text numChars eax =
        if IsNumeral text ∧ numChars + text.length ≤ 11 then
          some (UInt32.ofNat (decimalFrom eax.toNat text))
        else none := by
  induction text with
  | nil => exact fun hne => absurd rfl hne
  | cons c text ih =>
    intro numChars eax _ hchars
    by_cases hc : IsDecimal c
    · obtain ⟨hnine, hzero⟩ := isDecimal_iff_jumps.mp hc
      have heax := eax_toNat hc eax
      rw [whileInteger, if_neg hnine, if_neg hzero]
      dsimp only
      cases text with
      | nil =>
        have hnumeral : IsNumeral [c] :=
          ⟨List.cons_ne_nil _ _, fun d hd => by rwa [List.mem_singleton.mp hd]⟩
        show some (10 * eax + (c - 0x30).toUInt32) = _
        rw [if_pos ⟨hnumeral, by rw [List.length_singleton]; omega⟩]
        refine congrArg some (UInt32.toNat_inj.mp ?_)
        rw [heax, UInt32.toNat_ofNat']
        rfl
      | cons d text =>
        dsimp only
        by_cases heleven : numChars + 1 = 11
        · rw [if_pos heleven, if_neg]
          rintro ⟨_, hlength⟩
          rw [List.length_cons, List.length_cons] at hlength
          omega
        · have hiff : IsNumeral (d :: text) ∧ numChars + 1 + (d :: text).length ≤ 11 ↔
              IsNumeral (c :: d :: text) ∧ numChars + (c :: d :: text).length ≤ 11 := by
            have hcons : IsNumeral (c :: d :: text) ↔ IsNumeral (d :: text) := by
              unfold IsNumeral
              rw [List.forall_mem_cons]
              exact ⟨fun h => ⟨List.cons_ne_nil _ _, h.2.2⟩, fun h => ⟨List.cons_ne_nil _ _, hc, h.2⟩⟩
            have hlength : numChars + 1 + (d :: text).length ≤ 11 ↔
                numChars + (c :: d :: text).length ≤ 11 := by
              rw [List.length_cons (a := c)]
              omega
            rw [hcons, hlength]
          have hvalue : UInt32.ofNat (decimalFrom ((10 * eax.toNat + digitValue c) % 2 ^ 32)
              (d :: text)) = UInt32.ofNat (decimalFrom eax.toNat (c :: d :: text)) := by
            apply UInt32.toNat_inj.mp
            rw [UInt32.toNat_ofNat', UInt32.toNat_ofNat', decimalFrom_mod, decimalFrom_cons _ c]
          rw [if_neg heleven, ih (List.cons_ne_nil _ _) (by omega), heax, hvalue]
          simp only [hiff]
    · have hnot : ¬ (IsNumeral (c :: text) ∧ numChars + (c :: text).length ≤ 11) :=
        fun h => hc (h.1.2 c List.mem_cons_self)
      rw [if_neg hnot, whileInteger]
      by_cases hnine : signed c > 0x39
      · rw [if_pos hnine]
      · rw [if_neg hnine, if_pos]
        by_contra hzero
        exact hc (isDecimal_iff_jumps.mpr ⟨hnine, hzero⟩)

/-- What is stored for a number. -/
def stored (n : Int) : UInt32 := (Int32.ofInt n).toUInt32

theorem stored_toInt {n : Int} (h : FitsInt n) : (stored n).toInt32.toInt = n := by
  rw [stored, Int32.toInt32_toUInt32, Int32.toInt_ofInt_of_le h.1 h.2]

theorem ofNat_eq_stored (n : Nat) : UInt32.ofNat n = stored n := by
  rw [stored, Int32.ofInt_eq_ofNat, Int32.toUInt32_ofNat']

theorem neg_ofNat_eq_stored (n : Nat) : -UInt32.ofNat n = stored (-(n : Int)) := by
  rw [stored, ← Int32.neg_ofInt, Int32.ofInt_eq_ofNat]
  rfl

theorem parseInt_minus (text : List UInt8) (value : UInt32) :
    parseInt (0x2D :: text) value =
      match (whileInteger text 1 0).map fun eax => -eax with
      | none => (-1, value)
      | some eax => (0, eax) := rfl

theorem parseInt_digits {text : List UInt8} (hminus : text.head? ≠ some 0x2D) (value : UInt32) :
    parseInt text value =
      match whileInteger text 0 0 with
      | none => (-1, value)
      | some eax => (0, eax) := by
  unfold parseInt
  split
  next rest => exact absurd rfl hminus
  next _ => rfl

/-- **What `parseInt` stores.** -/
theorem parseInt_of_denotes {text : List UInt8} {n : Int} (h : Denotes text n)
    (hlength : text.length ≤ 11) (value : UInt32) : parseInt text value = (0, stored n) := by
  cases h with
  | digits h =>
    have hhead : text.head? ≠ some 0x2D := by
      intro hminus
      obtain ⟨rest, rfl⟩ := List.head?_eq_some_iff.mp hminus
      exact not_isNumeral_minus rest h
    rw [parseInt_digits hhead, whileInteger_eq h.1 (by decide), if_pos ⟨h, by omega⟩]
    exact congrArg (Prod.mk 0) (ofNat_eq_stored _)
  | minus h =>
    rw [List.length_cons] at hlength
    rw [parseInt_minus, whileInteger_eq h.1 (by decide), if_pos ⟨h, by omega⟩]
    exact congrArg (Prod.mk 0) (neg_ofNat_eq_stored _)

/-- **What it rejects.** -/
theorem parseInt_of_not_denotes {text : List UInt8}
    (h : ∀ n, Denotes text n → 11 < text.length) (value : UInt32) :
    parseInt text value = (-1, value) := by
  by_cases hminus : text.head? = some 0x2D
  · obtain ⟨rest, rfl⟩ := List.head?_eq_some_iff.mp hminus
    rw [parseInt_minus]
    cases rest with
    | nil => rfl
    | cons c rest =>
      rw [whileInteger_eq (List.cons_ne_nil _ _) (by decide), if_neg]
      · rfl
      · rintro ⟨hnumeral, hlength⟩
        have hlong := h _ (.minus hnumeral)
        rw [List.length_cons] at hlong
        omega
  · rw [parseInt_digits hminus]
    cases text with
    | nil => rfl
    | cons c text =>
      rw [whileInteger_eq (List.cons_ne_nil _ _) (by decide), if_neg]
      rintro ⟨hnumeral, hlength⟩
      have hlong := h _ (.digits hnumeral)
      omega

/-! ## `parseInt` in memory -/

namespace ParseIntState

/-- The registers in front of some text, with some of its characters in `r8`. -/
structure Reads (mem : Mem) (source : Nat) (s : ParseIntState) (text : List UInt8) : Prop where
  inMemory : TextAt mem (source + s.dh) text
  loaded : Loaded s.r8 text (8 - s.dh % 8)
  rdi : s.rdi = source + s.dh / 8 * 8

theorem Reads.char {mem : Mem} {source : Nat} {s : ParseIntState} {text : List UInt8}
    (h : s.Reads mem source text) : lowByte s.r8 = text.headD 0 := by
  obtain ⟨m, hm⟩ : ∃ m, 8 - s.dh % 8 = m + 1 := ⟨7 - s.dh % 8, by omega⟩
  have hloaded := h.loaded
  rw [hm] at hloaded
  exact hloaded.lowByte_eq

@[simp] theorem next_dh (mem : Mem) (s : ParseIntState) (eax : UInt32) :
    (s.next mem eax).dh = s.dh + 1 := by
  unfold next
  split <;> rfl

@[simp] theorem next_eax (mem : Mem) (s : ParseIntState) (eax : UInt32) :
    (s.next mem eax).eax = eax := by
  unfold next
  split <;> rfl

/-- **Going on**: the reload is the only one there is within eleven characters. -/
theorem Reads.next {mem : Mem} {source : Nat} {s : ParseIntState} {c : UInt8} {text : List UInt8}
    (h : s.Reads mem source (c :: text)) (hdh : s.dh ≤ 10) (eax : UInt32) :
    (s.next mem eax).Reads mem source text := by
  have htext : TextAt mem (source + (s.dh + 1)) text := h.inMemory.tail
  have hrdi := h.rdi
  unfold ParseIntState.next
  by_cases height : s.dh + 1 = 8
  · have haddress : s.rdi + 8 = source + 8 := by omega
    rw [if_pos height, height, haddress]
    rw [height] at htext
    exact ⟨htext, by dsimp only; exact htext.loaded 8, by dsimp only⟩
  · rw [if_neg height]
    have hloaded := h.loaded
    rw [show 8 - s.dh % 8 = 8 - (s.dh + 1) % 8 + 1 by omega] at hloaded
    exact ⟨htext, hloaded.shift, by dsimp only; omega⟩

end ParseIntState

/-- **`.whileInteger`** does what it does on the text. -/
theorem whileInteger_returns {mem : Mem} {source : Nat} {text : List UInt8} :
    ∀ {s : ParseIntState}, s.Reads mem source text → text ≠ [] → s.dh ≤ 10 →
      Returns (fun fuel => rounds (whileIntegerRound mem) fuel s) (whileInteger text s.dh s.eax) := by
  induction text with
  | nil => exact fun _ hne => absurd rfl hne
  | cons c text ih =>
    intro s hreads _ hdh
    have hchar := hreads.char
    rw [List.headD_cons] at hchar
    unfold whileInteger
    by_cases hnine : signed c > 0x39
    · rw [if_pos hnine]
      apply returns_done
      rw [whileIntegerRound, hchar, if_pos hnine]
    by_cases hzero : signed c < 0x30
    · rw [if_neg hnine, if_pos hzero]
      apply returns_done
      rw [whileIntegerRound, hchar, if_neg hnine, if_pos hzero]
    rw [if_neg hnine, if_neg hzero]
    have hnext := hreads.next hdh (10 * s.eax + (c - 0x30).toUInt32)
    have hchar' := hnext.char
    cases text with
    | nil =>
      apply returns_done
      rw [whileIntegerRound, hchar, if_neg hnine, if_neg hzero]
      dsimp only
      rw [hchar', List.headD_nil, if_pos rfl, ParseIntState.next_eax]
    | cons d text =>
      dsimp only
      rw [List.headD_cons] at hchar'
      have hd : d ≠ 0 := hnext.inMemory.ne_zero
      by_cases heleven : s.dh + 1 = 11
      · rw [if_pos heleven]
        apply returns_done
        rw [whileIntegerRound, hchar, if_neg hnine, if_neg hzero]
        dsimp only
        rw [hchar', if_neg hd, ParseIntState.next_dh, if_pos heleven]
      · have hround : whileIntegerRound mem s =
            some (.next (s.next mem (10 * s.eax + (c - 0x30).toUInt32))) := by
          rw [whileIntegerRound, hchar, if_neg hnine, if_neg hzero]
          dsimp only
          rw [hchar', if_neg hd, ParseIntState.next_dh, if_neg heleven]
        have hrun := ih hnext (List.cons_ne_nil _ _) (by rw [ParseIntState.next_dh]; omega)
        rw [ParseIntState.next_dh, ParseIntState.next_eax] at hrun
        rw [if_neg heleven]
        exact returns_next hround hrun

/-- **`.positiveInt`**, with what is concluded from `eax`. -/
theorem positiveInt_returns {mem : Mem} {source : Nat} {s : ParseIntState} {text : List UInt8}
    (h : s.Reads mem source text) (hdh : s.dh ≤ 10) (conclude : Option UInt32 → Int × UInt32) :
    Returns (fun fuel => if lowByte s.r8 = 0 then some (conclude none)
        else (rounds (whileIntegerRound mem) fuel s).map conclude)
      (conclude (whileInteger text s.dh s.eax)) := by
  have hchar := h.char
  cases text with
  | nil =>
    refine returns_of_eq fun _ => ?_
    rw [hchar, List.headD_nil, if_pos rfl]
    rfl
  | cons c text =>
    rw [hchar, List.headD_cons]
    simp only [if_neg h.inMemory.ne_zero]
    exact (whileInteger_returns h (List.cons_ne_nil _ _) hdh).map conclude

/-- **`parseInt` in memory** does what it does on the text. -/
theorem parseIntIn_returns {mem : Mem} {source : Nat} {text : List UInt8} (h : TextAt mem source text)
    (value : UInt32) :
    Returns (fun fuel => parseIntIn fuel mem source value) (parseInt text value) := by
  have hreads : ParseIntState.Reads mem source ⟨source, orBytes mem 8 source 0 0, 0, 0⟩ text :=
    ⟨h, by dsimp only; exact h.loaded 8, by dsimp only; omega⟩
  have hchar := hreads.char
  dsimp only at hchar
  by_cases hminus : text.head? = some 0x2D
  · obtain ⟨rest, rfl⟩ := List.head?_eq_some_iff.mp hminus
    rw [List.headD_cons] at hchar
    have hreads' : ParseIntState.Reads mem source ⟨source, orBytes mem 8 source 0 0 / 256, 1, 0⟩ rest :=
      ⟨h.tail, (h.loaded 8).shift, by dsimp only; omega⟩
    have hrun := positiveInt_returns hreads' (show 1 ≤ 10 by decide) fun eax =>
      match eax with
      | none => (-1, value)
      | some eax => (0, -eax)
    have hsame : parseInt (0x2D :: rest) value =
        match whileInteger rest 1 0 with
        | none => (-1, value)
        | some eax => (0, -eax) := by
      rw [parseInt_minus]
      cases whileInteger rest 1 0 <;> rfl
    rw [hsame]
    simp only [parseIntIn, hchar, ↓reduceIte]
    exact hrun
  · have hne : text.headD 0 ≠ 0x2D := by
      cases text with
      | nil => decide
      | cons c text => exact fun hc => hminus (congrArg some hc)
    have hrun := positiveInt_returns hreads (Nat.zero_le 10) fun eax =>
      match eax with
      | none => (-1, value)
      | some eax => (0, eax)
    rw [parseInt_digits hminus]
    simp only [parseIntIn, hchar, if_neg hne]
    rw [← hchar]
    exact hrun

/-! ## Parsing undoes formatting -/

/-- A formatter allocates a buffer of some size, and fills it with a text and its `NUL`: what it
returns is where the buffer starts. -/
def Filled (formatted : Option Target) (size : UInt32) (text : List UInt8) : Prop :=
  size.toNat = text.length + 1 ∧
    ∃ target, formatted = some target ∧ target.Fills size.toNat ∧
      TextAt target.object.byte target.offset text

/-- A numeral is parsed back, when it fits. -/
theorem parse_numeral {mem : Mem} {source width n : Nat} (h : TextAt mem source (numeral n))
    (hn : n < 2 ^ width) :
    Returns (fun fuel => rounds (parseRound width mem) fuel (source, 0)) (.ok n) := by
  have hrun := parseRound_returns h (numeral_isDecimal n) (Nat.two_pow_pos width)
  rw [← decimal, decimal_numeral, Nat.mod_eq_of_lt hn] at hrun
  exact hrun

theorem parse_toString_uint32 (garbage : Mem) (v : UInt32) :
    ∃ target, toString_uint32 garbage v = some target ∧
      Returns (fun fuel => parse_uint32 fuel target.object.byte target.offset) (.ok v) := by
  obtain ⟨target, hformat, _, htext⟩ := toString_uint32_fills garbage v
  refine ⟨target, hformat, ?_⟩
  have hrun := (parse_numeral htext v.toNat_lt).map valueOrMessage
  rw [valueOrMessage, UInt32.ofNat_toNat] at hrun
  exact hrun

theorem parse_toString_uint64 (garbage : Mem) (v : UInt64) :
    ∃ target, toString_uint64 garbage v = some target ∧
      Returns (fun fuel => parse_uint64 fuel target.object.byte target.offset) (some v) := by
  obtain ⟨target, hformat, _, htext⟩ := toString_uint64_fills garbage v
  refine ⟨target, hformat, ?_⟩
  have hrun := (parse_numeral htext v.toNat_lt).map valueOrAbort
  rw [valueOrAbort, UInt64.ofNat_toNat] at hrun
  exact hrun

theorem stored_toInt_self (v : Int32) : stored v.toInt = v.toUInt32 := by
  rw [stored, Int32.ofInt_toInt]

/-- The digits with the sign denote the value. -/
theorem denotes_signedNumeral (n : Int) (sign : Bool) (hsign : sign = true ↔ n < 0) :
    Denotes (signedNumeral sign n.natAbs) n := by
  have hdecimal := decimal_numeral n.natAbs
  cases sign with
  | false =>
    have hpos : 0 ≤ n := Int.not_lt.mp fun hlt => Bool.false_ne_true (hsign.mpr hlt)
    have hvalue : (decimal (numeral n.natAbs) : Int) = n := by
      rw [hdecimal]
      omega
    have hdenotes := Denotes.digits (isNumeral_numeral n.natAbs)
    rw [hvalue] at hdenotes
    exact hdenotes
  | true =>
    have hneg := hsign.mp rfl
    refine denotes_minus_iff.mpr ⟨isNumeral_numeral _, ?_⟩
    rw [hdecimal]
    omega

theorem parse_toString_int32 (garbage : Mem) (v : Int32) (value : UInt32) :
    ∃ target, toString_int32 garbage v = some target ∧
      Returns (fun fuel => parseIntIn fuel target.object.byte target.offset value)
        (0, v.toUInt32) := by
  by_cases hmin : v = Int32.minValue
  · subst hmin
    refine ⟨_, if_pos rfl, ?_⟩
    exact parseIntIn_returns (Target.textAt_literal (by decide)) value
  · obtain ⟨target, hformat, _, htext⟩ := toString_int32_fills garbage hmin
    refine ⟨target, hformat, ?_⟩
    have hle := v.le_toInt
    have hlt := v.toInt_lt
    have hdenotes := denotes_signedNumeral v.toInt (decide (v < 0)) (by
      rw [decide_eq_true_eq, neg_iff_int32])
    have hlength : (signedNumeral (decide (v < 0)) v.toInt.natAbs).length ≤ 11 := by
      have hshort : (numeral v.toInt.natAbs).length ≤ 10 := numeral_length_le (k := 9) (by omega)
      unfold signedNumeral
      split
      next _ => exact Nat.succ_le_succ hshort
      next _ => omega
    have hrun := parseIntIn_returns htext value
    rw [parseInt_of_denotes hdenotes hlength, stored_toInt_self] at hrun
    exact hrun

/-- **Parsing undoes formatting**, for every value, and a formatter that allocates a buffer fills it
from its first byte on. -/
theorem parse_toString (garbage : Mem) :
    (∀ v : UInt32, ∃ target, toString_uint32 garbage v = some target ∧
        Returns (fun fuel => parse_uint32 fuel target.object.byte target.offset) (.ok v)) ∧
      (∀ (v : Int32) (value : UInt32), ∃ target, toString_int32 garbage v = some target ∧
        Returns (fun fuel => parseIntIn fuel target.object.byte target.offset value)
          (0, v.toUInt32)) ∧
      (∀ v : UInt64, ∃ target, toString_uint64 garbage v = some target ∧
        Returns (fun fuel => parse_uint64 fuel target.object.byte target.offset) (some v)) ∧
      (∀ v : UInt32, Filled (toString_uint32 garbage v) (getStringSize_uint32 v) (numeral v.toNat)) ∧
      (∀ v : Int32, v ≠ Int32.minValue →
        Filled (toString_int32 garbage v) (getStringSize_int32 v)
          (signedNumeral (decide (v < 0)) v.toInt.natAbs)) ∧
      (∀ v : UInt64, Filled (toString_uint64 garbage v) (getStringSize_uint64 v) (numeral v.toNat)) ∧
      ∀ v : Int64, v ≠ Int64.minValue →
        Filled (toString_int64 garbage v) (getStringSize_int64 v)
          (signedNumeral (decide (v < 0)) v.toInt.natAbs) :=
  ⟨parse_toString_uint32 garbage, parse_toString_int32 garbage, parse_toString_uint64 garbage,
    fun v => ⟨getStringSize_uint32_eq v, toString_uint32_fills garbage v⟩,
    fun _ hmin => ⟨getStringSize_int32_eq hmin, toString_int32_fills garbage hmin⟩,
    fun v => ⟨getStringSize_uint64_eq v, toString_uint64_fills garbage v⟩,
    fun _ hmin => ⟨getStringSize_int64_eq hmin, toString_int64_fills garbage hmin⟩⟩

/-- `-42`. -/
theorem parse_toString_minus :
    (∃ target, toString_int32 (fun _ => 0) (-42) = some target ∧
        Returns (fun fuel => parseIntIn fuel target.object.byte target.offset 7)
          (0, (-42 : Int32).toUInt32)) ∧
      Filled (toString_int32 (fun _ => 0) (-42)) (getStringSize_int32 (-42))
        (signedNumeral (decide ((-42 : Int32) < 0)) (-42 : Int32).toInt.natAbs) :=
  ⟨(parse_toString fun _ => 0).2.1 (-42) 7, (parse_toString fun _ => 0).2.2.2.2.1 (-42) (by decide)⟩

/-! ## Numbers that do not fit -/

/-- What is asked of `parseInt`: what a text of eleven characters at most denotes is stored if it
fits in an `int`, and anything else is rejected. -/
structure Meets (text : List UInt8) (value : UInt32) (outcome : Int × UInt32) : Prop where
  stores : ∀ n, text.length ≤ 11 → Denotes text n → FitsInt n →
    outcome.1 = 0 ∧ outcome.2.toInt32.toInt = n
  rejects : (∀ n, text.length ≤ 11 → Denotes text n → ¬ FitsInt n) → outcome = (-1, value)

theorem Denotes.unique {text : List UInt8} {n n' : Int} (h : Denotes text n) (h' : Denotes text n') :
    n = n' := by
  cases h with
  | digits h =>
    cases h' with
    | digits _ => rfl
    | minus _ => exact absurd h (not_isNumeral_minus _)
  | minus h => exact (denotes_minus_iff.mp h').2.symm

/-- **`parseInt` does what is asked of it exactly when the text is not a number of eleven characters
at most that does not fit in an `int`.** -/
theorem parseInt_meets_iff {mem : Mem} {source : Nat} {text : List UInt8} (h : TextAt mem source text)
    (value : UInt32) :
    (∃ outcome, Returns (fun fuel => parseIntIn fuel mem source value) outcome ∧
        Meets text value outcome) ↔
      ¬ ∃ n, text.length ≤ 11 ∧ Denotes text n ∧ ¬ FitsInt n := by
  have hrun := parseIntIn_returns h value
  constructor
  · rintro ⟨outcome, hrun', hmeets⟩ ⟨n, hlength, hdenotes, hfits⟩
    have hrejects := hmeets.rejects fun n' _ hdenotes' => hdenotes.unique hdenotes' ▸ hfits
    rw [← hrun.unique hrun', parseInt_of_denotes hdenotes hlength] at hrejects
    cases hrejects
  · intro hnone
    refine ⟨_, hrun, ?_, ?_⟩
    · intro n hlength hdenotes hfits
      rw [parseInt_of_denotes hdenotes hlength]
      exact ⟨rfl, stored_toInt hfits⟩
    · intro hreject
      refine parseInt_of_not_denotes (fun n hdenotes => ?_) value
      by_contra hlong
      have hlength := Nat.not_lt.mp hlong
      exact hnone ⟨n, hlength, hdenotes, hreject n hlength hdenotes⟩

/-- `"-7"`. -/
theorem parseInt_meets_iff_minus :
    (∃ outcome, Returns (fun fuel => parseIntIn fuel (textMem [0x2D, 0x37]) 0 5) outcome ∧
        Meets [0x2D, 0x37] 5 outcome) ↔
      ¬ ∃ n, [0x2D, 0x37].length ≤ 11 ∧ Denotes [0x2D, 0x37] n ∧ ¬ FitsInt n :=
  parseInt_meets_iff (textAt_textMem (by decide)) 5

/-- `"4294967297"` is taken for one. -/
theorem parseInt_wraps :
    Returns (fun fuel => parseIntIn fuel
        (textMem [0x34, 0x32, 0x39, 0x34, 0x39, 0x36, 0x37, 0x32, 0x39, 0x37]) 0 5) (0, 1) ∧
      ¬ Meets [0x34, 0x32, 0x39, 0x34, 0x39, 0x36, 0x37, 0x32, 0x39, 0x37] 5 (0, 1) := by
  refine ⟨parseIntIn_returns (textAt_textMem (by decide)) 5, fun hmeets => ?_⟩
  have hrejects := hmeets.rejects fun n _ hdenotes => by
    obtain ⟨_, rfl⟩ := (denotes_digits_iff (by decide)).mp hdenotes
    decide
  cases hrejects

end DevopsBroker.Lang
