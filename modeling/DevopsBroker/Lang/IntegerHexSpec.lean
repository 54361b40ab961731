import DevopsBroker.Lib.Hexadecimal
import DevopsBroker.Lang.IntegerFormatSpec

/-!
# Hexadecimal integers

`toStringHex_uint32` has a buffer for as many characters as the decimal digits, which are no fewer
than the hexadecimal ones: the padding starts behind the place where it ends.
`parseHex_uint32` folds characters by setting a bit, skips what becomes `'0'` or `'x'` and then takes
what becomes one of `'0'` to `'?'` or `'a'` to `'f'` for a digit, up to the end or a space.
**`toStringHex_reads_back`** and **`parseHex_meets_iff`**.
-/

namespace DevopsBroker.Lang

open DevopsBroker.Lib

/-! ## Formatting -/

theorem digitHex_getD : ∀ n < 16, digitHex.getD n 0 = hexDigitOf n := by decide +kernel

theorem isNumeralIn_hexNumeral : IsNumeralIn 16 hexDigitOf hexNumeral :=
  ⟨fun _ h => hexNumeral_of_lt h, fun _ h => hexNumeral_of_le h⟩

theorem writesPairs_writeHex : WritesPairs 16 hexDigitOf writeHex where
  more := fun value target h => by
    rw [writeHex, if_pos h, digitHex_getD _ (Nat.mod_lt value (by decide)),
      digitHex_getD _ (Nat.mod_lt (value / 16) (by decide))]
    exact (Option.bind_assoc ..).symm
  two := fun value target hle hlt => by
    rw [writeHex, if_neg (by omega), if_neg (by omega), digitHex_getD _ (Nat.mod_lt value (by decide)),
      digitHex_getD (value / 16) (by omega)]
    rfl
  one := fun value target h => by
    rw [writeHex, if_neg (by omega), if_pos h, digitHex_getD value h]

/-- **The padding** stops where it is told to, from any place behind that. -/
theorem leadingZeros_shows {size fin : Nat} (more : Nat) :
    ∀ {text : List UInt8} {target : Target}, target.Shows size text → fin ≤ target.offset →
      target.offset ≤ fin + more →
      ∃ target', leadingZeros fin more target = some target' ∧
        target'.Shows size (List.replicate (target.offset - fin) 0x30 ++ text) := by
  induction more with
  | zero =>
    intro text target hshows hle hge
    rw [leadingZeros, if_pos (by omega)]
    refine ⟨target, rfl, ?_⟩
    rw [Nat.sub_eq_zero_of_le (by omega)]
    exact hshows
  | succ more ih =>
    intro text target hshows hle hge
    rw [leadingZeros]
    by_cases hfin : target.offset = fin
    · rw [if_pos hfin, hfin, Nat.sub_self]
      exact ⟨target, rfl, hshows⟩
    · have hends := hshows.ends
      obtain ⟨target₁, hput, hshows₁⟩ := hshows.put (by omega) 0x30
      have hends₁ := hshows₁.ends
      rw [List.length_cons] at hends₁
      obtain ⟨target', hrun, hshows'⟩ := ih hshows₁ (by omega) (by omega)
      refine ⟨target', ?_, ?_⟩
      · rw [if_neg hfin, hput]
        exact hrun
      · have hcount : target.offset - fin = target₁.offset - fin + 1 := by omega
        rw [hcount, List.replicate_succ', List.append_assoc]
        exact hshows'

/-- There are no more hexadecimal digits than decimal ones. -/
theorem hexNumeral_length_le (n : Nat) : (hexNumeral n).length ≤ (numeral n).length := by
  have hpos := numeral_length_pos n
  have hread := decimalFrom_lt (numeral n) (numeral_isDecimal n) 0
  rw [← decimal, decimal_numeral, Nat.zero_add, Nat.one_mul] at hread
  obtain ⟨k, hk⟩ : ∃ k, (numeral n).length = k + 1 := ⟨(numeral n).length - 1, by omega⟩
  rw [hk] at hread ⊢
  exact (hexNumeral_length (Nat.lt_of_lt_of_le hread (Nat.pow_le_pow_left (by decide) _))).2

/-- How much is allocated. -/
theorem hexMallocSize_eq {value precision : UInt32} (h : precision.toNat < 2 ^ 31) :
    (hexMallocSize value precision).toNat =
      max precision.toNat (numeral value.toNat).length + 3 := by
  have hsize := getStringSize_uint32_eq value
  have hshort : (numeral value.toNat).length ≤ 10 :=
    numeral_length_le (k := 9) (Nat.lt_trans value.toNat_lt (by decide))
  have hprecision : (precision + 1).toNat = precision.toNat + 1 := by
    rw [UInt32.toNat_add]
    exact Nat.mod_eq_of_lt (by change precision.toNat + 1 < 2 ^ 32; omega)
  have hmax : (max_uint32 (precision + 1) (getStringSize_uint32 value)).toNat =
      max precision.toNat (numeral value.toNat).length + 1 := by
    unfold max_uint32
    simp only [GT.gt, UInt32.lt_iff_toNat_lt, hprecision, hsize]
    split <;> omega
  have htwo : (2 : UInt32).toNat = 2 := rfl
  rw [hexMallocSize, UInt32.toNat_add, hmax, htwo, Nat.mod_eq_of_lt (by omega)]

/-- The digits that `toStringHex_uint32` writes. -/
def paddedHex (value precision : UInt32) : List UInt8 :=
  List.replicate (max precision.toNat (numeral value.toNat).length - (hexNumeral value.toNat).length)
    0x30 ++ hexNumeral value.toNat

theorem paddedHex_length (value precision : UInt32) :
    (paddedHex value precision).length = max precision.toNat (numeral value.toNat).length := by
  have hle := hexNumeral_length_le value.toNat
  rw [paddedHex, List.length_append, List.length_replicate]
  omega

theorem paddedHex_isHex (value precision : UInt32) : ∀ c ∈ paddedHex value precision, IsHex c := by
  intro c hc
  rcases List.mem_append.mp hc with hc | hc
  · rw [List.eq_of_mem_replicate hc]
    decide
  · exact hexNumeral_isHex _ c hc

/-- **The buffer is filled** with the prefix and the digits. -/
theorem toStringHex_fills (garbage : Mem) {value precision : UInt32} (h : precision.toNat < 2 ^ 31) :
    ∃ target, toStringHex_uint32 garbage value precision = some target ∧
      target.Fills (hexMallocSize value precision).toNat ∧
      TextAt target.object.byte target.offset (0x30 :: 0x78 :: paddedHex value precision) := by
  have hsize := @hexMallocSize_eq value precision h
  have hle := hexNumeral_length_le value.toNat
  have hlength := paddedHex_length value precision
  obtain ⟨target₁, halloc, hshows₁⟩ := Target.allocate_shows garbage
    (by omega : 0 < (hexMallocSize value precision).toNat)
    (by have := (hexMallocSize value precision).toNat_lt; omega)
  obtain ⟨target₂, hdigits, hshows₂⟩ := writesPairs_writeHex.shows isNumeralIn_hexNumeral
    (by decide) value.toNat hshows₁ (by rw [List.length_singleton]; omega)
  have hoffset := hshows₂.ends
  rw [List.length_append, List.length_singleton] at hoffset
  obtain ⟨target₃, hzeros, hshows₃⟩ := @leadingZeros_shows _ 2 target₂.offset _ _ hshows₂ (by omega)
    (by omega)
  have hcount : target₂.offset - 2 =
      max precision.toNat (numeral value.toNat).length - (hexNumeral value.toNat).length := by omega
  rw [hcount, ← List.append_assoc, ← paddedHex] at hshows₃
  obtain ⟨target, hput, hshows⟩ := hshows₃.putTwo
    (by rw [List.length_append, List.length_singleton]; omega) 0x30 0x78
  refine ⟨target, ?_, @Target.Shows.fills _ (0x30 :: 0x78 :: paddedHex value precision) _ hshows ?_ ?_⟩
  · rw [toStringHex_uint32, halloc]
    dsimp only [bind, Option.bind]
    rw [hdigits]
    dsimp only
    rw [hzeros]
    exact hput
  · intro hmem
    rcases List.mem_cons.mp hmem with hzero | hmem
    · exact absurd hzero (by decide)
    · rcases List.mem_cons.mp hmem with hzero | hmem
      · exact absurd hzero (by decide)
      · exact (paddedHex_isHex value precision 0 hmem).ne_zero rfl
  · rw [List.length_cons, List.length_cons]
    omega

/-! ## Characters -/

/-- A character that is skipped. -/
def skipped (c : UInt8) : Bool := folded c = 0x30 ∨ folded c = 0x78

/-- A character that is taken for a digit. -/
def TakenForDigit (c : UInt8) : Prop :=
  (0x30 ≤ folded c ∧ folded c ≤ 0x3F) ∨ (0x61 ≤ folded c ∧ folded c ≤ 0x66)

instance (c : UInt8) : Decidable (TakenForDigit c) := inferInstanceAs (Decidable (_ ∨ _))

theorem takenForDigit_iff :
    ∀ {c : UInt8}, TakenForDigit c ↔ ¬ (hexDigit (folded c) < 0 ∨ hexDigit (folded c) > 15) := by
  apply forall_byte
  decide +kernel

/-- The loop ends at the `NUL` and at a space. -/
theorem folded_eq_space : ∀ {c : UInt8}, folded c = 0x20 ↔ c = 0 ∨ c = 0x20 := by
  apply forall_byte
  decide +kernel

theorem TakenForDigit.ne_space : ∀ {c : UInt8}, TakenForDigit c → folded c ≠ 0x20 := by
  apply forall_byte
  decide +kernel

theorem hexDigit_of_isHex :
    ∀ {c : UInt8}, IsHex c → TakenForDigit c ∧ (hexDigit (folded c)).toNat = hexValue c := by
  apply forall_byte
  decide +kernel

/-- Among the digits only zeros are skipped. -/
theorem hexValue_of_skipped : ∀ {c : UInt8}, IsHex c → skipped c = true → hexValue c = 0 := by
  apply forall_byte
  decide +kernel

/-! ## `parseHex_uint32` on a text -/

/-- `while (ch != ' ')` on a text. -/
def hexText : List UInt8 → UInt32 → Option UInt32
  | [], value => some value
  | c :: text, value =>
    if folded c = 0x20 then some value
    else if hexDigit (folded c) < 0 ∨ hexDigit (folded c) > 15 then none
    else hexText text ((value <<< 4) + UInt32.ofNat (hexDigit (folded c)).toNat)

section

variable {mem : Mem}

theorem skipRound_returns {text : List UInt8} :
    ∀ {source : Nat}, TextAt mem source text →
      Returns (fun fuel => rounds (skipRound mem) fuel source)
          (source + (text.takeWhile skipped).length) ∧
        TextAt mem (source + (text.takeWhile skipped).length) (text.dropWhile skipped) := by
  induction text with
  | nil =>
    intro source htext
    refine ⟨returns_done ?_, htext⟩
    rw [skipRound, htext.char, List.headD_nil]
    rfl
  | cons c text ih =>
    intro source htext
    by_cases hc : folded c = 0x30 ∨ folded c = 0x78
    · have hround : skipRound mem source = some (.next (source + 1)) := by
        rw [skipRound, htext.char, List.headD_cons]
        exact if_pos hc
      obtain ⟨hrun, hrest⟩ := ih htext.tail
      have hskip : skipped c = true := decide_eq_true hc
      rw [List.takeWhile_cons_of_pos hskip, List.dropWhile_cons_of_pos hskip, List.length_cons,
        Nat.add_comm _ 1, ← Nat.add_assoc]
      exact ⟨returns_next hround hrun, hrest⟩
    · have hround : skipRound mem source = some (.done source) := by
        rw [skipRound, htext.char, List.headD_cons]
        exact if_neg hc
      have hskip : ¬ skipped c = true := mt of_decide_eq_true hc
      rw [List.takeWhile_cons_of_neg hskip, List.dropWhile_cons_of_neg hskip]
      exact ⟨returns_done hround, htext⟩

theorem hexRound_returns {text : List UInt8} :
    ∀ {source : Nat} {value : UInt32}, TextAt mem source text →
      Returns (fun fuel => rounds (hexRound mem) fuel (source, value)) (hexText text value) := by
  induction text with
  | nil =>
    intro source value htext
    apply returns_done
    rw [hexRound, htext.char, List.headD_nil]
    rfl
  | cons c text ih =>
    intro source value htext
    have hchar : mem source = c := htext.char
    rw [hexText]
    by_cases hspace : folded c = 0x20
    · rw [if_pos hspace]
      apply returns_done
      rw [hexRound, hchar]
      exact if_pos hspace
    by_cases hdigit : hexDigit (folded c) < 0 ∨ hexDigit (folded c) > 15
    · rw [if_neg hspace, if_pos hdigit]
      apply returns_done
      rw [hexRound, hchar]
      exact (if_neg hspace).trans (if_pos hdigit)
    · rw [if_neg hspace, if_neg hdigit]
      refine returns_next ?_ (ih htext.tail)
      rw [hexRound, hchar]
      exact (if_neg hspace).trans (if_neg hdigit)

/-- **`parseHex_uint32` in memory.** -/
theorem parseHex_returns {source : Nat} {text : List UInt8} (h : TextAt mem source text) :
    Returns (fun fuel => parseHex_uint32 fuel mem source) (hexText (text.dropWhile skipped) 0) := by
  obtain ⟨hskip, hrest⟩ := skipRound_returns h
  exact hskip.bind (hexRound_returns hrest)

end

/-! ## What a text denotes -/

/-- `0x`, `0X` or nothing. -/
def ZeroX (text : List UInt8) : Prop := text = [] ∨ text = [0x30, 0x78] ∨ text = [0x30, 0x58]

/-- An optional prefix, and hexadecimal digits of either case. -/
def DenotesHex (text : List UInt8) (n : Nat) : Prop :=
  ∃ front digits, text = front ++ digits ∧ ZeroX front ∧ (∀ c ∈ digits, IsHex c) ∧
    n = hexadecimal digits

theorem ZeroX.forall_skipped {front : List UInt8} (h : ZeroX front) : ∀ c ∈ front, skipped c = true := by
  have hzero : skipped 0x30 = true := by decide
  have hsmall : skipped 0x78 = true := by decide
  have hcapital : skipped 0x58 = true := by decide
  intro c hc
  rcases h with rfl | rfl | rfl
  · exact absurd hc List.not_mem_nil
  · rcases List.mem_cons.mp hc with rfl | hc
    · exact hzero
    · rwa [List.mem_singleton.mp hc]
  · rcases List.mem_cons.mp hc with rfl | hc
    · exact hzero
    · rwa [List.mem_singleton.mp hc]

theorem hexFrom_mod (digits : List UInt8) (m acc : Nat) :
    hexFrom (acc % m) digits % m = hexFrom acc digits % m := by
  rw [hexFrom_eq, hexFrom_eq _ acc, Nat.add_mod, Nat.mul_mod, Nat.mod_mod, ← Nat.mul_mod, ← Nat.add_mod]

/-- Digits are added up modulo `2 ^ 32`. -/
theorem hexText_eq {digits : List UInt8} (h : ∀ c ∈ digits, IsHex c) :
    ∀ {value : UInt32}, hexText digits value = some (UInt32.ofNat (hexFrom value.toNat digits)) := by
  induction digits with
  | nil =>
    intro value
    rw [hexText, hexFrom_nil, UInt32.ofNat_toNat]
  | cons c digits ih =>
    intro value
    obtain ⟨hc, hrest⟩ := List.forall_mem_cons.mp h
    obtain ⟨htaken, hvalue⟩ := hexDigit_of_isHex hc
    have hnext : ((value <<< 4) + UInt32.ofNat (hexValue c)).toNat =
        (16 * value.toNat + hexValue c) % 2 ^ 32 := by
      have hshift : (value <<< 4).toNat = value.toNat * 16 % 2 ^ 32 := by
        rw [UInt32.toNat_shiftLeft, Nat.shiftLeft_eq]
        rfl
      rw [UInt32.toNat_add, hshift, UInt32.toNat_ofNat']
      omega
    rw [hexText, if_neg htaken.ne_space, if_neg (takenForDigit_iff.mp htaken), hvalue, ih hrest,
      hnext, hexFrom_cons]
    refine congrArg some (UInt32.toNat_inj.mp ?_)
    rw [UInt32.toNat_ofNat', UInt32.toNat_ofNat', hexFrom_mod]

/-- What is skipped does not count. -/
theorem hexadecimal_dropWhile {digits : List UInt8} (h : ∀ c ∈ digits, IsHex c) :
    hexadecimal (digits.dropWhile skipped) = hexadecimal digits := by
  induction digits with
  | nil => rfl
  | cons c digits ih =>
    obtain ⟨hc, hrest⟩ := List.forall_mem_cons.mp h
    by_cases hskip : skipped c = true
    · rw [List.dropWhile_cons_of_pos hskip, ih hrest, hexadecimal_cons, hexValue_of_skipped hc hskip,
        hexadecimal]
    · rw [List.dropWhile_cons_of_neg hskip]

/-- Neither do zeros in front. -/
theorem hexadecimal_zeros (k : Nat) (digits : List UInt8) :
    hexadecimal (List.replicate k 0x30 ++ digits) = hexadecimal digits := by
  induction k with
  | zero => rfl
  | succ k ih =>
    rw [List.replicate_succ, List.cons_append, hexadecimal_cons]
    exact ih

/-- **What is denoted is parsed**, modulo `2 ^ 32`. -/
theorem hexText_of_denotes {text : List UInt8} {n : Nat} (h : DenotesHex text n) :
    hexText (text.dropWhile skipped) 0 = some (UInt32.ofNat n) := by
  obtain ⟨front, digits, rfl, hfront, hdigits, rfl⟩ := h
  have hdrop : ∀ c ∈ digits.dropWhile skipped, IsHex c :=
    fun c hc => hdigits c ((List.dropWhile_suffix _).subset hc)
  rw [List.dropWhile_append_of_pos hfront.forall_skipped, hexText_eq hdrop]
  exact congrArg (some ∘ UInt32.ofNat) (hexadecimal_dropWhile hdigits)

/-! ## What is accepted -/

/-- The end of a text, or a space. -/
def EndsHere (text : List UInt8) : Prop := text = [] ∨ text.head? = some 0x20

/-- Characters that are skipped, characters that are taken for digits, and the end or a space. -/
def Accepted (text : List UInt8) : Prop :=
  ∃ front digits rest, text = front ++ (digits ++ rest) ∧ (∀ c ∈ front, skipped c = true) ∧
    (∀ c ∈ digits, TakenForDigit c) ∧ EndsHere rest

/-- A space is not skipped. -/
theorem EndsHere.dropWhile {text : List UInt8} (h : EndsHere text) : text.dropWhile skipped = text := by
  rcases h with rfl | hspace
  · rfl
  · obtain ⟨rest, rfl⟩ := List.head?_eq_some_iff.mp hspace
    exact List.dropWhile_cons_of_neg (by decide)

theorem EndsHere.folded {c : UInt8} {text : List UInt8} (h : EndsHere (c :: text)) : folded c = 0x20 := by
  rcases h with hnil | hspace
  · cases hnil
  · rw [Option.some.inj hspace]
    rfl

/-- **When the second loop comes to its end.** -/
theorem hexText_isSome_iff {text : List UInt8} (hnul : 0 ∉ text) :
    ∀ {value : UInt32}, (hexText text value).isSome = true ↔
      ∃ digits rest, text = digits ++ rest ∧ (∀ c ∈ digits, TakenForDigit c) ∧ EndsHere rest := by
  induction text with
  | nil => exact fun {_} => ⟨fun _ => ⟨[], [], rfl, by simp, Or.inl rfl⟩, fun _ => rfl⟩
  | cons c text ih =>
    intro value
    rw [hexText]
    by_cases hspace : folded c = 0x20
    · have hc : c = 0x20 := (folded_eq_space.mp hspace).resolve_left fun hzero =>
        hnul (hzero ▸ List.mem_cons_self)
      rw [if_pos hspace]
      exact ⟨fun _ => ⟨[], c :: text, rfl, by simp, Or.inr (congrArg some hc)⟩, fun _ => rfl⟩
    by_cases hdigit : hexDigit (folded c) < 0 ∨ hexDigit (folded c) > 15
    · rw [if_neg hspace, if_pos hdigit]
      constructor
      · exact fun h => absurd h (by decide)
      · rintro ⟨digits, rest, htext, htaken, hrest⟩
        cases digits with
        | nil =>
          rw [List.nil_append] at htext
          exact absurd (htext ▸ hrest).folded hspace
        | cons d digits =>
          rw [List.cons_append] at htext
          have hc := htaken d List.mem_cons_self
          rw [← (List.cons.inj htext).1] at hc
          exact absurd hdigit (takenForDigit_iff.mp hc)
    · have hc := takenForDigit_iff.mpr hdigit
      rw [if_neg hspace, if_neg hdigit, ih fun hmem => hnul (List.mem_cons_of_mem _ hmem)]
      constructor
      · rintro ⟨digits, rest, rfl, htaken, hrest⟩
        exact ⟨c :: digits, rest, rfl, List.forall_mem_cons.mpr ⟨hc, htaken⟩, hrest⟩
      · rintro ⟨digits, rest, htext, htaken, hrest⟩
        cases digits with
        | nil =>
          rw [List.nil_append] at htext
          exact absurd (htext ▸ hrest).folded hspace
        | cons d digits =>
          rw [List.cons_append] at htext
          exact ⟨digits, rest, (List.cons.inj htext).2, (List.forall_mem_cons.mp htaken).2, hrest⟩

/-- **When both loops do.** -/
theorem accepted_iff {text : List UInt8} (hnul : 0 ∉ text) :
    Accepted text ↔ (hexText (text.dropWhile skipped) 0).isSome = true := by
  have hnul' : 0 ∉ text.dropWhile skipped :=
    fun hmem => hnul ((List.dropWhile_suffix _).subset hmem)
  rw [hexText_isSome_iff hnul']
  constructor
  · rintro ⟨front, digits, rest, rfl, hfront, htaken, hrest⟩
    refine ⟨digits.dropWhile skipped, rest, ?_, fun c hc => ?_, hrest⟩
    · rw [List.dropWhile_append_of_pos hfront, List.dropWhile_append, hrest.dropWhile]
      split
      next hempty => rw [List.isEmpty_iff.mp hempty, List.nil_append]
      next _ => rfl
    · exact htaken c ((List.dropWhile_suffix _).subset hc)
  · rintro ⟨digits, rest, htext, htaken, hrest⟩
    refine ⟨text.takeWhile skipped, digits, rest, ?_, fun c hc => ?_, htaken, hrest⟩
    · rw [← htext, List.takeWhile_append_dropWhile]
    · exact List.all_eq_true.mp List.all_takeWhile c hc

/-! ## Results -/

/-- **Formatting stays inside of its buffer and is undone by parsing**: the buffer has the prefix and
no fewer digits than asked for. -/
theorem toStringHex_reads_back (garbage : Mem) (value precision : UInt32)
    (h : precision.toNat < 2 ^ 31) :
    ∃ target digits, toStringHex_uint32 garbage value precision = some target ∧
      target.Fills (hexMallocSize value precision).toNat ∧
      TextAt target.object.byte target.offset (0x30 :: 0x78 :: digits) ∧
      (∀ c ∈ digits, IsHex c) ∧ max precision.toNat 1 ≤ digits.length ∧
      Returns (fun fuel => parseHex_uint32 fuel target.object.byte target.offset) (some value) := by
  obtain ⟨target, hformat, hfills, htext⟩ := @toStringHex_fills garbage value precision h
  have hdigits := paddedHex_isHex value precision
  refine ⟨target, paddedHex value precision, hformat, hfills, htext, hdigits, ?_, ?_⟩
  · have hpos := numeral_length_pos value.toNat
    rw [paddedHex_length]
    omega
  · have hvalue : hexadecimal (paddedHex value precision) = value.toNat := by
      rw [paddedHex, hexadecimal_zeros, hexadecimal_hexNumeral]
    have hdenotes : DenotesHex (0x30 :: 0x78 :: paddedHex value precision) value.toNat :=
      ⟨[0x30, 0x78], _, rfl, Or.inr (Or.inl rfl), hdigits, hvalue.symm⟩
    have hrun := parseHex_returns htext
    rw [hexText_of_denotes hdenotes, UInt32.ofNat_toNat] at hrun
    exact hrun

/-- `0x002a`. -/
theorem toStringHex_reads_back_four :
    (4 : UInt32).toNat < 2 ^ 31 ∧
      ∃ target digits, toStringHex_uint32 (fun _ => 0) 42 4 = some target ∧
        target.Fills (hexMallocSize 42 4).toNat ∧
        TextAt target.object.byte target.offset (0x30 :: 0x78 :: digits) ∧
        (∀ c ∈ digits, IsHex c) ∧ max (4 : UInt32).toNat 1 ≤ digits.length ∧
        Returns (fun fuel => parseHex_uint32 fuel target.object.byte target.offset) (some 42) :=
  ⟨by decide, toStringHex_reads_back (fun _ => 0) 42 4 (by decide)⟩

/-- What is asked of `parseHex_uint32`: it returns what a text denotes modulo `2 ^ 32`, and aborts on
any other text. -/
structure MeetsHex (text : List UInt8) (outcome : Option UInt32) : Prop where
  parses : ∀ n, DenotesHex text n → outcome = some (UInt32.ofNat n)
  aborts : (∀ n, ¬ DenotesHex text n) → outcome = none

/-- **`parseHex_uint32` does what is asked of it** on the texts that denote a number, and on those that
are not accepted. -/
theorem parseHex_meets_iff {mem : Mem} {source : Nat} {text : List UInt8} (h : TextAt mem source text) :
    (∃ outcome, Returns (fun fuel => parseHex_uint32 fuel mem source) outcome ∧
        MeetsHex text outcome) ↔
      (∃ n, DenotesHex text n) ∨ ¬ Accepted text := by
  have hrun := parseHex_returns h
  have haccepted := accepted_iff h.noNul
  constructor
  · rintro ⟨outcome, hrun', hmeets⟩
    by_cases hdenotes : ∃ n, DenotesHex text n
    · exact Or.inl hdenotes
    · have hnone := hmeets.aborts fun n hn => hdenotes ⟨n, hn⟩
      rw [haccepted, hrun.unique hrun', hnone]
      exact Or.inr (by decide)
  · intro hcases
    refine ⟨_, hrun, fun n hn => hexText_of_denotes hn, fun hnone => ?_⟩
    rcases hcases with ⟨n, hn⟩ | hnot
    · exact absurd hn (hnone n)
    · rw [haccepted] at hnot
      exact Option.not_isSome_iff_eq_none.mp hnot

/-- `"0xFf"`. -/
theorem parseHex_meets_iff_mixed :
    (∃ outcome, Returns (fun fuel => parseHex_uint32 fuel (textMem [0x30, 0x78, 0x46, 0x66]) 0) outcome ∧
        MeetsHex [0x30, 0x78, 0x46, 0x66] outcome) ↔
      (∃ n, DenotesHex [0x30, 0x78, 0x46, 0x66] n) ∨ ¬ Accepted [0x30, 0x78, 0x46, 0x66] :=
  parseHex_meets_iff (textAt_textMem (by decide))

/-- `":"` is taken for ten. -/
theorem parseHex_takes_colon :
    Returns (fun fuel => parseHex_uint32 fuel (textMem [0x3A]) 0) (some 10) ∧
      ¬ MeetsHex [0x3A] (some 10) := by
  refine ⟨parseHex_returns (textAt_textMem (by decide)), fun hmeets => ?_⟩
  have hnone := hmeets.aborts ?_
  · cases hnone
  · rintro n ⟨front, digits, htext, hfront, hdigits, _⟩
    have hcolon : (0x3A : UInt8) ∈ front ++ digits := htext ▸ List.mem_cons_self
    rcases List.mem_append.mp hcolon with hmem | hmem
    · exact absurd (hfront.forall_skipped _ hmem) (by decide)
    · exact absurd (hdigits _ hmem) (by decide)

end DevopsBroker.Lang
