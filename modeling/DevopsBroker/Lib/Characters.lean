import DevopsBroker.Lib.LittleEndian

/-!
# Characters in registers, and decimal numerals

A register that characters were loaded into gives them out one by one: the next one is
its low byte, and a shift by eight bits drops it. When they are used up, zeros follow.
`numeral` writes a number with decimal digits, and `decimal` reads it back.
-/

namespace DevopsBroker.Lib

/-! ## Registers -/

/-- The low byte of a register. -/
def lowByte (register : Nat) : UInt8 := UInt8.ofNat register

/-- What holds of 256 numbers holds of every byte. -/
theorem forall_byte {P : UInt8 → Prop} (h : ∀ n < 256, P (UInt8.ofNat n)) (c : UInt8) : P c := by
  have hc := h c.toNat c.toNat_lt
  rwa [UInt8.ofNat_toNat] at hc

/-- A byte as `jl` and `jg` see it. -/
def signed (b : UInt8) : Int := if b < 0x80 then b.toNat else (b.toNat : Int) - 0x100

@[simp] theorem littleEndian_nil : littleEndian [] = 0 := rfl

@[simp] theorem lowByte_littleEndian (chars : List UInt8) :
    lowByte (littleEndian chars) = chars.headD 0 := by
  cases chars with
  | nil => rfl
  | cons c chars =>
    rw [littleEndian_cons, lowByte, ← UInt8.toNat_inj, UInt8.toNat_ofNat', List.headD_cons]
    have := c.toNat_lt
    omega

@[simp] theorem littleEndian_shift (chars : List UInt8) :
    littleEndian chars / 256 = littleEndian chars.tail := by
  cases chars with
  | nil => rfl
  | cons c chars =>
    have := c.toNat_lt
    rw [littleEndian_cons, List.tail_cons]
    omega

/-- The first characters in a register. -/
def charsOf : Nat → Nat → List UInt8
  | 0, _ => []
  | n + 1, register => lowByte register :: charsOf n (register / 256)

theorem charsOf_littleEndian {n : Nat} :
    ∀ {chars : List UInt8}, n ≤ chars.length → charsOf n (littleEndian chars) = chars.take n := by
  induction n with
  | zero => intro chars _; rfl
  | succ n ih =>
    intro chars h
    cases chars with
    | nil => exact absurd h (Nat.not_succ_le_zero n)
    | cons c chars =>
      rw [charsOf, lowByte_littleEndian, littleEndian_shift, List.tail_cons,
        ih (Nat.le_of_succ_le_succ h)]
      rfl

/-- Zeros behind the characters of a register. -/
theorem littleEndian_append_replicate (chars : List UInt8) (k : Nat) :
    littleEndian (chars ++ List.replicate k 0) = littleEndian chars := by
  induction chars with
  | nil =>
    induction k with
    | zero => rfl
    | succ k ih =>
      rw [List.nil_append] at ih
      rw [List.nil_append, List.replicate_succ, littleEndian_cons, ih]
      rfl
  | cons c chars ih => rw [List.cons_append, littleEndian_cons, littleEndian_cons, ih]

theorem charsOf_littleEndian_of_le {n : Nat} {chars : List UInt8} (h : chars.length ≤ n) :
    charsOf n (littleEndian chars) = chars ++ List.replicate (n - chars.length) 0 := by
  have hlength : (chars ++ List.replicate (n - chars.length) 0).length = n := by
    rw [List.length_append, List.length_replicate, Nat.add_sub_of_le h]
  rw [← littleEndian_append_replicate chars (n - chars.length),
    charsOf_littleEndian (Nat.le_of_eq hlength.symm), List.take_of_length_le (Nat.le_of_eq hlength)]

/-- A character in front of those in a register. -/
theorem littleEndian_or (chars : List UInt8) (c : UInt8) :
    littleEndian chars * 256 ||| c.toNat = littleEndian (c :: chars) := by
  rw [littleEndian_cons, Nat.mul_comm, Nat.add_comm]
  exact (Nat.two_pow_add_eq_or_of_lt (i := 8) c.toNat_lt _).symm

/-! ## Digits -/

/-- A decimal digit. -/
def IsDecimal (c : UInt8) : Prop := 0x30 ≤ c ∧ c ≤ 0x39

instance (c : UInt8) : Decidable (IsDecimal c) := inferInstanceAs (Decidable (_ ∧ _))

/-- Its value. -/
def digitValue (c : UInt8) : Nat := c.toNat - 0x30

/-- The digit with a value. -/
def digitOf (n : Nat) : UInt8 := UInt8.ofNat (0x30 + n)

theorem digitValue_lt {c : UInt8} (h : IsDecimal c) : digitValue c < 10 := by
  have hle : c.toNat ≤ 0x39 := h.2
  unfold digitValue
  omega

theorem digitOf_toNat {n : Nat} (h : n < 10) : (digitOf n).toNat = n + 0x30 := by
  rw [digitOf, UInt8.toNat_ofNat']
  omega

theorem isDecimal_digitOf {n : Nat} (h : n < 10) : IsDecimal (digitOf n) := by
  constructor
  · rw [UInt8.le_iff_toNat_le, digitOf_toNat h]
    exact Nat.le_add_left ..
  · rw [UInt8.le_iff_toNat_le, digitOf_toNat h]
    show n + 0x30 ≤ 0x39
    omega

theorem digitValue_digitOf {n : Nat} (h : n < 10) : digitValue (digitOf n) = n := by
  rw [digitValue, digitOf_toNat h, Nat.add_sub_cancel]

theorem IsDecimal.ne_zero {c : UInt8} (h : IsDecimal c) : c ≠ 0 := by
  rintro rfl
  exact absurd h (by decide)

/-- Digits are told by two signed comparisons. -/
theorem isDecimal_iff_signed {c : UInt8} :
    IsDecimal c ↔ ¬ signed c > (0x39 : Nat) ∧ ¬ signed c < (0x30 : Nat) := by
  have hiff : IsDecimal c ↔ 0x30 ≤ c.toNat ∧ c.toNat ≤ 0x39 := Iff.rfl
  have hlt := c.toNat_lt
  rw [hiff]
  unfold signed
  split
  next _ => omega
  next hge =>
    have hge : ¬ c.toNat < 0x80 := hge
    omega

/-! ## Numerals -/

/-- The number that digits stand for, behind those of `acc`. -/
def decimalFrom (acc : Nat) (digits : List UInt8) : Nat :=
  digits.foldl (fun acc c => 10 * acc + digitValue c) acc

/-- The number that digits stand for. -/
def decimal (digits : List UInt8) : Nat := decimalFrom 0 digits

@[simp] theorem decimalFrom_nil (acc : Nat) : decimalFrom acc [] = acc := rfl

@[simp] theorem decimalFrom_cons (acc : Nat) (c : UInt8) (digits : List UInt8) :
    decimalFrom acc (c :: digits) = decimalFrom (10 * acc + digitValue c) digits :=
  List.foldl_cons ..

theorem decimalFrom_append (acc : Nat) (xs ys : List UInt8) :
    decimalFrom acc (xs ++ ys) = decimalFrom (decimalFrom acc xs) ys := List.foldl_append

/-- Digits are added modulo anything. -/
theorem decimalFrom_mod (digits : List UInt8) (m : Nat) :
    ∀ acc, decimalFrom (acc % m) digits % m = decimalFrom acc digits % m := by
  induction digits with
  | nil => exact fun acc => Nat.mod_mod ..
  | cons c digits ih =>
    intro acc
    rw [decimalFrom_cons, decimalFrom_cons, ← ih (10 * (acc % m) + digitValue c),
      ← ih (10 * acc + digitValue c)]
    congr 2
    rw [Nat.add_mod, Nat.mul_mod, Nat.mod_mod, ← Nat.mul_mod, ← Nat.add_mod]

theorem decimalFrom_lt (digits : List UInt8) (hdigits : ∀ c ∈ digits, IsDecimal c) :
    ∀ acc, decimalFrom acc digits < (acc + 1) * 10 ^ digits.length := by
  induction digits with
  | nil => intro acc; simp
  | cons c digits ih =>
    intro acc
    have hc := digitValue_lt (hdigits c List.mem_cons_self)
    have hlt := ih (fun d hd => hdigits d (List.mem_cons_of_mem _ hd)) (10 * acc + digitValue c)
    rw [decimalFrom_cons, List.length_cons, Nat.pow_succ', ← Nat.mul_assoc]
    exact Nat.lt_of_lt_of_le hlt (Nat.mul_le_mul_right _ (by omega))

/-- The decimal digits of a number, without leading zeros. -/
def numeral (n : Nat) : List UInt8 :=
  if n = 0 then [digitOf 0] else ((Nat.digits 10 n).map digitOf).reverse

theorem numeral_of_lt {n : Nat} (h : n < 10) : numeral n = [digitOf n] := by
  unfold numeral
  split
  next hzero => rw [hzero]
  next hpos => rw [Nat.digits_of_lt 10 n hpos h]; rfl

theorem numeral_of_le {n : Nat} (h : 10 ≤ n) :
    numeral n = numeral (n / 10) ++ [digitOf (n % 10)] := by
  unfold numeral
  rw [if_neg (by omega), if_neg (by omega), Nat.digits_def' (by omega) (by omega : 0 < n),
    List.map_cons, List.reverse_cons]

theorem numeral_isDecimal (n : Nat) : ∀ c ∈ numeral n, IsDecimal c := by
  induction n using Nat.strong_induction_on with
  | _ n ih =>
    intro c hc
    rcases Nat.lt_or_ge n 10 with hlt | hge
    · rw [numeral_of_lt hlt, List.mem_singleton] at hc
      rw [hc]
      exact isDecimal_digitOf hlt
    · rw [numeral_of_le hge, List.mem_append, List.mem_singleton] at hc
      rcases hc with hc | rfl
      · exact ih (n / 10) (by omega) c hc
      · exact isDecimal_digitOf (Nat.mod_lt _ (by omega))

/-- **A numeral reads back.** -/
theorem decimal_numeral (n : Nat) : decimal (numeral n) = n := by
  induction n using Nat.strong_induction_on with
  | _ n ih =>
    rcases Nat.lt_or_ge n 10 with hlt | hge
    · rw [numeral_of_lt hlt]
      show 10 * 0 + digitValue (digitOf n) = n
      rw [digitValue_digitOf hlt, Nat.mul_zero, Nat.zero_add]
    · rw [numeral_of_le hge, decimal, decimalFrom_append, ← decimal, ih (n / 10) (by omega)]
      show 10 * (n / 10) + digitValue (digitOf (n % 10)) = n
      rw [digitValue_digitOf (Nat.mod_lt _ (by omega))]
      omega

theorem numeral_length_pos (n : Nat) : 0 < (numeral n).length := by
  rcases Nat.lt_or_ge n 10 with hlt | hge
  · rw [numeral_of_lt hlt]
    exact Nat.one_pos
  · rw [numeral_of_le hge, List.length_append]
    exact Nat.lt_add_left _ Nat.one_pos

theorem numeral_length_le {n k : Nat} (h : n < 10 ^ (k + 1)) : (numeral n).length ≤ k + 1 := by
  induction k generalizing n with
  | zero => rw [numeral_of_lt (by omega)]; rfl
  | succ k ih =>
    rcases Nat.lt_or_ge n 10 with hlt | hge
    · rw [numeral_of_lt hlt]
      exact Nat.succ_le_succ (Nat.zero_le _)
    · have hshort := ih (n := n / 10) (by rw [Nat.pow_succ] at h; omega)
      rw [numeral_of_le hge, List.length_append, List.length_singleton]
      omega

/-- **How long a numeral is.** -/
theorem numeral_length {n k : Nat} (hle : 10 ^ k ≤ n) (hlt : n < 10 ^ (k + 1)) :
    (numeral n).length = k + 1 := by
  refine Nat.le_antisymm (numeral_length_le hlt) ?_
  have hread := decimalFrom_lt (numeral n) (numeral_isDecimal n) 0
  rw [← decimal, decimal_numeral, Nat.zero_add, Nat.one_mul] at hread
  exact (Nat.pow_lt_pow_iff_right (by decide)).mp (Nat.lt_of_le_of_lt hle hread)

end DevopsBroker.Lib
