import DevopsBroker.Lib.Text

/-!
# Hexadecimal digits, and groups of them

Digits in either case, the number they stand for, the numeral of a number, and texts of groups
with a separator between them. Groups that are written one behind another make one number; it is the number
whose parts of `k` digits are the groups exactly when every group behind a nonzero one has
`k` digits.
-/

namespace DevopsBroker.Lib

/-! ## Digits -/

/-- A hexadecimal digit, in either case. -/
def IsHex (c : UInt8) : Prop :=
  (0x30 ≤ c ∧ c ≤ 0x39) ∨ (0x41 ≤ c ∧ c ≤ 0x46) ∨ (0x61 ≤ c ∧ c ≤ 0x66)

instance (c : UInt8) : Decidable (IsHex c) := inferInstanceAs (Decidable (_ ∨ _))

theorem IsHex.ne_zero {c : UInt8} (h : IsHex c) : c ≠ 0 := by
  rintro rfl
  exact absurd h (by decide)

/-- Its value. -/
def hexValue (c : UInt8) : Nat :=
  if c ≤ 0x39 then c.toNat - 0x30 else if c ≤ 0x46 then c.toNat - 0x37 else c.toNat - 0x57

theorem hexValue_lt {c : UInt8} : IsHex c → hexValue c < 16 := by
  revert c
  apply forall_byte
  decide +kernel

/-- The number that digits stand for, behind those of `acc`. -/
def hexFrom (acc : Nat) (digits : List UInt8) : Nat :=
  digits.foldl (fun acc c => 16 * acc + hexValue c) acc

/-- The number that digits stand for. -/
def hexadecimal (digits : List UInt8) : Nat := hexFrom 0 digits

@[simp] theorem hexFrom_nil (acc : Nat) : hexFrom acc [] = acc := rfl

@[simp] theorem hexFrom_cons (acc : Nat) (c : UInt8) (digits : List UInt8) :
    hexFrom acc (c :: digits) = hexFrom (16 * acc + hexValue c) digits := List.foldl_cons ..

theorem hexFrom_append (acc : Nat) (xs ys : List UInt8) :
    hexFrom acc (xs ++ ys) = hexFrom (hexFrom acc xs) ys := List.foldl_append

theorem hexadecimal_cons (c : UInt8) (digits : List UInt8) :
    hexadecimal (c :: digits) = hexFrom (hexValue c) digits := by
  rw [hexadecimal, hexFrom_cons, Nat.mul_zero, Nat.zero_add]

/-- Leading digits are shifted by those behind them. -/
theorem hexFrom_eq (digits : List UInt8) :
    ∀ acc, hexFrom acc digits = acc * 16 ^ digits.length + hexadecimal digits := by
  induction digits with
  | nil => intro acc; simp [hexadecimal]
  | cons c digits ih =>
    intro acc
    rw [hexFrom_cons, ih, hexadecimal_cons, ih (hexValue c), List.length_cons, Nat.pow_succ]
    ring

theorem hexadecimal_lt {digits : List UInt8} (h : ∀ c ∈ digits, IsHex c) :
    hexadecimal digits < 16 ^ digits.length := by
  induction digits with
  | nil => exact Nat.one_pos
  | cons c digits ih =>
    have hc := hexValue_lt (h c List.mem_cons_self)
    have hlt := ih fun d hd => h d (List.mem_cons_of_mem _ hd)
    rw [hexadecimal_cons, hexFrom_eq, List.length_cons, Nat.pow_succ']
    calc hexValue c * 16 ^ digits.length + hexadecimal digits
        < hexValue c * 16 ^ digits.length + 16 ^ digits.length := by omega
      _ = (hexValue c + 1) * 16 ^ digits.length := by ring
      _ ≤ 16 * 16 ^ digits.length := Nat.mul_le_mul_right _ hc

/-! ## Numerals -/

/-- The lower-case digit with a value. -/
def hexDigitOf (n : Nat) : UInt8 := if n < 10 then UInt8.ofNat (0x30 + n) else UInt8.ofNat (0x57 + n)

theorem hexDigitOf_spec :
    ∀ n < 16, IsHex (hexDigitOf n) ∧ hexValue (hexDigitOf n) = n ∧ (hexDigitOf n = 0x30 ↔ n = 0) := by
  decide +kernel

/-- The hexadecimal digits of a number, in lower case and without leading zeros. -/
def hexNumeral (n : Nat) : List UInt8 :=
  if n = 0 then [hexDigitOf 0] else ((Nat.digits 16 n).map hexDigitOf).reverse

theorem hexNumeral_of_lt {n : Nat} (h : n < 16) : hexNumeral n = [hexDigitOf n] := by
  unfold hexNumeral
  split
  next hzero => rw [hzero]
  next hpos => rw [Nat.digits_of_lt 16 n hpos h]; rfl

theorem hexNumeral_of_le {n : Nat} (h : 16 ≤ n) :
    hexNumeral n = hexNumeral (n / 16) ++ [hexDigitOf (n % 16)] := by
  unfold hexNumeral
  rw [if_neg (by omega), if_neg (by omega), Nat.digits_def' (by omega) (by omega : 0 < n),
    List.map_cons, List.reverse_cons]

/-- **A numeral reads back.** -/
theorem hexadecimal_hexNumeral (n : Nat) : hexadecimal (hexNumeral n) = n := by
  induction n using Nat.strong_induction_on with
  | _ n ih =>
    rcases Nat.lt_or_ge n 16 with hlt | hge
    · rw [hexNumeral_of_lt hlt, hexadecimal_cons, hexFrom_nil, (hexDigitOf_spec n hlt).2.1]
    · rw [hexNumeral_of_le hge, hexadecimal, hexFrom_append, ← hexadecimal, ih (n / 16) (by omega),
        hexFrom_cons, hexFrom_nil, (hexDigitOf_spec _ (Nat.mod_lt n (by omega))).2.1]
      omega

theorem hexNumeral_isHex (n : Nat) : ∀ c ∈ hexNumeral n, IsHex c := by
  induction n using Nat.strong_induction_on with
  | _ n ih =>
    intro c hc
    rcases Nat.lt_or_ge n 16 with hlt | hge
    · rw [hexNumeral_of_lt hlt, List.mem_singleton] at hc
      rw [hc]
      exact (hexDigitOf_spec n hlt).1
    · rw [hexNumeral_of_le hge, List.mem_append, List.mem_singleton] at hc
      rcases hc with hc | rfl
      · exact ih (n / 16) (by omega) c hc
      · exact (hexDigitOf_spec _ (Nat.mod_lt n (by omega))).1

/-- So many digits of a number, with leading zeros. -/
def paddedDigits : Nat → Nat → List UInt8
  | 0, _ => []
  | k + 1, n => paddedDigits k (n / 16) ++ [hexDigitOf (n % 16)]

theorem length_paddedDigits (k : Nat) : ∀ n, (paddedDigits k n).length = k := by
  induction k with
  | zero => exact fun _ => rfl
  | succ k ih =>
    intro n
    rw [paddedDigits, List.length_append, ih, List.length_singleton]

theorem dropWhile_paddedDigits_zero (k : Nat) : (paddedDigits k 0).dropWhile (· = 0x30) = [] := by
  induction k with
  | zero => rfl
  | succ k ih =>
    rw [paddedDigits, List.dropWhile_append, ih]
    rfl

/-- **Without leading zeros they are the numeral.** -/
theorem dropWhile_paddedDigits {k : Nat} :
    ∀ {n : Nat}, n < 16 ^ k → n ≠ 0 → (paddedDigits k n).dropWhile (· = 0x30) = hexNumeral n := by
  induction k with
  | zero => intro n h hne; omega
  | succ k ih =>
    intro n h hne
    rw [Nat.pow_succ] at h
    rw [paddedDigits, List.dropWhile_append]
    rcases Nat.lt_or_ge n 16 with hlt | hge
    · have hdigit : ¬ hexDigitOf n = 0x30 := mt (hexDigitOf_spec n hlt).2.2.mp hne
      rw [Nat.div_eq_of_lt hlt, Nat.mod_eq_of_lt hlt, dropWhile_paddedDigits_zero,
        hexNumeral_of_lt hlt]
      simp [hdigit]
    · have hshort := @ih (n / 16) (by omega) (by omega)
      have hne : hexNumeral (n / 16) ≠ [] := by
        intro hnil
        have hread := hexadecimal_hexNumeral (n / 16)
        rw [hnil] at hread
        have hzero : n / 16 = 0 := hread.symm
        omega
      rw [hshort, hexNumeral_of_le hge, if_neg (by simpa using hne)]

/-- No longer than the number. -/
theorem hexNumeral_length {k n : Nat} (h : n < 16 ^ (k + 1)) :
    0 < (hexNumeral n).length ∧ (hexNumeral n).length ≤ k + 1 := by
  by_cases hzero : n = 0
  · rw [hzero]
    exact ⟨Nat.one_pos, Nat.succ_le_succ (Nat.zero_le k)⟩
  · refine ⟨List.length_pos_iff.mpr fun hnil => hzero ?_, ?_⟩
    · have hread := hexadecimal_hexNumeral n
      rw [hnil] at hread
      exact hread.symm
    · rw [← dropWhile_paddedDigits h hzero]
      exact Nat.le_trans (List.dropWhile_suffix _).length_le (Nat.le_of_eq (length_paddedDigits ..))

/-! ## Groups of digits -/

/-- The number whose parts of `k` digits are the groups. -/
def paddedFrom (k acc : Nat) (groups : List (List UInt8)) : Nat :=
  groups.foldl (fun acc digits => acc * 16 ^ k + hexadecimal digits) acc

@[simp] theorem paddedFrom_cons (k acc : Nat) (digits : List UInt8) (groups : List (List UInt8)) :
    paddedFrom k acc (digits :: groups) =
      paddedFrom k (acc * 16 ^ k + hexadecimal digits) groups := List.foldl_cons ..

/-- No group behind one that is not zero is short. -/
def Aligned (k : Nat) (groups : List (List UInt8)) : Prop :=
  groups.Pairwise fun digits digits' => hexadecimal digits = 0 ∨ digits'.length = k

instance (k : Nat) (groups : List (List UInt8)) : Decidable (Aligned k groups) :=
  inferInstanceAs (Decidable (List.Pairwise _ _))

theorem aligned_cons {k : Nat} {digits : List UInt8} {groups : List (List UInt8)} :
    Aligned k (digits :: groups) ↔
      (∀ digits' ∈ groups, hexadecimal digits = 0 ∨ digits'.length = k) ∧ Aligned k groups :=
  List.pairwise_cons

/-- Once the groups written one behind another are behind, they stay so. -/
theorem hexFrom_flatten_eq_iff {k : Nat} (groups : List (List UInt8))
    (h : ∀ digits ∈ groups, digits.length ≤ k) :
    ∀ {acc padded : Nat}, acc ≤ padded →
      (hexFrom acc groups.flatten = paddedFrom k padded groups ↔
        acc = padded ∧ (padded = 0 ∨ ∀ digits ∈ groups, digits.length = k) ∧ Aligned k groups) := by
  induction groups with
  | nil =>
    intro acc padded _
    simp [paddedFrom, Aligned]
  | cons digits groups ih =>
    intro acc padded hle
    have hpow : 16 ^ digits.length ≤ 16 ^ k :=
      Nat.pow_le_pow_right (by omega) (h digits List.mem_cons_self)
    have hmul : acc * 16 ^ digits.length ≤ padded * 16 ^ k := Nat.mul_le_mul hle hpow
    -- the two numbers agree up to here, or the digits that are written are less
    have hstep : acc * 16 ^ digits.length = padded * 16 ^ k ↔
        acc = padded ∧ (padded = 0 ∨ digits.length = k) := by
      constructor
      · intro heq
        have hacc : acc = padded := by
          by_contra hne
          have hlt : acc * 16 ^ digits.length < padded * 16 ^ k :=
            calc acc * 16 ^ digits.length < padded * 16 ^ digits.length :=
                  Nat.mul_lt_mul_of_pos_right (by omega) (Nat.pow_pos (by omega))
              _ ≤ padded * 16 ^ k := Nat.mul_le_mul_left _ hpow
          omega
        refine ⟨hacc, ?_⟩
        rw [hacc] at heq
        rcases Nat.eq_zero_or_pos padded with hzero | hpos
        · exact Or.inl hzero
        · exact Or.inr (Nat.pow_right_injective (by omega : 2 ≤ 16)
            (Nat.eq_of_mul_eq_mul_left hpos heq))
      · rintro ⟨rfl, rfl | rfl⟩
        · rw [Nat.zero_mul, Nat.zero_mul]
        · rfl
    rw [List.flatten_cons, hexFrom_append, hexFrom_eq digits, paddedFrom_cons,
      ih (fun g hg => h g (List.mem_cons_of_mem _ hg)) (Nat.add_le_add_right hmul _),
      Nat.add_right_cancel_iff, hstep, aligned_cons, List.forall_mem_cons]
    have hpos : 0 < 16 ^ k := Nat.pow_pos (by omega)
    have hzero : padded * 16 ^ k + hexadecimal digits = 0 ↔ padded = 0 ∧ hexadecimal digits = 0 := by
      rw [Nat.add_eq_zero_iff, Nat.mul_eq_zero, or_iff_left (Nat.pos_iff_ne_zero.mp hpos)]
    rw [hzero]
    constructor
    · rintro ⟨⟨hacc, hfirst⟩, hrest, haligned⟩
      refine ⟨hacc, ?_, fun g hg => ?_, haligned⟩
      · rcases hfirst with hfirst | hfirst
        · exact Or.inl hfirst
        · rcases hrest with ⟨hnone, _⟩ | hall
          · exact Or.inl hnone
          · exact Or.inr ⟨hfirst, hall⟩
      · exact hrest.imp And.right fun hall => hall g hg
    · rintro ⟨hacc, hfirst, hgroup, haligned⟩
      refine ⟨⟨hacc, hfirst.imp_right And.left⟩, ?_, haligned⟩
      rcases hfirst with hfirst | ⟨_, hall⟩
      · by_cases hdigits : hexadecimal digits = 0
        · exact Or.inl ⟨hfirst, hdigits⟩
        · exact Or.inr fun g hg => (hgroup g hg).resolve_left hdigits
      · exact Or.inr hall

/-- **Groups written one behind another** are the number they are the parts of exactly when
they are aligned. -/
theorem hexadecimal_flatten_eq_iff {k : Nat} {groups : List (List UInt8)}
    (h : ∀ digits ∈ groups, digits.length ≤ k) :
    hexadecimal groups.flatten = paddedFrom k 0 groups ↔ Aligned k groups := by
  rw [hexadecimal, hexFrom_flatten_eq_iff groups h (Nat.le_refl 0)]
  simp

/-! ## Groups with separators -/

/-- A separator, where there is a next group. -/
theorem intercalate_append (sep : UInt8) (group group' : List UInt8) (groups : List (List UInt8))
    (tail : List UInt8) :
    [sep].intercalate (group :: group' :: groups) ++ tail =
      group ++ sep :: ([sep].intercalate (group' :: groups) ++ tail) := by
  rw [List.intercalate_cons_cons, List.append_assoc, List.append_assoc, List.singleton_append]

/-- The text has the characters of the groups, and separators. -/
theorem mem_intercalate {sep c : UInt8} {groups : List (List UInt8)} :
    (∃ group ∈ groups, c ∈ group) → c ∈ [sep].intercalate groups := by
  induction groups with
  | nil => exact fun ⟨_, hgroup, _⟩ => absurd hgroup List.not_mem_nil
  | cons group groups ih =>
    rintro ⟨group', hgroup, hc⟩
    cases groups with
    | nil =>
      rw [List.intercalate_singleton, ← List.mem_singleton.mp hgroup]
      exact hc
    | cons second groups =>
      rw [List.intercalate_cons_cons]
      rcases List.mem_cons.mp hgroup with rfl | hgroup
      · exact List.mem_append_left _ (List.mem_append_left _ hc)
      · exact List.mem_append_right _ (ih ⟨group', hgroup, hc⟩)

theorem eq_or_of_mem_intercalate {sep c : UInt8} {groups : List (List UInt8)} :
    c ∈ [sep].intercalate groups → c = sep ∨ ∃ group ∈ groups, c ∈ group := by
  induction groups with
  | nil => exact fun h => absurd h List.not_mem_nil
  | cons group groups ih =>
    intro h
    cases groups with
    | nil =>
      rw [List.intercalate_singleton] at h
      exact Or.inr ⟨group, List.mem_cons_self, h⟩
    | cons second groups =>
      rw [List.intercalate_cons_cons, List.append_assoc, List.mem_append] at h
      rcases h with h | h
      · exact Or.inr ⟨group, List.mem_cons_self, h⟩
      · rcases List.mem_append.mp h with h | h
        · exact Or.inl (List.mem_singleton.mp h)
        · exact (ih h).imp_right fun ⟨group, hg, hc⟩ => ⟨group, List.mem_cons_of_mem _ hg, hc⟩

/-- The groups of a text, and what is behind them, are determined. -/
theorem intercalate_injective {P : UInt8 → Prop} {sep : UInt8} (hsep : ¬ P sep)
    {groups : List (List UInt8)} :
    ∀ {groups' : List (List UInt8)} {tail tail' : List UInt8},
      groups.length = groups'.length → (∀ group ∈ groups, ∀ c ∈ group, P c) →
      (∀ group ∈ groups', ∀ c ∈ group, P c) → ¬ P (tail.headD 0) → ¬ P (tail'.headD 0) →
      [sep].intercalate groups ++ tail = [sep].intercalate groups' ++ tail' →
      groups = groups' ∧ tail = tail' := by
  induction groups with
  | nil =>
    intro groups' tail tail' hlength _ _ _ _ htext
    obtain rfl := List.length_eq_zero_iff.mp hlength.symm
    exact ⟨rfl, htext⟩
  | cons group groups ih =>
    intro groups' tail tail' hlength hgroups hgroups' htail htail' htext
    obtain ⟨group', groups', rfl⟩ := List.exists_cons_of_length_eq_add_one hlength.symm
    obtain ⟨hgroup, hrest⟩ := List.forall_mem_cons.mp hgroups
    obtain ⟨hgroup', hrest'⟩ := List.forall_mem_cons.mp hgroups'
    rw [List.length_cons, List.length_cons, Nat.add_right_cancel_iff] at hlength
    cases groups with
    | nil =>
      obtain rfl := List.length_eq_zero_iff.mp hlength.symm
      rw [List.intercalate_singleton, List.intercalate_singleton] at htext
      obtain ⟨rfl, rfl⟩ := prefix_unique hgroup hgroup' htail htail' htext
      exact ⟨rfl, rfl⟩
    | cons second groups =>
      obtain ⟨second', groups', rfl⟩ := List.exists_cons_of_length_eq_add_one hlength.symm
      rw [intercalate_append, intercalate_append] at htext
      obtain ⟨rfl, hmore⟩ := prefix_unique hgroup hgroup' (by rw [List.headD_cons]; exact hsep)
        (by rw [List.headD_cons]; exact hsep) htext
      obtain ⟨hgroups, rfl⟩ := ih hlength hrest hrest' htail htail' (List.cons.inj hmore).2
      exact ⟨by rw [hgroups], rfl⟩

end DevopsBroker.Lib
