import DevopsBroker.Lang.String
import DevopsBroker.Lang.StringScan

/-!
# Comparing strings

`compareIn`, `isEqualIn` and `hashCodeIn` go over the registers of two strings, or of one; what
they come back with is what `compare`, `isEqual` and `hashCode` say of the characters.
**`strings_agree`**: the order of `compare` is the lexicographic one of unsigned bytes, the tests
for equality agree with it, and equal strings have one hash code.
-/

namespace DevopsBroker.Lang

open DevopsBroker.Lib

/-! ## The characters -/

/-- The other way round. -/
theorem compare_swap (first second : List UInt8) : compare second first = -compare first second := by
  induction first generalizing second with
  | nil =>
    cases second with
    | nil => rfl
    | cons d second => rw [compare, compare, Int.neg_neg]
  | cons c first ih =>
    cases second with
    | nil => rw [compare, compare]
    | cons d second =>
      rw [compare, compare]
      by_cases heq : c = d
      · rw [if_pos heq, if_pos heq.symm, ih]
      · rw [if_neg heq, if_neg (Ne.symm heq)]
        omega

/-- A character of a text is no `NUL`. -/
theorem toNat_ne_zero {c : UInt8} {text : List UInt8} (h : 0 ∉ c :: text) : c.toNat ≠ 0 := by
  intro hzero
  rw [UInt8.toNat_inj.mp (hzero.trans UInt8.toNat_zero.symm)] at h
  exact h List.mem_cons_self

/-- **The order is the lexicographic one.** -/
theorem compare_neg_iff {first second : List UInt8} (hsecond : 0 ∉ second) :
    compare first second < 0 ↔ first < second := by
  induction first generalizing second with
  | nil =>
    cases second with
    | nil => simp [compare]
    | cons d second =>
      have hd := toNat_ne_zero hsecond
      rw [compare]
      exact iff_of_true (by omega) (List.nil_lt_cons d second)
  | cons c first ih =>
    cases second with
    | nil =>
      rw [compare]
      exact iff_of_false (by omega) (List.not_lt_nil _)
    | cons d second =>
      rw [compare, List.cons_lt_cons_iff]
      by_cases heq : c = d
      · rw [if_pos heq, ih (List.not_mem_of_not_mem_cons hsecond), heq]
        simp [UInt8.lt_irrefl]
      · rw [if_neg heq, UInt8.lt_iff_toNat_lt]
        simp only [heq, false_and, or_false]
        omega

theorem compare_eq_zero_iff {first second : List UInt8} (hfirst : 0 ∉ first) (hsecond : 0 ∉ second) :
    compare first second = 0 ↔ first = second := by
  induction first generalizing second with
  | nil =>
    cases second with
    | nil => simp [compare]
    | cons d second =>
      have hd := toNat_ne_zero hsecond
      rw [compare]
      exact iff_of_false (by omega) (List.cons_ne_nil d second).symm
  | cons c first ih =>
    cases second with
    | nil =>
      have hc := toNat_ne_zero hfirst
      rw [compare]
      exact iff_of_false (by omega) (List.cons_ne_nil c first)
    | cons d second =>
      rw [compare, List.cons.injEq]
      by_cases heq : c = d
      · rw [if_pos heq, and_iff_right heq,
          ih (List.not_mem_of_not_mem_cons hfirst) (List.not_mem_of_not_mem_cons hsecond)]
      · have hne := mt UInt8.toNat_inj.mp heq
        rw [if_neg heq]
        exact iff_of_false (by omega) fun h => heq h.1

/-! ## The loops -/

/-- The difference of two characters, sign-extended. -/
theorem compareRound_eq (mem : Mem) (c d : Cursor) :
    compareRound mem (c, d) =
      if c.char = d.char then
        if c.char = 0 then some (.done 0) else some (.next (c.next mem, d.next mem))
      else some (.done ((c.char.toNat : Int) - d.char.toNat)) := by
  have hc := c.char.toNat_lt
  have hd := d.char.toNat_lt
  rw [compareRound]
  by_cases heq : c.char = d.char
  · rw [if_pos heq, heq, if_neg (by omega)]
  · have hne := mt UInt8.toNat_inj.mp heq
    have hdiff : cwde ((c.char.toNat + 2 ^ 16 - d.char.toNat) % 2 ^ 16) =
        (c.char.toNat : Int) - d.char.toNat := by
      unfold cwde
      split <;> omega
    rw [if_neg heq, if_pos (by omega), hdiff]

/-- **`compare`**, at two texts. -/
theorem compareLoop_returns {mem : Mem} {first : List UInt8} :
    ∀ {second : List UInt8} {c d : Cursor}, c.Reads mem first → d.Reads mem second →
      Returns (fun fuel => rounds (compareRound mem) fuel (c, d)) (compare first second) := by
  induction first with
  | nil =>
    intro second c d hc hd
    apply returns_done
    rw [compareRound_eq, hc.char, hd.char]
    cases second with
    | nil => rfl
    | cons ch second =>
      rw [List.headD_cons, List.headD_nil, if_neg (Ne.symm hd.ne_zero), compare]
      simp
  | cons ch first ih =>
    intro second c d hc hd
    have hround := compareRound_eq mem c d
    rw [hc.char, hd.char, List.headD_cons] at hround
    cases second with
    | nil =>
      rw [List.headD_nil, if_neg hc.ne_zero] at hround
      rw [compare]
      exact returns_done (by simpa using hround)
    | cons ch' second =>
      rw [List.headD_cons] at hround
      rw [compare]
      by_cases heq : ch = ch'
      · rw [if_pos heq, if_neg hc.ne_zero] at hround
        rw [if_pos heq]
        exact returns_next hround (ih (hc.next fun _ _ => rfl) (hd.next fun _ _ => rfl))
      · rw [if_neg heq] at hround
        rw [if_neg heq]
        exact returns_done hround

/-- **`isEqual`**, at two texts. -/
theorem isEqualLoop_returns {mem : Mem} {foo : List UInt8} :
    ∀ {bar : List UInt8} {c d : Cursor}, c.Reads mem foo → d.Reads mem bar →
      Returns (fun fuel => rounds (isEqualRound mem) fuel (c, d)) (isEqual foo bar) := by
  induction foo with
  | nil =>
    intro bar c d hc hd
    apply returns_done
    rw [isEqualRound, hc.char, hd.char]
    cases bar with
    | nil => rfl
    | cons ch bar => rw [List.headD_cons, List.headD_nil, if_pos (Ne.symm hd.ne_zero), isEqual]
  | cons ch foo ih =>
    intro bar c d hc hd
    cases bar with
    | nil =>
      apply returns_done
      rw [isEqualRound, hc.char, hd.char, List.headD_cons, List.headD_nil, if_pos hc.ne_zero, isEqual]
    | cons ch' bar =>
      rw [isEqual]
      by_cases heq : ch = ch'
      · have hround : isEqualRound mem (c, d) = some (.next (c.next mem, d.next mem)) := by
          rw [isEqualRound, hc.char, hd.char, List.headD_cons, List.headD_cons,
            if_neg (not_not_intro heq), if_neg hc.ne_zero]
        rw [if_pos heq]
        exact returns_next hround (ih (hc.next fun _ _ => rfl) (hd.next fun _ _ => rfl))
      · rw [if_neg heq]
        apply returns_done
        rw [isEqualRound, hc.char, hd.char, List.headD_cons, List.headD_cons, if_pos heq]

/-- **`hashCode`**, at a text. -/
theorem hashCodeLoop_returns {mem : Mem} {string : List UInt8} :
    ∀ {eax : UInt32} {c : Cursor}, c.Reads mem string →
      Returns (fun fuel => rounds (hashCodeRound mem) fuel (eax, c))
        (string.foldl (fun eax ch => (eax <<< 3) ^^^ ch.toUInt32) eax) := by
  induction string with
  | nil =>
    intro eax c hc
    apply returns_done
    rw [hashCodeRound, hc.char]
    rfl
  | cons ch string ih =>
    intro eax c hc
    have hround : hashCodeRound mem (eax, c) =
        some (.next ((eax <<< 3) ^^^ ch.toUInt32, c.next mem)) := by
      rw [hashCodeRound, hc.char, List.headD_cons, if_neg hc.ne_zero]
    exact returns_next hround (ih (hc.next fun _ _ => rfl))

/-- **`isNotEqual`**, at two texts. -/
theorem isNotEqualLoop_returns {mem : Mem} {foo : List UInt8} :
    ∀ {bar : List UInt8} {p q : Nat}, TextAt mem p foo → TextAt mem q bar →
      Returns (fun fuel => rounds (isNotEqualRound mem) fuel (p, q)) (decide (foo ≠ bar)) := by
  induction foo with
  | nil =>
    intro bar p q hp hq
    have hfoo := hp.char
    have hbar := hq.char
    apply returns_done
    rw [isNotEqualRound, hfoo, hbar]
    cases bar with
    | nil => rfl
    | cons ch bar =>
      have hne := hq.ne_zero
      simp [hne.symm]
  | cons ch foo ih =>
    intro bar p q hp hq
    have hfoo := hp.char
    have hbar := hq.char
    have hne := hp.ne_zero
    rw [List.headD_cons] at hfoo
    cases bar with
    | nil =>
      rw [List.headD_nil] at hbar
      apply returns_done
      simp [isNotEqualRound, hfoo, hbar, hne]
    | cons ch' bar =>
      rw [List.headD_cons] at hbar
      by_cases heq : ch = ch'
      · subst heq
        have hround : isNotEqualRound mem (p, q) = some (.next (p + 1, q + 1)) := by
          rw [isNotEqualRound, hfoo, hbar, if_pos ⟨hne, hne, rfl⟩]
        have hmore := returns_next hround (ih hp.tail hq.tail)
        simpa using hmore
      · apply returns_done
        simp [isNotEqualRound, hfoo, hbar, heq]

/-! ## The routines -/

section

variable {mem : Mem} {a b : Nat} {first second : List UInt8}

theorem compareIn_returns (ha : a ≠ 0) (hb : b ≠ 0) (hfirst : TextAt mem a first)
    (hsecond : TextAt mem b second) :
    Returns (fun fuel => compareIn fuel mem a b) (compare first second) := by
  unfold compareIn
  by_cases hsame : a = b
  · subst hsame
    obtain rfl := hfirst.unique hsecond
    rw [(compare_eq_zero_iff hfirst.noNul hfirst.noNul).mpr rfl]
    exact returns_of_eq fun _ => if_pos rfl
  · simp only [if_neg hsame, if_neg ha, if_neg hb]
    exact compareLoop_returns (Cursor.reads_load hfirst) (Cursor.reads_load hsecond)

theorem isEqualIn_returns (ha : a ≠ 0) (hb : b ≠ 0) (hfirst : TextAt mem a first)
    (hsecond : TextAt mem b second) :
    Returns (fun fuel => isEqualIn fuel mem a b) (isEqual first second) := by
  unfold isEqualIn
  by_cases hsame : a = b
  · subst hsame
    obtain rfl := hfirst.unique hsecond
    rw [isEqual_iff.mpr rfl]
    exact returns_of_eq fun _ => if_pos rfl
  · simp only [if_neg hsame, if_neg ha, if_neg hb]
    exact isEqualLoop_returns (Cursor.reads_load hfirst) (Cursor.reads_load hsecond)

theorem isNotEqual_returns (ha : a ≠ 0) (hb : b ≠ 0) (hfirst : TextAt mem a first)
    (hsecond : TextAt mem b second) :
    Returns (fun fuel => isNotEqual fuel mem a b) (decide (first ≠ second)) := by
  unfold isNotEqual
  by_cases hsame : a = b
  · subst hsame
    obtain rfl := hfirst.unique hsecond
    rw [decide_eq_false (not_not_intro rfl)]
    exact returns_of_eq fun _ => if_pos rfl
  · simp only [if_neg hsame, if_neg (not_or.mpr ⟨ha, hb⟩)]
    exact isNotEqualLoop_returns hfirst hsecond

theorem hashCodeIn_returns (ha : a ≠ 0) (hfirst : TextAt mem a first) :
    Returns (fun fuel => hashCodeIn fuel mem a) (hashCode first) := by
  unfold hashCodeIn
  simp only [if_neg ha]
  exact hashCodeLoop_returns (Cursor.reads_load hfirst)

/-- **The four routines agree** on two strings, wherever these are: the order is that of unsigned
bytes, both tests for equality say what it says, and equal strings have one hash code. -/
theorem strings_agree (ha : a ≠ 0) (hb : b ≠ 0) (hfirst : TextAt mem a first)
    (hsecond : TextAt mem b second) :
    ∃ order equal different hash hash',
      Returns (fun fuel => compareIn fuel mem a b) order ∧
      Returns (fun fuel => isEqualIn fuel mem a b) equal ∧
      Returns (fun fuel => isNotEqual fuel mem a b) different ∧
      Returns (fun fuel => hashCodeIn fuel mem a) hash ∧
      Returns (fun fuel => hashCodeIn fuel mem b) hash' ∧
      (order < 0 ↔ first < second) ∧ (order = 0 ↔ first = second) ∧ (0 < order ↔ second < first) ∧
      (equal = true ↔ order = 0) ∧ (equal = true ↔ different = false) ∧
      (equal = true → hash = hash') := by
  have hzero := compare_eq_zero_iff hfirst.noNul hsecond.noNul
  have hgreater : 0 < compare first second ↔ second < first := by
    rw [← compare_neg_iff hfirst.noNul, compare_swap first second]
    omega
  have hequal : isEqual first second = true ↔ first = second := isEqual_iff
  refine ⟨_, _, _, _, _, compareIn_returns ha hb hfirst hsecond,
    isEqualIn_returns ha hb hfirst hsecond, isNotEqual_returns ha hb hfirst hsecond,
    hashCodeIn_returns ha hfirst, hashCodeIn_returns hb hsecond,
    compare_neg_iff hsecond.noNul, hzero, hgreater, hequal.trans hzero.symm, ?_, ?_⟩
  · rw [hequal, decide_eq_false_iff_not, not_not]
  · intro h
    rw [hequal.mp h]

end

/-- A memory with the strings `"b"` and `"\xc3"`. -/
def twoStrings : Mem := storeBytes (storeBytes (fun _ => 0) 0x10 [0x62]) 0x20 [0xC3]

/-- A byte above `0x7F` comes behind the letters. -/
theorem strings_agree_highByte :
    ∃ order, Returns (fun fuel => compareIn fuel twoStrings 0x10 0x20) order ∧ order < 0 := by
  have hfirst : TextAt twoStrings 0x10 [0x62] := ⟨by decide, by decide⟩
  have hsecond : TextAt twoStrings 0x20 [0xC3] := ⟨by decide, by decide⟩
  obtain ⟨order, _, _, _, _, horder, _, _, _, _, hless, _⟩ :=
    strings_agree (by decide) (by decide) hfirst hsecond
  exact ⟨order, horder, hless.mpr (by decide)⟩

end DevopsBroker.Lang
