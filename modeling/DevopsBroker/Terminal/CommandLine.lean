import DevopsBroker.Lang.IntegerParseSpec
import DevopsBroker.Lib.Cursor

/-!
# `terminal/commandline.linux-x86_64.asm`: integers among the arguments

`getUint32` and `getUint64` read the digits of an argument through a register, with signed
comparisons and two `lea` for each digit. The parsers of `lang/integer.c` and `lang/long.c` read
them one by one. **`digitLoops_parse`**: they take the same strings for a number, and for the same
one.

Mirroring notes vs the source:
- `argv` is the addresses of the arguments. The index is taken for an unsigned one.
- `missingParameter` and `invalidValue` print a message and the usage, and exit.
- The two loops differ in the width of their registers.
-/

namespace DevopsBroker.Terminal

open DevopsBroker.Lang DevopsBroker.Lib

/-- `struct CmdLineParam`. -/
structure CmdLineParam where
  usageMsg : Nat
  argv : Nat → Nat
  argc : UInt32

/-- What is printed before `exit(EXIT_FAILURE)`. -/
inductive Failure where
  | missingParameter (paramName usageMsg : Nat)
  | invalidValue (paramName argument usageMsg : Nat)

/-- From `.whileInteger` back to it, to `.epilogue` with `rax`, or to `invalidValue`. -/
def digitRound (width : Nat) (mem : Mem) : Cursor × Nat → Option (Turn (Cursor × Nat) (Option Nat))
  | (c, rax) =>
    if c.char = 0 then some (.done (some rax))
    else if signed c.char > 0x39 then some (.done none)
    else if signed c.char < 0x30 then some (.done none)
    else
      let r9 := (c.char - 0x30).toNat
      let rax := (rax + rax * 4) % 2 ^ width
      some (.next (c.next mem, (r9 + rax * 2) % 2 ^ width))

/-- `.parseUint32`, of the argument at an address. -/
def parseUint32 (fuel : Nat) (mem : Mem) (argument : Nat) : Option (Option UInt32) :=
  (rounds (digitRound 32 mem) fuel (.load mem argument, 0)).map (Option.map UInt32.ofNat)

/-- `.parseUint64`. -/
def parseUint64 (fuel : Nat) (mem : Mem) (argument : Nat) : Option (Option UInt64) :=
  (rounds (digitRound 64 mem) fuel (.load mem argument, 0)).map (Option.map UInt64.ofNat)

/-- The value, or `invalidValue`. -/
def orInvalid {α : Type} (paramName argument usageMsg : Nat) : Option α → Except Failure α
  | none => .error (.invalidValue paramName argument usageMsg)
  | some value => .ok value

/-- `d7ad7024_getUint32`. -/
def getUint32 (fuel : Nat) (mem : Mem) (cmdLineParam : CmdLineParam) (paramName : Nat)
    (argIndex : UInt32) : Option (Except Failure UInt32) :=
  if argIndex = cmdLineParam.argc then
    some (.error (.missingParameter paramName cmdLineParam.usageMsg))
  else
    let argument := cmdLineParam.argv argIndex.toNat
    (parseUint32 fuel mem argument).map (orInvalid paramName argument cmdLineParam.usageMsg)

/-- `d7ad7024_getUint64`, which increments the index first. -/
def getUint64 (fuel : Nat) (mem : Mem) (cmdLineParam : CmdLineParam) (paramName : Nat)
    (i : UInt32) : Option (Except Failure UInt64) :=
  if i + 1 = cmdLineParam.argc then
    some (.error (.missingParameter paramName cmdLineParam.usageMsg))
  else
    let argument := cmdLineParam.argv (i + 1).toNat
    (parseUint64 fuel mem argument).map (orInvalid paramName argument cmdLineParam.usageMsg)

/-! ## One loop against the other -/

/-- A character that is no digit ends both loops. -/
theorem signed_sub_zero_range {c : UInt8} (h : ¬ IsDecimal c) :
    signed c - 0x30 < 0 ∨ signed c - 0x30 > 9 := by
  by_contra hrange
  apply h
  refine isDecimal_iff_jumps.mpr ⟨?_, ?_⟩ <;> omega

/-- The two `lea`. -/
theorem lea_eq (rax r9 width : Nat) :
    (r9 + (rax + rax * 4) % 2 ^ width * 2) % 2 ^ width =
      (10 * rax % 2 ^ width + r9) % 2 ^ width := by
  have hten : (rax + rax * 4) * 2 = 10 * rax := by omega
  rw [Nat.mod_add_mod, Nat.add_comm r9, ← Nat.mod_add_mod, Nat.mod_mul_mod, hten, Nat.mod_add_mod]

/-- The value that was read, if the argument was taken for a number. -/
def accepted {ε α : Type} : Except ε α → Option α
  | .error _ => none
  | .ok value => some value

/-- **The loops agree**, from any character on. -/
theorem digitRound_agrees {mem mem' : Mem} {width : Nat} {text : List UInt8} :
    ∀ {c : Cursor} {source value : Nat}, c.Reads mem text → TextAt mem' source text →
      ∃ parsed, Returns (fun fuel => rounds (parseRound width mem') fuel (source, value)) parsed ∧
        Returns (fun fuel => rounds (digitRound width mem) fuel (c, value)) (accepted parsed) := by
  induction text with
  | nil =>
    intro c source value hreads htext
    refine ⟨.ok value, returns_done ?_, returns_done ?_⟩
    · rw [parseRound, htext.char, List.headD_nil, if_pos rfl]
    · rw [digitRound, hreads.char, List.headD_nil, if_pos rfl]
      rfl
  | cons ch text ih =>
    intro c source value hreads htext
    have hchar := hreads.char
    rw [List.headD_cons] at hchar
    by_cases hdecimal : IsDecimal ch
    · obtain ⟨hnine, hzero⟩ := isDecimal_iff_jumps.mp hdecimal
      have hdigit := digitValue_lt hdecimal
      have hvalue : (ch - 0x30).toNat = digitValue ch := UInt8.toNat_sub_of_le ch 0x30 hdecimal.1
      have hparse : parseRound width mem' (source, value) =
          some (.next (source + 1, (10 * value % 2 ^ width + digitValue ch) % 2 ^ width)) := by
        rw [parseRound, htext.char, List.headD_cons, if_neg htext.ne_zero, signed_sub_zero hdecimal,
          if_neg (by omega), Int.toNat_natCast]
      have hround : digitRound width mem (c, value) =
          some (.next (c.next mem, (10 * value % 2 ^ width + digitValue ch) % 2 ^ width)) := by
        rw [digitRound, hchar, if_neg htext.ne_zero, if_neg hnine, if_neg hzero, hvalue]
        dsimp only
        rw [lea_eq]
      obtain ⟨parsed, hrun', hrun⟩ := @ih _ _
        ((10 * value % 2 ^ width + digitValue ch) % 2 ^ width) (hreads.next fun _ _ => rfl) htext.tail
      exact ⟨parsed, returns_next hparse hrun', returns_next hround hrun⟩
    · refine ⟨.error source, returns_done ?_, returns_done ?_⟩
      · rw [parseRound, htext.char, List.headD_cons, if_neg htext.ne_zero,
          if_pos (signed_sub_zero_range hdecimal)]
      · rw [digitRound, hchar, if_neg htext.ne_zero]
        by_cases hnine : signed ch > 0x39
        · rw [if_pos hnine]
          rfl
        · have hzero : signed ch < 0x30 := by
            by_contra hzero
            exact hdecimal (isDecimal_iff_jumps.mpr ⟨hnine, hzero⟩)
          rw [if_neg hnine, if_pos hzero]
          rfl

theorem parseUint32_agrees {mem mem' : Mem} {argument source : Nat} {text : List UInt8}
    (h : TextAt mem argument text) (h' : TextAt mem' source text) :
    ∃ value32 parsed32, Returns (fun fuel => parseUint32 fuel mem argument) value32 ∧
      Returns (fun fuel => parse_uint32 fuel mem' source) parsed32 ∧
      ∀ value, value32 = some value ↔ parsed32 = .ok value := by
  obtain ⟨parsed, hparse, hloop⟩ :=
    @digitRound_agrees mem mem' 32 text _ _ 0 (Cursor.reads_load h) h'
  refine ⟨_, _, hloop.map _, hparse.map _, fun value => ?_⟩
  cases parsed with
  | error source => exact ⟨fun hsome => (nomatch hsome), fun hok => (nomatch hok)⟩
  | ok n =>
    exact ⟨fun hsome => congrArg Except.ok (Option.some.inj hsome),
      fun hok => congrArg some (Except.ok.inj hok)⟩

theorem parseUint64_agrees {mem mem' : Mem} {argument source : Nat} {text : List UInt8}
    (h : TextAt mem argument text) (h' : TextAt mem' source text) :
    ∃ value64, Returns (fun fuel => parseUint64 fuel mem argument) value64 ∧
      Returns (fun fuel => parse_uint64 fuel mem' source) value64 := by
  obtain ⟨parsed, hparse, hloop⟩ :=
    @digitRound_agrees mem mem' 64 text _ _ 0 (Cursor.reads_load h) h'
  have hsame : (accepted parsed).map UInt64.ofNat = valueOrAbort parsed := by
    cases parsed <;> rfl
  have hrun := hloop.map (Option.map UInt64.ofNat)
  rw [hsame] at hrun
  exact ⟨_, hrun, hparse.map _⟩

/-- **The loops of `getUint32` and `getUint64` accept what the parsers accept**, with the same
value, wherever the string is. -/
theorem digitLoops_parse {mem mem' : Mem} {argument source : Nat} {text : List UInt8}
    (h : TextAt mem argument text) (h' : TextAt mem' source text) :
    ∃ value32 parsed32 value64 parsed64,
      Returns (fun fuel => parseUint32 fuel mem argument) value32 ∧
      Returns (fun fuel => parse_uint32 fuel mem' source) parsed32 ∧
      Returns (fun fuel => parseUint64 fuel mem argument) value64 ∧
      Returns (fun fuel => parse_uint64 fuel mem' source) parsed64 ∧
      (∀ value, value32 = some value ↔ parsed32 = .ok value) ∧
      ∀ value, value64 = some value ↔ parsed64 = some value := by
  obtain ⟨value32, parsed32, hloop32, hparse32, hagree⟩ := parseUint32_agrees h h'
  obtain ⟨value64, hloop64, hparse64⟩ := parseUint64_agrees h h'
  exact ⟨value32, parsed32, value64, value64, hloop32, hparse32, hloop64, hparse64, hagree,
    fun _ => Iff.rfl⟩

/-- `"4294967297"`, which wraps around in 32 bits. -/
theorem digitLoops_parse_wraps :
    ∃ value32 parsed32 value64 parsed64,
      Returns (fun fuel => parseUint32 fuel
        (textMem [0x34, 0x32, 0x39, 0x34, 0x39, 0x36, 0x37, 0x32, 0x39, 0x37]) 0) value32 ∧
      Returns (fun fuel => parse_uint32 fuel
        (textMem [0x34, 0x32, 0x39, 0x34, 0x39, 0x36, 0x37, 0x32, 0x39, 0x37]) 0) parsed32 ∧
      Returns (fun fuel => parseUint64 fuel
        (textMem [0x34, 0x32, 0x39, 0x34, 0x39, 0x36, 0x37, 0x32, 0x39, 0x37]) 0) value64 ∧
      Returns (fun fuel => parse_uint64 fuel
        (textMem [0x34, 0x32, 0x39, 0x34, 0x39, 0x36, 0x37, 0x32, 0x39, 0x37]) 0) parsed64 ∧
      (∀ value, value32 = some value ↔ parsed32 = .ok value) ∧
      ∀ value, value64 = some value ↔ parsed64 = some value :=
  digitLoops_parse (textAt_textMem (by decide)) (textAt_textMem (by decide))

/-! ## Arguments -/

theorem orInvalid_eq_ok {α : Type} {paramName argument usageMsg : Nat} {read : Option α} {value : α} :
    orInvalid paramName argument usageMsg read = .ok value ↔ read = some value := by
  cases read with
  | none => exact ⟨fun hok => (nomatch hok), fun hsome => (nomatch hsome)⟩
  | some value' =>
    exact ⟨fun hok => congrArg some (Except.ok.inj hok),
      fun hsome => congrArg Except.ok (Option.some.inj hsome)⟩

/-- An argument that is there is returned as the number that the parser makes of it, or refused by
both. -/
theorem getUint32_parse {mem : Mem} {cmdLineParam : CmdLineParam} {argIndex : UInt32}
    {text : List UInt8} (hindex : argIndex ≠ cmdLineParam.argc)
    (h : TextAt mem (cmdLineParam.argv argIndex.toNat) text) (paramName : Nat) :
    ∃ outcome parsed,
      Returns (fun fuel => getUint32 fuel mem cmdLineParam paramName argIndex) outcome ∧
      Returns (fun fuel => parse_uint32 fuel mem (cmdLineParam.argv argIndex.toNat)) parsed ∧
      ∀ value, outcome = .ok value ↔ parsed = .ok value := by
  obtain ⟨value32, parsed32, hloop, hparse, hagree⟩ := parseUint32_agrees h h
  refine ⟨orInvalid paramName (cmdLineParam.argv argIndex.toNat) cmdLineParam.usageMsg value32,
    parsed32, ?_, hparse, fun value => orInvalid_eq_ok.trans (hagree value)⟩
  simp only [getUint32, if_neg hindex]
  exact hloop.map _

/-- Behind the incremented index. -/
theorem getUint64_parse {mem : Mem} {cmdLineParam : CmdLineParam} {i : UInt32}
    {text : List UInt8} (hindex : i + 1 ≠ cmdLineParam.argc)
    (h : TextAt mem (cmdLineParam.argv (i + 1).toNat) text) (paramName : Nat) :
    ∃ outcome parsed,
      Returns (fun fuel => getUint64 fuel mem cmdLineParam paramName i) outcome ∧
      Returns (fun fuel => parse_uint64 fuel mem (cmdLineParam.argv (i + 1).toNat)) parsed ∧
      ∀ value, outcome = .ok value ↔ parsed = some value := by
  obtain ⟨value64, hloop, hparse⟩ := parseUint64_agrees h h
  refine ⟨orInvalid paramName (cmdLineParam.argv (i + 1).toNat) cmdLineParam.usageMsg value64,
    value64, ?_, hparse, fun value => orInvalid_eq_ok⟩
  simp only [getUint64, if_neg hindex]
  exact hloop.map _

end DevopsBroker.Terminal
