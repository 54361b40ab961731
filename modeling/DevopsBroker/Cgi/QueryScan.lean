import DevopsBroker.Cgi.HttpRequest
import DevopsBroker.Lang.StringScan
import DevopsBroker.Lib.FormUrlencoded
import DevopsBroker.Lib.Rounds

/-!
# What is read of a query string

`urldecode` and `mapQueryString` again, on strings in memory and with every byte that they read or
write. `urldecode` takes the two characters behind a `%` without a look at them, and `mapQueryString`
looks for the `=` behind a name and for nothing else. **`query_scanned_iff`**: they stay inside of
the string exactly when every `%` has two characters behind it, and every name a `=`.

Mirroring notes vs the source:
- `accesses` has the last one first. A `prefetcht0` is none.
- `mapQueryString` ends where it calls `c47905f7_putFromStack`, with `rsi`, the stack from its top
  on, and `edx`.
-/

namespace DevopsBroker.Cgi

open DevopsBroker.Lang DevopsBroker.Lib

/-- A memory, and what was accessed in it. -/
structure Traced where
  mem : Mem
  accesses : List ByteAccess

namespace Traced

/-- The byte at an address. -/
def load (t : Traced) (address : Nat) : UInt8 × Traced :=
  (t.mem address, { t with accesses := .read address :: t.accesses })

def store (t : Traced) (address : Nat) (value : UInt8) : Traced :=
  ⟨storeByte t.mem address value, .write address :: t.accesses⟩

end Traced

/-! ## The routines -/

/-- The registers of `urldecode`. -/
structure DecodeState where
  rdi : Nat
  rsi : Nat
  traced : Traced

/-- From `.whileChars` back to it, or to the end. -/
def decodeRound (s : DecodeState) : Option (Turn DecodeState Traced) :=
  let (ch, traced) := s.traced.load s.rdi
  if ch = 0 then some (.done (traced.store s.rsi 0))
  else if ch = PLUS then some (.next ⟨s.rdi + 1, s.rsi + 1, traced.store s.rsi SPACE⟩)
  else if ch = PERCENT then
    let (first, traced) := traced.load (s.rdi + 1)
    let (second, traced) := traced.load (s.rdi + 2)
    some (.next ⟨s.rdi + 3, s.rsi + 1, traced.store s.rsi (percentEncoded first second)⟩)
  else some (.next ⟨s.rdi + 1, s.rsi + 1, traced.store s.rsi ch⟩)

/-- `a2465172_urldecode`, in memory. -/
def urldecodeIn (fuel : Nat) (mem : Mem) (queryString paramStr : Nat) : Option Traced :=
  rounds decodeRound fuel ⟨queryString, paramStr, mem, []⟩

/-- Where `mapQueryString` is. -/
inductive MapLabel where
  | findName
  | findValue

/-- The registers of `mapQueryString`, with what is on the stack. -/
structure MapRegisters where
  label : MapLabel
  rsi : Nat
  r8b : UInt8
  edx : UInt32
  stack : List Nat
  traced : Traced

namespace MapRegisters

/-- `paramStr++`, and the character there. -/
def next (s : MapRegisters) : MapRegisters :=
  let (ch, traced) := s.traced.load (s.rsi + 1)
  { s with rsi := s.rsi + 1, r8b := ch, traced := traced }

/-- A `NUL` instead of the character, and the address behind it on the stack. -/
def found (s : MapRegisters) (label : MapLabel) : MapRegisters :=
  let s := { s with traced := s.traced.store s.rsi 0 }.next
  { s with label := label, stack := s.rsi :: s.stack }

end MapRegisters

/-- From `.findName` or `.findValue` to one of them, or to `.putFromStack`. -/
def mapRound (s : MapRegisters) : Option (Turn MapRegisters MapRegisters) :=
  match s.label with
  | .findName =>
    if s.r8b = EQUALS then some (.next ({ s with edx := s.edx + 1 }.found .findValue))
    else some (.next s.next)
  | .findValue =>
    if s.r8b = AMPERSAND then some (.next (s.found .findName))
    else if s.r8b = 0 then some (.done { s with edx := s.edx <<< 1 })
    else some (.next s.next)

/-- `a2465172_mapQueryString`, in memory; `some none` is a `paramStr` that is `NULL`. -/
def mapQueryStringIn (fuel : Nat) (mem : Mem) (paramStr : Nat) : Option (Option MapRegisters) :=
  if paramStr = 0 then some none
  else
    let (ch, traced) := Traced.load ⟨mem, []⟩ paramStr
    (rounds mapRound fuel ⟨.findName, paramStr, ch, 0, [paramStr], traced⟩).map some

/-! ## What stays inside of the string -/

/-- The byte is one of the string, or the `NUL` if it is only read. -/
def InString (p length : Nat) : ByteAccess → Prop
  | .read a => p ≤ a ∧ a ≤ p + length
  | .write a => p ≤ a ∧ a < p + length

/-- What is read is the string, or its `NUL`. -/
def ReadsString (p length : Nat) (traced : Traced) : Prop :=
  ∀ a, .read a ∈ traced.accesses → p ≤ a ∧ a ≤ p + length

/-- What is written is inside of the string. -/
def WritesString (p length : Nat) (traced : Traced) : Prop :=
  ∀ a, .write a ∈ traced.accesses → p ≤ a ∧ a < p + length

/-- Something behind the `NUL` was read. -/
def Overrun (last : Nat) (traced : Traced) : Prop := ∃ a, .read a ∈ traced.accesses ∧ last < a

theorem Overrun.load {last : Nat} {t : Traced} (h : Overrun last t) (address : Nat) :
    Overrun last (t.load address).2 := by
  obtain ⟨a, hmem, hlt⟩ := h
  exact ⟨a, List.mem_cons_of_mem _ hmem, hlt⟩

theorem Overrun.store {last : Nat} {t : Traced} (h : Overrun last t) (address : Nat) (value : UInt8) :
    Overrun last (t.store address value) := by
  obtain ⟨a, hmem, hlt⟩ := h
  exact ⟨a, List.mem_cons_of_mem _ hmem, hlt⟩

theorem overrun_load {last address : Nat} (h : last < address) (t : Traced) :
    Overrun last (t.load address).2 := ⟨address, List.mem_cons_self, h⟩

theorem Overrun.not_reads {p length : Nat} {t : Traced} (h : Overrun (p + length) t) :
    ¬ ReadsString p length t := by
  obtain ⟨a, hmem, hlt⟩ := h
  intro hreads
  exact absurd (hreads a hmem).2 (by omega)

/-! ## `urldecode` -/

/-- Every `%` has two characters behind it. -/
inductive WholeEscapes : List UInt8 → Prop where
  | nil : WholeEscapes []
  | plain {c : UInt8} {text : List UInt8} (hne : c ≠ PERCENT) (h : WholeEscapes text) :
      WholeEscapes (c :: text)
  | escape {first second : UInt8} {text : List UInt8} (h : WholeEscapes text) :
      WholeEscapes (PERCENT :: first :: second :: text)

theorem storeByte_of_ne {mem : Mem} {address a : Nat} (h : a ≠ address) (value : UInt8) :
    storeByte mem address value a = mem a := if_neg h

/-- A byte in front of others. -/
theorem storeBytes_storeByte (mem : Mem) (address : Nat) (value : UInt8) (bytes : List UInt8) :
    storeBytes (storeByte mem address value) (address + 1) bytes =
      storeBytes mem address (value :: bytes) := by
  funext a
  unfold storeBytes storeByte
  rw [List.length_cons]
  by_cases hfirst : a = address
  · subst hfirst
    rw [if_neg (by omega), if_pos rfl, if_pos (by omega), Nat.sub_self, List.getD_cons_zero]
  · rw [if_neg hfirst]
    by_cases hin : address + 1 ≤ a ∧ a < address + 1 + bytes.length
    · have hsub : a - address = a - (address + 1) + 1 := by omega
      rw [if_pos hin, if_pos (by omega), hsub, List.getD_cons_succ]
    · rw [if_neg hin, if_neg (by omega)]

/-- From these registers on `urldecode` does what it does on the characters, and reads no more than
these. -/
def Decodes (text : List UInt8) (rdi rsi : Nat) (t : Traced) : Prop :=
  ∃ decoded accesses, urldecode (text ++ [0]) = some decoded ∧
    Returns (fun fuel => rounds decodeRound fuel ⟨rdi, rsi, t⟩)
      ⟨storeBytes t.mem rsi decoded, accesses ++ t.accesses⟩ ∧
    ∀ a, .read a ∈ accesses → rdi ≤ a ∧ a ≤ rdi + text.length

/-- A round that reads some characters and writes one. -/
theorem Decodes.step {front text : List UInt8} {reads : List ByteAccess} {ch : UInt8} {rdi rsi : Nat}
    {t : Traced}
    (hdecode : urldecode (front ++ text ++ [0]) = (urldecode (text ++ [0])).map (ch :: ·))
    (hround : decodeRound ⟨rdi, rsi, t⟩ = some (.next ⟨rdi + front.length, rsi + 1,
      storeByte t.mem rsi ch, .write rsi :: (reads ++ t.accesses)⟩))
    (hreads : ∀ a, .read a ∈ reads → rdi ≤ a ∧ a < rdi + front.length)
    (h : Decodes text (rdi + front.length) (rsi + 1)
      ⟨storeByte t.mem rsi ch, .write rsi :: (reads ++ t.accesses)⟩) :
    Decodes (front ++ text) rdi rsi t := by
  obtain ⟨decoded, accesses, hrest, hrun, hmore⟩ := h
  refine ⟨ch :: decoded, accesses ++ .write rsi :: reads, ?_, ?_, fun a ha => ?_⟩
  · rw [hdecode, hrest]
    rfl
  · rw [← storeBytes_storeByte, List.append_assoc]
    exact returns_next hround hrun
  · rw [List.length_append]
    rcases List.mem_append.mp ha with ha | ha
    · have hrange := hmore a ha
      omega
    · have hmem : .read a ∈ reads := by simpa using ha
      have hrange := hreads a hmem
      omega

/-- What is written for a character that is no `%`. -/
def plain (c : UInt8) : UInt8 := if c = PLUS then SPACE else c

theorem urldecode_plain {c : UInt8} (hnul : c ≠ 0) (hne : c ≠ PERCENT) (queryString : List UInt8) :
    urldecode (c :: queryString) = (urldecode queryString).map (plain c :: ·) := by
  rw [urldecode.eq_def]
  dsimp only
  rw [if_neg hnul, if_neg hne, plain]
  by_cases hplus : c = PLUS
  · rw [if_pos hplus, if_pos hplus]
  · rw [if_neg hplus, if_neg hplus]

section

variable {rdi : Nat} {t : Traced}

theorem decodeRound_nul (h : t.mem rdi = 0) (rsi : Nat) :
    decodeRound ⟨rdi, rsi, t⟩ =
      some (.done ⟨storeByte t.mem rsi 0, .write rsi :: ([.read rdi] ++ t.accesses)⟩) := by
  unfold decodeRound
  dsimp only [Traced.load]
  rw [if_pos h]
  rfl

theorem decodeRound_plain (hnul : t.mem rdi ≠ 0) (hne : t.mem rdi ≠ PERCENT) (rsi : Nat) :
    decodeRound ⟨rdi, rsi, t⟩ = some (.next ⟨rdi + 1, rsi + 1,
      storeByte t.mem rsi (plain (t.mem rdi)), .write rsi :: ([.read rdi] ++ t.accesses)⟩) := by
  unfold decodeRound
  dsimp only [Traced.load]
  rw [if_neg hnul, if_neg hne, plain]
  by_cases hplus : t.mem rdi = PLUS
  · rw [if_pos hplus, if_pos hplus]
    rfl
  · rw [if_neg hplus, if_neg hplus]
    rfl

theorem decodeRound_percent (h : t.mem rdi = PERCENT) (rsi : Nat) :
    decodeRound ⟨rdi, rsi, t⟩ = some (.next ⟨rdi + 3, rsi + 1,
      storeByte t.mem rsi (percentEncoded (t.mem (rdi + 1)) (t.mem (rdi + 2))),
      .write rsi :: ([.read (rdi + 2), .read (rdi + 1), .read rdi] ++ t.accesses)⟩) := by
  unfold decodeRound
  dsimp only [Traced.load]
  rw [if_neg (by rw [h]; decide), if_neg (by rw [h]; decide), if_pos h]
  rfl

end

/-- **`urldecode` in memory**, with whole escapes. -/
theorem decodes_of_whole {text : List UInt8} (hwhole : WholeEscapes text) :
    ∀ {rdi rsi : Nat} {t : Traced}, TextAt t.mem rdi text →
      (rsi + text.length < rdi ∨ rdi + text.length < rsi) → Decodes text rdi rsi t := by
  induction hwhole with
  | nil =>
    intro rdi rsi t htext _
    refine ⟨[0], [.write rsi, .read rdi], rfl, ?_, fun a ha => ?_⟩
    · rw [← storeByte_eq_storeBytes]
      exact returns_done (decodeRound_nul htext.char rsi)
    · obtain rfl : a = rdi := by simpa using ha
      exact ⟨Nat.le_refl a, Nat.le_refl a⟩
  | @plain c text hne hwhole ih =>
    intro rdi rsi t htext hapart
    rw [List.length_cons] at hapart
    have hchar : t.mem rdi = c := htext.char
    have hround := decodeRound_plain (hchar ▸ htext.ne_zero) (hchar ▸ hne) rsi
    rw [hchar] at hround
    refine @Decodes.step [c] _ _ _ _ _ _ (urldecode_plain htext.ne_zero hne _) hround
      (fun a ha => ?_) ?_
    · obtain rfl : a = rdi := by simpa using ha
      exact ⟨Nat.le_refl a, Nat.lt_succ_self a⟩
    · exact ih (htext.tail.congr fun a hle hge => storeByte_of_ne (by omega) _)
        (by rw [List.length_singleton]; omega)
  | @escape first second text hwhole ih =>
    intro rdi rsi t htext hapart
    simp only [List.length_cons] at hapart
    have hround := decodeRound_percent htext.char rsi
    have hfirst : t.mem (rdi + 1) = first := htext.tail.char
    have hsecond : t.mem (rdi + 2) = second := htext.tail.tail.char
    have hlength : [PERCENT, first, second].length = 3 := rfl
    rw [hfirst, hsecond] at hround
    refine @Decodes.step [PERCENT, first, second] _ _ _ _ _ _ ?_ hround (fun a ha => ?_) ?_
    · show urldecode (PERCENT :: first :: second :: (text ++ [0])) = _
      rw [urldecode.eq_def]
      rfl
    · have ha : a = rdi + 2 ∨ a = rdi + 1 ∨ a = rdi := by simpa using ha
      omega
    · exact ih (htext.tail.tail.tail.congr fun a hle hge => storeByte_of_ne (by omega) _) (by omega)

/-- A round reads where it is, and does not take back what was read. -/
theorem decodeRound_overrun {last : Nat} (s : DecodeState) (turn : Turn DecodeState Traced)
    (h : last < s.rdi ∨ Overrun last s.traced) (hround : decodeRound s = some turn) :
    turn.Meets (fun s' => last < s'.rdi ∨ Overrun last s'.traced) (Overrun last) := by
  have hload : Overrun last (s.traced.load s.rdi).2 := by
    rcases h with hlt | h
    · exact overrun_load hlt s.traced
    · exact h.load s.rdi
  unfold decodeRound at hround
  dsimp only at hround
  split at hround
  · obtain rfl := Option.some.inj hround
    exact hload.store ..
  · split at hround
    · obtain rfl := Option.some.inj hround
      exact Or.inr (hload.store ..)
    · split at hround
      · obtain rfl := Option.some.inj hround
        exact Or.inr (((hload.load _).load _).store ..)
      · obtain rfl := Option.some.inj hround
        exact Or.inr (hload.store ..)

/-- **An escape that is cut off** makes `urldecode` read behind the string. -/
theorem decode_overruns {n : Nat} :
    ∀ {text : List UInt8} {rdi rsi : Nat} {t : Traced}, text.length ≤ n → TextAt t.mem rdi text →
      (rsi + text.length < rdi ∨ rdi + text.length < rsi) → ¬ WholeEscapes text →
      ∀ {fuel : Nat} {result : Traced}, rounds decodeRound fuel ⟨rdi, rsi, t⟩ = some result →
        Overrun (rdi + text.length) result := by
  induction n with
  | zero =>
    intro text rdi rsi t hlength _ _ hwhole
    obtain rfl := List.length_eq_zero_iff.mp (Nat.le_zero.mp hlength)
    exact absurd .nil hwhole
  | succ n ih =>
    intro text rdi rsi t hlength htext hapart hwhole fuel result hrun
    cases text with
    | nil => exact absurd .nil hwhole
    | cons c text =>
      simp only [List.length_cons] at hlength hapart ⊢
      have hchar : t.mem rdi = c := htext.char
      cases fuel with
      | zero => cases hrun
      | succ fuel =>
        by_cases hpercent : c = PERCENT
        · subst hpercent
          rw [rounds_next (decodeRound_percent hchar rsi)] at hrun
          match text with
          | [] =>
            -- the second character is behind the `NUL`
            exact rounds_post decodeRound_overrun fuel
              (Or.inr ⟨rdi + 2, by simp, Nat.lt_succ_self _⟩) hrun
          | [first] =>
            -- so is the character to go on with
            exact rounds_post decodeRound_overrun fuel (Or.inl (Nat.lt_succ_self _)) hrun
          | first :: second :: text =>
            simp only [List.length_cons] at hlength hapart ⊢
            have hrest : ¬ WholeEscapes text := fun h => hwhole (.escape h)
            have hover := ih (by omega)
              (htext.tail.tail.tail.congr fun a hle hge => storeByte_of_ne (by omega) _) (by omega)
              hrest hrun
            have hlast : rdi + 3 + text.length = rdi + (text.length + 1 + 1 + 1) := by omega
            rwa [hlast] at hover
        · have hnul : t.mem rdi ≠ 0 := by
            rw [hchar]
            exact htext.ne_zero
          rw [rounds_next (decodeRound_plain hnul (by rwa [hchar]) rsi)] at hrun
          have hrest : ¬ WholeEscapes text := fun h => hwhole (.plain hpercent h)
          have hover := ih (by omega)
            (htext.tail.congr fun a hle hge => storeByte_of_ne (by omega) _) (by omega) hrest hrun
          have hlast : rdi + 1 + text.length = rdi + (text.length + 1) := by omega
          rwa [hlast] at hover

/-! ## `mapQueryString` -/

/-- Where `mapQueryString` is behind a character. -/
def labelAfter : MapLabel → UInt8 → MapLabel
  | .findName, c => if c = EQUALS then .findValue else .findName
  | .findValue, c => if c = AMPERSAND then .findName else .findValue

/-- A character of the string is passed over, or replaced. -/
theorem mapRound_step {s : MapRegisters} {c : UInt8} {text : List UInt8}
    (htext : TextAt s.traced.mem s.rsi (c :: text)) (hchar : s.r8b = c) :
    ∃ s' accesses, mapRound s = some (.next s') ∧ s'.label = labelAfter s.label c ∧
      s'.rsi = s.rsi + 1 ∧ TextAt s'.traced.mem (s.rsi + 1) text ∧ s'.r8b = text.headD 0 ∧
      s'.traced.accesses = accesses ++ s.traced.accesses ∧
      ∀ access ∈ accesses, InString s.rsi (text.length + 1) access := by
  have hnul : s.r8b ≠ 0 := hchar ▸ htext.ne_zero
  have hstored : TextAt (storeByte s.traced.mem s.rsi 0) (s.rsi + 1) text :=
    htext.tail.congr fun a hle _ => storeByte_of_ne (by omega) 0
  have hread : InString s.rsi (text.length + 1) (.read (s.rsi + 1)) := ⟨by omega, by omega⟩
  have hwrite : InString s.rsi (text.length + 1) (.write s.rsi) := ⟨by omega, by omega⟩
  have hnext : ∀ access ∈ [ByteAccess.read (s.rsi + 1)], InString s.rsi (text.length + 1) access :=
    fun access h => by rwa [List.mem_singleton.mp h]
  have hfound : ∀ access ∈ [ByteAccess.read (s.rsi + 1), .write s.rsi],
      InString s.rsi (text.length + 1) access :=
    List.forall_mem_cons.mpr ⟨hread, fun access h => by rwa [List.mem_singleton.mp h]⟩
  obtain ⟨label, rsi, r8b, edx, stack, traced⟩ := s
  dsimp only at hchar hnul
  subst hchar
  cases label with
  | findName =>
    by_cases heq : r8b = EQUALS
    · exact ⟨_, _, if_pos heq, (if_pos heq).symm, rfl, hstored, hstored.char, rfl, hfound⟩
    · exact ⟨_, _, if_neg heq, (if_neg heq).symm, rfl, htext.tail, htext.tail.char, rfl, hnext⟩
  | findValue =>
    by_cases hamp : r8b = AMPERSAND
    · exact ⟨_, _, if_pos hamp, (if_pos hamp).symm, rfl, hstored, hstored.char, rfl, hfound⟩
    · exact ⟨_, _, (if_neg hamp).trans (if_neg hnul), (if_neg hamp).symm, rfl, htext.tail,
        htext.tail.char, rfl, hnext⟩

/-- **A string that ends in a value** is all that is accessed. -/
theorem mapRound_returns {text : List UInt8} :
    ∀ {s : MapRegisters}, TextAt s.traced.mem s.rsi text → s.r8b = text.headD 0 →
      text.foldl labelAfter s.label = .findValue →
      ∃ result accesses, Returns (fun fuel => rounds mapRound fuel s) result ∧
        result.traced.accesses = accesses ++ s.traced.accesses ∧
        ∀ access ∈ accesses, InString s.rsi text.length access := by
  induction text with
  | nil =>
    rintro ⟨label, rsi, r8b, edx, stack, traced⟩ _ hchar hend
    obtain rfl : label = .findValue := hend
    obtain rfl : r8b = 0 := hchar
    exact ⟨_, [], returns_done rfl, rfl, fun _ h => absurd h List.not_mem_nil⟩
  | cons c text ih =>
    intro s htext hchar hend
    obtain ⟨s', accesses, hround, hlabel, hrsi, htext', hchar', haccesses, hin⟩ :=
      mapRound_step htext hchar
    rw [List.foldl_cons, ← hlabel] at hend
    rw [← hrsi] at htext'
    obtain ⟨result, more, hrun, hmore, hin'⟩ := ih htext' hchar' hend
    refine ⟨result, more ++ accesses, returns_next hround hrun, ?_, fun access h => ?_⟩
    · rw [hmore, haccesses, List.append_assoc]
    · rw [List.length_cons]
      rcases List.mem_append.mp h with h | h
      · have haccess := hin' access h
        rw [hrsi] at haccess
        cases access <;> · unfold InString at haccess ⊢; omega
      · exact hin access h

/-- A round does not take back what was read. -/
theorem mapRound_overrun {last : Nat} (s : MapRegisters) (turn : Turn MapRegisters MapRegisters)
    (h : Overrun last s.traced) (hround : mapRound s = some turn) :
    turn.Meets (fun s' => Overrun last s'.traced) (fun result => Overrun last result.traced) := by
  obtain ⟨label, rsi, r8b, edx, stack, traced⟩ := s
  cases label with
  | findName =>
    by_cases heq : r8b = EQUALS
    · obtain rfl := Option.some.inj ((if_pos heq).symm.trans hround)
      exact (h.store rsi 0).load (rsi + 1)
    · obtain rfl := Option.some.inj ((if_neg heq).symm.trans hround)
      exact h.load (rsi + 1)
  | findValue =>
    by_cases hamp : r8b = AMPERSAND
    · obtain rfl := Option.some.inj ((if_pos hamp).symm.trans hround)
      exact (h.store rsi 0).load (rsi + 1)
    · by_cases hnul : r8b = 0
      · obtain rfl := Option.some.inj (((if_neg hamp).trans (if_pos hnul)).symm.trans hround)
        exact h
      · obtain rfl := Option.some.inj (((if_neg hamp).trans (if_neg hnul)).symm.trans hround)
        exact h.load (rsi + 1)

/-- **A string that ends in a name** is not all that is read. -/
theorem map_overruns {text : List UInt8} :
    ∀ {s : MapRegisters}, TextAt s.traced.mem s.rsi text → s.r8b = text.headD 0 →
      text.foldl labelAfter s.label = .findName →
      ∀ {fuel : Nat} {result : MapRegisters}, rounds mapRound fuel s = some result →
        Overrun (s.rsi + text.length) result.traced := by
  induction text with
  | nil =>
    intro s _ hchar hend fuel result hrun
    have hlabel : s.label = .findName := hend
    rw [List.headD_nil] at hchar
    cases fuel with
    | zero => cases hrun
    | succ fuel =>
      have hround : mapRound s = some (.next s.next) := by
        rw [mapRound, hlabel]
        exact if_neg (by rw [hchar]; decide)
      rw [rounds_next hround] at hrun
      exact rounds_post mapRound_overrun fuel (overrun_load (Nat.lt_succ_self _) s.traced) hrun
  | cons c text ih =>
    intro s htext hchar hend fuel result hrun
    obtain ⟨s', _, hround, hlabel, hrsi, htext', hchar', _, _⟩ := mapRound_step htext hchar
    rw [List.foldl_cons, ← hlabel] at hend
    rw [← hrsi] at htext'
    cases fuel with
    | zero => cases hrun
    | succ fuel =>
      rw [rounds_next hround] at hrun
      have hover := ih htext' hchar' hend hrun
      rw [hrsi, Nat.add_assoc, Nat.add_comm 1] at hover
      rwa [List.length_cons]

/-! ## Names and values -/

/-- No name has a `=`, and no value a `&`. -/
def Separable (fields : List Field) : Prop :=
  ∀ field ∈ fields, EQUALS ∉ field.1 ∧ AMPERSAND ∉ field.2

/-- What is behind the value of a field. -/
def behindValue : List Field → List UInt8
  | [] => []
  | fields => AMPERSAND :: joinFields EQUALS AMPERSAND fields

theorem joinFields_behindValue (field : Field) (fields : List Field) :
    joinFields EQUALS AMPERSAND (field :: fields) =
      field.1 ++ EQUALS :: (field.2 ++ behindValue fields) := by
  cases fields with
  | nil => rw [joinFields_singleton, behindValue, List.append_nil]
  | cons next fields =>
    rw [joinFields_cons _ _ _ (List.cons_ne_nil _ _), List.append_assoc]
    rfl

theorem foldl_name {name : List UInt8} (h : EQUALS ∉ name) :
    name.foldl labelAfter .findName = .findName := by
  induction name with
  | nil => rfl
  | cons c name ih =>
    rw [List.mem_cons, not_or] at h
    rw [List.foldl_cons, labelAfter, if_neg (Ne.symm h.1)]
    exact ih h.2

theorem foldl_value {value : List UInt8} (h : AMPERSAND ∉ value) :
    value.foldl labelAfter .findValue = .findValue := by
  induction value with
  | nil => rfl
  | cons c value ih =>
    rw [List.mem_cons, not_or] at h
    rw [List.foldl_cons, labelAfter, if_neg (Ne.symm h.1)]
    exact ih h.2

theorem foldl_joinFields {fields : List Field} (hne : fields ≠ []) (h : Separable fields) :
    (joinFields EQUALS AMPERSAND fields).foldl labelAfter .findName = .findValue := by
  induction fields with
  | nil => exact absurd rfl hne
  | cons field fields ih =>
    obtain ⟨hfield, hrest⟩ := List.forall_mem_cons.mp h
    rw [joinFields_behindValue, List.foldl_append, foldl_name hfield.1, List.foldl_cons, labelAfter,
      if_pos rfl, List.foldl_append, foldl_value hfield.2]
    cases fields with
    | nil => rfl
    | cons next fields => exact ih (List.cons_ne_nil _ _) hrest

/-- What `mapQueryString` has passed over when it is looking for the end of a value. -/
theorem fields_of_foldl {text : List UInt8} :
    (text.foldl labelAfter .findName = .findValue →
      ∃ field fields, Separable (field :: fields) ∧
        text = joinFields EQUALS AMPERSAND (field :: fields)) ∧
    (text.foldl labelAfter .findValue = .findValue →
      ∃ value fields, AMPERSAND ∉ value ∧ Separable fields ∧ text = value ++ behindValue fields) := by
  induction text with
  | nil =>
    refine ⟨fun h => (nomatch h), fun _ => ⟨[], [], List.not_mem_nil, ?_, rfl⟩⟩
    exact fun _ h => absurd h List.not_mem_nil
  | cons c text ih =>
    obtain ⟨ihname, ihvalue⟩ := ih
    constructor
    · intro h
      rw [List.foldl_cons, labelAfter] at h
      by_cases heq : c = EQUALS
      · rw [if_pos heq] at h
        obtain ⟨value, fields, hvalue, hfields, rfl⟩ := ihvalue h
        refine ⟨([], value), fields, List.forall_mem_cons.mpr ⟨⟨List.not_mem_nil, hvalue⟩, hfields⟩, ?_⟩
        rw [joinFields_behindValue, heq]
        rfl
      · rw [if_neg heq] at h
        obtain ⟨field, fields, hsep, rfl⟩ := ihname h
        obtain ⟨hfield, hfields⟩ := List.forall_mem_cons.mp hsep
        have hname : EQUALS ∉ c :: field.1 :=
          fun hmem => (List.mem_cons.mp hmem).elim (fun h => heq h.symm) hfield.1
        refine ⟨(c :: field.1, field.2), fields,
          List.forall_mem_cons.mpr ⟨⟨hname, hfield.2⟩, hfields⟩, ?_⟩
        rw [joinFields_behindValue, joinFields_behindValue]
        rfl
    · intro h
      rw [List.foldl_cons, labelAfter] at h
      by_cases hamp : c = AMPERSAND
      · rw [if_pos hamp] at h
        obtain ⟨field, fields, hsep, rfl⟩ := ihname h
        exact ⟨[], field :: fields, List.not_mem_nil, hsep, by rw [hamp]; rfl⟩
      · rw [if_neg hamp] at h
        obtain ⟨value, fields, hvalue, hfields, rfl⟩ := ihvalue h
        have hvalue' : AMPERSAND ∉ c :: value :=
          fun hmem => (List.mem_cons.mp hmem).elim (fun h => hamp h.symm) hvalue
        exact ⟨c :: value, fields, hvalue', hfields, rfl⟩

/-- **`mapQueryString` ends behind a value** exactly when the string is a row of fields. -/
theorem foldl_eq_findValue_iff {text : List UInt8} :
    text.foldl labelAfter .findName = .findValue ↔
      ∃ fields, fields ≠ [] ∧ Separable fields ∧ text = joinFields EQUALS AMPERSAND fields := by
  constructor
  · intro h
    obtain ⟨field, fields, hsep, htext⟩ := fields_of_foldl.1 h
    exact ⟨field :: fields, List.cons_ne_nil _ _, hsep, htext⟩
  · rintro ⟨fields, hne, hsep, rfl⟩
    exact foldl_joinFields hne hsep

/-! ## Both -/

section

variable {mem : Mem} {p buffer : Nat} {text : List UInt8}

theorem urldecode_scanned_iff (htext : TextAt mem p text)
    (hapart : buffer + text.length < p ∨ p + text.length < buffer) :
    (∃ traced, Returns (fun fuel => urldecodeIn fuel mem p buffer) traced ∧
      ReadsString p text.length traced) ↔ WholeEscapes text := by
  constructor
  · rintro ⟨traced, ⟨enough, hrun⟩, hreads⟩
    by_contra hwhole
    have hover := decode_overruns (t := ⟨mem, []⟩) (Nat.le_refl _) htext hapart hwhole
      (hrun enough (Nat.le_refl _))
    exact hover.not_reads hreads
  · intro hwhole
    obtain ⟨decoded, accesses, _, hrun, hreads⟩ :=
      decodes_of_whole (t := ⟨mem, []⟩) hwhole htext hapart
    refine ⟨_, hrun, fun a ha => hreads a ?_⟩
    rwa [List.append_nil] at ha

theorem mapQueryString_scanned_iff (hp : p ≠ 0) (htext : TextAt mem p text) :
    (∃ s, Returns (fun fuel => mapQueryStringIn fuel mem p) (some s) ∧
      ReadsString p text.length s.traced ∧ WritesString p text.length s.traced) ↔
      ∃ fields, fields ≠ [] ∧ Separable fields ∧ text = joinFields EQUALS AMPERSAND fields := by
  rw [← foldl_eq_findValue_iff]
  have hstart (fuel : Nat) : mapQueryStringIn fuel mem p =
      (rounds mapRound fuel ⟨.findName, p, mem p, 0, [p], mem, [.read p]⟩).map some := if_neg hp
  simp only [hstart]
  constructor
  · rintro ⟨s, ⟨enough, hrun⟩, hreads, _⟩
    cases hend : text.foldl labelAfter .findName with
    | findValue => rfl
    | findName =>
      obtain ⟨s', hrun', hs⟩ := Option.map_eq_some_iff.mp (hrun enough (Nat.le_refl _))
      obtain rfl := Option.some.inj hs
      have hover := map_overruns (s := ⟨.findName, p, mem p, 0, [p], mem, [.read p]⟩) htext
        htext.char hend hrun'
      exact absurd hreads hover.not_reads
  · intro hend
    obtain ⟨s, accesses, hrun, haccesses, hin⟩ :=
      mapRound_returns (s := ⟨.findName, p, mem p, 0, [p], mem, [.read p]⟩) htext htext.char hend
    refine ⟨s, hrun.map some, fun a ha => ?_, fun a ha => ?_⟩
    · rw [haccesses] at ha
      rcases List.mem_append.mp ha with ha | ha
      · exact hin _ ha
      · obtain rfl : a = p := by simpa using ha
        omega
    · rw [haccesses] at ha
      rcases List.mem_append.mp ha with ha | ha
      · exact hin _ ha
      · exact absurd ha (by simp)

/-- **`urldecode` reads no byte behind the string exactly when every escape is whole, and
`mapQueryString` neither reads behind it nor writes outside of it exactly when the string is a row of
fields**, each with a `=`. -/
theorem query_scanned_iff (hp : p ≠ 0) (htext : TextAt mem p text)
    (hapart : buffer + text.length < p ∨ p + text.length < buffer) :
    ((∃ traced, Returns (fun fuel => urldecodeIn fuel mem p buffer) traced ∧
        ReadsString p text.length traced) ↔ WholeEscapes text) ∧
      ((∃ s, Returns (fun fuel => mapQueryStringIn fuel mem p) (some s) ∧
          ReadsString p text.length s.traced ∧ WritesString p text.length s.traced) ↔
        ∃ fields, fields ≠ [] ∧ Separable fields ∧ text = joinFields EQUALS AMPERSAND fields) :=
  ⟨urldecode_scanned_iff htext hapart, mapQueryString_scanned_iff hp htext⟩

end

/-- `"a=b"`. -/
theorem query_scanned_iff_oneField :
    ((∃ traced, Returns (fun fuel => urldecodeIn fuel
          (storeBytes (fun _ => 0) 1 [0x61, 0x3D, 0x62]) 1 0x10) traced ∧
        ReadsString 1 3 traced) ↔ WholeEscapes [0x61, 0x3D, 0x62]) ∧
      ((∃ s, Returns (fun fuel => mapQueryStringIn fuel
            (storeBytes (fun _ => 0) 1 [0x61, 0x3D, 0x62]) 1) (some s) ∧
          ReadsString 1 3 s.traced ∧ WritesString 1 3 s.traced) ↔
        ∃ fields, fields ≠ [] ∧ Separable fields ∧
          [0x61, 0x3D, 0x62] = joinFields EQUALS AMPERSAND fields) :=
  @query_scanned_iff _ 1 0x10 [0x61, 0x3D, 0x62] (by decide) ⟨by decide, by decide⟩ (by decide)

/-- `"%"` is an escape that is cut off, and has no `=`. -/
theorem query_overruns :
    TextAt (storeBytes (fun _ => 0) 1 [PERCENT]) 1 [PERCENT] ∧
      (¬ ∃ traced, Returns (fun fuel => urldecodeIn fuel (storeBytes (fun _ => 0) 1 [PERCENT]) 1 0x10)
          traced ∧ ReadsString 1 1 traced) ∧
      ¬ ∃ s, Returns (fun fuel => mapQueryStringIn fuel (storeBytes (fun _ => 0) 1 [PERCENT]) 1)
          (some s) ∧ ReadsString 1 1 s.traced ∧ WritesString 1 1 s.traced := by
  have htext : TextAt (storeBytes (fun _ => 0) 1 [PERCENT]) 1 [PERCENT] := ⟨by decide, by decide⟩
  refine ⟨htext, fun hsafe => ?_, fun hsafe => ?_⟩
  · have hwhole := (urldecode_scanned_iff htext (by decide)).mp hsafe
    cases hwhole with
    | plain hne _ => exact hne rfl
  · have hend := foldl_eq_findValue_iff.mpr ((mapQueryString_scanned_iff (by decide) htext).mp hsafe)
    cases hend

end DevopsBroker.Cgi
