import DevopsBroker.Net.IPv4StringSpec
import DevopsBroker.Net.IPv6AddressSpec

/-!
# Which addresses `extractString` writes in the canonical form

`Canonical` is the text that the header of the source file describes, and `ReadsAs` says what a
text stands for. `extractString` is right where no group is zero, and where all zero groups are
next to each other, more than one of them, and behind some other group. When nothing follows
them, it needs a suffix to write: it takes the `::` for something behind it.
**`extractString_iff`**: everywhere else the text is another one, or there is none.

What `calculateShorthandBytemask` does depends on which groups are zero and on nothing else, so
that there are 256 cases. `.outerLoop` is left after eight rounds at most, or never.
-/

namespace DevopsBroker.Net

open DevopsBroker.Lib

namespace IPv6

/-! ## Zero groups -/

/-- A one for every number that is not zero. -/
def marksOf (groups : List Nat) : List Nat := groups.map (min 1)

/-- The bits of a number. -/
def bitsOf : Nat → Nat → List Nat
  | 0, _ => []
  | k + 1, n => n % 2 :: bitsOf k (n / 2)

theorem exists_bitsOf (groups : List Nat) :
    ∃ n < 2 ^ groups.length, marksOf groups = bitsOf groups.length n := by
  induction groups with
  | nil => exact ⟨0, Nat.one_pos, rfl⟩
  | cons group groups ih =>
    obtain ⟨n, hn, hmarks⟩ := ih
    have hbit : min 1 group < 2 := by omega
    have hlow : (min 1 group + 2 * n) % 2 = min 1 group := by omega
    have hhigh : (min 1 group + 2 * n) / 2 = n := by omega
    refine ⟨min 1 group + 2 * n, ?_, ?_⟩
    · rw [List.length_cons, Nat.pow_succ]
      omega
    · rw [List.length_cons, bitsOf, hlow, hhigh, ← hmarks]
      rfl

/-- What holds of 256 patterns holds of the marks of every address. -/
theorem forall_marks {P : List Nat → Prop} (h : ∀ n < 256, P (bitsOf 8 n)) {groups : List Nat}
    (hlength : groups.length = 8) : P (marksOf groups) := by
  obtain ⟨n, hn, hmarks⟩ := exists_bitsOf groups
  rw [hlength] at hn hmarks
  rw [hmarks]
  exact h n hn

/-! ## The mask -/

theorem hextetBits_marksOf (words : List Nat) :
    ∀ rcx r11, hextetBits (marksOf words) rcx r11 = hextetBits words rcx r11 := by
  induction words with
  | nil => exact fun _ _ => rfl
  | cons word words ih =>
    intro rcx r11
    have hzero : min 1 word = 0 ↔ word = 0 := by omega
    show hextetBits (min 1 word :: marksOf words) rcx r11 = _
    simp only [hextetBits, ih, hzero]

/-- `.outerLoop` is entered with this. -/
def startState (r11 : Nat) : MaskState := { r8 := r11, dh := 0, dl := 0, cl := 0, al := 6 }

/-- So many times around `.outerLoop`. -/
def rounds : Nat → MaskState → MaskState ⊕ (Nat × Nat)
  | 0, st => .inl st
  | n + 1, st =>
    match outerStep st with
    | .inl st => rounds n st
    | .inr best => .inr best

theorem outerLoop_of_rounds {n : Nat} :
    ∀ {st : MaskState} {best : Nat × Nat}, rounds n st = .inr best → outerLoop n st = some best := by
  induction n with
  | zero => intro st best h; cases h
  | succ n ih =>
    intro st best h
    rw [rounds] at h
    rw [outerLoop]
    cases hstep : outerStep st with
    | inl st' => rw [hstep] at h; exact ih h
    | inr best' => rw [hstep] at h; cases h; rfl

/-- A run that ends has so many rounds behind it, or ends before. -/
theorem rounds_of_outerLoop {n : Nat} :
    ∀ {fuel : Nat} {st : MaskState} {best : Nat × Nat}, outerLoop fuel st = some best →
      rounds n st = .inr best ∨
        ∃ st' fuel', rounds n st = .inl st' ∧ outerLoop fuel' st' = some best := by
  induction n with
  | zero => exact fun {fuel st _} h => Or.inr ⟨st, fuel, rfl, h⟩
  | succ n ih =>
    intro fuel st best h
    cases fuel with
    | zero => cases h
    | succ fuel =>
      rw [outerLoop] at h
      rw [rounds]
      cases hstep : outerStep st with
      | inl st' => rw [hstep] at h; exact ih h
      | inr best' => rw [hstep] at h; cases h; exact Or.inl rfl

/-- The last two groups are zero, and the current length is not better than the best. -/
def Stuck (st : MaskState) : Prop := st.al = 0 ∧ st.r8 % 2 ^ 16 = 0 ∧ 2 ≤ st.dh

instance (st : MaskState) : Decidable (Stuck st) := inferInstanceAs (Decidable (_ ∧ _))

/-- **`.adjustCurrentIndex` jumps back without getting on.** -/
theorem outerLoop_stuck {fuel : Nat} : ∀ {st : MaskState}, Stuck st → outerLoop fuel st = none := by
  induction fuel with
  | zero => exact fun _ => rfl
  | succ fuel ih =>
    intro st ⟨hal, hr8, hdh⟩
    have hstep : outerStep st = .inl { st with cl := (st.cl + 2) % 256, al := 0 } := by
      unfold outerStep
      rw [if_pos hr8, hal]
      dsimp only [innerLoop]
      rw [if_pos hdh]
    rw [outerLoop, hstep]
    exact ih ⟨rfl, hr8, hdh⟩

/-- After eight rounds it is left, or it never will be. -/
def Settles (marks : List Nat) : Bool :=
  Sum.elim (fun st => decide (Stuck st)) (fun _ => true)
    (rounds 8 (startState (hextetBits marks 1 0)))

theorem settles_bitsOf : ∀ n < 256, Settles (bitsOf 8 n) := by
  decide +kernel

/-- **The mask is the one of the marks, and eight rounds are enough for it.** -/
theorem calculateShorthandBytemask_eq {fuel : Nat} {words : List Nat} {r11 : Nat}
    (hlength : words.length = 8) (h : calculateShorthandBytemask fuel words = some r11) :
    calculateShorthandBytemask 8 (marksOf words) = some r11 := by
  unfold calculateShorthandBytemask at h ⊢
  rw [← hextetBits_marksOf] at h
  simp only [] at h ⊢
  split
  next hones =>
    rw [if_pos hones] at h
    exact h
  next hones =>
    rw [if_neg hones] at h
    obtain ⟨best, hbest, h⟩ := Option.bind_eq_some_iff.mp h
    refine Option.bind_eq_some_iff.mpr ⟨best, outerLoop_of_rounds ?_, h⟩
    refine (@rounds_of_outerLoop 8 _ _ _ hbest).resolve_right ?_
    rintro ⟨st', fuel', hrounds, hrun⟩
    have hsettled := @forall_marks (Settles ·) settles_bitsOf words hlength
    rw [Settles, startState, hrounds] at hsettled
    rw [outerLoop_stuck (of_decide_eq_true hsettled)] at hrun
    cases hrun

theorem calculateShorthandBytemask_marksOf (fuel : Nat) (words : List Nat) :
    calculateShorthandBytemask fuel (marksOf words) = calculateShorthandBytemask fuel words := by
  unfold calculateShorthandBytemask
  rw [hextetBits_marksOf]

/-! ## Characters -/

/-- The number in a word, in network byte order. -/
def groupOf (word : Nat) : Nat := word % 256 * 256 + word / 256

theorem groupOf_lt {word : Nat} (h : word < 65536) : groupOf word < 65536 := by
  unfold groupOf
  omega

theorem groupOf_eq_zero {word : Nat} : groupOf word = 0 ↔ word = 0 := by
  unfold groupOf
  omega

/-- The characters of a word that are written: none for zero. -/
def strippedDigits (word : Nat) : List UInt8 := (paddedDigits 4 (groupOf word)).dropWhile (· = ZERO)

theorem strippedDigits_eq {word : Nat} (h : word < 65536) :
    strippedDigits word = if word = 0 then [] else hexNumeral (groupOf word) := by
  unfold strippedDigits
  split
  next hzero =>
    rw [hzero]
    exact dropWhile_paddedDigits_zero 4
  next hne => exact dropWhile_paddedDigits (groupOf_lt h) (mt groupOf_eq_zero.mp hne)

theorem strippedDigits_length_le (word : Nat) : (strippedDigits word).length ≤ 4 :=
  Nat.le_trans (List.dropWhile_suffix _).length_le (Nat.le_of_eq (length_paddedDigits ..))

theorem nibbleChar_eq : ∀ n < 16, nibbleChar n = (hexDigitOf n).toNat := by
  decide +kernel

/-- **The words that the SSE2 instructions make hold the digits**, and a colon behind them. -/
theorem hextetCharacters_or {word : Nat} (h : word < 65536) :
    hextetCharacters word ||| 0x3A00000000 =
      littleEndian (paddedDigits 4 (groupOf word) ++ [COLON]) := by
  have hdigits : paddedDigits 4 (groupOf word) =
      [hexDigitOf (word / 16 % 16), hexDigitOf (word % 16), hexDigitOf (word / 4096),
        hexDigitOf (word / 256 % 16)] := by
    have hgroup : groupOf word = word / 16 % 16 * 4096 + word % 16 * 256 + word / 4096 * 16 +
        word / 256 % 16 := by
      unfold groupOf
      omega
    have hfourth : groupOf word % 16 = word / 256 % 16 := by omega
    have hthird : groupOf word / 16 % 16 = word / 4096 := by omega
    have hsecond : groupOf word / 16 / 16 % 16 = word % 16 := by omega
    have hfirst : groupOf word / 16 / 16 / 16 % 16 = word / 16 % 16 := by omega
    rw [← hfirst, ← hsecond, ← hthird, ← hfourth]
    rfl
  have hchars : hextetCharacters word = littleEndian (paddedDigits 4 (groupOf word)) := by
    rw [hdigits]
    simp only [hextetCharacters, nibbleChar_eq _ (Nat.mod_lt _ (by omega : 0 < 16)),
      nibbleChar_eq (word / 4096) (by omega), littleEndian_cons, littleEndian_nil]
    omega
  have hlt := littleEndian_lt (paddedDigits 4 (groupOf word))
  rw [length_paddedDigits] at hlt
  have hcolon : 0x3A00000000 = 2 ^ 32 * 0x3A := by decide
  rw [hchars, hcolon, Nat.or_comm, ← Nat.two_pow_add_eq_or_of_lt (i := 32) hlt, hdigits]
  have hbyte : COLON.toNat = 0x3A := rfl
  simp only [List.cons_append, List.nil_append, littleEndian_cons, littleEndian_nil, hbyte]
  omega

/-- `.LWHILE0` drops the zeros in front. -/
theorem stripZeros_littleEndian (chars : List UInt8) :
    stripZeros chars.length (littleEndian chars) =
      (littleEndian (chars.dropWhile (· = ZERO)), (chars.dropWhile (· = ZERO)).length) := by
  induction chars with
  | nil => rfl
  | cons c chars ih =>
    rw [List.length_cons, stripZeros, lowByte_littleEndian, littleEndian_shift, List.headD_cons,
      List.tail_cons, List.dropWhile_cons, ih]
    by_cases hc : c = ZERO <;> simp [hc]

theorem stripZeros_hextet {word : Nat} (h : word < 65536) :
    stripZeros 5 (hextetCharacters word ||| 0x3A00000000) =
      (littleEndian (strippedDigits word ++ [COLON]), (strippedDigits word).length + 1) := by
  have hlength : (paddedDigits 4 (groupOf word) ++ [COLON]).length = 5 := by
    rw [List.length_append, length_paddedDigits]
    rfl
  have hdrop : (paddedDigits 4 (groupOf word) ++ [COLON]).dropWhile (· = ZERO) =
      strippedDigits word ++ [COLON] := by
    rw [List.dropWhile_append]
    unfold strippedDigits
    split
    next hnil => rw [List.isEmpty_iff.mp hnil]; rfl
    next _ => rfl
  have hstrip := stripZeros_littleEndian (paddedDigits 4 (groupOf word) ++ [COLON])
  rw [hlength, hdrop] at hstrip
  rw [hextetCharacters_or h, hstrip, List.length_append, List.length_singleton]

/-! ## What is written -/

/-- What is written for a hextet, with its digits and its mask. -/
def pieceOf (ah : Nat) (digits : List UInt8) (bytemask : UInt8) : List UInt8 :=
  if bytemask = 0x01 then digits ++ [COLON]
  else if bytemask = 0xff then if ah ≠ 0 then [] else [COLON]
  else [0, COLON]

/-- `isShorthand` behind it. -/
def nextShorthand (ah : Nat) (bytemask : UInt8) : Nat :=
  if bytemask = 0x01 then 0 else if bytemask = 0xff then if ah ≠ 0 then ah else ah + 1 else ah

/-- What is written for all hextets. -/
def writtenText : Nat → List (List UInt8 × UInt8) → List UInt8
  | _, [] => []
  | ah, (digits, bytemask) :: hextets =>
    pieceOf ah digits bytemask ++ writtenText (nextShorthand ah bytemask) hextets

/-- The first hextet is never left out. -/
theorem writtenText_ne_nil {hextets : List (List UInt8 × UInt8)} (h : hextets ≠ []) :
    writtenText 0 hextets ≠ [] := by
  obtain ⟨⟨digits, bytemask⟩, hextets, rfl⟩ := List.exists_cons_of_ne_nil h
  have hpiece : pieceOf 0 digits bytemask ≠ [] := by
    unfold pieceOf
    split
    next _ => exact List.append_ne_nil_of_right_ne_nil _ (List.cons_ne_nil _ _)
    next _ => split <;> exact List.cons_ne_nil _ _
  exact List.append_ne_nil_of_left_ne_nil hpiece _

/-- The text that is in the buffer so far. -/
structure Writing (st : HextetState) (buffer : Nat) (text : List UInt8) : Prop where
  bytes : bytesAt st.mem buffer text.length = text
  rsi : st.rsi = buffer + text.length

/-- A store that adds to the text, and what else it stores. -/
theorem Writing.store {st : HextetState} {buffer : Nat} {text : List UInt8}
    (h : Writing st buffer text) (more surplus : List UInt8) (ah : Nat) :
    Writing
      { mem := storeBytes st.mem st.rsi (more ++ surplus), rsi := st.rsi + more.length, ah := ah }
      buffer (text ++ more) where
  bytes := by
    rw [h.rsi]
    exact bytesAt_storeBytes h.bytes
  rsi := by rw [h.rsi, List.length_append, Nat.add_assoc]

theorem charsOf_colon : charsOf 4 0x3A = [COLON] ++ [0, 0, 0] := by decide

theorem charsOf_nulColon : charsOf 4 0x3A00 = [0, COLON] ++ [0, 0] := by decide

/-- **One hextet.** -/
theorem processHextet_writing {st : HextetState} {buffer : Nat} {text : List UInt8} {word : Nat}
    (hword : word < 65536) (bytemask : UInt8) (h : Writing st buffer text) :
    Writing (processHextet st word bytemask) buffer
        (text ++ pieceOf st.ah (strippedDigits word) bytemask) ∧
      (processHextet st word bytemask).ah = nextShorthand st.ah bytemask := by
  unfold processHextet pieceOf nextShorthand
  split
  next _ =>
    have hle := strippedDigits_length_le word
    have hstore := h.store (strippedDigits word ++ [COLON])
      (List.replicate (8 - (strippedDigits word ++ [COLON]).length) 0) 0
    rw [← charsOf_littleEndian_of_le (by rw [List.length_append, List.length_singleton]; omega),
      List.length_append, List.length_singleton] at hstore
    rw [stripZeros_hextet hword]
    exact ⟨hstore, rfl⟩
  next _ =>
    split
    next _ =>
      split
      next _ => exact ⟨by rw [List.append_nil]; exact h, rfl⟩
      next _ =>
        rw [charsOf_colon]
        exact ⟨h.store [COLON] [0, 0, 0] (st.ah + 1), rfl⟩
    next _ =>
      rw [charsOf_nulColon]
      exact ⟨h.store [0, COLON] [0, 0] st.ah, rfl⟩

/-- **All hextets.** -/
theorem processHextets_writing (hextets : List (Nat × UInt8)) :
    ∀ {st : HextetState} {buffer : Nat} {text : List UInt8}, (∀ hextet ∈ hextets, hextet.1 < 65536) →
      Writing st buffer text →
      Writing (hextets.foldl (fun st hextet => processHextet st hextet.1 hextet.2) st) buffer
          (text ++ writtenText st.ah (hextets.map fun hextet => (strippedDigits hextet.1, hextet.2))) ∧
        (hextets.foldl (fun st hextet => processHextet st hextet.1 hextet.2) st).ah =
          (hextets.map Prod.snd).foldl nextShorthand st.ah := by
  induction hextets with
  | nil =>
    intro st buffer text _ h
    rw [List.map_nil, writtenText, List.append_nil]
    exact ⟨h, rfl⟩
  | cons hextet hextets ih =>
    intro st buffer text hwords h
    obtain ⟨hword, hwords⟩ := List.forall_mem_cons.mp hwords
    obtain ⟨hwriting, hah⟩ := processHextet_writing hword hextet.2 h
    have hrest := ih hwords hwriting
    rw [hah, List.append_assoc] at hrest
    exact hrest

/-! ## The suffix, and the whole buffer -/

/-- The text of a suffix. -/
def suffixText (suffix : Nat) : List UInt8 := if suffix = 0 then [] else 0x2F :: numeral suffix

theorem calcCIDRSuffix_eq {eax : Nat} (h : eax < 256) (mem : Mem) (rsi : Nat) :
    ∃ surplus, calcCIDRSuffix mem rsi eax =
      some (storeBytes mem rsi (0x2F :: numeral eax ++ [0] ++ surplus)) := by
  have hbyte : eax % 256 = eax := Nat.mod_eq_of_lt h
  have hword : eax % 2 ^ 16 = eax := Nat.mod_eq_of_lt (by omega)
  have hsmall : eax / 10 < 256 := by omega
  have hsmaller : eax / 10 / 10 < 256 := by omega
  have hdigit (n : Nat) : UInt8.ofNat (n + 0x30) = digitOf n := by rw [digitOf, Nat.add_comm]
  have hempty : 0 = littleEndian [0, 0, 0, 0] := rfl
  have hslash : UInt8.ofNat 0x2F = 0x2F := rfl
  have hzero : Net.ZERO = 0x30 := rfl
  have hchars {chars : List UInt8} (hlength : chars.length = 4) :
      charsOf 8 (littleEndian chars) = chars ++ [0, 0, 0, 0] := by
    rw [charsOf_littleEndian_of_le (by omega), hlength]
    rfl
  rw [numeral_octet h]
  unfold calcCIDRSuffix pushDigit
  simp only [hbyte, hword]
  rw [if_pos hsmall]
  split
  next _ =>
    refine ⟨[0, 0, 0], ?_⟩
    dsimp only [Option.bind_eq_bind, Option.bind_some]
    rw [if_pos hsmaller]
    dsimp only [Option.bind_some]
    rw [hempty, pushChar_littleEndian rfl, pushChar_littleEndian rfl, Nat.mod_eq_of_lt hsmaller,
      pushChar_littleEndian rfl, pushChar_littleEndian rfl, hchars rfl, hzero, hdigit, hdigit, hdigit,
      hslash, Nat.div_div_eq_div_mul]
    rfl
  next _ =>
    split
    next _ =>
      refine ⟨[0, 0, 0, 0], ?_⟩
      dsimp only [Option.bind_eq_bind, Option.bind_some]
      rw [hempty, pushChar_littleEndian rfl, Nat.mod_eq_of_lt hsmall, pushChar_littleEndian rfl,
        pushChar_littleEndian rfl, hchars rfl, hzero, hdigit, hdigit, hslash]
      rfl
    next _ =>
      refine ⟨[0, 0, 0, 0, 0], ?_⟩
      dsimp only [Option.bind_eq_bind, Option.bind_some]
      rw [hempty, hbyte, pushChar_littleEndian rfl, pushChar_littleEndian rfl, hchars rfl, hdigit,
        hslash]
      rfl

/-- What is in the buffer in the end, in front of a `NUL`. -/
def contents (ah suffix : Nat) (written : List UInt8) : List UInt8 :=
  if ah ≠ 0 then written ++ 0x2F :: numeral suffix else written.dropLast ++ suffixText suffix

/-- The last store. -/
theorem Writing.finish {st : HextetState} {buffer : Nat} {text : List UInt8}
    (h : Writing st buffer text) (more surplus : List UInt8) :
    bytesAt (storeBytes st.mem st.rsi (more ++ [0] ++ surplus)) buffer
      (text ++ more ++ [0]).length = text ++ more ++ [0] := by
  rw [List.append_assoc text]
  exact (h.store (more ++ [0]) surplus st.ah).bytes

/-- `.isShorthand` takes the last colon back. -/
theorem Writing.dropLast {st : HextetState} {buffer : Nat} {text : List UInt8}
    (h : Writing st buffer text) (hne : text ≠ []) :
    Writing { st with rsi := st.rsi - 1 } buffer text.dropLast where
  bytes := by
    have hpos := List.length_pos_iff.mpr hne
    have htake := Lib.bytesAt_take st.mem buffer (Nat.sub_le text.length 1)
    rw [h.bytes, ← List.dropLast_eq_take] at htake
    rw [List.length_dropLast]
    exact htake.symm
  rsi := by
    have hpos := List.length_pos_iff.mpr hne
    show st.rsi - 1 = _
    rw [h.rsi, List.length_dropLast]
    omega

/-- **The suffix, or the end of the text.** -/
theorem Writing.contents {st : HextetState} {buffer suffix : Nat} {written : List UInt8}
    (h : Writing st buffer written) (hne : written ≠ []) (hsuffix : suffix < 256) :
    ∃ mem', (if st.ah ≠ 0 then calcCIDRSuffix st.mem st.rsi suffix
        else if suffix ≠ 0 then calcCIDRSuffix st.mem (st.rsi - 1) suffix
        else some (storeBytes st.mem (st.rsi - 1) (charsOf 4 suffix))) = some mem' ∧
      bytesAt mem' buffer (contents st.ah suffix written ++ [0]).length =
        contents st.ah suffix written ++ [0] := by
  unfold IPv6.contents suffixText
  split
  next _ =>
    obtain ⟨surplus, hrun⟩ := calcCIDRSuffix_eq hsuffix st.mem st.rsi
    exact ⟨_, hrun, h.finish _ surplus⟩
  next hah =>
    have hback := h.dropLast hne
    split
    next hsome =>
      obtain ⟨surplus, hrun⟩ := calcCIDRSuffix_eq hsuffix st.mem (st.rsi - 1)
      exact ⟨_, hrun, hback.finish _ surplus⟩
    next hzero =>
      rw [Decidable.not_not.mp hzero]
      exact ⟨_, rfl, hback.finish [] [0, 0, 0]⟩

/-- The words of an address. -/
def wordsIn (ipv6Address : IPv6Address) : List Nat := wordsOf ipv6Address.address

theorem wordsIn_length (ipv6Address : IPv6Address) : (wordsIn ipv6Address).length = 8 := by
  simp [wordsIn, IPv6Address.address, charsOf, wordsOf]

theorem wordsOf_lt (bytes : List UInt8) : ∀ word ∈ wordsOf bytes, word < 65536 := by
  fun_induction wordsOf bytes with
  | case1 low high bytes ih =>
    have hlow := low.toNat_lt
    have hhigh := high.toNat_lt
    exact List.forall_mem_cons.mpr ⟨by omega, ih⟩
  | case2 => exact fun word h => absurd h List.not_mem_nil

theorem length_charsOf (n : Nat) : ∀ register, (charsOf n register).length = n := by
  induction n with
  | zero => exact fun _ => rfl
  | succ n ih => exact fun register => congrArg Nat.succ (ih (register / 256))

/-- The hextets that `.populateBuffer` goes through. -/
def hextetsWith (words : List Nat) (r11 : Nat) : List (List UInt8 × UInt8) :=
  (words.map strippedDigits).zip (charsOf 8 r11)

/-- **What `extractString` leaves in the buffer**, when it has a mask. -/
theorem extractString_contents {fuel r11 : Nat} {ipv6Address : IPv6Address}
    (hmask : calculateShorthandBytemask fuel (wordsIn ipv6Address) = some r11)
    (hsuffix : ipv6Address.cidrSuffix.toNat < 256) {text : List UInt8}
    (htext : text = contents ((charsOf 8 r11).foldl nextShorthand 0) ipv6Address.cidrSuffix.toNat
      (writtenText 0 (hextetsWith (wordsIn ipv6Address) r11))) (mem : Mem) (buffer : Nat) :
    ∃ mem', extractString fuel mem ipv6Address buffer = some mem' ∧
      bytesAt mem' buffer (text ++ [0]).length = text ++ [0] := by
  have hlength := wordsIn_length ipv6Address
  have hzip : ∀ hextet ∈ (wordsIn ipv6Address).zip (charsOf 8 r11), hextet.1 < 65536 :=
    fun hextet h => wordsOf_lt _ _ (List.of_mem_zip h).1
  obtain ⟨hwriting, hah⟩ := processHextets_writing _ hzip
    (⟨rfl, rfl⟩ : Writing { mem := mem, rsi := buffer, ah := 0 } buffer [])
  have hsnd : ((wordsIn ipv6Address).zip (charsOf 8 r11)).map Prod.snd = charsOf 8 r11 :=
    List.map_snd_zip (by rw [length_charsOf, hlength])
  have hdigits : (((wordsIn ipv6Address).zip (charsOf 8 r11)).map fun hextet =>
      (strippedDigits hextet.1, hextet.2)) = hextetsWith (wordsIn ipv6Address) r11 := by
    rw [hextetsWith, ← List.map_id (charsOf 8 r11), List.zip_map, List.map_id]
    rfl
  rw [hdigits, List.nil_append] at hwriting
  rw [hsnd] at hah
  have hne : hextetsWith (wordsIn ipv6Address) r11 ≠ [] := by
    refine List.length_pos_iff.mp ?_
    rw [hextetsWith, List.length_zip, List.length_map, length_charsOf, hlength]
    decide
  obtain ⟨mem', hrun, hbytes⟩ := hwriting.contents (writtenText_ne_nil hne) hsuffix
  rw [hah, ← htext] at hbytes
  refine ⟨mem', ?_, hbytes⟩
  unfold extractString
  rw [← hrun]
  show Option.bind (calculateShorthandBytemask fuel (wordsIn ipv6Address)) _ = _
  rw [hmask]
  rfl

/-! ## The canonical text -/

/-- The eight groups of an address. -/
def groupsOf : List UInt8 → List Nat
  | high :: low :: bytes => (high.toNat * 256 + low.toNat) :: groupsOf bytes
  | _ => []

/-- How many groups are zero from a place on. -/
def zerosAt (groups : List Nat) (i : Nat) : Nat := ((groups.drop i).takeWhile (· = 0)).length

/-- Groups with colons between them, without leading zeros and in lower case. -/
def joined (groups : List Nat) : List UInt8 := [COLON].intercalate (groups.map hexNumeral)

/-- The text that is recommended: `::` stands for the longest run of two or more zero groups, and
for the first one of these. -/
inductive Canonical (groups : List Nat) : List UInt8 → Prop where
  | full : (∀ i, zerosAt groups i < 2) → Canonical groups (joined groups)
  | shortened (i : Nat) : 2 ≤ zerosAt groups i → (∀ j, zerosAt groups j ≤ zerosAt groups i) →
      (∀ j < i, zerosAt groups j < zerosAt groups i) →
      Canonical groups
        (joined (groups.take i) ++ [COLON, COLON] ++ joined (groups.drop (i + zerosAt groups i)))

/-- The address that a text stands for. -/
inductive ReadsAs : List UInt8 → List Nat → Prop where
  | full {text : List UInt8} {hextets : List (List UInt8)} : IsIPv6 text hextets →
      ReadsAs text (hextets.map hexadecimal)
  | shortened {left right : List (List UInt8)} : (∀ hextet ∈ left ++ right, IsHextet hextet) →
      (left ++ right).length < 8 →
      ReadsAs ([COLON].intercalate left ++ [COLON, COLON] ++ [COLON].intercalate right)
        (left.map hexadecimal ++ List.replicate (8 - (left ++ right).length) 0 ++
          right.map hexadecimal)

/-- The zero groups are one run of two or more, behind another group. -/
def OneRun (groups : List Nat) (i : Nat) : Prop :=
  1 ≤ i ∧ 2 ≤ zerosAt groups i ∧ 0 ∉ groups.take i ∧ 0 ∉ groups.drop (i + zerosAt groups i)

instance (groups : List Nat) (i : Nat) : Decidable (OneRun groups i) :=
  inferInstanceAs (Decidable (_ ∧ _))

/-- The addresses that are written right: no group is zero, or the zero groups are one run. At the
end it needs a suffix behind it. -/
def Writable (groups : List Nat) (suffix : Nat) : Prop :=
  0 ∉ groups ∨ ∃ i < 8, OneRun groups i ∧ (i + zerosAt groups i < 8 ∨ suffix ≠ 0)

instance (groups : List Nat) (suffix : Nat) : Decidable (Writable groups suffix) :=
  inferInstanceAs (Decidable (_ ∨ _))

theorem groupsOf_eq : ∀ bytes, groupsOf bytes = (wordsOf bytes).map groupOf
  | [] => rfl
  | [_] => rfl
  | high :: low :: bytes => by
    have hhigh := high.toNat_lt
    have hgroup : groupOf (high.toNat + 256 * low.toNat) = high.toNat * 256 + low.toNat := by
      unfold groupOf
      omega
    rw [groupsOf, wordsOf, List.map_cons, hgroup, groupsOf_eq bytes]

/-! ## Marks are enough -/

theorem marksOf_map_groupOf (words : List Nat) : marksOf (words.map groupOf) = marksOf words := by
  rw [marksOf, List.map_map]
  refine List.map_congr_left fun word _ => ?_
  have hzero := @groupOf_eq_zero word
  show min 1 (groupOf word) = min 1 word
  omega

theorem zero_mem_marksOf {groups : List Nat} : 0 ∈ marksOf groups ↔ 0 ∈ groups := by
  rw [marksOf, List.mem_map]
  constructor
  · rintro ⟨group, hmem, hgroup⟩
    obtain rfl : group = 0 := by omega
    exact hmem
  · exact fun hmem => ⟨0, hmem, rfl⟩

theorem zerosAt_marksOf (groups : List Nat) (i : Nat) :
    zerosAt (marksOf groups) i = zerosAt groups i := by
  have hmark : (fun mark => decide (mark = 0)) ∘ min 1 = fun group => decide (group = 0) := by
    funext group
    exact decide_eq_decide.mpr (by show min 1 group = 0 ↔ group = 0; omega)
  rw [zerosAt, marksOf, ← List.map_drop, List.takeWhile_map, List.length_map, hmark, zerosAt]

theorem take_marksOf (groups : List Nat) (i : Nat) :
    (marksOf groups).take i = marksOf (groups.take i) := List.map_take.symm

theorem drop_marksOf (groups : List Nat) (i : Nat) :
    (marksOf groups).drop i = marksOf (groups.drop i) := List.map_drop.symm

theorem oneRun_marksOf {groups : List Nat} {i : Nat} :
    OneRun (marksOf groups) i ↔ OneRun groups i := by
  simp only [OneRun, zerosAt_marksOf, take_marksOf, drop_marksOf, zero_mem_marksOf]

theorem writable_marksOf {groups : List Nat} {suffix : Nat} :
    Writable (marksOf groups) (min 1 suffix) ↔ Writable groups suffix := by
  have hsuffix : min 1 suffix ≠ 0 ↔ suffix ≠ 0 := by omega
  simp only [Writable, zerosAt_marksOf, oneRun_marksOf, zero_mem_marksOf, hsuffix]

/-! ## The 256 patterns -/

/-- What is written for hextets without digits. -/
def skeleton (ah : Nat) (bytemasks : List UInt8) : List UInt8 :=
  writtenText ah (bytemasks.map fun bytemask => ([], bytemask))

/-- The masks that write no `NUL`. -/
def WritesText (bytemask : UInt8) : Bool := bytemask = 0x01 ∨ bytemask = 0xff

/-- How much longer the text of the groups is than the digits of those that are not zero. -/
def surplusOf (groups : List Nat) : Nat := groups.count 0 + (groups.length - 1)

/-- `::` stands for the zero groups from here on. -/
def IsLongest (groups : List Nat) (i : Nat) : Prop :=
  2 ≤ zerosAt groups i ∧ (∀ j < groups.length, zerosAt groups j ≤ zerosAt groups i) ∧
    ∀ j < i, zerosAt groups j < zerosAt groups i

instance (groups : List Nat) (i : Nat) : Decidable (IsLongest groups i) :=
  inferInstanceAs (Decidable (_ ∧ _))

/-- How much longer the canonical text is. -/
def surpluses (groups : List Nat) : List Nat :=
  (if ∀ i < groups.length, zerosAt groups i < 2 then [surplusOf groups] else []) ++
    ((List.range groups.length).filter (IsLongest groups ·)).map
      fun i => surplusOf (groups.take i) + 2 + surplusOf (groups.drop (i + zerosAt groups i))

/-- How long the text is without a suffix, when so much is written. -/
def bodyLength (ah suffix length : Nat) : Nat :=
  if ah ≠ 0 then if suffix = 0 then length + 2 else length else length - 1

/-- The text that is written with a mask has not the length of the canonical one: a `NUL` ends it
early, or all its digits are there and something else is wrong. -/
def Misfits (suffix : Nat) (marks : List Nat) (bytemasks : List UInt8) : Prop :=
  ∀ surplus ∈ surpluses marks,
    if bytemasks.all WritesText then
      (∀ hextet ∈ marks.zip bytemasks, hextet.2 = 0x01 ∨ hextet.1 = 0) ∧
        bodyLength (bytemasks.foldl nextShorthand 0) suffix (skeleton 0 bytemasks).length ≠ surplus
    else (skeleton 0 (bytemasks.takeWhile WritesText)).length < surplus

instance (suffix : Nat) (marks : List Nat) (bytemasks : List UInt8) :
    Decidable (Misfits suffix marks bytemasks) :=
  inferInstanceAs (Decidable (∀ _ ∈ _, _))

theorem misfits_bitsOf : ∀ n < 256, ∀ suffix < 2, ¬ Writable (bitsOf 8 n) suffix →
    ((calculateShorthandBytemask 8 (bitsOf 8 n)).all fun r11 =>
      Misfits suffix (bitsOf 8 n) (charsOf 8 r11)) = true := by
  decide +kernel

/-- The mask of one run. -/
def runMasks (i len : Nat) : List UInt8 :=
  List.replicate i 0x01 ++ (List.replicate len 0xff ++ List.replicate (8 - (i + len)) 0x01)

/-- One run has this mask, and it is what `::` stands for. -/
theorem oneRun_bitsOf : ∀ n < 256, ∀ i < 8, OneRun (bitsOf 8 n) i →
    (calculateShorthandBytemask 8 (bitsOf 8 n)).map (charsOf 8) =
        some (runMasks i (zerosAt (bitsOf 8 n) i)) ∧
      (runMasks i (zerosAt (bitsOf 8 n) i)).foldl nextShorthand 0 =
        (if i + zerosAt (bitsOf 8 n) i < 8 then 0 else 1) ∧
      IsLongest (bitsOf 8 n) i := by
  decide +kernel

/-! ## Lengths -/

/-- The number of digits of a group, when it is not zero. -/
def digitCount (group : Nat) : Nat := if group = 0 then 0 else (hexNumeral group).length

theorem length_hexNumeral (group : Nat) :
    (hexNumeral group).length = digitCount group + if group = 0 then 1 else 0 := by
  unfold digitCount
  split
  next hzero => rw [hzero]; rfl
  next _ => rfl

theorem joined_length (groups : List Nat) :
    (joined groups).length = (groups.map digitCount).sum + surplusOf groups := by
  unfold joined surplusOf
  induction groups with
  | nil => rfl
  | cons group groups ih =>
    have hcount : (group :: groups).count 0 = groups.count 0 + if group = 0 then 1 else 0 := by
      rw [List.count_cons]
      simp only [beq_iff_eq]
    rw [List.map_cons, List.map_cons, List.sum_cons, hcount, List.length_cons]
    cases groups with
    | nil =>
      rw [List.map_nil, List.intercalate_singleton, length_hexNumeral]
      simp
    | cons second groups =>
      rw [List.map_cons, List.intercalate_cons_cons, List.length_append, List.length_append,
        ← List.map_cons, ih, length_hexNumeral, List.length_singleton, List.length_cons]
      omega

theorem surplusOf_marksOf (groups : List Nat) : surplusOf (marksOf groups) = surplusOf groups := by
  have hcount : (marksOf groups).count 0 = groups.count 0 := by
    induction groups with
    | nil => rfl
    | cons group groups ih =>
      have hzero : (min 1 group == 0) = (group == 0) := by
        rw [Bool.eq_iff_iff, beq_iff_eq, beq_iff_eq]
        omega
      rw [marksOf, List.map_cons, List.count_cons, List.count_cons, hzero, ← marksOf, ih]
  rw [surplusOf, hcount, marksOf, List.length_map, surplusOf]

/-- An address falls into what is in front of a run, the run, and what is behind it. -/
theorem split_at (groups : List Nat) (i : Nat) :
    groups = groups.take i ++ (List.replicate (zerosAt groups i) 0 ++
      groups.drop (i + zerosAt groups i)) := by
  have hrun : (groups.drop i).takeWhile (· = 0) = List.replicate (zerosAt groups i) 0 :=
    List.eq_replicate_iff.mpr
      ⟨rfl, fun group h => of_decide_eq_true (List.all_eq_true.mp List.all_takeWhile group h)⟩
  have hsplit := @List.takeWhile_append_dropWhile _ (· = 0) (groups.drop i)
  have hrest : (groups.drop i).dropWhile (· = 0) = groups.drop (i + zerosAt groups i) := by
    have hdrop := congrArg (List.drop (zerosAt groups i)) hsplit
    rw [zerosAt, List.drop_left] at hdrop
    rw [hdrop, List.drop_drop]
    rfl
  rw [← hrun, ← hrest, hsplit, List.take_append_drop]

theorem zerosAt_eq_zero {groups : List Nat} {i : Nat} (h : groups.length ≤ i) :
    zerosAt groups i = 0 := by
  rw [zerosAt, List.drop_eq_nil_of_le h]
  rfl

/-- **The length of the canonical text.** -/
theorem Canonical.length_eq {groups : List Nat} {text : List UInt8} (h : Canonical groups text) :
    ∃ surplus ∈ surpluses (marksOf groups),
      text.length = (groups.map digitCount).sum + surplus := by
  have hlength : (marksOf groups).length = groups.length := List.length_map ..
  cases h with
  | full hshort =>
    refine ⟨surplusOf groups, List.mem_append_left _ ?_, joined_length groups⟩
    rw [if_pos fun i _ => by rw [zerosAt_marksOf]; exact hshort i, surplusOf_marksOf]
    exact List.mem_singleton_self _
  | shortened i htwo hmost hfirst =>
    have hsum := congrArg (fun groups => (groups.map digitCount).sum) (split_at groups i)
    simp only [List.map_append, List.sum_append, List.map_replicate, List.sum_replicate_nat] at hsum
    refine ⟨surplusOf (groups.take i) + 2 + surplusOf (groups.drop (i + zerosAt groups i)),
      List.mem_append_right _ (List.mem_map.mpr ⟨i, List.mem_filter.mpr ⟨?_, ?_⟩, ?_⟩), ?_⟩
    · rw [List.mem_range, hlength]
      by_contra hge
      rw [zerosAt_eq_zero (Nat.le_of_not_lt hge)] at htwo
      omega
    · refine decide_eq_true ⟨?_, fun j _ => ?_, fun j hj => ?_⟩
      · rw [zerosAt_marksOf]; exact htwo
      · rw [zerosAt_marksOf, zerosAt_marksOf]; exact hmost j
      · rw [zerosAt_marksOf, zerosAt_marksOf]; exact hfirst j hj
    · rw [take_marksOf, drop_marksOf, zerosAt_marksOf, surplusOf_marksOf, surplusOf_marksOf]
    · rw [List.length_append, List.length_append, joined_length, joined_length]
      have hzero : digitCount 0 = 0 := rfl
      rw [hzero, Nat.mul_zero] at hsum
      simp only [List.length_cons, List.length_nil]
      omega

/-- The digits that are written of a hextet. -/
def digitsWritten (hextet : List UInt8 × UInt8) : Nat := if hextet.2 = 0x01 then hextet.1.length else 0

theorem pieceOf_length (ah : Nat) (hextet : List UInt8 × UInt8) :
    (pieceOf ah hextet.1 hextet.2).length = digitsWritten hextet + (pieceOf ah [] hextet.2).length := by
  unfold pieceOf digitsWritten
  split
  next _ => rw [List.length_append, List.nil_append]
  next _ => rw [Nat.zero_add]

/-- The digits, and what is written without them. -/
theorem writtenText_length (hextets : List (List UInt8 × UInt8)) :
    ∀ ah, (writtenText ah hextets).length =
      (hextets.map digitsWritten).sum + (skeleton ah (hextets.map Prod.snd)).length := by
  induction hextets with
  | nil => exact fun _ => rfl
  | cons hextet hextets ih =>
    intro ah
    have hpiece := pieceOf_length ah hextet
    have hrest := ih (nextShorthand ah hextet.2)
    unfold skeleton at hrest ⊢
    rw [List.map_cons, List.map_cons, List.map_cons, List.sum_cons, writtenText, writtenText,
      List.length_append, List.length_append, hpiece, hrest]
    omega

theorem contents_length (ah suffix : Nat) (written : List UInt8) :
    (contents ah suffix written).length =
      bodyLength ah suffix written.length + (suffixText suffix).length := by
  unfold contents bodyLength suffixText
  by_cases hah : ah ≠ 0
  · rw [if_pos hah, if_pos hah, List.length_append]
    by_cases hzero : suffix = 0
    · rw [if_pos hzero, if_pos hzero, hzero]
      rfl
    · rw [if_neg hzero, if_neg hzero]
  · rw [if_neg hah, if_neg hah, List.length_append, List.length_dropLast]

theorem bodyLength_min (ah suffix length : Nat) :
    bodyLength ah (min 1 suffix) length = bodyLength ah suffix length := by
  have hzero : min 1 suffix = 0 ↔ suffix = 0 := by omega
  simp only [bodyLength, hzero]

theorem bodyLength_add (ah suffix digits : Nat) {length : Nat} (h : 0 < length) :
    bodyLength ah suffix (digits + length) = digits + bodyLength ah suffix length := by
  unfold bodyLength
  split
  next _ => split <;> omega
  next _ => omega

theorem joined_noNul (groups : List Nat) : 0 ∉ joined groups := by
  intro hmem
  rcases eq_or_of_mem_intercalate hmem with hcolon | ⟨digits, hdigits, hc⟩
  · exact absurd hcolon (by decide)
  · obtain ⟨group, _, rfl⟩ := List.mem_map.mp hdigits
    exact (hexNumeral_isHex group 0 hc).ne_zero rfl

theorem Canonical.noNul {groups : List Nat} {text : List UInt8} (h : Canonical groups text) :
    0 ∉ text := by
  cases h with
  | full _ => exact joined_noNul groups
  | shortened i _ _ _ =>
    intro hmem
    rcases List.mem_append.mp hmem with hmem | hmem
    · exact (List.mem_append.mp hmem).elim (joined_noNul _) (by decide)
    · exact joined_noNul _ hmem

/-! ## The other texts -/

theorem strippedDigits_noNul {word : Nat} (h : word < 65536) : 0 ∉ strippedDigits word := by
  rw [strippedDigits_eq h]
  split
  next _ => exact List.not_mem_nil
  next _ => exact fun hmem => (hexNumeral_isHex _ 0 hmem).ne_zero rfl

theorem strippedDigits_length {word : Nat} (h : word < 65536) :
    (strippedDigits word).length = digitCount (groupOf word) := by
  rw [strippedDigits_eq h, digitCount]
  simp only [groupOf_eq_zero]
  split <;> rfl

/-- Without a zero mask no `NUL` is written. -/
theorem writtenText_noNul (hextets : List (List UInt8 × UInt8)) :
    ∀ ah, (∀ hextet ∈ hextets, WritesText hextet.2 ∧ 0 ∉ hextet.1) → 0 ∉ writtenText ah hextets := by
  induction hextets with
  | nil => exact fun _ _ => List.not_mem_nil
  | cons hextet hextets ih =>
    intro ah h
    obtain ⟨⟨hmask, hdigits⟩, hrest⟩ := List.forall_mem_cons.mp h
    have hcolon : 0 ∉ [COLON] := by decide
    have hpiece : 0 ∉ pieceOf ah hextet.1 hextet.2 := by
      unfold pieceOf
      split
      next _ => exact fun hmem => (List.mem_append.mp hmem).elim hdigits hcolon
      next hone =>
        split
        next _ => split <;> simp [COLON]
        next hshorthand => simp [WritesText, hone, hshorthand] at hmask
    exact fun hmem => (List.mem_append.mp hmem).elim hpiece (ih _ hrest)

theorem suffixText_noNul (suffix : Nat) : 0 ∉ suffixText suffix := by
  have hnumeral : 0 ∉ numeral suffix := fun hmem => (numeral_isDecimal suffix 0 hmem).ne_zero rfl
  unfold suffixText
  split <;> simp [hnumeral]

theorem contents_noNul {ah suffix : Nat} {written : List UInt8} (h : 0 ∉ written) :
    0 ∉ contents ah suffix written := by
  have hnumeral : 0 ∉ numeral suffix := fun hmem => (numeral_isDecimal suffix 0 hmem).ne_zero rfl
  unfold contents
  split
  next _ => simp [h, hnumeral]
  next _ =>
    exact fun hmem => (List.mem_append.mp hmem).elim (fun hmem => h (List.mem_of_mem_dropLast hmem))
      (suffixText_noNul suffix)

/-- A zero mask ends the text early. -/
theorem contents_cut {hextets : List (List UInt8 × UInt8)}
    (h : ¬ ∀ hextet ∈ hextets, WritesText hextet.2) (ah ah' suffix : Nat) :
    ∃ behind, contents ah' suffix (writtenText ah hextets) =
      writtenText ah (hextets.takeWhile fun hextet => WritesText hextet.2) ++ 0 :: behind := by
  have hcut : ∃ more, writtenText ah hextets =
      writtenText ah (hextets.takeWhile fun hextet => WritesText hextet.2) ++ 0 :: COLON :: more := by
    induction hextets generalizing ah with
    | nil => exact absurd (fun _ hmem => absurd hmem List.not_mem_nil) h
    | cons hextet hextets ih =>
      by_cases hmask : WritesText hextet.2
      · rw [List.forall_mem_cons, not_and] at h
        obtain ⟨more, hmore⟩ := ih (h hmask) (nextShorthand ah hextet.2)
        refine ⟨more, ?_⟩
        rw [List.takeWhile_cons, if_pos hmask, writtenText, writtenText, hmore, List.append_assoc]
      · refine ⟨writtenText (nextShorthand ah hextet.2) hextets, ?_⟩
        have hpiece : pieceOf ah hextet.1 hextet.2 = [0, COLON] := by
          simp only [WritesText, decide_eq_true_eq, not_or] at hmask
          rw [pieceOf, if_neg hmask.1, if_neg hmask.2]
        rw [List.takeWhile_cons, if_neg hmask]
        show pieceOf ah hextet.1 hextet.2 ++ _ = _
        rw [hpiece]
        rfl
  obtain ⟨more, hmore⟩ := hcut
  unfold contents
  rw [hmore]
  split
  next _ => exact ⟨COLON :: more ++ 0x2F :: numeral suffix, by rw [List.append_assoc]; rfl⟩
  next _ =>
    refine ⟨(COLON :: more).dropLast ++ suffixText suffix, ?_⟩
    rw [List.dropLast_append_of_ne_nil (List.cons_ne_nil _ _), List.append_assoc]
    rfl

/-! ## Which addresses are written right -/

/-- Some digits of some hextets. -/
theorem sum_digitsWritten_le (p : List UInt8 × UInt8 → Bool) (hextets : List (List UInt8 × UInt8)) :
    ((hextets.takeWhile p).map digitsWritten).sum ≤ ((hextets.map Prod.fst).map List.length).sum := by
  induction hextets with
  | nil => exact Nat.le_refl 0
  | cons hextet hextets ih =>
    have hle : digitsWritten hextet ≤ hextet.1.length := by
      unfold digitsWritten
      split <;> omega
    rw [List.takeWhile_cons, List.map_cons, List.map_cons, List.sum_cons]
    split
    next _ =>
      rw [List.map_cons, List.sum_cons]
      exact Nat.add_le_add hle ih
    next _ => exact Nat.zero_le _

/-- All digits are written, when the masks of the other hextets are one. -/
theorem sum_digitsWritten_eq {words : List Nat} {bytemasks : List UInt8}
    (h : ∀ hextet ∈ (marksOf words).zip bytemasks, hextet.2 = 0x01 ∨ hextet.1 = 0)
    (hlength : words.length = bytemasks.length) :
    (((words.map strippedDigits).zip bytemasks).map digitsWritten).sum =
      ((words.map strippedDigits).map List.length).sum := by
  induction words generalizing bytemasks with
  | nil => rfl
  | cons word words ih =>
    obtain ⟨bytemask, bytemasks, rfl⟩ := List.exists_cons_of_length_eq_add_one hlength.symm
    rw [List.length_cons, List.length_cons, Nat.add_right_cancel_iff] at hlength
    obtain ⟨hfirst, hrest⟩ := List.forall_mem_cons.mp h
    have hdigits : digitsWritten (strippedDigits word, bytemask) = (strippedDigits word).length := by
      rw [digitsWritten]
      rcases hfirst with hone | hzero
      · rw [if_pos hone]
      · have hword : word = 0 := by
          have hmark : min 1 word = 0 := hzero
          omega
        rw [hword]
        split <;> rfl
    rw [List.map_cons, List.map_cons, List.zip_cons_cons, List.map_cons, List.sum_cons,
      List.sum_cons, ih hrest hlength, hdigits]

/-- **A text that misfits is not the canonical one.** -/
theorem Misfits.ne_canonical {words : List Nat} {bytemasks : List UInt8} {suffix : Nat}
    (hmisfits : Misfits (min 1 suffix) (marksOf words) bytemasks)
    (hwords : ∀ word ∈ words, word < 65536) (hlength : words.length = 8)
    (hmasks : bytemasks.length = 8) {text : List UInt8}
    (htext : Canonical (words.map groupOf) text) {mem : Mem} {buffer : Nat}
    (hbytes : bytesAt mem buffer (contents (bytemasks.foldl nextShorthand 0) suffix
        (writtenText 0 ((words.map strippedDigits).zip bytemasks)) ++ [0]).length =
      contents (bytemasks.foldl nextShorthand 0) suffix
        (writtenText 0 ((words.map strippedDigits).zip bytemasks)) ++ [0]) :
    ¬ TextAt mem buffer (text ++ suffixText suffix) := by
  intro htextAt
  obtain ⟨surplus, hsurplus, hlong⟩ := htext.length_eq
  rw [marksOf_map_groupOf] at hsurplus
  have hfits := hmisfits surplus hsurplus
  have hfst : ((words.map strippedDigits).zip bytemasks).map Prod.fst = words.map strippedDigits :=
    List.map_fst_zip (by rw [List.length_map]; omega)
  have hsnd : ((words.map strippedDigits).zip bytemasks).map Prod.snd = bytemasks :=
    List.map_snd_zip (by rw [List.length_map]; omega)
  have hdigits : ((words.map strippedDigits).map List.length).sum =
      ((words.map groupOf).map digitCount).sum := by
    rw [List.map_map, List.map_map]
    exact congrArg List.sum (List.map_congr_left fun word h => strippedDigits_length (hwords word h))
  have hnul : ∀ hextet ∈ (words.map strippedDigits).zip bytemasks, 0 ∉ hextet.1 := by
    intro hextet h
    obtain ⟨word, hword, hstripped⟩ := List.mem_map.mp (List.of_mem_zip h).1
    rw [← hstripped]
    exact strippedDigits_noNul (hwords word hword)
  have hall : (∀ hextet ∈ (words.map strippedDigits).zip bytemasks, WritesText hextet.2) ↔
      bytemasks.all WritesText := by
    rw [← hsnd, List.all_map, List.all_eq_true, hsnd]
    rfl
  split at hfits
  next hwrites =>
    obtain ⟨hones, hne⟩ := hfits
    have hwritten := writtenText_noNul _ 0 fun hextet h => ⟨hall.mpr hwrites hextet h, hnul hextet h⟩
    have heq := congrArg List.length
      (htextAt.unique (textAt_of_bytesAt (contents_noNul hwritten) hbytes))
    have hpos : 0 < (skeleton 0 bytemasks).length := by
      refine List.length_pos_iff.mpr (writtenText_ne_nil ?_)
      exact List.ne_nil_of_length_pos (by rw [List.length_map]; omega)
    rw [List.length_append, contents_length, writtenText_length, hsnd,
      sum_digitsWritten_eq hones (by omega), hdigits, bodyLength_add _ _ _ hpos, hlong] at heq
    rw [bodyLength_min] at hne
    omega
  next hcut =>
    obtain ⟨behind, hcontents⟩ := contents_cut (mt hall.mp hcut) 0
      (bytemasks.foldl nextShorthand 0) suffix
    rw [hcontents, List.append_assoc] at hbytes
    have hwritten : 0 ∉ writtenText 0 (((words.map strippedDigits).zip bytemasks).takeWhile
        fun hextet => WritesText hextet.2) :=
      writtenText_noNul _ 0 fun hextet h =>
        ⟨List.all_eq_true.mp List.all_takeWhile hextet h, hnul hextet ((List.takeWhile_sublist _).mem h)⟩
    have heq := congrArg List.length (htextAt.unique (textAt_of_bytesAt hwritten hbytes))
    have hle := sum_digitsWritten_le (fun hextet => WritesText hextet.2)
      ((words.map strippedDigits).zip bytemasks)
    rw [hfst, hdigits] at hle
    rw [List.length_append, writtenText_length, hlong] at heq
    have hkept : (((words.map strippedDigits).zip bytemasks).takeWhile
        fun hextet => WritesText hextet.2).map Prod.snd = bytemasks.takeWhile WritesText := by
      conv_rhs => rw [← hsnd, List.takeWhile_map]
      rfl
    rw [hkept] at heq
    omega

/-! ## The canonical texts -/

/-- Hextets that are written with their digits. -/
theorem writtenText_digits {digits : List (List UInt8)} (h : digits ≠ [])
    (rest : List (List UInt8 × UInt8)) : ∀ ah,
      writtenText ah (digits.zip (List.replicate digits.length 0x01) ++ rest) =
        digits.flatMap (· ++ [COLON]) ++ writtenText 0 rest := by
  induction digits with
  | nil => exact absurd rfl h
  | cons first digits ih =>
    intro ah
    rw [List.length_cons, List.replicate_succ, List.zip_cons_cons, List.cons_append,
      List.flatMap_cons, List.append_assoc]
    show (first ++ [COLON]) ++ writtenText 0 _ = _
    cases digits with
    | nil => rfl
    | cons second digits => rw [ih (List.cons_ne_nil _ _)]

/-- A colon is written once for all. -/
theorem writtenText_shorthand {digits : List (List UInt8)} (h : digits ≠ [])
    (rest : List (List UInt8 × UInt8)) :
    writtenText 0 (digits.zip (List.replicate digits.length 0xff) ++ rest) =
      COLON :: writtenText 1 rest := by
  have hskip (digits : List (List UInt8)) :
      writtenText 1 (digits.zip (List.replicate digits.length 0xff) ++ rest) = writtenText 1 rest := by
    induction digits with
    | nil => rfl
    | cons first digits ih => exact ih
  obtain ⟨first, digits, rfl⟩ := List.exists_cons_of_ne_nil h
  exact congrArg (List.cons COLON) (hskip digits)

/-- Groups that are not zero, and a colon behind each. -/
theorem flatMap_strippedDigits {words : List Nat} (hne : words ≠ [])
    (h : ∀ word ∈ words, word < 65536 ∧ word ≠ 0) :
    (words.map strippedDigits).flatMap (· ++ [COLON]) = joined (words.map groupOf) ++ [COLON] := by
  unfold joined
  induction words with
  | nil => exact absurd rfl hne
  | cons word words ih =>
    obtain ⟨hword, hwords⟩ := List.forall_mem_cons.mp h
    have hdigits : strippedDigits word = hexNumeral (groupOf word) := by
      rw [strippedDigits_eq hword.1, if_neg hword.2]
    rw [List.map_cons, List.flatMap_cons, hdigits, List.map_cons, List.map_cons]
    cases words with
    | nil => rw [List.map_nil, List.map_nil, List.map_nil, List.intercalate_singleton]; exact List.append_nil _
    | cons second words =>
      rw [ih (List.cons_ne_nil _ _) hwords, List.map_cons, List.map_cons, intercalate_append,
        List.append_assoc, List.singleton_append]

/-- Groups in digits are hextets. -/
theorem isHextet_hexNumeral {group : Nat} (h : group < 65536) : IsHextet (hexNumeral group) where
  hex := hexNumeral_isHex group
  pos := (@hexNumeral_length 3 group h).1
  le := (@hexNumeral_length 3 group h).2

theorem map_hexadecimal (groups : List Nat) :
    (groups.map hexNumeral).map hexadecimal = groups := by
  rw [List.map_map]
  exact (List.map_congr_left fun group _ => hexadecimal_hexNumeral group).trans (List.map_id groups)

/-- **The canonical text stands for the address.** -/
theorem Canonical.readsAs {groups : List Nat} {text : List UInt8} (h : Canonical groups text)
    (hlength : groups.length = 8) (hgroups : ∀ group ∈ groups, group < 65536) :
    ReadsAs text groups := by
  have hhextets {groups' : List Nat} (hsub : ∀ group ∈ groups', group ∈ groups) :
      ∀ hextet ∈ groups'.map hexNumeral, IsHextet hextet := by
    intro hextet hmem
    obtain ⟨group, hgroup, rfl⟩ := List.mem_map.mp hmem
    exact isHextet_hexNumeral (hgroups group (hsub group hgroup))
  cases h with
  | full _ =>
    have hread := ReadsAs.full (⟨by rw [List.length_map, hlength], hhextets fun _ h => h, rfl⟩ :
      IsIPv6 (joined groups) (groups.map hexNumeral))
    rwa [map_hexadecimal] at hread
  | shortened i htwo _ _ =>
    have hsplit := congrArg List.length (split_at groups i)
    rw [List.length_append, List.length_append, List.length_replicate, hlength] at hsplit
    have hread := @ReadsAs.shortened ((groups.take i).map hexNumeral)
      ((groups.drop (i + zerosAt groups i)).map hexNumeral)
      (fun hextet hmem => (List.mem_append.mp hmem).elim
        (hhextets (fun _ h => List.mem_of_mem_take h) hextet)
        (hhextets (fun _ h => List.mem_of_mem_drop h) hextet))
      (by rw [List.length_append, List.length_map, List.length_map]; omega)
    rw [List.length_append, List.length_map, List.length_map, map_hexadecimal, map_hexadecimal,
      (by omega : 8 - ((groups.take i).length + (groups.drop (i + zerosAt groups i)).length) =
        zerosAt groups i), List.append_assoc (groups.take i), ← split_at] at hread
    exact hread

/-- No run of zeros. -/
theorem zerosAt_of_notMem {groups : List Nat} (h : 0 ∉ groups) (i : Nat) : zerosAt groups i = 0 := by
  refine List.length_eq_zero_iff.mpr (List.eq_nil_iff_forall_not_mem.mpr fun group hmem => h ?_)
  have hzero := of_decide_eq_true (List.all_eq_true.mp List.all_takeWhile group hmem)
  rw [← hzero]
  exact List.mem_of_mem_drop ((List.takeWhile_sublist _).mem hmem)

/-- **An address without a zero group.** -/
theorem contents_full {words : List Nat} (hwords : ∀ word ∈ words, word < 65536)
    (hlength : words.length = 8) (h : 0 ∉ words) (suffix : Nat) :
    calculateShorthandBytemask 8 (marksOf words) = some allOnes ∧
      contents ((charsOf 8 allOnes).foldl nextShorthand 0) suffix
          (writtenText 0 (hextetsWith words allOnes)) =
        joined (words.map groupOf) ++ suffixText suffix := by
  have hmarks : marksOf words = List.replicate 8 1 := by
    refine List.eq_replicate_iff.mpr ⟨by rw [marksOf, List.length_map, hlength], fun mark hmem => ?_⟩
    obtain ⟨word, hword, rfl⟩ := List.mem_map.mp hmem
    have hne : word ≠ 0 := fun hzero => h (hzero ▸ hword)
    omega
  have hones : charsOf 8 allOnes = List.replicate (words.map strippedDigits).length 0x01 := by
    rw [List.length_map, hlength]
    decide
  have hne : words ≠ [] := List.ne_nil_of_length_pos (by omega)
  have hwritten : writtenText 0 (hextetsWith words allOnes) =
      joined (words.map groupOf) ++ [COLON] := by
    rw [hextetsWith, hones, ← List.append_nil (List.zip _ _),
      writtenText_digits (mt List.map_eq_nil_iff.mp hne), flatMap_strippedDigits hne fun word hword =>
        ⟨hwords word hword, fun hzero => h (hzero ▸ hword)⟩]
    exact List.append_nil _
  have hah : (charsOf 8 allOnes).foldl nextShorthand 0 = 0 := by decide
  refine ⟨by rw [hmarks]; decide, ?_⟩
  rw [hwritten, hah, contents, if_neg (by decide), List.dropLast_concat]

/-- What is written for one run of zeros. -/
theorem writtenText_run {left right : List Nat} {len : Nat} (hleft : left ≠ []) (hlen : 0 < len)
    (h : ∀ word ∈ left ++ right, word < 65536 ∧ word ≠ 0) :
    writtenText 0 ((left ++ (List.replicate len 0 ++ right)).map strippedDigits |>.zip
        (List.replicate left.length 0x01 ++
          (List.replicate len 0xff ++ List.replicate right.length 0x01))) =
      joined (left.map groupOf) ++ [COLON, COLON] ++
        if right = [] then [] else joined (right.map groupOf) ++ [COLON] := by
  obtain ⟨hwordsLeft, hwordsRight⟩ := List.forall_mem_append.mp h
  have hzeros : (List.replicate len 0).map strippedDigits ≠ [] :=
    List.ne_nil_of_length_pos (by rw [List.length_map, List.length_replicate]; exact hlen)
  have hlength {words : List Nat} : words.length = (words.map strippedDigits).length :=
    (List.length_map ..).symm
  have hlen : len = ((List.replicate len 0).map strippedDigits).length := by
    rw [List.length_map, List.length_replicate]
  have hrest : writtenText 1 ((right.map strippedDigits).zip (List.replicate right.length 0x01)) =
      if right = [] then [] else joined (right.map groupOf) ++ [COLON] := by
    split
    next hnil => rw [hnil]; rfl
    next hne =>
      rw [hlength, ← List.append_nil (List.zip _ _),
        writtenText_digits (mt List.map_eq_nil_iff.mp hne), flatMap_strippedDigits hne hwordsRight]
      exact List.append_nil _
  have hshorthand := writtenText_shorthand hzeros
    ((right.map strippedDigits).zip (List.replicate right.length 0x01))
  rw [← hlen, hrest] at hshorthand
  rw [List.map_append, List.map_append, List.zip_append (by rw [← hlength, List.length_replicate]),
    List.zip_append (by rw [← hlen, List.length_replicate]), @hlength left,
    writtenText_digits (mt List.map_eq_nil_iff.mp hleft), flatMap_strippedDigits hleft hwordsLeft,
    hshorthand, List.append_assoc, List.append_assoc]
  rfl

/-- **An address with one run of zero groups.** -/
theorem contents_oneRun {words : List Nat} (hwords : ∀ word ∈ words, word < 65536)
    (hlength : words.length = 8) {i suffix : Nat} (hi : i < 8) (h : OneRun words i)
    (hend : i + zerosAt words i < 8 ∨ suffix ≠ 0) :
    ∃ r11, calculateShorthandBytemask 8 (marksOf words) = some r11 ∧
      contents ((charsOf 8 r11).foldl nextShorthand 0) suffix
          (writtenText 0 (hextetsWith words r11)) =
        joined ((words.map groupOf).take i) ++ [COLON, COLON] ++
          joined ((words.map groupOf).drop (i + zerosAt words i)) ++ suffixText suffix ∧
      IsLongest (marksOf words) i := by
  have hrun := @forall_marks (fun marks => ∀ i < 8, OneRun marks i →
    (calculateShorthandBytemask 8 marks).map (charsOf 8) = some (runMasks i (zerosAt marks i)) ∧
      (runMasks i (zerosAt marks i)).foldl nextShorthand 0 =
        (if i + zerosAt marks i < 8 then 0 else 1) ∧ IsLongest marks i)
    oneRun_bitsOf words hlength i hi (oneRun_marksOf.mpr h)
  rw [zerosAt_marksOf] at hrun
  obtain ⟨hmask, hah, hlongest⟩ := hrun
  obtain ⟨r11, hr11, hmasks⟩ := Option.map_eq_some_iff.mp hmask
  obtain ⟨hpos, htwo, hbefore, hbehind⟩ := h
  have hsplit := split_at words i
  have hlengths := congrArg List.length hsplit
  rw [List.length_append, List.length_append, List.length_replicate, hlength,
    List.length_take_of_le (by omega), List.length_drop, hlength] at hlengths
  have hwritten := @writtenText_run (words.take i) (words.drop (i + zerosAt words i))
    (zerosAt words i) (List.ne_nil_of_length_pos (by rw [List.length_take]; omega)) (by omega)
    (List.forall_mem_append.mpr
      ⟨fun word hword => ⟨hwords word (List.mem_of_mem_take hword), fun hzero => hbefore (hzero ▸ hword)⟩,
        fun word hword => ⟨hwords word (List.mem_of_mem_drop hword), fun hzero => hbehind (hzero ▸ hword)⟩⟩)
  rw [← hsplit, List.length_take_of_le (by omega), List.length_drop, hlength] at hwritten
  refine ⟨r11, hr11, ?_, hlongest⟩
  rw [hextetsWith, hmasks, hah, runMasks, hwritten, List.map_take, List.map_drop]
  by_cases hmore : i + zerosAt words i < 8
  · have hne : words.drop (i + zerosAt words i) ≠ [] :=
      List.ne_nil_of_length_pos (by rw [List.length_drop]; omega)
    rw [if_pos hmore, if_neg hne, contents, if_neg (by decide), ← List.append_assoc,
      List.dropLast_concat]
  · have hnil : words.drop (i + zerosAt words i) = [] := List.drop_eq_nil_of_le (by omega)
    have hsuffix := hend.resolve_left hmore
    rw [if_neg hmore, if_pos hnil, contents, if_pos (by decide), ← List.map_drop, hnil, suffixText,
      if_neg hsuffix]
    rfl

/-- The mask of an address, when there is a text. -/
theorem exists_bytemask {fuel : Nat} {mem mem' : Mem} {ipv6Address : IPv6Address} {buffer : Nat}
    (h : extractString fuel mem ipv6Address buffer = some mem') :
    ∃ r11, calculateShorthandBytemask fuel (wordsIn ipv6Address) = some r11 := by
  obtain ⟨r11, hmask, _⟩ := Option.bind_eq_some_iff.mp h
  exact ⟨r11, hmask⟩

/-- What `extractString` is for: the canonical text of the address, with the suffix behind it
unless that is zero. -/
def WritesAddress (ipv6Address : IPv6Address) (mem : Mem) (buffer : Nat) : Prop :=
  ∃ text, Canonical (groupsOf ipv6Address.address) text ∧
    ReadsAs text (groupsOf ipv6Address.address) ∧
    TextAt mem buffer (text ++ suffixText ipv6Address.cidrSuffix.toNat)

theorem zerosAt_map_groupOf (words : List Nat) (i : Nat) :
    zerosAt (words.map groupOf) i = zerosAt words i := by
  rw [← zerosAt_marksOf, marksOf_map_groupOf, zerosAt_marksOf]

/-- What is written of an address that can be written. -/
theorem contents_canonical {words : List Nat} (hwords : ∀ word ∈ words, word < 65536)
    (hlength : words.length = 8) {suffix : Nat} (h : Writable (words.map groupOf) suffix) :
    ∃ r11 text, calculateShorthandBytemask 8 (marksOf words) = some r11 ∧
      contents ((charsOf 8 r11).foldl nextShorthand 0) suffix
          (writtenText 0 (hextetsWith words r11)) = text ++ suffixText suffix ∧
      Canonical (words.map groupOf) text := by
  rw [← writable_marksOf, marksOf_map_groupOf, writable_marksOf] at h
  rcases h with hfull | ⟨i, hi, hrun, hend⟩
  · obtain ⟨hmask, hcontents⟩ := contents_full hwords hlength hfull suffix
    refine ⟨allOnes, _, hmask, hcontents, .full fun i => ?_⟩
    rw [zerosAt_map_groupOf, zerosAt_of_notMem hfull]
    exact Nat.zero_lt_two
  · obtain ⟨r11, hmask, hcontents, htwo, hmost, hfirst⟩ := contents_oneRun hwords hlength hi hrun hend
    simp only [zerosAt_marksOf, ← zerosAt_map_groupOf words] at htwo hmost hfirst hcontents
    refine ⟨r11, _, hmask, hcontents, .shortened i htwo (fun j => ?_) hfirst⟩
    rcases Nat.lt_or_ge j (words.map groupOf).length with hlt | hge
    · exact hmost j (by rw [marksOf, List.length_map]; rwa [List.length_map] at hlt)
    · rw [zerosAt_eq_zero hge]
      exact Nat.zero_le _

/-- **Which addresses are written right.** -/
theorem extractString_iff {ipv6Address : IPv6Address} (h : ipv6Address.cidrSuffix ≤ 128) (mem : Mem)
    (buffer : Nat) :
    (∃ fuel mem', extractString fuel mem ipv6Address buffer = some mem' ∧
        WritesAddress ipv6Address mem' buffer) ↔
      Writable (groupsOf ipv6Address.address) ipv6Address.cidrSuffix.toNat := by
  have hle : ipv6Address.cidrSuffix.toNat ≤ 128 := h
  have hlength := wordsIn_length ipv6Address
  have hwords : ∀ word ∈ wordsIn ipv6Address, word < 65536 := wordsOf_lt _
  have hgroups : groupsOf ipv6Address.address = (wordsIn ipv6Address).map groupOf := groupsOf_eq _
  constructor
  · rintro ⟨fuel, mem', hrun, text, hcanonical, _, htext⟩
    obtain ⟨r11, hmask⟩ := exists_bytemask hrun
    obtain ⟨mem'', hrun', hbytes⟩ := extractString_contents hmask (by omega) rfl mem buffer
    obtain rfl : mem' = mem'' := Option.some.inj (hrun.symm.trans hrun')
    rw [hgroups] at hcanonical ⊢
    by_contra hnot
    rw [← writable_marksOf, marksOf_map_groupOf] at hnot
    have hmisfits := @forall_marks (fun marks => ∀ suffix < 2, ¬ Writable marks suffix →
      ((calculateShorthandBytemask 8 marks).all fun r11 =>
        Misfits suffix marks (charsOf 8 r11)) = true) misfits_bitsOf (wordsIn ipv6Address) hlength
      (min 1 ipv6Address.cidrSuffix.toNat) (by omega) hnot
    rw [calculateShorthandBytemask_eq hlength hmask] at hmisfits
    exact (of_decide_eq_true hmisfits).ne_canonical hwords hlength (length_charsOf ..) hcanonical
      hbytes htext
  · intro hwritable
    rw [hgroups] at hwritable
    obtain ⟨r11, text, hmask, hcontents, hcanonical⟩ := contents_canonical hwords hlength hwritable
    rw [calculateShorthandBytemask_marksOf] at hmask
    obtain ⟨mem', hrun, hbytes⟩ := extractString_contents hmask (by omega) rfl mem buffer
    have hread := hcanonical.readsAs (by rw [List.length_map, hlength]) fun group hgroup => by
      obtain ⟨word, hword, rfl⟩ := List.mem_map.mp hgroup
      exact groupOf_lt (hwords word hword)
    rw [hcontents] at hbytes
    refine ⟨8, mem', hrun, text, by rw [hgroups]; exact hcanonical, by rw [hgroups]; exact hread,
      textAt_of_bytesAt (fun hmem => ?_) hbytes⟩
    exact (List.mem_append.mp hmem).elim hcanonical.noNul (suffixText_noNul _)

/-- `2001:db8::1`. -/
theorem extractString_iff_documentation :
    (∃ fuel mem', extractString fuel (fun _ => 0x58) ⟨0xb80d0120, 0x0100000000000000, 0⟩ 16 = some mem' ∧
        WritesAddress ⟨0xb80d0120, 0x0100000000000000, 0⟩ mem' 16) ↔
      Writable (groupsOf (IPv6Address.address ⟨0xb80d0120, 0x0100000000000000, 0⟩)) 0 :=
  @extractString_iff ⟨0xb80d0120, 0x0100000000000000, 0⟩ (by decide) (fun _ => 0x58) 16

/-- **Two runs of three**: `fe80:0:0:0:5:0:0:0` never returns. -/
theorem extractString_endless :
    ¬ ∀ (mem : Mem) (ipv6Address : IPv6Address) (buffer : Nat), ipv6Address.cidrSuffix ≤ 128 →
      ∃ fuel mem', extractString fuel mem ipv6Address buffer = some mem' ∧
        WritesAddress ipv6Address mem' buffer := by
  intro h
  obtain ⟨fuel, mem', hrun, _⟩ := h (fun _ => 0) ⟨0x80fe, 0x0500, 64⟩ 0 (by decide)
  obtain ⟨r11, hmask⟩ := exists_bytemask hrun
  have hnone : calculateShorthandBytemask 8 (marksOf (wordsIn ⟨0x80fe, 0x0500, 64⟩)) = none := by
    decide +kernel
  rw [calculateShorthandBytemask_eq (wordsIn_length _) hmask] at hnone
  cases hnone

end IPv6

end DevopsBroker.Net
