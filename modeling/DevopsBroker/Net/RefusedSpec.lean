import DevopsBroker.Net.IPv4AddressSpec
import DevopsBroker.Net.IPv6AddressSpec

/-!
# Refused texts

An IPv4 address is stored when all of its text has been read. Of an IPv6 address the first half is
stored as soon as it is complete, so that a text that goes wrong in its second half has overwritten
eight bytes already: **`refused_unchanged_iff`**.

The texts are described as `initIPv6Address` reads them. Behind `::` it goes on one character too
early, so that a colon may be the first digit of a hextet.
-/

namespace DevopsBroker.Net

open DevopsBroker.Lib

namespace IPv6

/-! ## Texts -/

/-- How a text goes on behind a hextet. -/
inductive Behind : List UInt8 → List UInt8 → Prop where
  | ends : Behind [] []
  | colon (next : List UInt8) : Behind (COLON :: next) next

theorem GoesOn.behind {p rsi : Nat} {rest next : List UInt8} (h : GoesOn p rest rsi next) :
    Behind rest next := by
  cases h with
  | ends => exact .ends
  | colon => exact .colon next

theorem Behind.goesOn {rest next : List UInt8} (h : Behind rest next) (p : Nat) :
    ∃ rsi, GoesOn p rest rsi next := by
  cases h with
  | ends => exact ⟨p, .ends⟩
  | colon => exact ⟨p + 1, .colon next⟩

/-- A text that starts with some hextets, and what is behind them. -/
inductive Hextets : List (List UInt8) → List UInt8 → List UInt8 → Prop where
  | nil (text : List UInt8) : Hextets [] text text
  | cons {digits rest next text : List UInt8} {groups : List (List UInt8)}
      (hdigits : TakenHextet digits) (hbehind : Behind rest next)
      (hgroups : Hextets groups next text) : Hextets (digits :: groups) (digits ++ rest) text

/-- A hextet where a colon may be the first digit. -/
def Loose (digits : List UInt8) : Prop :=
  ∃ c more, digits = c :: more ∧ (Taken c ∨ c = COLON) ∧ (∀ d ∈ more, Taken d) ∧ more.length ≤ 3

/-- Texts of so many hextets, the way `processShorthandAddress` goes on. -/
inductive TakesRest : Nat → List UInt8 → Prop where
  | last {digits : List UInt8} (hdigits : Loose digits) : TakesRest 1 digits
  | hextet {n : Nat} {digits next : List UInt8} (hdigits : Loose digits)
      (hrest : TakesRest n next) : TakesRest (n + 1) (digits ++ COLON :: next)

/-- What may stand behind `::` where so many hextets are to come. The colon behind the first of them
is read again. -/
inductive TakesShorthand : Nat → List UInt8 → Prop where
  | nothing (n : Nat) : TakesShorthand n []
  | last {digits : List UInt8} (hdigits : Loose digits) : TakesShorthand 1 digits
  | hextet {n : Nat} {digits next : List UInt8} (hdigits : Loose digits)
      (hrest : TakesRest n (COLON :: next)) : TakesShorthand (n + 1) (digits ++ COLON :: next)

/-- The hextets that `processShorthandAddress` still asks for, where `n` of eight are missing behind
the one that `::` stands for. Only behind four is it right: `cl` is compared with six for equality. -/
def shorthandHextets (n : Nat) : Nat := if n = 3 then 1 else 254 + n

/-- What may stand where so many of the last four hextets are to come. -/
inductive Takes : Nat → List UInt8 → Prop where
  | done (text : List UInt8) : Takes 0 text
  | shorthand {n : Nat} {text : List UInt8} (h : TakesShorthand (shorthandHextets n) text) :
      Takes (n + 1) (COLON :: text)
  | hextet {n : Nat} {digits rest next : List UInt8} (hdigits : TakenHextet digits)
      (hbehind : Behind rest next) (hrest : Takes n next) : Takes (n + 1) (digits ++ rest)

/-! ## A hextet behind a colon -/

theorem hexDigit_loose {c : UInt8} {digit : Nat} (h : hexDigit c = some digit) :
    (Taken c ∨ c = COLON) ∧ digit < 15 := by
  rw [hexDigit_eq] at h
  split at h
  next htaken =>
    cases h
    exact ⟨Or.inl htaken, htaken.hexValue_lt⟩
  next _ =>
    split at h
    next hcolon =>
      cases h
      exact ⟨Or.inr hcolon, by decide⟩
    next _ => cases h

theorem hexDigit_of_loose {c : UInt8} (h : Taken c ∨ c = COLON) :
    ∃ digit < 15, hexDigit c = some digit := by
  rw [hexDigit_eq]
  split
  next htaken => exact ⟨_, htaken.hexValue_lt, rfl⟩
  next hnot => exact ⟨10, by decide, if_pos (h.resolve_left hnot)⟩

theorem convertStringToHextet_loose {r8 rax rsi m : Nat} {text : List UInt8} {r8' rax' rsi' : Nat}
    (hnul : 0 ∉ text) (hload : Loaded r8 text m) (hroom : 5 ≤ m)
    (hrun : convertStringToHextet r8 rax rsi = some (r8', rax', rsi')) :
    ∃ digits rest next, text = digits ++ rest ∧ Loose digits ∧ lowByte r8' = rest.headD 0 ∧
      GoesOn (rsi + digits.length) rest rsi' next := by
  obtain ⟨k, rfl⟩ : ∃ k, m = k + 1 := ⟨m - 1, by omega⟩
  obtain ⟨digit, hdigit, hrun⟩ := Option.bind_eq_some_iff.mp hrun
  rw [hload.lowByte_eq] at hdigit
  cases text with
  | nil =>
    rw [List.headD_nil, show hexDigit 0 = none by decide] at hdigit
    cases hdigit
  | cons c text =>
    obtain ⟨digits, rest, next, rfl, hdigits, hle, _, hlow, hnext⟩ :=
      hextetChars_some (fun hmem => hnul (List.mem_cons_of_mem _ hmem)) hload.shift (by omega) hrun
    refine ⟨c :: digits, rest, next, rfl, ⟨c, digits, rfl, (hexDigit_loose hdigit).1, hdigits, hle⟩,
      hlow, ?_⟩
    rw [List.length_cons, show rsi + (digits.length + 1) = rsi + 1 + digits.length by omega]
    exact hnext

theorem convertStringToHextet_of_loose {r8 rsi m : Nat} {digits rest next : List UInt8} {rsi' : Nat}
    (rax : Nat) (hload : Loaded r8 (digits ++ rest) m) (hroom : 5 ≤ m) (h : Loose digits)
    (hnext : GoesOn (rsi + digits.length) rest rsi' next) :
    ∃ r8' rax', convertStringToHextet r8 rax rsi = some (r8', rax', rsi') ∧ rax' % 16 < 15 ∧
      lowByte r8' = rest.headD 0 := by
  obtain ⟨k, rfl⟩ : ∃ k, m = k + 1 := ⟨m - 1, by omega⟩
  obtain ⟨c, more, rfl, hc, hmore, hle⟩ := h
  have hch : lowByte r8 = c := hload.lowByte_eq
  obtain ⟨digit, hlt, hdigit⟩ := hexDigit_of_loose hc
  rw [List.length_cons] at hnext
  obtain ⟨r8', hchars, hlow⟩ := hextetChars_eq (shiftIn rax digit) hload.shift (by omega) hmore hle
    (by rw [show rsi + 1 + more.length = rsi + (more.length + 1) by omega]; exact hnext)
  refine ⟨r8', shifted (shiftIn rax digit) more, ?_, shifted_mod hmore ?_, hlow⟩
  · rw [convertStringToHextet, hch, hdigit]
    exact hchars
  · unfold shiftIn
    omega

/-! ## Behind `::` -/

theorem Loose.pos {digits : List UInt8} (h : Loose digits) : 0 < digits.length := by
  obtain ⟨c, more, rfl, _⟩ := h
  exact Nat.succ_pos _

theorem TakesRest.pos {n : Nat} {text : List UInt8} (h : TakesRest n text) : 0 < n := by
  cases h <;> exact Nat.succ_pos _

/-- A digit for each hextet, and the colons between them. -/
theorem TakesRest.le_length {n : Nat} {text : List UInt8} (h : TakesRest n text) :
    2 * n ≤ text.length + 1 := by
  induction h with
  | last hdigits =>
    have := hdigits.pos
    omega
  | hextet hdigits _ ih =>
    have := hdigits.pos
    rw [List.length_append, List.length_cons]
    omega

/-- **The last hextet** ends the text. -/
theorem shorthandLoop_loose {mem : Mem} {r8 rax rsi m : Nat} {text : List UInt8} (hnul : 0 ∉ text)
    (hload : Loaded r8 text m) (hroom : 5 ≤ m) :
    shorthandLoop mem 1 rax rsi r8 ≠ ERROR_CODE ↔ Loose text := by
  rw [shorthandLoop]
  constructor
  · intro hrun
    split at hrun
    next _ => exact absurd rfl hrun
    next r8' rax' rsi' hconvert =>
      obtain ⟨digits, rest, next, rfl, hdigits, hlow, hnext⟩ :=
        convertStringToHextet_loose hnul hload hroom hconvert
      rw [if_pos rfl, shorthandLoop, hlow] at hrun
      cases hnext with
      | ends =>
        rw [List.append_nil]
        exact hdigits
      | colon =>
        rw [List.headD_cons, if_neg (by decide)] at hrun
        exact absurd rfl hrun
  · intro hdigits
    rw [← List.append_nil text] at hload
    obtain ⟨r8', rax', hconvert, hlt, hlow⟩ := convertStringToHextet_of_loose
      (if 0 + 1 = 2 then 0 else rax) hload hroom hdigits (.ends (p := rsi + text.length))
    rw [hconvert]
    dsimp only
    rw [if_pos rfl, shorthandLoop, hlow, List.headD_nil, if_pos rfl]
    exact returned_ne hlt

theorem takesRest_one {text : List UInt8} : TakesRest 1 text ↔ Loose text := by
  constructor
  · intro htakes
    cases htakes with
    | last hdigits => exact hdigits
    | hextet _ hrest => exact absurd hrest.pos (Nat.lt_irrefl 0)
  · exact .last

theorem takesShorthand_one {text : List UInt8} (hne : text ≠ []) :
    TakesShorthand 1 text ↔ Loose text := by
  constructor
  · intro htakes
    cases htakes with
    | nothing => exact absurd rfl hne
    | last hdigits => exact hdigits
    | hextet _ hrest => exact absurd hrest.pos (Nat.lt_irrefl 0)
  · exact .last

/-- **The hextets that are left**, where the text is read from its start. -/
theorem shorthandLoop_takesRest {mem : Mem} {n : Nat} :
    ∀ {rax rsi : Nat} {text : List UInt8}, TextAt mem rsi text →
      (shorthandLoop mem (n + 1) rax rsi (orBytes mem 8 rsi 0 0) ≠ ERROR_CODE ↔
        TakesRest (n + 1) text) := by
  induction n with
  | zero =>
    intro rax rsi text h
    exact (shorthandLoop_loose h.noNul (h.loaded 8) (by omega)).trans takesRest_one.symm
  | succ n ih =>
    intro rax rsi text h
    constructor
    · intro hrun
      rw [shorthandLoop] at hrun
      split at hrun
      next _ => exact absurd rfl hrun
      next r8 rax' rsi' hconvert =>
        obtain ⟨digits, rest, next, rfl, hdigits, _, hnext⟩ :=
          convertStringToHextet_loose h.noNul (h.loaded 8) (by omega) hconvert
        rw [if_neg (Nat.succ_ne_zero n), ih (hnext.textAt h)] at hrun
        have hlength := hrun.le_length
        have hne : next ≠ [] := by
          rintro rfl
          rw [List.length_nil] at hlength
          omega
        rw [hnext.eq_colon hne]
        exact .hextet hdigits hrun
    · intro htakes
      cases htakes with
      | @hextet _ digits next hdigits hrest =>
        have hnext := GoesOn.colon (p := rsi + digits.length) next
        obtain ⟨r8, rax', hconvert, _, _⟩ := convertStringToHextet_of_loose
          (if n + 1 + 1 = 2 then 0 else rax) (h.loaded 8) (by omega) hdigits hnext
        rw [shorthandLoop, hconvert]
        dsimp only
        rw [if_neg (Nat.succ_ne_zero n), ih (hnext.textAt h)]
        exact hrest

/-- **The first hextet behind `::`**, where `rsi` points to the second colon. -/
theorem shorthandLoop_takesShorthand {mem : Mem} {n rax rsi : Nat} {text : List UInt8}
    (h : TextAt mem rsi (COLON :: text)) (hne : text ≠ []) (hn : n ≠ 1) :
    shorthandLoop mem (n + 1) rax rsi (orBytes mem 8 rsi 0 0 / 256) ≠ ERROR_CODE ↔
      TakesShorthand (n + 1) text := by
  have hload := (h.loaded 8).shift
  have hnul : 0 ∉ text := fun hmem => h.noNul (List.mem_cons_of_mem _ hmem)
  cases n with
  | zero => exact (shorthandLoop_loose hnul hload (by omega)).trans (takesShorthand_one hne).symm
  | succ n =>
    rw [shorthandLoop]
    constructor
    · intro hrun
      split at hrun
      next _ => exact absurd rfl hrun
      next r8 rax' rsi' hconvert =>
        obtain ⟨digits, rest, next, rfl, hdigits, hlow, hnext⟩ :=
          convertStringToHextet_loose hnul hload (by omega) hconvert
        rw [if_neg (Nat.succ_ne_zero n)] at hrun
        cases hnext with
        | ends =>
          -- the last digit is read again, and is no text of so many hextets
          obtain hnil | ⟨front, last, rfl⟩ := List.eq_nil_or_concat digits
          · rw [hnil] at hdigits
            exact absurd hdigits.pos (Nat.lt_irrefl 0)
          · rw [List.append_nil, List.concat_eq_append, ← List.cons_append] at h
            rw [List.concat_eq_append, List.length_append, List.length_singleton] at hrun
            have hlength := ((shorthandLoop_takesRest h.drop).mp hrun).le_length
            rw [List.length_singleton] at hlength
            omega
        | colon =>
          rw [← List.cons_append] at h
          have hcolon := h.drop
          rw [List.length_cons, ← Nat.add_assoc] at hcolon
          exact .hextet hdigits ((shorthandLoop_takesRest hcolon).mp hrun)
    · intro htakes
      cases htakes with
      | nothing => exact absurd rfl hne
      | @hextet _ digits next hdigits hrest =>
        have hnext := GoesOn.colon (p := rsi + digits.length) next
        obtain ⟨r8, rax', hconvert, _, _⟩ := convertStringToHextet_of_loose
          (if n + 1 + 1 = 2 then 0 else rax) hload (by omega) hdigits hnext
        rw [← List.cons_append] at h
        have hcolon := h.drop
        rw [List.length_cons, ← Nat.add_assoc] at hcolon
        rw [hconvert]
        dsimp only
        rw [if_neg (Nat.succ_ne_zero n)]
        exact (shorthandLoop_takesRest hcolon).mpr hrest

theorem processShorthandAddress_takesShorthand {mem : Mem} {cl rax rsi : Nat} {text : List UInt8}
    (h : TextAt mem rsi (COLON :: text)) (hrax : rax % 16 < 15) (hcl : (260 - cl) % 256 ≠ 1) :
    processShorthandAddress mem cl rax rsi (orBytes mem 8 rsi 0 0) ≠ ERROR_CODE ↔
      TakesShorthand ((260 - cl) % 256 + 1) text := by
  have hlow : lowByte (orBytes mem 8 rsi 0 0 / 256) = text.headD 0 := (h.loaded 8).shift.lowByte_eq
  rw [processShorthandAddress, hlow]
  cases text with
  | nil => exact iff_of_true (by rw [List.headD_nil, if_pos rfl]; exact returned_ne hrax) (.nothing _)
  | cons c text =>
    have hc : c ≠ 0 := fun hzero => h.noNul (by simp [hzero])
    rw [List.headD_cons, if_neg hc]
    exact shorthandLoop_takesShorthand h (List.cons_ne_nil c text) hcl

/-! ## The second half -/

theorem zero_ne_error : (0 : Int) ≠ ERROR_CODE := by decide

/-- **The last hextets.** -/
theorem doWhile_takes {mem : Mem} {n : Nat} :
    ∀ {rax rsi : Nat} {text : List UInt8} {st : IPv6Address}, n ≤ 4 → rax % 16 < 15 →
      TextAt mem rsi text → ((doWhile mem n rax rsi st).1 ≠ ERROR_CODE ↔ Takes n text) := by
  induction n with
  | zero => exact fun _ _ _ => iff_of_true zero_ne_error (.done _)
  | succ n ih =>
    intro rax rsi text st hn hrax h
    have hload := h.loaded 8
    have hch : lowByte (orBytes mem 8 rsi 0 0) = text.headD 0 := hload.lowByte_eq
    by_cases hcolon : text.headD 0 = COLON
    · obtain ⟨next, rfl⟩ : ∃ next, text = COLON :: next := by
        cases text with
        | nil => exact absurd hcolon (by decide)
        | cons c next => exact ⟨next, by rw [show c = COLON from hcolon]⟩
      have hcount : (260 - (8 - (n + 1))) % 256 + 1 = shorthandHextets n := by
        unfold shorthandHextets
        split <;> omega
      rw [doWhile]
      simp only [hch, List.headD_cons, if_true]
      rw [processShorthandAddress_takesShorthand h hrax (by omega), hcount]
      constructor
      · exact .shorthand
      · intro htakes
        generalize htext : COLON :: next = text at htakes
        cases htakes with
        | shorthand hshorthand =>
          cases htext
          exact hshorthand
        | hextet hdigits _ _ =>
          obtain ⟨c, more, rfl, hc, _⟩ := hdigits.exists_cons
          cases htext
          exact absurd rfl hc.ne_colon
    · constructor
      · intro hrun
        rw [doWhile] at hrun
        simp only [hch, if_neg hcolon] at hrun
        split at hrun
        next _ => exact absurd rfl hrun
        next r8 rax' rsi' hconvert =>
          obtain ⟨digits, rest, next, rfl, hdigits, rfl, _, hnext⟩ :=
            convertStringToHextet_some h.noNul hcolon hload (by omega) hconvert
          rw [if_neg (by omega),
            ih (by omega) (shifted_mod hdigits.2 hrax) (hnext.textAt h)] at hrun
          exact .hextet hdigits hnext.behind hrun
      · intro htakes
        cases htakes with
        | shorthand _ => exact absurd List.headD_cons hcolon
        | @hextet _ digits rest next hdigits hbehind hrest =>
          obtain ⟨rsi', hnext⟩ := hbehind.goesOn (rsi + digits.length)
          rw [doWhile_succ h hdigits hnext, if_neg (by omega),
            ih (by omega) (shifted_mod hdigits.2 hrax) (hnext.textAt h)]
          exact hrest

/-- Nothing is stored before the end of the second half. -/
theorem doWhile_refused {mem : Mem} {n : Nat} :
    ∀ {rax rsi : Nat} {st : IPv6Address}, n ≤ 4 → (doWhile mem n rax rsi st).1 = ERROR_CODE →
      (doWhile mem n rax rsi st).2 = st := by
  induction n with
  | zero => exact fun _ h => absurd h zero_ne_error
  | succ n ih =>
    intro rax rsi st hn h
    rw [doWhile] at h ⊢
    split
    next _ => rfl
    next hcolon =>
      rw [if_neg hcolon] at h
      split
      next _ => rfl
      next r8 rax' rsi' hconvert =>
        rw [hconvert] at h
        dsimp only at h
        rw [if_neg (by omega)] at h ⊢
        exact ih (by omega) h

/-! ## The first half -/

/-- The eight bytes that four hextets are stored as: all of their digits in a row. -/
def stored (groups : List (List UInt8)) : UInt64 := bswap64 (hexadecimal groups.flatten)

theorem stored_eq {groups : List (List UInt8)} (hlength : groups.length = 4)
    (h : ∀ group ∈ groups, TakenHextet group) :
    bswap64 (shifted 0 groups.flatten) = stored groups := by
  have htaken : ∀ c ∈ groups.flatten, Taken c := by
    intro c hc
    obtain ⟨group, hgroup, hmem⟩ := List.mem_flatten.mp hc
    exact (h group hgroup).2 c hmem
  have hdigits : groups.flatten.length ≤ 16 := by
    match groups, hlength with
    | [g₁, g₂, g₃, g₄], _ =>
      have h₁ := (h g₁ (by simp)).1.le
      have h₂ := (h g₂ (by simp)).1.le
      have h₃ := (h g₃ (by simp)).1.le
      have h₄ := (h g₄ (by simp)).1.le
      simp only [List.flatten_cons, List.flatten_nil, List.length_append, List.length_nil]
      omega
  have hlt : hexadecimal groups.flatten < 2 ^ 64 :=
    Nat.lt_of_lt_of_le (hexadecimal_lt fun c hc => (htaken c hc).1)
      (Nat.pow_le_pow_right (by decide : 0 < 16) hdigits)
  have hshifted := shifted_eq htaken 0
  rw [Nat.zero_mod] at hshifted
  rw [hshifted, stored]
  exact congrArg bswap64 (Nat.mod_eq_of_lt hlt)

theorem Hextets.taken {groups : List (List UInt8)} {text next : List UInt8}
    (h : Hextets groups text next) : ∀ group ∈ groups, TakenHextet group := by
  induction h with
  | nil => exact fun _ hgroup => absurd hgroup List.not_mem_nil
  | cons hdigits _ _ ih => exact List.forall_mem_cons.mpr ⟨hdigits, ih⟩

/-- **Where the first half is complete it is stored**, and the second half is next. -/
theorem doWhile_hextets {mem : Mem} {groups : List (List UInt8)} {text next : List UInt8}
    (hgroups : Hextets groups text next) :
    ∀ {n rax rsi : Nat} {st : IPv6Address}, groups.length = n + 1 → TextAt mem rsi text →
      ∃ rsi', TextAt mem rsi' next ∧ doWhile mem (n + 1 + 4) rax rsi st =
        doWhile mem 4 0 rsi' { st with first := bswap64 (shifted rax groups.flatten) } := by
  induction hgroups with
  | nil =>
    intro n rax rsi st hlength _
    cases hlength
  | @cons digits rest behind next groups hdigits hbehind hgroups ih =>
    intro n rax rsi st hlength h
    obtain ⟨rsi', hnext⟩ := hbehind.goesOn (rsi + digits.length)
    rw [List.length_cons, Nat.add_right_cancel_iff] at hlength
    rw [show n + 1 + 4 = n + 4 + 1 by omega, doWhile_succ h hdigits hnext, List.flatten_cons,
      shifted_append]
    cases n with
    | zero =>
      obtain rfl := List.length_eq_zero_iff.mp hlength
      cases hgroups
      exact ⟨rsi', hnext.textAt h, if_pos rfl⟩
    | succ n =>
      rw [if_neg (by omega)]
      exact ih hlength (hnext.textAt h)

/-- Where it is not, nothing is. -/
theorem doWhile_keeps {mem : Mem} {n : Nat} :
    ∀ {rax rsi : Nat} {text : List UInt8} {st : IPv6Address}, TextAt mem rsi text →
      (¬ ∃ groups next, groups.length = n + 1 ∧ Hextets groups text next) →
      (doWhile mem (n + 1 + 4) rax rsi st).2 = st := by
  induction n with
  | zero =>
    intro rax rsi text st h hnone
    have hload := h.loaded 8
    rw [doWhile]
    split
    next _ => rfl
    next hcolon =>
      split
      next _ => rfl
      next r8 rax' rsi' hconvert =>
        obtain ⟨digits, rest, next, rfl, hdigits, _, _, hnext⟩ := convertStringToHextet_some h.noNul
          (fun hhead => hcolon (hload.lowByte_eq.trans hhead)) hload (by omega) hconvert
        exact absurd ⟨[digits], next, rfl, .cons hdigits hnext.behind (.nil next)⟩ hnone
  | succ n ih =>
    intro rax rsi text st h hnone
    have hload := h.loaded 8
    rw [doWhile]
    split
    next _ => rfl
    next hcolon =>
      split
      next _ => rfl
      next r8 rax' rsi' hconvert =>
        obtain ⟨digits, rest, next, rfl, hdigits, _, _, hnext⟩ := convertStringToHextet_some h.noNul
          (fun hhead => hcolon (hload.lowByte_eq.trans hhead)) hload (by omega) hconvert
        rw [if_neg (by omega)]
        refine ih (hnext.textAt h) ?_
        rintro ⟨groups, behind, hlength, hgroups⟩
        exact hnone ⟨digits :: groups, behind, congrArg (· + 1) hlength,
          .cons hdigits hnext.behind hgroups⟩

/-- The text has a first half that is not there yet, and its second half is refused. -/
def StoresHalf (text : List UInt8) (ipv6Address : IPv6Address) : Prop :=
  ∃ groups next, groups.length = 4 ∧ Hextets groups text next ∧ ¬ Takes 4 next ∧
    ipv6Address.first ≠ stored groups

/-- A refused text leaves the structure as it was, or has stored its first half. -/
theorem initIPv6Address_unchanged_iff {mem : Mem} {p : Nat} {text : List UInt8}
    (h : TextAt mem p text) (ipv6Address : IPv6Address) :
    ((initIPv6Address mem p ipv6Address).1 = ERROR_CODE →
        (initIPv6Address mem p ipv6Address).2 = ipv6Address) ↔
      ¬ StoresHalf text ipv6Address := by
  unfold initIPv6Address
  constructor
  · rintro hkeep ⟨groups, next, hlength, hgroups, hrefused, hne⟩
    obtain ⟨rsi, hnext, hrun⟩ :=
      @doWhile_hextets mem groups text next hgroups 3 0 p ipv6Address hlength h
    rw [stored_eq hlength hgroups.taken] at hrun
    rw [hrun] at hkeep
    have herror : (doWhile mem 4 0 rsi { ipv6Address with first := stored groups }).1 =
        ERROR_CODE := by
      by_contra hne
      exact hrefused ((doWhile_takes (Nat.le_refl 4) (by decide) hnext).mp hne)
    have hfirst := (doWhile_refused (Nat.le_refl 4) herror).symm.trans (hkeep herror)
    exact hne (congrArg IPv6Address.first hfirst).symm
  · intro hno herror
    by_cases hhalf : ∃ groups next, groups.length = 3 + 1 ∧ Hextets groups text next
    · obtain ⟨groups, next, hlength, hgroups⟩ := hhalf
      obtain ⟨rsi, hnext, hrun⟩ :=
        @doWhile_hextets mem groups text next hgroups 3 0 p ipv6Address hlength h
      rw [stored_eq hlength hgroups.taken] at hrun
      rw [hrun] at herror ⊢
      have hrefused : ¬ Takes 4 next := fun htakes =>
        (doWhile_takes (Nat.le_refl 4) (by decide) hnext).mpr htakes herror
      have hsame : ipv6Address.first = stored groups := by
        by_contra hne
        exact hno ⟨groups, next, hlength, hgroups, hrefused, hne⟩
      rw [doWhile_refused (Nat.le_refl 4) herror, ← hsame]
    · exact doWhile_keeps h hhalf

end IPv6

/-! ## Both -/

/-- What a call promises that returns an error code. -/
def Unchanged {α : Type} (before : α) (result : Int × α) : Prop := result.1 = -1 → result.2 = before

/-- An IPv4 address is stored at the end. -/
theorem initIPv4Address_unchanged (mem : Mem) (p : Nat) (ipv4Address : IPv4Address) :
    Unchanged ipv4Address (initIPv4Address mem p ipv4Address) := by
  unfold Unchanged initIPv4Address
  split
  next _ => exact fun _ => rfl
  next _ =>
    split
    next _ => exact fun _ => rfl
    next _ => exact fun herror => absurd herror IPv6.zero_ne_error

/-- **Both structures stay as they were exactly when no first half is stored.** -/
theorem refused_unchanged_iff {mem : Mem} {p : Nat} {text : List UInt8} (h : TextAt mem p text)
    (ipv4Address : IPv4Address) (ipv6Address : IPv6Address) :
    Unchanged ipv4Address (initIPv4Address mem p ipv4Address) ∧
        Unchanged ipv6Address (IPv6.initIPv6Address mem p ipv6Address) ↔
      ¬ IPv6.StoresHalf text ipv6Address := by
  rw [and_iff_right (initIPv4Address_unchanged mem p ipv4Address)]
  exact IPv6.initIPv6Address_unchanged_iff h ipv6Address

/-- The text `1`. -/
theorem refused_unchanged_iff_one :
    Unchanged ⟨0, 0, 0, 0⟩ (initIPv4Address (textMem [0x31]) 0 ⟨0, 0, 0, 0⟩) ∧
        Unchanged ⟨0, 0, 0⟩ (IPv6.initIPv6Address (textMem [0x31]) 0 ⟨0, 0, 0⟩) ↔
      ¬ IPv6.StoresHalf [0x31] ⟨0, 0, 0⟩ :=
  refused_unchanged_iff (textAt_textMem (by decide)) ⟨0, 0, 0, 0⟩ ⟨0, 0, 0⟩

/-- **`1:2:3:4`** is refused, and is in the structure. -/
theorem refused_changed :
    IPv6.initIPv6Address (textMem [0x31, 0x3A, 0x32, 0x3A, 0x33, 0x3A, 0x34]) 0 ⟨0, 0, 0⟩ =
        (-1, ⟨0x3412000000000000, 0, 0⟩) ∧
      ¬ Unchanged ⟨0, 0, 0⟩
        (IPv6.initIPv6Address (textMem [0x31, 0x3A, 0x32, 0x3A, 0x33, 0x3A, 0x34]) 0 ⟨0, 0, 0⟩) := by
  have hrun : IPv6.initIPv6Address (textMem [0x31, 0x3A, 0x32, 0x3A, 0x33, 0x3A, 0x34]) 0 ⟨0, 0, 0⟩ =
      (-1, ⟨0x3412000000000000, 0, 0⟩) := by
    decide +kernel
  refine ⟨hrun, ?_⟩
  rw [hrun]
  exact fun h => absurd (h rfl) (by decide)

end DevopsBroker.Net
