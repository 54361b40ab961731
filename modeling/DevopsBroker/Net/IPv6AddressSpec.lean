import DevopsBroker.Net.IPv6Address

/-!
# Which texts without `::` `initIPv6Address` accepts

`IsIPv6` says what the text of an address is: eight groups of one to four digits with colons
between them. `initIPv6Address` refuses the digit `f`, moves groups together that are
shorter than four digits, does not look behind the eighth group when a colon follows, and
returns what is in `eax` for some texts that start with a colon.
**`initIPv6Address_iff`**: these are the texts it gets wrong, and no others.
-/

namespace DevopsBroker.Net

open DevopsBroker.Lib

namespace IPv6

/-! ## Digits -/

/-- A digit that is taken. -/
def Taken (c : UInt8) : Prop := IsHex c ∧ c ≠ 0x66 ∧ c ≠ 0x46

instance (c : UInt8) : Decidable (Taken c) := inferInstanceAs (Decidable (_ ∧ _))

/-- **Every digit but `f` is taken, and a colon for ten.** -/
theorem hexDigit_eq : ∀ c, hexDigit c =
    if Taken c then some (hexValue c) else if c = COLON then some 10 else none := by
  apply forall_byte
  decide +kernel

theorem Taken.ne_zero {c : UInt8} (h : Taken c) : c ≠ 0 := by
  rintro rfl
  exact absurd h (by decide)

theorem Taken.ne_colon {c : UInt8} (h : Taken c) : c ≠ COLON := by
  rintro rfl
  exact absurd h (by decide)

theorem Taken.hexValue_lt {c : UInt8} : Taken c → hexValue c < 15 := by
  revert c
  apply forall_byte
  decide +kernel

/-- Digits that are shifted in. -/
def shifted (rax : Nat) (digits : List UInt8) : Nat :=
  digits.foldl (fun rax c => shiftIn rax (hexValue c)) rax

@[simp] theorem shifted_cons (rax : Nat) (c : UInt8) (digits : List UInt8) :
    shifted rax (c :: digits) = shifted (shiftIn rax (hexValue c)) digits := List.foldl_cons ..

theorem shifted_append (rax : Nat) (xs ys : List UInt8) :
    shifted rax (xs ++ ys) = shifted (shifted rax xs) ys := List.foldl_append

/-- The register holds the last sixteen digits. -/
theorem shifted_eq {digits : List UInt8} (h : ∀ c ∈ digits, Taken c) :
    ∀ acc, shifted (acc % 2 ^ 64) digits = hexFrom acc digits % 2 ^ 64 := by
  induction digits with
  | nil => exact fun _ => rfl
  | cons c digits ih =>
    intro acc
    have hc := (h c List.mem_cons_self).hexValue_lt
    have hstep : shiftIn (acc % 2 ^ 64) (hexValue c) = (16 * acc + hexValue c) % 2 ^ 64 := by
      unfold shiftIn
      omega
    rw [shifted_cons, hstep, ih fun d hd => h d (List.mem_cons_of_mem _ hd), hexFrom_cons]

/-! ## Hextets -/

/-- How a text goes on behind a hextet that ends at an address: it ends, or a colon is
skipped. -/
inductive GoesOn (p : Nat) : List UInt8 → Nat → List UInt8 → Prop where
  | ends : GoesOn p [] p []
  | colon (rest : List UInt8) : GoesOn p (COLON :: rest) (p + 1) rest

theorem GoesOn.textAt {mem : Mem} {p rsi : Nat} {digits rest next : List UInt8}
    (h : TextAt mem p (digits ++ rest)) (hnext : GoesOn (p + digits.length) rest rsi next) :
    TextAt mem rsi next := by
  cases hnext with
  | ends => exact h.drop
  | colon =>
    have hrest := h.drop
    rw [← List.singleton_append] at hrest
    exact hrest.drop

theorem hextetChars_nul {r8 : Nat} (h : lowByte r8 = 0) (ch rax rsi : Nat) :
    hextetChars ch r8 rax rsi = some (r8, rax, rsi) := by
  cases ch <;> rw [hextetChars, if_pos h]

theorem hextetChars_colon {r8 : Nat} (h : lowByte r8 = COLON) (ch rax rsi : Nat) :
    hextetChars ch r8 rax rsi = some (r8, rax, rsi + 1) := by
  have hnul : lowByte r8 ≠ 0 := by
    rw [h]
    decide
  cases ch <;> rw [hextetChars, if_neg hnul, if_pos h]

/-- A character that goes into the register. -/
theorem hexDigit_some {c : UInt8} {digit : Nat} (hcolon : c ≠ COLON) (h : hexDigit c = some digit) :
    Taken c ∧ digit = hexValue c := by
  rw [hexDigit_eq, if_neg hcolon] at h
  split at h
  next htaken => exact ⟨htaken, (Option.some.inj h).symm⟩
  next _ => cases h

/-- **A hextet ends with the text or with a colon.** -/
theorem hextetChars_some {ch : Nat} :
    ∀ {r8 rax rsi m : Nat} {text : List UInt8} {r8' rax' rsi' : Nat}, 0 ∉ text → Loaded r8 text m →
      ch < m → hextetChars ch r8 rax rsi = some (r8', rax', rsi') →
      ∃ digits rest next, text = digits ++ rest ∧ (∀ c ∈ digits, Taken c) ∧ digits.length ≤ ch ∧
        rax' = shifted rax digits ∧ lowByte r8' = rest.headD 0 ∧
        GoesOn (rsi + digits.length) rest rsi' next := by
  have hnone {digits : List UInt8} : digits = [] → ∀ c ∈ digits, Taken c := by
    rintro rfl c hc
    exact absurd hc List.not_mem_nil
  induction ch with
  | zero =>
    intro r8 rax rsi m text r8' rax' rsi' hnul hload hroom hrun
    obtain ⟨k, rfl⟩ : ∃ k, m = k + 1 := ⟨m - 1, by omega⟩
    have hch := hload.lowByte_eq
    cases text with
    | nil =>
      rw [hextetChars_nul hch] at hrun
      cases hrun
      exact ⟨[], [], [], rfl, hnone rfl, Nat.le_refl 0, rfl, hch, .ends⟩
    | cons c text =>
      by_cases hcolon : c = COLON
      · rw [hextetChars_colon (hch.trans hcolon)] at hrun
        cases hrun
        rw [hcolon]
        exact ⟨[], _, text, rfl, hnone rfl, Nat.le_refl 0, rfl, hch.trans hcolon, .colon text⟩
      · rw [List.headD_cons] at hch
        rw [hextetChars, hch, if_neg fun hzero => hnul (by simp [hzero]), if_neg hcolon] at hrun
        cases hrun
  | succ ch ih =>
    intro r8 rax rsi m text r8' rax' rsi' hnul hload hroom hrun
    obtain ⟨k, rfl⟩ : ∃ k, m = k + 1 := ⟨m - 1, by omega⟩
    have hch := hload.lowByte_eq
    cases text with
    | nil =>
      rw [hextetChars_nul hch] at hrun
      cases hrun
      exact ⟨[], [], [], rfl, hnone rfl, Nat.zero_le _, rfl, hch, .ends⟩
    | cons c text =>
      by_cases hcolon : c = COLON
      · rw [hextetChars_colon (hch.trans hcolon)] at hrun
        cases hrun
        rw [hcolon]
        exact ⟨[], _, text, rfl, hnone rfl, Nat.zero_le _, rfl, hch.trans hcolon, .colon text⟩
      · rw [List.headD_cons] at hch
        rw [hextetChars, hch, if_neg fun hzero => hnul (by simp [hzero]), if_neg hcolon] at hrun
        obtain ⟨digit, hdigit, hrun⟩ := Option.bind_eq_some_iff.mp hrun
        obtain ⟨htaken, rfl⟩ := hexDigit_some hcolon hdigit
        obtain ⟨digits, rest, next, rfl, hdigits, hle, rfl, hlow, hnext⟩ :=
          ih (fun hmem => hnul (List.mem_cons_of_mem _ hmem)) hload.shift (by omega) hrun
        refine ⟨c :: digits, rest, next, rfl, List.forall_mem_cons.mpr ⟨htaken, hdigits⟩,
          Nat.succ_le_succ hle, rfl, hlow, ?_⟩
        rw [List.length_cons, show rsi + (digits.length + 1) = rsi + 1 + digits.length by omega]
        exact hnext

theorem hextetChars_eq {ch : Nat} :
    ∀ {r8 rsi m : Nat} {digits rest next : List UInt8} {rsi' : Nat} (rax : Nat),
      Loaded r8 (digits ++ rest) m → ch < m → (∀ c ∈ digits, Taken c) → digits.length ≤ ch →
      GoesOn (rsi + digits.length) rest rsi' next →
      ∃ r8', hextetChars ch r8 rax rsi = some (r8', shifted rax digits, rsi') ∧
        lowByte r8' = rest.headD 0 := by
  have hend {ch r8 rsi m : Nat} {rest next : List UInt8} {rsi' : Nat} (rax : Nat)
      (hload : Loaded r8 rest m) (hroom : ch < m) (hnext : GoesOn (rsi + 0) rest rsi' next) :
      ∃ r8', hextetChars ch r8 rax rsi = some (r8', rax, rsi') ∧ lowByte r8' = rest.headD 0 := by
    obtain ⟨k, rfl⟩ : ∃ k, m = k + 1 := ⟨m - 1, by omega⟩
    have hch := hload.lowByte_eq
    cases hnext with
    | ends => exact ⟨r8, hextetChars_nul hch .., hch⟩
    | colon => exact ⟨r8, hextetChars_colon hch .., hch⟩
  induction ch with
  | zero =>
    intro r8 rsi m digits rest next rsi' rax hload hroom _ hle hnext
    obtain rfl := List.length_eq_zero_iff.mp (Nat.le_zero.mp hle)
    exact hend rax hload hroom hnext
  | succ ch ih =>
    intro r8 rsi m digits rest next rsi' rax hload hroom hdigits hle hnext
    cases digits with
    | nil => exact hend rax hload hroom hnext
    | cons c digits =>
      obtain ⟨k, rfl⟩ : ∃ k, m = k + 1 := ⟨m - 1, by omega⟩
      obtain ⟨hc, hdigits⟩ := List.forall_mem_cons.mp hdigits
      have hch : lowByte r8 = c := hload.lowByte_eq
      rw [List.length_cons] at hle hnext
      rw [hextetChars, hch, if_neg hc.ne_zero, if_neg hc.ne_colon, hexDigit_eq, if_pos hc]
      exact ih (shiftIn rax (hexValue c)) hload.shift (by omega) hdigits
        (Nat.le_of_succ_le_succ hle)
        (by rw [show rsi + 1 + digits.length = rsi + (digits.length + 1) by omega]; exact hnext)

/-- One to four digits. -/
structure IsHextet (digits : List UInt8) : Prop where
  hex : ∀ c ∈ digits, IsHex c
  pos : 0 < digits.length
  le : digits.length ≤ 4

instance (digits : List UInt8) : Decidable (IsHextet digits) :=
  haveI : Decidable (∀ c ∈ digits, IsHex c) := List.decidableBAll _ digits
  decidable_of_iff ((∀ c ∈ digits, IsHex c) ∧ 0 < digits.length ∧ digits.length ≤ 4)
    ⟨fun h => ⟨h.1, h.2.1, h.2.2⟩, fun h => ⟨h.hex, h.pos, h.le⟩⟩

/-- A group of digits that are taken. -/
def TakenHextet (digits : List UInt8) : Prop := IsHextet digits ∧ ∀ c ∈ digits, Taken c

theorem takenHextet_cons {c : UInt8} {digits : List UInt8} (hc : Taken c)
    (hdigits : ∀ c ∈ digits, Taken c) (hle : digits.length ≤ 3) : TakenHextet (c :: digits) :=
  ⟨⟨fun d hd => (List.forall_mem_cons.mpr ⟨hc, hdigits⟩ d hd).1, Nat.succ_pos _,
    Nat.succ_le_succ hle⟩, List.forall_mem_cons.mpr ⟨hc, hdigits⟩⟩

/-- It has a first digit. -/
theorem TakenHextet.exists_cons {digits : List UInt8} (h : TakenHextet digits) :
    ∃ c more, digits = c :: more ∧ Taken c ∧ (∀ d ∈ more, Taken d) ∧ more.length ≤ 3 := by
  obtain ⟨hhextet, htaken⟩ := h
  cases digits with
  | nil => exact absurd hhextet.pos (Nat.lt_irrefl 0)
  | cons c more =>
    obtain ⟨hc, hmore⟩ := List.forall_mem_cons.mp htaken
    exact ⟨c, more, rfl, hc, hmore, Nat.le_of_succ_le_succ hhextet.le⟩

/-- **`convertStringToHextet` takes a hextet**, where no colon comes first. -/
theorem convertStringToHextet_some {r8 rax rsi m : Nat} {text : List UInt8} {r8' rax' rsi' : Nat}
    (hnul : 0 ∉ text) (hcolon : text.headD 0 ≠ COLON) (hload : Loaded r8 text m) (hroom : 5 ≤ m)
    (hrun : convertStringToHextet r8 rax rsi = some (r8', rax', rsi')) :
    ∃ digits rest next, text = digits ++ rest ∧ TakenHextet digits ∧ rax' = shifted rax digits ∧
      lowByte r8' = rest.headD 0 ∧ GoesOn (rsi + digits.length) rest rsi' next := by
  obtain ⟨k, rfl⟩ : ∃ k, m = k + 1 := ⟨m - 1, by omega⟩
  obtain ⟨digit, hdigit, hrun⟩ := Option.bind_eq_some_iff.mp hrun
  rw [hload.lowByte_eq] at hdigit
  obtain ⟨htaken, rfl⟩ := hexDigit_some hcolon hdigit
  cases text with
  | nil => exact absurd htaken (by decide)
  | cons c text =>
    rw [List.headD_cons] at htaken hrun
    obtain ⟨digits, rest, next, rfl, hdigits, hle, rfl, hlow, hnext⟩ :=
      hextetChars_some (fun hmem => hnul (List.mem_cons_of_mem _ hmem)) hload.shift (by omega) hrun
    refine ⟨c :: digits, rest, next, rfl, takenHextet_cons htaken hdigits hle, rfl, hlow, ?_⟩
    rw [List.length_cons, show rsi + (digits.length + 1) = rsi + 1 + digits.length by omega]
    exact hnext

theorem convertStringToHextet_eq {r8 rsi m : Nat} {digits rest next : List UInt8} {rsi' : Nat}
    (rax : Nat) (hload : Loaded r8 (digits ++ rest) m) (hroom : 5 ≤ m) (h : TakenHextet digits)
    (hnext : GoesOn (rsi + digits.length) rest rsi' next) :
    ∃ r8', convertStringToHextet r8 rax rsi = some (r8', shifted rax digits, rsi') ∧
      lowByte r8' = rest.headD 0 := by
  obtain ⟨k, rfl⟩ : ∃ k, m = k + 1 := ⟨m - 1, by omega⟩
  obtain ⟨c, digits, rfl, hc, hdigits, hle⟩ := h.exists_cons
  have hch : lowByte r8 = c := hload.lowByte_eq
  rw [convertStringToHextet, hch, hexDigit_eq, if_pos hc]
  rw [List.length_cons] at hnext
  exact hextetChars_eq (shiftIn rax (hexValue c)) hload.shift (by omega) hdigits hle
    (by rw [show rsi + 1 + digits.length = rsi + (digits.length + 1) by omega]; exact hnext)

/-! ## Eight hextets -/

/-- Behind the last group there is nothing, or a colon. -/
def EndsGroup (tail : List UInt8) : Prop := tail = [] ∨ ∃ rest, tail = COLON :: rest

theorem EndsGroup.goesOn {tail : List UInt8} (h : EndsGroup tail) (p : Nat) :
    ∃ rsi next, GoesOn p tail rsi next := by
  rcases h with rfl | ⟨rest, rfl⟩
  · exact ⟨p, [], .ends⟩
  · exact ⟨p + 1, rest, .colon rest⟩

theorem GoesOn.endsGroup {p rsi : Nat} {tail next : List UInt8} (h : GoesOn p tail rsi next) :
    EndsGroup tail := by
  cases h with
  | ends => exact Or.inl rfl
  | colon => exact Or.inr ⟨_, rfl⟩

/-- Where the text goes on with something, there is a colon. -/
theorem GoesOn.eq_colon {p rsi : Nat} {tail next : List UInt8} (h : GoesOn p tail rsi next)
    (hne : next ≠ []) : tail = COLON :: next := by
  cases h with
  | ends => exact absurd rfl hne
  | colon => rfl

/-- A text of groups is not empty. -/
theorem intercalate_ne_nil {group : List UInt8} {groups : List (List UInt8)} {tail : List UInt8}
    (h : TakenHextet group) : [COLON].intercalate (group :: groups) ++ tail ≠ [] := by
  obtain ⟨c, more, rfl, _⟩ := h.exists_cons
  cases groups <;> simp [List.intercalate_cons_cons]

theorem EndsGroup.not_hex {tail : List UInt8} (h : EndsGroup tail) : ¬ IsHex (tail.headD 0) := by
  rcases h with rfl | ⟨rest, rfl⟩
  · decide
  · rw [List.headD_cons]
    decide

/-- No two colons stand together, nor does one come first. -/
def NoShorthand (text : List UInt8) : Prop :=
  text.headD 0 ≠ COLON ∧ ¬ [COLON, COLON] <:+: text

theorem noShorthand_of_colon {next : List UInt8} (h : ¬ [COLON, COLON] <:+: COLON :: next) :
    NoShorthand next := by
  refine ⟨fun hcolon => h ?_, fun hsub => h (hsub.trans (List.suffix_cons ..).isInfix)⟩
  cases next with
  | nil => exact absurd hcolon (by decide)
  | cons c next =>
    rw [List.headD_cons] at hcolon
    rw [hcolon]
    exact (List.prefix_append [COLON, COLON] next).isInfix

theorem NoShorthand.goesOn {p rsi : Nat} {digits rest next : List UInt8}
    (h : NoShorthand (digits ++ rest)) (hnext : GoesOn p rest rsi next) : NoShorthand next := by
  cases hnext with
  | ends => exact ⟨by decide, fun hsub => by simpa using hsub.length_le⟩
  | colon =>
    exact noShorthand_of_colon fun hsub =>
      h.2 (hsub.trans (List.suffix_append digits _).isInfix)

/-- **One hextet of the text.** -/
theorem doWhile_succ {mem : Mem} {rsi : Nat} {digits rest next : List UInt8} {rsi' : Nat}
    (h : TextAt mem rsi (digits ++ rest)) (htaken : TakenHextet digits)
    (hnext : GoesOn (rsi + digits.length) rest rsi' next) (n rax : Nat) (st : IPv6Address) :
    doWhile mem (n + 1) rax rsi st =
      if n = 4 then doWhile mem n 0 rsi' { st with first := bswap64 (shifted rax digits) }
      else doWhile mem n (shifted rax digits) rsi' st := by
  have hload := h.loaded 8
  obtain ⟨r8, hrun, _⟩ := convertStringToHextet_eq rax hload (by omega) htaken hnext
  obtain ⟨c, digits, rfl, hc, _⟩ := htaken.exists_cons
  have hch : lowByte (orBytes mem 8 rsi 0 0) = c := hload.lowByte_eq
  rw [doWhile]
  simp only [hch, if_neg hc.ne_colon, hrun]

/-- Where it does not fail, there is one. -/
theorem exists_hextet {mem : Mem} {n rax rsi : Nat} {text : List UInt8} {st : IPv6Address}
    (h : TextAt mem rsi text) (hno : NoShorthand text)
    (hrun : (doWhile mem (n + 1) rax rsi st).1 ≠ ERROR_CODE) :
    ∃ digits rest next rsi', text = digits ++ rest ∧ TakenHextet digits ∧
      GoesOn (rsi + digits.length) rest rsi' next := by
  have hload := h.loaded 8
  have hch : lowByte (orBytes mem 8 rsi 0 0) = text.headD 0 := hload.lowByte_eq
  rw [doWhile] at hrun
  simp only [hch, if_neg hno.1] at hrun
  split at hrun
  next _ => exact absurd rfl hrun
  next r8 rax' rsi' hconvert =>
    obtain ⟨digits, rest, next, htext, htaken, _, _, hnext⟩ :=
      convertStringToHextet_some h.noNul hno.1 hload (by omega) hconvert
    exact ⟨digits, rest, next, rsi', htext, htaken, hnext⟩

/-- **Where `doWhile` does not fail, it takes hextets.** -/
theorem doWhile_some {mem : Mem} {n : Nat} :
    ∀ {rax rsi : Nat} {text : List UInt8} {st : IPv6Address}, TextAt mem rsi text →
      NoShorthand text → (doWhile mem (n + 1) rax rsi st).1 ≠ ERROR_CODE →
      ∃ (groups : List (List UInt8)) (tail : List UInt8), groups.length = n + 1 ∧
        (∀ group ∈ groups, TakenHextet group) ∧ text = [COLON].intercalate groups ++ tail ∧
        EndsGroup tail := by
  induction n with
  | zero =>
    intro rax rsi text st h hno hrun
    obtain ⟨digits, rest, next, rsi', rfl, htaken, hnext⟩ := exists_hextet h hno hrun
    refine ⟨[digits], rest, rfl, ?_, by rw [List.intercalate_singleton], hnext.endsGroup⟩
    simpa using htaken
  | succ n ih =>
    intro rax rsi text st h hno hrun
    obtain ⟨digits, rest, next, rsi', rfl, htaken, hnext⟩ := exists_hextet h hno hrun
    have hmore {rax : Nat} {st : IPv6Address}
        (hrun : (doWhile mem (n + 1) rax rsi' st).1 ≠ ERROR_CODE) :=
      ih (hnext.textAt h) (hno.goesOn hnext) hrun
    rw [doWhile_succ h htaken hnext] at hrun
    obtain ⟨groups, tail, hlength, hgroups, htext, htail⟩ :
        ∃ (groups : List (List UInt8)) (tail : List UInt8), groups.length = n + 1 ∧
          (∀ group ∈ groups, TakenHextet group) ∧ next = [COLON].intercalate groups ++ tail ∧
          EndsGroup tail := by
      split at hrun
      next _ => exact hmore hrun
      next _ => exact hmore hrun
    obtain ⟨group, groups, rfl⟩ := List.exists_cons_of_length_eq_add_one hlength
    have hgroup := hgroups group List.mem_cons_self
    refine ⟨digits :: group :: groups, tail, by rw [List.length_cons, hlength],
      List.forall_mem_cons.mpr ⟨htaken, hgroups⟩, ?_, htail⟩
    rw [htext] at hnext
    rw [intercalate_append, hnext.eq_colon (intercalate_ne_nil hgroup)]

/-- The texts of groups, and where the last one ends. -/
theorem doWhile_groups {mem : Mem} {groups : List (List UInt8)} :
    ∀ {rsi : Nat} {text : List UInt8} (n rax : Nat) (st : IPv6Address),
      TextAt mem rsi (groups.flatMap (· ++ [COLON]) ++ text) →
      (∀ group ∈ groups, TakenHextet group) → (4 < n ∨ n + groups.length ≤ 4) →
      ∃ rsi', TextAt mem rsi' text ∧ doWhile mem (n + groups.length) rax rsi st =
        doWhile mem n (shifted rax groups.flatten) rsi' st := by
  induction groups with
  | nil =>
    intro rsi text n rax st h _ _
    exact ⟨rsi, h, rfl⟩
  | cons group groups ih =>
    intro rsi text n rax st h hgroups hfour
    obtain ⟨hgroup, hgroups⟩ := List.forall_mem_cons.mp hgroups
    rw [List.length_cons] at hfour ⊢
    rw [List.flatMap_cons, List.append_assoc, List.append_assoc, List.singleton_append] at h
    have hnext := GoesOn.colon (p := rsi + group.length) (groups.flatMap (· ++ [COLON]) ++ text)
    obtain ⟨rsi', htext, hrun⟩ := ih n (shifted rax group) st (hnext.textAt h) hgroups (by omega)
    refine ⟨rsi', htext, ?_⟩
    rw [show n + (groups.length + 1) = n + groups.length + 1 by omega, doWhile_succ h hgroup hnext,
      if_neg (by omega), hrun, List.flatten_cons, shifted_append]

/-- **Eight hextets**, whatever a colon behind them is followed by. -/
theorem initIPv6Address_eq {mem : Mem} {p : Nat} {groups : List (List UInt8)} {tail : List UInt8}
    (h : TextAt mem p ([COLON].intercalate groups ++ tail)) (hlength : groups.length = 8)
    (hgroups : ∀ group ∈ groups, TakenHextet group) (htail : EndsGroup tail) (st : IPv6Address) :
    initIPv6Address mem p st =
      (0, { st with
        first := bswap64 (shifted 0 (groups.take 4).flatten)
        second := bswap64 (shifted 0 (groups.drop 4).flatten) }) := by
  match groups, hlength with
  | [g₁, g₂, g₃, g₄, g₅, g₆, g₇, g₈], _ =>
    have htext : [COLON].intercalate [g₁, g₂, g₃, g₄, g₅, g₆, g₇, g₈] ++ tail =
        [g₁, g₂, g₃].flatMap (· ++ [COLON]) ++
          (g₄ ++ COLON :: ([g₅, g₆, g₇].flatMap (· ++ [COLON]) ++ (g₈ ++ tail))) := by
      simp [List.intercalate_cons_cons]
    rw [htext] at h
    obtain ⟨p₁, h₁, hrun₁⟩ := doWhile_groups 5 0 st h (fun g hg => hgroups g (by simp at hg ⊢; tauto))
      (Or.inl (by omega))
    have hnext := GoesOn.colon (p := p₁ + g₄.length)
      ([g₅, g₆, g₇].flatMap (· ++ [COLON]) ++ (g₈ ++ tail))
    obtain ⟨p₂, h₂, hrun₂⟩ := doWhile_groups 1 0
      { st with first := bswap64 (shifted (shifted 0 [g₁, g₂, g₃].flatten) g₄) } (hnext.textAt h₁)
      (fun g hg => hgroups g (by simp at hg ⊢; tauto)) (Or.inr (by simp))
    obtain ⟨p₃, next, hend⟩ := htail.goesOn (p₂ + g₈.length)
    refine hrun₁.trans ?_
    rw [doWhile_succ h₁ (hgroups g₄ (by simp)) hnext, if_pos rfl]
    refine hrun₂.trans ?_
    rw [doWhile_succ h₂ (hgroups g₈ (by simp)) hend, if_neg (by omega), doWhile]
    simp [shifted_append]

/-! ## Texts that start with a colon -/

/-- What `eax` holds is no error code when its last digit is no `f`. -/
theorem returned_ne {rax : Nat} (h : rax % 16 < 15) : returned rax ≠ ERROR_CODE := by
  unfold returned ERROR_CODE
  dsimp only
  split <;> omega

/-- The last digit of a hextet. -/
theorem shifted_mod {digits : List UInt8} (htaken : ∀ c ∈ digits, Taken c) :
    ∀ {rax : Nat}, rax % 16 < 15 → shifted rax digits % 16 < 15 := by
  induction digits with
  | nil => exact fun h => h
  | cons c digits ih =>
    intro rax _
    obtain ⟨hc, hdigits⟩ := List.forall_mem_cons.mp htaken
    have hlt := hc.hexValue_lt
    rw [shifted_cons]
    refine ih hdigits ?_
    unfold shiftIn
    omega

/-- **The hextets that are left**: all of them are there, and nothing else. -/
theorem shorthandLoop_ne_iff {mem : Mem} {n : Nat} :
    ∀ {rax rsi : Nat} {text : List UInt8}, TextAt mem rsi text → NoShorthand text →
      (shorthandLoop mem (n + 1) rax rsi (orBytes mem 8 rsi 0 0) ≠ ERROR_CODE ↔
        ∃ groups : List (List UInt8), groups.length = n + 1 ∧
          (∀ group ∈ groups, TakenHextet group) ∧ text = [COLON].intercalate groups) := by
  induction n with
  | zero =>
    intro rax rsi text h hno
    constructor
    · intro hrun
      rw [shorthandLoop] at hrun
      split at hrun
      next _ => exact absurd rfl hrun
      next r8 rax' rsi' hconvert =>
        obtain ⟨digits, rest, next, rfl, htaken, _, hlow, hnext⟩ :=
          convertStringToHextet_some h.noNul hno.1 (h.loaded 8) (by omega) hconvert
        rw [if_pos rfl, shorthandLoop, hlow] at hrun
        refine ⟨[digits], rfl, by simpa using htaken, ?_⟩
        cases hnext with
        | ends => rw [List.append_nil, List.intercalate_singleton]
        | colon =>
          rw [List.headD_cons, if_neg (by decide)] at hrun
          exact absurd rfl hrun
    · rintro ⟨groups, hlength, hgroups, rfl⟩
      obtain ⟨digits, rfl⟩ := List.length_eq_one_iff.mp hlength
      have htaken := hgroups digits List.mem_cons_self
      rw [List.intercalate_singleton, ← List.append_nil digits] at h
      obtain ⟨r8, hconvert, hlow⟩ := convertStringToHextet_eq (if 0 + 1 = 2 then 0 else rax)
        (h.loaded 8) (by omega) htaken .ends
      obtain ⟨c, more, rfl, hc, hmore, _⟩ := htaken.exists_cons
      rw [shorthandLoop, hconvert]
      dsimp only
      rw [if_pos rfl, shorthandLoop, hlow, List.headD_nil, if_pos rfl]
      refine returned_ne ?_
      have hlt := hc.hexValue_lt
      rw [shifted_cons]
      refine shifted_mod hmore ?_
      unfold shiftIn
      omega
  | succ n ih =>
    intro rax rsi text h hno
    constructor
    · intro hrun
      rw [shorthandLoop] at hrun
      split at hrun
      next _ => exact absurd rfl hrun
      next r8 rax' rsi' hconvert =>
        obtain ⟨digits, rest, next, rfl, htaken, _, _, hnext⟩ :=
          convertStringToHextet_some h.noNul hno.1 (h.loaded 8) (by omega) hconvert
        rw [if_neg (Nat.succ_ne_zero n), ih (hnext.textAt h) (hno.goesOn hnext)] at hrun
        obtain ⟨groups, hlength, hgroups, rfl⟩ := hrun
        obtain ⟨group, groups, rfl⟩ := List.exists_cons_of_length_eq_add_one hlength
        refine ⟨digits :: group :: groups, by rw [List.length_cons, hlength],
          List.forall_mem_cons.mpr ⟨htaken, hgroups⟩, ?_⟩
        have hne := @intercalate_ne_nil group groups [] (hgroups group List.mem_cons_self)
        rw [List.append_nil] at hne
        rw [List.intercalate_cons_cons, List.append_assoc, List.singleton_append,
          hnext.eq_colon hne]
    · rintro ⟨groups, hlength, hgroups, rfl⟩
      obtain ⟨digits, groups, rfl⟩ := List.exists_cons_of_length_eq_add_one hlength
      obtain ⟨htaken, hgroups⟩ := List.forall_mem_cons.mp hgroups
      rw [List.length_cons, Nat.add_right_cancel_iff] at hlength
      obtain ⟨group, groups, rfl⟩ := List.exists_cons_of_length_eq_add_one hlength
      rw [List.intercalate_cons_cons, List.append_assoc, List.singleton_append] at h hno
      have hnext := GoesOn.colon (p := rsi + digits.length) ([COLON].intercalate (group :: groups))
      obtain ⟨r8, hconvert, _⟩ := convertStringToHextet_eq (if n + 1 + 1 = 2 then 0 else rax)
        (h.loaded 8) (by omega) htaken hnext
      rw [shorthandLoop, hconvert]
      dsimp only
      rw [if_neg (Nat.succ_ne_zero n), ih (hnext.textAt h) (hno.goesOn hnext)]
      exact ⟨group :: groups, hlength, hgroups, rfl⟩

/-- The second hextet, where the first one ended with a colon that is read again: that colon is
its first digit. -/
theorem shorthandLoop_colon {mem : Mem} {rax rsi : Nat} {text : List UInt8}
    (h : TextAt mem rsi (COLON :: text)) (hno : NoShorthand text) :
    shorthandLoop mem 4 rax rsi (orBytes mem 8 rsi 0 0) ≠ ERROR_CODE ↔
      ∃ group groups, groups.length = 3 ∧ (∀ g ∈ group :: groups, TakenHextet g) ∧
        group.length ≤ 3 ∧ text = [COLON].intercalate (group :: groups) := by
  have hload := h.loaded 8
  have hch : lowByte (orBytes mem 8 rsi 0 0) = COLON := hload.lowByte_eq
  have hbehind : TextAt mem (rsi + 1) text := by
    rw [← List.singleton_append] at h
    exact h.drop
  have hconvert : convertStringToHextet (orBytes mem 8 rsi 0 0) rax rsi =
      hextetChars 3 (orBytes mem 8 rsi 0 0 / 256) (shiftIn rax 10) (rsi + 1) := by
    rw [convertStringToHextet, hch]
    rfl
  rw [shorthandLoop, if_neg (by omega), hconvert]
  constructor
  · intro hrun
    split at hrun
    next _ => exact absurd rfl hrun
    next r8 rax' rsi' hchars =>
      obtain ⟨digits, rest, next, rfl, hdigits, hle, _, _, hnext⟩ :=
        hextetChars_some hbehind.noNul hload.shift (by omega) hchars
      rw [if_neg (by omega), shorthandLoop_ne_iff (hnext.textAt hbehind) (hno.goesOn hnext)] at hrun
      obtain ⟨groups, hlength, hgroups, rfl⟩ := hrun
      obtain ⟨group, groups, rfl⟩ := List.exists_cons_of_length_eq_add_one hlength
      have hne := @intercalate_ne_nil group groups [] (hgroups group List.mem_cons_self)
      rw [List.append_nil] at hne
      obtain rfl := hnext.eq_colon hne
      have htaken : TakenHextet digits := by
        cases digits with
        | nil => exact absurd rfl hno.1
        | cons c digits =>
          obtain ⟨hc, hdigits⟩ := List.forall_mem_cons.mp hdigits
          rw [List.length_cons] at hle
          exact takenHextet_cons hc hdigits (by omega)
      refine ⟨digits, group :: groups, hlength, List.forall_mem_cons.mpr ⟨htaken, hgroups⟩, hle, ?_⟩
      rw [List.intercalate_cons_cons, List.append_assoc, List.singleton_append]
  · rintro ⟨digits, groups, hlength, hgroups, hle, rfl⟩
    obtain ⟨htaken, hgroups⟩ := List.forall_mem_cons.mp hgroups
    obtain ⟨group, groups, rfl⟩ := List.exists_cons_of_length_eq_add_one hlength
    rw [List.intercalate_cons_cons, List.append_assoc, List.singleton_append] at hload hbehind hno
    have hnext := GoesOn.colon (p := rsi + 1 + digits.length)
      ([COLON].intercalate (group :: groups))
    obtain ⟨r8, hchars, _⟩ := hextetChars_eq (shiftIn rax 10) hload.shift
      (show 3 < 7 by omega) htaken.2 hle hnext
    rw [hchars]
    dsimp only
    rw [if_neg (by omega), shorthandLoop_ne_iff (hnext.textAt hbehind) (hno.goesOn hnext)]
    exact ⟨group :: groups, hlength, hgroups, rfl⟩

/-- The texts with a colon in front that are not refused. -/
def Unfinished (text : List UInt8) : Prop :=
  text = [COLON] ∨
    ∃ g₁ g₂ groups, groups.length = 3 ∧ (∀ g ∈ g₁ :: g₂ :: groups, TakenHextet g) ∧
      g₂.length ≤ 3 ∧ text = COLON :: [COLON].intercalate (g₁ :: g₂ :: groups)

/-- Its last digit is no text of four hextets. -/
theorem shorthandLoop_last {mem : Mem} {rax rsi : Nat} {c : UInt8} (h : TextAt mem rsi [c])
    (hc : Taken c) : shorthandLoop mem 4 rax rsi (orBytes mem 8 rsi 0 0) = ERROR_CODE := by
  have hno : NoShorthand [c] :=
    ⟨hc.ne_colon, fun hsub => absurd hsub.length_le (by simp)⟩
  by_contra hne
  obtain ⟨groups, hlength, hgroups, htext⟩ := (shorthandLoop_ne_iff h hno).mp hne
  obtain ⟨group, groups, rfl⟩ := List.exists_cons_of_length_eq_add_one hlength
  obtain ⟨more, groups, rfl⟩ := List.exists_cons_of_length_eq_add_one
    (show groups.length = 2 + 1 by simpa using hlength)
  obtain ⟨d, digits, rfl, _⟩ := (hgroups group List.mem_cons_self).exists_cons
  simp [List.intercalate_cons_cons] at htext

/-- **A colon in front**: for some texts, the register is returned. -/
theorem initIPv6Address_colon {mem : Mem} {p : Nat} {text : List UInt8}
    (h : TextAt mem p (COLON :: text)) (hno : NoShorthand text) (st : IPv6Address) :
    (initIPv6Address mem p st).1 ≠ ERROR_CODE ↔ Unfinished (COLON :: text) := by
  have hload := h.loaded 8
  have hch : lowByte (orBytes mem 8 p 0 0) = COLON := hload.lowByte_eq
  have hnul : 0 ∉ text := fun hmem => h.noNul (List.mem_cons_of_mem _ hmem)
  have hinit : (initIPv6Address mem p st).1 =
      processShorthandAddress mem 0 0 p (orBytes mem 8 p 0 0) := by
    rw [initIPv6Address, doWhile]
    simp only [hch, if_true]
  have hlow : lowByte (orBytes mem 8 p 0 0 / 256) = text.headD 0 := hload.shift.lowByte_eq
  rw [hinit, processShorthandAddress, hlow]
  cases text with
  | nil =>
    rw [List.headD_nil, if_pos rfl]
    exact ⟨fun _ => Or.inl rfl, fun _ => returned_ne (by decide)⟩
  | cons c text =>
    rw [List.headD_cons, if_neg fun hzero => hnul (by simp [hzero]),
      show (260 - 0) % 256 + 1 = 4 + 1 from rfl, shorthandLoop, if_neg (by omega)]
    constructor
    · intro hrun
      split at hrun
      next _ => exact absurd rfl hrun
      next r8 rax' rsi' hconvert =>
        obtain ⟨digits, rest, next, htext, htaken, _, _, hnext⟩ :=
          convertStringToHextet_some hnul hno.1 hload.shift (by omega) hconvert
        rw [htext] at h hno
        rw [if_neg (by omega)] at hrun
        -- the text goes on one character too early
        cases hnext with
        | ends =>
          obtain hnil | ⟨front, last, rfl⟩ := List.eq_nil_or_concat digits
          · rw [hnil] at htaken
            exact absurd htaken.1.pos (Nat.lt_irrefl 0)
          · rw [List.append_nil, List.concat_eq_append, ← List.cons_append] at h
            rw [List.concat_eq_append, List.length_append, List.length_singleton] at hrun
            exact absurd (shorthandLoop_last h.drop (htaken.2 last (by simp))) hrun
        | colon =>
          rw [← List.cons_append] at h
          have hsecond := h.drop
          rw [List.length_cons, ← Nat.add_assoc] at hsecond
          obtain ⟨group, groups, hlength, hgroups, hle, rfl⟩ :=
            (shorthandLoop_colon hsecond (hno.goesOn (GoesOn.colon (p := 0) next))).mp hrun
          refine Or.inr ⟨digits, group, groups, hlength,
            List.forall_mem_cons.mpr ⟨htaken, hgroups⟩, hle, ?_⟩
          rw [htext, List.intercalate_cons_cons, List.append_assoc, List.singleton_append]
    · rintro (hnil | ⟨g₁, g₂, groups, hlength, hgroups, hle, htext⟩)
      · cases hnil
      · obtain ⟨htaken, hgroups⟩ := List.forall_mem_cons.mp hgroups
        have htail := (List.cons.inj htext).2
        rw [List.intercalate_cons_cons, List.append_assoc, List.singleton_append] at htail
        rw [htail] at h hno hload
        have hnext := GoesOn.colon (p := p + g₁.length) ([COLON].intercalate (g₂ :: groups))
        obtain ⟨r8, hconvert, _⟩ := convertStringToHextet_eq 0 hload.shift (by omega) htaken hnext
        rw [hconvert]
        dsimp only
        rw [← List.cons_append] at h
        have hsecond := h.drop
        rw [List.length_cons, ← Nat.add_assoc] at hsecond
        rw [if_neg (by omega), shorthandLoop_colon hsecond (hno.goesOn hnext)]
        exact ⟨g₂, groups, hlength, hgroups, hle, rfl⟩

/-! ## The address -/

/-- The two bytes of a hextet, in network byte order. -/
def hextetBytes (digits : List UInt8) : List UInt8 :=
  [UInt8.ofNat (hexadecimal digits / 256), UInt8.ofNat (hexadecimal digits)]

theorem charsOf_bswap64 (rax : Nat) :
    charsOf 8 (bswap64 rax).toNat = (charsOf 8 rax).reverse := by
  have hlength : (charsOf 8 rax).reverse.length = 8 := by rw [List.length_reverse]; rfl
  have hlt := littleEndian_lt (charsOf 8 rax).reverse
  rw [hlength] at hlt
  rw [bswap64, UInt64.toNat_ofNat', Nat.mod_eq_of_lt (Nat.lt_of_lt_of_eq hlt (by decide)),
    charsOf_littleEndian (Nat.le_of_eq hlength.symm),
    List.take_of_length_le (Nat.le_of_eq hlength)]

/-- A number that its four parts make. -/
theorem charsOf_padded {groups : List (List UInt8)} (hlength : groups.length = 4)
    (h : ∀ group ∈ groups, hexadecimal group < 65536) :
    (charsOf 8 (paddedFrom 4 0 groups)).reverse = groups.flatMap hextetBytes ∧
      paddedFrom 4 0 groups < 256 ^ 8 := by
  match groups, hlength with
  | [g₁, g₂, g₃, g₄], _ =>
    have h₁ := h g₁ (by simp)
    have h₂ := h g₂ (by simp)
    have h₃ := h g₃ (by simp)
    have h₄ := h g₄ (by simp)
    simp only [paddedFrom, List.foldl_cons, List.foldl_nil, charsOf, lowByte, List.reverse_cons,
      List.reverse_nil, List.nil_append, List.cons_append, List.flatMap_cons, List.flatMap_nil,
      hextetBytes, List.append_nil, List.cons.injEq, ← UInt8.toNat_inj, UInt8.toNat_ofNat', and_true]
    omega

/-- Eight characters of a register say all of it. -/
theorem charsOf_injective {x y : Nat} (hx : x < 256 ^ 8) (hy : y < 256 ^ 8)
    (h : charsOf 8 x = charsOf 8 y) : x = y := by
  have hregister {x : Nat} (hx : x < 256 ^ 8) : littleEndian (charsOf 8 x) = x := by
    simp only [charsOf, lowByte, littleEndian_cons, littleEndian_nil, UInt8.toNat_ofNat']
    omega
  rw [← hregister hx, ← hregister hy, h]

/-- **Four hextets are stored right exactly when they are aligned.** -/
theorem charsOf_shifted_iff {groups : List (List UInt8)} (hlength : groups.length = 4)
    (h : ∀ group ∈ groups, TakenHextet group) :
    charsOf 8 (bswap64 (shifted 0 groups.flatten)).toNat = groups.flatMap hextetBytes ↔
      Aligned 4 groups := by
  have hle : ∀ group ∈ groups, group.length ≤ 4 := fun group hg => (h group hg).1.le
  have hvalue : ∀ group ∈ groups, hexadecimal group < 65536 := by
    intro group hg
    have hlt := hexadecimal_lt (h group hg).1.hex
    have hpow : 16 ^ group.length ≤ 16 ^ 4 := Nat.pow_le_pow_right (by omega) (hle group hg)
    omega
  have htaken : ∀ c ∈ groups.flatten, Taken c := by
    intro c hc
    obtain ⟨group, hg, hmem⟩ := List.mem_flatten.mp hc
    exact (h group hg).2 c hmem
  have hdigits : groups.flatten.length ≤ 16 := by
    match groups, hlength with
    | [g₁, g₂, g₃, g₄], _ =>
      have h₁ := hle g₁ (by simp)
      have h₂ := hle g₂ (by simp)
      have h₃ := hle g₃ (by simp)
      have h₄ := hle g₄ (by simp)
      simp only [List.flatten_cons, List.flatten_nil, List.length_append, List.length_nil]
      omega
  have hlt := hexadecimal_lt fun c hc => (htaken c hc).1
  have hpow : 16 ^ groups.flatten.length ≤ 256 ^ 8 :=
    Nat.le_trans (Nat.pow_le_pow_right (by omega) hdigits) (by decide)
  have hshifted : shifted 0 groups.flatten = hexadecimal groups.flatten := by
    have heq := shifted_eq htaken 0
    rw [Nat.zero_mod, ← hexadecimal, Nat.mod_eq_of_lt (by omega)] at heq
    exact heq
  obtain ⟨hbytes, hpadded⟩ := charsOf_padded hlength hvalue
  rw [charsOf_bswap64, hshifted, ← hbytes, ← hexadecimal_flatten_eq_iff hle]
  constructor
  · intro heq
    exact charsOf_injective (Nat.lt_of_lt_of_le hlt hpow) hpadded (List.reverse_injective heq)
  · intro heq
    rw [heq]

/-! ## Which texts are addresses -/

/-- The text of an IPv6 address with nothing left out: eight groups with colons between them. -/
def IsIPv6 (text : List UInt8) (groups : List (List UInt8)) : Prop :=
  groups.length = 8 ∧ (∀ group ∈ groups, IsHextet group) ∧ text = [COLON].intercalate groups

/-- The texts that are misread: addresses with a digit `f`, or with a short group behind one that
is not zero in the same half; eight groups with a colon behind them; and some texts with a colon
in front. -/
def Misread (text : List UInt8) : Prop :=
  (∃ groups, IsIPv6 text groups ∧ (0x66 ∈ text ∨ 0x46 ∈ text ∨
    ¬ (Aligned 4 (groups.take 4) ∧ Aligned 4 (groups.drop 4)))) ∨
  (∃ groups rest, groups.length = 8 ∧ (∀ group ∈ groups, TakenHextet group) ∧
    text = [COLON].intercalate groups ++ COLON :: rest) ∨
  Unfinished text

/-- What the text of an address is for: the call accepts it, and nothing else. -/
def ReadsAddress (text : List UInt8) (result : Int × IPv6Address) : Prop :=
  (result.1 = 0 ↔ ∃ groups, IsIPv6 text groups) ∧
    (∀ groups, IsIPv6 text groups → result.2.address = groups.flatMap hextetBytes) ∧
    ((¬ ∃ groups, IsIPv6 text groups) → result.1 = -1)

/-- Groups start with a digit. -/
theorem intercalate_headD_ne {groups : List (List UInt8)} {tail : List UInt8}
    (hlength : groups.length = 8) (hgroups : ∀ group ∈ groups, IsHextet group) :
    ([COLON].intercalate groups ++ tail).headD 0 ≠ COLON := by
  obtain ⟨group, groups, rfl⟩ := List.exists_cons_of_length_eq_add_one hlength
  obtain ⟨second, groups, rfl⟩ := List.exists_cons_of_length_eq_add_one
    (show groups.length = 6 + 1 by simpa using hlength)
  obtain ⟨hgroup, _⟩ := List.forall_mem_cons.mp hgroups
  cases group with
  | nil => exact absurd hgroup.pos (Nat.lt_irrefl 0)
  | cons c digits =>
    rw [intercalate_append, List.cons_append, List.headD_cons]
    rintro rfl
    exact absurd (hgroup.hex COLON List.mem_cons_self) (by decide)

theorem IsIPv6.headD_ne {text : List UInt8} {groups : List (List UInt8)} (h : IsIPv6 text groups) :
    text.headD 0 ≠ COLON := by
  obtain ⟨hlength, hgroups, rfl⟩ := h
  rw [← List.append_nil ([COLON].intercalate groups)]
  exact intercalate_headD_ne hlength hgroups

/-- The groups of a text that is an address are the only ones that it can be taken for. -/
theorem IsIPv6.groups_eq {groups groups' : List (List UInt8)} {tail : List UInt8}
    (h : IsIPv6 ([COLON].intercalate groups' ++ tail) groups) (hlength : groups'.length = 8)
    (hgroups' : ∀ group ∈ groups', TakenHextet group) (htail : EndsGroup tail) :
    groups' = groups ∧ tail = [] := by
  obtain ⟨hlength', hgroups, htext⟩ := h
  rw [← List.append_nil ([COLON].intercalate groups)] at htext
  exact intercalate_injective (by decide) (hlength.trans hlength'.symm)
    (fun group hg => (hgroups' group hg).1.hex) (fun group hg => (hgroups group hg).hex)
    htail.not_hex (by decide) htext

/-- **The digits of an address are taken exactly when none of them is an `f`.** -/
theorem IsIPv6.taken_iff {text : List UInt8} {groups : List (List UInt8)} (h : IsIPv6 text groups) :
    (∀ group ∈ groups, TakenHextet group) ↔ 0x66 ∉ text ∧ 0x46 ∉ text := by
  obtain ⟨_, hgroups, rfl⟩ := h
  constructor
  · intro htaken
    have hnone {c : UInt8} (hcolon : c ≠ COLON) (hc : ¬ Taken c) :
        c ∉ [COLON].intercalate groups := by
      intro hmem
      obtain ⟨group, hg, hmem⟩ := (eq_or_of_mem_intercalate hmem).resolve_left hcolon
      exact hc ((htaken group hg).2 c hmem)
    exact ⟨hnone (by decide) (by decide), hnone (by decide) (by decide)⟩
  · rintro ⟨hlower, hupper⟩ group hg
    refine ⟨hgroups group hg, fun c hc => ⟨(hgroups group hg).hex c hc, ?_, ?_⟩⟩
    · rintro rfl
      exact hlower (mem_intercalate ⟨group, hg, hc⟩)
    · rintro rfl
      exact hupper (mem_intercalate ⟨group, hg, hc⟩)

/-- **Eight groups are stored right exactly when both halves are aligned.** -/
theorem initIPv6Address_address {mem : Mem} {p : Nat} {groups : List (List UInt8)}
    {tail : List UInt8} (h : TextAt mem p ([COLON].intercalate groups ++ tail))
    (hlength : groups.length = 8) (hgroups : ∀ group ∈ groups, TakenHextet group)
    (htail : EndsGroup tail) (st : IPv6Address) :
    (initIPv6Address mem p st).1 = 0 ∧
      ((initIPv6Address mem p st).2.address = groups.flatMap hextetBytes ↔
        Aligned 4 (groups.take 4) ∧ Aligned 4 (groups.drop 4)) := by
  rw [initIPv6Address_eq h hlength hgroups htail]
  refine ⟨rfl, ?_⟩
  have htake : (groups.take 4).length = 4 := by rw [List.length_take]; omega
  have hdrop : (groups.drop 4).length = 4 := by rw [List.length_drop]; omega
  have hbytes : groups.flatMap hextetBytes =
      (groups.take 4).flatMap hextetBytes ++ (groups.drop 4).flatMap hextetBytes := by
    rw [← List.flatMap_append, List.take_append_drop]
  have height : ((groups.take 4).flatMap hextetBytes).length = 8 := by
    rw [List.length_flatMap, List.sum_eq_card_nsmul _ 2]
    · rw [List.length_map, htake]
      rfl
    · intro n hn
      obtain ⟨group, _, rfl⟩ := List.mem_map.mp hn
      rfl
  rw [← charsOf_shifted_iff htake fun g hg => hgroups g (List.mem_of_mem_take hg),
    ← charsOf_shifted_iff hdrop fun g hg => hgroups g (List.mem_of_mem_drop hg), hbytes]
  constructor
  · intro heq
    exact List.append_inj heq (height.symm ▸ rfl)
  · rintro ⟨hfirst, hsecond⟩
    show charsOf 8 _ ++ charsOf 8 _ = _
    rw [hfirst, hsecond]

/-! ## What `initIPv6Address` returns -/

/-- A text with a colon in front. -/
theorem initIPv6Address_iff_of_colon {mem : Mem} {p : Nat} {text : List UInt8}
    (h : TextAt mem p (COLON :: text)) (hno : NoShorthand text) (st : IPv6Address) :
    ReadsAddress (COLON :: text) (initIPv6Address mem p st) ↔ ¬ Misread (COLON :: text) := by
  have hnone : ¬ ∃ groups, IsIPv6 (COLON :: text) groups :=
    fun ⟨groups, hipv6⟩ => hipv6.headD_ne List.headD_cons
  have hreads : ReadsAddress (COLON :: text) (initIPv6Address mem p st) ↔
      (initIPv6Address mem p st).1 = ERROR_CODE := by
    refine ⟨fun hreads => hreads.2.2 hnone, fun herror => ⟨⟨fun hzero => ?_, fun hipv6 => ?_⟩,
      fun groups hipv6 => absurd ⟨groups, hipv6⟩ hnone, fun _ => herror⟩⟩
    · rw [herror] at hzero
      exact absurd hzero (by decide)
    · exact absurd hipv6 hnone
  have hmisread : Misread (COLON :: text) ↔ Unfinished (COLON :: text) := by
    refine ⟨?_, fun hunfinished => Or.inr (Or.inr hunfinished)⟩
    rintro (⟨groups, hipv6, _⟩ | ⟨groups, rest, hlength, hgroups, htext⟩ | hunfinished)
    · exact absurd ⟨groups, hipv6⟩ hnone
    · have hhead := @intercalate_headD_ne groups (COLON :: rest) hlength
        fun group hg => (hgroups group hg).1
      rw [← htext] at hhead
      exact absurd List.headD_cons hhead
    · exact hunfinished
  rw [hreads, hmisread, ← initIPv6Address_colon h hno st, not_not]

/-- A text with no colon in front. -/
theorem initIPv6Address_iff_of_noShorthand {mem : Mem} {p : Nat} {text : List UInt8}
    (h : TextAt mem p text) (hno : NoShorthand text) (st : IPv6Address) :
    ReadsAddress text (initIPv6Address mem p st) ↔ ¬ Misread text := by
  have hsome (hne : (initIPv6Address mem p st).1 ≠ ERROR_CODE) :
      ∃ (groups : List (List UInt8)) (tail : List UInt8), groups.length = 8 ∧
        (∀ group ∈ groups, TakenHextet group) ∧ text = [COLON].intercalate groups ++ tail ∧
        EndsGroup tail := doWhile_some h hno hne
  have hunfinished : ¬ Unfinished text := by
    rintro (rfl | ⟨_, _, _, _, _, _, rfl⟩)
    · exact hno.1 rfl
    · exact hno.1 List.headD_cons
  constructor
  · rintro ⟨hiff, haddress, _⟩ hmisread
    rcases hmisread with ⟨groups, hipv6, hwrong⟩ | ⟨groups, rest, hlength, hgroups, rfl⟩ | hmisread
    · -- an address: it is accepted, and then its digits are taken
      have hzero := hiff.mpr ⟨groups, hipv6⟩
      obtain ⟨groups', tail, hlength, hgroups, rfl, htail⟩ := hsome (by rw [hzero]; decide)
      obtain ⟨rfl, rfl⟩ := hipv6.groups_eq hlength hgroups htail
      obtain ⟨hlower, hupper⟩ := hipv6.taken_iff.mp hgroups
      rcases hwrong with hmem | hmem | haligned
      · exact hlower hmem
      · exact hupper hmem
      · exact haligned ((initIPv6Address_address h hlength hgroups htail st).2.mp
          (haddress _ hipv6))
    · have htail : EndsGroup (COLON :: rest) := Or.inr ⟨rest, rfl⟩
      obtain ⟨groups', hipv6⟩ := hiff.mp (initIPv6Address_address h hlength hgroups htail st).1
      cases (hipv6.groups_eq hlength hgroups htail).2
    · exact hunfinished hmisread
  · intro hmisread
    have haccept {groups : List (List UInt8)} (hipv6 : IsIPv6 text groups) :
        (initIPv6Address mem p st).1 = 0 ∧
          (initIPv6Address mem p st).2.address = groups.flatMap hextetBytes := by
      have hright : 0x66 ∉ text ∧ 0x46 ∉ text ∧
          Aligned 4 (groups.take 4) ∧ Aligned 4 (groups.drop 4) := by
        by_contra hwrong
        exact hmisread (Or.inl ⟨groups, hipv6, by tauto⟩)
      have hgroups := hipv6.taken_iff.mpr ⟨hright.1, hright.2.1⟩
      obtain ⟨hlength, _, rfl⟩ := hipv6
      rw [← List.append_nil ([COLON].intercalate groups)] at h
      obtain ⟨hzero, haddress⟩ := initIPv6Address_address h hlength hgroups (Or.inl rfl) st
      exact ⟨hzero, haddress.mpr hright.2.2⟩
    have hreject (hne : (initIPv6Address mem p st).1 ≠ ERROR_CODE) :
        ∃ groups, IsIPv6 text groups := by
      obtain ⟨groups, tail, hlength, hgroups, rfl, rfl | ⟨rest, rfl⟩⟩ := hsome hne
      · exact ⟨groups, hlength, fun group hg => (hgroups group hg).1, List.append_nil _⟩
      · exact absurd (Or.inr (Or.inl ⟨groups, rest, hlength, hgroups, rfl⟩)) hmisread
    refine ⟨⟨fun hzero => hreject (by rw [hzero]; decide), fun ⟨_, hipv6⟩ => (haccept hipv6).1⟩,
      fun _ hipv6 => (haccept hipv6).2, fun hnone => ?_⟩
    by_contra hne
    exact hnone (hreject hne)

/-- **`initIPv6Address` reads a text without `::` right exactly when it does not misread it.** -/
theorem initIPv6Address_iff {mem : Mem} {p : Nat} {text : List UInt8} (h : TextAt mem p text)
    (hno : ¬ [0x3A, 0x3A] <:+: text) (st : IPv6Address) :
    ReadsAddress text (initIPv6Address mem p st) ↔ ¬ Misread text := by
  by_cases hcolon : text.headD 0 = COLON
  · cases text with
    | nil => exact absurd hcolon (by decide)
    | cons c text =>
      obtain rfl : c = COLON := hcolon
      exact initIPv6Address_iff_of_colon h (noShorthand_of_colon hno) st
  · exact initIPv6Address_iff_of_noShorthand h ⟨hcolon, hno⟩ st

/-- `1:2:3:4:5:6:7:8`. -/
def countingUp : List (List UInt8) := [[0x31], [0x32], [0x33], [0x34], [0x35], [0x36], [0x37], [0x38]]

theorem initIPv6Address_iff_countingUp :
    ReadsAddress ([COLON].intercalate countingUp)
        (initIPv6Address (textMem ([COLON].intercalate countingUp)) 0 ⟨0, 0, 0⟩) ↔
      ¬ Misread ([COLON].intercalate countingUp) :=
  initIPv6Address_iff (textAt_textMem (by decide)) (by decide) ⟨0, 0, 0⟩

/-- **The digit `f`**: `0:0:0:0:0:0:0:f` is refused. -/
theorem initIPv6Address_refused :
    ¬ ∀ (mem : Mem) (p : Nat) (text : List UInt8) (st : IPv6Address), TextAt mem p text →
      ¬ [0x3A, 0x3A] <:+: text → ReadsAddress text (initIPv6Address mem p st) := by
  intro h
  let groups : List (List UInt8) := [[0x30], [0x30], [0x30], [0x30], [0x30], [0x30], [0x30], [0x66]]
  have hipv6 : IsIPv6 ([COLON].intercalate groups) groups := ⟨rfl, by decide, rfl⟩
  have hread := (h _ 0 _ ⟨0, 0, 0⟩ (@textAt_textMem ([COLON].intercalate groups) (by decide))
    (by decide)).1.mpr ⟨groups, hipv6⟩
  have hcode : (initIPv6Address (textMem ([COLON].intercalate groups)) 0 ⟨0, 0, 0⟩).1 = -1 := by
    decide +kernel
  rw [hcode] at hread
  exact absurd hread (by decide)

end IPv6

end DevopsBroker.Net
