import DevopsBroker.Net.IPv4AddressSpec
import DevopsBroker.Net.IPv6StringSpec

/-!
# `net/ip-util.linux-x86_64.asm`: the kind of an address

`detectIPType` looks at five characters of a text, and tells which kind of an address it is by the
first of them that is no decimal digit. **`detectIPType_eq`**: this is right for every text that is an
address, and for every text that one of `initIPv4Address` and `initIPv6Address` accepts.

Mirroring notes vs the assembly:
- Eight characters are loaded at once, also where the text ends before. The memory behind the text is
  there in the model.
- `ah` is the number of characters to go.
-/

namespace DevopsBroker.Net

open DevopsBroker.Lib

namespace IpUtil

open IPv6 (COLON ERROR_CODE)

def DECIMAL : UInt8 := 0x2E
def LOWER_A : Int := 0x61
def LOWER_F : Int := 0x66

/-- `.LWHILE0`. -/
def detectChars : Nat → Nat → Int
  | 0, _ => ERROR_CODE
  | ah + 1, rcx =>
    let cl := lowByte rcx
    if cl = 0 then ERROR_CODE
    else if cl = DECIMAL then 4
    else if cl = COLON then 6
    else
      let cl := cl ||| 0x20
      if signed cl > LOWER_F then ERROR_CODE
      else if signed cl < LOWER_A then detectChars ah (rcx / 256)
      else 6

/-- `a25c96b2_detectIPType`. -/
def detectIPType (mem : Mem) (ipAddress : Nat) : Int := detectChars 5 (orBytes mem 8 ipAddress 0 0)

/-! ## The character that tells -/

/-- A hexadecimal digit that is no decimal one. -/
def IsLetter (c : UInt8) : Prop := IsHex c ∧ ¬ IsDecimal c

instance (c : UInt8) : Decidable (IsLetter c) := inferInstanceAs (Decidable (_ ∧ _))

/-- A character that tells the kind of an address. -/
inductive Tells : UInt8 → Int → Prop where
  | dot : Tells DECIMAL 4
  | colon : Tells COLON 6
  | letter {c : UInt8} (h : IsLetter c) : Tells c 6

/-- A decimal digit tells nothing. -/
theorem digit_passed {c : UInt8} : IsDecimal c → c ≠ 0 ∧ c ≠ DECIMAL ∧ c ≠ COLON ∧
    ¬ signed (c ||| 0x20) > LOWER_F ∧ signed (c ||| 0x20) < LOWER_A := by
  revert c
  apply forall_byte
  decide +kernel

theorem letter_stops {c : UInt8} : IsLetter c → c ≠ 0 ∧ c ≠ DECIMAL ∧ c ≠ COLON ∧
    ¬ signed (c ||| 0x20) > LOWER_F ∧ ¬ signed (c ||| 0x20) < LOWER_A := by
  revert c
  apply forall_byte
  decide +kernel

theorem detectChars_tells {ah rcx m : Nat} {c : UInt8} {text : List UInt8} {kind : Int}
    (hload : Loaded rcx (c :: text) (m + 1)) (h : Tells c kind) : detectChars (ah + 1) rcx = kind := by
  rw [detectChars, hload.lowByte_eq, List.headD_cons]
  cases h with
  | dot => rfl
  | colon => rfl
  | letter h =>
    obtain ⟨hnul, hdot, hcolon, hle, hge⟩ := letter_stops h
    simp only [hnul, hdot, hcolon, hle, hge, if_false]

/-- **The digits are passed**, as far as five characters and the register go. -/
theorem detectChars_digits {digits : List UInt8} :
    ∀ {ah rcx m : Nat} {c : UInt8} {text : List UInt8} {kind : Int},
      Loaded rcx (digits ++ c :: text) m → (∀ d ∈ digits, IsDecimal d) → digits.length < ah →
      digits.length < m → Tells c kind → detectChars ah rcx = kind := by
  induction digits with
  | nil =>
    intro ah rcx m c text kind hload _ hah hm h
    obtain ⟨ah, rfl⟩ := Nat.exists_eq_succ_of_ne_zero (Nat.ne_of_gt hah)
    obtain ⟨m, rfl⟩ := Nat.exists_eq_succ_of_ne_zero (Nat.ne_of_gt hm)
    exact detectChars_tells hload h
  | cons d digits ih =>
    intro ah rcx m c text kind hload hdigits hah hm h
    rw [List.length_cons] at hah hm
    obtain ⟨ah, rfl⟩ := Nat.exists_eq_succ_of_ne_zero (Nat.ne_zero_of_lt hah)
    obtain ⟨m, rfl⟩ := Nat.exists_eq_succ_of_ne_zero (Nat.ne_zero_of_lt hm)
    obtain ⟨hd, hdigits⟩ := List.forall_mem_cons.mp hdigits
    obtain ⟨hnul, hdot, hcolon, hle, hlt⟩ := digit_passed hd
    have hlow : lowByte rcx = d := hload.lowByte_eq
    rw [detectChars, hlow]
    simp only [hnul, hdot, hcolon, hle, hlt, if_false, if_true]
    exact ih hload.shift hdigits (Nat.lt_of_succ_lt_succ hah) (Nat.lt_of_succ_lt_succ hm) h

variable {mem : Mem} {p : Nat}

theorem detectIPType_digits {digits text : List UInt8} {c : UInt8} {kind : Int}
    (h : TextAt mem p (digits ++ c :: text)) (hdigits : ∀ d ∈ digits, IsDecimal d)
    (hle : digits.length ≤ 4) (hc : Tells c kind) : detectIPType mem p = kind :=
  detectChars_digits (h.loaded 8) hdigits (by omega) (by omega) hc

/-- Four octets with dots between them. -/
theorem detectIPType_quad {q : Quad} {tail : List UInt8} (h : TextAt mem p (q.text tail)) :
    detectIPType mem p = 4 := by
  have hfield := q.isField q.first List.mem_cons_self
  exact detectIPType_digits h hfield.decimal (Nat.le_succ_of_le hfield.le) .dot

/-- A hextet, and a colon behind it. -/
theorem detectIPType_hextet {digits text : List UInt8} (h : TextAt mem p (digits ++ COLON :: text))
    (hdigits : IPv6.IsHextet digits) : detectIPType mem p = 6 := by
  cases hfind : digits.find? fun d => decide (¬ IsDecimal d) with
  | none =>
    rw [List.find?_eq_none] at hfind
    exact detectIPType_digits h (fun d hd => by simpa using hfind d hd) hdigits.le .colon
  | some c =>
    -- the first letter tells
    obtain ⟨hc, front, behind, rfl, hfront⟩ := List.find?_eq_some_iff_append.mp hfind
    have hhex := hdigits.hex c (List.mem_append_right _ List.mem_cons_self)
    have hle := hdigits.le
    rw [List.length_append, List.length_cons] at hle
    rw [List.append_assoc, List.cons_append] at h
    exact detectIPType_digits h (fun d hd => by simpa using hfront d hd) (by omega)
      (.letter ⟨hhex, of_decide_eq_true hc⟩)

theorem detectIPType_colon {text : List UInt8} (h : TextAt mem p (COLON :: text)) :
    detectIPType mem p = 6 :=
  @detectIPType_digits mem p [] text COLON 6 h (fun _ hd => absurd hd List.not_mem_nil) (Nat.zero_le 4)
    .colon

/-! ## Addresses -/

/-- An IPv6 address in hexadecimal groups, in full or shortened. -/
theorem detectIPType_readsAs {text : List UInt8} {groups : List Nat} (h : TextAt mem p text)
    (hreads : IPv6.ReadsAs text groups) : detectIPType mem p = 6 := by
  cases hreads with
  | full hfull =>
    obtain ⟨hlength, hhextets, rfl⟩ := hfull
    rename_i hextets
    match hextets, hlength with
    | first :: second :: hextets, _ =>
      rw [List.intercalate_cons_cons, List.append_assoc, List.singleton_append] at h
      exact detectIPType_hextet h (hhextets first List.mem_cons_self)
  | @shortened left right hhextets hlt =>
    match left with
    | [] =>
      simp only [List.intercalate_nil, List.nil_append, List.cons_append] at h
      exact detectIPType_colon h
    | [first] =>
      simp only [List.intercalate_singleton, List.append_assoc, List.cons_append] at h
      exact detectIPType_hextet h (hhextets first (List.mem_append_left _ List.mem_cons_self))
    | first :: second :: left =>
      simp only [List.intercalate_cons_cons, List.append_assoc, List.singleton_append] at h
      exact detectIPType_hextet h (hhextets first (List.mem_append_left _ List.mem_cons_self))

/-- Nothing is not accepted. -/
theorem doWhile_nil {n rax : Nat} {st : IPv6Address} (h : TextAt mem p []) :
    (IPv6.doWhile mem (n + 1) rax p st).1 = ERROR_CODE := by
  have hlow : lowByte (orBytes mem 8 p 0 0) = 0 := (h.loaded 8).lowByte_eq
  have hnone : IPv6.hexDigit 0 = none := by decide
  rw [IPv6.doWhile, IPv6.convertStringToHextet, hlow]
  simp only [hnone, Option.bind_eq_bind, Option.bind_none]
  rfl

/-- A text that `initIPv6Address` accepts. -/
theorem detectIPType_accepted {text : List UInt8} {ipv6Address : IPv6Address} (h : TextAt mem p text)
    (haccepted : (IPv6.initIPv6Address mem p ipv6Address).1 ≠ ERROR_CODE) : detectIPType mem p = 6 := by
  have hload := h.loaded 8
  have hch : lowByte (orBytes mem 8 p 0 0) = text.headD 0 := hload.lowByte_eq
  rw [IPv6.initIPv6Address, IPv6.doWhile] at haccepted
  by_cases hcolon : text.headD 0 = COLON
  · obtain ⟨next, rfl⟩ : ∃ next, text = COLON :: next := by
      cases text with
      | nil => exact absurd hcolon (by decide)
      | cons c next => exact ⟨next, by rw [show c = COLON from hcolon]⟩
    exact detectIPType_colon h
  · simp only [hch, if_neg hcolon] at haccepted
    split at haccepted
    next _ => exact absurd rfl haccepted
    next r8 rax rsi hconvert =>
      obtain ⟨digits, rest, next, rfl, hdigits, _, _, hnext⟩ :=
        IPv6.convertStringToHextet_some h.noNul hcolon hload (by decide) hconvert
      rw [if_neg (by decide)] at haccepted
      cases hnext with
      | ends => exact absurd (doWhile_nil h.drop) haccepted
      | colon => exact detectIPType_hextet h hdigits.1

/-- **`detectIPType` is right**: it says 4 where `initIPv4Address` accepts the text or should, and 6
where `initIPv6Address` accepts it or should. -/
theorem detectIPType_eq {text : List UInt8} (h : TextAt mem p text) (ipv4Address : IPv4Address)
    (ipv6Address : IPv6Address) :
    ((initIPv4Address mem p ipv4Address).1 ≠ ERROR_CODE ∨
        (∃ address cidrSuffix, IsIPv4 text address cidrSuffix) → detectIPType mem p = 4) ∧
      ((IPv6.initIPv6Address mem p ipv6Address).1 ≠ ERROR_CODE ∨ (∃ groups, IPv6.ReadsAs text groups) →
        detectIPType mem p = 6) := by
  constructor
  · rintro (haccepted | ⟨_, _, q, tail, rfl, _⟩)
    · rcases initIPv4Address_cases h ipv4Address with hrefused | ⟨q, tail, rfl, _⟩
      · exact absurd (congrArg Prod.fst hrefused) haccepted
      · exact detectIPType_quad h
    · exact detectIPType_quad h
  · rintro (haccepted | ⟨_, hreads⟩)
    · exact detectIPType_accepted h haccepted
    · exact detectIPType_readsAs h hreads

theorem detectIPType_eq_privateNetwork :
    ((initIPv4Address (textMem privateNetwork) 0 ⟨0, 0, 0, 0⟩).1 ≠ ERROR_CODE ∨
        (∃ address cidrSuffix, IsIPv4 privateNetwork address cidrSuffix) →
        detectIPType (textMem privateNetwork) 0 = 4) ∧
      ((IPv6.initIPv6Address (textMem privateNetwork) 0 ⟨0, 0, 0⟩).1 ≠ ERROR_CODE ∨
        (∃ groups, IPv6.ReadsAs privateNetwork groups) → detectIPType (textMem privateNetwork) 0 = 6) :=
  detectIPType_eq (textAt_textMem (by decide)) ⟨0, 0, 0, 0⟩ ⟨0, 0, 0⟩

end IpUtil

end DevopsBroker.Net
