import DevopsBroker.Cgi.HttpRequestSpec
import DevopsBroker.Lib.PercentEncoding

/-!
# Decoding an encoding

`urldecode` takes the first digit of an escape for a decimal one, and the second for a decimal or
an upper-case one. **`urldecode_decodes_iff`**: whatever encoding of a byte string it is given, it
gives the string back exactly when the digits of all escapes are of that kind.
-/

namespace DevopsBroker.Cgi

open DevopsBroker.Lib

/-- The byte that `urldecode` makes of a piece. -/
def decoded : Piece → UInt8
  | .plain c => c
  | .plus => SPACE
  | .escape first second => percentEncoded first second

/-! ## Escapes -/

/-- A first digit that is a letter is `0x70` too high. -/
theorem first_digit {first : UInt8} : IsHex first →
    (first - 0x30) <<< 4 = UInt8.ofNat (16 * hexValue first) +
      if IsDecimal first then 0 else 0x70 := by
  revert first
  apply forall_byte
  decide +kernel

/-- A second digit that is a lower-case letter is `0x20` too high. -/
theorem second_digit {second : UInt8} : IsHex second →
    secondDigit second = UInt8.ofNat (hexValue second) + if second ≤ 0x46 then 0 else 0x20 := by
  revert second
  apply forall_byte
  decide +kernel

theorem percentEncoded_eq_iff {first second : UInt8} (hfirst : IsHex first) (hsecond : IsHex second) :
    percentEncoded first second = UInt8.ofNat (16 * hexValue first + hexValue second) ↔
      IsDecimal first ∧ second ≤ 0x46 := by
  have hsum (x y e e' : UInt8) : x + e + (y + e') = x + y ↔ e + e' = 0 := by
    constructor <;> grind
  rw [percentEncoded, first_digit hfirst, second_digit hsecond, UInt8.ofNat_add, hsum]
  -- the errors do not add up to zero
  by_cases hdecimal : IsDecimal first <;> by_cases hupper : second ≤ 0x46
  · simp [hdecimal, hupper]
  · simp [hdecimal, hupper]
  · simp [hdecimal, hupper]
  · simp only [hdecimal, hupper, if_false, and_self, iff_false]
    decide

/-! ## Encodings -/

/-- A piece is read as a byte, right or wrong. -/
theorem readsAs_piece {piece : Piece} (hvalid : piece.Valid) (hne : piece.byte ≠ 0) :
    ReadsAs piece.text [decoded piece] := by
  cases piece with
  | plain c => exact ReadsAs.byte hne hvalid.2.2 hvalid.2.1
  | plus => exact fun rest => urldecode_plus rest
  | escape first second => exact fun rest => urldecode_percent first second rest

theorem readsAs_textOf {pieces : List Piece} (hvalid : ∀ piece ∈ pieces, piece.Valid)
    (hne : ∀ piece ∈ pieces, piece.byte ≠ 0) : ReadsAs (textOf pieces) (pieces.map decoded) := by
  induction pieces with
  | nil => exact ReadsAs.nil
  | cons piece pieces ih =>
    obtain ⟨hpiece, hpieces⟩ := List.forall_mem_cons.mp hvalid
    obtain ⟨hfirst, hrest⟩ := List.forall_mem_cons.mp hne
    rw [textOf_cons, List.map_cons]
    exact (readsAs_piece hpiece hfirst).append (ih hpieces hrest)

/-- A piece is read right unless it is an escape with a digit that is not expected. -/
theorem decoded_eq_byte_iff {piece : Piece} (hvalid : piece.Valid) :
    decoded piece = piece.byte ↔
      ∀ first second, piece = .escape first second → IsDecimal first ∧ second ≤ 0x46 := by
  cases piece with
  | plain c => exact ⟨fun _ _ _ h => (nomatch h), fun _ => rfl⟩
  | plus => exact ⟨fun _ _ _ h => (nomatch h), fun _ => rfl⟩
  | escape first second =>
    refine (percentEncoded_eq_iff hvalid.1 hvalid.2).trans ⟨?_, fun h => h first second rfl⟩
    rintro hdigits _ _ ⟨⟩
    exact hdigits

/-- **`urldecode` gives an encoded string back exactly when every escape has a decimal digit first,
and no lower-case letter behind it.** -/
theorem urldecode_decodes_iff {pieces : List Piece} {s : List UInt8} (hnul : 0 ∉ s)
    (h : Encodes pieces s) :
    urldecode (textOf pieces ++ [0]) = some (s ++ [0]) ↔
      ∀ first second, .escape first second ∈ pieces → IsDecimal first ∧ second ≤ 0x46 := by
  have hread := readsAs_textOf h.valid (fun _ => h.ne_zero hnul) [0]
  have hend : urldecode [0] = some [0] := rfl
  rw [hread, hend, Option.map_some, Option.some_inj, List.append_left_inj, ← h.bytes,
    List.map_inj_left]
  constructor
  · intro hright first second hmem
    exact (decoded_eq_byte_iff (h.valid _ hmem)).mp (hright _ hmem) first second rfl
  · intro hdigits piece hmem
    refine (decoded_eq_byte_iff (h.valid _ hmem)).mpr ?_
    rintro first second rfl
    exact hdigits first second hmem

/-- `"a%2F+"`. -/
theorem urldecode_decodes_iff_slash :
    urldecode (textOf [.plain 0x61, .escape 0x32 0x46, .plus] ++ [0]) =
        some ([0x61, 0x2F, 0x20] ++ [0]) ↔
      ∀ first second, .escape first second ∈ [Piece.plain 0x61, .escape 0x32 0x46, .plus] →
        IsDecimal first ∧ second ≤ 0x46 :=
  urldecode_decodes_iff (by decide) ⟨by decide, by decide⟩

/-- `"%2f"` is a slash, and is read as an `O`. -/
theorem urldecode_lowerCase :
    (0 : UInt8) ∉ [0x2F] ∧ Encodes [.escape 0x32 0x66] [0x2F] ∧
      urldecode (textOf [.escape 0x32 0x66] ++ [0]) = some [0x4F, 0] ∧
      urldecode (textOf [.escape 0x32 0x66] ++ [0]) ≠ some ([0x2F] ++ [0]) :=
  ⟨by decide, ⟨by decide, by decide⟩, by decide, by decide⟩

end DevopsBroker.Cgi
