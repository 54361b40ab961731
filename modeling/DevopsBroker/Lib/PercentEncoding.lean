import DevopsBroker.Lib.Hexadecimal

/-!
# Percent-encodings

A byte string has many encodings: a byte may stand for itself, or be two hexadecimal digits
behind a `%`, in either case; a space may be a `+`. A `%`, a `+` and a space do not stand for
themselves.
-/

namespace DevopsBroker.Lib

/-- How a byte is written. -/
inductive Piece where
  | plain (c : UInt8)
  | plus
  | escape (first second : UInt8)

namespace Piece

/-- The characters. -/
def text : Piece → List UInt8
  | plain c => [c]
  | plus => [0x2B]
  | escape first second => [0x25, first, second]

/-- The byte that is meant. -/
def byte : Piece → UInt8
  | plain c => c
  | plus => 0x20
  | escape first second => UInt8.ofNat (16 * hexValue first + hexValue second)

def Valid : Piece → Prop
  | plain c => c ≠ 0x20 ∧ c ≠ 0x25 ∧ c ≠ 0x2B
  | plus => True
  | escape first second => IsHex first ∧ IsHex second

instance : DecidablePred Valid
  | plain _ => inferInstanceAs (Decidable (_ ∧ _))
  | plus => inferInstanceAs (Decidable True)
  | escape _ _ => inferInstanceAs (Decidable (_ ∧ _))

end Piece

/-- The characters of some pieces. -/
def textOf (pieces : List Piece) : List UInt8 := pieces.flatMap Piece.text

/-- The pieces are an encoding of a byte string. -/
structure Encodes (pieces : List Piece) (s : List UInt8) : Prop where
  valid : ∀ piece ∈ pieces, piece.Valid
  bytes : pieces.map Piece.byte = s

theorem textOf_cons (piece : Piece) (pieces : List Piece) :
    textOf (piece :: pieces) = piece.text ++ textOf pieces := List.flatMap_cons ..

/-- A piece of an encoding without a `NUL` has none. -/
theorem Encodes.ne_zero {pieces : List Piece} {s : List UInt8} (h : Encodes pieces s) (hnul : 0 ∉ s)
    {piece : Piece} (hpiece : piece ∈ pieces) : piece.byte ≠ 0 := by
  intro hzero
  apply hnul
  rw [← h.bytes, ← hzero]
  exact List.mem_map_of_mem hpiece

end DevopsBroker.Lib
