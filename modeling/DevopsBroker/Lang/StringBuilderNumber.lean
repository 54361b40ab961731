import DevopsBroker.Lang.IntegerFormatSpec
import DevopsBroker.Lang.StringBuilderRoom

/-!
# `lang/stringbuilder.c`: appending a number

`append_int` and `append_uint` format a number into a string of its own, append this, and free it.
What they append is the number in decimal digits, and it takes as much room as these.

Mirroring notes vs the C source:
- `append_int` frees a string literal for the least number there is: `none`.
- `append_int64` and `append_uint64` are the same with the formatters of 64 bits, and are left out.
- `garbage` is for the buffer of the builder, and `fresh` for the string.
-/

namespace DevopsBroker.Lang

open DevopsBroker.Lib

/-- The string that a formatter returns. -/
def Target.string (target : Target) : Option (List UInt8) :=
  Block.text ⟨target.object.size - target.offset, fun i => target.object.byte (target.offset + i)⟩

namespace StringBuilder

/-- What the functions that append a number have in common. -/
def appendFormatted (garbage : Mem) (b : StringBuilder) (formatted : Option Target) :
    Option StringBuilder := do
  let target ← formatted
  let string ← target.string
  b.appendString garbage string

/-- `c598a24c_append_int`. -/
def appendInt (garbage fresh : Mem) (b : StringBuilder) (signedInt : Int32) : Option StringBuilder :=
  if signedInt = Int32.minValue then none
  else b.appendFormatted garbage (toString_int32 fresh signedInt)

/-- `c598a24c_append_uint`. -/
def appendUint (garbage fresh : Mem) (b : StringBuilder) (unsignedInt : UInt32) :
    Option StringBuilder :=
  b.appendFormatted garbage (toString_uint32 fresh unsignedInt)

end StringBuilder

/-! ## The string of a formatter -/

theorem Target.Shows.string {size : Nat} {text : List UInt8} {target : Target}
    (h : target.Shows size (text ++ [0])) (hnul : 0 ∉ text) : target.string = some text := by
  have hends := h.ends
  have hroom := h.room
  have hbytes := h.bytes
  rw [List.length_append, List.length_singleton] at hends hbytes
  have hsplit : bytesAt (fun i => target.object.byte (target.offset + i)) 0
      (target.object.size - target.offset) =
      text ++ 0 :: bytesAt target.object.byte (target.offset + (text.length + 1))
        (target.object.size - target.offset - (text.length + 1)) := by
    have hshift : bytesAt (fun i => target.object.byte (target.offset + i)) 0
        (target.object.size - target.offset) =
        bytesAt target.object.byte target.offset (target.object.size - target.offset) :=
      bytesAt_inj.mpr fun k _ => by rw [Nat.zero_add]
    have hadd := bytesAt_add target.object.byte (text.length + 1)
      (target.object.size - target.offset - (text.length + 1)) target.offset
    rw [hbytes, Nat.add_sub_cancel' (by omega), List.append_assoc] at hadd
    exact hshift.trans hadd
  have htake : ∀ c ∈ text, decide (c ≠ 0) = true := by
    intro c hc
    exact decide_eq_true fun heq => hnul (heq ▸ hc)
  unfold Target.string Block.text
  rw [hsplit, if_pos (List.mem_append_right _ List.mem_cons_self),
    List.takeWhile_append_of_pos htake]
  simp

/-- The number with its sign, in a buffer that is as large as it takes. -/
theorem writeSigned_string (garbage : Mem) {size value : Nat} {sign : Bool}
    (hsize : size = (signedNumeral sign value).length + 1) (hsmall : size + 15 < 2 ^ 63) :
    ∃ target, (Target.allocate garbage size).bind (writeSigned value sign) = some target ∧
      target.string = some (signedNumeral sign value) := by
  obtain ⟨target₁, halloc, hshows₁⟩ := Target.allocate_shows garbage (by omega : 0 < size) hsmall
  have hnul := signedNumeral_ne_zero sign value
  rw [halloc, Option.bind_some, writeSigned]
  cases sign with
  | false =>
    rw [signedNumeral, if_neg Bool.false_ne_true] at hsize hnul ⊢
    obtain ⟨target, hrun, hshows⟩ := writeDecimal_shows value hshows₁
      (by rw [List.length_singleton]; omega)
    exact ⟨target, by rw [hrun]; rfl, hshows.string hnul⟩
  | true =>
    rw [signedNumeral, if_pos rfl] at hsize hnul ⊢
    rw [List.length_cons] at hsize
    obtain ⟨target₂, hrun, hshows₂⟩ := writeDecimal_shows value hshows₁
      (by rw [List.length_singleton]; omega)
    obtain ⟨target, hput, hshows⟩ := hshows₂.put
      (by rw [List.length_append, List.length_singleton]; omega) 0x2D
    exact ⟨target, by rw [hrun]; exact hput, @Target.Shows.string _ (0x2D :: numeral value) _ hshows hnul⟩

theorem toString_uint32_string (garbage : Mem) (value : UInt32) :
    ∃ target, toString_uint32 garbage value = some target ∧
      target.string = some (numeral value.toNat) := by
  have hsize := getStringSize_uint32_eq value
  have hsmall := (getStringSize_uint32 value).toNat_lt
  have hstring := @writeSigned_string garbage _ value.toNat false hsize (by omega)
  rw [writeSigned_false] at hstring
  exact hstring

theorem toString_int32_string (garbage : Mem) {value : Int32} (hmin : value ≠ Int32.minValue) :
    ∃ target, toString_int32 garbage value = some target ∧
      target.string = some (signedNumeral (decide (value < 0)) value.toInt.natAbs) := by
  have hsize := getStringSize_int32_eq hmin
  have hsmall := (getStringSize_int32 value).toNat_lt
  unfold toString_int32
  rw [if_neg hmin]
  dsimp only
  rw [magnitude_int32 hmin]
  exact writeSigned_string garbage hsize (by omega)

namespace StringBuilder

section

variable (garbage fresh : Mem) {b : StringBuilder} {string : List UInt8}

theorem appendFormatted_exactly (h : b.Within string) {formatted : Option Target} {text : List UInt8}
    (hformatted : ∃ target, formatted = some target ∧ target.string = some text) (hnul : 0 ∉ text)
    (hsmall : b.length + text.length < 2 ^ 30) :
    Exactly (b.length + text.length < room b.size)
      (fun b' => b'.Within (string ++ text) ∧ b'.size = b.size)
      (appendFormatted garbage b formatted) := by
  obtain ⟨target, hformat, hstring⟩ := hformatted
  refine Exactly.bind_some hformat (Exactly.bind_some hstring ?_)
  exact appendString_exactly garbage h hnul hsmall

/-- **A number is appended by its digits.** -/
theorem appendUint_exactly (h : b.Within string) (value : UInt32)
    (hsmall : b.length + (numeral value.toNat).length < 2 ^ 30) :
    Exactly (b.length + (numeral value.toNat).length < room b.size)
      (fun b' => b'.Within (string ++ numeral value.toNat) ∧ b'.size = b.size)
      (appendUint garbage fresh b value) :=
  appendFormatted_exactly garbage h (toString_uint32_string fresh value)
    (signedNumeral_ne_zero false value.toNat) hsmall

theorem appendInt_exactly (h : b.Within string) {value : Int32} (hmin : value ≠ Int32.minValue)
    (hsmall : b.length + (signedNumeral (decide (value < 0)) value.toInt.natAbs).length < 2 ^ 30) :
    Exactly (b.length + (signedNumeral (decide (value < 0)) value.toInt.natAbs).length < room b.size)
      (fun b' => b'.Within (string ++ signedNumeral (decide (value < 0)) value.toInt.natAbs) ∧
        b'.size = b.size)
      (appendInt garbage fresh b value) := by
  rw [appendInt, if_neg hmin]
  exact appendFormatted_exactly garbage h (toString_int32_string fresh hmin)
    (signedNumeral_ne_zero _ _) hsmall

end

end StringBuilder

end DevopsBroker.Lang
