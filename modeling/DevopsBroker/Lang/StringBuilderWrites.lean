import DevopsBroker.Lang.StringBuilderNumber

/-!
# One append after the other

`Writes` says of a function that puts something behind the string of a builder what this is, and that it
does so exactly when there is room. The rules are one for each way to put such functions together, so
that a function that appends many things has the room of all of them as its condition.
-/

namespace DevopsBroker.Lang.StringBuilder

open DevopsBroker.Lib

/-- The function puts a text behind what the builder holds, if and only if there is room for it. -/
structure Writes (append : StringBuilder → Option StringBuilder) (source : List UInt8) : Prop where
  noNul : 0 ∉ source
  exactly : ∀ {b : StringBuilder} {string : List UInt8}, b.Within string → 0 < b.length →
    b.length + source.length < 2 ^ 30 →
    Exactly (b.length + source.length < room b.size)
      (fun b' => b'.Within (string ++ source) ∧ b'.size = b.size) (append b)

namespace Writes

variable {f g : StringBuilder → Option StringBuilder} {source more : List UInt8}

theorem nothing : Writes some [] where
  noNul := List.not_mem_nil
  exactly := by
    intro b string h _ _
    rw [List.append_nil]
    exact (Exactly.some ⟨h, rfl⟩).cond (iff_of_true trivial h.length_lt_room)

theorem string (garbage : Mem) (hnul : 0 ∉ source) :
    Writes (fun b => b.appendString garbage source) source :=
  ⟨hnul, fun h _ hsmall => appendString_exactly garbage h hnul hsmall⟩

theorem char (garbage : Mem) {ch : UInt8} (hch : ch ≠ 0) : Writes (fun b => b.appendChar garbage ch) [ch] :=
  ⟨fun hmem => hch (List.mem_singleton.mp hmem).symm,
    fun h hpos hsmall => appendChar_exactly garbage h ch (fun _ => hpos) hsmall⟩

theorem uint (garbage fresh : Mem) (value : UInt32) :
    Writes (fun b => b.appendUint garbage fresh value) (numeral value.toNat) :=
  ⟨signedNumeral_ne_zero false value.toNat,
    fun h _ hsmall => appendUint_exactly garbage fresh h value hsmall⟩

/-- **One function behind the other.** -/
theorem bind (h : Writes f source) (h' : Writes g more) : Writes (fun b => (f b).bind g) (source ++ more) where
  noNul := fun hmem => (List.mem_append.mp hmem).elim h.noNul h'.noNul
  exactly := by
    intro b string hb hpos hsmall
    rw [List.length_append] at hsmall ⊢
    have hlength := hb.length
    refine ((h.exactly hb hpos (by omega)).bind fun b₁ ⟨hb₁, hsize₁⟩ => ?_).cond
      (P := _ ∧ b.length + (source.length + more.length) < room b.size) ?_
    · have hlength₁ := hb₁.length
      rw [List.length_append, ← hlength] at hlength₁
      rw [← List.append_assoc, ← hsize₁, ← Nat.add_assoc, ← hlength₁]
      exact h'.exactly hb₁ (by omega) (by omega)
    · omega

theorem cond {c : Prop} [Decidable c] (h : c → Writes f source) (h' : ¬ c → Writes g more) :
    Writes (fun b => if c then f b else g b) (if c then source else more) := by
  by_cases hc : c
  · simp only [if_pos hc]
    exact h hc
  · simp only [if_neg hc]
    exact h' hc

end Writes

/-- **A line**: what starts in an empty builder and is written behind it comes out exactly when there is
room for all of it. -/
theorem Writes.line {append : StringBuilder → Option StringBuilder} {head source : List UInt8}
    (h : Writes append source) (garbage garbage' : Mem) {size : UInt32} (hpos : 0 < head.length)
    (hlt : head.length < size.toNat) (hnul : 0 ∉ head)
    (hsmall : size.toNat + source.length < 2 ^ 30) :
    ((initStringBuilder_uint32 garbage size).bind fun b => (b.appendString garbage' head).bind fun b =>
        (append b).bind fun b => b.buffer.text) =
      if head.length + source.length < room size.toNat then some (head ++ source) else none := by
  obtain ⟨b₀, hinit, hb₀, hlength₀, hsize₀⟩ :=
    initStringBuilder_uint32_holds garbage size (by rw [UInt32.le_iff_toNat_le]; exact Nat.one_le_of_lt hlt)
  obtain ⟨b₁, happend, hb₁⟩ := appendString_holds garbage' hb₀ hnul (by omega)
  have hsize₁ := (appendString_some hnul (by omega) happend).2
  rw [List.nil_append] at hb₁
  have hlength₁ := hb₁.length
  have hexactly := h.exactly hb₁.within (by omega) (by omega)
  rw [hsize₁, hsize₀, hlength₁] at hexactly
  rw [hinit, Option.bind_some, happend, Option.bind_some]
  split
  next hroom =>
    obtain ⟨b₂, hrun, hb₂, _⟩ := hexactly.comes hroom
    rw [hrun]
    exact hb₂.text fun hmem => (List.mem_append.mp hmem).elim hnul h.noNul
  next hno => rw [hexactly.fails hno, Option.bind_none]

end DevopsBroker.Lang.StringBuilder
