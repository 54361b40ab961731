import DevopsBroker.Lib.Deflate
import Mathlib.Algebra.Order.BigOperators.Group.List

/-!
# Decoding looks at no bit past the end

A stream is handed to the decoder as a function on all positions, together with the number
of bits that belong to it. `FlatReader.on` puts a reader on another stream, and `SameTo` says
that this one has the same bits as far as the first goes. What a reader decodes it then
decodes on the other stream, and ends at the same position there.

- `readNumber_on` and `readSymbol_on` are the two ways to look at bits;
- **`inflate_on`**: a stream may be replaced by any other with the same bits below its end.
-/

namespace DevopsBroker.Lib

/-- The same position of another stream. -/
def FlatReader.on (r : FlatReader) (stream : Nat → Bool) : FlatReader :=
  { r with stream := stream }

namespace Deflate

/-- The other stream has the bits of this one, to its end. -/
def SameTo (r : FlatReader) (stream : Nat → Bool) : Prop :=
  ∀ p < r.total, stream p = r.stream p

theorem SameTo.later {r r' : FlatReader} {stream : Nat → Bool} (h : SameTo r stream)
    (hlater : Later r r') : SameTo r' stream := by
  intro p hp
  rw [hlater.stream]
  exact h p (hlater.total ▸ hp)

section

variable {usable : Usable} {stream : Nat → Bool}

theorem advance_on {r r' : FlatReader} {n : Nat} (h : r.advance n = some r') :
    (r.on stream).advance n = some (r'.on stream) := by
  obtain ⟨hend, rfl⟩ := FlatReader.advance_eq_some.mp h
  exact FlatReader.advance_eq_some.mpr ⟨hend, rfl⟩

/-- The bits that are moved over are the same. -/
theorem ahead_on {r r' : FlatReader} {n : Nat} (hsame : SameTo r stream)
    (h : r.advance n = some r') : ∀ i < n, (r.on stream).ahead i = r.ahead i := by
  intro i hi
  obtain ⟨hend, _⟩ := FlatReader.advance_eq_some.mp h
  exact hsame (r.pos + i) (by omega)

theorem lsbFirst_congr {bit bit' : Nat → Bool} {n : Nat} (h : ∀ i < n, bit' i = bit i) :
    lsbFirst bit' n = lsbFirst bit n := by
  induction n with
  | zero => rfl
  | succ n ih =>
    rw [lsbFirst, lsbFirst, h n (Nat.lt_succ_self n), ih fun i hi => h i (Nat.lt_succ_of_lt hi)]

theorem readNumber_on {n v : Nat} {r r' : FlatReader} (hsame : SameTo r stream)
    (h : readNumber n r = some (v, r')) : readNumber n (r.on stream) = some (v, r'.on stream) := by
  obtain ⟨hadv, rfl⟩ := readNumber_eq_some.mp h
  exact readNumber_eq_some.mpr ⟨advance_on hadv, (lsbFirst_congr (ahead_on hsame hadv)).symm⟩

theorem readSymbol_on {lens : List Nat} {s : Nat} {r r' : FlatReader} (hsame : SameTo r stream)
    (h : readSymbol usable lens r = some (s, r')) :
    readSymbol usable lens (r.on stream) = some (s, r'.on stream) := by
  obtain ⟨hbegins, hadv, husable⟩ := readSymbol_spec h
  have hcode : Begins lens (r.on stream).ahead s :=
    ⟨hbegins.1, (msbFirst_congr (ahead_on hsame hadv)).trans hbegins.2⟩
  exact readSymbol_of_begins (fun _ hl => List.le_sum_of_mem hl) hcode (advance_on hadv) husable

/-! ## The header of a block -/

theorem readCodeLengthCode_on {places : List Nat} :
    ∀ {lens lens' : List Nat} {r r' : FlatReader}, SameTo r stream →
      readCodeLengthCode places lens r = some (lens', r') →
      readCodeLengthCode places lens (r.on stream) = some (lens', r'.on stream) := by
  induction places with
  | nil =>
    intro lens lens' r r' _ h
    obtain ⟨rfl, rfl⟩ := Prod.mk.inj (Option.some.inj h)
    rfl
  | cons place places ih =>
    intro lens lens' r r' hsame h
    obtain ⟨⟨l, r₁⟩, hl, h⟩ := Option.bind_eq_some_iff.mp h
    exact Option.bind_eq_some_iff.mpr
      ⟨_, readNumber_on hsame hl, ih (hsame.later (readNumber_later hl)) h⟩

theorem readCodeLengths_on {code : List Nat} {n : Nat} :
    ∀ (fuel : Nat) {lens lens' : List Nat} {r r' : FlatReader}, SameTo r stream →
      readCodeLengths usable code n fuel lens r = some (lens', r') →
      readCodeLengths usable code n fuel lens (r.on stream) = some (lens', r'.on stream) := by
  intro fuel
  induction fuel with
  | zero => intro lens lens' r r' _ h; exact absurd h (by simp [readCodeLengths])
  | succ fuel ih =>
    intro lens lens' r r' hsame h
    rw [readCodeLengths]
    obtain ⟨hdone, rfl, rfl⟩ | ⟨hlt, s, r₁, hs, hcases⟩ := readCodeLengths_succ h
    · rw [if_pos hdone]
    · rw [if_neg (by omega), if_neg (by omega)]
      refine Option.bind_eq_some_iff.mpr ⟨_, readSymbol_on hsame hs, ?_⟩
      have hsame := hsame.later (readSymbol_later hs)
      dsimp only
      obtain ⟨h15, hrec⟩ | ⟨h16, last, k, r₂, hlast, hk, hrec⟩ | ⟨h17, k, r₂, hk, hrec⟩ |
        ⟨h18, k, r₂, hk, hrec⟩ := hcases
      · rw [if_pos h15]
        exact ih hsame hrec
      · rw [if_neg (by omega), if_pos h16]
        exact Option.bind_eq_some_iff.mpr ⟨last, hlast, Option.bind_eq_some_iff.mpr
          ⟨_, readNumber_on hsame hk, ih (hsame.later (readNumber_later hk)) hrec⟩⟩
      · rw [if_neg (by omega), if_neg (by omega), if_pos h17]
        exact Option.bind_eq_some_iff.mpr
          ⟨_, readNumber_on hsame hk, ih (hsame.later (readNumber_later hk)) hrec⟩
      · rw [if_neg (by omega), if_neg (by omega), if_neg (by omega)]
        exact Option.bind_eq_some_iff.mpr
          ⟨_, readNumber_on hsame hk, ih (hsame.later (readNumber_later hk)) hrec⟩

theorem readCodes_on {codes : List Nat × List Nat} {r r' : FlatReader} (hsame : SameTo r stream)
    (h : readCodes usable r = some (codes, r')) :
    readCodes usable (r.on stream) = some (codes, r'.on stream) := by
  obtain ⟨litlen, dist⟩ := codes
  obtain ⟨hlit, r₁, hdist, r₂, hclen, r₃, code, r₄, lens, h1, h2, h3, h4, h5, h6, rfl, rfl, h7,
    h8⟩ := readCodes_spec h
  have hsame₁ := hsame.later (readNumber_later h1)
  have hsame₂ := hsame₁.later (readNumber_later h2)
  have hsame₃ := hsame₂.later (readNumber_later h3)
  have hsame₄ := hsame₃.later (readCodeLengthCode_later h4)
  unfold readCodes
  refine Option.bind_eq_some_iff.mpr ⟨_, readNumber_on hsame h1, Option.bind_eq_some_iff.mpr
    ⟨_, readNumber_on hsame₁ h2, Option.bind_eq_some_iff.mpr ⟨_, readNumber_on hsame₂ h3,
      Option.bind_eq_some_iff.mpr ⟨_, readCodeLengthCode_on hsame₃ h4, ?_⟩⟩⟩⟩
  dsimp only
  rw [if_pos h5]
  refine Option.bind_eq_some_iff.mpr ⟨_, readCodeLengths_on _ hsame₄ h6, ?_⟩
  dsimp only
  rw [if_pos (Bool.and_eq_true_iff.mpr ⟨h7, h8⟩)]

/-! ## The data of a block -/

theorem readMatch_on {dist : List Nat} {s : Nat} {p : Nat × Nat} {r r' : FlatReader}
    (hsame : SameTo r stream) (h : readMatch usable dist s r = some (p, r')) :
    readMatch usable dist s (r.on stream) = some (p, r'.on stream) := by
  obtain ⟨length, distance⟩ := p
  obtain ⟨base, extra, more, r₁, d, r₂, dbase, dextra, dmore, h1, h2, h3, h4, h5, rfl, rfl⟩ :=
    readMatch_spec h
  have hsame₁ := hsame.later (readNumber_later h2)
  have hsame₂ := hsame₁.later (readSymbol_later h3)
  unfold readMatch
  exact Option.bind_eq_some_iff.mpr ⟨_, h1, Option.bind_eq_some_iff.mpr
    ⟨_, readNumber_on hsame h2, Option.bind_eq_some_iff.mpr ⟨_, readSymbol_on hsame₁ h3,
      Option.bind_eq_some_iff.mpr ⟨_, h4, Option.bind_eq_some_iff.mpr
        ⟨_, readNumber_on hsame₂ h5, rfl⟩⟩⟩⟩⟩

theorem readData_on {litlen dist : List Nat} :
    ∀ (fuel : Nat) {out out' : List UInt8} {r r' : FlatReader}, SameTo r stream →
      readData usable litlen dist fuel out r = some (out', r') →
      readData usable litlen dist fuel out (r.on stream) = some (out', r'.on stream) := by
  intro fuel
  induction fuel with
  | zero => intro out out' r r' _ h; exact absurd h (by simp [readData])
  | succ fuel ih =>
    intro out out' r r' hsame h
    obtain ⟨s, r₁, hs, hcases⟩ := readData_succ h
    have hsame₁ := hsame.later (readSymbol_later hs)
    rw [readData]
    refine Option.bind_eq_some_iff.mpr ⟨_, readSymbol_on hsame hs, ?_⟩
    dsimp only
    obtain ⟨hlit, hrec⟩ | ⟨heob, rfl, rfl⟩ | ⟨hlen, length, distance, r₂, hm, hdist, hrec⟩ := hcases
    · rw [if_pos hlit]
      exact ih hsame₁ hrec
    · rw [if_neg (by omega), if_pos heob]
    · rw [if_neg (by omega), if_neg (by omega)]
      refine Option.bind_eq_some_iff.mpr ⟨_, readMatch_on hsame₁ hm, ?_⟩
      dsimp only
      rw [if_pos hdist]
      exact ih (hsame₁.later (readMatch_later hm)) hrec

theorem readBlocks_on :
    ∀ (fuel : Nat) {out out' : List UInt8} {r r' : FlatReader}, SameTo r stream →
      readBlocks usable fuel out r = some (out', r') →
      readBlocks usable fuel out (r.on stream) = some (out', r'.on stream) := by
  intro fuel
  induction fuel with
  | zero => intro out out' r r' _ h; exact absurd h (by simp [readBlocks])
  | succ fuel ih =>
    intro out out' r r' hsame h
    obtain ⟨final, r₁, r₂, litlen, dist, r₃, out₁, r₄, h1, h2, h3, h4, hcases⟩ := readBlocks_succ h
    have hsame₁ := hsame.later (readNumber_later h1)
    have hsame₂ := hsame₁.later (readNumber_later h2)
    have hsame₃ := hsame₂.later (readCodes_later h3)
    rw [readBlocks]
    refine Option.bind_eq_some_iff.mpr ⟨_, readNumber_on hsame h1, Option.bind_eq_some_iff.mpr
      ⟨_, readNumber_on hsame₁ h2, ?_⟩⟩
    dsimp only
    rw [if_pos rfl]
    refine Option.bind_eq_some_iff.mpr ⟨_, readCodes_on hsame₂ h3, Option.bind_eq_some_iff.mpr
      ⟨_, readData_on _ hsame₃ h4, ?_⟩⟩
    dsimp only
    obtain ⟨hf, rfl, rfl⟩ | ⟨hf, hrec⟩ := hcases
    · rw [if_pos hf]
    · rw [if_neg hf]
      exact ih (hsame₃.later (readData_later _ h4)) hrec

/-- **What a stream stands for depends on no bit past its end.** -/
theorem inflate_on {stream' : Nat → Bool} {total : Nat} {out : List UInt8}
    (hsame : ∀ p < total, stream' p = stream p) (h : inflate usable stream total = some out) :
    inflate usable stream' total = some out := by
  obtain ⟨⟨out', r'⟩, hblocks, rfl⟩ := Option.map_eq_some_iff.mp h
  have hstart : SameTo ⟨stream, total, 0⟩ stream' := hsame
  exact Option.map_eq_some_iff.mpr ⟨_, readBlocks_on _ hstart hblocks, rfl⟩

end

end Deflate

end DevopsBroker.Lib
