import DevopsBroker.Lib.BitStream
import DevopsBroker.Lib.CanonicalCode

/-!
# Reference decoding of DEFLATE streams

The format of RFC 1951, for streams all of whose blocks carry their own Huffman
codes: a decoder that follows the format description and is defined on any flat
bit stream. Every function fails (`none`) where the format is violated.

The symbol reader takes a predicate `usable` on the symbols of a code and fails on
the others. With all symbols usable it is the reference; with fewer it tells
which streams can be decoded without the rest, and `inflate_mono` says that these
then decode to the same bytes.
-/

namespace DevopsBroker.Lib.Deflate

open DevopsBroker.Lib

/-- Which symbols of a code, given by its lengths, may be used. -/
abbrev Usable := List Nat → Nat → Bool

/-- Every symbol. -/
def allSymbols : Usable := fun _ _ => true

/-- A number of `n` bits, the first bit at the bottom. -/
def readNumber (n : Nat) (r : FlatReader) : Option (Nat × FlatReader) :=
  (r.advance n).map fun r' => (lsbFirst r.ahead n, r')

instance (lens : List Nat) (bit : Nat → Bool) (s : Nat) : Decidable (Begins lens bit s) :=
  inferInstanceAs (Decidable (_ ∧ _))

/-- The symbol whose codeword comes next. -/
def readSymbol (usable : Usable) (lens : List Nat) (r : FlatReader) :
    Option (Nat × FlatReader) := do
  let s ← (List.range lens.length).find? fun s => decide (Begins lens r.ahead s)
  let r' ← r.advance (codeLen lens s)
  if usable lens s then some (s, r') else none

/-! ## The header of a block -/

/-- A code is not over-subscribed. -/
def validCode (lens : List Nat) : Bool := decide (kraftSum 15 lens ≤ 2 ^ 15)

/-- The order in which the lengths of the code length code are stored. -/
def codeLengthOrder : List Nat :=
  [16, 17, 18, 0, 8, 7, 9, 6, 10, 5, 11, 4, 12, 3, 13, 2, 14, 1, 15]

/-- The lengths of the code length code, three bits each, put in their places. -/
def readCodeLengthCode : List Nat → List Nat → FlatReader → Option (List Nat × FlatReader)
  | [], lens, r => some (lens, r)
  | place :: places, lens, r => do
    let (l, r) ← readNumber 3 r
    readCodeLengthCode places (lens.set place l) r

/-- Code lengths until there are `n` of them: a length, or a repetition of the
previous length or of zero, which may not go past the end. -/
def readCodeLengths (usable : Usable) (code : List Nat) (n : Nat) :
    Nat → List Nat → FlatReader → Option (List Nat × FlatReader)
  | 0, _, _ => none
  | fuel + 1, lens, r =>
    if lens.length = n then some (lens, r)
    else if n < lens.length then none
    else do
      let (s, r) ← readSymbol usable code r
      if s ≤ 15 then readCodeLengths usable code n fuel (lens ++ [s]) r
      else if s = 16 then
        let last ← lens.getLast?
        let (k, r) ← readNumber 2 r
        readCodeLengths usable code n fuel (lens ++ List.replicate (k + 3) last) r
      else if s = 17 then
        let (k, r) ← readNumber 3 r
        readCodeLengths usable code n fuel (lens ++ List.replicate (k + 3) 0) r
      else
        let (k, r) ← readNumber 7 r
        readCodeLengths usable code n fuel (lens ++ List.replicate (k + 11) 0) r

/-- The two codes of a block: for literals and lengths, and for distances. -/
def readCodes (usable : Usable) (r : FlatReader) :
    Option ((List Nat × List Nat) × FlatReader) := do
  let (hlit, r) ← readNumber 5 r
  let (hdist, r) ← readNumber 5 r
  let (hclen, r) ← readNumber 4 r
  let (code, r) ← readCodeLengthCode (codeLengthOrder.take (hclen + 4)) (List.replicate 19 0) r
  if validCode code then
    let (lens, r) ←
      readCodeLengths usable code (hlit + 257 + (hdist + 1)) (hlit + hdist + 259) [] r
    let litlen := lens.take (hlit + 257)
    let dist := lens.drop (hlit + 257)
    if validCode litlen && validCode dist then some ((litlen, dist), r) else none
  else none

/-! ## The data of a block -/

/-- Base length and number of extra bits of the length symbols from 257 on. -/
def lengthSymbols : List (Nat × Nat) :=
  [(3, 0), (4, 0), (5, 0), (6, 0), (7, 0), (8, 0), (9, 0), (10, 0), (11, 1), (13, 1), (15, 1),
    (17, 1), (19, 2), (23, 2), (27, 2), (31, 2), (35, 3), (43, 3), (51, 3), (59, 3), (67, 4),
    (83, 4), (99, 4), (115, 4), (131, 5), (163, 5), (195, 5), (227, 5), (258, 0)]

/-- Base distance and number of extra bits of the distance symbols. -/
def distanceSymbols : List (Nat × Nat) :=
  [(1, 0), (2, 0), (3, 0), (4, 0), (5, 1), (7, 1), (9, 2), (13, 2), (17, 3), (25, 3), (33, 4),
    (49, 4), (65, 5), (97, 5), (129, 6), (193, 6), (257, 7), (385, 7), (513, 8), (769, 8),
    (1025, 9), (1537, 9), (2049, 10), (3073, 10), (4097, 11), (6145, 11), (8193, 12), (12289, 12),
    (16385, 13), (24577, 13)]

/-- Append `length` bytes, each the one `distance` bytes back. -/
def copyMatch (distance : Nat) : Nat → List UInt8 → List UInt8
  | 0, out => out
  | length + 1, out =>
    copyMatch distance length (out ++ [out.getD (out.length - distance) 0])

/-- The length and the distance of a match, after its length symbol. -/
def readMatch (usable : Usable) (dist : List Nat) (s : Nat) (r : FlatReader) :
    Option ((Nat × Nat) × FlatReader) := do
  let (base, extra) ← lengthSymbols[s - 257]?
  let (more, r) ← readNumber extra r
  let (d, r) ← readSymbol usable dist r
  let (dbase, dextra) ← distanceSymbols[d]?
  let (dmore, r) ← readNumber dextra r
  some ((base + more, dbase + dmore), r)

/-- The symbols of a block up to its end, appending to `out`. -/
def readData (usable : Usable) (litlen dist : List Nat) :
    Nat → List UInt8 → FlatReader → Option (List UInt8 × FlatReader)
  | 0, _, _ => none
  | fuel + 1, out, r => do
    let (s, r) ← readSymbol usable litlen r
    if s ≤ 255 then readData usable litlen dist fuel (out ++ [UInt8.ofNat s]) r
    else if s = 256 then some (out, r)
    else
      let ((length, distance), r) ← readMatch usable dist s r
      if distance ≤ out.length then
        readData usable litlen dist fuel (copyMatch distance length out) r
      else none

/-- Blocks up to the final one. -/
def readBlocks (usable : Usable) : Nat → List UInt8 → FlatReader → Option (List UInt8 × FlatReader)
  | 0, _, _ => none
  | fuel + 1, out, r => do
    let (final, r) ← readNumber 1 r
    let (type, r) ← readNumber 2 r
    if type = 2 then
      let ((litlen, dist), r) ← readCodes usable r
      let (out, r) ← readData usable litlen dist (r.total + 1) out r
      if final = 1 then some (out, r) else readBlocks usable fuel out r
    else none

/-- The bytes that a stream with dynamic-Huffman blocks only stands for. Every
symbol takes at least a bit, so that the fuel never runs out first. -/
def inflate (usable : Usable) (stream : Nat → Bool) (total : Nat) : Option (List UInt8) :=
  (readBlocks usable (total + 1) [] ⟨stream, total, 0⟩).map fun p => p.1

/-! ## What the readers consume -/

section

variable {usable : Usable}

theorem readNumber_eq_some {n v : Nat} {r r' : FlatReader} :
    readNumber n r = some (v, r') ↔ r.advance n = some r' ∧ v = lsbFirst r.ahead n := by
  unfold readNumber
  cases r.advance n with
  | none => simp
  | some r₁ =>
    simp only [Option.map_some, Option.some.injEq, Prod.mk.injEq]
    exact ⟨fun h => ⟨h.2, h.1.symm⟩, fun h => ⟨h.2.symm, h.1⟩⟩

theorem readSymbol_spec {lens : List Nat} {s : Nat} {r r' : FlatReader}
    (h : readSymbol usable lens r = some (s, r')) :
    Begins lens r.ahead s ∧ r.advance (codeLen lens s) = some r' ∧ usable lens s = true := by
  unfold readSymbol at h
  obtain ⟨t, hfind, h⟩ := Option.bind_eq_some_iff.mp h
  obtain ⟨r₁, hadv, h⟩ := Option.bind_eq_some_iff.mp h
  split at h
  next husable =>
    obtain ⟨rfl, rfl⟩ := Prod.mk.inj (Option.some.inj h)
    exact ⟨by simpa using List.find?_some hfind, hadv, husable⟩
  next => exact absurd h (by simp)

/-- The symbol that is read is the one whose codeword comes next. -/
theorem readSymbol_of_begins {lens : List Nat} {W s : Nat} {r r' : FlatReader}
    (hW : ∀ l ∈ lens, l ≤ W) (h : Begins lens r.ahead s)
    (hadv : r.advance (codeLen lens s) = some r') (husable : usable lens s = true) :
    readSymbol usable lens r = some (s, r') := by
  have hfind : (List.range lens.length).find? (fun s => decide (Begins lens r.ahead s)) = some s := by
    cases hfound : (List.range lens.length).find? (fun s => decide (Begins lens r.ahead s)) with
    | none =>
      have hno := List.find?_eq_none.mp hfound s (List.mem_range.mpr (codeLen_lt h.1))
      exact absurd (decide_eq_true h) hno
    | some t =>
      have ht : Begins lens r.ahead t := by simpa using List.find?_some hfound
      rw [begins_unique hW ht h]
  unfold readSymbol
  rw [hfind]
  simp only [Option.bind_eq_bind, Option.bind_some, hadv, husable, if_true]

/-- `r'` is a later position in the same stream. -/
structure Later (r r' : FlatReader) : Prop where
  stream : r'.stream = r.stream
  total : r'.total = r.total
  pos : r.pos ≤ r'.pos

theorem later_refl (r : FlatReader) : Later r r := ⟨rfl, rfl, Nat.le_refl _⟩

theorem Later.trans {r₁ r₂ r₃ : FlatReader} (h₁ : Later r₁ r₂) (h₂ : Later r₂ r₃) : Later r₁ r₃ :=
  ⟨h₂.stream.trans h₁.stream, h₂.total.trans h₁.total, Nat.le_trans h₁.pos h₂.pos⟩

theorem advance_later {r r' : FlatReader} {n : Nat} (h : r.advance n = some r') : Later r r' := by
  obtain ⟨_, rfl⟩ := FlatReader.advance_eq_some.mp h
  exact ⟨rfl, rfl, Nat.le_add_right _ _⟩

theorem readNumber_later {n v : Nat} {r r' : FlatReader} (h : readNumber n r = some (v, r')) :
    Later r r' := advance_later (readNumber_eq_some.mp h).1

theorem readSymbol_later {lens : List Nat} {s : Nat} {r r' : FlatReader}
    (h : readSymbol usable lens r = some (s, r')) : Later r r' :=
  advance_later (readSymbol_spec h).2.1

/-- The steps of reading a match. -/
theorem readMatch_spec {dist : List Nat} {s length distance : Nat} {r r' : FlatReader}
    (h : readMatch usable dist s r = some ((length, distance), r')) :
    ∃ base extra more r₁ d r₂ dbase dextra dmore,
      lengthSymbols[s - 257]? = some (base, extra) ∧ readNumber extra r = some (more, r₁) ∧
      readSymbol usable dist r₁ = some (d, r₂) ∧ distanceSymbols[d]? = some (dbase, dextra) ∧
      readNumber dextra r₂ = some (dmore, r') ∧ length = base + more ∧
      distance = dbase + dmore := by
  unfold readMatch at h
  obtain ⟨⟨base, extra⟩, hbase, h⟩ := Option.bind_eq_some_iff.mp h
  obtain ⟨⟨more, r₁⟩, hmore, h⟩ := Option.bind_eq_some_iff.mp h
  obtain ⟨⟨d, r₂⟩, hd, h⟩ := Option.bind_eq_some_iff.mp h
  obtain ⟨⟨dbase, dextra⟩, hdbase, h⟩ := Option.bind_eq_some_iff.mp h
  obtain ⟨⟨dmore, r₃⟩, hdmore, h⟩ := Option.bind_eq_some_iff.mp h
  obtain ⟨heq, rfl⟩ := Prod.mk.inj (Option.some.inj h)
  obtain ⟨rfl, rfl⟩ := Prod.mk.inj heq
  exact ⟨base, extra, more, r₁, d, r₂, dbase, dextra, dmore, hbase, hmore, hd, hdbase, hdmore,
    rfl, rfl⟩

theorem readMatch_later {dist : List Nat} {s : Nat} {p : Nat × Nat} {r r' : FlatReader}
    (h : readMatch usable dist s r = some (p, r')) : Later r r' := by
  obtain ⟨_, _, _, r₁, _, r₂, _, _, _, _, hmore, hd, _, hdmore, _⟩ := readMatch_spec h
  exact ((readNumber_later hmore).trans (readSymbol_later hd)).trans (readNumber_later hdmore)

theorem readCodeLengthCode_later {places : List Nat} :
    ∀ {lens lens' : List Nat} {r r' : FlatReader},
      readCodeLengthCode places lens r = some (lens', r') → Later r r' := by
  induction places with
  | nil =>
    intro lens lens' r r' h
    obtain ⟨_, rfl⟩ := Prod.mk.inj (Option.some.inj h)
    exact later_refl r
  | cons place places ih =>
    intro lens lens' r r' h
    obtain ⟨⟨l, r₁⟩, hl, h⟩ := Option.bind_eq_some_iff.mp h
    exact (readNumber_later hl).trans (ih h)

/-- One step of reading code lengths and what follows it. -/
theorem readCodeLengths_succ {code lens lens' : List Nat} {n fuel : Nat} {r r' : FlatReader}
    (h : readCodeLengths usable code n (fuel + 1) lens r = some (lens', r')) :
    (lens.length = n ∧ lens' = lens ∧ r' = r) ∨
    (lens.length < n ∧ ∃ s r₁, readSymbol usable code r = some (s, r₁) ∧
      ((s ≤ 15 ∧ readCodeLengths usable code n fuel (lens ++ [s]) r₁ = some (lens', r')) ∨
       (s = 16 ∧ ∃ last k r₂, lens.getLast? = some last ∧ readNumber 2 r₁ = some (k, r₂) ∧
          readCodeLengths usable code n fuel (lens ++ List.replicate (k + 3) last) r₂
            = some (lens', r')) ∨
       (s = 17 ∧ ∃ k r₂, readNumber 3 r₁ = some (k, r₂) ∧
          readCodeLengths usable code n fuel (lens ++ List.replicate (k + 3) 0) r₂
            = some (lens', r')) ∨
       (17 < s ∧ ∃ k r₂, readNumber 7 r₁ = some (k, r₂) ∧
          readCodeLengths usable code n fuel (lens ++ List.replicate (k + 11) 0) r₂
            = some (lens', r')))) := by
  rw [readCodeLengths] at h
  split at h
  next hdone =>
    obtain ⟨rfl, rfl⟩ := Prod.mk.inj (Option.some.inj h)
    exact Or.inl ⟨hdone, rfl, rfl⟩
  next hdone =>
    split at h
    next => exact absurd h (by simp)
    next hpast =>
      obtain ⟨⟨s, r₁⟩, hs, h⟩ := Option.bind_eq_some_iff.mp h
      refine Or.inr ⟨by omega, s, r₁, hs, ?_⟩
      dsimp only at h
      split at h
      next h15 => exact Or.inl ⟨h15, h⟩
      next h15 =>
        split at h
        next h16 =>
          obtain ⟨last, hlast, h⟩ := Option.bind_eq_some_iff.mp h
          obtain ⟨⟨k, r₂⟩, hk, h⟩ := Option.bind_eq_some_iff.mp h
          exact Or.inr (Or.inl ⟨h16, last, k, r₂, hlast, hk, h⟩)
        next h16 =>
          split at h
          next h17 =>
            obtain ⟨⟨k, r₂⟩, hk, h⟩ := Option.bind_eq_some_iff.mp h
            exact Or.inr (Or.inr (Or.inl ⟨h17, k, r₂, hk, h⟩))
          next h17 =>
            obtain ⟨⟨k, r₂⟩, hk, h⟩ := Option.bind_eq_some_iff.mp h
            exact Or.inr (Or.inr (Or.inr ⟨by omega, k, r₂, hk, h⟩))

/-- Reading code lengths stops at exactly `n`, having passed no more than that. -/
theorem readCodeLengths_length {code : List Nat} {n : Nat} :
    ∀ (fuel : Nat) {lens lens' : List Nat} {r r' : FlatReader},
      readCodeLengths usable code n fuel lens r = some (lens', r') →
      lens.length ≤ n ∧ lens'.length = n ∧ Later r r' := by
  intro fuel
  induction fuel with
  | zero => intro lens lens' r r' h; exact absurd h (by simp [readCodeLengths])
  | succ fuel ih =>
    intro lens lens' r r' h
    obtain ⟨hdone, rfl, rfl⟩ | ⟨hlt, s, r₁, hs, hcases⟩ := readCodeLengths_succ h
    · exact ⟨Nat.le_of_eq hdone, hdone, later_refl _⟩
    · have hlater := readSymbol_later hs
      obtain ⟨_, hrec⟩ | ⟨_, _, _, _, _, hk, hrec⟩ | ⟨_, _, _, hk, hrec⟩ | ⟨_, _, _, hk, hrec⟩ :=
        hcases
      · obtain ⟨_, hn, hl⟩ := ih hrec
        exact ⟨by omega, hn, hlater.trans hl⟩
      · obtain ⟨_, hn, hl⟩ := ih hrec
        exact ⟨by omega, hn, (hlater.trans (readNumber_later hk)).trans hl⟩
      · obtain ⟨_, hn, hl⟩ := ih hrec
        exact ⟨by omega, hn, (hlater.trans (readNumber_later hk)).trans hl⟩
      · obtain ⟨_, hn, hl⟩ := ih hrec
        exact ⟨by omega, hn, (hlater.trans (readNumber_later hk)).trans hl⟩

/-- No code length is above 15. -/
theorem readCodeLengths_le {code : List Nat} {n : Nat} :
    ∀ (fuel : Nat) {lens lens' : List Nat} {r r' : FlatReader},
      readCodeLengths usable code n fuel lens r = some (lens', r') → (∀ l ∈ lens, l ≤ 15) →
      ∀ l ∈ lens', l ≤ 15 := by
  intro fuel
  induction fuel with
  | zero => intro lens lens' r r' h; exact absurd h (by simp [readCodeLengths])
  | succ fuel ih =>
    intro lens lens' r r' h hle
    have hfill : ∀ (j : Nat) {x : Nat}, x ≤ 15 → ∀ l ∈ lens ++ List.replicate j x, l ≤ 15 := by
      intro j x hx l hl
      rcases List.mem_append.mp hl with hmem | hmem
      · exact hle l hmem
      · rw [List.eq_of_mem_replicate hmem]
        exact hx
    obtain ⟨_, rfl, rfl⟩ | ⟨_, s, r₁, _, hcases⟩ := readCodeLengths_succ h
    · exact hle
    · obtain ⟨h15, hrec⟩ | ⟨_, last, k, _, hlast, _, hrec⟩ | ⟨_, k, _, _, hrec⟩ |
        ⟨_, k, _, _, hrec⟩ := hcases
      · exact ih hrec (hfill 1 h15)
      · exact ih hrec (hfill (k + 3) (hle last (List.mem_of_getLast? hlast)))
      · exact ih hrec (hfill (k + 3) (Nat.zero_le 15))
      · exact ih hrec (hfill (k + 11) (Nat.zero_le 15))

/-- Decoding only appends. -/
theorem copyMatch_length (distance : Nat) :
    ∀ (length : Nat) (out : List UInt8), (copyMatch distance length out).length =
      out.length + length := by
  intro length
  induction length with
  | zero => intro out; rfl
  | succ length ih =>
    intro out
    rw [copyMatch, ih, List.length_append, List.length_singleton]
    omega

/-- One symbol of a block's data and what follows it. -/
theorem readData_succ {litlen dist : List Nat} {fuel : Nat} {out out' : List UInt8}
    {r r' : FlatReader} (h : readData usable litlen dist (fuel + 1) out r = some (out', r')) :
    ∃ s r₁, readSymbol usable litlen r = some (s, r₁) ∧
      ((s ≤ 255 ∧ readData usable litlen dist fuel (out ++ [UInt8.ofNat s]) r₁ = some (out', r')) ∨
       (s = 256 ∧ out' = out ∧ r' = r₁) ∨
       (256 < s ∧ ∃ length distance r₂, readMatch usable dist s r₁ = some ((length, distance), r₂) ∧
          distance ≤ out.length ∧
          readData usable litlen dist fuel (copyMatch distance length out) r₂
            = some (out', r'))) := by
  rw [readData] at h
  obtain ⟨⟨s, r₁⟩, hs, h⟩ := Option.bind_eq_some_iff.mp h
  refine ⟨s, r₁, hs, ?_⟩
  dsimp only at h
  split at h
  next hlit => exact Or.inl ⟨hlit, h⟩
  next hlit =>
    split at h
    next heob =>
      obtain ⟨rfl, rfl⟩ := Prod.mk.inj (Option.some.inj h)
      exact Or.inr (Or.inl ⟨heob, rfl, rfl⟩)
    next heob =>
      obtain ⟨⟨⟨length, distance⟩, r₂⟩, hm, h⟩ := Option.bind_eq_some_iff.mp h
      dsimp only at h
      split at h
      next hdist => exact Or.inr (Or.inr ⟨by omega, length, distance, r₂, hm, hdist, h⟩)
      next => exact absurd h (by simp)

theorem readData_literal {litlen dist : List Nat} {fuel s : Nat} {out : List UInt8}
    {r r₁ : FlatReader} (hs : readSymbol usable litlen r = some (s, r₁)) (hle : s ≤ 255) :
    readData usable litlen dist (fuel + 1) out r =
      readData usable litlen dist fuel (out ++ [UInt8.ofNat s]) r₁ := by
  rw [readData, hs]
  dsimp only [Option.bind_eq_bind, Option.bind_some]
  rw [if_pos hle]

theorem readData_end {litlen dist : List Nat} {fuel : Nat} {out : List UInt8} {r r₁ : FlatReader}
    (hs : readSymbol usable litlen r = some (256, r₁)) :
    readData usable litlen dist (fuel + 1) out r = some (out, r₁) := by
  rw [readData, hs]
  dsimp only [Option.bind_eq_bind, Option.bind_some]
  rw [if_neg (by decide), if_pos rfl]

theorem readData_length_le {litlen dist : List Nat} :
    ∀ (fuel : Nat) {out out' : List UInt8} {r r' : FlatReader},
      readData usable litlen dist fuel out r = some (out', r') → out.length ≤ out'.length := by
  intro fuel
  induction fuel with
  | zero => intro out out' r r' h; exact absurd h (by simp [readData])
  | succ fuel ih =>
    intro out out' r r' h
    obtain ⟨s, r₁, _, ⟨_, hrec⟩ | ⟨_, rfl, _⟩ | ⟨_, length, distance, r₂, _, _, hrec⟩⟩ :=
      readData_succ h
    · have hle := ih hrec
      rw [List.length_append] at hle
      omega
    · exact Nat.le_refl _
    · have hle := ih hrec
      rw [copyMatch_length] at hle
      omega

/-- One block and what follows it. -/
theorem readBlocks_succ {fuel : Nat} {out out' : List UInt8} {r r' : FlatReader}
    (h : readBlocks usable (fuel + 1) out r = some (out', r')) :
    ∃ final r₁ r₂ litlen dist r₃ out₁ r₄, readNumber 1 r = some (final, r₁) ∧
      readNumber 2 r₁ = some (2, r₂) ∧ readCodes usable r₂ = some ((litlen, dist), r₃) ∧
      readData usable litlen dist (r₃.total + 1) out r₃ = some (out₁, r₄) ∧
      ((final = 1 ∧ out' = out₁ ∧ r' = r₄) ∨
       (final ≠ 1 ∧ readBlocks usable fuel out₁ r₄ = some (out', r'))) := by
  rw [readBlocks] at h
  obtain ⟨⟨final, r₁⟩, hfinal, h⟩ := Option.bind_eq_some_iff.mp h
  obtain ⟨⟨type, r₂⟩, htype, h⟩ := Option.bind_eq_some_iff.mp h
  dsimp only at h
  split at h
  next h2 =>
    obtain ⟨⟨⟨litlen, dist⟩, r₃⟩, hcodes, h⟩ := Option.bind_eq_some_iff.mp h
    obtain ⟨⟨out₁, r₄⟩, hdata, h⟩ := Option.bind_eq_some_iff.mp h
    subst h2
    refine ⟨final, r₁, r₂, litlen, dist, r₃, out₁, r₄, hfinal, htype, hcodes, hdata, ?_⟩
    dsimp only at h
    split at h
    next hf =>
      obtain ⟨rfl, rfl⟩ := Prod.mk.inj (Option.some.inj h)
      exact Or.inl ⟨hf, rfl, rfl⟩
    next hf => exact Or.inr ⟨hf, h⟩
  next => exact absurd h (by simp)

theorem readBlocks_final {fuel : Nat} {out out₁ : List UInt8} {r r₁ r₂ r₃ r₄ : FlatReader}
    {litlen dist : List Nat} (hfinal : readNumber 1 r = some (1, r₁))
    (htype : readNumber 2 r₁ = some (2, r₂))
    (hcodes : readCodes usable r₂ = some ((litlen, dist), r₃))
    (hdata : readData usable litlen dist (r₃.total + 1) out r₃ = some (out₁, r₄)) :
    readBlocks usable (fuel + 1) out r = some (out₁, r₄) := by
  rw [readBlocks, hfinal]
  dsimp only [Option.bind_eq_bind, Option.bind_some]
  rw [htype]
  dsimp only [Option.bind_some]
  rw [if_pos rfl, hcodes]
  dsimp only [Option.bind_some]
  rw [hdata]
  dsimp only [Option.bind_some]
  rw [if_pos rfl]

theorem readBlocks_length_le :
    ∀ (fuel : Nat) {out out' : List UInt8} {r r' : FlatReader},
      readBlocks usable fuel out r = some (out', r') → out.length ≤ out'.length := by
  intro fuel
  induction fuel with
  | zero => intro out out' r r' h; exact absurd h (by simp [readBlocks])
  | succ fuel ih =>
    intro out out' r r' h
    obtain ⟨_, _, _, _, _, _, out₁, _, _, _, _, hdata, ⟨_, rfl, _⟩ | ⟨_, hrec⟩⟩ :=
      readBlocks_succ h
    · exact readData_length_le _ hdata
    · exact Nat.le_trans (readData_length_le _ hdata) (ih hrec)

/-! ## Fewer symbols -/

theorem readSymbol_mono {lens : List Nat} {p : Nat × FlatReader} {r : FlatReader}
    (h : readSymbol usable lens r = some p) : readSymbol allSymbols lens r = some p := by
  unfold readSymbol at h ⊢
  obtain ⟨t, hfind, h⟩ := Option.bind_eq_some_iff.mp h
  obtain ⟨r₁, hadv, h⟩ := Option.bind_eq_some_iff.mp h
  split at h
  next => exact Option.bind_eq_some_iff.mpr ⟨t, hfind, Option.bind_eq_some_iff.mpr ⟨r₁, hadv, h⟩⟩
  next => exact absurd h (by simp)

theorem readCodeLengths_mono {code : List Nat} {n : Nat} {p : List Nat × FlatReader} :
    ∀ (fuel : Nat) {lens : List Nat} {r : FlatReader},
      readCodeLengths usable code n fuel lens r = some p →
      readCodeLengths allSymbols code n fuel lens r = some p := by
  intro fuel
  induction fuel with
  | zero => intro lens r h; exact absurd h (by simp [readCodeLengths])
  | succ fuel ih =>
    intro lens r h
    obtain ⟨lens', r'⟩ := p
    rw [readCodeLengths]
    obtain ⟨hdone, rfl, rfl⟩ | ⟨hlt, s, r₁, hs, hcases⟩ := readCodeLengths_succ h
    · rw [if_pos hdone]
    · rw [if_neg (by omega), if_neg (by omega)]
      refine Option.bind_eq_some_iff.mpr ⟨_, readSymbol_mono hs, ?_⟩
      dsimp only
      obtain ⟨h15, hrec⟩ | ⟨h16, last, k, r₂, hlast, hk, hrec⟩ | ⟨h17, k, r₂, hk, hrec⟩ |
        ⟨h18, k, r₂, hk, hrec⟩ := hcases
      · rw [if_pos h15]
        exact ih hrec
      · rw [if_neg (by omega), if_pos h16]
        exact Option.bind_eq_some_iff.mpr ⟨last, hlast,
          Option.bind_eq_some_iff.mpr ⟨(k, r₂), hk, ih hrec⟩⟩
      · rw [if_neg (by omega), if_neg (by omega), if_pos h17]
        exact Option.bind_eq_some_iff.mpr ⟨(k, r₂), hk, ih hrec⟩
      · rw [if_neg (by omega), if_neg (by omega), if_neg (by omega)]
        exact Option.bind_eq_some_iff.mpr ⟨(k, r₂), hk, ih hrec⟩

/-- The steps of reading the codes of a block. -/
theorem readCodes_spec {litlen dist : List Nat} {r r' : FlatReader}
    (h : readCodes usable r = some ((litlen, dist), r')) :
    ∃ hlit r₁ hdist r₂ hclen r₃ code r₄ lens, readNumber 5 r = some (hlit, r₁) ∧
      readNumber 5 r₁ = some (hdist, r₂) ∧ readNumber 4 r₂ = some (hclen, r₃) ∧
      readCodeLengthCode (codeLengthOrder.take (hclen + 4)) (List.replicate 19 0) r₃
        = some (code, r₄) ∧ validCode code = true ∧
      readCodeLengths usable code (hlit + 257 + (hdist + 1)) (hlit + hdist + 259) [] r₄
        = some (lens, r') ∧
      litlen = lens.take (hlit + 257) ∧ dist = lens.drop (hlit + 257) ∧
      validCode litlen = true ∧ validCode dist = true := by
  unfold readCodes at h
  obtain ⟨⟨hlit, r₁⟩, h1, h⟩ := Option.bind_eq_some_iff.mp h
  obtain ⟨⟨hdist, r₂⟩, h2, h⟩ := Option.bind_eq_some_iff.mp h
  obtain ⟨⟨hclen, r₃⟩, h3, h⟩ := Option.bind_eq_some_iff.mp h
  obtain ⟨⟨code, r₄⟩, h4, h⟩ := Option.bind_eq_some_iff.mp h
  dsimp only at h
  split at h
  next h5 =>
    obtain ⟨⟨lens, r₅⟩, h6, h⟩ := Option.bind_eq_some_iff.mp h
    dsimp only at h
    split at h
    next h7 =>
      obtain ⟨heq, rfl⟩ := Prod.mk.inj (Option.some.inj h)
      obtain ⟨rfl, rfl⟩ := Prod.mk.inj heq
      obtain ⟨h8, h9⟩ := Bool.and_eq_true_iff.mp h7
      exact ⟨hlit, r₁, hdist, r₂, hclen, r₃, code, r₄, lens, h1, h2, h3, h4, h5, h6, rfl, rfl,
        h8, h9⟩
    next => exact absurd h (by simp)
  next => exact absurd h (by simp)

theorem readCodes_later {p : List Nat × List Nat} {r r' : FlatReader}
    (h : readCodes usable r = some (p, r')) : Later r r' := by
  obtain ⟨litlen, dist⟩ := p
  obtain ⟨_, _, _, _, _, _, _, _, _, h1, h2, h3, h4, _, h6, _⟩ := readCodes_spec h
  exact ((((readNumber_later h1).trans (readNumber_later h2)).trans (readNumber_later h3)).trans
    (readCodeLengthCode_later h4)).trans (readCodeLengths_length _ h6).2.2

theorem readData_later {litlen dist : List Nat} :
    ∀ (fuel : Nat) {out out' : List UInt8} {r r' : FlatReader},
      readData usable litlen dist fuel out r = some (out', r') → Later r r' := by
  intro fuel
  induction fuel with
  | zero => intro out out' r r' h; exact absurd h (by simp [readData])
  | succ fuel ih =>
    intro out out' r r' h
    obtain ⟨s, r₁, hs, ⟨_, hrec⟩ | ⟨_, _, rfl⟩ | ⟨_, length, distance, r₂, hm, _, hrec⟩⟩ :=
      readData_succ h
    · exact (readSymbol_later hs).trans (ih hrec)
    · exact readSymbol_later hs
    · exact ((readSymbol_later hs).trans (readMatch_later hm)).trans (ih hrec)

theorem readCodes_mono {p : List Nat × List Nat} {r r' : FlatReader}
    (h : readCodes usable r = some (p, r')) : readCodes allSymbols r = some (p, r') := by
  obtain ⟨litlen, dist⟩ := p
  obtain ⟨hlit, r₁, hdist, r₂, hclen, r₃, code, r₄, lens, h1, h2, h3, h4, h5, h6, rfl, rfl, h7,
    h8⟩ := readCodes_spec h
  unfold readCodes
  refine Option.bind_eq_some_iff.mpr ⟨_, h1, Option.bind_eq_some_iff.mpr ⟨_, h2,
    Option.bind_eq_some_iff.mpr ⟨_, h3, Option.bind_eq_some_iff.mpr ⟨_, h4, ?_⟩⟩⟩⟩
  dsimp only
  rw [if_pos h5]
  refine Option.bind_eq_some_iff.mpr ⟨_, readCodeLengths_mono _ h6, ?_⟩
  dsimp only
  rw [if_pos (Bool.and_eq_true_iff.mpr ⟨h7, h8⟩)]

theorem readMatch_mono {dist : List Nat} {s : Nat} {p : Nat × Nat} {r r' : FlatReader}
    (h : readMatch usable dist s r = some (p, r')) :
    readMatch allSymbols dist s r = some (p, r') := by
  obtain ⟨length, distance⟩ := p
  obtain ⟨base, extra, more, r₁, d, r₂, dbase, dextra, dmore, h1, h2, h3, h4, h5, rfl, rfl⟩ :=
    readMatch_spec h
  unfold readMatch
  exact Option.bind_eq_some_iff.mpr ⟨_, h1, Option.bind_eq_some_iff.mpr ⟨_, h2,
    Option.bind_eq_some_iff.mpr ⟨_, readSymbol_mono h3, Option.bind_eq_some_iff.mpr ⟨_, h4,
      Option.bind_eq_some_iff.mpr ⟨_, h5, rfl⟩⟩⟩⟩⟩

theorem readData_mono {litlen dist : List Nat} {p : List UInt8 × FlatReader} :
    ∀ (fuel : Nat) {out : List UInt8} {r : FlatReader},
      readData usable litlen dist fuel out r = some p →
      readData allSymbols litlen dist fuel out r = some p := by
  intro fuel
  induction fuel with
  | zero => intro out r h; exact absurd h (by simp [readData])
  | succ fuel ih =>
    intro out r h
    obtain ⟨out', r'⟩ := p
    obtain ⟨s, r₁, hs, hcases⟩ := readData_succ h
    rw [readData]
    refine Option.bind_eq_some_iff.mpr ⟨_, readSymbol_mono hs, ?_⟩
    dsimp only
    obtain ⟨hlit, hrec⟩ | ⟨heob, rfl, rfl⟩ | ⟨hlen, length, distance, r₂, hm, hdist, hrec⟩ := hcases
    · rw [if_pos hlit]
      exact ih hrec
    · rw [if_neg (by omega), if_pos heob]
    · rw [if_neg (by omega), if_neg (by omega)]
      refine Option.bind_eq_some_iff.mpr ⟨_, readMatch_mono hm, ?_⟩
      dsimp only
      rw [if_pos hdist]
      exact ih hrec

theorem readBlocks_mono {p : List UInt8 × FlatReader} :
    ∀ (fuel : Nat) {out : List UInt8} {r : FlatReader},
      readBlocks usable fuel out r = some p → readBlocks allSymbols fuel out r = some p := by
  intro fuel
  induction fuel with
  | zero => intro out r h; exact absurd h (by simp [readBlocks])
  | succ fuel ih =>
    intro out r h
    obtain ⟨out', r'⟩ := p
    obtain ⟨final, r₁, r₂, litlen, dist, r₃, out₁, r₄, h1, h2, h3, h4, hcases⟩ := readBlocks_succ h
    rw [readBlocks]
    refine Option.bind_eq_some_iff.mpr ⟨_, h1, Option.bind_eq_some_iff.mpr ⟨_, h2, ?_⟩⟩
    dsimp only
    rw [if_pos rfl]
    refine Option.bind_eq_some_iff.mpr ⟨_, readCodes_mono h3,
      Option.bind_eq_some_iff.mpr ⟨_, readData_mono _ h4, ?_⟩⟩
    dsimp only
    obtain ⟨hf, rfl, rfl⟩ | ⟨hf, hrec⟩ := hcases
    · rw [if_pos hf]
    · rw [if_neg hf]
      exact ih hrec

/-- **A stream that can be decoded with some of the symbols** decodes to the same
bytes with all of them. -/
theorem inflate_mono {stream : Nat → Bool} {total : Nat} {out : List UInt8}
    (h : inflate usable stream total = some out) : inflate allSymbols stream total = some out := by
  obtain ⟨p, hp, rfl⟩ := Option.map_eq_some_iff.mp h
  exact Option.map_eq_some_iff.mpr ⟨p, readBlocks_mono _ hp, rfl⟩

end

end DevopsBroker.Lib.Deflate
