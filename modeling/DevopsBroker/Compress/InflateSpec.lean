import DevopsBroker.Compress.Inflate
import DevopsBroker.Compress.InputBufferSpec
import DevopsBroker.Compress.HuffmanSpec
import DevopsBroker.Lib.Deflate

/-!
# `inflate` follows the reference decoder

`Holds` ties the state of an `Inflate` to a position of the flat stream and to the
bytes that came out of it so far. Each piece of `inflate` keeps it against the
piece of the reference decoder it corresponds to, as long as every symbol the
reference meets is one the decoder tables have not lost (`reachedOnly`).

- `outputBackref_holds`: all three ways of copying append the match;
- `literalBackrefRound_spec`, `readLengths_spec`: one round, and one loop;
- `initDynamicDecoder_spec`: the header of a block gives both decoders;
- **`inflate_correct`**: a stream within the slab's size decodes to the reference's
  bytes.
-/

namespace DevopsBroker.Compress

open DevopsBroker.Lib DevopsBroker.Io DevopsBroker.Lang

instance (lens : List Nat) (s : Nat) : Decidable (Reached lens s) :=
  inferInstanceAs (Decidable (codeLen lens s ≤ HUFFMAN_LOOKUP_TABLE_BITS ∨
    (∀ l < codeLen lens s, codeCount lens l < 2 ^ 8) ∧
      rank lens s < codeCount lens (codeLen lens s) % 2 ^ 8))

/-- The symbols that the decoder tables have not lost. -/
def reachedOnly : Deflate.Usable := fun lens s => decide (Reached lens s)

/-! ## The output slab -/

/-- The filled part of the slab is `out`. -/
structure OutputHolds (ob : OutputBuffer) (out : List UInt8) : Prop where
  length_eq : ob.length = out.length
  byte_eq : ∀ a < out.length, ob.buffer a = out.getD a 0

/-- Writing a byte behind the filled part appends it. -/
theorem outputHolds_append {ob : OutputBuffer} {out : List UInt8} (h : OutputHolds ob out)
    (b : UInt8) :
    OutputHolds ⟨Function.update ob.buffer ob.length b, ob.length + 1⟩ (out ++ [b]) := by
  refine ⟨by rw [List.length_append, h.length_eq]; rfl, fun a ha => ?_⟩
  rw [List.length_append, List.length_singleton] at ha
  dsimp only
  rw [h.length_eq]
  by_cases hlast : a = out.length
  · subst hlast
    rw [Function.update_self]
    simp [List.getD_eq_getElem?_getD]
  · have hlt : a < out.length := by omega
    rw [Function.update_of_ne hlast, h.byte_eq a hlt]
    simp [List.getD_eq_getElem?_getD, List.getElem?_append_left hlt]

/-- Moving a single byte. -/
theorem moveBytes_one (mem : Mem) (source dest : Nat) :
    moveBytes mem source dest 1 = Function.update mem dest (mem source) := by
  funext a
  unfold moveBytes
  by_cases ha : a = dest
  · subst ha
    rw [if_pos (by omega), Function.update_self, Nat.sub_self, Nat.add_zero]
  · rw [if_neg (by omega), Function.update_of_ne ha]

/-- **The byte-by-byte copy appends the match**, also where it overlaps itself. -/
theorem lz77OutputBackref_holds {dist : Nat} (hdist : 0 < dist) :
    ∀ (length : Nat) {ob : OutputBuffer} {out : List UInt8}, OutputHolds ob out →
      dist ≤ out.length →
      OutputHolds ⟨lz77OutputBackref ob dist length, ob.length + length⟩
        (Deflate.copyMatch dist length out) := by
  intro length
  induction length with
  | zero => intro ob out h _; exact h
  | succ length ih =>
    intro ob out h hle
    have hlen := h.length_eq
    have hbyte : ob.buffer (ob.length - dist) = out.getD (out.length - dist) 0 := by
      rw [hlen, h.byte_eq _ (by omega)]
    have hstep := ih (outputHolds_append h (out.getD (out.length - dist) 0))
      (by rw [List.length_append]; omega)
    unfold lz77OutputBackref at hstep ⊢
    rw [copyChunks, moveBytes_one, hbyte, Deflate.copyMatch]
    dsimp only at hstep
    rw [show ob.length + 1 - dist = ob.length - dist + 1 by omega,
      show ob.length + 1 + length = ob.length + (length + 1) by omega] at hstep
    exact hstep

/-- A match that does not overlap itself may be copied in larger pieces. -/
theorem outputBackref64_eq {ob : OutputBuffer} {dist length : Nat} (hdist : dist ≤ ob.length) :
    outputBackref64 ob dist length = lz77OutputBackref ob dist length := by
  unfold outputBackref64
  split
  next => rfl
  next hle =>
    unfold lz77OutputBackref
    rw [memcopy_eq _ (by omega), copyChunks_eq 1 _ _ (by omega), Nat.one_mul]

/-- The copy of the format on the slab: one byte after the other behind the first `n`, each
the one `dist` bytes back. -/
def copyBytes (n dist : Nat) : Nat → Mem → Mem
  | 0, out => out
  | length + 1, out =>
    let out := copyBytes n dist length out
    Function.update out (n + length) (out (n + length - dist))

/-- Chunks in a row, and one more at the end. -/
theorem copyChunks_succ (k : Nat) :
    ∀ (n source dest : Nat) (mem : Mem),
      copyChunks k (n + 1) source dest mem =
        moveBytes (copyChunks k n source dest mem) (source + k * n) (dest + k * n) k := by
  intro n
  induction n with
  | zero =>
    intro source dest mem
    rfl
  | succ n ih =>
    intro source dest mem
    rw [copyChunks, ih, copyChunks, Nat.mul_succ, Nat.add_comm (k * n), Nat.add_assoc,
      Nat.add_assoc]

theorem lz77OutputBackref_eq_copyBytes {ob : OutputBuffer} {dist : Nat} (hdist : dist ≤ ob.length)
    (length : Nat) :
    lz77OutputBackref ob dist length = copyBytes ob.length dist length ob.buffer := by
  unfold lz77OutputBackref
  induction length with
  | zero => rfl
  | succ length ih =>
    rw [copyChunks_succ, ih, moveBytes_one, Nat.one_mul, copyBytes,
      show ob.length - dist + length = ob.length + length - dist by omega]

/-- The copy changes the bytes that it adds, and no others. -/
theorem copyBytes_frame (n dist length : Nat) (out : Mem) {a : Nat}
    (h : a < n ∨ n + length ≤ a) : copyBytes n dist length out a = out a := by
  induction length with
  | zero => rfl
  | succ length ih =>
    rw [copyBytes, Function.update_of_ne (by omega), ih (by omega)]

/-- Every byte that it adds is the one `dist` bytes back. -/
theorem copyBytes_back {n dist : Nat} (hpos : 1 ≤ dist) (hdist : dist ≤ n) (length : Nat)
    (out : Mem) {i : Nat} (hi : i < length) :
    copyBytes n dist length out (n + i) = copyBytes n dist length out (n + i - dist) := by
  induction length with
  | zero => omega
  | succ length ih =>
    rw [copyBytes]
    by_cases hlast : i = length
    · rw [hlast, Function.update_self, Function.update_of_ne (by omega)]
    · rw [Function.update_of_ne (by omega), Function.update_of_ne (by omega), ih (by omega)]

/-- **`output_backref64` is the copy of the format**, for every distance and every length, and
leaves the rest of the slab alone. -/
theorem outputBackref64_copies (ob : OutputBuffer) {dist : Nat} (hpos : 1 ≤ dist)
    (hdist : dist ≤ ob.length) (length : Nat) :
    outputBackref64 ob dist length = copyBytes ob.length dist length ob.buffer ∧
      (∀ i < length, outputBackref64 ob dist length (ob.length + i) =
        outputBackref64 ob dist length (ob.length + i - dist)) ∧
      ∀ a, a < ob.length ∨ ob.length + length ≤ a →
        outputBackref64 ob dist length a = ob.buffer a := by
  rw [outputBackref64_eq hdist, lz77OutputBackref_eq_copyBytes hdist]
  refine ⟨rfl, ?_, ?_⟩
  · intro i hi
    exact copyBytes_back hpos hdist length ob.buffer hi
  · intro a ha
    exact copyBytes_frame ob.length dist length ob.buffer ha

/-- Four bytes from two bytes back. -/
theorem outputBackref64_copies_twoBack :
    outputBackref64 ⟨fun a => UInt8.ofNat a, 3⟩ 2 4 = copyBytes 3 2 4 (fun a => UInt8.ofNat a) ∧
      (∀ i < 4, outputBackref64 ⟨fun a => UInt8.ofNat a, 3⟩ 2 4 (3 + i) =
        outputBackref64 ⟨fun a => UInt8.ofNat a, 3⟩ 2 4 (3 + i - 2)) ∧
      ∀ a, a < 3 ∨ 3 + 4 ≤ a →
        outputBackref64 ⟨fun a => UInt8.ofNat a, 3⟩ 2 4 a = UInt8.ofNat a :=
  outputBackref64_copies ⟨fun a => UInt8.ofNat a, 3⟩ (by decide) (by decide) 4

/-- The copy at the end of a round appends the match when there is room for it. -/
theorem outputBackref_holds {ob : OutputBuffer} {out : List UInt8} {dist length : Nat}
    (h : OutputHolds ob out) (hdist : 0 < dist) (hle : dist ≤ out.length)
    (hroom : out.length + length ≤ INFLATE_OUTPUT_LENGTH) :
    ∃ ob', outputBackref ob dist length = some ob' ∧
      OutputHolds ob' (Deflate.copyMatch dist length out) := by
  have hlen := h.length_eq
  have hcopy := lz77OutputBackref_holds hdist length h hle
  simp only [INFLATE_OUTPUT_LENGTH] at hroom
  refine ⟨⟨lz77OutputBackref ob dist length, ob.length + length⟩, ?_, hcopy⟩
  unfold outputBackref
  simp only [INFLATE_OUTPUT_LENGTH]
  split
  next => rw [outputBackref64_eq (by omega)]
  next => rw [if_pos (by omega)]

/-! ## Reading -/

section

variable {mem : Mem} {pages : List FileBuffer} {dataOffset : Nat}

/-- Where the flat reader moves on, so does the paged one. -/
theorem advanceNumBits_some {ib : InputBuffer} {r r' : FlatReader} {n : Nat}
    (h : Tracks mem pages dataOffset ib r) (hn : n ≤ 57) (hr : r.advance n = some r') :
    ∃ ib', advanceNumBits ib n = (true, ib') ∧ ib'.bits = ib.bits ∧
      Tracks mem pages dataOffset ib' r' := by
  obtain ⟨hok, hbits, h'⟩ := advanceNumBits_spec h hn
  rw [hr] at hok h'
  exact ⟨_, Prod.ext hok rfl, hbits, h'⟩

/-- Where the flat reader moves on, the paged one shows the bits it passes. -/
theorem useNumBits_some {ib : InputBuffer} {r r' : FlatReader} {n : Nat}
    (h : Tracks mem pages dataOffset ib r) (hn : n ≤ 57) (hr : r.advance n = some r') :
    ∃ ib', useNumBits mem ib n = (true, ib') ∧ r.Shows 57 ib'.bits ∧
      Tracks mem pages dataOffset ib' r' := by
  obtain ⟨hok, hshow, h'⟩ := useNumBits_spec h hn
  rw [hr] at hok hshow h'
  exact ⟨_, Prod.ext hok rfl, hshow rfl, h'⟩

/-- A word that shows a codeword begins with it. -/
theorem begins_of_shows {lens : List Nat} {r : FlatReader} {s bits n : Nat}
    (hshow : r.Shows n bits) (hn : codeLen lens s ≤ n) (hend : r.pos + codeLen lens s ≤ r.total)
    (h : Begins lens r.ahead s) : Begins lens bits.testBit s :=
  ⟨h.1, (msbFirst_congr fun i hi => hshow i (by omega) (by omega)).trans h.2⟩

/-- **A symbol that is not lost is decoded from a word that shows its codeword.** -/
theorem huffmanDecode_readSymbol {lens : List Nat} (hv : ValidLengths lens) {r r' : FlatReader}
    {s bits n : Nat} (hs : Deflate.readSymbol reachedOnly lens r = some (s, r'))
    (hshow : r.Shows n bits) (hn : 15 ≤ n) (numBitsUsed : Nat) :
    huffmanDecode bits (initHuffmanDecoder lens) numBitsUsed
        = some (Int.ofNat s, codeLen lens s) ∧
      r.advance (codeLen lens s) = some r' ∧ codeLen lens s ≤ 15 ∧ s < lens.length := by
  obtain ⟨hbegins, hadv, hreached⟩ := Deflate.readSymbol_spec hs
  have hle : codeLen lens s ≤ 15 := codeLen_le hv.le s
  obtain ⟨hend, _⟩ := FlatReader.advance_eq_some.mp hadv
  have hbits := begins_of_shows hshow (by omega) hend hbegins
  exact ⟨huffmanDecode_reached hv (initHuffmanDecoder_spec hv) numBitsUsed hbits
    (of_decide_eq_true hreached), hadv, hle, codeLen_lt hbegins.1⟩

/-! ## Literals and back references -/

/-- The state of an `Inflate` stands for a position in the stream and the bytes
that came out so far. -/
structure Holds (mem : Mem) (pages : List FileBuffer) (dataOffset : Nat) (inflate : Inflate)
    (r : FlatReader) (out : List UInt8) : Prop where
  input : Tracks mem pages dataOffset inflate.inputBuffer r
  output : OutputHolds inflate.outputBuffer out

/-- The length table of the source is the reference's. -/
theorem litlenTbl_getD {i base extra : Nat}
    (h : Deflate.lengthSymbols[i]? = some (base, extra)) :
    litlenTbl.getD i (0, 0) = (base, extra) ∧ i < 29 ∧ extra ≤ 5 := by
  have hbound : ∀ p ∈ Deflate.lengthSymbols, p.2 ≤ 5 := by decide
  refine ⟨?_, (List.getElem?_eq_some_iff.mp h).1, hbound _ (List.mem_of_getElem? h)⟩
  rw [Array.getD_eq_getD_getElem?, ← Array.getElem?_toList]
  exact congrArg (fun o => Option.getD o (0, 0)) h

/-- The distance table of the source is the reference's. -/
theorem distTbl_getD {i base extra : Nat}
    (h : Deflate.distanceSymbols[i]? = some (base, extra)) :
    distTbl.getD i (0, 0) = (base, extra) ∧ i < 30 ∧ 0 < base ∧ extra ≤ 13 := by
  have hbound : ∀ p ∈ Deflate.distanceSymbols, 0 < p.1 ∧ p.2 ≤ 13 := by decide
  refine ⟨?_, (List.getElem?_eq_some_iff.mp h).1, hbound _ (List.mem_of_getElem? h)⟩
  rw [Array.getD_eq_getD_getElem?, ← Array.getElem?_toList]
  exact congrArg (fun o => Option.getD o (0, 0)) h

/-- A back reference, from its length symbol on: the position moves past it when
all of its bits are known, and the match is appended. -/
theorem backrefRound_spec {dist : List Nat} (hdist : ValidLengths dist) {inflate : Inflate}
    {r r₁ r₂ : FlatReader} {out : List UInt8} {s length distance numBitsUsed : Nat}
    (h : Holds mem pages dataOffset inflate r out) (hr : r.advance numBitsUsed = some r₁)
    (hnum : numBitsUsed ≤ 15) (hshow : r₁.Shows (57 - numBitsUsed) inflate.inputBuffer.bits)
    (hmatch : Deflate.readMatch reachedOnly dist s r₁ = some ((length, distance), r₂))
    (hle : distance ≤ out.length) (hroom : out.length + length ≤ INFLATE_OUTPUT_LENGTH) :
    ∃ inflate' numBitsUsed',
      backrefRound (initHuffmanDecoder dist) inflate s numBitsUsed
        = some (.next inflate' numBitsUsed') ∧
      Holds mem pages dataOffset inflate' r₂ (Deflate.copyMatch distance length out) := by
  obtain ⟨base, extra, more, r₃, d, r₄, dbase, dextra, dmore, hbase, hmore, hd, hdbase, hdmore,
    rfl, rfl⟩ := Deflate.readMatch_spec hmatch
  obtain ⟨htbl, _, hextra⟩ := litlenTbl_getD hbase
  obtain ⟨hdtbl, hd30, hdpos, hdextra⟩ := distTbl_getD hdbase
  obtain ⟨hadv₃, rfl⟩ := Deflate.readNumber_eq_some.mp hmore
  obtain ⟨hadv₂, rfl⟩ := Deflate.readNumber_eq_some.mp hdmore
  -- the four fields, in the word that was read before the first of them
  have hshow₃ := hshow.shift hadv₃
  obtain ⟨hdecode, hadv₄, hlen, _⟩ :=
    huffmanDecode_readSymbol hdist hd hshow₃ (by omega) numBitsUsed
  have hshow₄ := hshow₃.shift hadv₄
  have hmask := hshow.and_mask (by omega) hadv₃
  have hdmask := hshow₄.and_mask (by omega) hadv₂
  have hall := FlatReader.advance_add (FlatReader.advance_add (FlatReader.advance_add hr hadv₃)
    hadv₄) hadv₂
  obtain ⟨ib', hadvance, _, htracks⟩ := advanceNumBits_some
    (tracks_bits h.input
      (((inflate.inputBuffer.bits >>> extra) >>> codeLen dist d) >>> dextra)) (by omega) hall
  obtain ⟨ob', hcopy, hout⟩ := outputBackref_holds h.output (by omega) hle hroom
  refine ⟨{ inflate with inputBuffer := ib', outputBuffer := ob' }, codeLen dist d, ?_,
    ⟨htracks, hout⟩⟩
  have hlen' := h.output.length_eq
  unfold backrefRound
  simp only [htbl, hdecode, Option.bind_eq_bind, Option.bind_some]
  rw [if_neg (by simp; omega)]
  simp only [Int.ofNat_eq_natCast, Int.toNat_natCast, hdtbl, hmask, hdmask]
  rw [Nat.mod_eq_of_lt (by omega), hadvance]
  dsimp only
  rw [if_neg (by omega), hcopy]
  rfl

/-- **One round follows one symbol of the reference**: it goes on behind a literal or
a match, and returns at the end of the block. -/
theorem literalBackrefRound_spec {litlen dist : List Nat} (hlitlen : ValidLengths litlen)
    (hdist : ValidLengths dist) {inflate : Inflate} {r r' : FlatReader}
    {out out' : List UInt8} {fuel : Nat} (numBitsUsed : Nat)
    (h : Holds mem pages dataOffset inflate r out)
    (href : Deflate.readData reachedOnly litlen dist (fuel + 1) out r = some (out', r'))
    (hroom : out'.length ≤ INFLATE_OUTPUT_LENGTH) :
    (∃ inflate' numBitsUsed' out₁ r₁,
      literalBackrefRound mem (initHuffmanDecoder litlen) (initHuffmanDecoder dist) inflate
        numBitsUsed = some (.next inflate' numBitsUsed') ∧
      Holds mem pages dataOffset inflate' r₁ out₁ ∧
      Deflate.readData reachedOnly litlen dist fuel out₁ r₁ = some (out', r')) ∨
    (∃ inflate', literalBackrefRound mem (initHuffmanDecoder litlen) (initHuffmanDecoder dist)
        inflate numBitsUsed = some (.done (true, inflate')) ∧
      Holds mem pages dataOffset inflate' r' out' ∧ inflate'.status = .success) := by
  obtain ⟨s, r₁, hs, hcases⟩ := Deflate.readData_succ href
  obtain ⟨htracks, hshow⟩ := getNextBits_spec h.input
  obtain ⟨hdecode, hadv, hlen, hlt⟩ :=
    huffmanDecode_readSymbol hlitlen hs hshow (by decide) numBitsUsed
  have hadvance := advanceNumBits_some
    (tracks_bits htracks ((getNextBits mem inflate.inputBuffer).bits >>> codeLen litlen s))
    (by omega) hadv
  have hmod : codeLen litlen s % 2 ^ 32 = codeLen litlen s := Nat.mod_eq_of_lt (by omega)
  have hlength := h.output.length_eq
  simp only [INFLATE_OUTPUT_LENGTH] at hroom
  unfold literalBackrefRound
  simp only [hdecode, Option.bind_eq_bind, Option.bind_some]
  obtain ⟨ib', hib, _, htracks'⟩ := hadvance
  obtain ⟨hlit, hrec⟩ | ⟨heob, rfl, rfl⟩ | ⟨hback, length, distance, r₂, hmatch, hle, hrec⟩ :=
    hcases
  · -- a literal, for which there is room as the output only grows
    have hgrow := Deflate.readData_length_le _ hrec
    rw [List.length_append, List.length_singleton] at hgrow
    rw [if_neg (by simp; omega), if_pos (by simp; omega), hmod, hib]
    dsimp only
    rw [if_neg (by simp only [INFLATE_OUTPUT_LENGTH]; omega)]
    exact Or.inl ⟨_, _, _, _, rfl, ⟨htracks', outputHolds_append h.output _⟩, hrec⟩
  · -- the end of the block
    subst heob
    rw [if_neg (by simp), if_neg (by simp), if_pos (by simp), hmod, hib]
    exact Or.inr ⟨_, rfl, ⟨htracks', h.output⟩, rfl⟩
  · have hgrow := Deflate.readData_length_le _ hrec
    rw [Deflate.copyMatch_length] at hgrow
    -- a length symbol, which is not one of the two that are reserved
    obtain ⟨_, _, _, _, _, _, _, _, _, hbase, _⟩ := Deflate.readMatch_spec hmatch
    obtain ⟨_, h29, _⟩ := litlenTbl_getD hbase
    rw [if_neg (by simp; omega), if_neg (by simp; omega), if_neg (by simp; omega)]
    have hshifted : Holds mem pages dataOffset
        { inflate with inputBuffer := { getNextBits mem inflate.inputBuffer with
          bits := (getNextBits mem inflate.inputBuffer).bits >>> codeLen litlen s } } r out :=
      ⟨tracks_bits htracks _, h.output⟩
    obtain ⟨inflate', numBitsUsed', hround, hholds⟩ := backrefRound_spec hdist hshifted hadv hlen
      (hshow.shift hadv) hmatch hle (by simp only [INFLATE_OUTPUT_LENGTH]; omega)
    exact Or.inl ⟨inflate', numBitsUsed', _, r₂, hround, hholds, hrec⟩

/-- The loop follows the data of a block to its end. -/
theorem literalBackrefLoop_spec {litlen dist : List Nat} (hlitlen : ValidLengths litlen)
    (hdist : ValidLengths dist) {r' : FlatReader} {out' : List UInt8}
    (hroom : out'.length ≤ INFLATE_OUTPUT_LENGTH) :
    ∀ (fuel : Nat) {inflate : Inflate} {r : FlatReader} {out : List UInt8} (numBitsUsed : Nat),
      Holds mem pages dataOffset inflate r out →
      Deflate.readData reachedOnly litlen dist fuel out r = some (out', r') →
      ∃ inflate', literalBackrefLoop mem (initHuffmanDecoder litlen) (initHuffmanDecoder dist)
          fuel inflate numBitsUsed = some (true, inflate') ∧
        Holds mem pages dataOffset inflate' r' out' ∧ inflate'.status = .success := by
  intro fuel
  induction fuel with
  | zero => intro _ _ _ _ _ href; exact absurd href (by simp [Deflate.readData])
  | succ fuel ih =>
    intro inflate r out numBitsUsed h href
    rw [literalBackrefLoop]
    obtain ⟨inflate₁, numBitsUsed₁, out₁, r₁, hround, h₁, hrec⟩ | ⟨inflate', hround, h', hstatus⟩ :=
      literalBackrefRound_spec hlitlen hdist numBitsUsed h href hroom
    · rw [hround]
      exact ih numBitsUsed₁ h₁ hrec
    · rw [hround]
      exact ⟨inflate', rfl, h', hstatus⟩

/-- Where the decoder finds no symbol, the round ends with an error. -/
theorem literalBackrefRound_lost {litlenDecoder : HuffmanDecoder} (distDecoder : HuffmanDecoder)
    {inflate : Inflate} {numBitsUsed numBitsUsed' : Nat}
    (h : huffmanDecode (getNextBits mem inflate.inputBuffer).bits litlenDecoder numBitsUsed
      = some (-1, numBitsUsed')) :
    ∃ inflate', literalBackrefRound mem litlenDecoder distDecoder inflate numBitsUsed
      = some (.done (false, inflate')) ∧ inflate'.status = .inputError := by
  unfold literalBackrefRound
  simp only [h, Option.bind_eq_bind, Option.bind_some]
  rw [if_pos (Or.inl (by decide))]
  exact ⟨_, rfl, rfl⟩

/-! ## The codes of a block -/

/-- The lengths of the code length code, each in its place. -/
theorem readCodelenLengths_spec :
    ∀ (places : List Nat) {lens lens' : List Nat} {ib : InputBuffer} {r r' : FlatReader},
      Tracks mem pages dataOffset ib r →
      Deflate.readCodeLengthCode places lens r = some (lens', r') →
      ∃ ib', readCodelenLengths mem places lens ib = (ib', some lens') ∧
        Tracks mem pages dataOffset ib' r' ∧ lens'.length = lens.length ∧
        ((∀ l ∈ lens, l < 8) → ∀ l ∈ lens', l < 8) := by
  intro places
  induction places with
  | nil =>
    intro lens lens' ib r r' h href
    obtain ⟨rfl, rfl⟩ := Prod.mk.inj (Option.some.inj href)
    exact ⟨ib, rfl, h, rfl, id⟩
  | cons place places ih =>
    intro lens lens' ib r r' h href
    obtain ⟨⟨l, r₁⟩, hl, href⟩ := Option.bind_eq_some_iff.mp href
    obtain ⟨hadv, rfl⟩ := Deflate.readNumber_eq_some.mp hl
    obtain ⟨ib₁, hib, hshow, h₁⟩ := useNumBits_some h (by omega) hadv
    have hmask : ib₁.bits &&& 7 = lsbFirst r.ahead 3 := hshow.and_mask (by omega) hadv
    obtain ⟨ib', hrun, h', hlen, hlt⟩ := ih (tracks_bits h₁ (ib₁.bits >>> 3)) href
    refine ⟨ib', ?_, h', by rw [hlen, List.length_set], fun hlens => hlt fun l hl => ?_⟩
    · rw [readCodelenLengths, hib]
      dsimp only
      rw [hmask, hrun]
    · -- a length is a number of three bits
      rcases List.mem_or_eq_of_mem_set hl with hmem | heq
      · exact hlens l hmem
      · rw [heq]
        exact lsbFirst_lt r.ahead 3

/-- Copying the previous length. -/
theorem copyPrevious_eq :
    ∀ (j : Nat) {lens : List Nat} {last : Nat}, lens.getLast? = some last →
      lens.length + j ≤ 320 → copyPrevious j lens = some (lens ++ List.replicate j last) := by
  intro j
  induction j with
  | zero => intro lens last _ _; rw [copyPrevious, List.replicate_zero, List.append_nil]
  | succ j ih =>
    intro lens last hlast hroom
    have hpush : pushLength lens last = some (lens ++ [last]) := by
      rw [pushLength, if_pos (by omega)]
    have hroom' : (lens ++ [last]).length + j ≤ 320 := by
      rw [List.length_append, List.length_singleton]
      omega
    have hrec := ih List.getLast?_concat hroom'
    rw [List.append_assoc] at hrec
    rw [copyPrevious, hlast, Option.bind_eq_bind, Option.bind_some, hpush]
    exact hrec

/-- Filling with zeros. -/
theorem pushZeros_eq :
    ∀ (j : Nat) {lens : List Nat}, lens.length + j ≤ 320 →
      pushZeros j lens = some (lens ++ List.replicate j 0) := by
  intro j
  induction j with
  | zero => intro lens _; rw [pushZeros, List.replicate_zero, List.append_nil]
  | succ j ih =>
    intro lens hroom
    have hpush : pushLength lens 0 = some (lens ++ [0]) := by
      rw [pushLength, if_pos (by omega)]
    have hroom' : (lens ++ [0]).length + j ≤ 320 := by
      rw [List.length_append, List.length_singleton]
      omega
    have hrec := ih hroom'
    rw [List.append_assoc] at hrec
    rw [pushZeros, hpush]
    exact hrec

/-- Moving past a repetition count, whose value is in the low bits. -/
theorem advanceNumBits_number {ib : InputBuffer} {r r' : FlatReader} {n m k mask : Nat}
    (hmask : mask = 2 ^ n - 1) (h : Tracks mem pages dataOffset ib r) (hn : n ≤ m) (hm : m ≤ 57)
    (hshow : r.Shows m ib.bits) (hr : Deflate.readNumber n r = some (k, r')) :
    ∃ ib', advanceNumBits ib n = (true, ib') ∧ ib'.bits &&& mask = k ∧
      Tracks mem pages dataOffset ib' r' := by
  obtain ⟨hadv, rfl⟩ := Deflate.readNumber_eq_some.mp hr
  obtain ⟨ib', hib, hbits, h'⟩ := advanceNumBits_some h (by omega) hadv
  exact ⟨ib', hib, by rw [hbits, hmask]; exact hshow.and_mask hn hadv, h'⟩

/-- **The code lengths**, read symbol by symbol, with the three repetitions. -/
theorem readLengths_spec {code : List Nat} (hcode : ValidLengths code) (hlen : code.length = 19)
    {n : Nat} (hn : n ≤ 320) {lens' : List Nat} {r' : FlatReader} :
    ∀ (fuel : Nat) {lens : List Nat} {ib : InputBuffer} {r : FlatReader} (numBitsUsed : Nat),
      Tracks mem pages dataOffset ib r →
      Deflate.readCodeLengths reachedOnly code n fuel lens r = some (lens', r') →
      ∃ ib', readLengths mem (initHuffmanDecoder code) n fuel lens ib numBitsUsed
          = some (ib', .ok lens') ∧ Tracks mem pages dataOffset ib' r' := by
  intro fuel
  induction fuel with
  | zero => intro _ _ _ _ _ href; exact absurd href (by simp [Deflate.readCodeLengths])
  | succ fuel ih =>
    intro lens ib r numBitsUsed h href
    rw [readLengths]
    obtain ⟨hdone, rfl, rfl⟩ | ⟨hlt, s, r₁, hs, hcases⟩ := Deflate.readCodeLengths_succ href
    · rw [if_neg (by omega)]
      exact ⟨ib, rfl, h⟩
    · obtain ⟨htracks, hshow⟩ := getNextBits_spec h
      obtain ⟨hdecode, hadv, hle, hs19⟩ :=
        huffmanDecode_readSymbol hcode hs hshow (by decide) numBitsUsed
      obtain ⟨ib₁, hib₁, hbits, h₁⟩ := advanceNumBits_some
        (tracks_bits htracks ((getNextBits mem ib).bits >>> codeLen code s)) (by omega) hadv
      have hshow₁ : r₁.Shows (57 - codeLen code s) ib₁.bits := by
        rw [hbits]
        exact hshow.shift hadv
      rw [if_pos hlt]
      simp only [hdecode, Option.bind_eq_bind, Option.bind_some]
      rw [Nat.mod_eq_of_lt (by omega), hib₁]
      dsimp only
      obtain ⟨h15, hrec⟩ | ⟨rfl, last, k, r₂, hlast, hk, hrec⟩ | ⟨rfl, k, r₂, hk, hrec⟩ |
        ⟨h17, k, r₂, hk, hrec⟩ := hcases
      · -- a length
        have hroom : lens.length < 320 := by omega
        rw [if_pos (by simp; omega), pushLength, if_pos hroom]
        exact ih _ h₁ hrec
      · obtain ⟨hroom, _⟩ := Deflate.readCodeLengths_length _ hrec
        rw [List.length_append, List.length_replicate] at hroom
        -- the previous length again
        obtain ⟨ib₂, hib₂, rfl, h₂⟩ := advanceNumBits_number (show 0x03 = _ from rfl) h₁ (by omega) (by omega)
          hshow₁ hk
        rw [if_neg (by simp), if_pos (show Int.ofNat 16 = 16 from rfl), hib₂]
        dsimp only
        rw [copyPrevious_eq _ hlast (by omega)]
        exact ih _ h₂ hrec
      · obtain ⟨hroom, _⟩ := Deflate.readCodeLengths_length _ hrec
        rw [List.length_append, List.length_replicate] at hroom
        -- zeros, a few
        obtain ⟨ib₂, hib₂, rfl, h₂⟩ := advanceNumBits_number (show 0x07 = _ from rfl) h₁ (by omega) (by omega)
          hshow₁ hk
        rw [if_neg (by simp), if_neg (by simp), if_pos (show Int.ofNat 17 = 17 from rfl), hib₂]
        dsimp only
        rw [pushZeros_eq _ (by omega)]
        exact ih _ h₂ hrec
      · obtain ⟨hroom, _⟩ := Deflate.readCodeLengths_length _ hrec
        rw [List.length_append, List.length_replicate] at hroom
        -- zeros, many
        obtain rfl : s = 18 := by omega
        obtain ⟨ib₂, hib₂, rfl, h₂⟩ := advanceNumBits_number (show 0x7F = _ from rfl) h₁ (by omega) (by omega)
          hshow₁ hk
        rw [if_neg (by simp), if_neg (by simp), if_neg (by simp),
          if_pos (show Int.ofNat 18 = 18 from rfl), hib₂]
        dsimp only
        rw [pushZeros_eq _ (by omega)]
        exact ih _ h₂ hrec

/-- Lengths that are not over-subscribed. -/
theorem validLengths_of_validCode {lens : List Nat} (hlen : lens.length ≤ 288)
    (hle : ∀ l ∈ lens, l ≤ 15) (hvalid : Deflate.validCode lens = true) : ValidLengths lens :=
  ⟨hlen, hle, of_decide_eq_true hvalid⟩

/-- **The header of a block gives the decoders of both codes.** -/
theorem initDynamicDecoder_spec (garbage : Nat → Nat) {inflate : Inflate} {r r' : FlatReader}
    {litlen dist : List Nat} (h : Tracks mem pages dataOffset inflate.inputBuffer r)
    (href : Deflate.readCodes reachedOnly r = some ((litlen, dist), r')) :
    ∃ ib', initDynamicDecoder mem garbage inflate
        = some (.inr ({ inflate with inputBuffer := ib' }, initHuffmanDecoder litlen,
            initHuffmanDecoder dist)) ∧
      Tracks mem pages dataOffset ib' r' ∧ ValidLengths litlen ∧ ValidLengths dist := by
  obtain ⟨hlit, r₁, hdist, r₂, hclen, r₃, code, r₄, lens, h1, h2, h3, h4, h5, h6, rfl, rfl, h7,
    h8⟩ := Deflate.readCodes_spec href
  obtain ⟨hadv₁, rfl⟩ := Deflate.readNumber_eq_some.mp h1
  obtain ⟨hadv₂, rfl⟩ := Deflate.readNumber_eq_some.mp h2
  obtain ⟨hadv₃, rfl⟩ := Deflate.readNumber_eq_some.mp h3
  -- the three counts are read at once
  have hall := FlatReader.advance_add (FlatReader.advance_add hadv₁ hadv₂) hadv₃
  obtain ⟨ib₁, hib₁, hshow, h₁⟩ := useNumBits_some h (by omega) hall
  have hmask₁ : ib₁.bits &&& 0x1F = lsbFirst r.ahead 5 := hshow.and_mask (by omega) hadv₁
  have hshow₁ := hshow.shift hadv₁
  have hmask₂ : ib₁.bits >>> 5 &&& 0x1F = lsbFirst r₁.ahead 5 := hshow₁.and_mask (by omega) hadv₂
  have hmask₃ : ib₁.bits >>> 5 >>> 5 &&& 0x0F = lsbFirst r₂.ahead 4 :=
    (hshow₁.shift hadv₂).and_mask (by omega) hadv₃
  have hlit_lt := lsbFirst_lt r.ahead 5
  have hdist_lt := lsbFirst_lt r₁.ahead 5
  obtain ⟨ib₂, hib₂, h₂, hlen, hlt⟩ :=
    readCodelenLengths_spec _ (tracks_bits h₁ (ib₁.bits >>> 5 >>> 5 >>> 4)) h4
  rw [List.length_replicate] at hlen
  have hcode : ValidLengths code := by
    refine validLengths_of_validCode (by omega) (fun l hl => ?_) h5
    have := hlt (fun l hl => by rw [List.eq_of_mem_replicate hl]; decide) l hl
    omega
  obtain ⟨ib', hib', h'⟩ :=
    readLengths_spec hcode hlen (by omega) _ (garbage inflate.inputBuffer.bitPos) h₂ h6
  obtain ⟨_, hlens, _⟩ := Deflate.readCodeLengths_length _ h6
  have hle := Deflate.readCodeLengths_le _ h6 (by simp)
  refine ⟨ib', ?_, h', validLengths_of_validCode ?_ (fun l hl => hle l (List.mem_of_mem_take hl)) h7,
    validLengths_of_validCode ?_ (fun l hl => hle l (List.mem_of_mem_drop hl)) h8⟩
  · -- the source passes all that is left as the second code
    have hall_dist : (lens.drop (lsbFirst r.ahead 5 + 257)).take (lsbFirst r₁.ahead 5 + 1)
        = lens.drop (lsbFirst r.ahead 5 + 257) :=
      List.take_of_length_le (by rw [List.length_drop]; omega)
    have hfuel : lsbFirst r.ahead 5 + 257 + (lsbFirst r₁.ahead 5 + 1) + 1
        = lsbFirst r.ahead 5 + lsbFirst r₁.ahead 5 + 259 := by omega
    unfold initDynamicDecoder
    rw [hib₁, show codelenLengthsOrder = Deflate.codeLengthOrder from rfl]
    simp only [hmask₁, hmask₂, hmask₃]
    rw [hib₂]
    simp only [hfuel, hib', hall_dist, Option.bind_eq_bind, Option.bind_some, Option.pure_def]
  · rw [List.length_take]
    omega
  · rw [List.length_drop]
    omega

/-! ## Blocks -/

/-- Masking the bits above the lowest one. -/
theorem and_six (bits : Nat) : bits &&& 0x06 = 2 * (bits >>> 1 &&& 0x03) := by
  refine Nat.eq_of_testBit_eq fun j => ?_
  rw [Nat.testBit_and]
  cases j with
  | zero => simp
  | succ j =>
    have hhalf : 2 * (bits >>> 1 &&& 0x03) / 2 = bits >>> 1 &&& 0x03 := by omega
    rw [Nat.testBit_succ, Nat.testBit_succ, Nat.testBit_succ, hhalf, Nat.testBit_and,
      Nat.testBit_shiftRight, Nat.add_comm 1 j, Nat.testBit_succ]

/-- The header of a block: the final bit, then the type, from one word. -/
theorem blockHeader_bits {bits n : Nat} {r r₁ r₂ : FlatReader} {final type : Nat}
    (hshow : r.Shows n bits) (hn : 3 ≤ n) (hfinal : Deflate.readNumber 1 r = some (final, r₁))
    (htype : Deflate.readNumber 2 r₁ = some (type, r₂)) :
    bits &&& 0x01 = final ∧ bits &&& 0x06 = 2 * type := by
  obtain ⟨hadv₁, rfl⟩ := Deflate.readNumber_eq_some.mp hfinal
  obtain ⟨hadv₂, rfl⟩ := Deflate.readNumber_eq_some.mp htype
  have hmask : bits >>> 1 &&& 0x03 = lsbFirst r₁.ahead 2 :=
    (hshow.shift hadv₁).and_mask (by omega) hadv₂
  exact ⟨hshow.and_mask (by omega) hadv₁, by rw [and_six, hmask]⟩

/-- What `inflate` does after the data of a block. -/
def afterBlock (mem : Mem) (garbage : Nat → Nat) (fuel final : Nat) :
    Bool × Inflate → Option (Bool × Inflate)
  | (okStatus, inflate) =>
    if final = 0 ∧ okStatus then inflateLoop mem garbage fuel inflate
    else if okStatus then some (true, { inflate with status := .success })
    else some (false, inflate)

/-- The loop of `inflate` reaches the data of a block with the decoders of its codes. -/
theorem inflateLoop_codes (garbage : Nat → Nat) (fuel : Nat) {inflate : Inflate}
    {r r₁ r₂ r₃ : FlatReader} {final : Nat} {litlen dist : List Nat}
    (h : Tracks mem pages dataOffset inflate.inputBuffer r)
    (hfinal : Deflate.readNumber 1 r = some (final, r₁))
    (htype : Deflate.readNumber 2 r₁ = some (2, r₂))
    (hcodes : Deflate.readCodes reachedOnly r₂ = some ((litlen, dist), r₃)) :
    ∃ ib', Tracks mem pages dataOffset ib' r₃ ∧ ValidLengths litlen ∧ ValidLengths dist ∧
      inflateLoop mem garbage (fuel + 1) inflate =
        (processLiteralBackrefBlock mem garbage { inflate with inputBuffer := ib' }
          (initHuffmanDecoder litlen) (initHuffmanDecoder dist)).bind
            (afterBlock mem garbage fuel final) := by
  have hadv := FlatReader.advance_add (Deflate.readNumber_eq_some.mp hfinal).1
    (Deflate.readNumber_eq_some.mp htype).1
  obtain ⟨ib₁, hib₁, hshow, h₁⟩ := useNumBits_some h (by omega) hadv
  obtain ⟨hbit, hbits⟩ := blockHeader_bits hshow (by omega) hfinal htype
  have hheader : Tracks mem pages dataOffset
      { inflate with inputBuffer := { ib₁ with bits := ib₁.bits >>> 3 } }.inputBuffer r₂ :=
    tracks_bits h₁ _
  obtain ⟨ib', hinit, h', hlitlen, hdist⟩ := initDynamicDecoder_spec garbage hheader hcodes
  refine ⟨ib', h', hlitlen, hdist, ?_⟩
  rw [inflateLoop, hib₁]
  simp only [hbit, hbits]
  rw [if_neg (by decide), if_pos (by decide), processDynamicDeflateBlock, hinit]
  rfl

/-- A block whose first symbol the decoder does not find ends the loop with an error. -/
theorem inflateLoop_lost (garbage : Nat → Nat) (fuel : Nat) {inflate : Inflate}
    {r r₁ r₂ r₃ : FlatReader} {final : Nat} {litlen dist : List Nat}
    (h : Tracks mem pages dataOffset inflate.inputBuffer r)
    (hfinal : Deflate.readNumber 1 r = some (final, r₁))
    (htype : Deflate.readNumber 2 r₁ = some (2, r₂))
    (hcodes : Deflate.readCodes reachedOnly r₂ = some ((litlen, dist), r₃))
    (hlost : ∀ bits numBitsUsed, r₃.Shows 57 bits →
      huffmanDecode bits (initHuffmanDecoder litlen) numBitsUsed = some (-1, numBitsUsed)) :
    ∃ inflate', inflateLoop mem garbage (fuel + 1) inflate = some (false, inflate') ∧
      inflate'.status = .inputError := by
  obtain ⟨ib, h', _, _, hloop⟩ := inflateLoop_codes garbage fuel h hfinal htype hcodes
  have hdecode := hlost _ (garbage ib.bitPos) (getNextBits_spec h').2
  have hinput : ib = { inflate with inputBuffer := ib }.inputBuffer := rfl
  rw [hinput] at hdecode
  obtain ⟨inflate', hround, hstatus⟩ :=
    literalBackrefRound_lost (initHuffmanDecoder dist) hdecode
  refine ⟨inflate', ?_, hstatus⟩
  rw [hloop, processLiteralBackrefBlock, literalBackrefLoop, hround]
  show afterBlock mem garbage fuel final (false, inflate') = some (false, inflate')
  rw [afterBlock, if_neg (by simp), if_neg (by simp)]

/-- **The blocks of a stream, one after the other.** -/
theorem inflateLoop_spec (garbage : Nat → Nat) {r' : FlatReader} {out' : List UInt8}
    (hroom : out'.length ≤ INFLATE_OUTPUT_LENGTH) :
    ∀ (fuel : Nat) {inflate : Inflate} {r : FlatReader} {out : List UInt8},
      Holds mem pages dataOffset inflate r out →
      Deflate.readBlocks reachedOnly fuel out r = some (out', r') →
      ∃ inflate', inflateLoop mem garbage fuel inflate = some (true, inflate') ∧
        Holds mem pages dataOffset inflate' r' out' ∧ inflate'.status = .success := by
  intro fuel
  induction fuel with
  | zero => intro _ _ _ _ href; exact absurd href (by simp [Deflate.readBlocks])
  | succ fuel ih =>
    intro inflate r out h href
    obtain ⟨final, r₁, r₂, litlen, dist, r₃, out₁, r₄, h1, h2, h3, h4, hcases⟩ :=
      Deflate.readBlocks_succ href
    -- the bytes of this block are among those of the whole stream
    have hgrow : out₁.length ≤ out'.length := by
      obtain ⟨_, rfl, _⟩ | ⟨_, hrec⟩ := hcases
      · exact Nat.le_refl _
      · exact Deflate.readBlocks_length_le _ hrec
    obtain ⟨ib₁, h₁, hlitlen, hdist, hloop⟩ := inflateLoop_codes garbage fuel h.input h1 h2 h3
    have hcodes : Holds mem pages dataOffset { inflate with inputBuffer := ib₁ } r₃ out :=
      ⟨h₁, h.output⟩
    have htotal : ib₁.totalNumBits = r₃.total := h₁.total_eq
    obtain ⟨inflate₂, hblock, h₂, hstatus⟩ := literalBackrefLoop_spec hlitlen hdist (by omega)
      (r₃.total + 1) (garbage ib₁.bitPos) hcodes h4
    rw [hloop, processLiteralBackrefBlock, htotal, hblock, Option.bind_some, afterBlock]
    have hlt : final < 2 := by
      rw [(Deflate.readNumber_eq_some.mp h1).2]
      exact lsbFirst_lt _ 1
    obtain ⟨rfl, rfl, rfl⟩ | ⟨hne, hrec⟩ := hcases
    · exact ⟨{ inflate₂ with status := .success }, rfl, ⟨h₂.input, h₂.output⟩, rfl⟩
    · rw [if_pos ⟨by omega, rfl⟩]
      exact ih h₂ hrec

end

/-! ## Whole streams -/

/-- `initInflate` followed by `inflate` succeeds, with `out` in the slab. -/
def Decompresses (mem : Mem) (garbage : Nat → Nat) (slab : Mem) (first : FileBuffer)
    (rest : List FileBuffer) (length : Nat) (out : List UInt8) : Prop :=
  ∃ st, inflate mem garbage (initInflate slab first rest length) = some (true, st) ∧
    st.status = .success ∧ OutputHolds st.outputBuffer out

/-- Bytes at the start of a chain of pages that decode to `out`: they lie in these pages, and the
reference decodes them to no more than a slab, by symbols that the decoder tables have. -/
structure Decodes (mem : Mem) (first : FileBuffer) (rest : List FileBuffer) (length : Nat)
    (out : List UInt8) : Prop where
  inside : first.dataOffset < MEMORY_PAGE_SIZE
  length_lt : length < 2 ^ 29
  room : first.dataOffset + length ≤ MEMORY_PAGE_SIZE * (first :: rest).length
  decoded : Deflate.inflate reachedOnly (pageStream mem (first :: rest) first.dataOffset)
    (8 * length) = some out
  fits : out.length ≤ INFLATE_OUTPUT_LENGTH

/-- **They are decompressed.** -/
theorem Decodes.decompresses {mem : Mem} {first : FileBuffer} {rest : List FileBuffer}
    {length : Nat} {out : List UInt8} (h : Decodes mem first rest length out)
    (garbage : Nat → Nat) (slab : Mem) : Decompresses mem garbage slab first rest length out := by
  obtain ⟨⟨out', r'⟩, hblocks, rfl⟩ := Option.map_eq_some_iff.mp h.decoded
  have htracks := initInputBuffer_tracks mem rest h.inside h.length_lt h.room
  have hstart : Holds mem (first :: rest) first.dataOffset (initInflate slab first rest length)
      ⟨pageStream mem (first :: rest) first.dataOffset, 8 * length, 0⟩ [] :=
    ⟨htracks, rfl, fun a ha => absurd ha (Nat.not_lt_zero a)⟩
  have htotal : (initInflate slab first rest length).inputBuffer.totalNumBits = 8 * length :=
    htracks.total_eq
  obtain ⟨st, hrun, hholds, hstatus⟩ := inflateLoop_spec garbage h.fits _ hstart hblocks
  refine ⟨st, ?_, hstatus, hholds.output⟩
  rw [inflate, htotal]
  exact hrun

/-- **`inflate` decodes what the reference decodes.** For every stream of blocks
with dynamic codes that the reference decodes to no more than a slab, however it
lies in the pages: `inflate` returns `true` with those bytes, if the stream does not
need a symbol that the decoder tables have lost. -/
theorem inflate_correct (mem : Mem) (garbage : Nat → Nat) (slab : Mem) (first : FileBuffer)
    (rest : List FileBuffer) (length : Nat) (out : List UInt8)
    (hoff : first.dataOffset < MEMORY_PAGE_SIZE) (hlen : length < 2 ^ 29)
    (hroom : first.dataOffset + length ≤ MEMORY_PAGE_SIZE * (first :: rest).length)
    (href : Deflate.inflate Deflate.allSymbols (pageStream mem (first :: rest) first.dataOffset)
      (8 * length) = some out)
    (hsize : out.length ≤ INFLATE_OUTPUT_LENGTH)
    (hreached : (Deflate.inflate reachedOnly (pageStream mem (first :: rest) first.dataOffset)
      (8 * length)).isSome) :
    Decompresses mem garbage slab first rest length out := by
  obtain ⟨out', hout'⟩ := Option.isSome_iff_exists.mp hreached
  obtain rfl : out' = out := Option.some.inj ((Deflate.inflate_mono hout').symm.trans href)
  exact Decodes.decompresses ⟨hoff, hlen, hroom, hout', hsize⟩ garbage slab

/-- A block with the literal `a` and a match of length 3 at distance 1. -/
def fourLetters : List UInt8 := [13, 192, 129, 0, 0, 0, 0, 128, 32, 214, 252, 37, 62, 11]

/-- The block starts six bytes before the end of a page. -/
theorem inflate_correct_fourLetters :
    let mem : Mem := fun a =>
      if a < 65536 then fourLetters.getD (a - (8192 + 4090)) 0
      else fourLetters.getD (a - 65536 + 6) 0
    Decompresses mem (fun _ => 0) (fun _ => 0) ⟨8192, 0, 4090, 4096⟩ [⟨65536, 4096, 0, 4096⟩] 14
      [97, 97, 97, 97] :=
  inflate_correct _ _ _ _ _ 14 _ (by decide) (by decide) (by decide) (by decide +kernel)
    (by decide) (by decide +kernel)

/-- A block whose first code is the one of `manyNineBit`: the literal `0`. -/
def nineBitBlock : Mem := fun a =>
  [5, 192, 3, 0, 16, 0, 0, 0, 160, 109, 219, 182, 109, 219, 182, 109, 219, 182, 109, 219, 182,
    109, 219, 182, 109, 84, 0].getD a 0

/-- Position `pos` of that block, in a page of its own. -/
def nineBitReader (pos : Nat) : FlatReader :=
  ⟨pageStream nineBitBlock [⟨0, 0, 0, 4096⟩] 0, 8 * 27, pos⟩

theorem nineBitBlock_codes :
    Deflate.readNumber 1 (nineBitReader 0) = some (1, nineBitReader 1) ∧
      Deflate.readNumber 2 (nineBitReader 1) = some (2, nineBitReader 3) ∧
      Deflate.readCodes reachedOnly (nineBitReader 3)
        = some ((manyNineBit, [1]), nineBitReader 206) := by
  have hnumber : ∀ (pos n v : Nat), pos + n ≤ 8 * 27 → v = lsbFirst (nineBitReader pos).ahead n →
      Deflate.readNumber n (nineBitReader pos) = some (v, nineBitReader (pos + n)) :=
    fun pos n v hend hv =>
      Deflate.readNumber_eq_some.mpr ⟨FlatReader.advance_eq_some.mpr ⟨hend, rfl⟩, hv⟩
  refine ⟨hnumber 0 1 1 (by decide) (by decide +kernel), hnumber 1 2 2 (by decide)
    (by decide +kernel), ?_⟩
  have hrun : (Deflate.readCodes reachedOnly (nineBitReader 3)).map (fun p => (p.1, p.2.pos))
      = some ((manyNineBit, [1]), 206) := by decide +kernel
  obtain ⟨⟨codes, r⟩, hcodes, heq⟩ := Option.map_eq_some_iff.mp hrun
  obtain ⟨rfl, hpos⟩ := Prod.mk.inj heq
  have hlater := Deflate.readCodes_later hcodes
  rw [hcodes, show r = nineBitReader 206 from
    FlatReader.ext hlater.stream hlater.total hpos]

theorem nineBitBlock_data :
    Begins manyNineBit (nineBitReader 206).ahead 0 ∧
      Begins manyNineBit (nineBitReader 215).ahead 256 := by
  unfold Begins
  decide +kernel

/-- The reference finds the literal. -/
theorem nineBitBlock_inflate :
    Deflate.inflate Deflate.allSymbols (pageStream nineBitBlock [⟨0, 0, 0, 4096⟩] 0) (8 * 27)
      = some [0] := by
  obtain ⟨hfinal, htype, hcodes⟩ := nineBitBlock_codes
  obtain ⟨hliteral, hend⟩ := nineBitBlock_data
  have hle : ∀ l ∈ manyNineBit, l ≤ 15 := by decide +kernel
  have hlen : codeLen manyNineBit 0 = 9 ∧ codeLen manyNineBit 256 = 1 := by decide +kernel
  have h₁ : Deflate.readSymbol Deflate.allSymbols manyNineBit (nineBitReader 206)
      = some (0, nineBitReader 215) :=
    Deflate.readSymbol_of_begins hle hliteral (by rw [hlen.1]; rfl) rfl
  have h₂ : Deflate.readSymbol Deflate.allSymbols manyNineBit (nineBitReader 215)
      = some (256, nineBitReader 216) :=
    Deflate.readSymbol_of_begins hle hend (by rw [hlen.2]; rfl) rfl
  have hdata : ∀ fuel, Deflate.readData Deflate.allSymbols manyNineBit [1] (fuel + 1 + 1) []
      (nineBitReader 206) = some ([0], nineBitReader 216) := by
    intro fuel
    rw [Deflate.readData_literal h₁ (by decide), Deflate.readData_end h₂]
    rfl
  have hblocks : Deflate.readBlocks Deflate.allSymbols (8 * 27 + 1) [] (nineBitReader 0)
      = some ([0], nineBitReader 216) :=
    Deflate.readBlocks_final hfinal htype (Deflate.readCodes_mono hcodes) (hdata 215)
  exact Option.map_eq_some_iff.mpr ⟨_, hblocks, rfl⟩

/-- **A valid stream that is rejected**: it holds a single literal, whose codeword is
one of the 256 of nine bits that the decoder tables lose. -/
theorem inflate_rejects_nineBitBlock :
    Deflate.inflate Deflate.allSymbols (pageStream nineBitBlock [⟨0, 0, 0, 4096⟩] 0) (8 * 27)
        = some [0] ∧
      ∀ garbage slab,
        (∃ st, inflate nineBitBlock garbage (initInflate slab ⟨0, 0, 0, 4096⟩ [] 27)
          = some (false, st) ∧ st.status = .inputError) ∧
        ¬ Decompresses nineBitBlock garbage slab ⟨0, 0, 0, 4096⟩ [] 27 [0] := by
  refine ⟨nineBitBlock_inflate, fun garbage slab => ?_⟩
  obtain ⟨hfinal, htype, hcodes⟩ := nineBitBlock_codes
  have hstart : Tracks nineBitBlock [⟨0, 0, 0, 4096⟩] 0
      (initInflate slab ⟨0, 0, 0, 4096⟩ [] 27).inputBuffer (nineBitReader 0) :=
    initInputBuffer_tracks nineBitBlock [] (by decide) (by decide) (by decide)
  have hlen : codeLen manyNineBit 0 = 9 := by decide +kernel
  have hsymbol : (0 : Nat) < 256 := by decide
  obtain ⟨st, hrun, hstatus⟩ := inflateLoop_lost garbage (8 * 27) hstart hfinal htype hcodes
    fun bits numBitsUsed hshow => huffmanDecode_manyNineBit hsymbol
      (begins_of_shows hshow (by rw [hlen]; decide) (by rw [hlen]; decide) nineBitBlock_data.1)
      numBitsUsed
  refine ⟨⟨st, hrun, hstatus⟩, ?_⟩
  intro ⟨st', hsuccess, _⟩
  have hrun' := hrun.symm.trans hsuccess
  exact absurd hrun' (by simp)

end DevopsBroker.Compress
