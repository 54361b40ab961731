import DevopsBroker.Compress.CodeLengthsAccess
import DevopsBroker.Lib.Exactly

/-!
# When `inflate` comes back

Whatever the pages hold, and whatever length is claimed: each round of the three loops either
returns or consumes at least one bit, and no read gets past the end of the stream, as long as the
code lengths are stored inside of their array. A round of the block loop consumes three bits ahead
of the block. The other two use what `huffmanDecode` says, which is at least one bit for every
symbol (`huffmanDecode_uses`); a code that is incomplete or empty gives no symbol, and the loop
returns.

- `rounds_lengthsTurn`, `rounds_literalTurn`, `rounds_blockRound`: the loops of `inflate`, in rounds;
- `rounds_lengthsTurn_exactly`: the code lengths are read exactly where they are stored inside;
- **`inflate_terminates_iff`**: a call terminates exactly if this holds of each block with codes of
  its own that it gets to.
-/

namespace DevopsBroker.Compress

open DevopsBroker.Lib DevopsBroker.Io DevopsBroker.Lang

/-! ## Literals and back references -/

/-- The end of a round, in general terms. -/
def Round.turn : Round → Turn (Inflate × Nat) (Bool × Inflate)
  | .next inflate numBitsUsed => .next (inflate, numBitsUsed)
  | .done result => .done result

/-- One round of the loop of `processLiteralBackrefBlock`, in general terms. -/
def literalTurn (mem : Mem) (litlenDecoder distDecoder : HuffmanDecoder) (st : Inflate × Nat) :
    Option (Turn (Inflate × Nat) (Bool × Inflate)) :=
  (literalBackrefRound mem litlenDecoder distDecoder st.1 st.2).map Round.turn

theorem rounds_literalTurn (mem : Mem) (litlenDecoder distDecoder : HuffmanDecoder) (fuel : Nat) :
    ∀ (inflate : Inflate) (numBitsUsed : Nat),
      literalBackrefLoop mem litlenDecoder distDecoder fuel inflate numBitsUsed =
        rounds (literalTurn mem litlenDecoder distDecoder) fuel (inflate, numBitsUsed) := by
  induction fuel with
  | zero =>
    intro inflate numBitsUsed
    rfl
  | succ fuel ih =>
    intro inflate numBitsUsed
    rw [literalBackrefLoop, rounds, literalTurn]
    rcases literalBackrefRound mem litlenDecoder distDecoder inflate numBitsUsed with _ | round
    · rfl
    · cases round with
      | next inflate numBitsUsed => exact ih inflate numBitsUsed
      | done result => rfl

theorem litlenTbl_extraBits (i : Nat) : (litlenTbl.getD i (0, 0)).2 ≤ 5 := by
  have hall : ∀ i < 29, (litlenTbl.getD i (0, 0)).2 ≤ 5 := by decide
  rcases Nat.lt_or_ge i 29 with hlt | hge
  · exact hall i hlt
  · rw [Array.getD_eq_getD_getElem?, Array.getElem?_eq_none hge]
    exact Nat.zero_le 5

theorem distTbl_extraBits (i : Nat) : (distTbl.getD i (0, 0)).2 ≤ 13 := by
  have hall : ∀ i < 30, (distTbl.getD i (0, 0)).2 ≤ 13 := by decide
  rcases Nat.lt_or_ge i 30 with hlt | hge
  · exact hall i hlt
  · rw [Array.getD_eq_getD_getElem?, Array.getElem?_eq_none hge]
    exact Nat.zero_le 13

/-- A round that starts at `ib`: it goes on with a bit consumed, or returns. -/
def Round.Progress (ib : InputBuffer) : Round → Prop
  | .next inflate _ => ib.Advanced 1 inflate.inputBuffer
  | .done (_, inflate) => ib.Advanced 0 inflate.inputBuffer

theorem Round.Progress.trans {ib ib' : InputBuffer} {round : Round}
    (hround : round.Progress ib') (h : ib.Advanced 0 ib') : round.Progress ib := by
  cases round with
  | next inflate numBitsUsed => exact (h.trans hround).weaken (Nat.le_add_left _ _)
  | done result => exact h.trans hround

theorem backrefRound_progress {distDecoder : HuffmanDecoder} (h : distDecoder.Answers)
    {inflate : Inflate} (hwithin : inflate.inputBuffer.Within) (litlen : Nat) {numBitsUsed : Nat}
    (hpos : 0 < numBitsUsed) (hlt : numBitsUsed < 2 ^ 7) :
    ∃ round, backrefRound distDecoder inflate litlen numBitsUsed = some round ∧
      round.Progress inflate.inputBuffer := by
  have hlength := litlenTbl_extraBits (litlen - 257)
  unfold backrefRound
  rcases hlengthEntry : litlenTbl.getD (litlen - 257) (0, 0) with ⟨baseLength, lengthBits⟩
  rw [hlengthEntry] at hlength
  obtain ⟨⟨distSymbol, used⟩, hdecode⟩ := Option.isSome_iff_exists.mp
    (h.isSome (inflate.inputBuffer.bits >>> lengthBits) numBitsUsed)
  have huses := huffmanDecode_uses h.small hdecode
  have hdist := distTbl_extraBits distSymbol.toNat
  rcases hdistEntry : distTbl.getD distSymbol.toNat (0, 0) with ⟨baseDist, distBits⟩
  rw [hdistEntry] at hdist
  simp only [hdecode, Option.bind_eq_bind, Option.bind_some, hdistEntry]
  split
  next _ => exact ⟨_, rfl, hwithin.withBits _⟩
  next hsymbol =>
    obtain ⟨_, hused⟩ := huses.resolve_left (by omega)
    generalize hadvance : advanceNumBits _ _ = advanced
    obtain ⟨ok, ib⟩ := advanced
    have hbits := hwithin.withBits (inflate.inputBuffer.bits >>> lengthBits >>> used >>> distBits)
    obtain ⟨hzero, hone⟩ := hbits.consume hwithin hadvance
    cases ok with
    | false => exact ⟨_, rfl, hzero⟩
    | true =>
      dsimp only at hlength hdist ⊢
      split
      next _ => exact ⟨_, rfl, hzero⟩
      next _ =>
        split
        next _ => exact ⟨_, rfl, hzero⟩
        next _ => exact ⟨_, rfl, hone rfl (by omega) (by omega)⟩

theorem literalBackrefRound_progress (mem : Mem) {litlenDecoder distDecoder : HuffmanDecoder}
    (hlitlen : litlenDecoder.Answers) (hdist : distDecoder.Answers) {inflate : Inflate}
    (hwithin : inflate.inputBuffer.Within) (numBitsUsed : Nat) :
    ∃ round, literalBackrefRound mem litlenDecoder distDecoder inflate numBitsUsed = some round ∧
      round.Progress inflate.inputBuffer := by
  obtain ⟨⟨litlen, used⟩, hdecode⟩ := Option.isSome_iff_exists.mp
    (hlitlen.isSome (getNextBits mem inflate.inputBuffer).bits numBitsUsed)
  have hbits : inflate.inputBuffer.Advanced 0
      { getNextBits mem inflate.inputBuffer with
        bits := (getNextBits mem inflate.inputBuffer).bits >>> used } := hwithin.withBits _
  unfold literalBackrefRound
  dsimp only [bind]
  rw [hdecode]
  dsimp only [Option.bind]
  split
  next _ => exact ⟨_, rfl, hbits⟩
  next hsymbol =>
    obtain ⟨hpos, hlt⟩ := (huffmanDecode_uses hlitlen.small hdecode).resolve_left (by omega)
    split
    next _ =>
      -- a literal
      generalize hadvance : advanceNumBits _ _ = advanced
      obtain ⟨ok, ib⟩ := advanced
      obtain ⟨hzero, hone⟩ := hbits.consume hwithin hadvance
      cases ok with
      | false => exact ⟨_, rfl, hzero⟩
      | true =>
        dsimp only
        split
        next _ => exact ⟨_, rfl, hzero⟩
        next _ => exact ⟨_, rfl, hone rfl hpos (by omega)⟩
    next _ =>
      split
      next _ =>
        -- the end of the block
        generalize hadvance : advanceNumBits _ _ = advanced
        obtain ⟨ok, ib⟩ := advanced
        obtain ⟨hzero, _⟩ := hbits.consume hwithin hadvance
        cases ok with
        | false => exact ⟨_, rfl, hzero⟩
        | true => exact ⟨_, rfl, hzero⟩
      next _ =>
        obtain ⟨round, hrun, hprogress⟩ := @backrefRound_progress distDecoder hdist
          { inflate with inputBuffer :=
              { getNextBits mem inflate.inputBuffer with
                bits := (getNextBits mem inflate.inputBuffer).bits >>> used } }
          (hbits.within hwithin) litlen.toNat used hpos hlt
        exact ⟨round, hrun, hprogress.trans hbits⟩

/-- **Every round of `processLiteralBackrefBlock` returns or consumes a bit.** -/
theorem literalTurn_progresses (mem : Mem) {litlenDecoder distDecoder : HuffmanDecoder}
    (hlitlen : litlenDecoder.Answers) (hdist : distDecoder.Answers) :
    Progresses (literalTurn mem litlenDecoder distDecoder) (fun st => st.1.inputBuffer)
      fun result => result.2.inputBuffer := by
  intro st hwithin
  obtain ⟨round, hrun, hprogress⟩ :=
    literalBackrefRound_progress mem hlitlen hdist hwithin st.2
  refine ⟨round.turn, ?_, ?_⟩
  · rw [literalTurn, hrun]
    rfl
  · cases round with
    | next inflate numBitsUsed => exact hprogress
    | done result => exact hprogress

theorem processLiteralBackrefBlock_comes_back (mem : Mem) (garbage : Nat → Nat)
    {litlenDecoder distDecoder : HuffmanDecoder} (hlitlen : litlenDecoder.Answers)
    (hdist : distDecoder.Answers) {inflate : Inflate} (hwithin : inflate.inputBuffer.Within) :
    ∃ result, processLiteralBackrefBlock mem garbage inflate litlenDecoder distDecoder =
      some result ∧ inflate.inputBuffer.Advanced 0 result.2.inputBuffer := by
  unfold processLiteralBackrefBlock
  rw [rounds_literalTurn]
  exact (literalTurn_progresses mem hlitlen hdist).comes_back
    (s := (inflate, garbage inflate.inputBuffer.bitPos)) hwithin

/-! ## Code lengths -/

/-- So many code lengths, none of them out of range. -/
structure CodeLengths (count : Nat) (lengths : List Nat) : Prop where
  length : lengths.length = count
  small : ∀ l ∈ lengths, l ≤ MAX_HUFFMAN_BITS

theorem CodeLengths.append {count length : Nat} {lengths : List Nat} (h : CodeLengths count lengths)
    (hlength : length ≤ MAX_HUFFMAN_BITS) : CodeLengths (count + 1) (lengths ++ [length]) where
  length := by rw [List.length_append, List.length_singleton, h.length]
  small := by
    intro l hl
    rcases List.mem_append.mp hl with hl | hl
    · exact h.small l hl
    · rw [List.mem_singleton.mp hl]
      exact hlength

theorem pushLength_exactly {count length : Nat} {lengths : List Nat} (h : CodeLengths count lengths)
    (hlength : length ≤ MAX_HUFFMAN_BITS) :
    Exactly (count < 320) (CodeLengths (count + 1)) (pushLength lengths length) := by
  unfold pushLength
  rw [h.length]
  exact Exactly.guard fun _ => h.append hlength

theorem pushZeros_exactly (j : Nat) : ∀ {count : Nat} {lengths : List Nat}, CodeLengths count lengths →
    Exactly (j = 0 ∨ count + j ≤ 320) (CodeLengths (count + j)) (pushZeros j lengths) := by
  induction j with
  | zero =>
    intro count lengths h
    exact Exactly.always (Or.inl rfl) h
  | succ j ih =>
    intro count lengths h
    refine ((pushLength_exactly h (Nat.zero_le _)).bind fun pushed hpushed => ih hpushed).imp
      (by omega) fun all hall => ?_
    rwa [Nat.add_right_comm, Nat.add_assoc] at hall

theorem getLast_exactly {count : Nat} {lengths : List Nat} (h : CodeLengths count lengths) :
    Exactly (0 < count) (· ≤ MAX_HUFFMAN_BITS) lengths.getLast? := by
  rw [← h.length]
  refine ⟨fun hpos => ?_, fun hzero => ?_⟩
  · have hne := List.ne_nil_of_length_pos hpos
    exact ⟨_, List.getLast?_eq_some_getLast hne, h.small _ (List.getLast_mem hne)⟩
  · rw [List.eq_nil_of_length_eq_zero (Nat.eq_zero_of_not_pos hzero), List.getLast?_nil]

theorem copyPrevious_exactly (j : Nat) : ∀ {count : Nat} {lengths : List Nat},
    CodeLengths count lengths →
      Exactly (j = 0 ∨ 0 < count ∧ count + j ≤ 320) (CodeLengths (count + j)) (copyPrevious j lengths) := by
  induction j with
  | zero =>
    intro count lengths h
    exact Exactly.always (Or.inl rfl) h
  | succ j ih =>
    intro count lengths h
    refine ((getLast_exactly h).bind fun previous hprevious =>
      (pushLength_exactly h hprevious).bind fun pushed hpushed => ih hpushed).imp
        (by omega) fun all hall => ?_
    rwa [Nat.add_right_comm, Nat.add_assoc] at hall

/-- A literal that is no length out of range. -/
def LengthSymbol.Small : LengthSymbol → Prop
  | .literal length => length ≤ MAX_HUFFMAN_BITS
  | _ => True

/-- **A symbol is stored** where it is not a copy of nothing, and does not go over the array. -/
theorem LengthSymbol.push_exactly {symbol : LengthSymbol} (hsmall : symbol.Small)
    (hrun : 0 < symbol.run) {count : Nat} {lengths : List Nat} (h : CodeLengths count lengths) :
    Exactly (¬ symbol.Bad count 320) (CodeLengths (count + symbol.run)) (symbol.push lengths) := by
  cases symbol with
  | literal length =>
    refine (pushLength_exactly h hsmall).cond ⟨fun hroom hbad => ?_, fun hgood => ?_⟩
    · rcases hbad with ⟨_, hcopy, _⟩ | hover
      · cases hcopy
      · exact absurd hover (Nat.not_lt.mpr hroom)
    · exact Nat.not_le.mp fun hfull => hgood (Or.inr (Nat.lt_succ_of_le hfull))
  | copy j =>
    have hpos : 0 < j := hrun
    refine (copyPrevious_exactly j h).cond ⟨fun hroom hbad => ?_, fun hgood => ?_⟩
    · rcases hbad with ⟨_, _, hzero⟩ | hover
      · omega
      · have hover' : 320 < count + j := hover
        omega
    · have hfirst : count ≠ 0 := fun hzero => hgood (Or.inl ⟨j, rfl, hzero⟩)
      have hends : ¬ 320 < count + j := fun hover => hgood (Or.inr hover)
      omega
  | zeros j =>
    have hpos : 0 < j := hrun
    refine (pushZeros_exactly j h).cond ⟨fun hroom hbad => ?_, fun hgood => ?_⟩
    · rcases hbad with ⟨_, hcopy, _⟩ | hover
      · cases hcopy
      · have hover' : 320 < count + j := hover
        omega
    · have hends : ¬ 320 < count + j := fun hover => hgood (Or.inr hover)
      omega

/-- A symbol behind which some bits are read is no literal. -/
theorem readRepeat_small {ib ib' : InputBuffer} {numBits mask minimum : Nat} {symbol : LengthSymbol}
    {make : Nat → LengthSymbol}
    (h : (readRepeat ib numBits mask minimum).map id (·.map make) = (ib', .ok symbol))
    (hmake : ∀ j, (make j).Small) : symbol.Small := by
  unfold readRepeat at h
  have hread := (Prod.mk.inj h).2
  split at hread
  next _ => cases hread
  next _ =>
    rw [← Except.ok.inj hread]
    exact hmake _

theorem readLengthSymbol_small {mem : Mem} {decoder : HuffmanDecoder} {ib ib' : InputBuffer}
    {numBitsUsed used : Nat} {symbol : LengthSymbol}
    (h : readLengthSymbol mem decoder ib numBitsUsed = some ((ib', .ok symbol), used)) :
    symbol.Small := by
  unfold readLengthSymbol at h
  obtain ⟨⟨sym, used'⟩, _, h⟩ := Option.bind_eq_some_iff.mp h
  dsimp only at h
  split at h
  next _ => cases h
  next _ =>
    split at h
    next hliteral =>
      have hread := (Prod.mk.inj (Prod.mk.inj (Option.some.inj h)).1).2
      rw [← Except.ok.inj hread]
      exact Int.toNat_le.mpr hliteral.2
    next _ =>
      split at h
      next _ => exact readRepeat_small (Prod.mk.inj (Option.some.inj h)).1 fun _ => trivial
      next _ =>
        split at h
        next _ => exact readRepeat_small (Prod.mk.inj (Option.some.inj h)).1 fun _ => trivial
        next _ =>
          split at h
          next _ => exact readRepeat_small (Prod.mk.inj (Option.some.inj h)).1 fun _ => trivial
          next _ => cases h

/-- The variables of the loop that reads the code lengths. -/
structure LengthsState where
  lengths : List Nat
  inputBuffer : InputBuffer
  numBitsUsed : Nat

/-- One round of `readLengths`, in general terms. -/
def lengthsTurn (mem : Mem) (codelenDecoder : HuffmanDecoder) (n : Nat) (st : LengthsState) :
    Option (Turn LengthsState (InputBuffer × Lengths)) :=
  if st.lengths.length < n then
    (readLengthSymbol mem codelenDecoder st.inputBuffer st.numBitsUsed).bind fun read =>
      match read.1.2 with
      | .error status => some (.done (read.1.1, .error status))
      | .ok symbol => (symbol.push st.lengths).bind fun lengths =>
          some (.next ⟨lengths, read.1.1, read.2⟩)
  else some (.done (st.inputBuffer, .ok st.lengths))

theorem rounds_lengthsTurn (mem : Mem) (codelenDecoder : HuffmanDecoder) (n fuel : Nat) :
    ∀ (lengths : List Nat) (ib : InputBuffer) (numBitsUsed : Nat),
      readLengths mem codelenDecoder n fuel lengths ib numBitsUsed =
        rounds (lengthsTurn mem codelenDecoder n) fuel ⟨lengths, ib, numBitsUsed⟩ := by
  induction fuel with
  | zero =>
    intro lengths ib numBitsUsed
    rfl
  | succ fuel ih =>
    intro lengths ib numBitsUsed
    rw [readLengths_succ, rounds, lengthsTurn]
    dsimp only
    split
    next _ =>
      rcases readLengthSymbol mem codelenDecoder ib numBitsUsed with _ | ⟨⟨ib', read⟩, used⟩
      · rfl
      · cases read with
        | error status => rfl
        | ok symbol =>
          dsimp only [Option.bind]
          cases symbol.push lengths with
          | none => rfl
          | some lengths' => exact ih lengths' ib' used
    next _ => rfl

section

variable {mem : Mem} {decoder : HuffmanDecoder} {n : Nat}

/-- What is kept from round to round: the lengths, and the symbols that are left. -/
structure LengthsState.Reads (mem : Mem) (decoder : HuffmanDecoder) (n : Nat) (st : LengthsState)
    (count : Nat) (symbols : List LengthSymbol) : Prop where
  within : st.inputBuffer.Within
  lengths : CodeLengths st.lengths.length st.lengths
  symbols : lengthSymbols mem decoder count st.inputBuffer st.numBitsUsed = symbols
  enough : n ≤ st.lengths.length + count

/-- Where a round goes on: a symbol was stored. -/
structure LengthsState.Stored (mem : Mem) (decoder : HuffmanDecoder) (n : Nat) (st : LengthsState)
    (symbols : List LengthSymbol) (st' : LengthsState) : Prop where
  advanced : st.inputBuffer.Advanced 1 st'.inputBuffer
  further : st.lengths.length < st'.lengths.length
  reads : ∃ symbol count rest, symbols = symbol :: rest ∧ st'.Reads mem decoder n count rest ∧
    st'.lengths.length = st.lengths.length + symbol.run

/-- How the loop ends: with the status of a symbol that cannot be read, or with the lengths. -/
structure LengthsRead (ib : InputBuffer) (result : InputBuffer × Lengths) : Prop where
  advanced : ib.Advanced 0 result.1
  lengths : ∀ lengths, result.2 = .ok lengths → CodeLengths lengths.length lengths

/-- **A round comes back** where its symbol is stored inside of the array. -/
theorem lengthsTurn_exactly (hanswers : decoder.Answers) {st : LengthsState} {count : Nat}
    {symbols : List LengthSymbol} (h : st.Reads mem decoder n count symbols) :
    Exactly (st.lengths.length < n → ∀ symbol rest, symbols = symbol :: rest →
        ¬ symbol.Bad st.lengths.length 320)
      (Turn.Meets (st.Stored mem decoder n symbols) fun result =>
        LengthsRead st.inputBuffer result ∧ FitsFrom n 320 st.lengths.length symbols)
      (lengthsTurn mem decoder n st) := by
  unfold lengthsTurn
  split
  next hlt =>
    obtain ⟨⟨ib, read⟩, used, hread, hspec⟩ :=
      readLengthSymbol_reads mem hanswers h.within st.numBitsUsed
    rw [hread]
    cases read with
    | error status =>
      have hnil : symbols = [] := h.symbols.symm.trans (lengthSymbols_of_error count hread)
      subst hnil
      have hdone : Turn.Meets (st.Stored mem decoder n []) (fun result =>
          LengthsRead st.inputBuffer result ∧ FitsFrom n 320 st.lengths.length [])
          (Turn.done (ib, (Except.error status : Lengths))) := ⟨⟨hspec.advanced, nofun⟩, trivial⟩
      exact Exactly.always (fun _ _ _ => nofun) hdone
    | ok symbol =>
      obtain ⟨count, rfl⟩ : ∃ c, count = c + 1 := by
        have henough := h.enough
        exact ⟨count - 1, by omega⟩
      have hcons := h.symbols.symm.trans (lengthSymbols_of_read hread)
      have hrun := readLengthSymbol_run_pos hread
      have hadvanced := hspec.further symbol rfl
      have hpush := symbol.push_exactly (readLengthSymbol_small hread) hrun h.lengths
      refine (hpush.bind_pure fun lengths' hlengths' => ?_).cond ?_
      · have hlength := hlengths'.length
        have henough := h.enough
        refine ⟨hadvanced, by dsimp only; omega, symbol, count, _, hcons, ⟨hadvanced.within h.within, ?_, rfl, ?_⟩,
          hlength⟩
        · rw [hlength]
          exact hlengths'
        · dsimp only
          omega
      · constructor
        · intro hgood _ symbol' rest hsame
          rw [hcons] at hsame
          rw [← (List.cons.inj hsame).1]
          exact hgood
        · exact fun hall => hall hlt symbol _ hcons
  next hge =>
    have hdone : Turn.Meets (st.Stored mem decoder n symbols) (fun result =>
        LengthsRead st.inputBuffer result ∧ FitsFrom n 320 st.lengths.length symbols)
        (Turn.done (st.inputBuffer, (Except.ok st.lengths : Lengths))) := by
      refine ⟨⟨h.within.advanced, fun lengths hok => ?_⟩, fitsFrom_of_le (Nat.not_lt.mp hge) symbols⟩
      obtain rfl := Except.ok.inj hok
      exact h.lengths
    exact Exactly.always (fun hlt => absurd hlt hge) hdone

/-- A round that goes on is one of a loop that is not at its end. -/
theorem lengthsTurn_next {st st' : LengthsState} (h : lengthsTurn mem decoder n st = some (.next st')) :
    st.lengths.length < n := by
  by_contra hge
  rw [lengthsTurn, if_neg hge] at h
  cases h

/-- **The loop comes back** where all of its symbols are stored inside of the array. -/
theorem rounds_lengthsTurn_exactly (hanswers : decoder.Answers) (fuel : Nat) :
    ∀ {st : LengthsState} {count : Nat} {symbols : List LengthSymbol},
      st.Reads mem decoder n count symbols → n - st.lengths.length < fuel →
        Exactly (FitsFrom n 320 st.lengths.length symbols) (LengthsRead st.inputBuffer)
          (rounds (lengthsTurn mem decoder n) fuel st) := by
  induction fuel with
  | zero => exact fun _ hfuel => absurd hfuel (Nat.not_lt_zero _)
  | succ fuel ih =>
    intro st count symbols h hfuel
    have hturn := lengthsTurn_exactly hanswers h
    rcases hround : lengthsTurn mem decoder n st with _ | turn
    · have hno : ¬ FitsFrom n 320 st.lengths.length symbols := by
        intro hfits
        obtain ⟨turn, hsome, _⟩ := hturn.comes fun hlt symbol rest hcons => by
          rw [hcons] at hfits
          exact (hfits hlt).1
        rw [hround] at hsome
        cases hsome
      refine ⟨fun hfits => absurd hfits hno, fun _ => ?_⟩
      rw [rounds, hround]
      rfl
    · obtain ⟨hgood, hmeets⟩ := hturn.of_some hround
      cases turn with
      | next st' =>
        have hlt := lengthsTurn_next hround
        obtain ⟨hadvanced, hfurther, symbol, count', rest, rfl, hreads, hlength⟩ := hmeets
        rw [rounds_next hround]
        refine (ih hreads (by omega)).imp ?_ fun result hread =>
          ⟨(hadvanced.trans hread.advanced).weaken (Nat.zero_le _), hread.lengths⟩
        rw [hlength]
        exact ⟨fun hrest _ => ⟨hgood hlt symbol rest rfl, hrest⟩, fun hfits => (hfits hlt).2⟩
      | done result =>
        rw [rounds_done hround]
        exact Exactly.always hmeets.2 hmeets.1

/-- **Every round returns or consumes a bit**, from the first one on, where the symbols are stored
inside. -/
theorem lengthsTurn_progressesAt (hanswers : decoder.Answers) {st st' : LengthsState} {count : Nat}
    {symbols : List LengthSymbol} (h : st.Reads mem decoder n count symbols)
    (hfits : FitsFrom n 320 st.lengths.length symbols)
    (hreach : Reaches (lengthsTurn mem decoder n) st st') :
    ProgressesAt (lengthsTurn mem decoder n) LengthsState.inputBuffer Prod.fst st' := by
  have hgood : ∀ {st : LengthsState} {symbols : List LengthSymbol},
      FitsFrom n 320 st.lengths.length symbols → st.lengths.length < n →
        ∀ symbol rest, symbols = symbol :: rest → ¬ symbol.Bad st.lengths.length 320 := by
    intro st symbols hfits hlt symbol rest hcons
    rw [hcons] at hfits
    exact (hfits hlt).1
  obtain ⟨count, symbols, h, hfits⟩ : ∃ count symbols, st'.Reads mem decoder n count symbols ∧
      FitsFrom n 320 st'.lengths.length symbols := by
    refine @Reaches.keeps _ _ _ (fun st : LengthsState => ∃ count symbols,
      st.Reads mem decoder n count symbols ∧ FitsFrom n 320 st.lengths.length symbols) _ _ hreach
      ?_ ⟨count, symbols, h, hfits⟩
    intro st₁ st₂ ⟨count, symbols, h, hfits⟩ hround
    have hlt := lengthsTurn_next hround
    obtain ⟨_, _, _, symbol, count', rest, rfl, hreads, hlength⟩ :=
      (lengthsTurn_exactly hanswers h).of_some hround
    refine ⟨count', rest, hreads, ?_⟩
    rw [hlength]
    exact (hfits hlt).2
  obtain ⟨turn, hround, hmeets⟩ := (lengthsTurn_exactly hanswers h).comes (hgood hfits)
  refine ⟨turn, hround, ?_⟩
  cases turn with
  | next st'' => exact LengthsState.Stored.advanced hmeets
  | done result => exact hmeets.1.advanced

end

/-! ## Blocks -/

/-- What the loop of `inflate` does after a block. -/
def afterBlockTurn (isFinalBlock : Nat) : Bool × Inflate → Turn Inflate (Bool × Inflate)
  | (okStatus, inflate) =>
    if isFinalBlock = 0 ∧ okStatus then .next inflate
    else if okStatus then .done (true, { inflate with status := .success })
    else .done (false, inflate)

/-- One round of the loop of `inflate`, with what it does for a block with dynamic codes. -/
def blockRound (mem : Mem) (dynamicBlock : Inflate → Option (Bool × Inflate)) (inflate : Inflate) :
    Option (Turn Inflate (Bool × Inflate)) :=
  match useNumBits mem inflate.inputBuffer 3 with
  | (false, ib) => some (.done ({ inflate with inputBuffer := ib }.fail .inputError))
  | (true, ib) =>
    let isFinalBlock := ib.bits &&& 0x01
    let blockType := ib.bits &&& 0x06
    let inflate := { inflate with inputBuffer := { ib with bits := ib.bits >>> 3 } }
    if blockType = 6 then some (.done (inflate.fail .inputError))
    else
      (if blockType = 4 then dynamicBlock inflate else some (true, inflate)).map
        (afterBlockTurn isFinalBlock)

theorem rounds_blockRound (mem : Mem) (garbage : Nat → Nat) (fuel : Nat) :
    ∀ (inflate : Inflate), inflateLoop mem garbage fuel inflate =
      rounds (blockRound mem (processDynamicDeflateBlock mem garbage)) fuel inflate := by
  induction fuel with
  | zero =>
    intro inflate
    rfl
  | succ fuel ih =>
    intro inflate
    rw [inflateLoop, rounds, blockRound]
    simp only [ih]
    generalize rounds (blockRound mem (processDynamicDeflateBlock mem garbage)) fuel = rest
    rcases useNumBits mem inflate.inputBuffer 3 with ⟨ok, ib⟩
    cases ok with
    | false => rfl
    | true =>
      dsimp only
      split
      next _ => rfl
      next _ =>
        have hafter : ∀ (okStatus : Bool) (inflate' : Inflate),
            (if ib.bits &&& 0x01 = 0 ∧ okStatus then rest inflate'
              else if okStatus then some (true, { inflate' with status := .success })
              else some (false, inflate')) =
            (afterBlockTurn (ib.bits &&& 0x01) (okStatus, inflate')).elim rest some := by
          intro okStatus inflate'
          unfold afterBlockTurn
          dsimp only
          split
          next _ => rfl
          next _ =>
            split
            next _ => rfl
            next _ => rfl
        split
        next _ =>
          generalize processDynamicDeflateBlock mem garbage _ = block
          rcases block with _ | ⟨okStatus, inflate'⟩
          · rfl
          · exact hafter okStatus inflate'
        next _ => exact hafter true _

/-- The block with dynamic codes that starts here: the state behind its first three bits. -/
def dynamicBlockAt (mem : Mem) (inflate : Inflate) : Option Inflate :=
  match useNumBits mem inflate.inputBuffer 3 with
  | (false, _) => none
  | (true, ib) =>
    if ib.bits &&& 0x06 = 4 then
      some { inflate with inputBuffer := { ib with bits := ib.bits >>> 3 } }
    else none

/-- The code lengths of a block are stored inside of the 320 entries of `codeLengthArray`: no copy
comes first, and no symbol that starts below their number goes over the entries. -/
def LengthsFit (mem : Mem) (garbage : Nat → Nat) (block : Inflate) : Prop :=
  ∀ header, (readLengthsHeader mem block.inputBuffer).2 = some header →
    RunsFit header.numLens 320
      (lengthSymbols mem (initHuffmanDecoder header.codelenLengths) header.numLens
        (readLengthsHeader mem block.inputBuffer).1 (garbage block.inputBuffer.bitPos))

/-- The loop over the code lengths of a block starts here. -/
def startOfLengths (mem : Mem) (garbage : Nat → Nat) (block : Inflate) : LengthsState :=
  ⟨[], (readLengthsHeader mem block.inputBuffer).1, garbage block.inputBuffer.bitPos⟩

theorem startOfLengths_reads (mem : Mem) (garbage : Nat → Nat) {block : Inflate}
    (hwithin : block.inputBuffer.Within) (header : LengthsHeader) :
    (startOfLengths mem garbage block).Reads mem (initHuffmanDecoder header.codelenLengths)
      header.numLens header.numLens
      (lengthSymbols mem (initHuffmanDecoder header.codelenLengths) header.numLens
        (readLengthsHeader mem block.inputBuffer).1 (garbage block.inputBuffer.bitPos)) where
  within := (readLengthsHeader_reads hwithin rfl).1.within hwithin
  lengths := ⟨rfl, fun _ hl => absurd hl List.not_mem_nil⟩
  symbols := rfl
  enough := Nat.le_add_left ..

/-- What `initDynamicDecoder` returns: a status, or two decoders that answer. -/
def DecodersRead (ib : InputBuffer) :
    (Bool × Inflate) ⊕ (Inflate × HuffmanDecoder × HuffmanDecoder) → Prop
  | .inl (_, inflate) => ib.Advanced 0 inflate.inputBuffer
  | .inr (inflate, litlenDecoder, distDecoder) =>
    ib.Advanced 0 inflate.inputBuffer ∧ litlenDecoder.Answers ∧ distDecoder.Answers

theorem CodeLengths.answers {count n : Nat} {lengths lengths' : List Nat} (h : CodeLengths count lengths)
    (hsub : lengths' ⊆ lengths) (hlength : lengths'.length ≤ n) (hn : n ≤ MAX_HUFFMAN_SYMBOLS) :
    (initHuffmanDecoder lengths').Answers :=
  initHuffmanDecoder_answers (Nat.le_trans hlength hn) fun l hl => h.small l (hsub hl)

/-- **The decoders of a block are read** where its code lengths are stored inside of the array. -/
theorem initDynamicDecoder_exactly (mem : Mem) (garbage : Nat → Nat) {inflate : Inflate}
    (hwithin : inflate.inputBuffer.Within) :
    Exactly (LengthsFit mem garbage inflate) (DecodersRead inflate.inputBuffer)
      (initDynamicDecoder mem garbage inflate) := by
  rw [initDynamicDecoder_eq]
  rcases hheader : readLengthsHeader mem inflate.inputBuffer with ⟨ib, read⟩
  obtain ⟨hadvanced, hvalid⟩ := readLengthsHeader_reads hwithin hheader
  cases read with
  | none =>
    refine Exactly.always (fun header hread => ?_) hadvanced
    rw [hheader] at hread
    cases hread
  | some header =>
    have h := hvalid header rfl
    have hstart := startOfLengths_reads mem garbage hwithin header
    have hloop := rounds_lengthsTurn_exactly h.answers (header.numLens + 1) hstart (by
      rw [startOfLengths, List.length_nil]
      omega)
    have hcond : FitsFrom header.numLens 320 (startOfLengths mem garbage inflate).lengths.length
        (lengthSymbols mem (initHuffmanDecoder header.codelenLengths) header.numLens
          (readLengthsHeader mem inflate.inputBuffer).1 (garbage inflate.inputBuffer.bitPos)) ↔
        LengthsFit mem garbage inflate := by
      refine (runsFit_iff h.numLens_pos).symm.trans ⟨fun hfits header' hread => ?_, fun hall => ?_⟩
      · rw [hheader] at hread
        obtain rfl := Option.some.inj hread
        exact hfits
      · exact hall header (by rw [hheader])
    rw [startOfLengths, hheader] at hloop hcond
    rw [← rounds_lengthsTurn] at hloop
    dsimp only
    refine (hloop.bind fun result hread => ?_).cond ((iff_of_eq (and_true _)).trans hcond)
    obtain ⟨ib', read⟩ := result
    have hread' := hadvanced.trans hread.advanced
    cases read with
    | error status => exact Exactly.always trivial hread'
    | ok lengths =>
      have hlengths := hread.lengths lengths rfl
      refine Exactly.always trivial ⟨hread', ?_, ?_⟩
      · exact hlengths.answers (List.take_subset _ _) (List.length_take_le _ _) h.numLitlenLens_le
      · refine hlengths.answers (fun l hl => List.drop_subset _ _ (List.take_subset _ _ hl))
          (List.length_take_le _ _) (Nat.le_trans h.numDistLens_le (by decide))

/-- The same for the whole block. -/
theorem processDynamicDeflateBlock_exactly (mem : Mem) (garbage : Nat → Nat) {inflate : Inflate}
    (hwithin : inflate.inputBuffer.Within) :
    Exactly (LengthsFit mem garbage inflate)
      (fun result => inflate.inputBuffer.Advanced 0 result.2.inputBuffer)
      (processDynamicDeflateBlock mem garbage inflate) := by
  refine ((initDynamicDecoder_exactly mem garbage hwithin).bind fun read hread => ?_).cond
    (iff_of_eq (and_true _))
  rcases read with result | ⟨inflate', litlenDecoder, distDecoder⟩
  · exact Exactly.always trivial hread
  · obtain ⟨hadvanced, hlitlen, hdist⟩ := hread
    obtain ⟨result, hrun, hmore⟩ := processLiteralBackrefBlock_comes_back mem garbage hlitlen hdist
      (hadvanced.within hwithin)
    exact ⟨fun _ => ⟨result, hrun, hadvanced.trans hmore⟩, fun hno => absurd trivial hno⟩

/-- **A round of `inflate` returns or consumes a bit**, three of them ahead of the block, where the
code lengths of its block are stored inside of the array. -/
theorem blockRound_exactly (mem : Mem) (garbage : Nat → Nat) {inflate : Inflate}
    (hwithin : inflate.inputBuffer.Within) :
    Exactly (∀ block, dynamicBlockAt mem inflate = some block → LengthsFit mem garbage block)
      (Turn.Meets (fun inflate' : Inflate => inflate.inputBuffer.Advanced 1 inflate'.inputBuffer)
        fun result : Bool × Inflate => inflate.inputBuffer.Advanced 0 result.2.inputBuffer)
      (blockRound mem (processDynamicDeflateBlock mem garbage) inflate) := by
  unfold blockRound dynamicBlockAt
  rcases huse : useNumBits mem inflate.inputBuffer 3 with ⟨ok, ib⟩
  have hadvanced := useNumBits_advanced hwithin (by omega) huse
  cases ok with
  | false => exact Exactly.always (fun _ => nofun) hadvanced
  | true =>
    have hbits := hadvanced.trans ((hadvanced.within hwithin).withBits (ib.bits >>> 3))
    dsimp only
    have hafter : ∀ result : Bool × Inflate, inflate.inputBuffer.Advanced 3 result.2.inputBuffer →
        (afterBlockTurn (ib.bits &&& 0x01) result).Meets
          (fun inflate' : Inflate => inflate.inputBuffer.Advanced 1 inflate'.inputBuffer)
          fun result : Bool × Inflate => inflate.inputBuffer.Advanced 0 result.2.inputBuffer := by
      intro ⟨okStatus, inflate'⟩ hread
      unfold afterBlockTurn
      dsimp only
      split
      next _ => exact hread.weaken (by omega)
      next _ =>
        split
        next _ => exact hread.weaken (by omega)
        next _ => exact hread.weaken (by omega)
    by_cases hreserved : ib.bits &&& 0x06 = 6
    · rw [if_pos hreserved, if_neg (by omega)]
      exact Exactly.always (fun _ => nofun) (hbits.weaken (Nat.zero_le _))
    · rw [if_neg hreserved]
      by_cases hdynamic : ib.bits &&& 0x06 = 4
      · rw [if_pos hdynamic, if_pos hdynamic]
        have hblock := @processDynamicDeflateBlock_exactly mem garbage
          { inflate with inputBuffer := { ib with bits := ib.bits >>> 3 } } (hbits.within hwithin)
        refine (hblock.map fun result hread => hafter result (hbits.trans hread)).cond ?_
        exact ⟨fun hfits block hsame => Option.some.inj hsame ▸ hfits, fun hall => hall _ rfl⟩
      · rw [if_neg hdynamic, if_neg hdynamic]
        exact Exactly.always (fun _ => nofun) (hafter (true, _) hbits)

/-! ## The call -/

/-- The rounds of the block loop that a call gets to. -/
abbrev BlockReached (mem : Mem) (garbage : Nat → Nat) : Inflate → Inflate → Prop :=
  Reaches (blockRound mem (processDynamicDeflateBlock mem garbage))

/-- What is asked of a call of `inflate`: it comes back, with its position in the stream; and every
round of its three loops, from the first one on, returns or moves the position on. -/
structure Terminates (mem : Mem) (garbage : Nat → Nat) (start : Inflate) : Prop where
  returns : ∃ ok st, inflate mem garbage start = some (ok, st) ∧
    st.inputBuffer.bitPos ≤ st.inputBuffer.totalNumBits
  blocks : ∀ st, BlockReached mem garbage start st →
    ProgressesAt (blockRound mem (processDynamicDeflateBlock mem garbage)) Inflate.inputBuffer
      (fun result => result.2.inputBuffer) st
  lengths : ∀ st block header st', BlockReached mem garbage start st →
    dynamicBlockAt mem st = some block → (readLengthsHeader mem block.inputBuffer).2 = some header →
    Reaches (lengthsTurn mem (initHuffmanDecoder header.codelenLengths) header.numLens)
      (startOfLengths mem garbage block) st' →
    ProgressesAt (lengthsTurn mem (initHuffmanDecoder header.codelenLengths) header.numLens)
      LengthsState.inputBuffer Prod.fst st'
  literals : ∀ st block inflate' litlenDecoder distDecoder st', BlockReached mem garbage start st →
    dynamicBlockAt mem st = some block →
    initDynamicDecoder mem garbage block = some (.inr (inflate', litlenDecoder, distDecoder)) →
    Reaches (literalTurn mem litlenDecoder distDecoder)
      (inflate', garbage inflate'.inputBuffer.bitPos) st' →
    ProgressesAt (literalTurn mem litlenDecoder distDecoder) (fun st => st.1.inputBuffer)
      (fun result => result.2.inputBuffer) st'

/-- The code lengths of every block that is reached are stored inside of the array. -/
def AllLengthsFit (mem : Mem) (garbage : Nat → Nat) (start : Inflate) : Prop :=
  ∀ st block, BlockReached mem garbage start st → dynamicBlockAt mem st = some block →
    LengthsFit mem garbage block

section

variable {mem : Mem} {garbage : Nat → Nat} {start : Inflate}

theorem dynamicBlockAt_within {st block : Inflate} (hwithin : st.inputBuffer.Within)
    (h : dynamicBlockAt mem st = some block) : block.inputBuffer.Within := by
  unfold dynamicBlockAt at h
  rcases huse : useNumBits mem st.inputBuffer 3 with ⟨ok, ib⟩
  have hadvanced := useNumBits_advanced hwithin (by omega) huse
  rw [huse] at h
  cases ok with
  | false => cases h
  | true =>
    dsimp only at h
    split at h
    next _ =>
      obtain rfl := Option.some.inj h
      exact (hadvanced.trans ((hadvanced.within hwithin).withBits _)).within hwithin
    next _ => cases h

/-- The position stays in the stream. -/
theorem BlockReached.within {st : Inflate} (h : BlockReached mem garbage start st)
    (hwithin : start.inputBuffer.Within) : st.inputBuffer.Within := by
  refine @Reaches.keeps _ _ _ (fun st : Inflate => st.inputBuffer.Within) _ _ h
    (fun s s' hs hround => ?_) hwithin
  have hmeets := ((blockRound_exactly mem garbage hs).of_some hround).2
  exact InputBuffer.Advanced.within hmeets hs

/-- A call that comes back has stored all code lengths inside. -/
theorem allLengthsFit_of_returns (hwithin : start.inputBuffer.Within) {result : Bool × Inflate}
    (hrun : inflate mem garbage start = some result) : AllLengthsFit mem garbage start := by
  intro st block hreach hblock
  unfold inflate at hrun
  rw [rounds_blockRound] at hrun
  obtain ⟨turn, hround⟩ := Reaches.round_of_rounds hreach hrun
  exact ((blockRound_exactly mem garbage (hreach.within hwithin)).of_some hround).1 block hblock

theorem terminates_of_fit (hwithin : start.inputBuffer.Within)
    (hfits : AllLengthsFit mem garbage start) : Terminates mem garbage start := by
  have hblocks : ∀ st, BlockReached mem garbage start st →
      ProgressesAt (blockRound mem (processDynamicDeflateBlock mem garbage)) Inflate.inputBuffer
        (fun result => result.2.inputBuffer) st := fun st hreach =>
    (blockRound_exactly mem garbage (hreach.within hwithin)).comes fun block => hfits st block hreach
  refine ⟨?_, hblocks, ?_, ?_⟩
  · obtain ⟨⟨ok, st⟩, hrun, hadvanced⟩ := (progressesAt_reached hwithin fun st hreach _ =>
      hblocks st hreach).1
    refine ⟨ok, st, ?_, hadvanced.bitPos_le⟩
    unfold inflate
    rw [rounds_blockRound]
    exact hrun
  · intro st block header st' hreach hblock hheader hround
    have hblock' := dynamicBlockAt_within (hreach.within hwithin) hblock
    have hvalid := LengthsHeader.valid_of_read hblock' hheader
    exact lengthsTurn_progressesAt hvalid.answers (startOfLengths_reads mem garbage hblock' header)
      ((runsFit_iff hvalid.numLens_pos).mp (hfits st block hreach hblock header hheader)) hround
  · intro st block inflate' litlenDecoder distDecoder st' hreach hblock hinit hround
    have hblock' := dynamicBlockAt_within (hreach.within hwithin) hblock
    obtain ⟨hadvanced, hlitlen, hdist⟩ :=
      ((initDynamicDecoder_exactly mem garbage hblock').of_some hinit).2
    have hprogress := literalTurn_progresses mem hlitlen hdist
    refine hprogress st' ((progressesAt_reached ?_ fun s _ => hprogress s).2 st' hround)
    exact hadvanced.within hblock'

end

/-- **When `inflate` terminates**, for every chain of pages and every length that is claimed: where
each block that it gets to stores its code lengths inside of `codeLengthArray`. Elsewhere it does
not come back. -/
theorem inflate_terminates_iff (mem : Mem) (garbage : Nat → Nat) (slab : Mem)
    (fileBuffer : FileBuffer) (next : List FileBuffer) (compressSize : Nat) :
    (Terminates mem garbage (initInflate slab fileBuffer next compressSize) ↔
        AllLengthsFit mem garbage (initInflate slab fileBuffer next compressSize)) ∧
      ((∃ result, inflate mem garbage (initInflate slab fileBuffer next compressSize) = some result) →
        AllLengthsFit mem garbage (initInflate slab fileBuffer next compressSize)) := by
  have hwithin : (initInflate slab fileBuffer next compressSize).inputBuffer.Within :=
    initInputBuffer_within fileBuffer next compressSize
  refine ⟨⟨fun h => ?_, terminates_of_fit hwithin⟩, fun ⟨_, hrun⟩ => allLengthsFit_of_returns hwithin hrun⟩
  obtain ⟨_, _, hrun, _⟩ := h.returns
  exact allLengthsFit_of_returns hwithin hrun

/-- A last block with dynamic codes: one bit for each of the symbols 16 and 18, and then a copy of
the length in front of the first one. -/
def copyFirstBlock : Mem := fun a => [0x05, 0, 0x82, 0, 0].getD a 0

/-- It reads in front of the array. -/
theorem not_terminates_copyFirstBlock :
    ¬ Terminates copyFirstBlock (fun _ => 0) (initInflate (fun _ => 0) ⟨0, 0, 0, 4096⟩ [] 5) := by
  intro h
  obtain ⟨ok, st, hrun, _⟩ := h.returns
  have hnone : (inflate copyFirstBlock (fun _ => 0)
      (initInflate (fun _ => 0) ⟨0, 0, 0, 4096⟩ [] 5)).isNone = true := by decide +kernel
  rw [hrun] at hnone
  cases hnone

end DevopsBroker.Compress
