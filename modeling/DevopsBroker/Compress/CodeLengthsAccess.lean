import DevopsBroker.Compress.CodeLengths

/-!
# What the code lengths are stored over

The loop over the code lengths looks at its index between two symbols. One symbol stands for up to
138 lengths, and neither these nor the length that a copy repeats are checked.

- `LengthSymbol.store_inside_iff`: which symbols are stored inside of the lengths that there are;
- `rounds_inside_iff`: over a run, these are the runs that fit;
- **`codeLengthLoop_checks_iff`**: the accesses are inside, and bad repeats are rejected, exactly
  for input in which no copy comes first and no run goes over the end.
-/

namespace DevopsBroker.Compress

open DevopsBroker.Lib DevopsBroker.Io DevopsBroker.Lang

/-! ## The accesses of a symbol -/

theorem copyLengths_accesses (j : Nat) :
    ∀ (i : Nat) (array : CodeLengthArray) (k : Nat),
      k ∈ (copyLengths j i array).accesses ↔
        k ∈ array.accesses ∨ ∃ m < j, k = (i + m + 2 ^ 32 - 1) % 2 ^ 32 ∨ k = i + m := by
  induction j with
  | zero =>
    intro i array k
    constructor
    · exact Or.inl
    · intro h
      rcases h with h | ⟨m, hm, _⟩
      · exact h
      · exact absurd hm (Nat.not_lt_zero m)
  | succ j ih =>
    intro i array k
    unfold copyLengths CodeLengthArray.load CodeLengthArray.store
    simp only [ih, List.mem_append, List.mem_singleton]
    constructor
    · intro h
      rcases h with ((h | h) | h) | ⟨m, hm, h⟩
      · exact Or.inl h
      · exact Or.inr ⟨0, Nat.succ_pos j, Or.inl h⟩
      · exact Or.inr ⟨0, Nat.succ_pos j, Or.inr h⟩
      · refine Or.inr ⟨m + 1, by omega, ?_⟩
        rw [← Nat.add_assoc, Nat.add_right_comm i m 1]
        exact h
    · intro h
      rcases h with h | ⟨m, hm, h⟩
      · exact Or.inl (Or.inl (Or.inl h))
      · cases m with
        | zero =>
          rcases h with h | h
          · exact Or.inl (Or.inl (Or.inr h))
          · exact Or.inl (Or.inr h)
        | succ m =>
          refine Or.inr ⟨m, by omega, ?_⟩
          rw [Nat.add_right_comm i 1 m, Nat.add_assoc i m 1]
          exact h

theorem zeroLengths_accesses (j : Nat) :
    ∀ (i : Nat) (array : CodeLengthArray) (k : Nat),
      k ∈ (zeroLengths j i array).accesses ↔ k ∈ array.accesses ∨ ∃ m < j, k = i + m := by
  induction j with
  | zero =>
    intro i array k
    constructor
    · exact Or.inl
    · intro h
      rcases h with h | ⟨m, hm, _⟩
      · exact h
      · exact absurd hm (Nat.not_lt_zero m)
  | succ j ih =>
    intro i array k
    unfold zeroLengths CodeLengthArray.store
    simp only [ih, List.mem_append, List.mem_singleton]
    constructor
    · intro h
      rcases h with (h | h) | ⟨m, hm, h⟩
      · exact Or.inl h
      · exact Or.inr ⟨0, Nat.succ_pos j, h⟩
      · exact Or.inr ⟨m + 1, by omega, by omega⟩
    · intro h
      rcases h with h | ⟨m, hm, h⟩
      · exact Or.inl (Or.inl h)
      · cases m with
        | zero => exact Or.inl (Or.inr h)
        | succ m => exact Or.inr ⟨m, by omega, by omega⟩

/-- The indices that are read and written for a symbol. -/
theorem LengthSymbol.store_accesses (symbol : LengthSymbol) (i : Nat) (array : CodeLengthArray)
    (k : Nat) :
    k ∈ (symbol.store i array).accesses ↔
      k ∈ array.accesses ∨ (∃ m < symbol.run, k = i + m) ∨
        ∃ j, symbol = .copy j ∧ ∃ m < j, k = (i + m + 2 ^ 32 - 1) % 2 ^ 32 := by
  cases symbol with
  | literal length =>
    show k ∈ array.accesses ++ [i] ↔ _
    rw [List.mem_append, List.mem_singleton]
    constructor
    · intro h
      rcases h with h | h
      · exact Or.inl h
      · exact Or.inr (Or.inl ⟨0, Nat.one_pos, h⟩)
    · intro h
      rcases h with h | ⟨m, hm, h⟩ | ⟨j, hj, _⟩
      · exact Or.inl h
      · obtain rfl : m = 0 := Nat.lt_one_iff.mp hm
        exact Or.inr h
      · cases hj
  | copy j =>
    show k ∈ (copyLengths j i array).accesses ↔ _
    rw [copyLengths_accesses]
    constructor
    · intro h
      rcases h with h | ⟨m, hm, h | h⟩
      · exact Or.inl h
      · exact Or.inr (Or.inr ⟨j, rfl, m, hm, h⟩)
      · exact Or.inr (Or.inl ⟨m, hm, h⟩)
    · intro h
      rcases h with h | ⟨m, hm, h⟩ | ⟨j', hj, m, hm, h⟩
      · exact Or.inl h
      · exact Or.inr ⟨m, hm, Or.inr h⟩
      · obtain rfl := LengthSymbol.copy.inj hj
        exact Or.inr ⟨m, hm, Or.inl h⟩
  | zeros j =>
    show k ∈ (zeroLengths j i array).accesses ↔ _
    rw [zeroLengths_accesses]
    constructor
    · intro h
      rcases h with h | h
      · exact Or.inl h
      · exact Or.inr (Or.inl h)
    · intro h
      rcases h with h | h | ⟨j', hj, _⟩
      · exact Or.inl h
      · exact Or.inr h
      · cases hj

/-- A copy of nothing, or a run that goes over the end. -/
def LengthSymbol.Bad (i n : Nat) (symbol : LengthSymbol) : Prop :=
  (∃ j, symbol = .copy j ∧ i = 0) ∨ n < i + symbol.run

/-- **Storing a symbol stays inside exactly when it is not bad.** -/
theorem LengthSymbol.store_inside_iff {symbol : LengthSymbol} {i n : Nat} (hi : i < n)
    (hn : n < 2 ^ 32) (hrun : 0 < symbol.run) (array : CodeLengthArray) :
    (∀ k ∈ (symbol.store i array).accesses, k < n) ↔
      (∀ k ∈ array.accesses, k < n) ∧ ¬ symbol.Bad i n := by
  constructor
  · intro h
    refine ⟨fun k hk => h k ((store_accesses ..).mpr (Or.inl hk)), ?_⟩
    intro hbad
    rcases hbad with ⟨j, rfl, hzero⟩ | hover
    · -- the index before the first one
      have hfirst := h _ ((store_accesses ..).mpr (Or.inr (Or.inr ⟨j, rfl, 0, hrun, rfl⟩)))
      omega
    · -- the index behind the last one
      have hlast := h n ((store_accesses ..).mpr (Or.inr (Or.inl ⟨n - i, by omega, by omega⟩)))
      exact absurd hlast (Nat.lt_irrefl n)
  · intro h k hk
    obtain ⟨hbefore, hgood⟩ := h
    have hend : i + symbol.run ≤ n := Nat.not_lt.mp fun hover => hgood (Or.inr hover)
    rw [store_accesses] at hk
    rcases hk with hk | ⟨m, hm, hk⟩ | ⟨j, hj, m, hm, hk⟩
    · exact hbefore k hk
    · omega
    · have hpos : i ≠ 0 := fun hzero => hgood (Or.inl ⟨j, hj, hzero⟩)
      rw [hj, LengthSymbol.run] at hend
      omega

/-! ## Input that stays inside -/

theorem readRepeat_run_pos {ib ib' : InputBuffer} {numBits mask minimum : Nat} (hmin : 0 < minimum)
    {symbol : LengthSymbol} {make : Nat → LengthSymbol} (hmake : ∀ j, (make j).run = j)
    (h : (readRepeat ib numBits mask minimum).map id (·.map make) = (ib', .ok symbol)) :
    0 < symbol.run := by
  unfold readRepeat at h
  have hread := (Prod.mk.inj h).2
  split at hread
  next _ => cases hread
  next _ =>
    rw [← Except.ok.inj hread, hmake]
    exact Nat.add_pos_right _ hmin

/-- Every symbol stands for some lengths. -/
theorem readLengthSymbol_run_pos {mem : Mem} {decoder : HuffmanDecoder} {ib ib' : InputBuffer}
    {numBitsUsed used : Nat} {symbol : LengthSymbol}
    (h : readLengthSymbol mem decoder ib numBitsUsed = some ((ib', .ok symbol), used)) :
    0 < symbol.run := by
  unfold readLengthSymbol at h
  obtain ⟨⟨sym, used'⟩, _, h⟩ := Option.bind_eq_some_iff.mp h
  dsimp only at h
  split at h
  next _ => cases h
  next _ =>
    split at h
    next _ =>
      have hread := (Prod.mk.inj (Prod.mk.inj (Option.some.inj h)).1).2
      rw [← Except.ok.inj hread]
      exact Nat.one_pos
    next _ =>
      split at h
      next _ =>
        exact readRepeat_run_pos (by omega) (fun _ => rfl) (Prod.mk.inj (Option.some.inj h)).1
      next _ =>
        split at h
        next _ =>
          exact readRepeat_run_pos (by omega) (fun _ => rfl) (Prod.mk.inj (Option.some.inj h)).1
        next _ =>
          split at h
          next _ =>
            exact readRepeat_run_pos (by omega) (fun _ => rfl) (Prod.mk.inj (Option.some.inj h)).1
          next _ => cases h

/-- The code length symbols that the input holds, `count` at most, up to one that cannot be read. -/
def lengthSymbols (mem : Mem) (codelenDecoder : HuffmanDecoder) :
    Nat → InputBuffer → Nat → List LengthSymbol
  | 0, _, _ => []
  | count + 1, ib, numBitsUsed =>
    match readLengthSymbol mem codelenDecoder ib numBitsUsed with
    | some ((ib, .ok symbol), numBitsUsed) =>
      symbol :: lengthSymbols mem codelenDecoder count ib numBitsUsed
    | _ => []

/-- How many lengths symbols stand for. -/
def totalRun (symbols : List LengthSymbol) : Nat := (symbols.map LengthSymbol.run).sum

/-- No copy comes first, and no symbol that starts below `n` goes over `size`. -/
structure RunsFit (n size : Nat) (symbols : List LengthSymbol) : Prop where
  first : ∀ j rest, symbols ≠ .copy j :: rest
  ends : ∀ before symbol after, symbols = before ++ symbol :: after → totalRun before < n →
    totalRun before + symbol.run ≤ size

/-- The same along the symbols, from index `i` on. -/
def FitsFrom (n size : Nat) : Nat → List LengthSymbol → Prop
  | _, [] => True
  | i, symbol :: symbols => i < n → ¬ symbol.Bad i size ∧ FitsFrom n size (i + symbol.run) symbols

theorem fitsFrom_of_le {n size i : Nat} (h : n ≤ i) (symbols : List LengthSymbol) :
    FitsFrom n size i symbols := by
  cases symbols with
  | nil => exact trivial
  | cons symbol symbols => exact fun hi => absurd hi (Nat.not_lt.mpr h)

theorem fitsFrom_iff {n size : Nat} (symbols : List LengthSymbol) :
    ∀ (i : Nat), (∀ symbol ∈ symbols, 0 < symbol.run) → i < n →
      (FitsFrom n size i symbols ↔ (i = 0 → ∀ j rest, symbols ≠ .copy j :: rest) ∧
        ∀ before symbol after, symbols = before ++ symbol :: after → i + totalRun before < n →
          i + totalRun before + symbol.run ≤ size) := by
  induction symbols with
  | nil =>
    intro i _ _
    refine iff_of_true trivial ⟨fun _ _ _ => nofun, ?_⟩
    intro before symbol after h
    exact absurd h.symm (List.append_ne_nil_of_right_ne_nil _ (List.cons_ne_nil _ _))
  | cons symbol symbols ih =>
    intro i hpos hi
    have hrun := hpos symbol List.mem_cons_self
    have htail : n ≤ i + symbol.run ∨ i + symbol.run < n := by omega
    have hrest : FitsFrom n size (i + symbol.run) symbols ↔
        ∀ before symbol' after, symbols = before ++ symbol' :: after →
          i + symbol.run + totalRun before < n →
            i + symbol.run + totalRun before + symbol'.run ≤ size := by
      rcases htail with hle | hlt
      · refine iff_of_true (fitsFrom_of_le hle symbols) ?_
        intro before symbol' after _ hbelow
        omega
      · rw [ih _ (fun s hs => hpos s (List.mem_cons_of_mem _ hs)) hlt]
        exact and_iff_right fun hzero => absurd hzero (by omega)
    constructor
    · intro h
      obtain ⟨hgood, hfits⟩ := h hi
      constructor
      · intro hzero j rest hsame
        exact hgood (Or.inl ⟨j, (List.cons.inj hsame).1, hzero⟩)
      · intro before symbol' after hsame hbelow
        cases before with
        | nil =>
          obtain ⟨rfl, _⟩ := List.cons.inj hsame
          exact Nat.not_lt.mp fun hover => hgood (Or.inr hover)
        | cons b before =>
          obtain ⟨rfl, hsame'⟩ := List.cons.inj (hsame.trans List.cons_append)
          have hsum : totalRun (symbol :: before) = symbol.run + totalRun before := rfl
          have hend := hrest.mp hfits before symbol' after hsame' (by omega)
          omega
    · intro h _
      obtain ⟨hfirst, hends⟩ := h
      constructor
      · intro hbad
        rcases hbad with ⟨j, hcopy, hzero⟩ | hover
        · rw [hcopy] at hfirst
          exact hfirst hzero j symbols rfl
        · have hend := hends [] symbol symbols rfl hi
          exact absurd hover (Nat.not_lt.mpr hend)
      · rw [hrest]
        intro before symbol' after hsame hbelow
        have hsum : totalRun (symbol :: before) = symbol.run + totalRun before := rfl
        have hend := hends (symbol :: before) symbol' after
          (by rw [hsame, List.cons_append]) (by omega)
        omega

theorem lengthSymbols_run_pos {mem : Mem} {decoder : HuffmanDecoder} (count : Nat) :
    ∀ {ib : InputBuffer} {numBitsUsed : Nat},
      ∀ symbol ∈ lengthSymbols mem decoder count ib numBitsUsed, 0 < symbol.run := by
  induction count with
  | zero => exact fun _ h => absurd h List.not_mem_nil
  | succ count ih =>
    intro ib numBitsUsed symbol h
    unfold lengthSymbols at h
    split at h
    next hread =>
      rcases List.mem_cons.mp h with rfl | h
      · exact readLengthSymbol_run_pos hread
      · exact ih symbol h
    next _ => exact absurd h List.not_mem_nil

theorem runsFit_iff {mem : Mem} {decoder : HuffmanDecoder} {n size count : Nat} (hn : 0 < n)
    {ib : InputBuffer} {numBitsUsed : Nat} :
    RunsFit n size (lengthSymbols mem decoder count ib numBitsUsed) ↔
      FitsFrom n size 0 (lengthSymbols mem decoder count ib numBitsUsed) := by
  rw [fitsFrom_iff _ 0 (lengthSymbols_run_pos count) hn]
  simp only [Nat.zero_add]
  constructor
  · intro h
    exact ⟨fun _ => h.first, h.ends⟩
  · intro h
    exact ⟨h.1 trivial, h.2⟩

section

variable {mem : Mem} {decoder : HuffmanDecoder} {n : Nat} {st st' : LengthState}

/-- What a round that goes on has read. -/
theorem lengthRound_next (h : lengthRound mem decoder n st = some (.next st')) :
    st.i < n ∧ ∃ ib symbol used,
      readLengthSymbol mem decoder st.inputBuffer st.numBitsUsed = some ((ib, .ok symbol), used) ∧
        st' = ⟨symbol.store st.i st.array, st.i + symbol.run, ib, used⟩ := by
  unfold lengthRound at h
  split at h
  next hi =>
    obtain ⟨⟨⟨ib, read⟩, used⟩, hread, h⟩ := Option.bind_eq_some_iff.mp h
    cases read with
    | error status => cases h
    | ok symbol => exact ⟨hi, ib, symbol, used, hread, (Turn.next.inj (Option.some.inj h)).symm⟩
  next _ => cases h

/-- The last round stores nothing. -/
theorem lengthRound_done {status : Option InflationStatus}
    (h : lengthRound mem decoder n st = some (.done (st', status))) :
    st'.array = st.array ∧ (st.i < n →
      ∃ ib status' used, readLengthSymbol mem decoder st.inputBuffer st.numBitsUsed =
        some ((ib, .error status'), used)) := by
  unfold lengthRound at h
  split at h
  next hi =>
    obtain ⟨⟨⟨ib, read⟩, used⟩, hread, h⟩ := Option.bind_eq_some_iff.mp h
    cases read with
    | error status' =>
      obtain ⟨rfl, _⟩ := Prod.mk.inj (Turn.done.inj (Option.some.inj h))
      exact ⟨rfl, fun _ => ⟨ib, status', used, hread⟩⟩
    | ok symbol => cases h
  next hi =>
    obtain ⟨rfl, _⟩ := Prod.mk.inj (Turn.done.inj (Option.some.inj h))
    exact ⟨rfl, fun hlt => absurd hlt hi⟩

/-- The symbols from a state on start with the one that is read there. -/
theorem lengthSymbols_of_read {ib ib' : InputBuffer} {numBitsUsed used count : Nat}
    {symbol : LengthSymbol}
    (h : readLengthSymbol mem decoder ib numBitsUsed = some ((ib', .ok symbol), used)) :
    lengthSymbols mem decoder (count + 1) ib numBitsUsed =
      symbol :: lengthSymbols mem decoder count ib' used := by
  rw [lengthSymbols, h]

theorem lengthSymbols_of_error {ib ib' : InputBuffer} {numBitsUsed used : Nat} (count : Nat)
    {status : InflationStatus}
    (h : readLengthSymbol mem decoder ib numBitsUsed = some ((ib', .error status), used)) :
    lengthSymbols mem decoder count ib numBitsUsed = [] := by
  cases count with
  | zero => rfl
  | succ count => rw [lengthSymbols, h]

/-- **The accesses of a run are inside exactly when the symbols fit.** -/
theorem rounds_inside_iff (hn : n < 2 ^ 32) (fuel : Nat) :
    ∀ {st st' : LengthState} {status : Option InflationStatus} {count : Nat},
      n ≤ st.i + count → rounds (lengthRound mem decoder n) fuel st = some (st', status) →
        ((∀ k ∈ st'.array.accesses, k < n) ↔ (∀ k ∈ st.array.accesses, k < n) ∧
          FitsFrom n n st.i (lengthSymbols mem decoder count st.inputBuffer st.numBitsUsed)) := by
  induction fuel with
  | zero => exact fun _ hrun => nomatch hrun
  | succ fuel ih =>
    intro st st' status count hcount hrun
    rcases rounds_inv hrun with ⟨st₁, hround, hrun⟩ | hround
    · obtain ⟨hi, ib, symbol, used, hread, rfl⟩ := lengthRound_next hround
      have hpos := readLengthSymbol_run_pos hread
      obtain ⟨count, rfl⟩ : ∃ c, count = c + 1 := ⟨count - 1, by omega⟩
      rw [@ih _ _ _ count (show n ≤ st.i + symbol.run + count by omega) hrun,
        symbol.store_inside_iff hi hn hpos, lengthSymbols_of_read hread, and_assoc]
      exact and_congr_right fun _ => ⟨fun h _ => h, fun h => h hi⟩
    · obtain ⟨harray, herror⟩ := lengthRound_done hround
      rw [harray]
      refine (and_iff_left ?_).symm
      rcases Nat.lt_or_ge st.i n with hi | hi
      · obtain ⟨ib, status', used, hread⟩ := herror hi
        rw [lengthSymbols_of_error count hread]
        exact trivial
      · exact fitsFrom_of_le hi _

/-- Where the symbols fit, no round meets a bad one. -/
theorem reaches_fits {count : Nat} (hcount : n ≤ st.i + count)
    (hfits : FitsFrom n n st.i (lengthSymbols mem decoder count st.inputBuffer st.numBitsUsed))
    (hreach : Reaches (lengthRound mem decoder n) st st') :
    ∃ count', n ≤ st'.i + count' ∧
      FitsFrom n n st'.i (lengthSymbols mem decoder count' st'.inputBuffer st'.numBitsUsed) := by
  induction hreach with
  | first => exact ⟨count, hcount, hfits⟩
  | next _ hround ih =>
    obtain ⟨count', hcount', hfits'⟩ := ih
    obtain ⟨hi, ib, symbol, used, hread, rfl⟩ := lengthRound_next hround
    have hpos := readLengthSymbol_run_pos hread
    obtain ⟨count', rfl⟩ : ∃ c, count' = c + 1 := ⟨count' - 1, by omega⟩
    rw [lengthSymbols_of_read hread] at hfits'
    exact ⟨count', by dsimp only; omega, (hfits' hi).2⟩

end

/-! ## The call -/

/-- What is to be checked in the loop: the accesses are inside of the lengths that there are, and
a bad symbol makes the call return `false` with `INFLATE_INPUT_ERROR`. -/
structure ChecksRuns (mem : Mem) (around : Surroundings) (inflate : Inflate)
    (header : LengthsHeader) (ib : InputBuffer) : Prop where
  inside : ∃ st status, codeLengthLoop mem around inflate.inputBuffer.bitPos header ib =
    some (st, status) ∧ ∀ k ∈ st.array.accesses, k < header.numLens
  rejects : ∀ st ib' symbol used,
    Reaches (lengthRound mem (initHuffmanDecoder header.codelenLengths) header.numLens)
      (startLengths around inflate.inputBuffer.bitPos ib) st →
    st.i < header.numLens →
    readLengthSymbol mem (initHuffmanDecoder header.codelenLengths) st.inputBuffer
      st.numBitsUsed = some ((ib', .ok symbol), used) →
    symbol.Bad st.i header.numLens →
    ∃ inflate', initDynamicDecoderIn mem around inflate = some (.inl (false, inflate')) ∧
      inflate'.status = .inputError

theorem checksRuns_inside_iff {mem : Mem} {around : Surroundings} {bitPos : Nat}
    {header : LengthsHeader} (h : header.Valid) {ib : InputBuffer} {st : LengthState}
    {status : Option InflationStatus}
    (hrun : codeLengthLoop mem around bitPos header ib = some (st, status)) :
    (∀ k ∈ st.array.accesses, k < header.numLens) ↔ RunsFit header.numLens header.numLens
      (lengthSymbols mem (initHuffmanDecoder header.codelenLengths) header.numLens ib
        (around.numBitsUsed bitPos)) := by
  have hle := h.numLens_le
  rw [rounds_inside_iff (by omega) _ (Nat.le_of_eq (Nat.zero_add _).symm) hrun,
    runsFit_iff h.numLens_pos]
  exact and_iff_right fun _ hk => absurd hk List.not_mem_nil

/-- **The code lengths are checked exactly for input in which no copy comes first and no run goes
over the end**: nothing in the loop rejects the other input. -/
theorem codeLengthLoop_checks_iff (mem : Mem) (around : Surroundings) {inflate : Inflate}
    (hwithin : inflate.inputBuffer.Within) {header : LengthsHeader}
    (hheader : (readLengthsHeader mem inflate.inputBuffer).2 = some header) :
    ChecksRuns mem around inflate header (readLengthsHeader mem inflate.inputBuffer).1 ↔
      RunsFit header.numLens header.numLens
        (lengthSymbols mem (initHuffmanDecoder header.codelenLengths) header.numLens
          (readLengthsHeader mem inflate.inputBuffer).1
          (around.numBitsUsed inflate.inputBuffer.bitPos)) := by
  have h := LengthsHeader.valid_of_read hwithin hheader
  obtain ⟨hadvanced, _⟩ := @readLengthsHeader_reads mem inflate.inputBuffer _ _ hwithin rfl
  obtain ⟨⟨st, status⟩, hrun, _⟩ := codeLengthLoop_comes_back mem around
    inflate.inputBuffer.bitPos h (hadvanced.within hwithin)
  have hiff := checksRuns_inside_iff h hrun
  constructor
  · intro hchecks
    obtain ⟨st', status', hrun', hinside⟩ := hchecks.inside
    exact (checksRuns_inside_iff h hrun').mp hinside
  · intro hfits
    refine ⟨⟨st, status, hrun, hiff.mpr hfits⟩, ?_⟩
    intro st' ib' symbol used hreach hi hread hbad
    -- no round meets such a symbol
    obtain ⟨count, hcount, hfrom⟩ := reaches_fits (Nat.le_of_eq (Nat.zero_add _).symm)
      ((runsFit_iff h.numLens_pos).mp hfits) hreach
    obtain ⟨count, rfl⟩ : ∃ c, count = c + 1 := ⟨count - 1, by omega⟩
    rw [lengthSymbols_of_read hread] at hfrom
    exact absurd hbad (hfrom hi).1

/-- Zeros all around. -/
def zeroSurroundings : Surroundings :=
  { numBitsUsed := fun _ => 0
    codeLengthArray := fun _ _ => 0 }

/-- The codes of a block that starts with a copy: 258 lengths, and one bit for each of the symbols
16 and 18. -/
def copyFirst : Mem := fun a => [0, 0x40, 0x10, 0].getD a 0

/-- `copyFirst` in a page of its own. -/
def copyFirstInflate : Inflate := initInflate (fun _ => 0) ⟨0, 0, 0, 4096⟩ [] 4

/-- What stands ahead of its lengths. -/
def copyFirstHeader : LengthsHeader :=
  ⟨257, 1, [0, 0, 0, 0, 0, 0, 0, 0, 0, 0, 0, 0, 0, 0, 0, 0, 1, 0, 1]⟩

theorem codeLengthLoop_checks_copyFirst :
    ChecksRuns copyFirst zeroSurroundings copyFirstInflate copyFirstHeader
        (readLengthsHeader copyFirst copyFirstInflate.inputBuffer).1 ↔
      RunsFit 258 258
        (lengthSymbols copyFirst (initHuffmanDecoder copyFirstHeader.codelenLengths) 258
          (readLengthsHeader copyFirst copyFirstInflate.inputBuffer).1 0) :=
  codeLengthLoop_checks_iff copyFirst zeroSurroundings (initInputBuffer_within _ _ _)
    (by decide +kernel)

/-- There is nothing to copy, but the loop does not look. -/
theorem not_codeLengthLoop_checks_copyFirst :
    ¬ ∀ (mem : Mem) (around : Surroundings) (inflate : Inflate) (header : LengthsHeader),
      inflate.inputBuffer.Within →
      (readLengthsHeader mem inflate.inputBuffer).2 = some header →
      ChecksRuns mem around inflate header (readLengthsHeader mem inflate.inputBuffer).1 := by
  intro h
  have hwithin : copyFirstInflate.inputBuffer.Within := initInputBuffer_within _ _ _
  have hheader : (readLengthsHeader copyFirst copyFirstInflate.inputBuffer).2 =
      some copyFirstHeader := by decide +kernel
  obtain ⟨st, status, hrun, hinside⟩ :=
    (h copyFirst zeroSurroundings copyFirstInflate copyFirstHeader hwithin hheader).inside
  have hfits :=
    (checksRuns_inside_iff (LengthsHeader.valid_of_read hwithin hheader) hrun).mp hinside
  have hcopy : (lengthSymbols copyFirst (initHuffmanDecoder copyFirstHeader.codelenLengths) 258
      (readLengthsHeader copyFirst copyFirstInflate.inputBuffer).1 0).head? = some (.copy 3) := by
    decide +kernel
  obtain ⟨rest, hrest⟩ := List.head?_eq_some_iff.mp hcopy
  exact hfits.first 3 rest hrest

end DevopsBroker.Compress
