import DevopsBroker.Compress.Huffman
import DevopsBroker.Lib.Arrays

/-!
# What the decoder's tables hold

The lengths are counted in eight bits, so that the tables are those of the
canonical code for `byteCount` codewords of each length rather than for
`codeCount`. The two counts agree on every length below 256 codewords.

- `lengthLoop_counted`: first codewords, symbol indices, sentinels and offsets are
  the ones of the byte counts; a code that is not over-subscribed does not wrap around
  in 16 bits;
- `tableInsert_getD`: an insertion fills the indices that begin with a codeword;
- `symbolLoop_spec`: after the symbol loop every symbol is at the index its length
  and rank give it, unless a later one got the same index, and the lookup table
  has the short codewords.
-/

namespace DevopsBroker.Compress

open DevopsBroker.Lib

/-- How many codewords of length `l` an eight-bit counter has seen. -/
def byteCount (lens : List Nat) (l : Nat) : Nat := codeCount lens l % 2 ^ 8

theorem byteCount_le (lens : List Nat) (l : Nat) : byteCount lens l ≤ codeCount lens l :=
  Nat.mod_le _ _

theorem byteCount_eq {lens : List Nat} {l : Nat} (h : codeCount lens l < 256) :
    byteCount lens l = codeCount lens l := Nat.mod_eq_of_lt h

/-! ## Counting -/

/-- The counters after some more lengths. -/
theorem count_foldl (lens : List Nat) :
    ∀ {count : Array Nat}, count.size = 16 → (∀ l ∈ lens, l ≤ 15) →
      (∀ l, count.getD l 0 < 2 ^ 8) → ∀ l ≤ 15,
      (lens.foldl (fun count l => count.setIfInBounds l ((count.getD l 0 + 1) % 2 ^ 8))
        count).getD l 0 = (count.getD l 0 + lens.count l) % 2 ^ 8 := by
  induction lens with
  | nil =>
    intro count _ _ hlt l _
    exact (Nat.mod_eq_of_lt (hlt l)).symm
  | cons x lens ih =>
    intro count hsz hle hlt l hl
    have hx : x < count.size := by
      have := hle x (List.mem_cons_self ..)
      omega
    have hlt' : ∀ l, (count.setIfInBounds x ((count.getD x 0 + 1) % 2 ^ 8)).getD l 0 < 2 ^ 8 := by
      intro l
      by_cases hxl : x = l
      · subst hxl
        rw [getD_set_self hx]
        exact Nat.mod_lt _ (by omega)
      · rw [getD_set_ne hxl]
        exact hlt l
    rw [List.foldl_cons, ih (by rw [Array.size_setIfInBounds]; exact hsz)
      (fun l hl => hle l (List.mem_cons_of_mem _ hl)) hlt' l hl]
    by_cases hxl : x = l
    · subst hxl
      rw [getD_set_self hx, List.count_cons_self]
      omega
    · rw [getD_set_ne hxl, List.count_cons_of_ne hxl]

theorem countLengths_size (lens : List Nat) : (countLengths lens).size = 16 := by
  suffices h : ∀ (lens : List Nat) (count : Array Nat),
      (lens.foldl (fun count l => count.setIfInBounds l ((count.getD l 0 + 1) % 2 ^ 8))
        count).size = count.size by
    rw [countLengths, h, Array.size_replicate]
  intro lens
  induction lens with
  | nil => intro count; rfl
  | cons x lens ih => intro count; rw [List.foldl_cons, ih, Array.size_setIfInBounds]

/-- The counters, with the one for length zero cleared. -/
theorem countLengths_getD {lens : List Nat} (hlens : ∀ l ∈ lens, l ≤ 15) {l : Nat} (hl : l ≤ 15) :
    ((countLengths lens).setIfInBounds 0 0).getD l 0 = byteCount lens l := by
  by_cases h0 : 0 = l
  · subst h0
    rw [getD_set_self (by rw [countLengths_size]; decide)]
    rfl
  · rw [getD_set_ne h0, countLengths,
      count_foldl lens (Array.size_replicate ..) hlens
        (fun l => by rw [getD_replicate]; decide) l hl,
      getD_replicate, Nat.zero_add, byteCount, codeCount, if_neg (Ne.symm h0)]

/-! ## The loop over the lengths -/

/-- The index of the first symbol with a codeword of length `l`. -/
def firstIndex (cnt : Nat → Nat) : Nat → Nat
  | 0 => 0
  | l + 1 => firstIndex cnt l + cnt l

theorem firstIndex_mono (cnt : Nat → Nat) {l m : Nat} (h : l ≤ m) :
    firstIndex cnt l ≤ firstIndex cnt m := by
  induction m with
  | zero => rw [Nat.le_zero.mp h]
  | succ m ih =>
    rcases Nat.lt_or_ge l (m + 1) with hlt | hge
    · exact Nat.le_trans (ih (by omega)) (Nat.le_add_right _ _)
    · rw [show l = m + 1 by omega]

/-- The entries for the lengths from 1 up to (not including) `l`, whatever the code: the
codewords wrap around in 16 bits. -/
structure LengthsCounted (cnt : Nat → Nat) (l : Nat) (t : LengthTables) : Prop where
  size_nextCode : t.nextCode.size = 16
  size_symIdx : t.symIdx.size = 16
  size_sentinelBits : t.sentinelBits.size = 16
  size_offset : t.offsetFirstSymIdx.size = 16
  nextCode : ∀ j < l, t.nextCode.getD j 0 = firstCode cnt j % 2 ^ 16
  symIdx : ∀ j < l, t.symIdx.getD j 0 = firstIndex cnt j
  sentinelBits : ∀ j < l, j ≠ 0 → t.sentinelBits.getD j 0 = limit cnt MAX_HUFFMAN_BITS j % 2 ^ 16
  offset : ∀ j < l, j ≠ 0 →
    t.offsetFirstSymIdx.getD j 0 = (firstIndex cnt j + 2 ^ 16 - firstCode cnt j % 2 ^ 16) % 2 ^ 16

/-- The same entries for a code that is not over-subscribed, where nothing wraps around. -/
structure LengthsDone (cnt : Nat → Nat) (l : Nat) (t : LengthTables) : Prop where
  size_nextCode : t.nextCode.size = 16
  size_symIdx : t.symIdx.size = 16
  size_sentinelBits : t.sentinelBits.size = 16
  size_offset : t.offsetFirstSymIdx.size = 16
  nextCode : ∀ j < l, t.nextCode.getD j 0 = firstCode cnt j
  symIdx : ∀ j < l, t.symIdx.getD j 0 = firstIndex cnt j
  sentinelBits : ∀ j < l, j ≠ 0 → t.sentinelBits.getD j 0 = limit cnt MAX_HUFFMAN_BITS j
  offset : ∀ j < l, j ≠ 0 →
    t.offsetFirstSymIdx.getD j 0 = (firstIndex cnt j + 2 ^ 16 - firstCode cnt j) % 2 ^ 16

/-- A prefix of the array and one more entry. -/
theorem getD_set_lt_succ {a : Array Nat} {f : Nat → Nat} {l : Nat} (hl : l < a.size)
    (h : ∀ j < l, a.getD j 0 = f j) : ∀ j < l + 1, (a.setIfInBounds l (f l)).getD j 0 = f j := by
  intro j hj
  by_cases hlj : l = j
  · subst hlj
    exact getD_set_self hl ..
  · rw [getD_set_ne hlj]
    exact h j (by omega)

/-- The same for entries that only count from length 1 on. -/
theorem getD_set_lt_succ_ne {a : Array Nat} {f : Nat → Nat} {l : Nat} (hl : l < a.size)
    (h : ∀ j < l, j ≠ 0 → a.getD j 0 = f j) :
    ∀ j < l + 1, j ≠ 0 → (a.setIfInBounds l (f l)).getD j 0 = f j := by
  intro j hj hj0
  by_cases hlj : l = j
  · subst hlj
    exact getD_set_self hl ..
  · rw [getD_set_ne hlj]
    exact h j (by omega) hj0

section

variable {cnt : Nat → Nat} {count : Array Nat}

/-- A code that is not over-subscribed has at most `2 ^ l` codewords and prefixes of
codewords of each length `l`. -/
theorem firstCode_add_le (hkraft : limit cnt 15 15 ≤ 2 ^ 15) {l : Nat} (hl : l ≤ 15) :
    firstCode cnt l + cnt l ≤ 2 ^ l := by
  have hle : limit cnt 15 l ≤ 2 ^ 15 := Nat.le_trans (limit_mono cnt hl (Nat.le_refl 15)) hkraft
  rw [limit, show 2 ^ 15 = 2 ^ l * 2 ^ (15 - l) by rw [← Nat.pow_add]; congr 1; omega] at hle
  exact Nat.le_of_mul_le_mul_right hle (Nat.two_pow_pos _)

/-- The cleared arrays. -/
theorem lengthsCounted_zeros (cnt : Nat → Nat) :
    LengthsCounted cnt 1 ⟨Array.replicate 16 0, Array.replicate 16 0, Array.replicate 16 0,
      Array.replicate 16 0⟩ := by
  have hzero : ∀ l, (Array.replicate 16 0).getD l 0 = 0 := fun l => getD_replicate 16 l 0
  refine ⟨Array.size_replicate .., Array.size_replicate .., Array.size_replicate ..,
    Array.size_replicate .., ?_, ?_, ?_, ?_⟩
  · intro j hj
    rw [hzero, show j = 0 by omega]
    rfl
  · intro j hj
    rw [hzero, show j = 0 by omega]
    rfl
  · intro j hj hj0
    omega
  · intro j hj hj0
    omega

/-- Wrapping around before the last codeword is put to the left does not matter. -/
theorem sentinel_mod (code count k : Nat) :
    (code % 2 ^ 16 + count) * 2 ^ k % 2 ^ 32 % 2 ^ 16 = (code + count) * 2 ^ k % 2 ^ 16 := by
  rw [Nat.mod_mod_of_dvd _ (Nat.pow_dvd_pow 2 (by omega)), Nat.mul_mod, Nat.mod_add_mod,
    ← Nat.mul_mod]

theorem lengthLoop_counted (hcount : ∀ l ≤ 15, count.getD l 0 = cnt l)
    (hindex : firstIndex cnt 16 < 2 ^ 16) :
    ∀ (n : Nat) {l : Nat} {t : LengthTables}, l + n = 16 → l ≠ 0 → LengthsCounted cnt l t →
      LengthsCounted cnt 16 (lengthLoop count n l t) := by
  intro n
  induction n with
  | zero =>
    intro l t hln _ h
    obtain rfl : l = 16 := by omega
    exact h
  | succ n ih =>
    intro l t hln hl h
    obtain ⟨i, rfl⟩ : ∃ i, l = i + 1 := ⟨l - 1, by omega⟩
    have hidx := firstIndex_mono cnt (show i + 1 ≤ 16 by omega)
    have hnext : (t.nextCode.getD i 0 + count.getD i 0) * 2 % 2 ^ 16 =
        firstCode cnt (i + 1) % 2 ^ 16 := by
      rw [h.nextCode i (by omega), hcount i (by omega), firstCode]
      omega
    have hsym : (t.symIdx.getD i 0 + count.getD i 0) % 2 ^ 16 = firstIndex cnt (i + 1) := by
      rw [h.symIdx i (by omega), hcount i (by omega)]
      exact Nat.mod_eq_of_lt (by rw [firstIndex] at hidx; omega)
    have hs : (firstCode cnt (i + 1) % 2 ^ 16 + count.getD (i + 1) 0) * 2 ^ (15 - (i + 1)) % 2 ^ 32
        % 2 ^ 16 = limit cnt 15 (i + 1) % 2 ^ 16 := by
      rw [hcount (i + 1) (by omega), sentinel_mod]
      rfl
    rw [lengthLoop, Nat.add_sub_cancel, hnext, hsym, hs]
    refine ih (by omega) (by omega) ⟨?_, ?_, ?_, ?_, ?_, ?_, ?_, ?_⟩
    · rw [Array.size_setIfInBounds, h.size_nextCode]
    · rw [Array.size_setIfInBounds, h.size_symIdx]
    · rw [Array.size_setIfInBounds, h.size_sentinelBits]
    · rw [Array.size_setIfInBounds, h.size_offset]
    · exact getD_set_lt_succ (f := fun j => firstCode cnt j % 2 ^ 16)
        (by rw [h.size_nextCode]; omega) h.nextCode
    · exact getD_set_lt_succ (by rw [h.size_symIdx]; omega) h.symIdx
    · exact getD_set_lt_succ_ne (f := fun j => limit cnt 15 j % 2 ^ 16)
        (by rw [h.size_sentinelBits]; omega) h.sentinelBits
    · exact getD_set_lt_succ_ne
        (f := fun j => (firstIndex cnt j + 2 ^ 16 - firstCode cnt j % 2 ^ 16) % 2 ^ 16)
        (by rw [h.size_offset]; omega) h.offset

/-- Where the last limit fits into 15 bits, nothing wraps around. -/
theorem LengthsCounted.done {t : LengthTables} (h : LengthsCounted cnt 16 t)
    (hkraft : limit cnt 15 15 ≤ 2 ^ 15) : LengthsDone cnt 16 t := by
  have hcode : ∀ j < 16, firstCode cnt j % 2 ^ 16 = firstCode cnt j := by
    intro j hj
    have hle := firstCode_add_le hkraft (show j ≤ 15 by omega)
    have hpow : 2 ^ j ≤ 2 ^ 15 := Nat.pow_le_pow_right (by omega) (by omega)
    exact Nat.mod_eq_of_lt (by omega)
  refine ⟨h.size_nextCode, h.size_symIdx, h.size_sentinelBits, h.size_offset, ?_, h.symIdx, ?_,
    ?_⟩
  · intro j hj
    rw [h.nextCode j hj, hcode j hj]
  · intro j hj hj0
    have hle : limit cnt 15 j ≤ 2 ^ 15 :=
      Nat.le_trans (limit_mono cnt (by omega) (Nat.le_refl 15)) hkraft
    rw [h.sentinelBits j hj hj0]
    exact Nat.mod_eq_of_lt (show limit cnt 15 j < 2 ^ 16 by omega)
  · intro j hj hj0
    rw [h.offset j hj hj0, hcode j hj]

end

/-! ## Inserting into the lookup table -/

/-- Reversing twice gives back the low bits. -/
theorem msbFirst_eq_iff {x y n : Nat} (hy : y < 2 ^ n) :
    msbFirst x.testBit n = y ↔ x % 2 ^ n = msbFirst y.testBit n := by
  constructor
  · intro h
    refine Nat.eq_of_testBit_eq fun j => ?_
    rw [Nat.testBit_mod_two_pow, testBit_msbFirst, ← h]
    by_cases hj : j < n
    · rw [testBit_msbFirst, decide_eq_true hj, decide_eq_true (show n - 1 - j < n by omega),
        show n - 1 - (n - 1 - j) = j by omega]
      rfl
    · rw [decide_eq_false hj, Bool.false_and, Bool.false_and]
  · intro h
    refine Nat.eq_of_testBit_eq fun j => ?_
    rw [testBit_msbFirst]
    by_cases hj : j < n
    · have hbit := congrArg (Nat.testBit · (n - 1 - j)) h
      simp only [Nat.testBit_mod_two_pow, testBit_msbFirst] at hbit
      rw [decide_eq_true (show n - 1 - j < n by omega), Bool.true_and, Bool.true_and,
        show n - 1 - (n - 1 - j) = j by omega] at hbit
      rw [decide_eq_true hj, Bool.true_and, hbit]
    · rw [decide_eq_false hj, Bool.false_and,
        Nat.testBit_lt_two_pow (Nat.lt_of_lt_of_le hy (Nat.pow_le_pow_right (by omega)
          (Nat.le_of_not_lt hj)))]

theorem insertPaddings_size (symbol length codeword : Nat) :
    ∀ (n : Nat) {padding : Nat} {table : Array TableEntry},
      (insertPaddings symbol length codeword n padding table).size = table.size := by
  intro n
  induction n with
  | zero => intro padding table; rfl
  | succ n ih => intro padding table; rw [insertPaddings, ih, Array.size_setIfInBounds]

/-- The paddings from `padding` on, `n` of them, fill the indices above them. -/
theorem insertPaddings_getD {symbol length codeword : Nat} (hcode : codeword < 2 ^ length)
    (hlen : length ≤ 8) {d : TableEntry} :
    ∀ (n : Nat) {padding : Nat} {table : Array TableEntry} (idx : Nat), table.size = 256 →
      padding + n ≤ 2 ^ (8 - length) →
      (insertPaddings symbol length codeword n padding table).getD idx d =
        if idx % 2 ^ length = codeword ∧ padding ≤ idx / 2 ^ length ∧
          idx / 2 ^ length < padding + n then ⟨symbol % 2 ^ 9, length % 2 ^ 7⟩
        else table.getD idx d := by
  intro n
  induction n with
  | zero =>
    intro padding table idx _ _
    have hno : ¬ (idx % 2 ^ length = codeword ∧ padding ≤ idx / 2 ^ length ∧
        idx / 2 ^ length < padding + 0) := by omega
    rw [insertPaddings, if_neg hno]
  | succ n ih =>
    intro padding table idx hsz hpad
    have hsplit : codeword ||| padding <<< length = padding * 2 ^ length + codeword := by
      rw [Nat.or_comm, Nat.shiftLeft_eq, Nat.mul_comm, ← Nat.two_pow_add_eq_or_of_lt hcode]
    have hindex : padding * 2 ^ length + codeword < table.size := by
      have hfull : 2 ^ (8 - length) * 2 ^ length = 256 := by
        rw [← Nat.pow_add, Nat.sub_add_cancel hlen]
      have hle : (padding + 1) * 2 ^ length ≤ 2 ^ (8 - length) * 2 ^ length :=
        Nat.mul_le_mul_right _ (by omega)
      rw [Nat.add_mul] at hle
      omega
    rw [insertPaddings, hsplit, ih idx (by rw [Array.size_setIfInBounds]; exact hsz) (by omega)]
    by_cases hidx : padding * 2 ^ length + codeword = idx
    · have hmod : idx % 2 ^ length = codeword := by
        rw [← hidx, Nat.mul_add_mod_of_lt hcode]
      have hdiv : idx / 2 ^ length = padding := by
        rw [← hidx, Nat.mul_comm, Nat.mul_add_div (Nat.two_pow_pos _), Nat.div_eq_of_lt hcode,
          Nat.add_zero]
      have hin : idx % 2 ^ length = codeword ∧ padding ≤ idx / 2 ^ length ∧
          idx / 2 ^ length < padding + (n + 1) := ⟨hmod, by omega, by omega⟩
      rw [if_neg (by omega), if_pos hin, ← hidx, getD_set_self hindex]
    · rw [getD_set_ne hidx]
      have hiff : (idx % 2 ^ length = codeword ∧ padding + 1 ≤ idx / 2 ^ length ∧
          idx / 2 ^ length < padding + 1 + n) ↔ (idx % 2 ^ length = codeword ∧
          padding ≤ idx / 2 ^ length ∧ idx / 2 ^ length < padding + (n + 1)) := by
        constructor
        · intro h
          omega
        · intro h
          have hne : idx / 2 ^ length ≠ padding := by
            intro hdiv
            refine hidx ?_
            rw [← hdiv, ← h.1, Nat.mul_comm]
            exact Nat.div_add_mod _ _
          omega
      exact if_congr hiff rfl rfl

/-- **An insertion fills the indices that begin with the low bits of the codeword**, and no
others. -/
theorem tableInsert_getD_mod {table : Array TableEntry} (hsz : table.size = 256)
    {symbol length codeword : Nat} (hlen : length ≤ 8) (hcode : codeword < 2 ^ 16)
    {idx : Nat} (hidx : idx < 256) (d : TableEntry) :
    (tableInsert table symbol length codeword).getD idx d =
      if msbFirst idx.testBit length = codeword % 2 ^ length then
        ⟨symbol % 2 ^ 9, length % 2 ^ 7⟩
      else table.getD idx d := by
  have hlow : msbFirst codeword.testBit length = msbFirst (codeword % 2 ^ length).testBit length := by
    refine msbFirst_congr ?_
    intro i hi
    rw [Nat.testBit_mod_two_pow, decide_eq_true hi, Bool.true_and]
  rw [tableInsert, reverse16_eq_msbFirst hcode (by omega), Nat.one_shiftLeft,
    insertPaddings_getD (msbFirst_lt _ _) hlen _ idx hsz (by rw [Nat.zero_add]), hlow,
    if_congr (msbFirst_eq_iff (Nat.mod_lt codeword (Nat.two_pow_pos length))) rfl rfl]
  have hdiv : idx / 2 ^ length < 0 + 2 ^ (8 - length) := by
    rw [Nat.zero_add, Nat.div_lt_iff_lt_mul (Nat.two_pow_pos _), ← Nat.pow_add,
      Nat.sub_add_cancel hlen]
    exact hidx
  refine if_congr ?_ rfl rfl
  exact ⟨fun h => h.1, fun h => ⟨h, Nat.zero_le _, hdiv⟩⟩

/-- A codeword of its length is all of its low bits. -/
theorem tableInsert_getD {table : Array TableEntry} (hsz : table.size = 256)
    {symbol length codeword : Nat} (hlen : length ≤ 8) (hcode : codeword < 2 ^ length)
    {idx : Nat} (hidx : idx < 256) (d : TableEntry) :
    (tableInsert table symbol length codeword).getD idx d =
      if msbFirst idx.testBit length = codeword then ⟨symbol % 2 ^ 9, length % 2 ^ 7⟩
      else table.getD idx d := by
  have hcode16 : codeword < 2 ^ 16 :=
    Nat.lt_of_lt_of_le hcode (Nat.pow_le_pow_right (by omega) (by omega))
  rw [tableInsert_getD_mod hsz hlen hcode16 hidx, Nat.mod_eq_of_lt hcode]

theorem tableInsert_size (table : Array TableEntry) (symbol length codeword : Nat) :
    (tableInsert table symbol length codeword).size = table.size :=
  insertPaddings_size ..

/-! ## The loop over the symbols -/

/-- A code for the decoder: at most 288 lengths of at most 15 bits, and not
over-subscribed. -/
structure ValidLengths (lens : List Nat) : Prop where
  length_le : lens.length ≤ MAX_HUFFMAN_SYMBOLS
  le : ∀ l ∈ lens, l ≤ MAX_HUFFMAN_BITS
  kraft : kraftSum MAX_HUFFMAN_BITS lens ≤ 2 ^ MAX_HUFFMAN_BITS

instance (lens : List Nat) : Decidable (ValidLengths lens) :=
  decidable_of_iff (lens.length ≤ MAX_HUFFMAN_SYMBOLS ∧ (∀ l ∈ lens, l ≤ MAX_HUFFMAN_BITS) ∧
      kraftSum MAX_HUFFMAN_BITS lens ≤ 2 ^ MAX_HUFFMAN_BITS)
    ⟨fun h => ⟨h.1, h.2.1, h.2.2⟩, fun h => ⟨h.length_le, h.le, h.kraft⟩⟩

/-- The index in `syms` that the length and the rank of a symbol give it. -/
def symPos (lens : List Nat) (s : Nat) : Nat :=
  firstIndex (byteCount lens) (codeLen lens s) + rank lens s

theorem firstIndex_byteCount_le (lens : List Nat) (l : Nat) :
    firstIndex (byteCount lens) l ≤ 255 * l := by
  induction l with
  | zero => exact Nat.le_refl _
  | succ l ih =>
    have hlt : byteCount lens l < 2 ^ 8 := Nat.mod_lt _ (by omega)
    rw [firstIndex]
    omega

/-- The indices of all lengths together number no more than the symbols. -/
theorem firstIndex_le_length (lens : List Nat) (l : Nat) :
    firstIndex (codeCount lens) l ≤ lens.length := by
  suffices h : ∀ (lens : List Nat) (l : Nat),
      firstIndex (codeCount lens) l ≤ lens.countP fun x => decide (x < l) from
    Nat.le_trans (h lens l) List.countP_le_length
  intro lens l
  induction l with
  | zero => exact Nat.zero_le _
  | succ l ih =>
    have hsplit : ∀ lens : List Nat, (lens.countP fun x => decide (x < l + 1)) =
        (lens.countP fun x => decide (x < l)) + lens.count l := by
      intro lens
      induction lens with
      | nil => rfl
      | cons x lens ih =>
        rw [List.countP_cons, List.countP_cons, List.count_cons, ih]
        rcases Nat.lt_trichotomy x l with hlt | heq | hgt
        · simp [show x < l + 1 by omega, hlt, show x ≠ l by omega]
          omega
        · simp [heq]
          omega
        · simp [show ¬ x < l + 1 by omega, show ¬ x < l by omega, show x ≠ l by omega]
    have hcnt : codeCount lens l ≤ lens.count l := by
      unfold codeCount
      split
      next => exact Nat.zero_le _
      next => exact Nat.le_refl _
    rw [firstIndex, hsplit]
    omega

theorem firstIndex_le_firstIndex {cnt cnt' : Nat → Nat} (h : ∀ l, cnt' l ≤ cnt l) (l : Nat) :
    firstIndex cnt' l ≤ firstIndex cnt l := by
  induction l with
  | zero => exact Nat.le_refl _
  | succ l ih =>
    have := h l
    rw [firstIndex, firstIndex]
    omega

theorem firstCode_le_firstIndex {cnt : Nat → Nat} (hzero : cnt 0 = 0) (l : Nat) :
    2 * firstCode cnt l ≤ 2 ^ l * firstIndex cnt l := by
  induction l with
  | zero => exact Nat.le_refl _
  | succ l ih =>
    rw [firstCode, firstIndex, Nat.mul_add (2 ^ (l + 1))]
    rcases Nat.eq_zero_or_pos l with rfl | hpos
    · rw [hzero, firstCode]
      exact Nat.zero_le _
    · have htwo : 2 ^ 2 ≤ 2 ^ (l + 1) := Nat.pow_le_pow_right (by omega) (by omega)
      have hmul := Nat.mul_le_mul_right (cnt l) htwo
      have hdouble : 2 ^ (l + 1) * firstIndex cnt l = 2 * (2 ^ l * firstIndex cnt l) := by
        rw [Nat.pow_succ, Nat.mul_comm (2 ^ l), Nat.mul_assoc]
      omega

section

variable {lens : List Nat}

theorem ValidLengths.le_fifteen (h : ValidLengths lens) : ∀ l ∈ lens, l ≤ 15 := h.le

theorem ValidLengths.limit_le (h : ValidLengths lens) : limit (codeCount lens) 15 15 ≤ 2 ^ 15 :=
  Nat.le_trans (Nat.le_of_eq (limit_eq_kraftSum h.le)) h.kraft

/-- Lengths of fewer than eight bits cannot have 256 codewords. -/
theorem ValidLengths.codeCount_lt (h : ValidLengths lens) {l : Nat} (hl : l < 8) :
    codeCount lens l < 256 := by
  have hadd := firstCode_add_le h.limit_le (show l ≤ 15 by omega)
  have hpow : 2 ^ l ≤ 2 ^ 7 := Nat.pow_le_pow_right (by omega) (by omega)
  omega

theorem ValidLengths.code_lt (h : ValidLengths lens) {s : Nat} (hs : codeLen lens s ≠ 0) :
    code lens s < 2 ^ codeLen lens s := by
  have hadd := firstCode_add_le h.limit_le (codeLen_le h.le s)
  have hrank := rank_lt hs
  rw [code]
  omega

/-- Every symbol has its index among as many as there are symbols. -/
theorem symPos_lt_length {s : Nat} (hs : codeLen lens s ≠ 0) : symPos lens s < lens.length := by
  have hrank := rank_lt hs
  have hle := firstIndex_le_firstIndex (byteCount_le lens) (codeLen lens s)
  have hlen := firstIndex_le_length lens (codeLen lens s + 1)
  rw [firstIndex] at hlen
  rw [symPos]
  omega

theorem ValidLengths.symPos_lt (h : ValidLengths lens) {s : Nat} (hs : codeLen lens s ≠ 0) :
    symPos lens s < MAX_HUFFMAN_SYMBOLS :=
  Nat.lt_of_lt_of_le (symPos_lt_length hs) h.length_le

/-- Up to eight bits the first codewords are the canonical ones. -/
theorem ValidLengths.firstCode_eq (h : ValidLengths lens) {l : Nat} (hl : l ≤ 8) :
    firstCode (byteCount lens) l = firstCode (codeCount lens) l :=
  firstCode_congr fun j hj => byteCount_eq (h.codeCount_lt (by omega))

/-- No other symbol is put at the index of `s`. -/
def Alone (lens : List Nat) (s : Nat) : Prop :=
  ∀ t, t ≠ s → codeLen lens t ≠ 0 → symPos lens t ≠ symPos lens s

/-- The tables after the symbols below `n`. -/
structure SymbolsDone (lens : List Nat) (n : Nat) (t : SymbolTables) : Prop where
  size_nextCode : t.nextCode.size = 16
  size_symIdx : t.symIdx.size = 16
  size_syms : t.syms.size = MAX_HUFFMAN_SYMBOLS
  size_table : t.table.size = 256
  nextCode : ∀ l, l ≠ 0 → l ≤ 8 →
    t.nextCode.getD l 0 = firstCode (byteCount lens) l + (lens.take n).count l
  symIdx : ∀ l, l ≠ 0 → l ≤ 15 →
    t.symIdx.getD l 0 = firstIndex (byteCount lens) l + (lens.take n).count l
  syms : ∀ s < n, codeLen lens s ≠ 0 → Alone lens s → t.syms[symPos lens s]? = some s
  hit : ∀ idx < 256, ∀ s < n, codeLen lens s ≤ 8 → Begins lens idx.testBit s →
    t.table.getD idx ⟨0, 0⟩ = ⟨s, codeLen lens s⟩
  miss : ∀ idx < 256, (∀ s < n, codeLen lens s ≤ 8 → ¬ Begins lens idx.testBit s) →
    t.table.getD idx ⟨0, 0⟩ = ⟨0, 0⟩

/-- A symbol without a codeword changes nothing. -/
theorem symbolsDone_zero {n : Nat} {t : SymbolTables} (h : SymbolsDone lens n t)
    (hn : n < lens.length) (h0 : codeLen lens n = 0) : SymbolsDone lens (n + 1) t := by
  have hcount : ∀ l, l ≠ 0 → (lens.take (n + 1)).count l = (lens.take n).count l := by
    intro l hl
    rw [count_take_succ hn, if_neg (by rw [h0]; exact Ne.symm hl), Nat.add_zero]
  have hlast : ∀ s < n + 1, codeLen lens s ≠ 0 → s < n := by
    intro s hs hne
    rcases Nat.lt_or_ge s n with hlt | hge
    · exact hlt
    · exact absurd (show codeLen lens s = 0 by rw [show s = n by omega]; exact h0) hne
  refine ⟨h.size_nextCode, h.size_symIdx, h.size_syms, h.size_table, ?_, ?_, ?_, ?_, ?_⟩
  · intro l hl hl8
    rw [hcount l hl]
    exact h.nextCode l hl hl8
  · intro l hl hl15
    rw [hcount l hl]
    exact h.symIdx l hl hl15
  · intro s hs hne
    exact h.syms s (hlast s hs hne) hne
  · intro idx hidx s hs hs8 hbegins
    exact h.hit idx hidx s (hlast s hs hbegins.1) hs8 hbegins
  · intro idx hidx hno
    exact h.miss idx hidx fun s hs => hno s (by omega)

/-- A counter that is one further for the length of symbol `n`. -/
theorem getD_set_count {a : Array Nat} {f : Nat → Nat} {n l : Nat} (hn : n < lens.length)
    (hsz : codeLen lens n < a.size) (hl : a.getD l 0 = f l + (lens.take n).count l) :
    (a.setIfInBounds (codeLen lens n)
      (f (codeLen lens n) + (lens.take n).count (codeLen lens n) + 1)).getD l 0 =
      f l + (lens.take (n + 1)).count l := by
  rw [count_take_succ hn]
  by_cases hln : codeLen lens n = l
  · rw [if_pos hln, ← hln, getD_set_self hsz, Nat.add_assoc]
  · rw [if_neg hln, getD_set_ne hln, Nat.add_zero]
    exact hl

/-- The counters, and the sizes of the arrays, after the symbols below `n`. -/
structure CountersAt (lens : List Nat) (n : Nat) (t : SymbolTables) : Prop where
  size_nextCode : t.nextCode.size = 16
  size_symIdx : t.symIdx.size = 16
  size_table : t.table.size = 256
  nextCode : ∀ l, l ≠ 0 → l ≤ 8 →
    t.nextCode.getD l 0 = firstCode (byteCount lens) l + (lens.take n).count l
  symIdx : ∀ l, l ≠ 0 → l ≤ 15 →
    t.symIdx.getD l 0 = firstIndex (byteCount lens) l + (lens.take n).count l

/-- A codeword of up to eight bits does not wrap around. -/
theorem shortCode_lt (hlength : lens.length ≤ MAX_HUFFMAN_SYMBOLS) {l n : Nat} (hl : l ≤ 8) :
    firstCode (byteCount lens) l + (lens.take n).count l < 2 ^ 16 - 1 := by
  have hfirst := @firstCode_le_firstIndex (byteCount lens) rfl l
  have hindex := Nat.le_trans (firstIndex_le_firstIndex (byteCount_le lens) l)
    (firstIndex_le_length lens l)
  have hpow : 2 ^ l ≤ 2 ^ 8 := Nat.pow_le_pow_right (by omega) hl
  have hcount : (lens.take n).count l ≤ lens.length :=
    Nat.le_trans List.count_le_length (by rw [List.length_take]; exact Nat.min_le_right _ _)
  have hmul := Nat.mul_le_mul hpow hindex
  simp only [MAX_HUFFMAN_SYMBOLS] at hlength
  omega

/-- What is done for a symbol with a long codeword. -/
theorem CountersAt.step_long {n : Nat} {t : SymbolTables} (h : CountersAt lens n t)
    (hlength : lens.length ≤ MAX_HUFFMAN_SYMBOLS) (hle : ∀ l ∈ lens, l ≤ MAX_HUFFMAN_BITS)
    (h0 : codeLen lens n ≠ 0) (hlong : 8 < codeLen lens n) :
    symbolStep t n (codeLen lens n) =
      { t with
        syms := t.syms.setIfInBounds (symPos lens n) n
        symIdx := t.symIdx.setIfInBounds (codeLen lens n) (symPos lens n + 1) } := by
  have hindex : t.symIdx.getD (codeLen lens n) 0 = symPos lens n := h.symIdx _ h0 (codeLen_le hle n)
  have hpos := symPos_lt_length h0
  simp only [MAX_HUFFMAN_SYMBOLS] at hlength
  have hwrap : (symPos lens n + 1) % 2 ^ 16 = symPos lens n + 1 := Nat.mod_eq_of_lt (by omega)
  have hnotShort : ¬ codeLen lens n ≤ HUFFMAN_LOOKUP_TABLE_BITS := Nat.not_le.mpr hlong
  rw [symbolStep, if_neg h0]
  dsimp only
  rw [if_neg hnotShort, hindex, hwrap]

/-- A short codeword also goes into the lookup table. -/
theorem CountersAt.step_short {n : Nat} {t : SymbolTables} (h : CountersAt lens n t)
    (hlength : lens.length ≤ MAX_HUFFMAN_SYMBOLS) (hle : ∀ l ∈ lens, l ≤ MAX_HUFFMAN_BITS)
    (h0 : codeLen lens n ≠ 0) (hshort : codeLen lens n ≤ 8) :
    symbolStep t n (codeLen lens n) =
      { nextCode := t.nextCode.setIfInBounds (codeLen lens n)
          (firstCode (byteCount lens) (codeLen lens n) + rank lens n + 1)
        symIdx := t.symIdx.setIfInBounds (codeLen lens n) (symPos lens n + 1)
        syms := t.syms.setIfInBounds (symPos lens n) n
        table := tableInsert t.table n (codeLen lens n)
          (firstCode (byteCount lens) (codeLen lens n) + rank lens n) } := by
  have hindex : t.symIdx.getD (codeLen lens n) 0 = symPos lens n := h.symIdx _ h0 (codeLen_le hle n)
  have hpos := symPos_lt_length h0
  have hlt : firstCode (byteCount lens) (codeLen lens n) + rank lens n < 2 ^ 16 - 1 :=
    shortCode_lt hlength hshort
  have hcode : t.nextCode.getD (codeLen lens n) 0 =
      firstCode (byteCount lens) (codeLen lens n) + rank lens n := h.nextCode _ h0 hshort
  have hcodeWrap : (firstCode (byteCount lens) (codeLen lens n) + rank lens n + 1) % 2 ^ 16 =
      firstCode (byteCount lens) (codeLen lens n) + rank lens n + 1 := Nat.mod_eq_of_lt (by omega)
  simp only [MAX_HUFFMAN_SYMBOLS] at hlength
  have hwrap : (symPos lens n + 1) % 2 ^ 16 = symPos lens n + 1 := Nat.mod_eq_of_lt (by omega)
  have htable : codeLen lens n ≤ HUFFMAN_LOOKUP_TABLE_BITS := hshort
  rw [symbolStep, if_neg h0]
  dsimp only
  rw [if_pos htable, hindex, hwrap, hcode, hcodeWrap]

/-- The counters after one more symbol. -/
theorem CountersAt.step {n : Nat} {t : SymbolTables} (h : CountersAt lens n t)
    (hlength : lens.length ≤ MAX_HUFFMAN_SYMBOLS) (hle : ∀ l ∈ lens, l ≤ MAX_HUFFMAN_BITS)
    (hn : n < lens.length) : CountersAt lens (n + 1) (symbolStep t n (codeLen lens n)) := by
  have hsame : ∀ l, codeLen lens n ≠ l → (lens.take (n + 1)).count l = (lens.take n).count l := by
    intro l hl
    rw [count_take_succ hn, if_neg hl, Nat.add_zero]
  have hle15 : codeLen lens n ≤ 15 := codeLen_le hle n
  by_cases h0 : codeLen lens n = 0
  · rw [symbolStep, if_pos h0]
    refine ⟨h.size_nextCode, h.size_symIdx, h.size_table, ?_, ?_⟩
    · intro l hl hl8
      rw [hsame l (by omega)]
      exact h.nextCode l hl hl8
    · intro l hl hl15
      rw [hsame l (by omega)]
      exact h.symIdx l hl hl15
  · have hsymIdx : ∀ l, l ≠ 0 → l ≤ 15 →
        (t.symIdx.setIfInBounds (codeLen lens n) (symPos lens n + 1)).getD l 0 =
          firstIndex (byteCount lens) l + (lens.take (n + 1)).count l := fun l hl hl15 =>
      getD_set_count hn (by rw [h.size_symIdx]; omega) (h.symIdx l hl hl15)
    rcases Nat.lt_or_ge 8 (codeLen lens n) with hlong | hshort
    · rw [h.step_long hlength hle h0 hlong]
      refine ⟨h.size_nextCode, ?_, h.size_table, ?_, hsymIdx⟩
      · rw [Array.size_setIfInBounds, h.size_symIdx]
      · intro l hl hl8
        rw [hsame l (by omega)]
        exact h.nextCode l hl hl8
    · rw [h.step_short hlength hle h0 hshort]
      refine ⟨?_, ?_, ?_, ?_, hsymIdx⟩
      · rw [Array.size_setIfInBounds, h.size_nextCode]
      · rw [Array.size_setIfInBounds, h.size_symIdx]
      · rw [tableInsert_size, h.size_table]
      · intro l hl hl8
        exact getD_set_count hn (by rw [h.size_nextCode]; omega) (h.nextCode l hl hl8)

/-- Where the symbols are, after one more. -/
theorem SymbolsDone.set_syms {n : Nat} {t : SymbolTables} (h : SymbolsDone lens n t)
    (hv : ValidLengths lens) (h0 : codeLen lens n ≠ 0) :
    ∀ s < n + 1, codeLen lens s ≠ 0 → Alone lens s →
      (t.syms.setIfInBounds (symPos lens n) n)[symPos lens s]? = some s := by
  intro s hs hne halone
  have hpos := hv.symPos_lt h0
  rw [Array.getElem?_setIfInBounds]
  by_cases hsn : n = s
  · subst hsn
    rw [if_pos rfl, if_pos (by rw [h.size_syms]; exact hpos)]
  · rw [if_neg (halone n hsn h0)]
    exact h.syms s (by omega) hne halone

/-- The lookup table after one more short codeword. -/
theorem SymbolsDone.insert_table {n : Nat} {t : SymbolTables} (h : SymbolsDone lens n t)
    (hv : ValidLengths lens) (hn : n < lens.length) (h0 : codeLen lens n ≠ 0)
    (hshort : codeLen lens n ≤ 8) :
    (∀ idx < 256, ∀ s < n + 1, codeLen lens s ≤ 8 → Begins lens idx.testBit s →
        (tableInsert t.table n (codeLen lens n) (code lens n)).getD idx ⟨0, 0⟩ =
          ⟨s, codeLen lens s⟩) ∧
      ∀ idx < 256, (∀ s < n + 1, codeLen lens s ≤ 8 → ¬ Begins lens idx.testBit s) →
        (tableInsert t.table n (codeLen lens n) (code lens n)).getD idx ⟨0, 0⟩ = ⟨0, 0⟩ := by
  have hlt := hv.code_lt h0
  have hentry : (⟨n % 2 ^ 9, codeLen lens n % 2 ^ 7⟩ : TableEntry) = ⟨n, codeLen lens n⟩ := by
    have hlen := hv.length_le
    simp only [MAX_HUFFMAN_SYMBOLS] at hlen
    rw [Nat.mod_eq_of_lt (by omega), Nat.mod_eq_of_lt (by omega)]
  constructor
  · intro idx hidx s hs hs8 hbegins
    rw [tableInsert_getD h.size_table hshort hlt hidx, hentry]
    by_cases hnb : Begins lens idx.testBit n
    · rw [if_pos hnb.2, begins_unique hv.le hnb hbegins]
    · rw [if_neg fun hc => hnb ⟨h0, hc⟩]
      refine h.hit idx hidx s ?_ hs8 hbegins
      rcases Nat.lt_or_ge s n with hlt | hge
      · exact hlt
      · obtain rfl : n = s := by omega
        exact absurd hbegins hnb
  · intro idx hidx hno
    rw [tableInsert_getD h.size_table hshort hlt hidx,
      if_neg fun hc => hno n (by omega) hshort ⟨h0, hc⟩]
    exact h.miss idx hidx fun s hs => hno s (by omega)

theorem SymbolsDone.counters {n : Nat} {t : SymbolTables} (h : SymbolsDone lens n t) :
    CountersAt lens n t :=
  ⟨h.size_nextCode, h.size_symIdx, h.size_table, h.nextCode, h.symIdx⟩

/-- One symbol. -/
theorem symbolStep_spec (hv : ValidLengths lens) {n : Nat} {t : SymbolTables}
    (h : SymbolsDone lens n t) (hn : n < lens.length) :
    SymbolsDone lens (n + 1) (symbolStep t n (codeLen lens n)) := by
  by_cases h0 : codeLen lens n = 0
  · rw [symbolStep, if_pos h0]
    exact symbolsDone_zero h hn h0
  · have hcounters := h.counters.step hv.length_le hv.le hn
    have hsyms := h.set_syms hv h0
    rcases Nat.lt_or_ge 8 (codeLen lens n) with hlong | hshort
    · -- a long codeword leaves the lookup table as it is
      rw [h.counters.step_long hv.length_le hv.le h0 hlong] at hcounters ⊢
      refine ⟨hcounters.size_nextCode, hcounters.size_symIdx, ?_, hcounters.size_table,
        hcounters.nextCode, hcounters.symIdx, hsyms, ?_, ?_⟩
      · rw [Array.size_setIfInBounds, h.size_syms]
      · intro idx hidx s hs hs8 hbegins
        refine h.hit idx hidx s ?_ hs8 hbegins
        rcases Nat.lt_or_ge s n with hlt | hge
        · exact hlt
        · rw [show s = n by omega] at hs8
          omega
      · intro idx hidx hno
        exact h.miss idx hidx fun s hs => hno s (by omega)
    · obtain ⟨hhit, hmiss⟩ := h.insert_table hv hn h0 hshort
      rw [code, ← hv.firstCode_eq hshort] at hhit hmiss
      rw [h.counters.step_short hv.length_le hv.le h0 hshort] at hcounters ⊢
      refine ⟨hcounters.size_nextCode, hcounters.size_symIdx, ?_, hcounters.size_table,
        hcounters.nextCode, hcounters.symIdx, hsyms, hhit, hmiss⟩
      rw [Array.size_setIfInBounds, h.size_syms]

/-- The next symbol of those that are left. -/
theorem codeLen_of_drop {n l : Nat} {rest : List Nat} (h : lens.drop n = l :: rest) :
    n < lens.length ∧ codeLen lens n = l ∧ lens.drop (n + 1) = rest := by
  have hlt : n < lens.length := by
    by_contra hge
    rw [List.drop_eq_nil_of_le (by omega)] at h
    cases h
  obtain ⟨hl, hrest⟩ := List.cons.inj ((List.drop_eq_getElem_cons hlt).symm.trans h)
  exact ⟨hlt, by rw [codeLen, List.getD_eq_getElem _ _ hlt, hl], hrest⟩

/-- All symbols from `n` on. -/
theorem symbolLoop_spec (hv : ValidLengths lens) :
    ∀ (rest : List Nat) {n : Nat} {t : SymbolTables}, lens.drop n = rest → n ≤ lens.length →
      SymbolsDone lens n t → SymbolsDone lens lens.length (symbolLoop rest n t) := by
  intro rest
  induction rest with
  | nil =>
    intro n t hdrop hn h
    obtain rfl : n = lens.length := by
      have := List.drop_eq_nil_iff.mp hdrop
      omega
    exact h
  | cons l rest ih =>
    intro n t hdrop hn h
    obtain ⟨hlt, hcode, hrest⟩ := codeLen_of_drop hdrop
    rw [symbolLoop, ← hcode]
    exact ih hrest hlt (symbolStep_spec hv h hlt)

end

/-! ## The finished decoder -/

/-- What the tables of a decoder hold. -/
structure DecoderFor (lens : List Nat) (d : HuffmanDecoder) : Prop where
  hit : ∀ idx < 256, ∀ s, codeLen lens s ≤ 8 → Begins lens idx.testBit s →
    d.table.getD idx ⟨0, 0⟩ = ⟨s, codeLen lens s⟩
  miss : ∀ idx < 256, (∀ s, codeLen lens s ≤ 8 → ¬ Begins lens idx.testBit s) →
    d.table.getD idx ⟨0, 0⟩ = ⟨0, 0⟩
  sentinelBits : ∀ l, l ≠ 0 → l ≤ 15 → d.sentinelBits.getD l 0 = limit (byteCount lens) 15 l
  offset : ∀ l, l ≠ 0 → l ≤ 15 → d.offsetFirstSymIdx.getD l 0 =
    (firstIndex (byteCount lens) l + 2 ^ 16 - firstCode (byteCount lens) l) % 2 ^ 16
  syms : ∀ s, codeLen lens s ≠ 0 → Alone lens s → d.syms[symPos lens s]? = some s

/-- **`initHuffmanDecoder` fills the tables.** -/
theorem initHuffmanDecoder_spec {lens : List Nat} (hv : ValidLengths lens) :
    DecoderFor lens (initHuffmanDecoder lens) := by
  have hlimit : limit (byteCount lens) 15 15 ≤ 2 ^ 15 :=
    Nat.le_trans (limit_le_limit fun j _ => byteCount_le lens j) hv.limit_le
  have hindex : firstIndex (byteCount lens) 16 < 2 ^ 16 :=
    Nat.lt_of_le_of_lt (firstIndex_byteCount_le lens 16) (by omega)
  have hlt := (lengthLoop_counted (fun l hl => countLengths_getD hv.le hl) hindex 15
    (by decide) (by decide) (lengthsCounted_zeros _)).done hlimit
  generalize hlteq : lengthLoop ((countLengths lens).setIfInBounds 0 0) 15 1
    ⟨Array.replicate 16 0, Array.replicate 16 0, Array.replicate 16 0, Array.replicate 16 0⟩ = lt
    at hlt
  have hbefore : SymbolsDone lens 0
      ⟨lt.nextCode, lt.symIdx, Array.replicate MAX_HUFFMAN_SYMBOLS 0,
        Array.replicate (1 <<< HUFFMAN_LOOKUP_TABLE_BITS) ⟨0, 0⟩⟩ := by
    refine ⟨hlt.size_nextCode, hlt.size_symIdx, Array.size_replicate .., Array.size_replicate ..,
      ?_, ?_, ?_, ?_, ?_⟩
    · intro l _ hl8
      exact hlt.nextCode l (by omega)
    · intro l _ hl15
      exact hlt.symIdx l (by omega)
    · intro s hs
      exact absurd hs (Nat.not_lt_zero s)
    · intro idx _ s hs
      exact absurd hs (Nat.not_lt_zero s)
    · intro idx _ _
      exact getD_replicate ..
  have hst := symbolLoop_spec hv lens rfl (Nat.zero_le _) hbefore
  unfold initHuffmanDecoder
  dsimp only
  rw [hlteq]
  refine ⟨?_, ?_, ?_, ?_, ?_⟩
  · intro idx hidx s hs8 hbegins
    exact hst.hit idx hidx s (codeLen_lt hbegins.1) hs8 hbegins
  · intro idx hidx hno
    exact hst.miss idx hidx fun s _ => hno s
  · intro l hl hl15
    exact hlt.sentinelBits l (by omega) hl
  · intro l hl hl15
    exact hlt.offset l (by omega) hl
  · intro s hs halone
    exact hst.syms s (codeLen_lt hs) hs halone

end DevopsBroker.Compress
