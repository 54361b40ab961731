import Mathlib.Data.Nat.Bitwise
import Mathlib.Data.List.Count
import Mathlib.Tactic.Ring

/-!
# Canonical prefix codes

A list of code lengths (`0` for a symbol without a codeword) determines a
canonical code: the codewords of one length are consecutive numbers in symbol
order, and the first codeword of length `l + 1` is twice the number after the
last codeword of length `l`.

The codewords are compared with the first `W` bits of a stream, read as a number
with its first bit on top (`msbFirst`). On that scale a codeword of length `l` is
an interval of `2 ^ (W - l)` numbers; the intervals of one length are adjacent,
and those of the lengths up to `l` end at `limit l`:

- `begins_bounds`, `begins_unique`: the codeword a stream begins with is the one
  whose interval its first bits are in, so there is at most one;
- `exists_begins`: below `limit W` there is one.

`firstCode` and `limit` are defined for any count function, not only for the
counts of a list, so that a program that counts wrongly can be compared with one
that counts right (`limit_le_limit`).
-/

namespace DevopsBroker.Lib

/-! ## Numbers read MSB first -/

/-- The first `n` bits as a number, the first bit on top. -/
def msbFirst (bit : Nat → Bool) : Nat → Nat
  | 0 => 0
  | n + 1 => 2 * msbFirst bit n + (bit n).toNat

theorem msbFirst_lt (bit : Nat → Bool) (n : Nat) : msbFirst bit n < 2 ^ n := by
  induction n with
  | zero => exact Nat.one_pos
  | succ n ih =>
    have hb : (bit n).toNat ≤ 1 := Bool.toNat_le _
    rw [msbFirst, Nat.pow_succ]
    omega

/-- Dropping the last `k` bits. -/
theorem msbFirst_div (bit : Nat → Bool) (n k : Nat) :
    msbFirst bit (n + k) / 2 ^ k = msbFirst bit n := by
  induction k with
  | zero => rw [Nat.pow_zero, Nat.div_one]; rfl
  | succ k ih =>
    have hhalf : msbFirst bit (n + (k + 1)) / 2 = msbFirst bit (n + k) := by
      have hb : (bit (n + k)).toNat ≤ 1 := Bool.toNat_le _
      rw [← Nat.add_assoc, msbFirst]
      omega
    rw [Nat.pow_succ, Nat.mul_comm, ← Nat.div_div_eq_div_mul, hhalf, ih]

/-- `msbFirst` reads the first `n` bits only. -/
theorem msbFirst_congr {bit bit' : Nat → Bool} {n : Nat} (h : ∀ i < n, bit' i = bit i) :
    msbFirst bit' n = msbFirst bit n := by
  induction n with
  | zero => rfl
  | succ n ih =>
    rw [msbFirst, msbFirst, h n (Nat.lt_succ_self n),
      ih fun i hi => h i (Nat.lt_succ_of_lt hi)]

/-- The bits of `msbFirst`, from the top down. -/
theorem testBit_msbFirst (bit : Nat → Bool) :
    ∀ (n j : Nat), (msbFirst bit n).testBit j = (decide (j < n) && bit (n - 1 - j)) := by
  intro n
  induction n with
  | zero => intro j; simp [msbFirst]
  | succ n ih =>
    intro j
    cases j with
    | zero =>
      rw [msbFirst, Nat.testBit_zero]
      cases hb : bit n <;> simp [hb]
    | succ j =>
      have hb : (bit n).toNat ≤ 1 := Bool.toNat_le _
      have hhalf : (2 * msbFirst bit n + (bit n).toNat) / 2 = msbFirst bit n := by omega
      rw [msbFirst, Nat.testBit_succ, hhalf, ih, show n + 1 - 1 - (j + 1) = n - 1 - j by omega]
      congr 1
      exact decide_eq_decide.mpr (by omega)

/-! ## First codewords and limits -/

/-- The first codeword of each length, given how many codewords each length has. -/
def firstCode (cnt : Nat → Nat) : Nat → Nat
  | 0 => 0
  | l + 1 => 2 * (firstCode cnt l + cnt l)

/-- Where the codewords of length up to `l` end, on the scale of `W` bits. -/
def limit (cnt : Nat → Nat) (W l : Nat) : Nat := (firstCode cnt l + cnt l) * 2 ^ (W - l)

/-- The codewords of length `l + 1` start where those of length up to `l` end. -/
theorem firstCode_mul (cnt : Nat → Nat) {W l : Nat} (hl : l < W) :
    firstCode cnt (l + 1) * 2 ^ (W - (l + 1)) = limit cnt W l := by
  have hpow : 2 ^ (W - l) = 2 * 2 ^ (W - (l + 1)) := by
    rw [show W - l = W - (l + 1) + 1 by omega, Nat.pow_succ, Nat.mul_comm]
  rw [firstCode, limit, hpow]
  ring

theorem limit_succ (cnt : Nat → Nat) {W l : Nat} (hl : l < W) :
    limit cnt W (l + 1) = limit cnt W l + cnt (l + 1) * 2 ^ (W - (l + 1)) := by
  rw [limit, Nat.add_mul, firstCode_mul cnt hl]

/-- Longer codewords lie above shorter ones. -/
theorem limit_mono (cnt : Nat → Nat) {W l m : Nat} (hlm : l ≤ m) (hm : m ≤ W) :
    limit cnt W l ≤ limit cnt W m := by
  induction m with
  | zero => rw [Nat.le_zero.mp hlm]
  | succ m ih =>
    rcases Nat.lt_or_ge l (m + 1) with hlt | hge
    · rw [limit_succ cnt (by omega)]
      exact Nat.le_trans (ih (by omega) (by omega)) (Nat.le_add_right _ _)
    · rw [show l = m + 1 by omega]

theorem firstCode_le_firstCode {cnt cnt' : Nat → Nat} {l : Nat} (h : ∀ j < l, cnt' j ≤ cnt j) :
    firstCode cnt' l ≤ firstCode cnt l := by
  induction l with
  | zero => exact Nat.le_refl _
  | succ l ih =>
    have hl := h l (Nat.lt_succ_self l)
    have hrec := ih fun j hj => h j (Nat.lt_succ_of_lt hj)
    rw [firstCode, firstCode]
    omega

/-- Counting too few codewords of some lengths only lowers the limits. -/
theorem limit_le_limit {cnt cnt' : Nat → Nat} {W l : Nat} (h : ∀ j ≤ l, cnt' j ≤ cnt j) :
    limit cnt' W l ≤ limit cnt W l :=
  Nat.mul_le_mul_right _ (Nat.add_le_add
    (firstCode_le_firstCode fun j hj => h j (Nat.le_of_lt hj)) (h l (Nat.le_refl l)))

theorem firstCode_congr {cnt cnt' : Nat → Nat} {l : Nat} (h : ∀ j < l, cnt' j = cnt j) :
    firstCode cnt' l = firstCode cnt l :=
  Nat.le_antisymm (firstCode_le_firstCode fun j hj => Nat.le_of_eq (h j hj))
    (firstCode_le_firstCode fun j hj => Nat.le_of_eq (h j hj).symm)

/-- Losing `d` codewords of length `L` lowers every limit from there on by their space. -/
theorem limit_add_le {cnt cnt' : Nat → Nat} {W L d : Nat} (hle : ∀ j, cnt' j ≤ cnt j)
    (hL : cnt' L + d ≤ cnt L) {l : Nat} (hLl : L ≤ l) (hl : l ≤ W) :
    limit cnt' W l + d * 2 ^ (W - L) ≤ limit cnt W l := by
  induction l with
  | zero =>
    obtain rfl : L = 0 := Nat.le_zero.mp hLl
    rw [limit, limit, ← Nat.add_mul, firstCode, firstCode]
    exact Nat.mul_le_mul_right _ (by omega)
  | succ l ih =>
    have hstep : cnt' (l + 1) * 2 ^ (W - (l + 1)) ≤ cnt (l + 1) * 2 ^ (W - (l + 1)) :=
      Nat.mul_le_mul_right _ (hle _)
    have hlow : limit cnt' W l ≤ limit cnt W l := limit_le_limit fun j _ => hle j
    rw [limit_succ cnt (by omega), limit_succ cnt' (by omega)]
    rcases Nat.lt_or_ge L (l + 1) with hlt | hge
    · have hrec := ih (by omega) (by omega)
      omega
    · obtain rfl : L = l + 1 := by omega
      have hlost : (cnt' (l + 1) + d) * 2 ^ (W - (l + 1)) ≤ cnt (l + 1) * 2 ^ (W - (l + 1)) :=
        Nat.mul_le_mul_right _ hL
      rw [Nat.add_mul] at hlost
      omega

/-! ## The code of a list of lengths -/

/-- How many symbols have a codeword of length `l`. -/
def codeCount (lens : List Nat) (l : Nat) : Nat := if l = 0 then 0 else lens.count l

/-- The length of the codeword of symbol `s`, `0` when it has none. -/
def codeLen (lens : List Nat) (s : Nat) : Nat := lens.getD s 0

/-- How many symbols before `s` have a codeword of the same length. -/
def rank (lens : List Nat) (s : Nat) : Nat := (lens.take s).count (codeLen lens s)

/-- The canonical codeword of symbol `s`, as a number of `codeLen lens s` bits. -/
def code (lens : List Nat) (s : Nat) : Nat :=
  firstCode (codeCount lens) (codeLen lens s) + rank lens s

/-- The stream begins with the codeword of `s`. -/
def Begins (lens : List Nat) (bit : Nat → Bool) (s : Nat) : Prop :=
  codeLen lens s ≠ 0 ∧ msbFirst bit (codeLen lens s) = code lens s

/-- The share of all `W`-bit numbers that the codewords take up. -/
def kraftSum (W : Nat) (lens : List Nat) : Nat :=
  (lens.map fun l => if l = 0 then 0 else 2 ^ (W - l)).sum

theorem codeLen_lt {lens : List Nat} {s : Nat} (h : codeLen lens s ≠ 0) : s < lens.length := by
  rcases Nat.lt_or_ge s lens.length with hlt | hge
  · exact hlt
  · exact absurd (List.getD_eq_default _ _ hge) h

theorem codeLen_le {lens : List Nat} {W : Nat} (hW : ∀ l ∈ lens, l ≤ W) (s : Nat) :
    codeLen lens s ≤ W := by
  rcases Nat.lt_or_ge s lens.length with hlt | hge
  · rw [codeLen, List.getD_eq_getElem _ _ hlt]
    exact hW _ (List.getElem_mem hlt)
  · rw [codeLen, List.getD_eq_default _ _ hge]
    exact Nat.zero_le _

/-- The symbol after which the count goes up. -/
theorem count_take_succ {lens : List Nat} {s : Nat} (hs : s < lens.length) (l : Nat) :
    (lens.take (s + 1)).count l = (lens.take s).count l + if codeLen lens s = l then 1 else 0 := by
  rw [List.take_add_one, List.getElem?_eq_getElem hs, List.count_append, codeLen,
    List.getD_eq_getElem _ _ hs]
  simp [List.count_singleton]

theorem count_take_mono (lens : List Nat) (l : Nat) {s t : Nat} (h : s ≤ t) :
    (lens.take s).count l ≤ (lens.take t).count l :=
  (List.take_sublist_take_left h).count_le l

theorem rank_lt {lens : List Nat} {s : Nat} (h : codeLen lens s ≠ 0) :
    rank lens s < codeCount lens (codeLen lens s) := by
  have hsucc := count_take_succ (codeLen_lt h) (codeLen lens s)
  have hle := (List.take_sublist (s + 1) lens).count_le (codeLen lens s)
  rw [if_pos rfl] at hsucc
  rw [codeCount, if_neg h, rank]
  omega

/-- Among symbols of one length the rank tells them apart. -/
theorem rank_inj {lens : List Nat} {s t : Nat} (hs : codeLen lens s ≠ 0)
    (hlen : codeLen lens s = codeLen lens t) (hrank : rank lens s = rank lens t) : s = t := by
  have hlt : ∀ {a b : Nat}, codeLen lens a ≠ 0 → codeLen lens a = codeLen lens b → a < b →
      rank lens a < rank lens b := by
    intro a b ha hab hlt
    have hsucc := count_take_succ (codeLen_lt ha) (codeLen lens a)
    have hmono := count_take_mono lens (codeLen lens a) (show a + 1 ≤ b from hlt)
    rw [if_pos rfl] at hsucc
    unfold rank
    rw [← hab]
    omega
  rcases Nat.lt_trichotomy s t with hst | hst | hst
  · have := hlt hs hlen hst
    omega
  · exact hst
  · have := hlt (hlen ▸ hs) hlen.symm hst
    omega

/-- Every rank below the count belongs to a symbol. -/
theorem exists_rank {lens : List Nat} {l : Nat} :
    ∀ (n : Nat), n ≤ lens.length → ∀ r < (lens.take n).count l,
      ∃ s, codeLen lens s = l ∧ rank lens s = r := by
  intro n
  induction n with
  | zero => intro _ r hr; simp at hr
  | succ n ih =>
    intro hn r hr
    rw [count_take_succ (show n < lens.length from hn)] at hr
    rcases Nat.lt_or_ge r ((lens.take n).count l) with hlt | hge
    · exact ih (by omega) r hlt
    · split at hr
      next hlen => exact ⟨n, hlen, by rw [rank, hlen]; omega⟩
      next => omega

/-! ## What a stream begins with -/

section

variable {lens : List Nat} {W : Nat} {bit : Nat → Bool}

/-- On the scale of `W` bits a codeword is an interval. -/
theorem begins_iff {s : Nat} (hs : codeLen lens s ≤ W) (hne : codeLen lens s ≠ 0) :
    Begins lens bit s ↔
      code lens s * 2 ^ (W - codeLen lens s) ≤ msbFirst bit W ∧
      msbFirst bit W < (code lens s + 1) * 2 ^ (W - codeLen lens s) := by
  have hdiv : msbFirst bit W / 2 ^ (W - codeLen lens s) = msbFirst bit (codeLen lens s) := by
    have h := msbFirst_div bit (codeLen lens s) (W - codeLen lens s)
    rwa [Nat.add_sub_cancel' hs] at h
  have hpos : 0 < 2 ^ (W - codeLen lens s) := Nat.two_pow_pos _
  rw [Begins, and_iff_right hne, ← hdiv, Nat.div_eq_iff hpos, Nat.add_mul, Nat.one_mul]
  omega

/-- The codeword a stream begins with, by its length. -/
theorem begins_bounds (hW : ∀ l ∈ lens, l ≤ W) {s : Nat} (h : Begins lens bit s) :
    ∃ l, codeLen lens s = l + 1 ∧ l < W ∧ limit (codeCount lens) W l ≤ msbFirst bit W ∧
      msbFirst bit W < limit (codeCount lens) W (l + 1) := by
  have hle := codeLen_le hW s
  have hne := h.1
  obtain ⟨l, hl⟩ : ∃ l, codeLen lens s = l + 1 := ⟨codeLen lens s - 1, by omega⟩
  have hrank := rank_lt hne
  obtain ⟨hlow, hhigh⟩ := (begins_iff hle hne).mp h
  rw [code, hl] at hlow hhigh
  rw [hl] at hrank
  refine ⟨l, hl, by omega, ?_, ?_⟩
  · rw [← firstCode_mul _ (by omega)]
    exact Nat.le_trans (Nat.mul_le_mul_right _ (Nat.le_add_right _ _)) hlow
  · exact Nat.lt_of_lt_of_le hhigh (Nat.mul_le_mul_right _ (by omega))

/-- **A stream begins with at most one codeword.** -/
theorem begins_unique (hW : ∀ l ∈ lens, l ≤ W) {s t : Nat} (hs : Begins lens bit s)
    (ht : Begins lens bit t) : s = t := by
  obtain ⟨l, hl, hlW, hlow, hhigh⟩ := begins_bounds hW hs
  obtain ⟨m, hm, hmW, hlow', hhigh'⟩ := begins_bounds hW ht
  have hlm : l = m := by
    rcases Nat.lt_trichotomy l m with hlt | heq | hgt
    · have := limit_mono (codeCount lens) (show l + 1 ≤ m from hlt) (by omega : m ≤ W)
      omega
    · exact heq
    · have := limit_mono (codeCount lens) (show m + 1 ≤ l from hgt) (by omega : l ≤ W)
      omega
  have hlen : codeLen lens s = codeLen lens t := by rw [hl, hm, hlm]
  refine rank_inj hs.1 hlen ?_
  have hcode : code lens s = code lens t := by rw [← hs.2, ← ht.2, hlen]
  rw [code, code, hlen] at hcode
  omega

/-- The first codeword length whose limit is above the stream. -/
theorem exists_limit {cnt : Nat → Nat} (hcnt : cnt 0 = 0) {R : Nat} (h : R < limit cnt W W) :
    ∃ l < W, limit cnt W l ≤ R ∧ R < limit cnt W (l + 1) := by
  have hzero : limit cnt W 0 = 0 := by rw [limit, hcnt, firstCode, Nat.zero_mul]
  by_contra hno
  have hall : ∀ l ≤ W, limit cnt W l ≤ R := by
    intro l
    induction l with
    | zero => intro _; rw [hzero]; exact Nat.zero_le _
    | succ l ih =>
      intro hl
      by_contra hgt
      exact hno ⟨l, hl, ih (by omega), by omega⟩
  exact absurd (hall W (Nat.le_refl W)) (by omega)

/-- Between two limits, the first bits are among the numbers for codewords of that length. -/
theorem firstCode_le_msbFirst {cnt : Nat → Nat} {l : Nat} (hl : l < W)
    (hlow : limit cnt W l ≤ msbFirst bit W) (hhigh : msbFirst bit W < limit cnt W (l + 1)) :
    firstCode cnt (l + 1) ≤ msbFirst bit (l + 1) ∧
      msbFirst bit (l + 1) < firstCode cnt (l + 1) + cnt (l + 1) := by
  have hpos : 0 < 2 ^ (W - (l + 1)) := Nat.two_pow_pos _
  have hdiv : msbFirst bit W / 2 ^ (W - (l + 1)) = msbFirst bit (l + 1) := by
    have h := msbFirst_div bit (l + 1) (W - (l + 1))
    rwa [Nat.add_sub_cancel' (show l + 1 ≤ W from hl)] at h
  rw [← hdiv]
  constructor
  · rw [Nat.le_div_iff_mul_le hpos, firstCode_mul _ hl]
    exact hlow
  · rw [Nat.div_lt_iff_lt_mul hpos]
    exact hhigh

/-- **Below the last limit every stream begins with a codeword.** -/
theorem exists_begins (hlt : msbFirst bit W < limit (codeCount lens) W W) :
    ∃ s, Begins lens bit s := by
  obtain ⟨l, hlW, hlow, hhigh⟩ := exists_limit (show codeCount lens 0 = 0 from rfl) hlt
  obtain ⟨hge, hup⟩ := firstCode_le_msbFirst hlW hlow hhigh
  have hr : msbFirst bit (l + 1) - firstCode (codeCount lens) (l + 1)
      < (lens.take lens.length).count (l + 1) := by
    rw [List.take_length]
    rw [show codeCount lens (l + 1) = lens.count (l + 1) from if_neg (Nat.succ_ne_zero l)] at hup
    omega
  obtain ⟨s, hlen, hrank⟩ := exists_rank lens.length (Nat.le_refl _) _ hr
  exact ⟨s, by rw [hlen]; exact Nat.succ_ne_zero l, by rw [code, hlen, hrank]; omega⟩

end

/-! ## Over-subscription -/

/-- One more codeword of length `x` raises the limits from `x` on by its space. -/
theorem limit_cons (x : Nat) (lens : List Nat) {W l : Nat} (hl : l ≤ W) :
    limit (codeCount (x :: lens)) W l = limit (codeCount lens) W l +
      if x ≠ 0 ∧ x ≤ l then 2 ^ (W - x) else 0 := by
  have hcnt : ∀ j, codeCount (x :: lens) j =
      codeCount lens j + if j ≠ 0 ∧ x = j then 1 else 0 := by
    intro j
    unfold codeCount
    rw [List.count_cons]
    by_cases hj : j = 0
    · simp [hj]
    · by_cases hx : x = j <;> simp [hj, hx]
  induction l with
  | zero =>
    have hno : ¬ (x ≠ 0 ∧ x ≤ 0) := by omega
    rw [if_neg hno, limit, limit, hcnt]
    simp [firstCode]
  | succ l ih =>
    rw [limit_succ _ (by omega), limit_succ _ (by omega), ih (by omega), hcnt]
    rcases Nat.lt_trichotomy x (l + 1) with hlt | heq | hgt
    · have hno : ¬ (l + 1 ≠ 0 ∧ x = l + 1) := by omega
      have hsame : (x ≠ 0 ∧ x ≤ l) ↔ (x ≠ 0 ∧ x ≤ l + 1) := by omega
      rw [if_neg hno, Nat.add_zero, if_congr hsame rfl rfl]
      omega
    · have hyes : l + 1 ≠ 0 ∧ x = l + 1 := ⟨by omega, heq⟩
      have hno : ¬ (x ≠ 0 ∧ x ≤ l) := by omega
      have hnow : x ≠ 0 ∧ x ≤ l + 1 := by omega
      rw [if_pos hyes, if_neg hno, if_pos hnow, heq]
      ring
    · have hno : ¬ (l + 1 ≠ 0 ∧ x = l + 1) := by omega
      have hno₁ : ¬ (x ≠ 0 ∧ x ≤ l) := by omega
      have hno₂ : ¬ (x ≠ 0 ∧ x ≤ l + 1) := by omega
      rw [if_neg hno, if_neg hno₁, if_neg hno₂]
      simp only [Nat.add_zero]

/-- The last limit is the share of the numbers that the codewords take up. -/
theorem limit_eq_kraftSum {lens : List Nat} {W : Nat} (hW : ∀ l ∈ lens, l ≤ W) :
    limit (codeCount lens) W W = kraftSum W lens := by
  induction lens with
  | nil =>
    have hzero : ∀ l, firstCode (codeCount []) l = 0 := by
      intro l
      induction l with
      | zero => rfl
      | succ l ih => rw [firstCode, ih, codeCount]; simp
    rw [limit, hzero, codeCount, kraftSum]
    simp
  | cons x lens ih =>
    have hx := hW x (List.mem_cons_self ..)
    rw [limit_cons x lens (Nat.le_refl W), ih fun l hl => hW l (List.mem_cons_of_mem _ hl)]
    unfold kraftSum
    rw [List.map_cons, List.sum_cons]
    by_cases hx0 : x = 0
    · simp [hx0]
    · rw [if_pos ⟨hx0, hx⟩, if_neg hx0, Nat.add_comm]

end DevopsBroker.Lib
