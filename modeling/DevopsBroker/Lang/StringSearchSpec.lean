import DevopsBroker.Lang.StringScan
import DevopsBroker.Lib.Attempts

/-!
# Searching in strings

`search` goes over the text once. Where an attempt fails it goes on behind the character that did
not match, so that it passes over an occurrence that starts in the attempt:
**`search_finds_iff`**. `endsWith` starts again behind the first character of the attempt:
**`endsWith_returns`**.
-/

namespace DevopsBroker.Lang

open DevopsBroker.Lib

/-! ## `search` -/

/-- The address that is returned. -/
def foundAt (text : Nat) : Option Nat → Nat
  | none => 0
  | some n => text + n

/-- **`.whileText`**, with some of the pattern matched already. -/
theorem searchLoop_returns {mem : Mem} {rdx text : Nat} {pattern rest : List UInt8}
    (hpattern : TextAt mem rdx pattern) :
    ∀ {c d : Cursor} {before matched more : List UInt8}, c.Reads mem more → d.Reads mem rest →
      pattern = matched ++ more → Attempts pattern before →
      d.address = text + (before ++ matched).length →
      ∃ result, Returns (fun fuel => rounds (searchRound mem rdx) fuel (c, d)) (foundAt text result) ∧
        Scanned pattern (before ++ matched ++ rest) result := by
  induction rest with
  | nil =>
    intro c d before matched more hc hd hsplit hbefore haddress
    cases more with
    | nil =>
      refine ⟨some (before ++ matched).length, returns_done ?_, before, [], hbefore, ?_, ?_⟩
      · rw [searchRound, hc.char, hd.char, List.headD_nil, if_neg (not_not_intro rfl), if_pos rfl,
          haddress]
        rfl
      · rw [hsplit, List.append_nil, List.append_nil, List.append_nil]
      · rw [hsplit, List.append_nil]
    | cons ch more =>
      refine ⟨none, returns_done ?_, before, matched, ch :: more, hbefore, List.append_nil _, hsplit,
        List.cons_ne_nil ch more⟩
      rw [searchRound, hc.char, hd.char, List.headD_cons, List.headD_nil, if_pos hc.ne_zero,
        if_neg hc.ne_zero, if_pos rfl]
      rfl
  | cons x rest ih =>
    intro c d before matched more hc hd hsplit hbefore haddress
    have hd' := hd.next fun _ _ => rfl
    cases more with
    | nil =>
      -- the pattern is there
      refine ⟨some (before ++ matched).length, returns_done ?_, before, x :: rest, hbefore, ?_, ?_⟩
      · rw [searchRound, hc.char, hd.char, List.headD_cons, List.headD_nil,
          if_pos (Ne.symm hd.ne_zero), if_pos rfl, haddress]
        rfl
      · rw [hsplit, List.append_nil]
      · rw [hsplit, List.append_nil]
    | cons ch more =>
      by_cases heq : ch = x
      · subst heq
        have hround : searchRound mem rdx (c, d) = some (.next (c.next mem, d.next mem)) := by
          rw [searchRound, hc.char, hd.char, List.headD_cons, List.headD_cons,
            if_neg (not_not_intro rfl), if_neg hc.ne_zero]
        have hsplit' : pattern = (matched ++ [ch]) ++ more := by rw [hsplit, List.append_cons]
        have haddress' : (d.next mem).address = text + (before ++ (matched ++ [ch])).length := by
          rw [Cursor.next_address, haddress]
          simp only [List.length_append, List.length_singleton]
          omega
        obtain ⟨result, hrun, hscanned⟩ :=
          ih (hc.next fun _ _ => rfl) hd' hsplit' hbefore haddress'
        refine ⟨result, returns_next hround hrun, ?_⟩
        have htext : before ++ (matched ++ [ch]) ++ rest = before ++ matched ++ ch :: rest := by
          simp only [List.append_assoc, List.singleton_append]
        rw [← htext]
        exact hscanned
      · -- the attempt has failed
        have hround : searchRound mem rdx (c, d) = some (.next (.load mem rdx, d.next mem)) := by
          rw [searchRound, hc.char, hd.char, List.headD_cons, List.headD_cons, if_pos heq,
            if_neg hc.ne_zero, if_neg hd.ne_zero]
        have hfails : Fails pattern (matched ++ [x]) := hsplit ▸ fails_append (Ne.symm heq) matched more
        have haddress' : (d.next mem).address = text + (before ++ (matched ++ [x]) ++ []).length := by
          rw [Cursor.next_address, haddress]
          simp only [List.length_append, List.length_singleton, List.length_nil]
          omega
        obtain ⟨result, hrun, hscanned⟩ :=
          ih (Cursor.reads_load hpattern) hd' (List.nil_append pattern).symm (hbefore.append hfails)
            haddress'
        refine ⟨result, returns_next hround hrun, ?_⟩
        have htext : before ++ (matched ++ [x]) ++ [] ++ rest = before ++ matched ++ x :: rest := by
          simp only [List.append_assoc, List.singleton_append, List.append_nil]
        rw [← htext]
        exact hscanned

section

variable {mem : Mem} {p t : Nat} {pattern text : List UInt8}

theorem search_scans (hp : p ≠ 0) (ht : t ≠ 0) (hpattern : TextAt mem p pattern)
    (htext : TextAt mem t text) :
    ∃ result, Returns (fun fuel => search fuel mem p t) (foundAt t result) ∧
      Scanned pattern text result := by
  have hstart : (Cursor.load mem t).address = t + (([] : List UInt8) ++ []).length := rfl
  obtain ⟨result, hrun, hscanned⟩ := searchLoop_returns hpattern (Cursor.reads_load hpattern)
    (Cursor.reads_load htext) (List.nil_append pattern).symm (attempts_nil pattern) hstart
  refine ⟨result, ?_, hscanned⟩
  unfold search
  simp only [if_neg hp, if_neg ht]
  exact hrun

/-- What the address says: `NULL` that there is no occurrence, another one where the first
occurrence ends. -/
def Finds (pattern text : List UInt8) (t address : Nat) : Prop :=
  (address = 0 ∧ ¬ pattern <:+: text) ∨
    ∃ before after, FirstIn pattern text before after ∧ address = t + (before ++ pattern).length

theorem finds_iff_locates (ht : t ≠ 0) (result : Option Nat) :
    Finds pattern text t (foundAt t result) ↔ Locates pattern text result := by
  cases result with
  | none =>
    constructor
    · rintro (⟨_, habsent⟩ | ⟨before, after, _, haddress⟩)
      · exact habsent
      · have hzero : 0 = t + (before ++ pattern).length := haddress
        omega
    · exact fun habsent => Or.inl ⟨rfl, habsent⟩
  | some n =>
    constructor
    · rintro (⟨hzero, _⟩ | ⟨before, after, hfirst, haddress⟩)
      · have hzero : t + n = 0 := hzero
        omega
      · have haddress : t + n = t + (before ++ pattern).length := haddress
        exact ⟨before, after, hfirst, by omega⟩
    · rintro ⟨before, after, hfirst, rfl⟩
      exact Or.inr ⟨before, after, hfirst, rfl⟩

/-- **`search` finds the first occurrence, or that there is none, exactly when** what is in front of
the first occurrence is failed attempts: each of them some of the pattern, and then a character that
is not its next one. -/
theorem search_finds_iff (hp : p ≠ 0) (ht : t ≠ 0) (hpattern : TextAt mem p pattern)
    (htext : TextAt mem t text) :
    (∃ address, Returns (fun fuel => search fuel mem p t) address ∧ Finds pattern text t address) ↔
      ∀ before after, FirstIn pattern text before after → Attempts pattern before := by
  obtain ⟨result, hrun, hscanned⟩ := search_scans hp ht hpattern htext
  rw [← hscanned.locates_iff, ← finds_iff_locates ht]
  constructor
  · rintro ⟨address, hrun', hfinds⟩
    rw [hrun.unique hrun']
    exact hfinds
  · exact fun hfinds => ⟨_, hrun, hfinds⟩

end

/-- A memory with a pattern and a text. -/
def patternAndText (pattern text : List UInt8) : Mem :=
  storeBytes (storeBytes (fun _ => 0) 0x10 pattern) 0x20 text

/-- `"ab"` in `"aaab"`, behind the failed attempt `"aa"`. -/
theorem search_finds_iff_behindAttempt :
    ∃ address,
      Returns (fun fuel => search fuel (patternAndText [0x61, 0x62] [0x61, 0x61, 0x61, 0x62]) 0x10 0x20)
        address ∧
      Finds [0x61, 0x62] [0x61, 0x61, 0x61, 0x62] 0x20 address := by
  have hfirst : FirstIn [0x61, 0x62] [0x61, 0x61, 0x61, 0x62] [(0x61 : UInt8), 0x61] [] := by
    refine ⟨rfl, fun before after heq => ?_⟩
    rcases before with _ | ⟨a, _ | ⟨b, before⟩⟩
    · exact absurd heq (by simp)
    · exact absurd heq (by simp)
    · exact Nat.le_add_left 2 before.length
  refine (search_finds_iff (by decide) (by decide) ⟨by decide, by decide⟩
    ⟨by decide, by decide⟩).mpr fun before after h => ?_
  rw [h.unique hfirst]
  exact (attempts_nil _).append (.there (.here (by decide)))

/-- `"aab"` in `"aaab"`: the occurrence starts inside of the attempt that fails. -/
theorem search_passes_over :
    let pattern : List UInt8 := [0x61, 0x61, 0x62]
    let text : List UInt8 := [0x61, 0x61, 0x61, 0x62]
    TextAt (patternAndText pattern text) 0x10 pattern ∧ TextAt (patternAndText pattern text) 0x20 text ∧
      ¬ ∃ address, Returns (fun fuel => search fuel (patternAndText pattern text) 0x10 0x20) address ∧
        Finds pattern text 0x20 address := by
  refine ⟨⟨by decide, by decide⟩, ⟨by decide, by decide⟩, ?_⟩
  rintro ⟨address, hrun, hfinds⟩
  have hnull : Returns (fun fuel => search fuel
      (patternAndText [0x61, 0x61, 0x62] [0x61, 0x61, 0x61, 0x62]) 0x10 0x20) 0 :=
    ⟨5, fun _ hle => rounds_more hle (by decide)⟩
  obtain rfl := hrun.unique hnull
  rcases hfinds with ⟨_, habsent⟩ | ⟨before, after, _, haddress⟩
  · exact habsent ⟨[0x61], [], rfl⟩
  · omega

/-! ## `endsWith` -/

section

variable {mem : Mem} {r10 : Nat} {pattern : List UInt8}

/-- What `.whileText` comes back with from a text on. -/
def TellsSuffix (mem : Mem) (r10 : Nat) (pattern text : List UInt8) : Prop :=
  ∀ c d : Cursor, c.Reads mem pattern → d.Reads mem text →
    Returns (fun fuel => rounds (endsWithRound mem r10) fuel (.whileText c d))
      (decide (pattern <:+ text))

/-- A pattern that is not the whole text. -/
theorem decide_suffix_cons {y : UInt8} {rest : List UInt8} (h : pattern ≠ y :: rest) :
    decide (pattern <:+ y :: rest) = decide (pattern <:+ rest) := by
  rw [decide_eq_decide, List.suffix_cons_iff, or_iff_right h]

/-- **`.whileEqual`**, with some of the pattern matched already. -/
theorem whileEqual_returns {r11 : Nat} {candidate : List UInt8} (hpattern : TextAt mem r10 pattern)
    (hcandidate : TextAt mem r11 candidate)
    (hrest : ∀ y rest, candidate = y :: rest → TellsSuffix mem r10 pattern rest) {tail : List UInt8} :
    ∀ {c d : Cursor} {matched more : List UInt8}, c.Reads mem more → d.Reads mem tail →
      pattern = matched ++ more → candidate = matched ++ tail →
      Returns (fun fuel => rounds (endsWithRound mem r10) fuel (.whileEqual c d r11))
        (decide (pattern <:+ candidate)) := by
  -- a character of the text does not match: the next candidate
  have hagain : ∀ {c d : Cursor}, c.char ≠ d.char → d.char ≠ 0 → ∀ {y : UInt8} {rest : List UInt8},
      candidate = y :: rest → pattern ≠ candidate →
      Returns (fun fuel => rounds (endsWithRound mem r10) fuel (.whileEqual c d r11))
        (decide (pattern <:+ candidate)) := by
    intro c d hdiffer hend y rest heq hne
    have hround : endsWithRound mem r10 (.whileEqual c d r11) =
        some (.next (.whileText (.load mem r10) (.load mem (r11 + 1)))) := by
      rw [endsWithRound, if_pos hdiffer, if_neg hend]
    rw [heq] at hcandidate hne ⊢
    rw [decide_suffix_cons hne]
    exact returns_next hround
      (hrest y rest heq _ _ (Cursor.reads_load hpattern) (Cursor.reads_load hcandidate.tail))
  induction tail with
  | nil =>
    intro c d matched more hc hd hsplit hsplit'
    apply returns_done
    rw [endsWithRound, hc.char, hd.char]
    cases more with
    | nil =>
      have hwhole : candidate = pattern := hsplit'.trans hsplit.symm
      rw [hwhole, decide_eq_true List.suffix_rfl]
      rfl
    | cons ch more =>
      have hlong : ¬ pattern <:+ candidate := by
        intro hsuffix
        have hlength := hsuffix.length_le
        rw [hsplit, hsplit', List.length_append, List.length_append, List.length_cons,
          List.length_nil] at hlength
        omega
      rw [List.headD_cons, List.headD_nil, if_pos hc.ne_zero, if_pos rfl, decide_eq_false hlong]
  | cons x tail ih =>
    intro c d matched more hc hd hsplit hsplit'
    have hend : d.char ≠ 0 := by
      rw [hd.char]
      exact hd.ne_zero
    obtain ⟨y, rest, heq⟩ : ∃ y rest, candidate = y :: rest :=
      List.exists_cons_of_ne_nil (by rw [hsplit']; simp)
    cases more with
    | nil =>
      refine hagain ?_ hend heq ?_
      · rw [hc.char]
        exact hend.symm
      · rw [hsplit, hsplit', Ne, List.append_right_inj]
        exact (List.cons_ne_nil x tail).symm
    | cons ch more =>
      by_cases hsame : ch = x
      · subst hsame
        have hround : endsWithRound mem r10 (.whileEqual c d r11) =
            some (.next (.whileEqual (c.next mem) (d.next mem) r11)) := by
          rw [endsWithRound, if_neg (not_not_intro (hc.char.trans hd.char.symm)), if_neg hend]
        exact returns_next hround (ih (hc.next fun _ _ => rfl) (hd.next fun _ _ => rfl)
          (by rw [hsplit, List.append_cons]) (by rw [hsplit', List.append_cons]))
      · refine hagain ?_ hend heq ?_
        · rw [hc.char, hd.char]
          exact hsame
        · rw [hsplit, hsplit', Ne, List.append_right_inj]
          exact fun h => hsame (List.cons.inj h).1

/-- **`.whileText`**, from any place of the text on. -/
theorem whileText_returns (hpattern : TextAt mem r10 pattern) (text : List UInt8) :
    TellsSuffix mem r10 pattern text := by
  induction text with
  | nil =>
    intro c d hc hd
    cases pattern with
    | nil =>
      have hround : endsWithRound mem r10 (.whileText c d) =
          some (.next (.whileEqual c (.load mem d.address) d.address)) := by
        rw [endsWithRound, if_pos (hc.char.trans hd.char.symm)]
      exact returns_next hround (whileEqual_returns hpattern hd.inMemory (fun _ _ h => nomatch h) hc
        (Cursor.reads_load hd.inMemory) (List.nil_append []).symm (List.nil_append []).symm)
    | cons ch pattern =>
      apply returns_done
      rw [endsWithRound, hc.char, hd.char, List.headD_cons, List.headD_nil, if_neg hc.ne_zero,
        if_pos rfl]
      simp
  | cons x text ih =>
    intro c d hc hd
    by_cases hstart : pattern.headD 0 = x
    · have hround : endsWithRound mem r10 (.whileText c d) =
          some (.next (.whileEqual c (.load mem d.address) d.address)) := by
        rw [endsWithRound, if_pos (by rw [hc.char, hd.char, hstart]; rfl)]
      refine returns_next hround (whileEqual_returns hpattern hd.inMemory ?_ hc
        (Cursor.reads_load hd.inMemory) (List.nil_append _).symm (List.nil_append _).symm)
      rintro y rest heq
      rw [← (List.cons.inj heq).2]
      exact ih
    · have hround : endsWithRound mem r10 (.whileText c d) =
          some (.next (.whileText c (d.next mem))) := by
        rw [endsWithRound, hc.char, hd.char, List.headD_cons, if_neg hstart, if_neg hd.ne_zero]
      have hne : pattern ≠ x :: text := by
        rintro rfl
        exact hstart rfl
      rw [decide_suffix_cons hne]
      exact returns_next hround (ih c (d.next mem) hc (hd.next fun _ _ => rfl))

end

/-- **`endsWith` tells whether the pattern is a suffix of the text**, for any two strings. -/
theorem endsWith_returns {mem : Mem} {p t : Nat} {pattern text : List UInt8} (hp : p ≠ 0) (ht : t ≠ 0)
    (hpattern : TextAt mem p pattern) (htext : TextAt mem t text) :
    Returns (fun fuel => endsWith fuel mem p t) (decide (pattern <:+ text)) := by
  unfold endsWith
  simp only [if_neg hp, if_neg ht]
  exact whileText_returns hpattern text _ _ (Cursor.reads_load hpattern) (Cursor.reads_load htext)

/-- `"aab"` at the end of `"aaab"`. -/
theorem endsWith_returns_overlap :
    Returns (fun fuel => endsWith fuel
      (patternAndText [0x61, 0x61, 0x62] [0x61, 0x61, 0x61, 0x62]) 0x10 0x20) true := by
  have hpattern : TextAt (patternAndText [0x61, 0x61, 0x62] [0x61, 0x61, 0x61, 0x62]) 0x10
      [0x61, 0x61, 0x62] := ⟨by decide, by decide⟩
  have htext : TextAt (patternAndText [0x61, 0x61, 0x62] [0x61, 0x61, 0x61, 0x62]) 0x20
      [0x61, 0x61, 0x61, 0x62] := ⟨by decide, by decide⟩
  exact endsWith_returns (by decide) (by decide) hpattern htext

end DevopsBroker.Lang
