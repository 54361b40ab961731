import Mathlib.Data.List.TakeWhile
import DevopsBroker.Cgi.HttpRequest
import DevopsBroker.Lib.FormUrlencoded

/-!
# The parameters of an encoded query

A `GET` request whose query string is the encoding of a list of pairs. `urldecode` undoes the
encoding of every byte below `0xA0`, and takes `0x90` off the others, since it reads a first digit
from `A` to `F` as if it were a decimal one. It runs before the query is cut, so that an encoded
`=` or `&` looks like one that stands between two parts: `cutPairs` gets through exactly when the
decoded query is a row of names without `=` and values without `&`.

**`initHttpRequest_iff`**: the parameters are the pairs if and only if no name has a `=`, no value
has a `&`, and every byte is below `0xA0`.
-/

namespace DevopsBroker.Cgi

open DevopsBroker.Adt DevopsBroker.Lang DevopsBroker.Lib

/-! ## Decoding -/

/-- What `urldecode` makes of an encoded byte. -/
def misread (c : UInt8) : UInt8 := if c < 0xA0 then c else c - 0x90

def misreadField (field : Field) : Field := (field.1.map misread, field.2.map misread)

theorem misread_of_lt {c : UInt8} (h : c < 0xA0) : misread c = c := if_pos h

theorem misread_lt (c : UInt8) : misread c < 0xA0 := by
  revert c
  apply forall_byte
  decide +kernel

theorem urldecode_byte {c : UInt8} (hnul : c ≠ 0) (hplus : c ≠ PLUS) (hpercent : c ≠ PERCENT)
    (queryString : List UInt8) :
    urldecode (c :: queryString) = (urldecode queryString).map (c :: ·) := by
  rw [urldecode.eq_def]
  dsimp only
  rw [if_neg hnul, if_neg hplus, if_neg hpercent]

theorem urldecode_plus (queryString : List UInt8) :
    urldecode (PLUS :: queryString) = (urldecode queryString).map (SPACE :: ·) := by
  rw [urldecode.eq_def]
  rfl

theorem urldecode_percent (first second : UInt8) (queryString : List UInt8) :
    urldecode (PERCENT :: first :: second :: queryString) =
      (urldecode queryString).map (percentEncoded first second :: ·) := by
  rw [urldecode.eq_def]
  rfl

/-- The bytes are read as others, and what follows them is read next. -/
def ReadsAs (bytes decoded : List UInt8) : Prop :=
  ∀ rest, urldecode (bytes ++ rest) = (urldecode rest).map (decoded ++ ·)

namespace ReadsAs

theorem nil : ReadsAs [] [] := by
  intro rest
  cases h : urldecode rest with
  | none => exact h
  | some decoded => exact h

theorem append {xs ys decoded decoded' : List UInt8} (h : ReadsAs xs decoded)
    (h' : ReadsAs ys decoded') : ReadsAs (xs ++ ys) (decoded ++ decoded') := by
  intro rest
  rw [List.append_assoc, h, h', Option.map_map]
  congr 1
  funext zs
  exact (List.append_assoc ..).symm

/-- A byte that stands for itself. -/
theorem byte {c : UInt8} (hnul : c ≠ 0) (hplus : c ≠ PLUS) (hpercent : c ≠ PERCENT) :
    ReadsAs [c] [c] := by
  intro rest
  exact urldecode_byte hnul hplus hpercent rest

theorem cons {c : UInt8} {ys decoded : List UInt8} (hnul : c ≠ 0) (hplus : c ≠ PLUS)
    (hpercent : c ≠ PERCENT) (h : ReadsAs ys decoded) : ReadsAs (c :: ys) (c :: decoded) :=
  (byte hnul hplus hpercent).append h

end ReadsAs

/-- A safe byte is none of those that `urldecode` looks for. -/
theorem safe_plain {c : UInt8} :
    IsSafe c → c ≠ 0 ∧ c ≠ PLUS ∧ c ≠ PERCENT ∧ c < 0xA0 := by
  revert c
  apply forall_byte
  decide +kernel

theorem percentEncoded_digits (c : UInt8) :
    percentEncoded (upperDigit (c >>> 4)) (upperDigit (c &&& 0x0F)) = misread c := by
  revert c
  apply forall_byte
  decide +kernel

theorem readsAs_encodeByte (c : UInt8) : ReadsAs (encodeByte c) [misread c] := by
  intro rest
  unfold encodeByte
  by_cases hsafe : IsSafe c
  · obtain ⟨hnul, hplus, hpercent, hlt⟩ := safe_plain hsafe
    rw [if_pos hsafe, misread_of_lt hlt]
    exact ReadsAs.byte hnul hplus hpercent rest
  · rw [if_neg hsafe]
    by_cases hspace : c = SPACE
    · subst hspace
      exact urldecode_plus rest
    · rw [if_neg (show ¬ c = 0x20 from hspace), ← percentEncoded_digits]
      exact urldecode_percent _ _ rest

theorem readsAs_encodeText (text : List UInt8) : ReadsAs (encodeText text) (text.map misread) := by
  induction text with
  | nil => exact ReadsAs.nil
  | cons c text ih =>
    rw [encodeText, List.flatMap_cons, List.map_cons]
    exact (readsAs_encodeByte c).append ih

/-- The pairs, read byte by byte, with the same bytes between them. -/
theorem readsAs_encodeFields (fields : List Field) :
    ReadsAs (encodeFields fields) (joinFields EQUALS AMPERSAND (fields.map misreadField)) := by
  unfold encodeFields
  induction fields with
  | nil => exact ReadsAs.nil
  | cons field fields ih =>
    have hvalue := (readsAs_encodeText field.2).cons (c := EQUALS) (by decide) (by decide) (by decide)
    have hfield := (readsAs_encodeText field.1).append hvalue
    by_cases hnil : fields = []
    · subst hnil
      exact hfield
    · rw [List.map_cons, List.map_cons, joinFields_cons _ _ _ (by simpa using hnil),
        joinFields_cons _ _ _ (by simpa using hnil)]
      exact hfield.append (ih.cons (by decide) (by decide) (by decide))

/-- What is written is not longer than what is read. -/
theorem length_urldecode (queryString : List UInt8) :
    ∀ decoded, urldecode queryString = some decoded → decoded.length ≤ queryString.length := by
  fun_induction urldecode queryString with
  | case1 => intro _ h; exact absurd h (by simp)
  | case2 => intro _ h; cases h; simp
  | case3 queryString _ ih =>
    intro _ h
    obtain ⟨decoded, hrest, rfl⟩ := Option.map_eq_some_iff.mp h
    exact Nat.succ_le_succ (ih decoded hrest)
  | case4 first second queryString _ _ ih =>
    intro _ h
    obtain ⟨decoded, hrest, rfl⟩ := Option.map_eq_some_iff.mp h
    have hle := ih decoded hrest
    simp only [List.length_cons]
    omega
  | case5 => intro _ h; exact absurd h (by simp)
  | case6 ch queryString _ _ _ ih =>
    intro _ h
    obtain ⟨decoded, hrest, rfl⟩ := Option.map_eq_some_iff.mp h
    exact Nat.succ_le_succ (ih decoded hrest)

/-! ## Cutting -/

/-- The loop of `findName` and `findValue`: where the next byte to stop at is. -/
def scan (stop : UInt8 → Bool) (paramStr : List UInt8) : Nat → Nat → Option Nat
  | 0, _ => none
  | fuel + 1, i => do
    let ch ← paramStr[i]?
    if stop ch then some i else scan stop paramStr fuel (i + 1)

theorem findName_eq_scan (paramStr : List UInt8) :
    ∀ fuel i, findName paramStr fuel i = scan (fun ch => decide (ch = EQUALS)) paramStr fuel i := by
  intro fuel
  induction fuel with
  | zero => intro i; rfl
  | succ fuel ih =>
    intro i
    rw [findName, scan]
    cases paramStr[i]? with
    | none => rfl
    | some ch =>
      dsimp only [Option.bind_eq_bind, Option.bind_some]
      rw [ih]
      exact ite_congr decide_eq_true_eq.symm (fun _ => rfl) fun _ => rfl

/-- The scan stops at the first such byte. -/
theorem scan_iff (stop : UInt8 → Bool) {fuel j : Nat} :
    ∀ {pre suf : List UInt8}, suf.length < fuel →
      (scan stop (pre ++ suf) fuel pre.length = some j ↔
        ∃ run ch rest, suf = run ++ ch :: rest ∧ (∀ c ∈ run, stop c = false) ∧ stop ch = true ∧
          j = pre.length + run.length) := by
  induction fuel with
  | zero => intro _ _ h; exact absurd h (Nat.not_lt_zero _)
  | succ fuel ih =>
    intro pre suf hfuel
    rw [scan, List.getElem?_append_right (Nat.le_refl _), Nat.sub_self]
    cases suf with
    | nil => simp
    | cons c suf =>
      rw [List.getElem?_cons_zero]
      dsimp only [Option.bind_eq_bind, Option.bind_some]
      by_cases hc : stop c = true
      · rw [if_pos hc, Option.some.injEq]
        constructor
        · intro h
          exact ⟨[], c, suf, rfl, fun d hd => absurd hd List.not_mem_nil, hc, h.symm⟩
        · intro ⟨run, ch, rest, hsuf, hrun, _, hj⟩
          cases run with
          | nil => exact hj.symm
          | cons d run =>
            obtain ⟨rfl, _⟩ := List.cons.inj hsuf
            exact absurd hc (by rw [hrun c List.mem_cons_self]; simp)
      · rw [if_neg hc]
        have hnext := @ih (pre ++ [c]) suf (Nat.lt_of_succ_lt_succ hfuel)
        rw [List.append_assoc, List.singleton_append, List.length_append, List.length_singleton]
          at hnext
        rw [hnext]
        constructor
        · intro ⟨run, ch, rest, hsuf, hrun, hch, hj⟩
          refine ⟨c :: run, ch, rest, by rw [hsuf]; rfl, ?_, hch, by rw [List.length_cons]; omega⟩
          intro d hd
          rcases List.mem_cons.mp hd with rfl | hd
          · exact Bool.eq_false_iff.mpr hc
          · exact hrun d hd
        · intro ⟨run, ch, rest, hsuf, hrun, hch, hj⟩
          cases run with
          | nil =>
            obtain ⟨rfl, _⟩ := List.cons.inj hsuf
            exact absurd hch hc
          | cons d run =>
            obtain ⟨rfl, hrest⟩ := List.cons.inj hsuf
            rw [List.length_cons] at hj
            exact ⟨run, ch, rest, hrest, fun e he => hrun e (List.mem_cons_of_mem _ he), hch,
              by omega⟩

/-- The name goes up to the next `=`. -/
theorem findName_iff {pre suf : List UInt8} {fuel j : Nat} (hfuel : suf.length < fuel) :
    findName (pre ++ suf) fuel pre.length = some j ↔
      ∃ name rest, suf = name ++ EQUALS :: rest ∧ EQUALS ∉ name ∧ j = pre.length + name.length := by
  rw [findName_eq_scan, scan_iff _ hfuel]
  constructor
  · intro ⟨name, ch, rest, hsuf, hname, hch, hj⟩
    obtain rfl := of_decide_eq_true hch
    exact ⟨name, rest, hsuf, fun h => of_decide_eq_false (hname _ h) rfl, hj⟩
  · intro ⟨name, rest, hsuf, hname, hj⟩
    refine ⟨name, EQUALS, rest, hsuf, ?_, rfl, hj⟩
    intro c hc
    apply decide_eq_false
    rintro rfl
    exact hname hc

theorem findValue_eq_scan (paramStr : List UInt8) :
    ∀ fuel i, findValue paramStr fuel i =
      (scan (fun ch => decide (ch = AMPERSAND ∨ ch = 0)) paramStr fuel i).map fun j =>
        (j, decide (paramStr[j]? = some AMPERSAND)) := by
  intro fuel
  induction fuel with
  | zero => intro i; rfl
  | succ fuel ih =>
    intro i
    rw [findValue, scan]
    cases hch : paramStr[i]? with
    | none => rfl
    | some ch =>
      dsimp only [Option.bind_eq_bind, Option.bind_some]
      by_cases hamp : ch = AMPERSAND
      · subst hamp
        rw [if_pos rfl, if_pos (by decide), Option.map_some, hch]
        rfl
      · rw [if_neg hamp]
        by_cases hnul : ch = 0
        · subst hnul
          rw [if_pos rfl, if_pos (by decide), Option.map_some, hch]
          rfl
        · rw [if_neg hnul, if_neg (by simp [hamp, hnul])]
          exact ih (i + 1)

/-- The value goes up to the next `&` or the next `NUL`. -/
theorem findValue_iff {pre suf : List UInt8} {fuel j : Nat} {found : Bool} (hfuel : suf.length < fuel) :
    findValue (pre ++ suf) fuel pre.length = some (j, found) ↔
      ∃ value rest, suf = value ++ (if found then AMPERSAND else 0) :: rest ∧
        (AMPERSAND ∉ value ∧ 0 ∉ value) ∧ j = pre.length + value.length := by
  have hbyte : ∀ (value : List UInt8) (ch : UInt8) (rest : List UInt8),
      (pre ++ (value ++ ch :: rest))[pre.length + value.length]? = some ch := by
    intro value ch rest
    rw [← List.append_assoc, ← List.length_append, List.getElem?_append_right (Nat.le_refl _),
      Nat.sub_self, List.getElem?_cons_zero]
  rw [findValue_eq_scan, Option.map_eq_some_iff]
  constructor
  · intro ⟨k, hscan, hk⟩
    obtain ⟨rfl, rfl⟩ := Prod.mk.inj hk
    obtain ⟨value, ch, rest, rfl, hvalue, hch, rfl⟩ := (scan_iff _ hfuel).mp hscan
    refine ⟨value, rest, ?_, ?_, rfl⟩
    · rw [hbyte]
      rcases of_decide_eq_true hch with rfl | rfl
      · rw [decide_eq_true rfl, if_pos rfl]
      · rw [decide_eq_false (by decide), if_neg Bool.false_ne_true]
    · exact ⟨fun h => of_decide_eq_false (hvalue _ h) (Or.inl rfl),
        fun h => of_decide_eq_false (hvalue _ h) (Or.inr rfl)⟩
  · intro ⟨value, rest, hsuf, hvalue, hj⟩
    subst hsuf hj
    refine ⟨_, (scan_iff _ hfuel).mpr ⟨value, _, rest, rfl, ?_, ?_, rfl⟩, ?_⟩
    · intro c hc
      apply decide_eq_false
      intro hstop
      rcases hstop with rfl | rfl
      · exact hvalue.1 hc
      · exact hvalue.2 hc
    · cases found <;> rfl
    · rw [hbyte]
      cases found <;> rfl

/-- A name and a value that are cut where they end. -/
def Cuttable (field : Field) : Prop := EQUALS ∉ field.1 ∧ AMPERSAND ∉ field.2 ∧ 0 ∉ field.2

/-- What is on the stack for pairs of pointers: the last pair on top, its value first. -/
def pushed (pairs : List (Ptr × Ptr)) : List Ptr :=
  pairs.reverse.flatMap fun pair => [pair.2, pair.1]

/-- Where the names and the values are, in a row that starts at `p`. -/
def pointersFrom (p : Ptr) : List Field → List (Ptr × Ptr)
  | [] => []
  | field :: fields =>
    (p, p + (field.1.length + 1)) ::
      pointersFrom (p + (field.1.length + 1 + (field.2.length + 1))) fields

theorem set_behind (pre run rest : List UInt8) (c d : UInt8) :
    (pre ++ (run ++ c :: rest)).set (pre.length + run.length) d = pre ++ (run ++ d :: rest) := by
  rw [List.set_append_right _ _ (Nat.le_add_right ..), Nat.add_sub_cancel_left,
    List.set_append_right _ _ (Nat.le_refl _), Nat.sub_self, List.set_cons_zero]

/-- The row behind a field that has been cut. -/
def behind (pre : List UInt8) (field : Field) : List UInt8 :=
  pre ++ (field.1 ++ 0 :: (field.2 ++ [0]))

theorem length_behind (pre : List UInt8) (field : Field) :
    (behind pre field).length = pre.length + (field.1.length + 1 + (field.2.length + 1)) := by
  simp only [behind, List.length_append, List.length_cons, List.length_nil]
  omega

theorem behind_append (pre : List UInt8) (field : Field) (rest : List UInt8) :
    behind pre field ++ rest = pre ++ (field.1 ++ 0 :: (field.2 ++ 0 :: rest)) := by
  simp only [behind, List.append_assoc, List.cons_append, List.nil_append]

/-- `findName`, as `cutPairs` calls it. -/
theorem findName_next {pre suf : List UInt8} {j : Nat} :
    findName (pre ++ suf) ((pre ++ suf).length + 1) pre.length = some j ↔
      ∃ name rest, suf = name ++ EQUALS :: rest ∧ EQUALS ∉ name ∧ j = pre.length + name.length := by
  apply findName_iff
  rw [List.length_append]
  omega

/-- `findValue`, as `cutPairs` calls it. -/
theorem findValue_next {pre name suf : List UInt8} {j : Nat} {found : Bool} :
    findValue (pre ++ (name ++ 0 :: suf)) ((pre ++ (name ++ 0 :: suf)).length + 1)
        (pre.length + name.length + 1) = some (j, found) ↔
      ∃ value rest, suf = value ++ (if found then AMPERSAND else 0) :: rest ∧
        (AMPERSAND ∉ value ∧ 0 ∉ value) ∧ j = pre.length + name.length + 1 + value.length := by
  have hlen : pre.length + name.length + 1 = (pre ++ (name ++ [0])).length := by
    simp only [List.length_append, List.length_singleton]
    omega
  have hlist : pre ++ (name ++ 0 :: suf) = (pre ++ (name ++ [0])) ++ suf := by
    rw [List.append_assoc, List.append_assoc, List.singleton_append]
  rw [hlen, hlist]
  apply findValue_iff
  rw [List.length_append]
  omega

/-- One round: the field is cut, and the byte behind it tells whether there is a next one. -/
theorem cutPairs_field {field : Field} (hcut : Cuttable field) (address : Ptr) (fuel : Nat)
    (pre rest : List UInt8) (stack : List Ptr) (n : Nat) (found : Bool) :
    cutPairs address (fuel + 1) pre.length
        ⟨pre ++ (field.1 ++ EQUALS :: (field.2 ++ (if found then AMPERSAND else 0) :: rest)), stack, n⟩ =
      (if found = true then cutPairs address fuel (behind pre field).length else some)
        ⟨behind pre field ++ rest, (address + pre.length + (field.1.length + 1)) ::
          (address + pre.length) :: stack, n + 1⟩ := by
  obtain ⟨hname, hamp, hnul⟩ := hcut
  have hend := (@findName_next pre _ _).mpr
    ⟨field.1, field.2 ++ (if found then AMPERSAND else 0) :: rest, rfl, hname, rfl⟩
  have hvalue := (@findValue_next pre field.1 _ _ found).mpr ⟨field.2, rest, rfl, ⟨hamp, hnul⟩, rfl⟩
  rw [cutPairs, hend]
  dsimp only [Option.bind_eq_bind, Option.bind_some]
  rw [set_behind, hvalue]
  dsimp only [Option.bind_some]
  have hlen : pre.length + field.1.length + 1 = (pre ++ (field.1 ++ [0])).length := by
    simp only [List.length_append, List.length_singleton]
    omega
  have hbehind : pre.length + field.1.length + 1 + field.2.length + 1 = (behind pre field).length := by
    rw [length_behind]
    omega
  have haddress : address + (pre.length + field.1.length + 1) =
      address + pre.length + (field.1.length + 1) := by
    rw [Nat.add_assoc pre.length, Nat.add_assoc address]
  rw [haddress]
  cases found with
  | true =>
    have hset := set_behind (pre ++ (field.1 ++ [0])) field.2 rest AMPERSAND 0
    rw [← hlen] at hset
    simp only [List.append_assoc, List.singleton_append] at hset
    rw [if_pos rfl, if_pos rfl, if_pos rfl, hset, ← behind_append, hbehind]
  | false =>
    rw [if_neg Bool.false_ne_true, if_neg Bool.false_ne_true, if_neg Bool.false_ne_true,
      ← behind_append]

/-- Where a round gets through, it has cut a field. -/
theorem exists_field {address : Ptr} {fuel : Nat} {pre suf : List UInt8} {stack : List Ptr}
    {n : Nat} {cut : Cut}
    (h : cutPairs address (fuel + 1) pre.length ⟨pre ++ suf, stack, n⟩ = some cut) :
    ∃ field, ∃ found : Bool, ∃ rest, Cuttable field ∧
      suf = field.1 ++ EQUALS :: (field.2 ++ (if found then AMPERSAND else 0) :: rest) := by
  rw [cutPairs, Option.bind_eq_bind, Option.bind_eq_some_iff] at h
  obtain ⟨nameEnd, hend, h⟩ := h
  obtain ⟨name, more, rfl, hname, rfl⟩ := findName_next.mp hend
  dsimp only [Option.bind_eq_bind] at h
  rw [set_behind, Option.bind_eq_some_iff] at h
  obtain ⟨⟨valueEnd, found⟩, hvalue, _⟩ := h
  obtain ⟨value, rest, rfl, ⟨hamp, hnul⟩, _⟩ := findValue_next.mp hvalue
  exact ⟨(name, value), found, rest, ⟨hname, hamp, hnul⟩, rfl⟩

/-- What is left behind for a row of fields. -/
def cutAt (address : Ptr) (pre : List UInt8) (pairs : List (Ptr × Ptr)) (fields : List Field)
    (rest : List UInt8) : Cut where
  paramStr := pre ++ (joinFields 0 0 fields ++ 0 :: rest)
  stack := pushed (pairs ++ pointersFrom (address + pre.length) fields)
  numElements := pairs.length + fields.length

/-- The first field, and the others behind it. -/
theorem cutAt_cons (address : Ptr) (pre : List UInt8) (pairs : List (Ptr × Ptr)) (field : Field)
    {fields : List Field} (h : fields ≠ []) (rest : List UInt8) :
    cutAt address pre pairs (field :: fields) rest =
      cutAt address (behind pre field)
        (pairs ++ [(address + pre.length, address + pre.length + (field.1.length + 1))]) fields rest := by
  unfold cutAt
  congr 1
  · rw [joinFields_cons _ _ _ h, behind_append]
    simp only [List.append_assoc, List.cons_append]
  · rw [length_behind, ← Nat.add_assoc address, pointersFrom, List.append_assoc, List.singleton_append]
  · rw [List.length_append, List.length_singleton, List.length_cons]
    omega

/-- **`cutPairs` gets through exactly when it reads a row of fields**, each of which can be cut, with
a `NUL` behind them. -/
theorem cutPairs_iff {address : Ptr} {fuel : Nat} :
    ∀ {pre suf : List UInt8} {pairs : List (Ptr × Ptr)} {cut : Cut}, suf.length < fuel →
      (cutPairs address fuel pre.length ⟨pre ++ suf, pushed pairs, pairs.length⟩ = some cut ↔
        ∃ fields rest, fields ≠ [] ∧ (∀ field ∈ fields, Cuttable field) ∧
          suf = joinFields EQUALS AMPERSAND fields ++ 0 :: rest ∧
          cut = cutAt address pre pairs fields rest) := by
  induction fuel with
  | zero => intro _ _ _ _ h; exact absurd h (Nat.not_lt_zero _)
  | succ fuel ih =>
    intro pre suf pairs cut hfuel
    have hpush : ∀ p q, q :: p :: pushed pairs = pushed (pairs ++ [(p, q)]) := by
      intro p q
      rw [pushed, pushed, List.reverse_append]
      rfl
    have hcount : ∀ pair, pairs.length + 1 = (pairs ++ [pair]).length := by
      intro pair
      rw [List.length_append, List.length_singleton]
    have hlast : ∀ field rest, some (⟨behind pre field ++ rest,
        pushed (pairs ++ [(address + pre.length, address + pre.length + (field.1.length + 1))]),
        pairs.length + 1⟩ : Cut) = some (cutAt address pre pairs [field] rest) := by
      intro field rest
      rw [cutAt, joinFields_singleton, behind_append, List.append_assoc]
      rfl
    constructor
    · intro h
      obtain ⟨field, found, rest, hcut, rfl⟩ := exists_field h
      rw [cutPairs_field hcut, hpush] at h
      cases found with
      | false =>
        rw [if_neg Bool.false_ne_true, hlast, Option.some.injEq] at h
        refine ⟨[field], rest, List.cons_ne_nil _ _, List.forall_mem_singleton.mpr hcut, ?_, h.symm⟩
        rw [joinFields_singleton, List.append_assoc]
        rfl
      | true =>
        have hshort : rest.length < fuel := by
          simp only [List.length_append, List.length_cons] at hfuel
          omega
        rw [if_pos rfl, hcount, ih hshort] at h
        obtain ⟨fields, more, hne, hall, rfl, rfl⟩ := h
        refine ⟨field :: fields, more, List.cons_ne_nil _ _, List.forall_mem_cons.mpr ⟨hcut, hall⟩,
          ?_, (cutAt_cons address pre pairs field hne more).symm⟩
        rw [joinFields_cons _ _ _ hne]
        simp only [List.append_assoc, List.cons_append]
        rfl
    · intro ⟨fields, rest, hne, hall, hsuf, hcut⟩
      subst hcut
      cases fields with
      | nil => exact absurd rfl hne
      | cons field fields =>
        obtain ⟨hfield, hfields⟩ := List.forall_mem_cons.mp hall
        by_cases hnil : fields = []
        · subst hnil
          have hround := cutPairs_field hfield address fuel pre rest (pushed pairs) pairs.length false
          rw [hpush, if_neg Bool.false_ne_true, if_neg Bool.false_ne_true, hlast] at hround
          rw [hsuf, joinFields_singleton, List.append_assoc]
          exact hround
        · have hrow : suf = field.1 ++ EQUALS ::
              (field.2 ++ AMPERSAND :: (joinFields EQUALS AMPERSAND fields ++ 0 :: rest)) := by
            rw [hsuf, joinFields_cons _ _ _ hnil]
            simp only [List.append_assoc, List.cons_append]
          have hround := cutPairs_field hfield address fuel pre
            (joinFields EQUALS AMPERSAND fields ++ 0 :: rest) (pushed pairs) pairs.length true
          rw [if_pos rfl, if_pos rfl, ← hrow, hpush, hcount] at hround
          rw [hround, cutAt_cons _ _ _ _ hnil]
          refine (ih ?_).mpr ⟨fields, rest, hnil, hfields, rfl, rfl⟩
          rw [hrow] at hfuel
          simp only [List.length_append, List.length_cons] at hfuel ⊢
          omega

/-! ## The strings at the pointers -/

/-- The field that a reader sees, whose name may have a `NUL` in it. -/
def visible (field : Field) : Field := (field.1.takeWhile (· ≠ 0), field.2)

theorem takeWhile_nul (run rest : List UInt8) :
    (run ++ 0 :: rest).takeWhile (· ≠ 0) = run.takeWhile (· ≠ 0) := by
  induction run with
  | nil => rfl
  | cons c run ih => rw [List.cons_append, List.takeWhile_cons, List.takeWhile_cons, ih]

theorem takeWhile_of_notMem {run : List UInt8} (h : 0 ∉ run) : run.takeWhile (· ≠ 0) = run := by
  rw [List.takeWhile_eq_self_iff]
  intro c hc
  apply decide_eq_true
  intro hnul
  exact h (hnul ▸ hc)

theorem stringAt_inside (strings : Ptr → List UInt8) (address : Ptr) (pre run rest : List UInt8) :
    stringAt strings address (pre ++ (run ++ 0 :: rest)) (address + pre.length) =
      run.takeWhile (· ≠ 0) := by
  have hlt : pre.length < (pre ++ (run ++ 0 :: rest)).length := by
    simp only [List.length_append, List.length_cons]
    omega
  rw [stringAt, if_pos ⟨Nat.le_add_right .., Nat.add_lt_add_left hlt address⟩,
    Nat.add_sub_cancel_left, List.drop_left, takeWhile_nul]

/-- A reader sees the fields at the pointers to them. -/
theorem map_pointersFrom (strings : Ptr → List UInt8) (address : Ptr) (rest : List UInt8)
    {fields : List Field} :
    ∀ {pre whole : List UInt8}, (∀ field ∈ fields, 0 ∉ field.2) → fields ≠ [] →
      whole = pre ++ (joinFields 0 0 fields ++ 0 :: rest) →
      (pointersFrom (address + pre.length) fields).map
          (Prod.map (stringAt strings address whole) (stringAt strings address whole)) =
        fields.map visible := by
  induction fields with
  | nil => intro _ _ _ hne; exact absurd rfl hne
  | cons field fields ih =>
    intro pre whole hnul _ hwhole
    obtain ⟨hvalue, hvalues⟩ := List.forall_mem_cons.mp hnul
    obtain ⟨more, hsplit⟩ : ∃ more, whole = pre ++ (field.1 ++ 0 :: (field.2 ++ 0 :: more)) := by
      by_cases hnil : fields = []
      · subst hnil
        exact ⟨rest, by rw [hwhole, joinFields_singleton]; simp⟩
      · exact ⟨joinFields 0 0 fields ++ 0 :: rest, by rw [hwhole, joinFields_cons _ _ _ hnil]; simp⟩
    have hname : stringAt strings address whole (address + pre.length) =
        field.1.takeWhile (· ≠ 0) := by
      rw [hsplit]
      exact stringAt_inside ..
    have hbehind : stringAt strings address whole (address + pre.length + (field.1.length + 1)) =
        field.2 := by
      have hpre : whole = (pre ++ (field.1 ++ [0])) ++ (field.2 ++ 0 :: more) := by
        rw [hsplit]
        simp
      have hat := stringAt_inside strings address (pre ++ (field.1 ++ [0])) field.2 more
      rw [← hpre, takeWhile_of_notMem hvalue, List.length_append, List.length_append,
        List.length_singleton, ← Nat.add_assoc address] at hat
      exact hat
    rw [pointersFrom, List.map_cons, List.map_cons, Prod.map_apply, hname, hbehind]
    congr 1
    by_cases hnil : fields = []
    · subst hnil
      rfl
    · have hnext := @ih (behind pre field) whole hvalues hnil (by
        rw [hwhole, joinFields_cons _ _ _ hnil, behind_append]
        simp)
      rwa [length_behind, ← Nat.add_assoc address] at hnext

/-- Pointers into a row are not in front of it. -/
theorem le_pointersFrom {fields : List Field} :
    ∀ {p : Ptr}, ∀ pair ∈ pointersFrom p fields, p ≤ pair.1 ∧ p ≤ pair.2 := by
  induction fields with
  | nil => intro p pair h; exact absurd h List.not_mem_nil
  | cons field fields ih =>
    intro p pair h
    rcases List.mem_cons.mp h with rfl | h
    · exact ⟨Nat.le_refl _, Nat.le_add_right ..⟩
    · obtain ⟨hname, hvalue⟩ := ih pair h
      exact ⟨Nat.le_trans (Nat.le_add_right ..) hname, Nat.le_trans (Nat.le_add_right ..) hvalue⟩

theorem length_pointersFrom (fields : List Field) :
    ∀ p, (pointersFrom p fields).length = fields.length := by
  induction fields with
  | nil => intro p; rfl
  | cons field fields ih => intro p; exact congrArg (· + 1) (ih _)

/-! ## The map -/

section Text

variable {text : Ptr → List UInt8}

theorem isEqualAt_iff {p q : Ptr} (hp : p ≠ NULL) (hq : q ≠ NULL) :
    isEqualAt text p q = true ↔ text p = text q := by
  unfold isEqualAt
  by_cases h : p = q
  · rw [if_pos h, h]
    exact iff_of_true rfl rfl
  · rw [if_neg h, if_neg hp, if_neg hq, isEqual_iff]

/-- Pointers are equal when they are the same, or both point to the same string. -/
theorem isEqualAt_cases {p q : Ptr} :
    isEqualAt text p q = true ↔ p = q ∨ (p ≠ NULL ∧ q ≠ NULL ∧ text p = text q) := by
  by_cases hp : p = NULL
  · subst hp
    unfold isEqualAt
    split <;> simp_all
  · by_cases hq : q = NULL
    · subst hq
      unfold isEqualAt
      split <;> simp_all
    · rw [isEqualAt_iff hp hq]
      constructor
      · intro h
        exact Or.inr ⟨hp, hq, h⟩
      · intro h
        rcases h with rfl | ⟨_, _, h⟩
        · rfl
        · exact h

/-- `f6215943_hashCode` and `f6215943_isEqual` fit together, whatever the strings are. -/
theorem keyLaws (text : Ptr → List UInt8) : KeyLaws (hashCodeAt text) (isEqualAt text) where
  equiv := by
    refine ⟨fun p => isEqualAt_cases.mpr (Or.inl rfl), ?_, ?_⟩
    · intro p q h
      rw [isEqualAt_cases] at h ⊢
      rcases h with rfl | ⟨hp, hq, h⟩
      · exact Or.inl rfl
      · exact Or.inr ⟨hq, hp, h.symm⟩
    · intro p q r h h'
      rw [isEqualAt_cases] at h h' ⊢
      rcases h with rfl | ⟨hp, hq, h⟩
      · exact h'
      · rcases h' with rfl | ⟨_, hr, h'⟩
        · exact Or.inr ⟨hp, hq, h⟩
        · exact Or.inr ⟨hp, hr, h.trans h'⟩
  hash_eq := by
    intro p q h
    rcases isEqualAt_cases.mp h with rfl | ⟨hp, hq, h⟩
    · rfl
    · rw [hashCodeAt, hashCodeAt, if_neg hp, if_neg hq, h]

/-- A lookup by name: the value of the first such field, if there is one. -/
def Yields (text : Ptr → List UInt8) (s : MapState) (fields : List Field) : Prop :=
  ∀ name ≠ NULL, ∃ found : Option Ptr, get s name = some (found.getD NULL) ∧
    containsKey s name = some found.isSome ∧ found ≠ some NULL ∧
    found.map text = fields.lookup (text name)

/-- The pair whose name is equal is the field with that name. -/
theorem find_eq_lookup {pairs : List (Ptr × Ptr)} (h : ∀ pair ∈ pairs, pair.1 ≠ NULL) {name : Ptr}
    (hname : name ≠ NULL) :
    ((pairs.find? fun pair => isEqualAt text name pair.1).map (·.2)).map text =
      (pairs.map (Prod.map text text)).lookup (text name) := by
  induction pairs with
  | nil => rfl
  | cons pair pairs ih =>
    obtain ⟨hpair, hpairs⟩ := List.forall_mem_cons.mp h
    rw [List.find?_cons, List.map_cons, Prod.map_apply', List.lookup_cons]
    cases heq : isEqualAt text name pair.1 with
    | true =>
      rw [beq_iff_eq.mpr ((isEqualAt_iff hname hpair).mp heq)]
      rfl
    | false =>
      have hne : (text name == text pair.1) = false := by
        apply beq_eq_false_iff_ne.mpr
        intro h
        rw [(isEqualAt_iff hname hpair).mpr h] at heq
        exact absurd heq (by simp)
      rw [hne]
      exact ih hpairs

theorem getD_pushed {pairs : List (Ptr × Ptr)} :
    ∀ j pair, pairs.reverse[j]? = some pair →
      (pushed pairs).getD (0 + 2 * j + 1) NULL = pair.1 ∧
        (pushed pairs).getD (0 + 2 * j) NULL = pair.2 := by
  unfold pushed
  generalize pairs.reverse = stacked
  induction stacked with
  | nil => intro j pair h; exact absurd h (by simp)
  | cons first stacked ih =>
    intro j pair h
    cases j with
    | zero =>
      obtain rfl := Option.some.inj h
      exact ⟨rfl, rfl⟩
    | succ j =>
      obtain ⟨hname, hvalue⟩ := ih j pair h
      exact ⟨hname, hvalue⟩

/-- What the map holds after `putFromStack`. -/
theorem putFromStack_yields (A : Malloc) {pairs : List (Ptr × Ptr)} (hnum : pairs.length < 2 ^ 30)
    (hnull : ∀ pair ∈ pairs, pair.1 ≠ NULL ∧ pair.2 ≠ NULL) (capacity : Nat) (entry : Ptr → MapEntry) :
    ∃ s, putFromStack A (initState (hashCodeAt text) (isEqualAt text) capacity entry)
        (fun i => (pushed pairs).getD i NULL) (2 * pairs.length) = some s ∧
      Yields text s (pairs.map (Prod.map text text)) := by
  have hinit := initState_represents (keyLaws text) capacity entry
  obtain ⟨s, hrun, hrep⟩ := putFromStackFrom_spec A (fun i => (pushed pairs).getD i NULL)
    (by omega : 2 * pairs.length < 2 ^ 31) pairs.reverse hinit (by rw [List.length_reverse]; omega)
    (by rw [List.length_reverse]; omega : _ < 2 * pairs.length + 1) getD_pushed
  refine ⟨s, hrun, ?_⟩
  intro name hname
  have hmap := KeyMap.setPairs_reverse (KeyMap.empty (keyLaws text)) pairs name
  rw [show KeyMap.empty (keyLaws text) ((keyLaws text).cls name) = none from rfl, Option.or_none]
    at hmap
  refine ⟨_, get_spec hrep name, containsKey_spec hrep name, ?_, ?_⟩
  · rw [hmap]
    intro h
    obtain ⟨pair, hfind, hvalue⟩ := Option.map_eq_some_iff.mp h
    exact (hnull pair (List.mem_of_find?_eq_some hfind)).2 hvalue
  · rw [hmap]
    exact find_eq_lookup (fun pair hpair => (hnull pair hpair).1) hname

end Text

/-! ## The request -/

/-- A decoded row of fields is mapped: each by the name that a reader sees. -/
theorem mapQueryString_spec (A : Malloc) (strings : Ptr → List UInt8) {request : HttpRequest}
    {hashCode : Ptr → UInt32} {equals : Ptr → Ptr → Bool} {capacity : Nat} {entry : Ptr → MapEntry}
    {fields : List Field} {rest : List UInt8} (haddress : request.address ≠ NULL)
    (hparameters : request.parameters = initState hashCode equals capacity entry)
    (hne : fields ≠ []) (hcut : ∀ field ∈ fields, Cuttable field)
    (hrow : request.paramStr = joinFields EQUALS AMPERSAND fields ++ 0 :: rest)
    (hsize : request.paramStr.length < 2 ^ 30) :
    ∃ request', mapQueryString A strings request = some request' ∧
      Yields (stringAt strings request'.address request'.paramStr) request'.parameters
        (fields.map visible) := by
  have hrun : cutPairs request.address (request.paramStr.length + 1) 0 ⟨request.paramStr, [], 0⟩ =
      some (cutAt request.address [] [] fields rest) :=
    (@cutPairs_iff request.address _ [] request.paramStr [] _ (Nat.lt_succ_self _)).mpr
      ⟨fields, rest, hne, hcut, hrow, rfl⟩
  have hlen : fields.length < 2 ^ 30 := by
    have hle := @length_le_joinFields EQUALS AMPERSAND fields
    rw [hrow, List.length_append] at hsize
    omega
  let cut := cutAt request.address [] [] fields rest
  let pairs := pointersFrom (request.address + ([] : List UInt8).length) fields
  have hnum : pairs.length = fields.length := length_pointersFrom fields _
  have hnull : ∀ pair ∈ pairs, pair.1 ≠ NULL ∧ pair.2 ≠ NULL := by
    intro pair hpair
    obtain ⟨hname, hvalue⟩ := le_pointersFrom pair hpair
    have hpos : 0 < request.address := Nat.pos_of_ne_zero haddress
    exact ⟨Nat.ne_of_gt (Nat.lt_of_lt_of_le hpos hname), Nat.ne_of_gt (Nat.lt_of_lt_of_le hpos hvalue)⟩
  obtain ⟨s, hput, hyields⟩ := @putFromStack_yields
    (stringAt strings request.address cut.paramStr) A pairs (by rw [hnum]; exact hlen) hnull capacity entry
  have hvisible : pairs.map (Prod.map (stringAt strings request.address cut.paramStr)
      (stringAt strings request.address cut.paramStr)) = fields.map visible :=
    map_pointersFrom strings request.address rest (fun field h => (hcut field h).2.2) hne rfl
  rw [hvisible] at hyields
  refine ⟨{ request with parameters := s, paramStr := cut.paramStr }, ?_, hyields⟩
  have hcount : cut.numElements = pairs.length := by
    rw [hnum]
    exact Nat.zero_add _
  have hmap : putFromStack A
      (withStrings request.parameters (stringAt strings request.address cut.paramStr))
      (fun i => cut.stack.getD i NULL) (2 * cut.numElements) = some s := by
    rw [hparameters, hcount]
    exact hput
  rw [mapQueryString, hrun]
  dsimp only [Option.bind_eq_bind, Option.bind_some]
  rw [hmap]
  rfl

/-- Where a request gets through, its query has been a row of fields. -/
theorem exists_fields {A : Malloc} {strings : Ptr → List UInt8} {request request' : HttpRequest}
    (h : mapQueryString A strings request = some request') :
    ∃ fields rest, fields ≠ [] ∧ (∀ field ∈ fields, Cuttable field) ∧
      request.paramStr = joinFields EQUALS AMPERSAND fields ++ 0 :: rest := by
  rw [mapQueryString, Option.bind_eq_bind, Option.bind_eq_some_iff] at h
  obtain ⟨cut, hrun, _⟩ := h
  obtain ⟨fields, rest, hne, hcut, hrow, _⟩ :=
    (@cutPairs_iff request.address _ [] request.paramStr [] cut (Nat.lt_succ_self _)).mp hrun
  exact ⟨fields, rest, hne, hcut, hrow⟩

/-- The parameters are these fields: a name is looked up by any pointer to it. -/
structure Maps (strings : Ptr → List UInt8) (request : HttpRequest) (fields : List Field) : Prop where
  value : ∀ field ∈ fields, ∀ name ≠ NULL,
    stringAt strings request.address request.paramStr name = field.1 →
      ∃ v, get request.parameters name = some v ∧ v ≠ NULL ∧
        stringAt strings request.address request.paramStr v = field.2
  other : ∀ name ≠ NULL,
    (∀ field ∈ fields, stringAt strings request.address request.paramStr name ≠ field.1) →
      containsKey request.parameters name = some false

theorem lookup_of_mem {fields : List Field} (hdistinct : (fields.map Prod.fst).Nodup) {field : Field}
    (h : field ∈ fields) : fields.lookup field.1 = some field.2 := by
  induction fields with
  | nil => exact absurd h List.not_mem_nil
  | cons first fields ih =>
    obtain ⟨hnotin, hnodup⟩ := List.nodup_cons.mp hdistinct
    rw [List.lookup_cons]
    rcases List.mem_cons.mp h with heq | hmem
    · rw [heq, beq_self_eq_true]
    · have hne : field.1 ≠ first.1 := by
        intro heq
        exact hnotin (heq ▸ List.mem_map_of_mem hmem)
      rw [beq_eq_false_iff_ne.mpr hne]
      exact ih hnodup hmem

theorem maps_of_yields {strings : Ptr → List UInt8} {request : HttpRequest} {fields : List Field}
    (hdistinct : (fields.map Prod.fst).Nodup)
    (h : Yields (stringAt strings request.address request.paramStr) request.parameters fields) :
    Maps strings request fields where
  value := by
    intro field hfield name hname htext
    obtain ⟨found, hget, _, hne, hlookup⟩ := h name hname
    rw [htext, lookup_of_mem hdistinct hfield] at hlookup
    obtain ⟨v, rfl, hvalue⟩ := Option.map_eq_some_iff.mp hlookup
    exact ⟨v, hget, fun hv => hne (congrArg some hv), hvalue⟩
  other := by
    intro name hname hall
    obtain ⟨found, _, hcontains, _, hlookup⟩ := h name hname
    have hnone : fields.lookup (stringAt strings request.address request.paramStr name) = none := by
      rw [List.lookup_eq_none_iff]
      intro field hfield
      exact bne_iff_ne.mpr (hall field hfield)
    rw [hnone, Option.map_eq_none_iff] at hlookup
    rw [hcontains, hlookup]
    rfl

/-- A field that is found has been there. -/
theorem mem_of_maps {strings : Ptr → List UInt8} {request : HttpRequest} {fields fields' : List Field}
    (h : Maps strings request fields)
    (hyields : Yields (stringAt strings request.address request.paramStr) request.parameters fields')
    {field : Field} (hfield : field ∈ fields) {name : Ptr} (hname : name ≠ NULL)
    (htext : stringAt strings request.address request.paramStr name = field.1) : field ∈ fields' := by
  obtain ⟨v, hget, hv, hvalue⟩ := h.value field hfield name hname htext
  obtain ⟨found, hget', _, _, hlookup⟩ := hyields name hname
  rw [hget', Option.some.injEq] at hget
  cases found with
  | none => exact absurd hget.symm hv
  | some p =>
    obtain rfl : p = v := hget
    rw [htext, Option.map_some, hvalue, eq_comm, List.lookup_eq_some_iff] at hlookup
    obtain ⟨before, behind, hsplit, _⟩ := hlookup
    rw [hsplit]
    exact List.mem_append_right _ List.mem_cons_self

/-- A `GET` request for a query. -/
theorem initHttpRequest_get (w : Surroundings) (request : HttpRequest) (numParams : UInt32)
    {queryString decoded : List UInt8}
    (hmethod : w.getenv HTTP_REQUEST_METHOD = some HTTP_REQUEST_METHOD_GET)
    (hquery : w.getenv HTTP_QUERY_STRING = some queryString) (hlen : queryString.length ≤ MAX_URL_SIZE)
    (hdecode : urldecode (queryString ++ [0]) = some decoded) :
    ∃ request₁, request₁.address = w.address ∧
      request₁.parameters =
        initState (hashCodeAt w.strings) (isEqualAt w.strings) numParams.toNat w.entry ∧
      request₁.paramStr = decoded ++
        bytesAt w.fresh decoded.length ((queryString.length / 16 + 1) * 16 - decoded.length) ∧
      initHttpRequest w request numParams =
        (mapQueryString w.malloc w.strings request₁).map fun request => (w.eax, request) := by
  let block : Block := ⟨(queryString.length / 16 + 1) * 16, w.fresh⟩
  have hstralloc : stralloc w.fresh queryString.length = some block := by
    unfold stralloc
    have hmod : (queryString.length / 16 + 1) * 16 % 2 ^ 64 = (queryString.length / 16 + 1) * 16 := by
      unfold MAX_URL_SIZE at hlen
      exact Nat.mod_eq_of_lt (by omega)
    rw [hmod]
    exact if_neg (by omega)
  have hroom : decoded.length ≤ block.size := by
    have hle := length_urldecode _ _ hdecode
    rw [List.length_append, List.length_singleton] at hle
    exact Nat.le_trans hle (by dsimp only [block]; omega)
  obtain ⟨block', hstore, hbytes⟩ := Block.storeBytes_front hroom
  let request₁ : HttpRequest :=
    { parameters := initState (hashCodeAt w.strings) (isEqualAt w.strings) numParams.toNat w.entry
      method := w.getenv HTTP_REQUEST_METHOD
      queryString := some queryString
      address := w.address
      paramStr := bytesAt block'.byte 0 block'.size
      length := UInt32.ofNat queryString.length }
  refine ⟨request₁, rfl, rfl, hbytes, ?_⟩
  unfold initHttpRequest
  rw [if_pos hmethod, hquery]
  dsimp only
  rw [if_neg (Nat.not_lt.mpr hlen), hstralloc, hdecode]
  dsimp only [Option.bind_eq_bind, Option.bind_some]
  rw [hstore, Option.bind_some, Option.map_eq_bind]
  rfl

/-- A request for the encoded fields has them as its parameters, whatever else it finds. -/
def MapsQuery (fields : List Field) : Prop :=
  ∀ (w : Surroundings) (request : HttpRequest) (numParams : UInt32),
    w.getenv HTTP_REQUEST_METHOD = some HTTP_REQUEST_METHOD_GET →
    w.getenv HTTP_QUERY_STRING = some (encodeFields fields) →
      ∃ retValue request', initHttpRequest w request numParams = some (retValue, request') ∧
        Maps w.strings request' fields

/-- Fields that are decoded and cut as they were meant. -/
def Plain (field : Field) : Prop :=
  EQUALS ∉ field.1 ∧ AMPERSAND ∉ field.2 ∧ ∀ c, c ∈ field.1 ∨ c ∈ field.2 → c < 0xA0

theorem urldecode_encodeFields (fields : List Field) :
    urldecode (encodeFields fields ++ [0]) =
      some (joinFields EQUALS AMPERSAND (fields.map misreadField) ++ [0]) :=
  readsAs_encodeFields fields [0]

theorem Plain.misreadField_eq {field : Field} (h : Plain field) : misreadField field = field := by
  have hmap : ∀ text : List UInt8, (∀ c ∈ text, c < 0xA0) → text.map misread = text := by
    intro text htext
    conv_rhs => rw [← List.map_id text]
    exact List.map_congr_left fun c hc => misread_of_lt (htext c hc)
  exact Prod.ext (hmap _ fun c hc => h.2.2 c (Or.inl hc)) (hmap _ fun c hc => h.2.2 c (Or.inr hc))

theorem paramStr_lt {queryString decoded paramStr : List UInt8} {fresh : Mem}
    (hlen : queryString.length ≤ MAX_URL_SIZE) (hdecode : urldecode (queryString ++ [0]) = some decoded)
    (hbytes : paramStr = decoded ++
      bytesAt fresh decoded.length ((queryString.length / 16 + 1) * 16 - decoded.length)) :
    paramStr.length < 2 ^ 30 := by
  have hle := length_urldecode _ _ hdecode
  rw [List.length_append, List.length_singleton] at hle
  rw [hbytes, List.length_append, bytesAt_length]
  unfold MAX_URL_SIZE at hlen
  omega

/-- Bytes that have been read, and zeros. -/
theorem decoded_lt {fields : List Field} {n : Nat} {c : UInt8}
    (h : c ∈ joinFields EQUALS AMPERSAND (fields.map misreadField) ++ [0] ++
      bytesAt (fun _ => 0) (joinFields EQUALS AMPERSAND (fields.map misreadField) ++ [0]).length n) :
    c < 0xA0 := by
  rcases List.mem_append.mp h with h | h
  · rcases List.mem_append.mp h with h | h
    · rcases of_mem_joinFields h with rfl | rfl | ⟨field, hfield, hc⟩
      · decide
      · decide
      · obtain ⟨original, _, rfl⟩ := List.mem_map.mp hfield
        rcases hc with hc | hc
        · obtain ⟨d, _, rfl⟩ := List.mem_map.mp hc
          exact misread_lt d
        · obtain ⟨d, _, rfl⟩ := List.mem_map.mp hc
          exact misread_lt d
    · obtain rfl := List.mem_singleton.mp h
      decide
  · obtain ⟨i, _, rfl⟩ := List.mem_map.mp h
    exact (by decide : (0 : UInt8) < 0xA0)

/-- Plain fields are mapped. -/
theorem mapsQuery_of_plain {fields : List Field} (hne : fields ≠ [])
    (hnul : ∀ field ∈ fields, 0 ∉ field.1 ∧ 0 ∉ field.2) (hdistinct : (fields.map Prod.fst).Nodup)
    (hlen : (encodeFields fields).length ≤ MAX_URL_SIZE) (hplain : ∀ field ∈ fields, Plain field) :
    MapsQuery fields := by
  intro w request numParams hmethod hquery
  obtain ⟨request₁, haddress, hparameters, hbytes, hinit⟩ :=
    initHttpRequest_get w request numParams hmethod hquery hlen (urldecode_encodeFields fields)
  have haddress' := w.address_ne
  have hsame : fields.map misreadField = fields := by
    conv_rhs => rw [← List.map_id fields]
    exact List.map_congr_left fun field hfield => (hplain field hfield).misreadField_eq
  have hvisible : fields.map visible = fields := by
    conv_rhs => rw [← List.map_id fields]
    exact List.map_congr_left fun field hfield =>
      Prod.ext (takeWhile_of_notMem (hnul field hfield).1) rfl
  have hcut : ∀ field ∈ fields, Cuttable field := fun field hfield =>
    ⟨(hplain field hfield).1, (hplain field hfield).2.1, (hnul field hfield).2⟩
  have hrow := hbytes
  rw [hsame, List.append_assoc, List.singleton_append] at hrow
  have hsize := paramStr_lt hlen (urldecode_encodeFields fields) hbytes
  rw [← haddress] at haddress'
  obtain ⟨request', hmap, hyields⟩ := mapQueryString_spec w.malloc w.strings haddress' hparameters
    hne hcut hrow hsize
  rw [hvisible] at hyields
  refine ⟨w.eax, request', ?_, maps_of_yields hdistinct hyields⟩
  rw [hinit, hmap]
  rfl

/-- A request before it is initialised. -/
def newRequest : HttpRequest where
  parameters := initState (fun _ => 0) (fun _ _ => false) 0 fun _ => ⟨NULL, NULL, NULL, 0⟩
  method := none
  queryString := none
  address := NULL
  paramStr := []
  length := 0

/-- A `GET` request, with a query and a string of the caller, on a heap of zeros. -/
def surroundingsOf (queryString string : List UInt8) : Surroundings where
  getenv name :=
    if name = HTTP_REQUEST_METHOD then some HTTP_REQUEST_METHOD_GET else some queryString
  strings _ := string
  malloc := bumpMalloc
  entry _ := ⟨NULL, NULL, NULL, 0⟩
  fresh _ := 0
  address := 1
  address_ne := Nat.one_ne_zero
  eax := 0

/-- A field that is mapped is plain: its name is looked up by a string outside of `paramStr`. -/
theorem plain_of_mapsQuery {fields : List Field} (hlen : (encodeFields fields).length ≤ MAX_URL_SIZE)
    (h : MapsQuery fields) {field : Field} (hfield : field ∈ fields) : Plain field := by
  let w := surroundingsOf (encodeFields fields) field.1
  have hmethod : w.getenv HTTP_REQUEST_METHOD = some HTTP_REQUEST_METHOD_GET := rfl
  have hquery : w.getenv HTTP_QUERY_STRING = some (encodeFields fields) := rfl
  obtain ⟨retValue, request', hrun, hmaps⟩ := h w newRequest 0 hmethod hquery
  obtain ⟨request₁, haddress, hparameters, hbytes, hinit⟩ :=
    initHttpRequest_get w newRequest 0 hmethod hquery hlen (urldecode_encodeFields fields)
  rw [hinit, Option.map_eq_some_iff] at hrun
  obtain ⟨request₂, hmap, hpair⟩ := hrun
  obtain ⟨_, rfl⟩ := Prod.mk.inj hpair
  obtain ⟨read, rest, hne, hcut, hrow⟩ := exists_fields hmap
  have haddress' : request₁.address ≠ NULL := by
    rw [haddress]
    exact w.address_ne
  obtain ⟨request₃, hmap', hyields⟩ := mapQueryString_spec w.malloc w.strings haddress' hparameters
    hne hcut hrow (paramStr_lt hlen (urldecode_encodeFields fields) hbytes)
  rw [hmap, Option.some.injEq] at hmap'
  subst hmap'
  have hname : request₂.address + request₂.paramStr.length + 1 ≠ NULL := Nat.succ_ne_zero _
  have htext : stringAt w.strings request₂.address request₂.paramStr
      (request₂.address + request₂.paramStr.length + 1) = field.1 := by
    apply if_neg
    intro hin
    exact absurd hin.2 (Nat.not_lt.mpr (Nat.le_succ _))
  obtain ⟨original, horiginal, rfl⟩ :=
    List.mem_map.mp (mem_of_maps hmaps hyields hfield hname htext)
  obtain ⟨heq, hamp, _⟩ := hcut original horiginal
  refine ⟨fun h => heq (List.takeWhile_subset _ h), hamp, ?_⟩
  intro c hc
  have hin : c ∈ request₁.paramStr := by
    rw [hrow]
    apply List.mem_append_left
    apply mem_joinFields horiginal
    exact hc.imp_left fun hname => List.takeWhile_subset _ hname
  rw [hbytes] at hin
  exact decoded_lt hin

/-- **The parameters of a query are the pairs that it encodes** if and only if no name has a `=`, no
value has a `&`, and every byte is below `0xA0`. -/
theorem initHttpRequest_iff {fields : List Field} (hne : fields ≠ [])
    (hnul : ∀ field ∈ fields, 0 ∉ field.1 ∧ 0 ∉ field.2) (hdistinct : (fields.map Prod.fst).Nodup)
    (hlen : (encodeFields fields).length ≤ MAX_URL_SIZE) :
    MapsQuery fields ↔ ∀ field ∈ fields, EQUALS ∉ field.1 ∧ AMPERSAND ∉ field.2 ∧
      ∀ c, c ∈ field.1 ∨ c ∈ field.2 → c < 0xA0 :=
  ⟨fun h _ hfield => plain_of_mapsQuery hlen h hfield,
    fun h => mapsQuery_of_plain hne hnul hdistinct hlen h⟩

/-- `a=1&b%26=+`. -/
theorem initHttpRequest_iff_twoFields :
    MapsQuery [([0x61], [0x31]), ([0x62, 0x26], [0x20])] ↔
      ∀ field ∈ ([([0x61], [0x31]), ([0x62, 0x26], [0x20])] : List Field),
        EQUALS ∉ field.1 ∧ AMPERSAND ∉ field.2 ∧ ∀ c, c ∈ field.1 ∨ c ∈ field.2 → c < 0xA0 := by
  refine initHttpRequest_iff (by simp) ?_ (by decide) (by decide)
  intro field hfield
  simp only [List.mem_cons, List.not_mem_nil, or_false] at hfield
  rcases hfield with rfl | rfl
  · decide
  · decide

/-- `q=%C3%A9` is not mapped: the `C` is read as `0x13`. -/
theorem not_mapsQuery_accent :
    (([([0x71], [0xC3, 0xA9])] : List Field).map Prod.fst).Nodup ∧
      (encodeFields [([0x71], [0xC3, 0xA9])]).length ≤ MAX_URL_SIZE ∧
      ¬ MapsQuery [([0x71], [0xC3, 0xA9])] := by
  have hlen : (encodeFields [([0x71], [0xC3, 0xA9])]).length ≤ MAX_URL_SIZE := by decide
  refine ⟨by decide, hlen, ?_⟩
  intro h
  have hplain := plain_of_mapsQuery hlen h List.mem_cons_self
  exact absurd (hplain.2.2 0xC3 (Or.inr List.mem_cons_self)) (by decide)

end DevopsBroker.Cgi
