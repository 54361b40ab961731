import DevopsBroker.Lib.Characters

/-!
# Texts in memory

A text ends with a `NUL`. A register that is loaded from it holds its next characters,
then the `NUL` and whatever is behind it: `Loaded` keeps apart what is left of the text and
how many characters are still in the register. A text is put together by stores that start
where the text ends so far, and that may reach further.
-/

namespace DevopsBroker.Lib

/-- The memory at an address holds a text. -/
structure TextAt (mem : Mem) (p : Nat) (text : List UInt8) : Prop where
  noNul : 0 ∉ text
  bytes : bytesAt mem p (text.length + 1) = text ++ [0]

/-- A memory with a text at its start. -/
def textMem (text : List UInt8) : Mem := fun a => text.getD a 0

theorem textAt_textMem {text : List UInt8} (h : 0 ∉ text) : TextAt (textMem text) 0 text where
  noNul := h
  bytes := by
    have hlength : text.length + 1 = (text ++ [0]).length := by
      rw [List.length_append, List.length_singleton]
    rw [hlength]
    refine bytesAt_eq_iff.mpr fun i hi => ?_
    rw [Nat.zero_add, textMem]
    rcases Nat.lt_or_ge i text.length with hlt | hge
    · rw [List.getD_eq_getElem _ _ hlt, List.getElem_append_left hlt]
    · rw [List.getD_eq_default _ _ hge, List.getElem_append_right hge, List.getElem_singleton]

/-- A character in front of a text. -/
theorem TextAt.cons {mem : Mem} {p : Nat} {c : UInt8} {text : List UInt8} (hne : c ≠ 0)
    (hchar : mem p = c) (h : TextAt mem (p + 1) text) : TextAt mem p (c :: text) where
  noNul := List.not_mem_cons_of_ne_of_not_mem hne.symm h.noNul
  bytes := by rw [List.length_cons, bytesAt_succ, hchar, h.bytes, List.cons_append]

/-- **Bytes are a text up to the first `NUL`** among them or behind them. -/
theorem textAt_takeWhile {mem : Mem} (bytes : List UInt8) :
    ∀ {p : Nat}, (∀ i, mem (p + i) = bytes.getD i 0) →
      TextAt mem p (bytes.takeWhile fun c => c ≠ 0) := by
  induction bytes with
  | nil =>
    intro p hmem
    exact ⟨List.not_mem_nil, by rw [List.takeWhile_nil, bytesAt_succ]; exact congrArg (· :: _) (hmem 0)⟩
  | cons c bytes ih =>
    intro p hmem
    by_cases hc : c = 0
    · rw [List.takeWhile_cons_of_neg (by simp [hc])]
      exact ⟨List.not_mem_nil, by rw [bytesAt_succ]; exact congrArg (· :: _) ((hmem 0).trans hc)⟩
    · rw [List.takeWhile_cons_of_pos (by simp [hc])]
      refine TextAt.cons hc (hmem 0) (ih fun i => ?_)
      rw [Nat.add_assoc, Nat.add_comm 1 i, hmem]
      rfl

/-- A memory that is the same where the text is has it, too. -/
theorem TextAt.congr {mem mem' : Mem} {p : Nat} {text : List UInt8} (h : TextAt mem p text)
    (hsame : ∀ a, p ≤ a → a ≤ p + text.length → mem' a = mem a) : TextAt mem' p text where
  noNul := h.noNul
  bytes := by
    rw [← h.bytes]
    exact bytesAt_inj.mpr fun k hk => hsame _ (by omega) (by omega)

/-- A text without its first characters. -/
theorem TextAt.drop {mem : Mem} {p : Nat} {xs text : List UInt8} (h : TextAt mem p (xs ++ text)) :
    TextAt mem (p + xs.length) text where
  noNul := fun hmem => h.noNul (List.mem_append_right xs hmem)
  bytes := by
    have hbytes := h.bytes
    rw [List.length_append, Nat.add_assoc, bytesAt_add, List.append_assoc] at hbytes
    exact (List.append_inj hbytes (bytesAt_length ..)).2

theorem TextAt.tail {mem : Mem} {p : Nat} {c : UInt8} {text : List UInt8}
    (h : TextAt mem p (c :: text)) : TextAt mem (p + 1) text := by
  have hdrop : TextAt mem p ([c] ++ text) := h
  exact hdrop.drop

/-- The first character, or the `NUL`. -/
theorem TextAt.char {mem : Mem} {p : Nat} {text : List UInt8} (h : TextAt mem p text) :
    mem p = text.headD 0 := by
  have hbytes := h.bytes
  rw [bytesAt_succ] at hbytes
  cases text with
  | nil => exact (List.cons.inj hbytes).1
  | cons c text => exact (List.cons.inj hbytes).1

/-- The `NUL`. -/
theorem TextAt.nul {mem : Mem} {p : Nat} {text : List UInt8} (h : TextAt mem p text) :
    mem (p + text.length) = 0 := by
  have hdrop : TextAt mem p (text ++ []) := by rwa [List.append_nil]
  exact hdrop.drop.char

/-- A character of a text. -/
theorem TextAt.get_ne_zero {mem : Mem} {p : Nat} {text : List UInt8} (h : TextAt mem p text)
    {i : Nat} (hi : i < text.length) : mem (p + i) ≠ 0 := by
  have hsplit : TextAt mem p (text.take i ++ text.drop i) := by rwa [List.take_append_drop]
  have hlength : (text.take i).length = i := List.length_take_of_le (Nat.le_of_lt hi)
  have hchar := hsplit.drop.char
  rw [hlength, List.drop_eq_getElem_cons hi, List.headD_cons] at hchar
  rw [hchar]
  intro hzero
  exact h.noNul (hzero ▸ List.getElem_mem hi)

/-- A text has no `NUL`. -/
theorem TextAt.ne_zero {mem : Mem} {p : Nat} {c : UInt8} {text : List UInt8}
    (h : TextAt mem p (c :: text)) : c ≠ 0 := by
  rintro rfl
  exact h.noNul List.mem_cons_self

/-- Bytes up to a `NUL` are a text. -/
theorem textAt_of_bytesAt {mem : Mem} {p : Nat} {text behind : List UInt8} (hnul : 0 ∉ text)
    (h : bytesAt mem p (text ++ 0 :: behind).length = text ++ 0 :: behind) : TextAt mem p text where
  noNul := hnul
  bytes := by
    have hle : text.length + 1 ≤ (text ++ 0 :: behind).length := by
      rw [List.length_append, List.length_cons]
      omega
    rw [← bytesAt_take mem p hle, h, List.append_cons, List.take_left']
    rw [List.length_append, List.length_singleton]

/-- What is in memory from a text on. -/
theorem TextAt.bytesAt_take {mem : Mem} {p : Nat} {text : List UInt8} (h : TextAt mem p text)
    (k : Nat) : bytesAt mem p k = (text ++ 0 :: bytesAt mem (p + (text.length + 1)) k).take k := by
  rw [← Lib.bytesAt_take mem p (Nat.le_add_left k (text.length + 1)), bytesAt_add, h.bytes,
    List.append_assoc]
  rfl

/-! ## Registers with the next characters -/

/-- A register with the next `m` characters of a text, and what is behind it. -/
def Loaded (register : Nat) (text : List UInt8) (m : Nat) : Prop :=
  ∃ behind, register = littleEndian ((text ++ 0 :: behind).take m)

theorem TextAt.loaded {mem : Mem} {p : Nat} {text : List UInt8} (h : TextAt mem p text) (m : Nat) :
    Loaded (orBytes mem m p 0 0) text m :=
  ⟨_, by rw [orBytes_eq_littleEndian, h.bytesAt_take]⟩

/-- A register that is used up has zeros. -/
theorem Loaded.used {register : Nat} {text : List UInt8} (h : Loaded register text 0) :
    register = 0 := by
  obtain ⟨behind, rfl⟩ := h
  rfl

theorem Loaded.lowByte_used {register : Nat} {text : List UInt8} (h : Loaded register text 0) :
    lowByte register = 0 := by
  rw [h.used]
  rfl

theorem Loaded.lowByte_eq {register : Nat} {text : List UInt8} {m : Nat}
    (h : Loaded register text (m + 1)) : lowByte register = text.headD 0 := by
  obtain ⟨behind, rfl⟩ := h
  rw [lowByte_littleEndian]
  cases text <;> rfl

/-- Behind the text there is the `NUL`. -/
theorem Loaded.lowByte_nil {register m : Nat} (h : Loaded register [] m) : lowByte register = 0 := by
  cases m with
  | zero => exact h.lowByte_used
  | succ m => exact h.lowByte_eq

/-- A character that is no `NUL` is the next one of the text. -/
theorem Loaded.cons {register : Nat} {text : List UInt8} {m : Nat} (h : Loaded register text m)
    {c : UInt8} (hne : c ≠ 0) (hc : lowByte register = c) :
    ∃ k rest, m = k + 1 ∧ text = c :: rest := by
  cases m with
  | zero => exact absurd (hc.symm.trans h.lowByte_used) hne
  | succ k =>
    rw [h.lowByte_eq] at hc
    cases text with
    | nil => exact absurd hc.symm hne
    | cons c' rest => exact ⟨k, rest, rfl, by rw [← hc, List.headD_cons]⟩

/-- The next character is shifted out. -/
theorem Loaded.shift {register : Nat} {c : UInt8} {text : List UInt8} {m : Nat}
    (h : Loaded register (c :: text) (m + 1)) : Loaded (register / 256) text m := by
  obtain ⟨behind, rfl⟩ := h
  exact ⟨behind, by rw [littleEndian_shift, List.cons_append, List.take_succ_cons, List.tail_cons]⟩

/-- The end of a text in a register. -/
theorem Loaded.end_of_zero {register : Nat} {text : List UInt8} {m : Nat} (hnul : 0 ∉ text)
    (hload : Loaded register text m) (hzero : lowByte register = 0) : text = [] ∨ m = 0 := by
  cases m with
  | zero => exact Or.inr rfl
  | succ m =>
    rw [hload.lowByte_eq] at hzero
    cases text with
    | nil => exact Or.inl rfl
    | cons c text =>
      rw [List.headD_cons] at hzero
      rw [hzero] at hnul
      exact absurd List.mem_cons_self hnul

/-! ## Fields -/

/-- Characters of a kind, up to one that is not of it, are determined. -/
theorem prefix_unique {P : UInt8 → Prop} {xs : List UInt8} :
    ∀ {ys t u : List UInt8}, (∀ c ∈ xs, P c) → (∀ c ∈ ys, P c) → ¬ P (t.headD 0) →
      ¬ P (u.headD 0) → xs ++ t = ys ++ u → xs = ys ∧ t = u := by
  induction xs with
  | nil =>
    intro ys t u _ hys ht _ heq
    cases ys with
    | nil => exact ⟨rfl, heq⟩
    | cons y ys =>
      rw [List.nil_append] at heq
      rw [heq] at ht
      exact absurd (hys y List.mem_cons_self) ht
  | cons x xs ih =>
    intro ys t u hxs hys ht hu heq
    cases ys with
    | nil =>
      rw [List.nil_append] at heq
      rw [← heq] at hu
      exact absurd (hxs x List.mem_cons_self) hu
    | cons y ys =>
      obtain ⟨rfl, htail⟩ := List.cons.inj heq
      obtain ⟨rfl, rfl⟩ := ih (fun c hc => hxs c (List.mem_cons_of_mem _ hc))
        (fun c hc => hys c (List.mem_cons_of_mem _ hc)) ht hu htail
      exact ⟨rfl, rfl⟩

/-- There is one text at an address. -/
theorem TextAt.unique {mem : Mem} {p : Nat} {text text' : List UInt8} (h : TextAt mem p text)
    (h' : TextAt mem p text') : text = text' := by
  have hbytes := h.bytesAt_take (text.length + text'.length + 1)
  have hbytes' := h'.bytesAt_take (text.length + text'.length + 1)
  have hne {text : List UInt8} (hnul : 0 ∉ text) : ∀ c ∈ text, c ≠ 0 :=
    fun c hc hzero => hnul (hzero ▸ hc)
  have hheads {text behind : List UInt8} {n : Nat} (hle : text.length < n) :
      ∃ behind', (text ++ 0 :: behind).take n = text ++ 0 :: behind' := by
    refine ⟨behind.take (n - text.length - 1), ?_⟩
    rw [List.take_append, List.take_of_length_le (Nat.le_of_lt hle), List.take_cons (by omega)]
  obtain ⟨behind, htake⟩ := @hheads text
    (bytesAt mem (p + (text.length + 1)) (text.length + text'.length + 1)) _
    (by omega : text.length < text.length + text'.length + 1)
  obtain ⟨behind', htake'⟩ := @hheads text'
    (bytesAt mem (p + (text'.length + 1)) (text.length + text'.length + 1)) _
    (by omega : text'.length < text.length + text'.length + 1)
  rw [hbytes, htake, htake'] at hbytes'
  exact (prefix_unique (hne h.noNul) (hne h'.noNul) (by simp) (by simp) hbytes').1

/-! ## Texts one behind the other -/

/-- Texts, each of them behind the `NUL` of the one before. -/
def TextsAt (mem : Mem) : Nat → List (List UInt8) → Prop
  | _, [] => True
  | p, text :: texts => TextAt mem p text ∧ TextsAt mem (p + (text.length + 1)) texts

/-- A memory that is the same from their start on has them, too. -/
theorem TextsAt.congr {mem mem' : Mem} {texts : List (List UInt8)} :
    ∀ {p : Nat}, TextsAt mem p texts → (∀ a, p ≤ a → mem' a = mem a) → TextsAt mem' p texts := by
  induction texts with
  | nil => exact fun _ _ => trivial
  | cons text texts ih =>
    rintro p ⟨htext, htexts⟩ hsame
    exact ⟨htext.congr fun a hle _ => hsame a hle, ih htexts fun a hle => hsame a (by omega)⟩

/-- **A character between the first two** makes one of them. -/
theorem TextsAt.join {mem mem' : Mem} {p : Nat} {c : UInt8} {text text' : List UInt8}
    {texts : List (List UInt8)} (h : TextsAt mem p (text :: text' :: texts)) (hc : c ≠ 0)
    (hchar : mem' (p + text.length) = c) (hsame : ∀ a, a ≠ p + text.length → mem' a = mem a) :
    TextsAt mem' p ((text ++ c :: text') :: texts) := by
  obtain ⟨htext, htext', htexts⟩ := h
  have hlength : (text ++ c :: text').length = text.length + 1 + text'.length := by
    rw [List.length_append, List.length_cons]
    omega
  have hfront : bytesAt mem' p text.length = text := by
    have hbytes : bytesAt mem' p text.length = bytesAt mem p text.length :=
      bytesAt_inj.mpr fun k hk => hsame _ (by omega)
    rw [hbytes, ← bytesAt_take mem p (Nat.le_succ _), htext.bytes, List.take_left' rfl]
  have hback : bytesAt mem' (p + text.length + 1) (text'.length + 1) = text' ++ [0] := by
    rw [← htext'.bytes]
    exact bytesAt_inj.mpr fun k hk => hsame _ (by omega)
  refine ⟨⟨?_, ?_⟩, ?_⟩
  · rw [List.mem_append, List.mem_cons]
    rintro (hmem | hzero | hmem)
    · exact htext.noNul hmem
    · exact hc hzero.symm
    · exact htext'.noNul hmem
  · have hsplit : (text ++ c :: text').length + 1 = text.length + (text'.length + 1 + 1) := by omega
    rw [hsplit, bytesAt_add, bytesAt_succ, hfront, hchar, hback, List.append_assoc, List.cons_append]
  · have haddress : p + ((text ++ c :: text').length + 1) =
        p + (text.length + 1) + (text'.length + 1) := by omega
    rw [haddress]
    exact htexts.congr fun a hle => hsame a (by omega)

/-! ## Stores -/

/-- Store some bytes. -/
def storeBytes (mem : Mem) (address : Nat) (bytes : List UInt8) : Mem := fun a =>
  if address ≤ a ∧ a < address + bytes.length then bytes.getD (a - address) 0 else mem a

/-- What is in front of a store stays. -/
theorem bytesAt_storeBytes_of_le {mem : Mem} {p n address : Nat} {bytes : List UInt8}
    (h : p + n ≤ address) : bytesAt (storeBytes mem address bytes) p n = bytesAt mem p n := by
  refine bytesAt_inj.mpr fun k hk => ?_
  rw [storeBytes, if_neg (by omega)]

theorem bytesAt_storeBytes_self (mem : Mem) (address : Nat) (bytes : List UInt8) :
    bytesAt (storeBytes mem address bytes) address bytes.length = bytes := by
  refine bytesAt_eq_iff.mpr fun i hi => ?_
  rw [storeBytes, if_pos ⟨by omega, by omega⟩, Nat.add_sub_cancel_left,
    List.getD_eq_getElem _ _ hi]

/-- **Storing behind what is there continues it.** -/
theorem bytesAt_storeBytes {mem : Mem} {p : Nat} {text more surplus : List UInt8}
    (h : bytesAt mem p text.length = text) :
    bytesAt (storeBytes mem (p + text.length) (more ++ surplus)) p (text ++ more).length =
      text ++ more := by
  rw [List.length_append, bytesAt_add, bytesAt_storeBytes_of_le (Nat.le_refl _), h,
    ← bytesAt_take _ _ (Nat.le_add_right more.length surplus.length), ← List.length_append,
    bytesAt_storeBytes_self, List.take_left']
  rfl

end DevopsBroker.Lib
