import Mathlib.Data.List.DropRight
import DevopsBroker.Lang.StringScan

/-!
# Trimming strings

`trim` passes over the blanks in front, and then remembers the last character that is no blank; a
`NUL` behind it ends the string. **`trim_trims`**: what is left is the string without the blanks at
both of its ends, and trimming it again does nothing.
-/

namespace DevopsBroker.Lang

open DevopsBroker.Lib

/-- A space or a tab. -/
def blank (c : UInt8) : Bool := c = SPACE ∨ c = TAB

/-- A text without the blanks at both of its ends. -/
def trimmed (text : List UInt8) : List UInt8 := (text.dropWhile blank).rdropWhile blank

/-- The memory behind `trim`: a `NUL` where the blanks at the end start, if there are any. -/
def cutAt (mem : Mem) (p : Nat) (kept whole : List UInt8) : Mem :=
  if kept.length = whole.length then mem else storeByte mem (p + kept.length) 0

/-! ## The characters -/

theorem blank_iff {c : UInt8} : blank c = true ↔ c = SPACE ∨ c = TAB := decide_eq_true_iff

/-- The first character of a trimmed text is no blank. -/
theorem dropWhile_trimmed (text : List UInt8) : (trimmed text).dropWhile blank = trimmed text := by
  rw [List.dropWhile_eq_self_iff]
  intro hpos
  have hfront : trimmed text <+: text.dropWhile blank := List.rdropWhile_prefix ..
  rw [hfront.getElem hpos]
  exact List.dropWhile_get_zero_not blank text _

theorem trimmed_trimmed (text : List UInt8) : trimmed (trimmed text) = trimmed text := by
  rw [trimmed, dropWhile_trimmed]
  exact List.rdropWhile_idempotent ..

/-- What is cut off is behind what is kept. -/
theorem textAt_cutAt {mem : Mem} {p : Nat} {kept whole : List UInt8} (h : TextAt mem p whole)
    (hfront : kept <+: whole) : TextAt (cutAt mem p kept whole) p kept := by
  unfold cutAt
  split
  next hlength =>
    rw [hfront.eq_of_length hlength]
    exact h
  next _ =>
    obtain ⟨more, rfl⟩ := hfront
    exact h.cut

/-! ## The loops -/

section

variable {mem : Mem} {rax : Nat}

/-- **`.whileString`**, behind some of the string that does not start with a blank. -/
theorem whileString_returns {rest : List UInt8} :
    ∀ {c : Cursor} {rcx : Nat} {front : List UInt8}, c.Reads mem rest → c.address = rax + front.length →
      rcx + 1 = rax + (front.rdropWhile blank).length →
      Returns (fun fuel => rounds (trimRound mem) fuel (.whileString c rax rcx))
        (rax, cutAt mem rax ((front ++ rest).rdropWhile blank) (front ++ rest)) := by
  induction rest with
  | nil =>
    intro c rcx front hc haddress hrcx
    apply returns_done
    rw [trimRound, hc.char, List.headD_nil, if_pos rfl, List.append_nil, cutAt, haddress, hrcx]
    by_cases hlength : (front.rdropWhile blank).length = front.length
    · rw [if_pos hlength, if_pos (congrArg (rax + ·) hlength)]
    · rw [if_neg hlength, if_neg (by omega)]
  | cons x rest ih =>
    intro c rcx front hc haddress hrcx
    have haddress' : (c.next mem).address = rax + (front ++ [x]).length := by
      rw [Cursor.next_address, haddress, List.length_append, List.length_singleton]
      omega
    rw [List.append_cons]
    by_cases hx : x = SPACE ∨ x = TAB
    · have hround : trimRound mem (.whileString c rax rcx) =
          some (.next (.whileString (c.next mem) rax rcx)) := by
        rw [trimRound, hc.char, List.headD_cons, if_neg hc.ne_zero, if_pos hx]
      refine returns_next hround (ih (hc.next fun _ _ => rfl) haddress' ?_)
      rw [List.rdropWhile_concat_pos _ _ _ (blank_iff.mpr hx)]
      exact hrcx
    · have hround : trimRound mem (.whileString c rax rcx) =
          some (.next (.whileString (c.next mem) rax c.address)) := by
        rw [trimRound, hc.char, List.headD_cons, if_neg hc.ne_zero, if_neg hx]
      refine returns_next hround (ih (hc.next fun _ _ => rfl) haddress' ?_)
      rw [List.rdropWhile_concat_neg _ _ _ (mt blank_iff.mp hx), ← haddress', Cursor.next_address]

/-- **`.whileSpace`**, in front of the string or behind some blanks. -/
theorem whileSpace_returns {text : List UInt8} :
    ∀ {c : Cursor}, c.Reads mem text →
      Returns (fun fuel => rounds (trimRound mem) fuel (.whileSpace c))
        (c.address + (text.takeWhile blank).length,
          cutAt mem (c.address + (text.takeWhile blank).length) (trimmed text)
            (text.dropWhile blank)) := by
  induction text with
  | nil =>
    intro c hc
    apply returns_done
    rw [trimRound, hc.char, List.headD_nil, if_pos rfl]
    rfl
  | cons x text ih =>
    intro c hc
    by_cases hx : x = SPACE ∨ x = TAB
    · have hround : trimRound mem (.whileSpace c) = some (.next (.whileSpace (c.next mem))) := by
        rw [trimRound, hc.char, List.headD_cons, if_neg hc.ne_zero, if_pos hx]
      have hmore := returns_next hround (ih (hc.next fun _ _ => rfl))
      rw [trimmed, List.takeWhile_cons_of_pos (blank_iff.mpr hx),
        List.dropWhile_cons_of_pos (blank_iff.mpr hx), List.length_cons, Nat.add_comm _ 1,
        ← Nat.add_assoc]
      rw [Cursor.next_address] at hmore
      exact hmore
    · have hround : trimRound mem (.whileSpace c) =
          some (.next (.whileString c c.address c.address)) := by
        rw [trimRound, hc.char, List.headD_cons, if_neg hc.ne_zero, if_neg hx]
      have hround' : trimRound mem (.whileString c c.address c.address) =
          some (.next (.whileString (c.next mem) c.address c.address)) := by
        rw [trimRound, hc.char, List.headD_cons, if_neg hc.ne_zero, if_neg hx]
      have hrun := @whileString_returns mem c.address text (c.next mem) c.address [x]
        (hc.next fun _ _ => rfl) (Cursor.next_address mem c) (by
          rw [List.rdropWhile_singleton, if_neg (mt blank_iff.mp hx)]
          rfl)
      rw [trimmed, List.takeWhile_cons_of_neg (mt blank_iff.mp hx),
        List.dropWhile_cons_of_neg (mt blank_iff.mp hx)]
      exact returns_next hround (returns_next hround' hrun)

end

section

variable {mem : Mem} {string : Nat} {text : List UInt8}

theorem trim_returns (h : TextAt mem string text) :
    Returns (fun fuel => trim fuel mem string)
      (string + (text.takeWhile blank).length,
        cutAt mem (string + (text.takeWhile blank).length) (trimmed text) (text.dropWhile blank)) :=
  whileSpace_returns (Cursor.reads_load h)

/-- A string without blanks at its ends stays as it is. -/
theorem trim_keeps (h : TextAt mem string (trimmed text)) :
    Returns (fun fuel => trim fuel mem string) (string, mem) := by
  have hrun := trim_returns h
  have hsplit : (trimmed text).takeWhile blank ++ (trimmed text).dropWhile blank = trimmed text :=
    List.takeWhile_append_dropWhile
  have hfront : (trimmed text).takeWhile blank = [] := by
    rw [dropWhile_trimmed] at hsplit
    exact List.append_left_eq_self.mp hsplit
  rw [hfront, trimmed_trimmed, dropWhile_trimmed, cutAt, if_pos rfl] at hrun
  exact hrun

/-- **`trim` leaves the string without the blanks at both ends**, and trimming that again leaves the
same. -/
theorem trim_trims (h : TextAt mem string text) :
    ∃ rax mem', Returns (fun fuel => trim fuel mem string) (rax, mem') ∧
      TextAt mem' rax (trimmed text) ∧ Returns (fun fuel => trim fuel mem' rax) (rax, mem') := by
  have hsplit : text.takeWhile blank ++ text.dropWhile blank = text :=
    List.takeWhile_append_dropWhile
  have hdrop : TextAt mem (string + (text.takeWhile blank).length) (text.dropWhile blank) := by
    rw [← hsplit] at h
    exact h.drop
  have htrimmed := textAt_cutAt hdrop (List.rdropWhile_prefix blank _)
  exact ⟨_, _, trim_returns h, htrimmed, trim_keeps htrimmed⟩

end

/-- `"\ta b "`. -/
theorem trim_trims_blanks :
    ∃ rax mem', Returns (fun fuel => trim fuel (textMem [0x09, 0x61, 0x20, 0x62, 0x20]) 0) (rax, mem') ∧
      TextAt mem' rax [0x61, 0x20, 0x62] ∧ Returns (fun fuel => trim fuel mem' rax) (rax, mem') :=
  trim_trims (textAt_textMem (by decide))

end DevopsBroker.Lang
