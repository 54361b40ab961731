import DevopsBroker.Adt.ListArraySpec
import DevopsBroker.Lang.StringScan
import DevopsBroker.Lib.Fields

/-!
# Splitting strings

`splitWithChar` cuts a string in place: a delimiter becomes a `NUL`, and the address behind it goes
on the stack unless the string ends there. What is on the stack is then added to a list at once.
**`splitWithChar_splits_iff`**: the pieces are in a new list, in order, exactly when it has room for
all of them; a list without elements does not grow.

Mirroring notes vs the source:
- `stack` has the addresses in the order in which they are pushed, the first one at `rbp - 8`.
- The list, its block and the stack are apart from the string.
-/

namespace DevopsBroker.Lang

open DevopsBroker.Lib
open DevopsBroker.Adt (ListArray)
open DevopsBroker.Adt.ListArray (addFromStack addFromStack_holds addFromStack_none elementsOf
  initListArrayWithSize initListArrayWithSize_holds)

/-- The memory and the registers in `.whileString`, with what is on the stack. -/
structure SplitState where
  mem : Mem
  string : Cursor
  stack : List Nat
  r9d : UInt32

/-- From `.whileString` back to it, or to `.addSubstrings`. -/
def splitRound (delimiter : UInt8) : SplitState → Option (Turn SplitState SplitState)
  | s =>
    if s.string.char = 0 then some (.done s)
    else if s.string.char = delimiter then
      -- `.matchFound`
      let mem := storeByte s.mem s.string.address 0
      let string := s.string.next mem
      -- `.saveNextString`
      if string.char = 0 then some (.done { s with mem := mem, string := string })
      else some (.next ⟨mem, string, s.stack ++ [string.address], s.r9d + 1⟩)
    else some (.next { s with string := s.string.next s.mem })

/-- `f6215943_splitWithChar`: the memory and the list; `some none` is an abort of `resizeArray`. -/
def splitWithChar (fuel : Nat) (garbage mem : Mem) (string : Nat) (delimiter : UInt8)
    (substrList : ListArray) : Option (Option (Mem × ListArray)) :=
  if string = 0 then some (some (mem, substrList))
  else if delimiter = 0 then some (some (mem, substrList))
  else
    (rounds (splitRound delimiter) fuel ⟨mem, .load mem string, [string], 1⟩).map fun s =>
      -- `.addSubstrings`
      (addFromStack garbage substrList (some fun j => UInt64.ofNat (s.stack.getD j 0))
        s.r9d.toNat).map fun list => (s.mem, list)

/-! ## A round -/

namespace SplitState

/-- A `NUL` instead of the character, and the next one. -/
def cut (s : SplitState) : SplitState :=
  let mem := storeByte s.mem s.string.address 0
  { s with mem := mem, string := s.string.next mem }

/-- The address of the character is pushed. -/
def push (s : SplitState) : SplitState :=
  { s with stack := s.stack ++ [s.string.address], r9d := s.r9d + 1 }

/-- The next character. -/
def skip (s : SplitState) : SplitState := { s with string := s.string.next s.mem }

/-- The string is in front of some text. -/
def Reads (s : SplitState) (text : List UInt8) : Prop := s.string.Reads s.mem text

variable {s : SplitState} {c : UInt8} {text : List UInt8}

@[simp] theorem cut_address (s : SplitState) : s.cut.string.address = s.string.address + 1 :=
  Cursor.next_address ..

@[simp] theorem skip_address (s : SplitState) : s.skip.string.address = s.string.address + 1 :=
  Cursor.next_address ..

/-- Nothing but the character changes. -/
theorem cut_mem {a : Nat} (h : a ≠ s.string.address) : s.cut.mem a = s.mem a := if_neg h

theorem Reads.skip (h : s.Reads (c :: text)) : s.skip.Reads text := Cursor.Reads.next h fun _ _ => rfl

theorem Reads.cut (h : s.Reads (c :: text)) : s.cut.Reads text :=
  Cursor.Reads.next h fun _ hlt => cut_mem (by omega)

end SplitState

section

variable {delimiter c d : UInt8} {s : SplitState} {text : List UInt8}

theorem splitRound_nil (h : s.Reads []) : splitRound delimiter s = some (.done s) := by
  rw [splitRound, h.char, List.headD_nil, if_pos rfl]

/-- A character that is no delimiter. -/
theorem splitRound_skip (h : s.Reads (c :: text)) (hc : c ≠ delimiter) :
    splitRound delimiter s = some (.next s.skip) := by
  rw [splitRound, h.char, List.headD_cons, if_neg h.ne_zero, if_neg hc]
  rfl

/-- A delimiter at the end of the string. -/
theorem splitRound_last (h : s.Reads [delimiter]) : splitRound delimiter s = some (.done s.cut) := by
  rw [splitRound, h.char, List.headD_cons, if_neg h.ne_zero, if_pos rfl]
  exact if_pos h.cut.char

/-- A delimiter in front of another piece. -/
theorem splitRound_cut (h : s.Reads (delimiter :: d :: text)) :
    splitRound delimiter s = some (.next s.cut.push) := by
  have hchar : s.cut.string.char ≠ 0 := h.cut.char ▸ h.cut.ne_zero
  rw [splitRound, h.char, List.headD_cons, if_neg h.ne_zero, if_pos rfl]
  exact if_neg hchar

end

/-! ## The loop -/

/-- What is behind a run of the loop, for the part of the string that starts at an address: its
pieces are in memory, where it starts and behind each address that was pushed. -/
structure Cuts (delimiter : UInt8) (start : Nat) (text : List UInt8) (s s' : SplitState)
    (addresses : List Nat) (pieces : List (List UInt8)) : Prop where
  stack : s'.stack = s.stack ++ addresses
  count : s'.r9d = s.r9d + UInt32.ofNat addresses.length
  splits : SplitsInto delimiter text pieces
  inMemory : List.Forall₂ (TextAt s'.mem) (start :: addresses) pieces
  bounded : ∀ a ∈ addresses, a ≤ start + text.length
  frame : ∀ a < start, s'.mem a = s.mem a

section

variable {delimiter : UInt8} {start : Nat} {front text : List UInt8} {s s' : SplitState}

/-- A piece up to the end of the string. -/
theorem cuts_single (hpiece : TextAt s'.mem start front)
    (hsplits : SplitsInto delimiter text [front]) (hstack : s'.stack = s.stack)
    (hcount : s'.r9d = s.r9d) (hframe : ∀ a < start, s'.mem a = s.mem a) :
    Cuts delimiter start text s s' [] [front] where
  stack := by rw [hstack, List.append_nil]
  count := by rw [hcount]; exact (UInt32.add_zero _).symm
  splits := hsplits
  inMemory := .cons hpiece .nil
  bounded := fun _ hmem => (List.not_mem_nil hmem).elim
  frame := hframe

/-- **A piece in front of the others**: it stays what it is when these are cut. -/
theorem Cuts.more {addresses : List Nat} {pieces : List (List UInt8)}
    (h : Cuts delimiter s.cut.string.address text s.cut.push s' addresses pieces)
    (hpiece : TextAt s.cut.mem start front) (haddress : s.string.address = start + front.length)
    (hfront : delimiter ∉ front) (hne : text ≠ []) :
    Cuts delimiter start (front ++ delimiter :: text) s s' (s.cut.string.address :: addresses)
      (front :: pieces) where
  stack := by
    rw [h.stack]
    exact List.append_assoc ..
  count := by
    rw [h.count, List.length_cons, Nat.add_comm, UInt32.ofNat_add]
    exact UInt32.add_assoc ..
  splits := h.splits.cons hfront hne
  inMemory := by
    have hnext := SplitState.cut_address s
    exact .cons (hpiece.congr fun a _ hle => h.frame a (by omega)) h.inMemory
  bounded := fun a hmem => by
    have hnext := SplitState.cut_address s
    rw [List.length_append, List.length_cons]
    rcases List.mem_cons.mp hmem with rfl | hmem
    · omega
    · have hle := h.bounded a hmem
      omega
  frame := fun a ha => by
    have hnext := SplitState.cut_address s
    rw [h.frame a (by omega)]
    exact SplitState.cut_mem (by omega)

end

/-- **`.whileString`**, behind some characters that are no delimiter. -/
theorem whileString_cuts {delimiter : UInt8} {rest : List UInt8} :
    ∀ {s : SplitState} {start : Nat} {front : List UInt8}, s.Reads rest →
      TextAt s.mem start (front ++ rest) → s.string.address = start + front.length →
      delimiter ∉ front →
      ∃ s' addresses pieces,
        ReturnsWithin (rest.length + 1) (fun fuel => rounds (splitRound delimiter) fuel s) s' ∧
        Cuts delimiter start (front ++ rest) s s' addresses pieces ∧ TextsAt s'.mem start pieces := by
  induction rest with
  | nil =>
    intro s start front hreads htext haddress hfront
    rw [List.append_nil] at htext ⊢
    exact ⟨s, [], [front], returnsWithin_done (splitRound_nil hreads),
      cuts_single htext (splitsInto_single hfront) rfl rfl fun _ _ => rfl, htext, trivial⟩
  | cons c rest ih =>
    intro s start front hreads htext haddress hfront
    by_cases hc : c = delimiter
    · subst hc
      -- the delimiter becomes a NUL, which ends the piece in front of it
      have hpiece : TextAt s.cut.mem start front := by
        unfold SplitState.cut
        rw [haddress]
        exact htext.cut
      cases rest with
      | nil =>
        exact ⟨s.cut, [], [front], (returnsWithin_done (splitRound_last hreads)).more (Nat.le_add_left 1 1),
          cuts_single hpiece (splitsInto_last hfront) rfl rfl
            fun a ha => SplitState.cut_mem (by omega), hpiece, trivial⟩
      | cons d rest =>
        obtain ⟨s', addresses, pieces, hrun, hcuts, htexts⟩ :=
          @ih s.cut.push s.cut.string.address [] hreads.cut hreads.cut.inMemory rfl List.not_mem_nil
        have hnext := SplitState.cut_address s
        have hbehind : start + (front.length + 1) = s.cut.string.address := by omega
        refine ⟨s', _, _, returnsWithin_next (splitRound_cut hreads) hrun,
          hcuts.more hpiece haddress hfront (List.cons_ne_nil d rest),
          hpiece.congr fun a _ hle => hcuts.frame a (by omega), ?_⟩
        rw [hbehind]
        exact htexts
    · have haddress' : s.skip.string.address = start + (front ++ [c]).length := by
        rw [SplitState.skip_address, haddress, List.length_append, List.length_singleton,
          Nat.add_assoc]
      have hfront' : delimiter ∉ front ++ [c] := by
        rw [List.mem_append, List.mem_singleton]
        rintro (hmem | rfl)
        · exact hfront hmem
        · exact hc rfl
      rw [List.append_cons] at htext ⊢
      obtain ⟨s', addresses, pieces, hrun, hcuts, htexts⟩ :=
        @ih s.skip start (front ++ [c]) hreads.skip htext haddress' hfront'
      exact ⟨s', addresses, pieces, returnsWithin_next (splitRound_skip hreads hc) hrun,
        ⟨hcuts.stack, hcuts.count, hcuts.splits, hcuts.inMemory, hcuts.bounded, hcuts.frame⟩, htexts⟩

/-! ## The list -/

/-- The list has strings without a delimiter that, joined with it, are the text, but for a delimiter at
its end. -/
def HasPieces (mem : Mem) (list : ListArray) (delimiter : UInt8) (text : List UInt8) : Prop :=
  ∃ addresses pieces, list.Holds addresses ∧
    List.Forall₂ (fun p piece => TextAt mem p.toNat piece) addresses pieces ∧
    (∀ piece ∈ pieces, delimiter ∉ piece) ∧
    ([delimiter].intercalate pieces = text ∨ [delimiter].intercalate pieces ++ [delimiter] = text)

/-- What is taken from the stack. -/
theorem elementsOf_stack (stack : List Nat) :
    elementsOf (some fun j => UInt64.ofNat (stack.getD j 0)) stack.length =
      stack.map UInt64.ofNat := by
  refine List.ext_getElem (by simp [elementsOf]) fun i hi hi' => ?_
  rw [List.length_map] at hi'
  simp only [elementsOf, List.getElem_map, List.getElem_range]
  rw [List.getD_eq_getElem _ _ hi']

theorem textAt_ofNat {mem : Mem} {addresses : List Nat} {pieces : List (List UInt8)}
    (h : List.Forall₂ (TextAt mem) addresses pieces) (hspace : ∀ a ∈ addresses, a < 2 ^ 64) :
    List.Forall₂ (fun p piece => TextAt mem p.toNat piece) (addresses.map UInt64.ofNat) pieces := by
  have hsame : (addresses.map UInt64.ofNat).map UInt64.toNat = addresses := by
    rw [List.map_map]
    conv => rhs; rw [← List.map_id addresses]
    exact List.map_congr_left fun a ha => Nat.mod_eq_of_lt (hspace a ha)
  rw [← hsame] at h
  exact List.forall₂_map_left_iff.mp h

section

variable {garbage garbage' mem : Mem} {string : Nat} {delimiter : UInt8} {text : List UInt8}
  {size : UInt32} {list : ListArray}

/-- The loop, and what is added to the list: a round for each character and one for the `NUL`. -/
theorem splitWithChar_returns (hstring : string ≠ 0) (hdelimiter : delimiter ≠ 0)
    (h : TextAt mem string text) :
    ∃ s' addresses pieces,
      Cuts delimiter string text ⟨mem, .load mem string, [string], 1⟩ s' addresses pieces ∧
        TextsAt s'.mem string pieces ∧
        ReturnsWithin (text.length + 1)
          (fun fuel => splitWithChar fuel garbage' mem string delimiter list)
          ((addFromStack garbage' list
            (some fun j => UInt64.ofNat ((string :: addresses).getD j 0))
              ((addresses.length + 1) % 2 ^ 32)).map fun list => (s'.mem, list)) := by
  obtain ⟨s', addresses, pieces, hrun, hcuts, htexts⟩ :=
    @whileString_cuts delimiter text ⟨mem, .load mem string, [string], 1⟩ string []
      (Cursor.reads_load h) h rfl List.not_mem_nil
  refine ⟨s', addresses, pieces, hcuts, htexts, ?_⟩
  have hstack : s'.stack = string :: addresses := hcuts.stack
  have hcount : s'.r9d.toNat = (addresses.length + 1) % 2 ^ 32 := by
    rw [hcuts.count, Nat.add_comm, ← UInt32.toNat_ofNat', UInt32.ofNat_add]
    rfl
  have hreturns := hrun.map fun s : SplitState =>
    (addFromStack garbage' list (some fun j => UInt64.ofNat (s.stack.getD j 0)) s.r9d.toNat).map
      fun list => (s.mem, list)
  rw [hstack, hcount] at hreturns
  simp only [splitWithChar, if_neg hstring, if_neg hdelimiter]
  exact hreturns

/-- **The pieces are in the list exactly when a new list has room for them.** -/
theorem splitWithChar_splits_iff (hstring : string ≠ 0) (hdelimiter : delimiter ≠ 0)
    (hspace : string + text.length < 2 ^ 64) (h : TextAt mem string text)
    (hlist : initListArrayWithSize garbage size = some list) :
    (∃ mem' list', Returns (fun fuel => splitWithChar fuel garbage' mem string delimiter list)
        (some (mem', list')) ∧ HasPieces mem' list' delimiter text) ↔
      (withoutLast delimiter text).count delimiter < size.toNat := by
  obtain ⟨list₀, hinit, hholds, hlength, hsize⟩ := initListArrayWithSize_holds garbage size
  obtain rfl : list₀ = list := Option.some.inj (hinit.symm.trans hlist)
  have hsmall := size.toNat_lt
  obtain ⟨s', addresses, pieces, hcuts, _, hrun⟩ :=
    @splitWithChar_returns garbage' mem string delimiter text list₀ hstring hdelimiter h
  have hpieces : addresses.length + 1 = (withoutLast delimiter text).count delimiter + 1 := by
    rw [← hcuts.splits.length, ← hcuts.inMemory.length_eq, List.length_cons]
  constructor
  · rintro ⟨mem', list', hrun', items, pieces', hholds', hmem', hfree, hjoin⟩
    have hadd := hrun.returns.unique hrun'
    rcases Nat.lt_or_ge size.toNat ((addresses.length + 1) % 2 ^ 32) with hfull | hroom
    · rw [addFromStack_none garbage' _ hlength (by omega) (Nat.mod_lt _ (by decide))] at hadd
      cases hadd
    · -- the list has as many elements as were counted, so nothing was lost
      obtain ⟨list'', hadd'', hholds'', _⟩ := addFromStack_holds garbage' hholds
        (some fun j => UInt64.ofNat ((string :: addresses).getD j 0))
        (by omega : list₀.length + (addresses.length + 1) % 2 ^ 32 < 2 ^ 32) (by omega) (by omega)
      rw [hadd''] at hadd
      cases hadd
      have hitems := hholds''.length
      rw [← hholds'.length, hmem'.length_eq, List.nil_append, elementsOf, List.length_map,
        List.length_range] at hitems
      have hcount := count_le_of_join hfree hjoin
      have hle := count_withoutLast_le delimiter text
      omega
  · intro hroom
    have hwrap : (addresses.length + 1) % 2 ^ 32 = addresses.length + 1 :=
      Nat.mod_eq_of_lt (by omega)
    obtain ⟨list', hadd, hholds', _⟩ := addFromStack_holds garbage' hholds
      (some fun j => UInt64.ofNat ((string :: addresses).getD j 0))
      (by omega : list₀.length + (addresses.length + 1) < 2 ^ 32) (by omega) (by omega)
    rw [hwrap, hadd] at hrun
    rw [← List.length_cons, List.nil_append, elementsOf_stack] at hholds'
    refine ⟨s'.mem, list', hrun.returns, _, pieces, hholds', textAt_ofNat hcuts.inMemory ?_,
      hcuts.splits.free, ?_⟩
    · intro a hmem
      rcases List.mem_cons.mp hmem with rfl | hmem
      · omega
      · have hle := hcuts.bounded a hmem
        omega
    · rw [hcuts.splits.join]
      exact withoutLast_cases delimiter text

end

/-- `"/usr/"`, in a list for eight. -/
theorem splitWithChar_splits_iff_usr :
    (∃ mem' list', Returns (fun fuel => splitWithChar fuel (fun _ => 0)
        (textMem [0x20, 0x2F, 0x75, 0x73, 0x72, 0x2F]) 1 0x2F ⟨⟨64, fun _ => 0⟩, 0, 8⟩)
        (some (mem', list')) ∧
        HasPieces mem' list' 0x2F [0x2F, 0x75, 0x73, 0x72, 0x2F]) ↔
      (withoutLast 0x2F [0x2F, 0x75, 0x73, 0x72, 0x2F]).count 0x2F < 8 := by
  have htext : TextAt (textMem [0x20, 0x2F, 0x75, 0x73, 0x72, 0x2F]) 1 [0x2F, 0x75, 0x73, 0x72, 0x2F] :=
    (textAt_textMem (by decide)).tail
  exact @splitWithChar_splits_iff (fun _ => 0) (fun _ => 0) _ 1 0x2F _ 8 _ (by decide) (by decide)
    (by decide) htext rfl

/-- The path `"/a/b/c/d/e/f/g/h"`, behind a space. -/
def deepPath : Mem :=
  textMem [0x20, 0x2F, 0x61, 0x2F, 0x62, 0x2F, 0x63, 0x2F, 0x64, 0x2F, 0x65, 0x2F, 0x66, 0x2F, 0x67,
    0x2F, 0x68]

/-- It has nine fields: a list for eight makes `resizeArray` abort. -/
theorem splitWithChar_aborts :
    ¬ ∃ result, Returns (fun fuel => splitWithChar fuel (fun _ => 0) deepPath 1 0x2F
      ⟨⟨64, fun _ => 0⟩, 0, 8⟩) (some result) := by
  rintro ⟨result, hrun⟩
  have htext : TextAt deepPath 1 [0x2F, 0x61, 0x2F, 0x62, 0x2F, 0x63, 0x2F, 0x64, 0x2F, 0x65, 0x2F,
      0x66, 0x2F, 0x67, 0x2F, 0x68] := (textAt_textMem (by decide)).tail
  obtain ⟨s', addresses, pieces, hcuts, _, hrun'⟩ :=
    @splitWithChar_returns (fun _ => 0) deepPath 1 0x2F _ ⟨⟨64, fun _ => 0⟩, 0, 8⟩ (by decide)
      (by decide) htext
  have hnine : addresses.length + 1 = 9 := by
    rw [← List.length_cons, hcuts.inMemory.length_eq, hcuts.splits.length]
    rfl
  rw [hnine, addFromStack_none (fun _ => 0) _ rfl (by decide) (by decide)] at hrun'
  cases hrun'.returns.unique hrun

end DevopsBroker.Lang
