import DevopsBroker.Lib.Trace

/-!
# `lang/string.linux-x86_64.asm`: the length of a string, and its copy

`getLength` looks at sixteen characters at once: comparing them with zeros gives a mask with one bit
for each of them, and the first bit that is set belongs to the `NUL`. `copy` loads eight characters,
counts them while it looks for the `NUL`, and stores all of them at once when there is none; what was
counted up to the `NUL` is stored byte by byte. **`getLength_copy_exact`**: the one is the index of
the first `NUL`, and the other stores as many characters, the `NUL`, and nothing else.

Mirroring notes vs the assembly source:
- `.firstChunk` and `.whileString` of `getLength` look at their characters in the same way.
- `.saveCharBuffer` is followed by `.manageCharBuffer`: the next eight characters are loaded when
  those before are stored.
- `NULL` is address zero. A prefetch does nothing.
- The loops run on fuel; `none` is out of fuel.
-/

namespace DevopsBroker.Lang

open DevopsBroker.Lib

/-! ## `getLength` -/

/-- `pcmpeqb`, with zeros. -/
def pcmpeqb (xmm : List UInt8) : List UInt8 := xmm.map fun b => if b = 0 then 0xFF else 0

/-- `pmovmskb`: the high bits of sixteen bytes. -/
def pmovmskb (xmm : List UInt8) : BitVec 32 :=
  (BitVec.ofBoolListLE (xmm.map fun b => b.toBitVec.msb)).setWidth 32

/-- `bsf`. -/
def bsf (register : BitVec 32) : UInt32 := ⟨register.ctz⟩

/-- The bitmask for the sixteen bytes at an address. -/
def bitmask (mem : Mem) (address : Nat) : BitVec 32 := pmovmskb (pcmpeqb (bytesAt mem address 16))

/-- From `.whileString` of `getLength` back to it, or to the end. -/
def getLengthRound (mem : Mem) (string : Nat) (eax : UInt32) : Option (Turn UInt32 UInt32) :=
  let eax := eax + 16
  let ecx := bitmask mem (string + eax.toNat)
  if ecx = 0 then some (.next eax) else some (.done (eax + bsf ecx))

/-- `f6215943_getLength`. -/
def getLength (fuel : Nat) (mem : Mem) (string : Nat) : Option UInt32 :=
  if string = 0 then some 0
  else
    let ecx := bitmask mem string
    if ecx ≠ 0 then some (0 + bsf ecx) else rounds (getLengthRound mem string) fuel 0

/-! ## `copy` -/

/-- Where `copy` is. -/
inductive CopyLabel where
  | whileString
  | foundNull

/-- The registers of `copy`. -/
structure CopyState where
  label : CopyLabel
  rdi : Nat
  rsi : Nat
  cl : Nat
  r8 : Nat
  r9 : Nat
  trace : Trace

/-- From one label of `copy` to the next one. -/
def copyRound (s : CopyState) : Option (Turn CopyState Trace) :=
  match s.label with
  | .whileString =>
    let cl := (s.cl + 1) % 256
    if lowByte s.r8 = 0 then some (.next { s with label := .foundNull, cl := cl })
    else
      let r8 := s.r8 / 256
      if cl ≠ 0x08 then some (.next { s with cl := cl, r8 := r8 })
      else
        let (r8, trace) := (s.trace.store s.rsi 8 s.r9).load s.rdi 8
        some (.next ⟨.whileString, s.rdi + 0x08, s.rsi + 0x08, 0, r8, r8, trace⟩)
  | .foundNull =>
    let trace := s.trace.store s.rsi 1 s.r9
    let cl := (256 + s.cl - 1) % 256
    if cl ≠ 0 then
      some (.next { s with rsi := s.rsi + 1, cl := cl, r9 := s.r9 / 256, trace := trace })
    else some (.done trace)

/-- `f6215943_copy`: the destination, and the memory. -/
def copy (fuel : Nat) (mem : Mem) (source dest : Nat) : Option (Nat × Trace) :=
  let (r8, trace) := (Trace.start mem).load source 8
  (rounds copyRound fuel ⟨.whileString, source + 0x08, dest, 0, r8, r8, trace⟩).map fun trace =>
    (dest, trace)

/-! ## The mask -/

theorem msb_pcmpeqb (b : UInt8) :
    (if b = 0 then (0xFF : UInt8) else 0).toBitVec.msb = decide (b = 0) := by
  by_cases hb : b = 0
  · rw [if_pos hb, decide_eq_true hb]
    rfl
  · rw [if_neg hb, decide_eq_false hb]
    rfl

/-- **A bit of the mask** is set where there is a zero. -/
theorem getLsbD_bitmask (mem : Mem) (address : Nat) {i : Nat} (hi : i < 16) :
    (bitmask mem address).getLsbD i = decide (mem (address + i) = 0) := by
  have hget : ((pcmpeqb (bytesAt mem address 16)).map fun b => b.toBitVec.msb)[i]? =
      some (decide (mem (address + i) = 0)) := by
    rw [pcmpeqb, bytesAt, List.getElem?_map, List.getElem?_map, List.getElem?_map,
      List.getElem?_range hi, Option.map_some, Option.map_some, Option.map_some, msb_pcmpeqb]
  unfold bitmask pmovmskb
  rw [BitVec.getLsbD_setWidth, BitVec.getLsbD_ofBoolListLE, List.getD_eq_getElem?_getD, hget,
    decide_eq_true (by omega : i < 32), Bool.true_and]
  rfl

/-- There are sixteen bits. -/
theorem getLsbD_bitmask_of_le (mem : Mem) (address : Nat) {i : Nat} (hi : 16 ≤ i) :
    (bitmask mem address).getLsbD i = false := by
  have hlength : ((pcmpeqb (bytesAt mem address 16)).map fun b => b.toBitVec.msb).length ≤ i := by
    rw [List.length_map, pcmpeqb, List.length_map, bytesAt_length]
    exact hi
  unfold bitmask pmovmskb
  rw [BitVec.getLsbD_setWidth, BitVec.getLsbD_ofBoolListLE, List.getD_eq_default _ _ hlength,
    Bool.and_false]

/-- No zero. -/
theorem bitmask_eq_zero {mem : Mem} {address : Nat} (h : ∀ i < 16, mem (address + i) ≠ 0) :
    bitmask mem address = 0 := by
  refine BitVec.eq_of_getLsbD_eq fun i _ => ?_
  have hzero : (0 : BitVec 32).getLsbD i = false := BitVec.getLsbD_zero
  rw [hzero]
  rcases Nat.lt_or_ge i 16 with hlt | hge
  · rw [getLsbD_bitmask mem address hlt, decide_eq_false (h i hlt)]
  · exact getLsbD_bitmask_of_le mem address hge

/-- The lowest bit that is set. -/
theorem bsf_eq {register : BitVec 32} {k : Nat} (hset : register.getLsbD k = true)
    (hbelow : ∀ i < k, register.getLsbD i = false) : (bsf register).toNat = k := by
  have hne : register ≠ 0#32 := by
    rintro rfl
    rw [BitVec.getLsbD_zero] at hset
    cases hset
  show register.ctz.toNat = k
  rcases Nat.lt_trichotomy register.ctz.toNat k with hlt | heq | hgt
  · have hfirst := BitVec.getLsbD_true_ctz_of_ne_zero hne
    rw [hbelow _ hlt] at hfirst
    cases hfirst
  · exact heq
  · rw [BitVec.getLsbD_false_of_lt_ctz hgt] at hset
    cases hset

/-- **The first zero** of sixteen bytes. -/
theorem bsf_bitmask {mem : Mem} {address k : Nat} (hk : k < 16) (hzero : mem (address + k) = 0)
    (hbelow : ∀ i < k, mem (address + i) ≠ 0) :
    bitmask mem address ≠ 0 ∧ (bsf (bitmask mem address)).toNat = k := by
  have hset : (bitmask mem address).getLsbD k = true := by
    rw [getLsbD_bitmask mem address hk, decide_eq_true hzero]
  constructor
  · intro hmask
    rw [hmask] at hset
    simp at hset
  · refine bsf_eq hset fun i hi => ?_
    rw [getLsbD_bitmask mem address (by omega), decide_eq_false (hbelow i hi)]

/-! ## The length -/

section

variable {mem : Mem} {string : Nat} {text : List UInt8}

/-- The mask of sixteen characters that are followed by others. -/
theorem bitmask_inside (h : TextAt mem string text) {i : Nat} (hi : i + 16 ≤ text.length) :
    bitmask mem (string + i) = 0 := by
  refine bitmask_eq_zero fun k hk => ?_
  rw [Nat.add_assoc]
  exact h.get_ne_zero (by omega)

/-- The mask of the last characters: it has the index of the `NUL`. -/
theorem bitmask_last (h : TextAt mem string text) {i : Nat} (hle : i ≤ text.length)
    (hlt : text.length < i + 16) :
    bitmask mem (string + i) ≠ 0 ∧
      (bsf (bitmask mem (string + i))).toNat = text.length - i := by
  refine bsf_bitmask (by omega) ?_ ?_
  · rw [Nat.add_assoc, Nat.add_sub_of_le hle]
    exact h.nul
  · intro k hk
    rw [Nat.add_assoc]
    exact h.get_ne_zero (by omega)

/-- The characters up to `i` and the next sixteen were no `NUL`. -/
structure LengthInv (text : List UInt8) (i : Nat) (eax : UInt32) : Prop where
  eax : eax.toNat = i
  before : i + 16 ≤ text.length

theorem getLengthRound_inv (h : TextAt mem string text) (hlength : text.length < 2 ^ 32 - 16)
    {i : Nat} {eax : UInt32} (hinv : LengthInv text i eax) :
    ∃ turn, getLengthRound mem string eax = some turn ∧ turn.Meets
      (fun eax' => ∃ i', i < i' ∧ LengthInv text i' eax')
      (fun eax' => eax'.toNat = text.length) := by
  obtain ⟨heax, hbefore⟩ := hinv
  have hnext : (eax + 16).toNat = i + 16 := by
    have hsixteen : (16 : UInt32).toNat = 16 := rfl
    rw [UInt32.toNat_add, heax, hsixteen, Nat.mod_eq_of_lt (by omega)]
  unfold getLengthRound
  dsimp only
  rw [hnext]
  rcases Nat.lt_or_ge text.length (i + 16 + 16) with hlast | hmore
  · obtain ⟨hmask, hbsf⟩ := bitmask_last h hbefore hlast
    rw [if_neg hmask]
    refine ⟨_, rfl, ?_⟩
    show (eax + 16 + bsf _).toNat = text.length
    rw [UInt32.toNat_add, hnext, hbsf, Nat.mod_eq_of_lt (by omega)]
    omega
  · rw [if_pos (bitmask_inside h hmore)]
    exact ⟨_, rfl, i + 16, by omega, hnext, hmore⟩

/-- **`getLength` is the index of the `NUL`.** -/
theorem getLength_returns (h : TextAt mem string text) (hstring : string ≠ 0)
    (hlength : text.length < 2 ^ 32 - 16) :
    ∃ eax, Returns (fun fuel => getLength fuel mem string) eax ∧ eax.toNat = text.length := by
  unfold getLength
  simp only [if_neg hstring]
  rcases Nat.lt_or_ge text.length 16 with hshort | hlong
  · obtain ⟨hmask, hbsf⟩ := bitmask_last h (Nat.zero_le _) (by omega)
    rw [Nat.add_zero] at hmask hbsf
    refine ⟨_, returns_of_eq fun _ => if_pos hmask, ?_⟩
    rw [UInt32.toNat_add, hbsf]
    show (0 + (text.length - 0)) % 2 ^ 32 = text.length
    omega
  · have hmask : ¬ bitmask mem string ≠ 0 := fun hne => hne (bitmask_inside (i := 0) h (by omega))
    simp only [if_neg hmask]
    refine returns_of_progress text.length (fun _ _ hs => getLengthRound_inv h hlength hs) ?_
      (⟨rfl, by omega⟩ : LengthInv text 0 0)
    intro i eax hs
    have := hs.before
    omega

end

/-! ## The copy -/

section

variable {mem : Mem} {source dest : Nat} {text : List UInt8}

/-- The eight characters that were loaded when `saved` were stored: they are those of the text, up
to the `NUL`. -/
structure Buffered (mem : Mem) (source length saved : Nat) (chunk : List UInt8) : Prop where
  length_eq : chunk.length = 8
  chars : ∀ i < 8, saved + i ≤ length → chunk.getD i 0 = mem (source + saved + i)

/-- `saved` characters are stored, and the `NUL` is none of the first `counted` ones in the
register. -/
structure Scanning (mem : Mem) (source dest length saved counted : Nat) (s : CopyState) : Prop where
  label : s.label = .whileString
  rdi : s.rdi = source + saved + 8
  rsi : s.rsi = dest + saved
  cl : s.cl = counted
  bound : counted < 8 ∧ saved + counted ≤ length
  buffered : ∃ chunk, Buffered mem source length saved chunk ∧ s.r9 = littleEndian chunk ∧
    s.r8 = littleEndian (chunk.drop counted)
  stored : Stored mem dest (bytesAt mem source saved) s.trace

/-- `saved` characters are stored, the last ones of them one by one; the rest is in the register. -/
structure Saving (mem : Mem) (source dest length saved : Nat) (s : CopyState) : Prop where
  label : s.label = .foundNull
  rsi : s.rsi = dest + saved
  cl : s.cl + saved = length + 1
  left : 1 ≤ s.cl ∧ s.cl ≤ 8
  buffered : ∃ chunk, s.r9 = littleEndian chunk ∧
    ∀ i, saved + i ≤ length → chunk.getD i 0 = mem (source + saved + i)
  stored : Stored mem dest (bytesAt mem source saved) s.trace

/-- How far `copy` is. -/
inductive CopyInv (mem : Mem) (source dest length : Nat) : Nat → CopyState → Prop where
  | scanning {saved counted : Nat} {s : CopyState} :
    Scanning mem source dest length saved counted s →
      CopyInv mem source dest length (saved + counted) s
  | saving {saved : Nat} {s : CopyState} :
    Saving mem source dest length saved s → CopyInv mem source dest length (length + 1 + saved) s

theorem headD_drop (chunk : List UInt8) (i : Nat) : (chunk.drop i).headD 0 = chunk.getD i 0 := by
  rw [List.headD_eq_head?_getD, List.head?_drop, List.getD_eq_getElem?_getD]

/-- Eight characters that were loaded, none of them behind the text changed yet. -/
theorem buffered_bytesAt {mem' : Mem} {length saved : Nat}
    (h : ∀ a, source + saved ≤ a → a ≤ source + length → mem' a = mem a) :
    Buffered mem source length saved (bytesAt mem' (source + saved) 8) where
  length_eq := bytesAt_length ..
  chars := by
    intro i hi hle
    rw [bytesAt, List.getD_eq_getElem?_getD, List.getElem?_map, List.getElem?_range hi]
    exact h _ (Nat.le_add_right ..) (by omega)

/-- Eight characters of the text are those in memory. -/
theorem Buffered.eq_bytesAt {length saved : Nat} {chunk : List UInt8}
    (h : Buffered mem source length saved chunk) (hfull : saved + 8 ≤ length) :
    chunk = bytesAt mem (source + saved) 8 := by
  have hbytes : bytesAt mem (source + saved) chunk.length = chunk := by
    refine bytesAt_eq_iff.mpr fun i hi => ?_
    have hlt : i < 8 := h.length_eq ▸ hi
    rw [← h.chars i hlt (by omega), List.getD_eq_getElem _ _ hi]
  rw [← hbytes, h.length_eq]

/-- **A round of `.foundNull`** stores one character. -/
theorem saving_round {length saved : Nat} {s : CopyState}
    (h : Saving mem source dest length saved s) :
    ∃ turn, copyRound s = some turn ∧ turn.Meets
      (fun s' => ∃ i', length + 1 + saved < i' ∧ CopyInv mem source dest length i' s')
      (Stored mem dest (bytesAt mem source (length + 1))) := by
  obtain ⟨hlabel, hrsi, hcl, hleft, ⟨chunk, hr9, hchars⟩, hstored⟩ := h
  have hchar : charsOf 1 s.r9 = bytesAt mem (source + saved) 1 := by
    have hfirst := hchars 0 (by omega)
    rw [← headD_drop, List.drop_zero] at hfirst
    rw [hr9, charsOf, lowByte_littleEndian, hfirst]
    rfl
  have hmoved := hstored.store 1 s.r9
  rw [hchar, ← bytesAt_add, bytesAt_length] at hmoved
  have hdecrement : (256 + s.cl - 1) % 256 = s.cl - 1 := by omega
  unfold copyRound
  rw [hlabel]
  dsimp only
  rw [hdecrement, hrsi]
  split
  next hmore =>
    refine ⟨_, rfl, length + 1 + (saved + 1), by omega, .saving ⟨rfl, by dsimp only; omega,
      by dsimp only; omega, by dsimp only; omega, ⟨chunk.tail, ?_, ?_⟩, hmoved⟩⟩
    · dsimp only
      rw [hr9, littleEndian_shift]
    · intro i hi
      have hnext := hchars (i + 1) (by omega)
      rw [← headD_drop, List.drop_tail, headD_drop, hnext]
      congr 1
      omega
  next hlast =>
    have hall : saved + 1 = length + 1 := by omega
    rw [hall] at hmoved
    exact ⟨_, rfl, hmoved⟩

/-- Eight characters are stored, and the next eight are loaded. -/
theorem flush_scanning {length saved r9 : Nat} {t : Trace} {chunk : List UInt8}
    (happart : dest ≤ source ∨ source + length < dest) (hfull : saved + 8 ≤ length)
    (hbuffered : Buffered mem source length saved chunk) (hr9 : r9 = littleEndian chunk)
    (hstored : Stored mem dest (bytesAt mem source saved) t) :
    Scanning mem source dest length (saved + 8) 0
      (let (r8, trace) := (t.store (dest + saved) 8 r9).load (source + saved + 8) 8
      ⟨.whileString, source + saved + 8 + 8, dest + saved + 8, 0, r8, r8, trace⟩) := by
  have hmoved := hstored.store 8 r9
  rw [hr9, hbuffered.eq_bytesAt hfull, charsOf_bytesAt, ← bytesAt_add, bytesAt_length] at hmoved
  rw [hr9, hbuffered.eq_bytesAt hfull]
  refine ⟨rfl, rfl, rfl, rfl, ⟨by omega, by omega⟩, ⟨_, buffered_bytesAt ?_, rfl, rfl⟩,
    hmoved.load _ 8⟩
  -- what was stored is in front of what is loaded, or behind the text
  intro a hlow hhigh
  exact hmoved.outside (by rw [bytesAt_length]; omega)

/-- **A round of `.whileString`** looks at one character. -/
theorem scanning_round (htext : TextAt mem source text)
    (happart : text.length < 8 ∨ dest ≤ source ∨ source + text.length < dest)
    {saved counted : Nat} {s : CopyState}
    (h : Scanning mem source dest text.length saved counted s) :
    ∃ turn, copyRound s = some turn ∧ turn.Meets
      (fun s' => ∃ i', saved + counted < i' ∧ CopyInv mem source dest text.length i' s')
      (Stored mem dest (bytesAt mem source (text.length + 1))) := by
  obtain ⟨hlabel, hrdi, hrsi, hcl, hbound, ⟨chunk, hbuffered, hr9, hr8⟩, hstored⟩ := h
  have hchar : lowByte s.r8 = mem (source + (saved + counted)) := by
    rw [hr8, lowByte_littleEndian, headD_drop, hbuffered.chars counted hbound.1 hbound.2,
      Nat.add_assoc]
  have hincrement : (s.cl + 1) % 256 = counted + 1 := by omega
  unfold copyRound
  rw [hlabel]
  dsimp only
  rw [hincrement, hchar]
  split
  next hzero =>
    have hend : saved + counted = text.length := by
      refine Nat.le_antisymm hbound.2 (Nat.not_lt.mp fun hlt => ?_)
      exact htext.get_ne_zero hlt hzero
    exact ⟨_, rfl, text.length + 1 + saved, by omega, .saving ⟨rfl, hrsi, by dsimp only; omega,
      by dsimp only; omega, ⟨chunk, hr9, fun i hi => hbuffered.chars i (by omega) hi⟩, hstored⟩⟩
  next hne =>
    have hinside : saved + counted < text.length := by
      refine Nat.lt_of_le_of_ne hbound.2 fun hend => hne ?_
      rw [hend]
      exact htext.nul
    split
    next hmore =>
      refine ⟨_, rfl, saved + (counted + 1), by omega, .scanning ⟨rfl, hrdi, hrsi, rfl,
        ⟨by omega, by omega⟩, ⟨chunk, hbuffered, hr9, ?_⟩, hstored⟩⟩
      dsimp only
      rw [hr8, littleEndian_shift, List.tail_drop]
    next hfull =>
      have hcounted : counted = 7 := by omega
      have hnext := flush_scanning (by omega) (by omega) hbuffered hr9 hstored
      rw [← hrdi, ← hrsi] at hnext
      exact ⟨_, rfl, saved + 8 + 0, by omega, .scanning hnext⟩

/-- **`copy` stores the text and its `NUL`.** -/
theorem copy_stored (htext : TextAt mem source text)
    (happart : text.length < 8 ∨ dest ≤ source ∨ source + text.length < dest) :
    ∃ t, Returns (fun fuel => copy fuel mem source dest) (dest, t) ∧
      Stored mem dest (text ++ [0]) t := by
  have hstart : Scanning mem source dest text.length 0 0
      (let (r8, trace) := (Trace.start mem).load source 8
      ⟨.whileString, source + 0x08, dest, 0, r8, r8, trace⟩) :=
    ⟨rfl, rfl, rfl, rfl, ⟨by omega, by omega⟩, ⟨_, buffered_bytesAt fun _ _ _ => rfl, rfl, rfl⟩,
      (stored_start mem dest).load source 8⟩
  obtain ⟨t, hreturns, hstored⟩ := @returns_of_progress _ _ copyRound
    (CopyInv mem source dest text.length) (Stored mem dest (bytesAt mem source (text.length + 1)))
    (2 * text.length + 1)
    (by
      intro i s hs
      cases hs with
      | scanning hs => exact scanning_round htext happart hs
      | saving hs => exact saving_round hs)
    (by
      intro i s hs
      cases hs with
      | scanning hs =>
        have := hs.bound
        omega
      | saving hs =>
        have := hs.cl
        have := hs.left
        omega)
    _ _ (.scanning hstart)
  rw [htext.bytes] at hstored
  exact ⟨t, hreturns.map fun trace : Trace => (dest, trace), hstored⟩

end

/-- **`getLength` finds the `NUL`, and `copy` stores what is in front of it, and the `NUL`.** The
destination of a text of eight characters or more does not start inside of it. -/
theorem getLength_copy_exact (mem : Mem) {source : Nat} {text : List UInt8}
    (htext : TextAt mem source text) (hsource : source ≠ 0) (hlength : text.length < 2 ^ 32 - 16) :
    (∃ eax, Returns (fun fuel => getLength fuel mem source) eax ∧ eax.toNat = text.length) ∧
    ∀ dest, text.length < 8 ∨ dest ≤ source ∨ source + text.length < dest →
      ∃ t, Returns (fun fuel => copy fuel mem source dest) (dest, t) ∧
        bytesAt t.mem dest (text.length + 1) = bytesAt mem source (text.length + 1) ∧
        TextAt t.mem dest text ∧
        (∀ a, ¬ (dest ≤ a ∧ a < dest + (text.length + 1)) → t.mem a = mem a) ∧
        Region.cover t.writes = Finset.Ico dest (dest + (text.length + 1)) := by
  refine ⟨getLength_returns htext hsource hlength, fun dest happart => ?_⟩
  obtain ⟨t, hreturns, hstored⟩ := copy_stored htext happart
  have hall : (text ++ [0]).length = text.length + 1 := List.length_append
  have hbytes : bytesAt t.mem dest (text.length + 1) = text ++ [0] := by
    rw [hstored.content, ← hall, bytesAt_storeBytes_self]
  refine ⟨t, hreturns, hbytes.trans htext.bytes.symm, ⟨htext.noNul, hbytes⟩, ?_, ?_⟩
  · intro a ha
    exact hstored.outside (by rw [hall]; exact ha)
  · rw [hstored.writes, hall]

theorem getLength_copy_exact_ten :
    (∃ eax, Returns (fun fuel => getLength fuel (fun a => if a / 10 = 2 then 0x41 else 0) 20) eax ∧
      eax.toNat = 10) ∧
    ∃ t, Returns (fun fuel => copy fuel (fun a => if a / 10 = 2 then 0x41 else 0) 20 64) (64, t) ∧
      TextAt t.mem 64 (List.replicate 10 0x41) := by
  have htext : TextAt (fun a => if a / 10 = 2 then 0x41 else 0) 20 (List.replicate 10 0x41) :=
    ⟨by decide, by decide⟩
  obtain ⟨hlength, hcopy⟩ := getLength_copy_exact _ htext (by decide) (by decide)
  obtain ⟨t, hreturns, -, hcopied, -⟩ := hcopy 64 (Or.inr (Or.inr (by decide)))
  exact ⟨hlength, t, hreturns, hcopied⟩

end DevopsBroker.Lang
