import DevopsBroker.Compress.IoBuffer
import DevopsBroker.Lib.Rounds

/-!
# The paged reader is a flat bit reader

`Tracks` ties an `InputBuffer` to a `FlatReader` over the concatenated pages: the
current page is number `k` of the chain, and the position in the stream is the
position in that page plus `k` whole pages. The position may sit at the very end
of a page (`offsetBitPos = 32768`) with the next page still ahead.

- `loadBits_shows`: a read shows the 57 bits at the position, from one page or two;
- `advanceOffset_tracks`: within the stream there is always a page to move into;
- **`run_refines`**: over any sequence of calls the two readers agree.
-/

namespace DevopsBroker.Compress

open DevopsBroker.Lib DevopsBroker.Io

/-- Byte `a` of the concatenated pages. -/
def pageByte (mem : Mem) (pages : List FileBuffer) (a : Nat) : UInt8 :=
  match pages[a / MEMORY_PAGE_SIZE]? with
  | some page => mem (page.buffer + a % MEMORY_PAGE_SIZE)
  | none => 0

/-- The bits of the pages, from byte `dataOffset` of the first one on. -/
def pageStream (mem : Mem) (pages : List FileBuffer) (dataOffset p : Nat) : Bool :=
  bitAt (pageByte mem pages) (8 * dataOffset + p)

/-- The paged reader and the flat one are at the same place of the same stream. -/
structure Tracks (mem : Mem) (pages : List FileBuffer) (dataOffset : Nat) (ib : InputBuffer)
    (r : FlatReader) : Prop where
  page : ∃ k, pages.drop k = ib.fileBuffer :: ib.next ∧
    8 * dataOffset + r.pos = OFFSET_BIT_END_POS * k + ib.offsetBitPos
  buffer_eq : ib.buffer = ib.fileBuffer.buffer
  offset_le : ib.offsetBitPos ≤ OFFSET_BIT_END_POS
  bitPos_eq : ib.bitPos = r.pos
  total_eq : ib.totalNumBits = r.total
  total_lt : r.total < 2 ^ 32
  pos_le : r.pos ≤ r.total
  room : 8 * dataOffset + r.total ≤ OFFSET_BIT_END_POS * pages.length
  stream_eq : r.stream = pageStream mem pages dataOffset

/-- A bit of page `k`. -/
theorem bitAt_pageByte {mem : Mem} {pages : List FileBuffer} {k o : Nat} {page : FileBuffer}
    (hk : pages[k]? = some page) (ho : o < OFFSET_BIT_END_POS) :
    bitAt (pageByte mem pages) (OFFSET_BIT_END_POS * k + o) =
      bitAt (fun a => mem (page.buffer + a)) o := by
  simp only [OFFSET_BIT_END_POS] at *
  have hdiv : (32768 * k + o) / 8 / 4096 = k := by omega
  have hmod : (32768 * k + o) / 8 % 4096 = o / 8 := by omega
  have hbit : (32768 * k + o) % 8 = o % 8 := by omega
  unfold bitAt pageByte
  rw [hdiv, hk, hmod, hbit]

/-- Skipping whole bytes of a byte sequence. -/
theorem bitAt_add (mem : Mem) (base o i : Nat) :
    bitAt (fun a => mem (base + o / 8 + a)) (o % 8 + i) =
      bitAt (fun a => mem (base + a)) (o + i) := by
  have hdiv : (o + i) / 8 = o / 8 + (o % 8 + i) / 8 := by omega
  have hmod : (o + i) % 8 = (o % 8 + i) % 8 := by omega
  unfold bitAt
  dsimp only
  rw [hdiv, hmod, Nat.add_assoc]

/-- Eight bytes of one page show every bit of the page among them. -/
theorem testBit_orBytes_page {mem : Mem} (base o i : Nat) (hi : o % 8 + i < 64) :
    (orBytes mem 8 (base + o / 8) 0 0).testBit (o % 8 + i) =
      bitAt (fun a => mem (base + a)) (o + i) := by
  rw [testBit_orBytes, Nat.zero_testBit, Bool.false_or, decide_eq_true (by omega),
    decide_eq_true (by omega), Bool.true_and, Bool.true_and, Nat.mul_zero, Nat.sub_zero,
    bitAt_add]

/-- **A read shows the 57 bits at the position**, as far as the stream goes. -/
theorem loadBits_shows {mem : Mem} {pages : List FileBuffer} {dataOffset : Nat} {ib : InputBuffer}
    {r : FlatReader} (h : Tracks mem pages dataOffset ib r) :
    r.Shows OFFSET_BIT_MIN (loadBits mem ib >>> (ib.offsetBitPos % 8)) := by
  intro i hi hend
  obtain ⟨k, hdrop, hpos⟩ := h.page
  simp only [OFFSET_BIT_MIN] at hi
  simp only [OFFSET_BIT_END_POS] at hpos
  have hk : pages[k]? = some ib.fileBuffer := by
    rw [← Nat.add_zero k, ← List.getElem?_drop, hdrop]; rfl
  have hle : ib.offsetBitPos ≤ 32768 := h.offset_le
  have hroom : 8 * dataOffset + r.total ≤ 32768 * pages.length := h.room
  have hlen : pages.length - k = ib.next.length + 1 := by
    rw [← List.length_drop, hdrop, List.length_cons]
  rw [Nat.testBit_shiftRight, h.stream_eq, pageStream,
    show 8 * dataOffset + (r.pos + i) = 32768 * k + (ib.offsetBitPos + i) by omega]
  -- inside the current page, both ways of reading take the bit from there
  have hsame : ib.offsetBitPos + i < 32768 →
      (orBytes mem 8 (ib.buffer + ib.offsetBitPos / 8) 0 0).testBit (ib.offsetBitPos % 8 + i) =
        bitAt (pageByte mem pages) (32768 * k + (ib.offsetBitPos + i)) := by
    intro hin
    rw [testBit_orBytes_page _ _ _ (by omega), bitAt_pageByte hk hin, h.buffer_eq]
  unfold loadBits
  simp only [OFFSET_BIT_END_POS, OFFSET_BIT_MIN, MEMORY_PAGE_SIZE]
  split
  next hnext =>
    -- the last page: the stream ends in it
    rw [hnext, List.length_nil] at hlen
    exact hsame (by omega)
  next nextBuffer rest hnext =>
    split
    next hmin => exact hsame (by omega)
    next hmin =>
      have hk' : pages[k + 1]? = some nextBuffer := by
        rw [← List.getElem?_drop, hdrop, hnext]; rfl
      rw [testBit_orBytes, testBit_orBytes, Nat.zero_testBit, Bool.false_or]
      rcases Nat.lt_or_ge (ib.offsetBitPos + i) 32768 with hin | hout
      · -- one of the bytes left in the current page
        rw [decide_eq_true (by omega), decide_eq_true (by omega),
          decide_eq_false (by omega), bitAt_pageByte hk hin, ← h.buffer_eq, ← bitAt_add]
        simp
      · -- one of the bytes of the next page
        have ho : 32768 * k + (ib.offsetBitPos + i)
            = 32768 * (k + 1) + (ib.offsetBitPos + i - 32768) := by omega
        have hbit : ib.offsetBitPos % 8 + i - 8 * (4096 - ib.offsetBitPos / 8)
            = ib.offsetBitPos + i - 32768 := by omega
        have hnextbit : ib.offsetBitPos + i - 32768 < 32768 := by omega
        rw [decide_eq_false (by omega : ¬ ib.offsetBitPos % 8 + i <
            8 * (0 + (4096 - ib.offsetBitPos / 8))),
          decide_eq_true (by omega : 8 * (4096 - ib.offsetBitPos / 8) ≤ ib.offsetBitPos % 8 + i),
          decide_eq_true (by omega : ib.offsetBitPos % 8 + i <
            8 * (4096 - ib.offsetBitPos / 8 + (8 - (4096 - ib.offsetBitPos / 8)))), ho, bitAt_pageByte hk' hnextbit, hbit]
        simp

/-- Within the stream, moving on succeeds, into the next page where needed. -/
theorem advanceOffset_tracks {mem : Mem} {pages : List FileBuffer} {dataOffset : Nat}
    {ib : InputBuffer} {r : FlatReader} (h : Tracks mem pages dataOffset ib r) {n : Nat}
    (hn : n ≤ OFFSET_BIT_MIN) (hend : r.pos + n ≤ r.total) :
    ∃ ib', advanceOffset { ib with bitPos := r.pos + n } n = some ib' ∧ ib'.bits = ib.bits ∧
      Tracks mem pages dataOffset ib' { r with pos := r.pos + n } := by
  obtain ⟨k, hdrop, hpos⟩ := h.page
  simp only [OFFSET_BIT_MIN] at hn
  simp only [OFFSET_BIT_END_POS] at hpos
  have hle : ib.offsetBitPos ≤ 32768 := h.offset_le
  have hroom : 8 * dataOffset + r.total ≤ 32768 * pages.length := h.room
  have hlen : pages.length - k = ib.next.length + 1 := by
    rw [← List.length_drop, hdrop, List.length_cons]
  have hmod : (ib.offsetBitPos + n) % 2 ^ 32 = ib.offsetBitPos + n := by omega
  unfold advanceOffset
  simp only [OFFSET_BIT_END_POS]
  rw [hmod]
  split
  next hpast =>
    split
    next hnext =>
      -- no next page: but then the stream ends in this one
      rw [hnext, List.length_nil] at hlen
      omega
    next nextBuffer rest hnext =>
      refine ⟨_, rfl, rfl, ⟨⟨k + 1, ?_, ?_⟩, rfl, ?_, rfl, h.total_eq, h.total_lt, hend, hroom,
        h.stream_eq⟩⟩
      · rw [← List.tail_drop, hdrop, List.tail_cons, hnext]
      · show 8 * dataOffset + (r.pos + n) = 32768 * (k + 1) + (ib.offsetBitPos + n - 32768)
        omega
      · show ib.offsetBitPos + n - 32768 ≤ 32768
        omega
  next hin =>
    refine ⟨_, rfl, rfl, ⟨⟨k, hdrop, ?_⟩, h.buffer_eq, ?_, rfl, h.total_eq, h.total_lt, hend,
      hroom, h.stream_eq⟩⟩
    · show 8 * dataOffset + (r.pos + n) = 32768 * k + (ib.offsetBitPos + n)
      omega
    · show ib.offsetBitPos + n ≤ 32768
      omega

/-! ## The three calls -/

/-- Reading changes `bits` only, which the position does not depend on. -/
theorem tracks_bits {mem : Mem} {pages : List FileBuffer} {dataOffset : Nat} {ib : InputBuffer}
    {r : FlatReader} (h : Tracks mem pages dataOffset ib r) (bits : Nat) :
    Tracks mem pages dataOffset { ib with bits := bits } r :=
  ⟨h.page, h.buffer_eq, h.offset_le, h.bitPos_eq, h.total_eq, h.total_lt, h.pos_le, h.room,
    h.stream_eq⟩

theorem getNextBits_spec {mem : Mem} {pages : List FileBuffer} {dataOffset : Nat}
    {ib : InputBuffer} {r : FlatReader} (h : Tracks mem pages dataOffset ib r) :
    Tracks mem pages dataOffset (getNextBits mem ib) r ∧
      r.Shows OFFSET_BIT_MIN (getNextBits mem ib).bits :=
  ⟨tracks_bits h _, loadBits_shows h⟩

/-- The position behind some more bits does not overflow. -/
theorem Tracks.position_add {mem : Mem} {pages : List FileBuffer} {dataOffset : Nat}
    {ib : InputBuffer} {r : FlatReader} (h : Tracks mem pages dataOffset ib r) {n : Nat}
    (hn : n ≤ OFFSET_BIT_MIN) : (ib.bitPos + n) % 2 ^ 64 = r.pos + n := by
  have hlt := h.total_lt
  have hle := h.pos_le
  have hn' : n ≤ 57 := hn
  rw [h.bitPos_eq]
  omega

/-- `advanceNumBits` follows the flat reader and leaves `bits` alone. -/
theorem advanceNumBits_spec {mem : Mem} {pages : List FileBuffer} {dataOffset : Nat}
    {ib : InputBuffer} {r : FlatReader} (h : Tracks mem pages dataOffset ib r) {n : Nat}
    (hn : n ≤ OFFSET_BIT_MIN) :
    (advanceNumBits ib n).1 = (r.advance n).isSome ∧
      (advanceNumBits ib n).2.bits = ib.bits ∧
      Tracks mem pages dataOffset (advanceNumBits ib n).2 ((r.advance n).getD r) := by
  have hmod := h.position_add hn
  unfold advanceNumBits FlatReader.advance
  dsimp only
  rw [hmod]
  by_cases hend : r.pos + n ≤ r.total
  · obtain ⟨ib', hadv, hbits, h'⟩ := advanceOffset_tracks h hn hend
    rw [if_neg (by rw [h.total_eq]; omega), if_pos hend, hadv]
    exact ⟨rfl, hbits, h'⟩
  · rw [if_pos (by rw [h.total_eq]; omega), if_neg hend]
    exact ⟨rfl, rfl, h⟩

/-- `useNumBits` follows the flat reader and shows the bits at the old position. -/
theorem useNumBits_spec {mem : Mem} {pages : List FileBuffer} {dataOffset : Nat}
    {ib : InputBuffer} {r : FlatReader} (h : Tracks mem pages dataOffset ib r) {n : Nat}
    (hn : n ≤ OFFSET_BIT_MIN) :
    (useNumBits mem ib n).1 = (r.advance n).isSome ∧
      ((r.advance n).isSome → r.Shows OFFSET_BIT_MIN (useNumBits mem ib n).2.bits) ∧
      Tracks mem pages dataOffset (useNumBits mem ib n).2 ((r.advance n).getD r) := by
  have hmod := h.position_add hn
  unfold useNumBits FlatReader.advance
  dsimp only
  rw [hmod]
  by_cases hend : r.pos + n ≤ r.total
  · obtain ⟨ib', hadv, _, h'⟩ := advanceOffset_tracks h hn hend
    rw [if_neg (by rw [h.total_eq]; omega), if_pos hend, hadv]
    refine ⟨rfl, fun _ => ?_, tracks_bits h' _⟩
    show r.Shows _ (loadBits mem ib >>> (ib.offsetBitPos % 8))
    exact loadBits_shows h
  · rw [if_pos (by rw [h.total_eq]; omega), if_neg hend]
    exact ⟨rfl, fun hc => absurd hc (by simp), h⟩

/-! ## Runs of calls -/

/-- A call on an InputBuffer. -/
inductive ReadCall where
  | useNumBits (numBits : Nat)
  | getNextBits
  | advanceNumBits (numBits : Nat)

/-- The number of bits a call is handed. -/
def ReadCall.numBits : ReadCall → Nat
  | .useNumBits n => n
  | .getNextBits => 0
  | .advanceNumBits n => n

/-- Perform one call; `getNextBits` returns nothing and counts as `true`. -/
def execRead (mem : Mem) (ib : InputBuffer) : ReadCall → Bool × InputBuffer
  | .useNumBits n => useNumBits mem ib n
  | .getNextBits => (true, getNextBits mem ib)
  | .advanceNumBits n => advanceNumBits ib n

/-- The state after each call of a sequence, with what the call returned. -/
def runReads (mem : Mem) : List ReadCall → InputBuffer → List (Bool × InputBuffer)
  | [], _ => []
  | c :: cs, ib => execRead mem ib c :: runReads mem cs (execRead mem ib c).2

/-- What a call should do to a flat reader: whether it succeeds, the reader it
leaves, and, when it reads, the reader it read from. -/
structure FlatResult where
  ok : Bool
  after : FlatReader
  readFrom : Option FlatReader

/-- One call on a flat reader. A call that fails neither reads nor moves. -/
def flatRead (r : FlatReader) : ReadCall → FlatResult
  | .useNumBits n =>
    match r.advance n with
    | none => ⟨false, r, none⟩
    | some r' => ⟨true, r', some r⟩
  | .getNextBits => ⟨true, r, some r⟩
  | .advanceNumBits n =>
    match r.advance n with
    | none => ⟨false, r, none⟩
    | some r' => ⟨true, r', none⟩

/-- The result of each call of a sequence on a flat reader. -/
def flatReads : List ReadCall → FlatReader → List FlatResult
  | [], _ => []
  | c :: cs, r => flatRead r c :: flatReads cs (flatRead r c).after

/-- A call on the InputBuffer did what it does on the flat reader. -/
structure Agrees (code : Bool × InputBuffer) (flat : FlatResult) : Prop where
  ok : code.1 = flat.ok
  bitPos : code.2.bitPos = flat.after.pos
  bits : ∀ r ∈ flat.readFrom, r.Shows OFFSET_BIT_MIN code.2.bits

/-- One call keeps the readers together. -/
theorem exec_agrees {mem : Mem} {pages : List FileBuffer} {dataOffset : Nat} {ib : InputBuffer}
    {r : FlatReader} (h : Tracks mem pages dataOffset ib r) (c : ReadCall)
    (hn : c.numBits ≤ OFFSET_BIT_MIN) :
    Agrees (execRead mem ib c) (flatRead r c) ∧
      Tracks mem pages dataOffset (execRead mem ib c).2 (flatRead r c).after := by
  cases c with
  | useNumBits n =>
    obtain ⟨hok, hbits, h'⟩ := useNumBits_spec h (show n ≤ _ from hn)
    unfold execRead flatRead
    dsimp only
    cases hadv : r.advance n with
    | none =>
      rw [hadv] at hok h'
      exact ⟨⟨hok, h'.bitPos_eq, fun _ hc => nomatch hc⟩, h'⟩
    | some r' =>
      rw [hadv] at hok hbits h'
      refine ⟨⟨hok, h'.bitPos_eq, fun r₀ hr => ?_⟩, h'⟩
      obtain rfl : r = r₀ := by simpa using hr
      exact hbits rfl
  | getNextBits =>
    obtain ⟨h', hbits⟩ := getNextBits_spec h
    refine ⟨⟨rfl, h'.bitPos_eq, fun r₀ hr => ?_⟩, h'⟩
    obtain rfl : r = r₀ := by simpa [flatRead] using hr
    exact hbits
  | advanceNumBits n =>
    obtain ⟨hok, _, h'⟩ := advanceNumBits_spec h (show n ≤ _ from hn)
    unfold execRead flatRead
    dsimp only
    cases hadv : r.advance n with
    | none =>
      rw [hadv] at hok h'
      exact ⟨⟨hok, h'.bitPos_eq, fun _ hc => nomatch hc⟩, h'⟩
    | some r' =>
      rw [hadv] at hok h'
      exact ⟨⟨hok, h'.bitPos_eq, fun _ hc => nomatch hc⟩, h'⟩

/-- Readers that are together stay together over a whole run. -/
theorem runReads_agrees {mem : Mem} {pages : List FileBuffer} {dataOffset : Nat} :
    ∀ (calls : List ReadCall) {ib : InputBuffer} {r : FlatReader},
      Tracks mem pages dataOffset ib r → (∀ c ∈ calls, c.numBits ≤ OFFSET_BIT_MIN) →
      List.Forall₂ Agrees (runReads mem calls ib) (flatReads calls r) := by
  intro calls
  induction calls with
  | nil => intro ib r _ _; exact List.Forall₂.nil
  | cons c cs ih =>
    intro ib r h hn
    obtain ⟨hagree, h'⟩ := exec_agrees h c (hn c (List.mem_cons_self ..))
    exact List.Forall₂.cons hagree (ih h' fun c' hc' => hn c' (List.mem_cons_of_mem _ hc'))

/-- A freshly initialised InputBuffer is at the start of its stream. -/
theorem initInputBuffer_tracks (mem : Mem) {first : FileBuffer} (rest : List FileBuffer)
    {length : Nat} (hoff : first.dataOffset < MEMORY_PAGE_SIZE) (hlen : length < 2 ^ 29)
    (hroom : first.dataOffset + length ≤ MEMORY_PAGE_SIZE * (first :: rest).length) :
    Tracks mem (first :: rest) first.dataOffset (initInputBuffer first rest length)
      ⟨pageStream mem (first :: rest) first.dataOffset, 8 * length, 0⟩ := by
  simp only [MEMORY_PAGE_SIZE] at hoff hroom
  have htotal : length * 8 % 2 ^ 32 = 8 * length := by omega
  have hstart : first.dataOffset * 8 % 2 ^ 32 = 8 * first.dataOffset := by omega
  refine ⟨⟨0, rfl, ?_⟩, rfl, ?_, rfl, htotal, ?_, Nat.zero_le _, ?_, rfl⟩
  · show 8 * first.dataOffset + 0 = 32768 * 0 + first.dataOffset * 8 % 2 ^ 32
    omega
  · show first.dataOffset * 8 % 2 ^ 32 ≤ 32768
    omega
  · show 8 * length < 2 ^ 32
    omega
  · show 8 * first.dataOffset + 8 * length ≤ 32768 * (first :: rest).length
    omega

/-- **The paged reader refines the flat bit stream.** Over any chain of pages that
holds the data, any start in the first page and any sequence of calls of at most
57 bits, every call fails exactly when it would pass the end, `bitPos` is the
position of the flat reader, and every read shows the bits the flat stream has
before its end. -/
theorem run_refines (mem : Mem) (first : FileBuffer) (rest : List FileBuffer) (length : Nat)
    (calls : List ReadCall) (hoff : first.dataOffset < MEMORY_PAGE_SIZE)
    (hlen : length < 2 ^ 29)
    (hroom : first.dataOffset + length ≤ MEMORY_PAGE_SIZE * (first :: rest).length)
    (hn : ∀ c ∈ calls, c.numBits ≤ OFFSET_BIT_MIN) :
    List.Forall₂ Agrees (runReads mem calls (initInputBuffer first rest length))
      (flatReads calls ⟨pageStream mem (first :: rest) first.dataOffset, 8 * length, 0⟩) :=
  runReads_agrees calls (initInputBuffer_tracks mem rest hoff hlen hroom) hn

/-- A read that takes its first bits from one page and the rest from the next,
and one that would pass the end. -/
theorem run_refines_twoPages :
    let first : FileBuffer := ⟨8192, 0, 4095, 4096⟩
    let rest : List FileBuffer := [⟨65536, 4096, 0, 4096⟩]
    let calls : List ReadCall := [.getNextBits, .advanceNumBits 5, .useNumBits 12, .useNumBits 8]
    List.Forall₂ Agrees
      (runReads (fun a => UInt8.ofNat (a / 8192)) calls (initInputBuffer first rest 3))
      (flatReads calls
        ⟨pageStream (fun a => UInt8.ofNat (a / 8192)) (first :: rest) 4095, 8 * 3, 0⟩) :=
  run_refines _ _ _ 3 _ (by decide) (by decide) (by decide) (by decide)

/-! ## Calls that fail -/

/-- Which states a failing call leaves as they were: one whose stream ends first, or one that
has room for the bits in its page or a page behind it. -/
def FailsUnchanged (ib : InputBuffer) (numBits : Nat) : Prop :=
  numBits = 0 ∨ (ib.bitPos + numBits) % 2 ^ 64 > ib.totalNumBits ∨
    (ib.offsetBitPos + numBits) % 2 ^ 32 ≤ OFFSET_BIT_END_POS ∨ ib.next ≠ []

/-- The offset cannot move on past the last page. -/
theorem advanceOffset_eq_none {ib : InputBuffer} {numBits : Nat} :
    advanceOffset ib numBits = none ↔
      OFFSET_BIT_END_POS < (ib.offsetBitPos + numBits) % 2 ^ 32 ∧ ib.next = [] := by
  unfold advanceOffset
  dsimp only
  split
  next hpast =>
    split
    next hnext => exact iff_of_true rfl ⟨hpast, hnext⟩
    next nextBuffer rest hnext =>
      refine iff_of_false nofun ?_
      intro h
      rw [hnext] at h
      exact absurd h.2 (List.cons_ne_nil _ _)
  next hin => exact iff_of_false nofun fun h => hin h.1

/-- Moving `bitPos` on by some bits moves it. -/
theorem bitPos_moved_iff {ib : InputBuffer} (hpos : ib.bitPos < 2 ^ 64) (numBits : UInt32) :
    { ib with bitPos := (ib.bitPos + numBits.toNat) % 2 ^ 64 } = ib ↔ numBits.toNat = 0 := by
  have hnum := numBits.toNat_lt
  constructor
  · intro h
    have hsame : (ib.bitPos + numBits.toNat) % 2 ^ 64 = ib.bitPos := congrArg InputBuffer.bitPos h
    omega
  · intro h
    rw [h, Nat.add_zero, Nat.mod_eq_of_lt hpos]

/-- A call that fails with `bitPos` moved already leaves the state alone for no bits only. -/
theorem failsUnchanged_iff_of_none {ib : InputBuffer} (hpos : ib.bitPos < 2 ^ 64)
    {numBits : UInt32} (hin : ¬ (ib.bitPos + numBits.toNat) % 2 ^ 64 > ib.totalNumBits)
    (hnone : advanceOffset { ib with bitPos := (ib.bitPos + numBits.toNat) % 2 ^ 64 }
      numBits.toNat = none) :
    { ib with bitPos := (ib.bitPos + numBits.toNat) % 2 ^ 64 } = ib ↔
      FailsUnchanged ib numBits.toNat := by
  obtain ⟨hpast, hnext⟩ := advanceOffset_eq_none.mp hnone
  rw [bitPos_moved_iff hpos]
  constructor
  · exact Or.inl
  · intro h
    rcases h with hzero | hend | hpage | hmore
    · exact hzero
    · exact absurd hend hin
    · exact absurd hpast (Nat.not_lt.mpr hpage)
    · exact absurd hnext hmore

/-- Where the offset moves on, there was room for the bits. -/
theorem failsUnchanged_of_some {ib ib' : InputBuffer} {numBits : Nat}
    (hsome : advanceOffset { ib with bitPos := (ib.bitPos + numBits) % 2 ^ 64 } numBits =
      some ib') : FailsUnchanged ib numBits := by
  by_cases hnext : ib.next = []
  · refine Or.inr (Or.inr (Or.inl (Nat.not_lt.mp ?_)))
    intro hpast
    have hnone := hsome.symm.trans (advanceOffset_eq_none.mpr ⟨hpast, hnext⟩)
    cases hnone
  · exact Or.inr (Or.inr (Or.inr hnext))

theorem advanceNumBits_unchanged_iff {ib : InputBuffer} (hpos : ib.bitPos < 2 ^ 64)
    (numBits : UInt32) :
    ((advanceNumBits ib numBits.toNat).1 = false → (advanceNumBits ib numBits.toNat).2 = ib) ↔
      FailsUnchanged ib numBits.toNat := by
  unfold advanceNumBits
  dsimp only
  split
  next hend => exact iff_of_true (fun _ => rfl) (Or.inr (Or.inl hend))
  next hin =>
    split
    next hnone =>
      rw [← failsUnchanged_iff_of_none hpos hin hnone]
      exact ⟨fun h => h rfl, fun h _ => h⟩
    next ib' hsome => exact iff_of_true nofun (failsUnchanged_of_some hsome)

/-- `useNumBits` moves as `advanceNumBits` does, and changes `bits` when it moves. -/
theorem useNumBits_eq_advanceNumBits (mem : Mem) (ib : InputBuffer) (numBits : Nat) :
    ∃ bits, useNumBits mem ib numBits =
        ((advanceNumBits ib numBits).1, { (advanceNumBits ib numBits).2 with bits := bits }) ∧
      ((advanceNumBits ib numBits).1 = false → bits = (advanceNumBits ib numBits).2.bits) := by
  unfold useNumBits advanceNumBits
  dsimp only
  split
  next _ => exact ⟨ib.bits, rfl, fun _ => rfl⟩
  next _ =>
    split
    next _ => exact ⟨ib.bits, rfl, fun _ => rfl⟩
    next _ _ => exact ⟨_, rfl, nofun⟩

theorem useNumBits_unchanged_iff (mem : Mem) {ib : InputBuffer} (hpos : ib.bitPos < 2 ^ 64)
    (numBits : UInt32) :
    ((useNumBits mem ib numBits.toNat).1 = false → (useNumBits mem ib numBits.toNat).2 = ib) ↔
      FailsUnchanged ib numBits.toNat := by
  obtain ⟨bits, heq, hsame⟩ := useNumBits_eq_advanceNumBits mem ib numBits.toNat
  rw [← advanceNumBits_unchanged_iff hpos, heq]
  refine forall_congr' fun hfalse => ?_
  rw [hsame hfalse]

/-- **A call that returns `false` leaves the state as it was exactly where it does not meet the
end of the last page**, inside of the stream. -/
theorem failedCall_unchanged_iff (mem : Mem) {ib : InputBuffer} (hpos : ib.bitPos < 2 ^ 64)
    (numBits : UInt32) :
    (((useNumBits mem ib numBits.toNat).1 = false →
        (useNumBits mem ib numBits.toNat).2 = ib) ↔ FailsUnchanged ib numBits.toNat) ∧
      (((advanceNumBits ib numBits.toNat).1 = false →
        (advanceNumBits ib numBits.toNat).2 = ib) ↔ FailsUnchanged ib numBits.toNat) :=
  ⟨useNumBits_unchanged_iff mem hpos numBits, advanceNumBits_unchanged_iff hpos numBits⟩

/-- One page, of which a single byte is left, for a stream of thirteen. -/
def lastByte : InputBuffer := initInputBuffer ⟨0, 0, 4095, 4096⟩ [] 13

/-- The stream has 104 bits, so that one more is refused, and nothing has changed. -/
theorem failedCall_unchanged_lastByte :
    (advanceNumBits lastByte 105).1 = false ∧ FailsUnchanged lastByte 105 ∧
      (((useNumBits (fun _ => 0) lastByte 105).1 = false →
          (useNumBits (fun _ => 0) lastByte 105).2 = lastByte) ↔ FailsUnchanged lastByte 105) ∧
        (((advanceNumBits lastByte 105).1 = false →
          (advanceNumBits lastByte 105).2 = lastByte) ↔ FailsUnchanged lastByte 105) :=
  ⟨by decide, Or.inr (Or.inl (by decide)), failedCall_unchanged_iff (fun _ => 0) (by decide) 105⟩

/-- Nine bits of it: `false`, with `bitPos` moved on. -/
theorem not_unchanged_nineBits :
    ¬ ∀ (mem : Mem) (ib : InputBuffer) (numBits : UInt32),
      ((useNumBits mem ib numBits.toNat).1 = false →
          (useNumBits mem ib numBits.toNat).2 = ib) ∧
        ((advanceNumBits ib numBits.toNat).1 = false →
          (advanceNumBits ib numBits.toNat).2 = ib) := by
  intro h
  have hsame := (h (fun _ => 0) lastByte 9).2 (by decide)
  have hpos := congrArg InputBuffer.bitPos hsame
  exact absurd hpos (by decide)

/-! ## How far the position gets -/

/-- The position has not passed the end of the stream. -/
structure InputBuffer.Within (ib : InputBuffer) : Prop where
  bitPos_le : ib.bitPos ≤ ib.totalNumBits
  total_lt : ib.totalNumBits < 2 ^ 32

/-- The same stream, `n` bits further on at least, and not past its end. -/
structure InputBuffer.Advanced (ib : InputBuffer) (n : Nat) (ib' : InputBuffer) : Prop where
  further : ib.bitPos + n ≤ ib'.bitPos
  bitPos_le : ib'.bitPos ≤ ib'.totalNumBits
  total_eq : ib'.totalNumBits = ib.totalNumBits

theorem InputBuffer.Within.advanced {ib : InputBuffer} (h : ib.Within) : ib.Advanced 0 ib :=
  ⟨Nat.le_refl _, h.bitPos_le, rfl⟩

theorem InputBuffer.Advanced.within {ib ib' : InputBuffer} {n : Nat} (h : ib.Advanced n ib')
    (hwithin : ib.Within) : ib'.Within := by
  refine ⟨h.bitPos_le, ?_⟩
  rw [h.total_eq]
  exact hwithin.total_lt

theorem InputBuffer.Advanced.trans {ib ib' ib'' : InputBuffer} {m n : Nat}
    (h : ib.Advanced m ib') (h' : ib'.Advanced n ib'') : ib.Advanced (m + n) ib'' := by
  have hfurther := h.further
  have hfurther' := h'.further
  exact ⟨by omega, h'.bitPos_le, h'.total_eq.trans h.total_eq⟩

theorem InputBuffer.Advanced.weaken {ib ib' : InputBuffer} {m n : Nat} (h : ib.Advanced n ib')
    (hle : m ≤ n) : ib.Advanced m ib' := by
  have hfurther := h.further
  exact ⟨by omega, h.bitPos_le, h.total_eq⟩

/-- The next page is part of the same stream. -/
theorem advanceOffset_position {ib ib' : InputBuffer} {numBits : Nat}
    (h : advanceOffset ib numBits = some ib') :
    ib'.bitPos = ib.bitPos ∧ ib'.totalNumBits = ib.totalNumBits := by
  unfold advanceOffset at h
  dsimp only at h
  split at h
  next _ =>
    split at h
    next _ => cases h
    next _ =>
      rw [← Option.some.inj h]
      exact ⟨rfl, rfl⟩
  next _ =>
    rw [← Option.some.inj h]
    exact ⟨rfl, rfl⟩

/-- The position that both calls move to, when the stream does not end before it. -/
theorem advanced_of_moved {ib ib' : InputBuffer} (h : ib.Within) {numBits : Nat}
    (hnum : numBits < 2 ^ 32) (hin : ¬ (ib.bitPos + numBits) % 2 ^ 64 > ib.totalNumBits)
    (hpos : ib'.bitPos = (ib.bitPos + numBits) % 2 ^ 64)
    (htotal : ib'.totalNumBits = ib.totalNumBits) : ib.Advanced numBits ib' := by
  have hbitPos := h.bitPos_le
  have hlt := h.total_lt
  exact ⟨by omega, by omega, htotal⟩

theorem advanceNumBits_advanced {ib : InputBuffer} (h : ib.Within) {numBits : Nat}
    (hnum : numBits < 2 ^ 32) {ok : Bool} {ib' : InputBuffer}
    (hrun : advanceNumBits ib numBits = (ok, ib')) : ib.Advanced (cond ok numBits 0) ib' := by
  unfold advanceNumBits at hrun
  dsimp only at hrun
  split at hrun
  next _ =>
    obtain ⟨rfl, rfl⟩ := Prod.mk.inj hrun
    exact h.advanced
  next hin =>
    split at hrun
    next _ =>
      obtain ⟨rfl, rfl⟩ := Prod.mk.inj hrun
      apply InputBuffer.Advanced.weaken ?_ (Nat.zero_le numBits)
      exact advanced_of_moved h hnum hin rfl rfl
    next ib₁ hsome =>
      obtain ⟨rfl, rfl⟩ := Prod.mk.inj hrun
      obtain ⟨hpos, htotal⟩ := advanceOffset_position hsome
      exact advanced_of_moved h hnum hin hpos htotal

theorem useNumBits_advanced {mem : Mem} {ib : InputBuffer} (h : ib.Within) {numBits : Nat}
    (hnum : numBits < 2 ^ 32) {ok : Bool} {ib' : InputBuffer}
    (hrun : useNumBits mem ib numBits = (ok, ib')) : ib.Advanced (cond ok numBits 0) ib' := by
  obtain ⟨bits, heq, _⟩ := useNumBits_eq_advanceNumBits mem ib numBits
  obtain ⟨rfl, rfl⟩ := Prod.mk.inj (heq.symm.trans hrun)
  obtain ⟨hle, hwithin, htotal⟩ := advanceNumBits_advanced h hnum rfl
  exact ⟨hle, hwithin, htotal⟩

theorem initInputBuffer_within (fileBuffer : FileBuffer) (next : List FileBuffer) (length : Nat) :
    (initInputBuffer fileBuffer next length).Within :=
  ⟨Nat.zero_le _, Nat.mod_lt _ (Nat.two_pow_pos 32)⟩

/-- Whatever `bits` holds, the position is the same. -/
theorem InputBuffer.Within.withBits {ib : InputBuffer} (h : ib.Within) (bits : Nat) :
    ib.Advanced 0 { ib with bits := bits } :=
  ⟨Nat.le_refl _, h.bitPos_le, rfl⟩

/-- Consuming what has been looked at: some bits, when there are some. -/
theorem InputBuffer.Advanced.consume {ib ib₁ ib₂ : InputBuffer} (h : ib.Advanced 0 ib₁)
    (hwithin : ib.Within) {numBits : Nat} {ok : Bool}
    (hrun : advanceNumBits ib₁ (numBits % 2 ^ 32) = (ok, ib₂)) :
    ib.Advanced 0 ib₂ ∧ (ok = true → 0 < numBits → numBits < 2 ^ 32 → ib.Advanced 1 ib₂) := by
  have hadvanced := h.trans
    (advanceNumBits_advanced (h.within hwithin) (Nat.mod_lt _ (Nat.two_pow_pos 32)) hrun)
  refine ⟨hadvanced.weaken (Nat.zero_le _), ?_⟩
  intro hok hpos hlt
  apply hadvanced.weaken
  rw [hok, cond_true, Nat.mod_eq_of_lt hlt]
  omega

section

variable {σ ρ : Type} {round : σ → Option (Turn σ ρ)} {input : σ → InputBuffer}
  {output : ρ → InputBuffer}

/-- The round from a state either returns or consumes a bit, inside of the stream. -/
def ProgressesAt (round : σ → Option (Turn σ ρ)) (input : σ → InputBuffer)
    (output : ρ → InputBuffer) (s : σ) : Prop :=
  ∃ turn, round s = some turn ∧
    turn.Meets (fun s' => (input s).Advanced 1 (input s'))
      (fun result => (input s).Advanced 0 (output result))

/-- **Every round of a run does**, as long as its state is inside of the stream: then all of them
are, and the loop comes back. -/
theorem progressesAt_reached {s : σ} (hwithin : (input s).Within)
    (h : ∀ s', Reaches round s s' → (input s').Within → ProgressesAt round input output s') :
    (∃ result, rounds round ((input s).totalNumBits + 1) s = some result ∧
        (input s).Advanced 0 (output result)) ∧
      ∀ s', Reaches round s s' → (input s').Within := by
  have hnext : ∀ s' s'', Reaches round s s' → (input s).Advanced 0 (input s') →
      round s' = some (.next s'') → (input s).Advanced 0 (input s'') ∧
        (input s').bitPos < (input s'').bitPos := by
    intro s' s'' hreach hread hround
    obtain ⟨turn, hround', hmeets⟩ := h s' hreach (hread.within hwithin)
    obtain rfl := Option.some.inj (hround'.symm.trans hround)
    have hmore : (input s').Advanced 1 (input s'') := hmeets
    exact ⟨(hread.trans hmore).weaken (Nat.zero_le _), hmore.further⟩
  constructor
  · -- the position is the measure, and the end of the stream the limit
    refine @rounds_comes_back σ ρ round
      (fun s' => Reaches round s s' ∧ (input s).Advanced 0 (input s'))
      (fun result => (input s).Advanced 0 (output result)) (fun s' => (input s').bitPos)
      (input s).totalNumBits ?_ ?_ _ s ⟨.first, hwithin.advanced⟩ (by omega)
    · intro s' ⟨hreach, hread⟩
      obtain ⟨turn, hround, hmeets⟩ := h s' hreach (hread.within hwithin)
      refine ⟨turn, hround, ?_⟩
      cases turn with
      | next s'' =>
        obtain ⟨hread', hfurther⟩ := hnext s' s'' hreach hread hround
        exact ⟨⟨hreach.next hround, hread'⟩, hfurther⟩
      | done result => exact hread.trans hmeets
    · intro s' ⟨_, hread⟩
      rw [← hread.total_eq]
      exact hread.bitPos_le
  · intro s' hreach
    suffices hread : (input s).Advanced 0 (input s') from hread.within hwithin
    induction hreach with
    | first => exact hwithin.advanced
    | next hreach hround ih => exact (hnext _ _ hreach ih hround).1

/-- From every state inside of the stream. -/
def Progresses (round : σ → Option (Turn σ ρ)) (input : σ → InputBuffer)
    (output : ρ → InputBuffer) : Prop :=
  ∀ s, (input s).Within → ProgressesAt round input output s

/-- Such a loop comes back. -/
theorem Progresses.comes_back (h : Progresses round input output) {s : σ}
    (hwithin : (input s).Within) :
    ∃ result, rounds round ((input s).totalNumBits + 1) s = some result ∧
      (input s).Advanced 0 (output result) :=
  (progressesAt_reached hwithin fun s' _ => h s').1

end

end DevopsBroker.Compress
