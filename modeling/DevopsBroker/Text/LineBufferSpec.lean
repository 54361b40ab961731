import DevopsBroker.Lib.Lines
import DevopsBroker.Text.LineBuffer

/-!
# Which lines are read

`Holds` says which data is in a buffer. `getLine` takes a line off it, or moves a part of a line
to the front; `populateLineBuffer` adds to it. `progress` counts, for a stream and the way it is
read, how far the buffer is filled: it is not emptied when a read ends with a line.
**`readLines_iff`**: all lines come out unless the buffer is full at the end of a line. Then
nothing more is asked for, and the rest of the stream is lost.
-/

namespace DevopsBroker.Text

open DevopsBroker.Lang DevopsBroker.Lib

/-! ## Looking for a newline -/

/-- A character that is neither a `NUL` nor a newline: the next one is in the low byte. -/
theorem findNewline_next {mem : Mem} {n a rax dl r8d ecx : Nat} (hdl : 0 < dl)
    (hrax : rax = littleEndian (bytesAt mem a dl)) (hnul : mem a ≠ 0) (hnewline : mem a ≠ NEWLINE)
    (hr8d : r8d + 1 < 2 ^ 32) (hecx : ecx + 1 < 2 ^ 32) :
    ∃ rax' dl', 0 < dl' ∧ rax' = littleEndian (bytesAt mem (a + 1) dl') ∧
      findNewline mem (n + 1) rax dl (a + dl) r8d ecx =
        findNewline mem n rax' dl' (a + 1 + dl') (r8d + 1) (ecx + 1) := by
  obtain ⟨m, rfl⟩ : ∃ m, dl = m + 1 := ⟨dl - 1, by omega⟩
  rw [bytesAt_succ] at hrax
  have hch : lowByte rax = mem a := by rw [hrax, lowByte_littleEndian, List.headD_cons]
  have hrest : rax / 256 = littleEndian (bytesAt mem (a + 1) m) := by
    rw [hrax, littleEndian_shift, List.tail_cons]
  rw [findNewline, hch, if_neg hnul, if_neg hnewline, Nat.mod_eq_of_lt hr8d, Nat.mod_eq_of_lt hecx]
  cases m with
  | zero => exact ⟨_, 8, by omega, orBytes_eq_littleEndian mem 8 _, if_neg (by omega)⟩
  | succ m =>
    refine ⟨_, m + 1, Nat.succ_pos m, hrest, ?_⟩
    rw [if_pos (by omega), show a + (m + 1 + 1) = a + 1 + (m + 1) by omega]
    rfl

/-- **Without a newline none is found.** -/
theorem findNewline_notFound {mem : Mem} {n : Nat} :
    ∀ {a rax dl r8d ecx : Nat}, 0 < dl → rax = littleEndian (bytesAt mem a dl) →
      0 ∉ bytesAt mem a n → NEWLINE ∉ bytesAt mem a n → r8d + n < 2 ^ 32 → ecx + n < 2 ^ 32 →
      findNewline mem n rax dl (a + dl) r8d ecx = .newLineNotFound := by
  induction n with
  | zero => exact fun _ _ _ _ _ _ => rfl
  | succ n ih =>
    intro a rax dl r8d ecx hdl hrax hnul hnewline hr8d hecx
    rw [bytesAt_succ, List.mem_cons, not_or] at hnul hnewline
    obtain ⟨rax', dl', hdl', hrax', hnext⟩ := @findNewline_next mem n a rax dl r8d ecx hdl hrax
      (Ne.symm hnul.1) (Ne.symm hnewline.1) (by omega) (by omega)
    rw [hnext]
    exact ih hdl' hrax' hnul.2 hnewline.2 (by omega) (by omega)

/-- **The first newline is found.** -/
theorem findNewline_found {mem : Mem} {n : Nat} {line : List UInt8} :
    ∀ {a rax dl r8d ecx : Nat} {rest : List UInt8}, 0 < dl → rax = littleEndian (bytesAt mem a dl) →
      bytesAt mem a n = line ++ NEWLINE :: rest → 0 ∉ line → NEWLINE ∉ line →
      r8d + n < 2 ^ 32 → ecx + n < 2 ^ 32 →
      findNewline mem n rax dl (a + dl) r8d ecx =
        .foundNewline (a + line.length) (r8d + line.length + 1) (ecx + line.length) := by
  induction line generalizing n with
  | nil =>
    intro a rax dl r8d ecx rest hdl hrax hbytes _ _ hr8d _
    obtain ⟨m, rfl⟩ : ∃ m, dl = m + 1 := ⟨dl - 1, by omega⟩
    cases n with
    | zero => cases hbytes
    | succ n =>
      rw [bytesAt_succ] at hrax hbytes
      have hch : lowByte rax = NEWLINE := by
        rw [hrax, lowByte_littleEndian, List.headD_cons]
        exact (List.cons.inj hbytes).1
      rw [findNewline, hch, if_neg (by decide), if_pos rfl, Nat.mod_eq_of_lt (by omega),
        Nat.add_sub_cancel]
      rfl
  | cons c line ih =>
    intro a rax dl r8d ecx rest hdl hrax hbytes hnul hnewline hr8d hecx
    cases n with
    | zero => cases hbytes
    | succ n =>
      rw [List.mem_cons, not_or] at hnul hnewline
      rw [bytesAt_succ] at hbytes
      obtain ⟨hc, hrest⟩ := List.cons.inj hbytes
      obtain ⟨rax', dl', hdl', hrax', hnext⟩ := @findNewline_next mem n a rax dl r8d ecx hdl hrax
        (by rw [hc]; exact Ne.symm hnul.1) (by rw [hc]; exact Ne.symm hnewline.1) (by omega) (by omega)
      rw [hnext, ih hdl' hrax' hrest hnul.2 hnewline.2 (by omega) (by omega), List.length_cons]
      congr 1 <;> omega

/-! ## One line -/

/-- The data of a buffer that was not taken yet. -/
structure Holds (lineBuffer : Nat) (st : LineBuffer) (pending : List UInt8) : Prop where
  size : st.size ≤ BUFFER_SIZE
  length : st.length + pending.length = st.size
  bytes : bytesAt st.mem (lineBuffer + st.length) pending.length = pending

/-- What `.newLineNotFound` does to the memory. -/
theorem copyBuffer_eq (mem : Mem) {rsi rdi : Nat} (h : rdi ≤ rsi) (r9d : Nat) :
    copyBuffer mem rsi rdi r9d = storeByte (moveBytes mem rsi rdi r9d) (rdi + r9d) 0 := by
  have hdiv := Nat.div_add_mod r9d 8
  unfold copyBuffer
  dsimp only
  rw [copyChunks_eq 8 _ mem (Or.inr h), copyChunks_eq 1 _ _ (Or.inr (by omega)),
    moveBytes_moveBytes _ (Or.inr h), Nat.one_mul, hdiv]

theorem bytesAt_copyBuffer (mem : Mem) {rsi rdi : Nat} (h : rdi ≤ rsi) (r9d : Nat) :
    bytesAt (copyBuffer mem rsi rdi r9d) rdi r9d = bytesAt mem rsi r9d := by
  rw [copyBuffer_eq mem h]
  refine bytesAt_inj.mpr fun k hk => ?_
  rw [storeByte, if_neg (by omega), moveBytes, if_pos ⟨by omega, by omega⟩, Nat.add_sub_cancel_left]

/-- A buffer without data stays as it is. -/
theorem getLine_empty {lineBuffer : Nat} {st : LineBuffer} (h : Holds lineBuffer st []) :
    getLine lineBuffer st = (none, st) := if_pos h.length

/-- How `.findNewline` is entered. -/
theorem Holds.remaining {lineBuffer : Nat} {st : LineBuffer} {pending : List UInt8}
    (h : Holds lineBuffer st pending) : (st.size + 2 ^ 32 - st.length) % 2 ^ 32 = pending.length := by
  have hsize : st.size ≤ 4072 := h.size
  have hlength := h.length
  omega

/-- **A part of a line moves to the front.** -/
theorem getLine_part {lineBuffer : Nat} {st : LineBuffer} {pending : List UInt8}
    (h : Holds lineBuffer st pending) (hne : pending ≠ []) (hnul : 0 ∉ pending)
    (hnewline : NEWLINE ∉ pending) :
    ∃ st', getLine lineBuffer st = (none, st') ∧ Holds lineBuffer st' pending ∧
      st'.size = pending.length := by
  have hsize : st.size ≤ 4072 := h.size
  have hlength := h.length
  have hpos := List.length_pos_iff.mpr hne
  have hsearch := @findNewline_notFound st.mem pending.length (lineBuffer + st.length)
    (orBytes st.mem 8 (lineBuffer + st.length) 0 0) 8 st.length 0 (by omega)
    (orBytes_eq_littleEndian ..) (by rw [h.bytes]; exact hnul) (by rw [h.bytes]; exact hnewline)
    (by omega) (by omega)
  have hrun : getLine lineBuffer st = (none, { st with
      mem := copyBuffer st.mem (lineBuffer + st.length) lineBuffer pending.length
      length := 0
      size := pending.length }) := by
    unfold getLine
    rw [if_neg (by omega), h.remaining]
    dsimp only
    rw [hsearch]
  refine ⟨_, hrun, ⟨?_, Nat.zero_add _, ?_⟩, rfl⟩
  · show pending.length ≤ 4072
    omega
  · exact (bytesAt_copyBuffer st.mem (Nat.le_add_right _ _) _).trans h.bytes

/-- What a caller sees of a line. -/
def Shows (out : Mem × Line) (line : List UInt8) : Prop :=
  TextAt out.1 out.2.value line ∧ out.2.length = line.length

/-- **A line is taken off.** -/
theorem getLine_line {lineBuffer : Nat} {st : LineBuffer} {line rest : List UInt8}
    (h : Holds lineBuffer st (line ++ NEWLINE :: rest)) (hnul : 0 ∉ line) (hnewline : NEWLINE ∉ line) :
    ∃ out st', getLine lineBuffer st = (some out, st') ∧ Shows (st'.mem, out) line ∧
      Holds lineBuffer st' rest ∧ st'.size = st.size := by
  have hsize : st.size ≤ 4072 := h.size
  have hlength := h.length
  rw [List.length_append, List.length_cons] at hlength
  have hsearch := @findNewline_found st.mem (line ++ NEWLINE :: rest).length line
    (lineBuffer + st.length) (orBytes st.mem 8 (lineBuffer + st.length) 0 0) 8 st.length 0 rest
    (by omega) (orBytes_eq_littleEndian ..) h.bytes hnul hnewline
    (by rw [List.length_append, List.length_cons]; omega)
    (by rw [List.length_append, List.length_cons]; omega)
  rw [Nat.zero_add] at hsearch
  have hrun : getLine lineBuffer st = (some ⟨lineBuffer + st.length, line.length⟩, { st with
      mem := storeByte st.mem (lineBuffer + st.length + line.length) 0
      length := st.length + line.length + 1
      line := ⟨lineBuffer + st.length, line.length⟩ }) := by
    unfold getLine
    rw [if_neg (by omega), h.remaining]
    dsimp only
    rw [hsearch]
  -- the bytes of the line, the newline, and the bytes behind it
  have hbytes := h.bytes
  rw [List.length_append, bytesAt_add, List.length_cons, bytesAt_succ] at hbytes
  obtain ⟨hline, hmore⟩ := List.append_inj hbytes (bytesAt_length ..)
  obtain ⟨_, hrest⟩ := List.cons.inj hmore
  refine ⟨_, _, hrun, ⟨⟨hnul, ?_⟩, rfl⟩, ⟨hsize, ?_, ?_⟩, rfl⟩
  · show bytesAt (storeByte st.mem (lineBuffer + st.length + line.length) 0)
      (lineBuffer + st.length) (line.length + 1) = _
    rw [bytesAt_add]
    refine congrArg₂ (· ++ ·) ?_ ?_
    · refine Eq.trans (bytesAt_inj.mpr fun k hk => ?_) hline
      rw [storeByte, if_neg (by omega)]
    · rw [bytesAt_succ, storeByte, if_pos rfl]
      rfl
  · show st.length + line.length + 1 + rest.length = st.size
    omega
  · refine Eq.trans (bytesAt_inj.mpr fun k hk => ?_) hrest
    show storeByte st.mem (lineBuffer + st.length + line.length) 0
      (lineBuffer + (st.length + line.length + 1) + k) = _
    rw [storeByte, if_neg (by omega)]
    congr 1
    omega

/-! ## All lines of a buffer -/

/-- How far the buffer is filled when its lines are taken: they stay, unless a part of a line is
left. -/
def fillAfter (fill tail : Nat) : Nat := if tail = 0 then fill else tail

/-- **The lines come out, and the tail stays.** -/
theorem getLines_eq {lineBuffer : Nat} {lines : List (List UInt8)} {tail : List UInt8} :
    ∀ {fuel : Nat} {st : LineBuffer}, lines.length < fuel →
      Holds lineBuffer st (joinLines NEWLINE lines tail) → (∀ line ∈ lines, 0 ∉ line) →
      (∀ line ∈ lines, NEWLINE ∉ line) → 0 ∉ tail → NEWLINE ∉ tail →
      ∃ outs st', getLines lineBuffer fuel st = some (outs, st') ∧
        List.Forall₂ Shows outs lines ∧ Holds lineBuffer st' tail ∧
        st'.size = fillAfter st.size tail.length := by
  induction lines with
  | nil =>
    intro fuel st hfuel h _ _ hnul hnewline
    obtain ⟨fuel, rfl⟩ : ∃ k, fuel = k + 1 := ⟨fuel - 1, by simp at hfuel; omega⟩
    rw [joinLines_nil] at h
    rw [getLines]
    by_cases hne : tail = []
    · rw [hne] at h ⊢
      rw [getLine_empty h]
      exact ⟨[], st, rfl, .nil, h, rfl⟩
    · obtain ⟨st', hrun, hholds, hsize⟩ := getLine_part h hne hnul hnewline
      have hpos := List.length_pos_iff.mpr hne
      rw [hrun]
      exact ⟨[], st', rfl, .nil, hholds, by rw [hsize, fillAfter, if_neg (by omega)]⟩
  | cons line lines ih =>
    intro fuel st hfuel h hnuls hnewlines hnul hnewline
    rw [List.length_cons] at hfuel
    obtain ⟨fuel, rfl⟩ : ∃ k, fuel = k + 1 := ⟨fuel - 1, by omega⟩
    obtain ⟨hnulLine, hnuls⟩ := List.forall_mem_cons.mp hnuls
    obtain ⟨hnewlineLine, hnewlines⟩ := List.forall_mem_cons.mp hnewlines
    rw [joinLines_cons] at h
    obtain ⟨out, st₁, hrun, hshows, hholds, hsize⟩ := getLine_line h hnulLine hnewlineLine
    obtain ⟨outs, st₂, hmore, hall, hholds, hsize'⟩ :=
      @ih fuel st₁ (by omega) hholds hnuls hnewlines hnul hnewline
    rw [getLines, hrun]
    refine ⟨(st₁.mem, out) :: outs, st₂, ?_, .cons hshows hall, hholds, by rw [hsize', hsize]⟩
    exact Option.bind_eq_some_iff.mpr ⟨(outs, st₂), hmore, rfl⟩

/-! ## More data -/

/-- **What is read goes behind the data.** -/
theorem populateLineBuffer_eq {lineBuffer : Nat} {st : LineBuffer} {pending : List UInt8}
    (h : Holds lineBuffer st pending) (fd : Descriptor) {numBytes : Nat}
    (hnumBytes : numBytes = fd.available (BUFFER_SIZE - st.size)) :
    ∃ st', populateLineBuffer lineBuffer st fd =
        (numBytes, st', ⟨fd.rest.drop numBytes, fun i => fd.chunks (i + 1)⟩) ∧
      Holds lineBuffer st' (pending ++ fd.rest.take numBytes) ∧ st'.size = st.size + numBytes := by
  have hsize : st.size ≤ 4072 := h.size
  have hlength := h.length
  have hcount : (BUFFER_SIZE + 2 ^ 32 - st.size) % 2 ^ 32 = BUFFER_SIZE - st.size := by
    unfold BUFFER_SIZE
    omega
  have hle : numBytes ≤ 4072 - st.size ∧ numBytes ≤ fd.rest.length := by
    rw [hnumBytes]
    unfold Descriptor.available BUFFER_SIZE
    omega
  have htake : (fd.rest.take numBytes).length = numBytes := List.length_take_of_le hle.2
  have hrun : populateLineBuffer lineBuffer st fd = (numBytes,
      { st with
        mem := storeBytes st.mem (lineBuffer + st.size) (fd.rest.take numBytes)
        size := st.size + numBytes },
      ⟨fd.rest.drop numBytes, fun i => fd.chunks (i + 1)⟩) := by
    have hstart : (if st.size = 0 then (lineBuffer, BUFFER_SIZE)
        else (lineBuffer + st.size, (BUFFER_SIZE + 2 ^ 32 - st.size) % 2 ^ 32)) =
          (lineBuffer + st.size, BUFFER_SIZE - st.size) := by
      rw [hcount]
      split
      next hzero => rw [hzero]; rfl
      next _ => rfl
    unfold populateLineBuffer read
    rw [hstart]
    dsimp only
    rw [← hnumBytes, htake, Nat.mod_eq_of_lt (by omega)]
  refine ⟨_, hrun, ⟨?_, ?_, ?_⟩, rfl⟩
  · show st.size + numBytes ≤ 4072
    omega
  · rw [List.length_append, htake, ← Nat.add_assoc, hlength]
  · have hstore := @bytesAt_storeBytes st.mem (lineBuffer + st.length) pending
      (fd.rest.take numBytes) [] h.bytes
    rw [List.append_nil, Nat.add_assoc, hlength] at hstore
    exact hstore

/-! ## All reads -/

/-- How much of a stream was read, and how far the buffer is filled. -/
structure Progress where
  pos : Nat
  fill : Nat
deriving DecidableEq

/-- It after so many reads. -/
def progress (stream : List UInt8) (chunks : Nat → Nat) : Nat → Progress
  | 0 => ⟨0, 0⟩
  | i + 1 =>
    let before := progress stream chunks i
    let numBytes := min (min (BUFFER_SIZE - before.fill) (stream.length - before.pos)) (chunks i + 1)
    { pos := before.pos + numBytes
      fill := fillAfter (before.fill + numBytes)
        (tailLength NEWLINE (stream.take (before.pos + numBytes))) }

/-- After so many reads: these lines were taken, and this part of a line is left. -/
structure Reading (lineBuffer : Nat) (stream : List UInt8) (chunks : Nat → Nat) (i : Nat)
    (st : LineBuffer) (fd : Descriptor) (lines : List (List UInt8)) (tail : List UInt8) : Prop where
  holds : Holds lineBuffer st tail
  fill : st.size = (progress stream chunks i).fill
  rest : fd.rest = stream.drop (progress stream chunks i).pos
  more : fd.chunks = fun j => chunks (i + j)
  taken : stream.take (progress stream chunks i).pos = joinLines NEWLINE lines tail
  noNewline : ∀ line ∈ lines, NEWLINE ∉ line
  tailNoNewline : NEWLINE ∉ tail

section

variable {lineBuffer : Nat} {stream : List UInt8} {chunks : Nat → Nat}

theorem reading_init (mem : Mem) :
    Reading lineBuffer stream chunks 0 (initLineBuffer mem lineBuffer) ⟨stream, chunks⟩ [] [] where
  holds := ⟨Nat.zero_le _, rfl, rfl⟩
  fill := rfl
  rest := rfl
  more := funext fun j => by rw [Nat.zero_add]
  taken := rfl
  noNewline := List.forall_mem_nil _
  tailNoNewline := List.not_mem_nil

/-- **One read, and the lines that are complete then.** -/
theorem Reading.step {i : Nat} {st : LineBuffer} {fd : Descriptor} {lines : List (List UInt8)}
    {tail : List UInt8} (h : Reading lineBuffer stream chunks i st fd lines tail) (hnul : 0 ∉ stream)
    {numBytes fuel : Nat} (hnumBytes : numBytes = fd.available (BUFFER_SIZE - st.size))
    (hfuel : fd.rest.length < fuel) :
    ∃ st₁ st₂ fd' outs more tail',
      populateLineBuffer lineBuffer st fd = (numBytes, st₁, fd') ∧
        getLines lineBuffer fuel st₁ = some (outs, st₂) ∧ List.Forall₂ Shows outs more ∧
        Reading lineBuffer stream chunks (i + 1) st₂ fd' (lines ++ more) tail' ∧
        fd'.rest.length + numBytes = fd.rest.length ∧
        tail ++ fd.rest.take numBytes = joinLines NEWLINE more tail' := by
  obtain ⟨st₁, hpopulate, hholds, hsize⟩ := populateLineBuffer_eq h.holds fd hnumBytes
  obtain ⟨more, tail', hsplit, hmore, htail'⟩ := exists_joinLines NEWLINE (tail ++ fd.rest.take numBytes)
  have hle : numBytes ≤ fd.rest.length := by
    rw [hnumBytes]
    unfold Descriptor.available
    omega
  -- all these bytes are from the stream
  have hstream : stream = joinLines NEWLINE lines tail ++ fd.rest := by
    rw [← h.taken, h.rest, List.take_append_drop]
  have hbytes : 0 ∉ joinLines NEWLINE more tail' := by
    rw [← hsplit]
    intro hmem
    refine hnul ?_
    rw [hstream]
    rcases List.mem_append.mp hmem with hmem | hmem
    · exact List.mem_append_left _ (List.mem_append_right _ hmem)
    · exact List.mem_append_right _ (List.mem_of_mem_take hmem)
  have hcount : more.length ≤ numBytes := by
    have hcount := count_joinLines NEWLINE hmore htail'
    rw [← hsplit, List.count_append, List.count_eq_zero.mpr h.tailNoNewline, Nat.zero_add] at hcount
    rw [← hcount]
    exact Nat.le_trans List.count_le_length (List.length_take_le ..)
  rw [hsplit] at hholds
  obtain ⟨outs, st₂, hlines, hshows, hholds', hsize'⟩ := @getLines_eq lineBuffer more tail' fuel st₁
    (by omega) hholds
    (fun line hline hmem => hbytes (List.mem_append_left _ (List.mem_flatMap.mpr
      ⟨line, hline, List.mem_append_left _ hmem⟩)))
    hmore (fun hmem => hbytes (List.mem_append_right _ hmem)) htail'
  have hprogress : progress stream chunks (i + 1) =
      { pos := (progress stream chunks i).pos + numBytes
        fill := fillAfter ((progress stream chunks i).fill + numBytes)
          (tailLength NEWLINE (stream.take ((progress stream chunks i).pos + numBytes))) } := by
    rw [hnumBytes, Descriptor.available, h.rest, h.more, h.fill, List.length_drop]
    rfl
  have htaken : stream.take ((progress stream chunks i).pos + numBytes) =
      joinLines NEWLINE (lines ++ more) tail' := by
    rw [List.take_add, h.taken, ← h.rest, joinLines_tail, hsplit, joinLines_append]
  refine ⟨st₁, st₂, _, outs, more, tail', hpopulate, hlines, hshows, ⟨hholds', ?_, ?_, ?_, ?_, ?_, htail'⟩,
    ?_, hsplit⟩
  · rw [hprogress, htaken, tailLength_joinLines NEWLINE _ htail', hsize', hsize, h.fill]
  · rw [hprogress, h.rest, List.drop_drop]
  · rw [h.more]
    funext j
    rw [Nat.add_assoc, Nat.add_comm 1 j]
  · rw [hprogress, htaken]
  · exact List.forall_mem_append.mpr ⟨h.noNewline, hmore⟩
  · rw [List.length_drop]
    omega

/-- **All reads.** The loop ends when the buffer is full or the stream is at its end, and yields
the lines that are complete there. -/
theorem Reading.run {fuel : Nat} :
    ∀ {i : Nat} {st : LineBuffer} {fd : Descriptor} {lines : List (List UInt8)} {tail : List UInt8},
      Reading lineBuffer stream chunks i st fd lines tail → 0 ∉ stream → fd.rest.length + 1 < fuel →
      ∃ outs more k tail', readLines lineBuffer fuel st fd = some outs ∧ List.Forall₂ Shows outs more ∧
        (∀ j, i ≤ j → j < k → (progress stream chunks j).fill ≠ BUFFER_SIZE) ∧
        ((progress stream chunks k).fill = BUFFER_SIZE ∨
          stream.length ≤ (progress stream chunks k).pos) ∧
        stream.take (progress stream chunks k).pos = joinLines NEWLINE (lines ++ more) tail' ∧
        (∀ line ∈ lines ++ more, NEWLINE ∉ line) ∧ NEWLINE ∉ tail' := by
  induction fuel with
  | zero => exact fun _ _ hfuel => absurd hfuel (Nat.not_lt_zero _)
  | succ fuel ih =>
    intro i st fd lines tail h hnul hfuel
    have hsize : st.size ≤ BUFFER_SIZE := h.holds.size
    obtain ⟨st₁, st₂, fd', outs, more, tail', hpopulate, hlines, hshows, hnext, hrest, hsplit⟩ :=
      @Reading.step lineBuffer stream chunks i st fd lines tail h hnul _ fuel rfl (by omega)
    rw [readLines]
    by_cases hzero : fd.available (BUFFER_SIZE - st.size) = 0
    · -- nothing was read
      rw [hzero, List.take_zero, List.append_nil] at hsplit
      obtain ⟨hmore, -⟩ := joinLines_injective NEWLINE (List.forall_mem_nil _)
        (fun line hline => hnext.noNewline line (List.mem_append_right _ hline)) h.tailNoNewline
        hnext.tailNoNewline ((joinLines_nil NEWLINE tail).trans hsplit)
      rw [← hmore] at hshows
      refine ⟨outs, [], i, tail, ?_, hshows, fun j hle hlt => absurd hle (Nat.not_le_of_lt hlt), ?_,
        by rw [List.append_nil]; exact h.taken, by rw [List.append_nil]; exact h.noNewline,
        h.tailNoNewline⟩
      · rw [hpopulate]
        refine Option.bind_eq_some_iff.mpr ⟨(outs, st₂), hlines, ?_⟩
        exact if_pos hzero
      · unfold Descriptor.available at hzero
        rw [h.rest, List.length_drop] at hzero
        rw [← h.fill]
        omega
    · obtain ⟨outs', more', k, tail'', hrun, hshows', hnotFull, hend, htaken, hnoNewline, htail''⟩ :=
        ih hnext hnul (by omega)
      refine ⟨outs ++ outs', more ++ more', k, tail'', ?_, List.rel_append hshows hshows', ?_, hend, ?_, ?_,
        htail''⟩
      · rw [hpopulate]
        refine Option.bind_eq_some_iff.mpr ⟨(outs, st₂), hlines, ?_⟩
        refine (if_neg hzero).trans (Option.bind_eq_some_iff.mpr ⟨outs', hrun, rfl⟩)
      · intro j hle hlt
        rcases Nat.eq_or_lt_of_le hle with rfl | hlt'
        · rw [← h.fill]
          unfold Descriptor.available at hzero
          omega
        · exact hnotFull j hlt' hlt
      · rw [htaken, List.append_assoc]
      · rw [← List.append_assoc]
        exact hnoNewline

/-! ## When all lines come out -/

theorem pos_le (i : Nat) : (progress stream chunks i).pos ≤ stream.length := by
  induction i with
  | zero => exact Nat.zero_le _
  | succ i ih =>
    show (progress stream chunks i).pos + min (min _ (stream.length - _)) _ ≤ _
    omega

theorem pos_mono {i j : Nat} (h : i ≤ j) :
    (progress stream chunks i).pos ≤ (progress stream chunks j).pos := by
  induction j, h using Nat.le_induction with
  | base => exact Nat.le_refl _
  | succ j _ ih => exact Nat.le_trans ih (Nat.le_add_right _ _)

/-- Where the stream ends, all lines came out; before that, at least one is missing. -/
theorem eq_of_taken {lines more : List (List UInt8)} {tail : List UInt8} {pos : Nat}
    (hlines : ∀ line ∈ lines, NEWLINE ∉ line) (hmore : ∀ line ∈ more, NEWLINE ∉ line)
    (htail : NEWLINE ∉ tail)
    (htaken : (joinLines NEWLINE lines []).take pos = joinLines NEWLINE more tail) :
    (joinLines NEWLINE lines []).length ≤ pos ↔ more.length = lines.length := by
  have hcount := @count_joinLines _ NEWLINE _ lines [] hlines List.not_mem_nil
  constructor
  · intro hpos
    rw [List.take_of_length_le hpos] at htaken
    rw [htaken, count_joinLines NEWLINE hmore htail] at hcount
    exact hcount
  · intro hlength
    by_contra hpos
    -- the last newline was not read
    have hrest : ((joinLines NEWLINE lines []).drop pos).count NEWLINE = 0 := by
      rw [← List.take_append_drop pos (joinLines NEWLINE lines []), List.count_append, htaken,
        count_joinLines NEWLINE hmore htail] at hcount
      omega
    have hne : lines ≠ [] := by
      rintro rfl
      exact hpos (Nat.zero_le _)
    have hlast := getLast?_joinLines NEWLINE hne
    rw [← List.take_append_drop pos (joinLines NEWLINE lines []), List.getLast?_append] at hlast
    have hdrop : (joinLines NEWLINE lines []).drop pos ≠ [] :=
      List.ne_nil_of_length_pos (by rw [List.length_drop]; omega)
    rw [List.getLast?_eq_some_getLast hdrop] at hlast
    refine List.count_eq_zero.mp hrest ?_
    have hmem := List.getLast_mem hdrop
    rw [Option.some.inj hlast] at hmem
    exact hmem

end

/-! ## More fuel -/

theorem getLines_mono {lineBuffer fuel : Nat} :
    ∀ {st : LineBuffer} {result : List (Mem × Line) × LineBuffer},
      getLines lineBuffer fuel st = some result → getLines lineBuffer (fuel + 1) st = some result := by
  induction fuel with
  | zero => intro st result h; cases h
  | succ fuel ih =>
    intro st result h
    rw [getLines] at h ⊢
    split at h
    next st' hline => exact h
    next line st' hline =>
      obtain ⟨more, hmore, hresult⟩ := Option.bind_eq_some_iff.mp h
      exact Option.bind_eq_some_iff.mpr ⟨more, ih hmore, hresult⟩

theorem readLines_mono {lineBuffer fuel : Nat} :
    ∀ {st : LineBuffer} {fd : Descriptor} {outs : List (Mem × Line)},
      readLines lineBuffer fuel st fd = some outs → readLines lineBuffer (fuel + 1) st fd = some outs := by
  induction fuel with
  | zero => intro st fd outs h; cases h
  | succ fuel ih =>
    intro st fd outs h
    rw [readLines] at h ⊢
    generalize populateLineBuffer lineBuffer st fd = populated at h ⊢
    obtain ⟨numBytes, st₁, fd'⟩ := populated
    obtain ⟨lines, hlines, hrest⟩ := Option.bind_eq_some_iff.mp h
    refine Option.bind_eq_some_iff.mpr ⟨lines, getLines_mono hlines, ?_⟩
    by_cases hzero : numBytes = 0
    · exact (if_pos hzero).trans ((if_pos hzero).symm.trans hrest)
    · obtain ⟨more, hmore, houts⟩ := Option.bind_eq_some_iff.mp ((if_neg hzero).symm.trans hrest)
      exact (if_neg hzero).trans (Option.bind_eq_some_iff.mpr ⟨more, ih hmore, houts⟩)

/-- Two runs that end yield the same. -/
theorem readLines_unique {lineBuffer fuel fuel' : Nat} {st : LineBuffer} {fd : Descriptor}
    {outs outs' : List (Mem × Line)} (h : readLines lineBuffer fuel st fd = some outs)
    (h' : readLines lineBuffer fuel' st fd = some outs') : outs = outs' := by
  have hmono {fuel more : Nat} {outs : List (Mem × Line)}
      (h : readLines lineBuffer fuel st fd = some outs) :
      readLines lineBuffer (fuel + more) st fd = some outs := by
    induction more with
    | zero => exact h
    | succ more ih => exact readLines_mono ih
  have heq := @hmono fuel fuel' outs h
  rw [Nat.add_comm, @hmono fuel' fuel outs' h'] at heq
  exact (Option.some.inj heq).symm

/-- What a caller gets are the lines. -/
def YieldsLines (lineBuffer : Nat) (st : LineBuffer) (fd : Descriptor) (lines : List (List UInt8)) :
    Prop :=
  ∃ fuel outs, readLines lineBuffer fuel st fd = some outs ∧ List.Forall₂ Shows outs lines

/-- The buffer is full only at the end of the stream. -/
def NeverFull (stream : List UInt8) (chunks : Nat → Nat) : Prop :=
  ∀ i, (progress stream chunks i).fill = BUFFER_SIZE → (progress stream chunks i).pos = stream.length

/-- A run that is not stopped by a full buffer yields all lines, and no other does. -/
theorem yieldsLines_iff {lines : List (List UInt8)}
    (h : ∀ line ∈ lines, 0 ∉ line ∧ NEWLINE ∉ line) (chunks : Nat → Nat) (mem : Mem)
    (lineBuffer : Nat) :
    YieldsLines lineBuffer (initLineBuffer mem lineBuffer) ⟨joinLines NEWLINE lines [], chunks⟩ lines ↔
      NeverFull (joinLines NEWLINE lines []) chunks := by
  have hnul : 0 ∉ joinLines NEWLINE lines [] := by
    intro hmem
    obtain ⟨line, hline, hc⟩ := List.mem_flatMap.mp (by rwa [joinLines, List.append_nil] at hmem)
    rcases List.mem_append.mp hc with hc | hc
    · exact (h line hline).1 hc
    · exact absurd hc (by decide)
  have hnewline : ∀ line ∈ lines, NEWLINE ∉ line := fun line hline => (h line hline).2
  obtain ⟨outs, more, k, tail, hrun, hshows, hnotFull, hend, htaken, hmore, htail⟩ :=
    (@reading_init lineBuffer (joinLines NEWLINE lines []) chunks mem).run hnul (Nat.lt_succ_self _)
  rw [List.nil_append] at htaken hmore
  have hlength := eq_of_taken hnewline hmore htail htaken
  constructor
  · rintro ⟨fuel, outs', hrun', hshows'⟩ i hfull
    obtain rfl := readLines_unique hrun hrun'
    have hpos := hlength.mpr (hshows.length_eq.symm.trans hshows'.length_eq)
    rcases Nat.lt_or_ge i k with hlt | hge
    · exact absurd hfull (hnotFull i (Nat.zero_le i) hlt)
    · exact Nat.le_antisymm (pos_le i) (Nat.le_trans hpos (pos_mono hge))
  · intro hfull
    have hpos : (joinLines NEWLINE lines []).length ≤
        (progress (joinLines NEWLINE lines []) chunks k).pos :=
      hend.elim (fun h => Nat.le_of_eq (hfull k h).symm) id
    rw [List.take_of_length_le hpos] at htaken
    obtain ⟨rfl, -⟩ := joinLines_injective NEWLINE hnewline hmore List.not_mem_nil htail htaken
    exact ⟨_, outs, hrun, hshows⟩

/-- **When all lines come out**, for lines that fit into the buffer. -/
theorem readLines_iff {lines : List (List UInt8)}
    (h : ∀ line ∈ lines, 0 ∉ line ∧ NEWLINE ∉ line ∧ line.length < BUFFER_SIZE)
    (chunks : Nat → Nat) (mem : Mem) (lineBuffer : Nat) :
    YieldsLines lineBuffer (initLineBuffer mem lineBuffer) ⟨joinLines NEWLINE lines [], chunks⟩ lines ↔
      NeverFull (joinLines NEWLINE lines []) chunks :=
  yieldsLines_iff (fun line hline => ⟨(h line hline).1, (h line hline).2.1⟩) chunks mem lineBuffer

/-- Two short lines, four bytes at a time. -/
theorem readLines_iff_twoLines :
    YieldsLines 16 (initLineBuffer (fun _ => 0x58) 16)
        ⟨joinLines NEWLINE [[0x61, 0x62], [0x63]] [], fun _ => 3⟩ [[0x61, 0x62], [0x63]] ↔
      NeverFull (joinLines NEWLINE [[0x61, 0x62], [0x63]] []) fun _ => 3 :=
  readLines_iff (by decide) (fun _ => 3) (fun _ => 0x58) 16

/-- A line that fills the buffer, read in one piece. -/
theorem progress_full {line : List UInt8} (hlength : line.length = 4071)
    (rest : List (List UInt8)) :
    progress (joinLines NEWLINE (line :: rest) []) (fun _ => 4071) 1 = ⟨BUFFER_SIZE, BUFFER_SIZE⟩ := by
  have hstream : (joinLines NEWLINE (line :: rest) []).length =
      4072 + (joinLines NEWLINE rest []).length := by
    rw [joinLines_cons, List.length_append, List.length_cons, hlength]
    omega
  have htake : (joinLines NEWLINE (line :: rest) []).take BUFFER_SIZE = joinLines NEWLINE [line] [] := by
    rw [joinLines_cons, joinLines_cons, ← List.singleton_append, ← List.append_assoc]
    refine List.take_left' ?_
    rw [List.length_append, hlength]
    rfl
  have hmin : min (min BUFFER_SIZE (4072 + (joinLines NEWLINE rest []).length - 0)) (4071 + 1) =
      BUFFER_SIZE := by
    unfold BUFFER_SIZE
    omega
  rw [progress, progress, hstream]
  show Progress.mk (0 + min (min BUFFER_SIZE _) (4071 + 1))
    (fillAfter (0 + min (min BUFFER_SIZE _) (4071 + 1))
      (tailLength NEWLINE (List.take (0 + min (min BUFFER_SIZE _) (4071 + 1)) _))) = _
  rw [hmin, Nat.zero_add, htake, tailLength_joinLines NEWLINE _ List.not_mem_nil]
  rfl

/-- **A full buffer that ends with a line**: the line behind it does not come out. -/
theorem readLines_full :
    ¬ ∀ (lines : List (List UInt8)) (chunks : Nat → Nat) (mem : Mem) (lineBuffer : Nat),
      (∀ line ∈ lines, 0 ∉ line ∧ NEWLINE ∉ line ∧ line.length < BUFFER_SIZE) →
      YieldsLines lineBuffer (initLineBuffer mem lineBuffer) ⟨joinLines NEWLINE lines [], chunks⟩
        lines := by
  intro h
  obtain ⟨line, hline, hlength⟩ : ∃ line : List UInt8, (∀ c ∈ line, c = 0x61) ∧ line.length = 4071 :=
    ⟨List.replicate 4071 0x61, fun _ => List.eq_of_mem_replicate, List.length_replicate⟩
  have hnewline : NEWLINE ∉ line := fun hmem => absurd (hline _ hmem) (by decide)
  have hlines : ∀ l ∈ [line, [0x62]], 0 ∉ l ∧ NEWLINE ∉ l ∧ l.length < BUFFER_SIZE := by
    refine List.forall_mem_cons.mpr ⟨⟨fun hmem => absurd (hline _ hmem) (by decide), hnewline, ?_⟩, by decide⟩
    rw [hlength]
    decide
  have hnever := (yieldsLines_iff (fun l hl => ⟨(hlines l hl).1, (hlines l hl).2.1⟩)
    (fun _ => 4071) (fun _ => 0) 0).mp (h _ (fun _ => 4071) (fun _ => 0) 0 hlines) 1
  rw [progress_full hlength, joinLines_cons, List.length_append, hlength] at hnever
  exact absurd (hnever rfl) (by decide)

end DevopsBroker.Text
