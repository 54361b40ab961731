import DevopsBroker.Text.LineBuffer

/-!
# Lines of a file buffer

`getLineFromFileBuffer` counts the bytes of the data down to zero behind each of them, so that it
ends with the data unless there is none to start with: then it goes through what an earlier use of
the page has left. **`getLineFromFileBuffer_iff`**.
-/

namespace DevopsBroker.Text

open DevopsBroker.Io (FileBuffer)
open DevopsBroker.Lang DevopsBroker.Lib

/-! ## The search -/

/-- A character that is neither a `NUL` nor a newline: the next one is in the low byte. -/
theorem fileNewline_next {mem : Mem} {ecx rax r8b rsi edx : Nat} (hr8b : 0 < r8b)
    (hrax : rax = littleEndian (bytesAt mem rsi r8b)) (hnul : mem rsi ≠ 0)
    (hnewline : mem rsi ≠ NEWLINE) (hedx : edx + 1 < 2 ^ 32) :
    ∃ rax' r8b', 0 < r8b' ∧ rax' = littleEndian (bytesAt mem (rsi + 1) r8b') ∧
      fileNewline mem (ecx + 1) rax r8b rsi edx = fileNewline mem ecx rax' r8b' (rsi + 1) (edx + 1) := by
  obtain ⟨m, rfl⟩ : ∃ m, r8b = m + 1 := ⟨r8b - 1, by omega⟩
  rw [bytesAt_succ] at hrax
  have hch : lowByte rax = mem rsi := by rw [hrax, lowByte_littleEndian, List.headD_cons]
  have hrest : rax / 256 = littleEndian (bytesAt mem (rsi + 1) m) := by
    rw [hrax, littleEndian_shift, List.tail_cons]
  rw [fileNewline, hch, if_neg hnul, if_neg hnewline, Nat.mod_eq_of_lt hedx]
  cases m with
  | zero => exact ⟨_, 8, by omega, orBytes_eq_littleEndian mem 8 _, if_neg (by omega)⟩
  | succ m => exact ⟨_, m + 1, Nat.succ_pos m, hrest, if_pos (by omega)⟩

/-- **Without a newline none is found.** -/
theorem fileNewline_none {mem : Mem} {ecx : Nat} :
    ∀ {rax r8b rsi edx : Nat}, 0 < r8b → rax = littleEndian (bytesAt mem rsi r8b) →
      0 ∉ bytesAt mem rsi ecx → NEWLINE ∉ bytesAt mem rsi ecx →
      edx + ecx < 2 ^ 32 → fileNewline mem ecx rax r8b rsi edx = none := by
  induction ecx with
  | zero => exact fun _ _ _ _ _ => rfl
  | succ ecx ih =>
    intro rax r8b rsi edx hr8b hrax hnul hnewline hedx
    rw [bytesAt_succ, List.mem_cons, not_or] at hnul hnewline
    obtain ⟨rax', r8b', hr8b', hrax', hnext⟩ := @fileNewline_next mem ecx rax r8b rsi edx hr8b hrax
      (Ne.symm hnul.1) (Ne.symm hnewline.1) (by omega)
    rw [hnext]
    exact ih hr8b' hrax' hnul.2 hnewline.2 (by omega)

/-- **The first newline is found.** -/
theorem fileNewline_some {mem : Mem} {line : List UInt8} :
    ∀ {ecx rax r8b rsi edx : Nat} {rest : List UInt8}, 0 < r8b →
      rax = littleEndian (bytesAt mem rsi r8b) →
      bytesAt mem rsi ecx = line ++ NEWLINE :: rest → 0 ∉ line → NEWLINE ∉ line →
      edx + ecx < 2 ^ 32 →
      fileNewline mem ecx rax r8b rsi edx = some (rsi + line.length, edx + line.length) := by
  induction line with
  | nil =>
    intro ecx rax r8b rsi edx rest hr8b hrax hbytes _ _ _
    obtain ⟨m, rfl⟩ : ∃ m, r8b = m + 1 := ⟨r8b - 1, by omega⟩
    cases ecx with
    | zero => cases hbytes
    | succ ecx =>
      rw [bytesAt_succ] at hrax hbytes
      have hch : lowByte rax = NEWLINE := by
        rw [hrax, lowByte_littleEndian, List.headD_cons]
        exact (List.cons.inj hbytes).1
      rw [fileNewline, hch, if_neg (by decide), if_pos rfl]
      rfl
  | cons c line ih =>
    intro ecx rax r8b rsi edx rest hr8b hrax hbytes hnul hnewline hedx
    rw [List.mem_cons, not_or] at hnul hnewline
    cases ecx with
    | zero => cases hbytes
    | succ ecx =>
      rw [bytesAt_succ] at hbytes
      obtain ⟨hc, hrest⟩ := List.cons.inj hbytes
      obtain ⟨rax', r8b', hr8b', hrax', hnext⟩ := @fileNewline_next mem ecx rax r8b rsi edx hr8b hrax
        (by rw [hc]; exact Ne.symm hnul.1) (by rw [hc]; exact Ne.symm hnewline.1) (by omega)
      rw [hnext, ih hr8b' hrax' hrest hnul.2 hnewline.2 (by omega), List.length_cons]
      congr 2 <;> omega

/-! ## The line -/

/-- What the next line of some data is: the line up to the first newline, with a `NUL` in place of
the newline and nothing else written, or none where there is no newline. -/
def TakesLine (mem : Mem) (p : Nat) (data : List UInt8) (result : Option Line × Mem) : Prop :=
  (NEWLINE ∉ data → result = (none, mem)) ∧
    ∀ line rest, data = line ++ NEWLINE :: rest → NEWLINE ∉ line →
      result.1 = some ⟨p, line.length⟩ ∧ TextAt result.2 p line ∧
        ∀ a, a ≠ p + line.length → result.2 a = mem a

section

variable {fileBuffer : FileBuffer} {data : List UInt8}

/-- The data of a file buffer that was not taken yet. -/
def HasData (mem : Mem) (fileBuffer : FileBuffer) (data : List UInt8) : Prop :=
  bytesAt mem (fileBuffer.buffer + fileBuffer.dataOffset) data.length = data

/-- What a call takes from the data. It does not depend on what is behind `numBytes`, and leaves it
alone. -/
structure TakesFileLine (fileBuffer : FileBuffer) (data : List UInt8) : Prop where
  takes : ∀ mem, HasData mem fileBuffer data →
    TakesLine mem (fileBuffer.buffer + fileBuffer.dataOffset) data
      (getLineFromFileBuffer mem fileBuffer)
  same : ∀ mem mem', HasData mem fileBuffer data → HasData mem' fileBuffer data →
    (getLineFromFileBuffer mem fileBuffer).1 = (getLineFromFileBuffer mem' fileBuffer).1
  keeps : ∀ mem, HasData mem fileBuffer data → ∀ a, fileBuffer.buffer + fileBuffer.numBytes ≤ a →
    (getLineFromFileBuffer mem fileBuffer).2 a = mem a

/-- The rounds of the search. -/
theorem rounds_eq (hdata : fileBuffer.dataOffset + data.length = fileBuffer.numBytes)
    (hlt : fileBuffer.numBytes < 2 ^ 32) :
    (2 ^ 32 + fileBuffer.numBytes - fileBuffer.dataOffset) % 2 ^ 32 = data.length := by
  rw [← hdata, Nat.add_left_comm, Nat.add_sub_cancel_left, Nat.add_mod_left,
    Nat.mod_eq_of_lt (by omega)]

/-- **With some data** the next line is taken. -/
theorem getLineFromFileBuffer_line
    (hdata : fileBuffer.dataOffset + data.length = fileBuffer.numBytes)
    (hlt : fileBuffer.numBytes < 2 ^ 32) (hnul : 0 ∉ data) (hpos : 0 < data.length) {mem : Mem}
    (hbytes : HasData mem fileBuffer data) :
    TakesLine mem (fileBuffer.buffer + fileBuffer.dataOffset) data
      (getLineFromFileBuffer mem fileBuffer) := by
  unfold HasData at hbytes
  unfold getLineFromFileBuffer
  rw [rounds_eq hdata hlt]
  dsimp only
  rw [if_neg (Nat.ne_of_gt hpos)]
  refine ⟨fun hnewline => ?_, ?_⟩
  · rw [fileNewline_none (by decide) (orBytes_eq_littleEndian ..) (by rw [hbytes]; exact hnul)
      (by rw [hbytes]; exact hnewline) (by omega)]
  · rintro line rest rfl hnewline
    have hnulLine : 0 ∉ line := fun hmem => hnul (List.mem_append_left _ hmem)
    rw [fileNewline_some (by decide) (orBytes_eq_littleEndian ..) hbytes hnulLine hnewline (by omega),
      Nat.zero_add]
    rw [List.length_append, bytesAt_add] at hbytes
    obtain ⟨hline, _⟩ := List.append_inj hbytes (bytesAt_length ..)
    refine ⟨rfl, ⟨hnulLine, ?_⟩, fun a ha => if_neg ha⟩
    dsimp only
    rw [bytesAt_add, bytesAt_succ]
    refine congrArg₂ (· ++ ·) ((bytesAt_inj.mpr fun k hk => ?_).trans hline) ?_
    · exact if_neg (by omega)
    · exact congrArg (· :: []) (if_pos rfl)

/-- Where the next line of some data is known, so is everything about the call. -/
theorem takesFileLine_of_takes
    (hdata : fileBuffer.dataOffset + data.length = fileBuffer.numBytes)
    (h : ∀ mem, HasData mem fileBuffer data →
      TakesLine mem (fileBuffer.buffer + fileBuffer.dataOffset) data
        (getLineFromFileBuffer mem fileBuffer)) : TakesFileLine fileBuffer data := by
  by_cases hnewline : NEWLINE ∈ data
  · obtain ⟨line, rest, hsplit, hfirst⟩ := List.eq_append_cons_of_mem hnewline
    have hline {mem : Mem} (hmem : HasData mem fileBuffer data) := (h mem hmem).2 line rest hsplit hfirst
    refine ⟨h, fun mem mem' hmem hmem' => (hline hmem).1.trans (hline hmem').1.symm, ?_⟩
    intro mem hmem a ha
    refine (hline hmem).2.2 a ?_
    rw [hsplit, List.length_append, List.length_cons] at hdata
    omega
  · have hnone {mem : Mem} (hmem : HasData mem fileBuffer data) := (h mem hmem).1 hnewline
    refine ⟨h, fun mem mem' hmem hmem' => ?_, fun mem hmem a _ => ?_⟩
    · rw [hnone hmem, hnone hmem']
    · rw [hnone hmem]

/-- A newline at the start. -/
theorem fileNewline_start {mem : Mem} {ecx rsi : Nat} (hpos : 0 < ecx) (hnewline : mem rsi = NEWLINE) :
    fileNewline mem ecx (orBytes mem 8 rsi 0 0) 8 rsi 0 = some (rsi, 0) := by
  have hch : lowByte (orBytes mem 8 rsi 0 0) = NEWLINE := by
    rw [orBytes_eq_littleEndian, bytesAt_succ, lowByte_littleEndian, List.headD_cons, hnewline]
  cases ecx with
  | zero => exact absurd hpos (Nat.lt_irrefl 0)
  | succ ecx => rw [fileNewline, hch, if_neg (by decide), if_pos rfl]

/-- **Without data** a newline is taken from behind it. -/
theorem getLineFromFileBuffer_stale (hempty : fileBuffer.dataOffset = fileBuffer.numBytes) {mem : Mem}
    (hnewline : mem (fileBuffer.buffer + fileBuffer.dataOffset) = NEWLINE) :
    (getLineFromFileBuffer mem fileBuffer).1 =
      some ⟨fileBuffer.buffer + fileBuffer.dataOffset, 0⟩ := by
  have hecx : (2 ^ 32 + fileBuffer.numBytes - fileBuffer.dataOffset) % 2 ^ 32 = 0 := by
    rw [hempty, Nat.add_sub_cancel, Nat.mod_self]
  unfold getLineFromFileBuffer
  rw [hecx]
  dsimp only
  rw [if_pos rfl, fileNewline_start (Nat.two_pow_pos 32) hnewline]

/-- **A call is right exactly when there is some data.** -/
theorem getLineFromFileBuffer_iff
    (hdata : fileBuffer.dataOffset + data.length = fileBuffer.numBytes)
    (hlt : fileBuffer.numBytes < 2 ^ 32) (hnul : 0 ∉ data) :
    TakesFileLine fileBuffer data ↔ fileBuffer.dataOffset < fileBuffer.numBytes := by
  constructor
  · intro htakes
    by_contra hle
    obtain rfl : data = [] := List.length_eq_zero_iff.mp (by omega)
    have hnone := (htakes.takes (fun _ => NEWLINE) rfl).1 List.not_mem_nil
    have hstale := @getLineFromFileBuffer_stale fileBuffer hdata (fun _ => NEWLINE) rfl
    rw [hnone] at hstale
    cases hstale
  · intro hsome
    exact takesFileLine_of_takes hdata fun mem hmem =>
      getLineFromFileBuffer_line hdata hlt hnul (by omega) hmem

end

/-- `a` and a newline at the end of a page. -/
theorem getLineFromFileBuffer_iff_page :
    TakesFileLine ⟨0, 0, 4094, 4096⟩ [0x61, NEWLINE] ↔ 4094 < 4096 :=
  @getLineFromFileBuffer_iff ⟨0, 0, 4094, 4096⟩ [0x61, NEWLINE] rfl (by decide) (by decide)

/-- All data was taken, and the page has a newline from an earlier use: that is the next line. -/
theorem getLineFromFileBuffer_empty :
    (getLineFromFileBuffer (textMem [0x61, 0, NEWLINE]) ⟨0, 0, 2, 2⟩).1 = some ⟨2, 0⟩ ∧
      ¬ TakesFileLine ⟨0, 0, 2, 2⟩ [] := by
  have hrun : (getLineFromFileBuffer (textMem [0x61, 0, NEWLINE]) ⟨0, 0, 2, 2⟩).1 = some ⟨2, 0⟩ :=
    getLineFromFileBuffer_stale rfl rfl
  refine ⟨hrun, fun htakes => ?_⟩
  rw [(htakes.takes (textMem [0x61, 0, NEWLINE]) rfl).1 List.not_mem_nil] at hrun
  cases hrun

end DevopsBroker.Text
