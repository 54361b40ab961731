import DevopsBroker.Lang.StringBuilder
import DevopsBroker.Lib.Simulation

/-!
# `StringBuilder` against strings

As long as a call stays below `size`, or moves to a new buffer and ends just below it,
the builder holds the string that was appended, with a `NUL` behind it. `size` never
changes, so that a call that goes further leaves `length` at `size` or beyond; and a
builder without characters cannot grow at all. **`run_holds_iff`** is about whole runs.
-/

namespace DevopsBroker.Lang

open DevopsBroker.Lib

namespace StringBuilder

/-- The buffer has `size` bytes at least, and starts with some string. -/
structure Contains (b : StringBuilder) (string : List UInt8) : Prop where
  length : b.length = string.length
  bytes : bytesAt b.buffer.byte 0 b.length = string
  size_le : b.size ≤ b.buffer.size
  aligned : b.buffer.size % 16 = 0
  size_lt : b.size < 2 ^ 32

/-- The builder holds a string: a `NUL` follows, below `size`. -/
structure Holds (b : StringBuilder) (string : List UInt8) : Prop extends Contains b string where
  null : b.buffer.byte b.length = 0
  length_lt : b.length < b.size

/-- What it is to append a text: what the builder held stays, the text is behind it, and a `NUL`
behind that. -/
structure Appends (b b' : StringBuilder) (text : List UInt8) : Prop where
  length : b'.length = b.length + text.length
  bytes : bytesAt b'.buffer.byte 0 b'.length = bytesAt b.buffer.byte 0 b.length ++ text
  null : b'.buffer.byte b'.length = 0

/-! ## What every call keeps -/

theorem resizeStringBuilder_some {garbage : Mem} {b b' : StringBuilder} {newSize target : Nat}
    (h : resizeStringBuilder garbage b newSize = some (b', target)) :
    0 < b.length ∧ b'.length = b.length ∧ b'.size = b.size ∧ target = b.length := by
  unfold resizeStringBuilder at h
  cases hresize : resizeArray garbage (some b.buffer) b.length 1 newSize with
  | none =>
    rw [hresize] at h
    cases h
  | some buffer =>
    rw [hresize] at h
    cases h
    refine ⟨Nat.pos_of_ne_zero ?_, rfl, rfl, rfl⟩
    intro hzero
    rw [hzero, resizeArray_zero] at hresize
    cases hresize

theorem resizeIf_some {necessary : Prop} [Decidable necessary] {garbage : Mem}
    {b b' : StringBuilder} {target newSize target' : Nat}
    (h : resizeIf necessary garbage b target newSize = some (b', target')) :
    (necessary → 0 < b.length) ∧ b'.length = b.length ∧ b'.size = b.size := by
  unfold resizeIf at h
  split at h
  next _ =>
    obtain ⟨hpos, hlength, hsize, _⟩ := resizeStringBuilder_some h
    exact ⟨fun _ => hpos, hlength, hsize⟩
  next hroom =>
    cases h
    exact ⟨fun hfull => absurd hfull hroom, rfl, rfl⟩

/-- `append_char` adds one to the length, and leaves the size. -/
theorem appendChar_some {garbage : Mem} {b b' : StringBuilder} {ch : UInt8}
    (h : appendChar garbage b ch = some b') :
    b'.length = (b.length + 1) % 2 ^ 32 ∧ b'.size = b.size := by
  unfold appendChar at h
  simp only [Option.bind_eq_bind, Option.bind_eq_some_iff] at h
  obtain ⟨⟨b₁, target⟩, hgrow, buffer₁, _, buffer₂, _, hend⟩ := h
  cases hend
  obtain ⟨_, hlength, hsize⟩ := resizeIf_some hgrow
  exact ⟨by dsimp only; rw [hlength], hsize⟩

/-- `appendBytes` and `append_string_uint32` add the length of what is appended, and do
not come back for a builder without characters when it would have to grow. -/
theorem appendBytes_some {garbage : Mem} {b b' : StringBuilder} {bytes : List UInt8}
    (h : appendBytes garbage b bytes = some b') :
    (b.size ≤ (b.length + bytes.length + 1) % 2 ^ 32 → 0 < b.length) ∧
      b'.length = (b.length + bytes.length) % 2 ^ 32 ∧ b'.size = b.size := by
  unfold appendBytes at h
  simp only [Option.bind_eq_bind, Option.bind_eq_some_iff] at h
  obtain ⟨⟨b₁, target⟩, hgrow, buffer₁, _, buffer₂, _, hend⟩ := h
  cases hend
  obtain ⟨hpos, hlength, hsize⟩ := resizeIf_some hgrow
  exact ⟨hpos, by dsimp only; rw [hlength], hsize⟩

theorem appendString_uint32_eq (garbage : Mem) (b : StringBuilder) (source : List UInt8) :
    appendString_uint32 garbage b source = appendBytes garbage b source := by
  rfl

/-- The loop of `append_string` adds one to the length with every character. -/
theorem appendChars_some {garbage : Mem} (source : List UInt8) :
    ∀ {b b' : StringBuilder} {target target' : Nat}, 0 ∉ source →
      b.length + source.length < 2 ^ 32 →
      appendChars garbage b target source = some (b', target') →
      b'.length = b.length + source.length ∧ b'.size = b.size := by
  induction source with
  | nil =>
    intro b b' target target' _ _ h
    cases h
    exact ⟨rfl, rfl⟩
  | cons ch source ih =>
    intro b b' target target' hnull hlt h
    have hch : ch ≠ 0 := fun heq => hnull (heq ▸ List.mem_cons_self)
    have hrest : 0 ∉ source := fun hmem => hnull (List.mem_cons_of_mem _ hmem)
    rw [List.length_cons] at hlt
    unfold appendChars at h
    rw [if_neg hch] at h
    simp only [Option.bind_eq_bind, Option.bind_eq_some_iff] at h
    obtain ⟨⟨b₁, target₁⟩, hgrow, buffer, _, hloop⟩ := h
    obtain ⟨_, hlength₁, hsize₁⟩ := resizeIf_some hgrow
    -- whether it grows or not, the length moves on by one
    have hwrap : (b₁.length + 1) % 2 ^ 32 = b.length + 1 := by
      rw [hlength₁, Nat.mod_eq_of_lt (by omega)]
    rw [hwrap] at hloop
    obtain ⟨hlength, hsize⟩ := ih hrest (by dsimp only; omega) hloop
    dsimp only at hlength hsize
    rw [List.length_cons]
    exact ⟨by omega, hsize.trans hsize₁⟩

theorem appendString_some {garbage : Mem} {b b' : StringBuilder} {source : List UInt8}
    (hnull : 0 ∉ source) (hlt : b.length + source.length < 2 ^ 32)
    (h : appendString garbage b source = some b') :
    b'.length = b.length + source.length ∧ b'.size = b.size := by
  unfold appendString appendNull at h
  simp only [Option.bind_eq_bind, Option.bind_eq_some_iff] at h
  obtain ⟨⟨b₁, target₁⟩, hloop, ⟨b₂, target₂⟩, hgrow, buffer, _, hend⟩ := h
  cases hend
  obtain ⟨hlength, hsize⟩ := appendChars_some source hnull hlt hloop
  obtain ⟨_, hlength₂, hsize₂⟩ := resizeIf_some hgrow
  exact ⟨hlength₂.trans hlength, hsize₂.trans hsize⟩

/-! ## What a call does that fits -/

/-- **Storing characters and a `NUL` behind a string appends them.** -/
theorem store_holds {b : StringBuilder} {string : List UInt8} (h : b.Contains string)
    (bytes : List UInt8) (hfit : b.length + bytes.length < b.size) :
    ∃ buffer₁ buffer₂, b.buffer.storeBytes b.length bytes = some buffer₁ ∧
      buffer₁.storeByte (b.length + bytes.length) 0 = some buffer₂ ∧
      Holds ⟨buffer₂, b.length + bytes.length, b.size⟩ (string ++ bytes) := by
  have hsize := h.size_le
  obtain ⟨buffer₁, hstore, hsize₁, hkeep, hbytes⟩ := Block.storeBytes_eq bytes
    (by omega : b.length + bytes.length ≤ b.buffer.size)
  have hnull := Block.storeByte_eq
    (by omega : b.length + bytes.length < buffer₁.size) 0
  refine ⟨buffer₁, _, hstore, hnull, ?_⟩
  refine ⟨⟨?_, ?_, ?_, ?_, h.size_lt⟩, if_pos rfl, hfit⟩
  · dsimp only
    rw [List.length_append, h.length]
  · dsimp only
    -- the `NUL` is behind what is stored, and that behind the string
    have hfront : bytesAt (storeByte buffer₁.byte (b.length + bytes.length) 0) 0
        (b.length + bytes.length) = bytesAt buffer₁.byte 0 (b.length + bytes.length) :=
      bytesAt_congr fun i _ hi => if_neg (by omega)
    have hstring : bytesAt buffer₁.byte 0 b.length = string := by
      rw [← h.bytes]
      exact bytesAt_congr fun i _ hi => hkeep i (by omega)
    rw [hfront, bytesAt_add, hstring, Nat.zero_add, hbytes]
  · dsimp only
    omega
  · dsimp only
    rw [hsize₁]
    exact h.aligned

theorem appendChar_holds (garbage : Mem) {b : StringBuilder} {string : List UInt8}
    (h : b.Holds string) (ch : UInt8) (hfit : b.length + 1 < b.size) :
    ∃ b', appendChar garbage b ch = some b' ∧ b'.Holds (string ++ [ch]) := by
  have hlt := h.size_lt
  have hwrap : (b.length + 1) % 2 ^ 32 = b.length + 1 := Nat.mod_eq_of_lt (by omega)
  obtain ⟨buffer₁, buffer₂, hstore, hnull, hholds⟩ := store_holds h.toContains [ch] hfit
  have hbyte : b.buffer.storeByte b.length ch = some buffer₁ := by
    rw [← hstore]
    unfold Block.storeBytes
    cases b.buffer.storeByte b.length ch <;> rfl
  refine ⟨_, ?_, hholds⟩
  unfold appendChar resizeIf
  rw [hwrap, if_neg (by omega)]
  simp only [bind, Option.bind, hbyte]
  rw [List.length_singleton] at hnull
  rw [hnull]
  simp only [hwrap]
  rfl

/-- Where the new length is `size - 1`, the string moves to a new buffer. -/
theorem resizeStringBuilder_contains (garbage : Mem) {b : StringBuilder} {string : List UInt8}
    (h : b.Contains string) {newSize : Nat} (hpos : 0 < b.length) (hlen : b.length ≤ b.size)
    (hnew : b.size ≤ newSize) (hsmall : newSize < 2 ^ 32) :
    ∃ b', resizeStringBuilder garbage b newSize = some (b', b.length) ∧ b'.Contains string ∧
      b'.length = b.length ∧ b'.size = b.size := by
  have hsize := h.size_le
  obtain ⟨buffer, hresize, hbuffer, hbyte⟩ := resizeArray_eq garbage hpos (by omega : 0 < 1)
    (by omega : b.length ≤ newSize) (by omega) h.aligned (by omega)
  refine ⟨{ b with buffer := buffer }, ?_, ⟨h.length, ?_, ?_, ?_, h.size_lt⟩, rfl, rfl⟩
  · rw [resizeStringBuilder, hresize]
    rfl
  · dsimp only
    rw [← h.bytes]
    exact bytesAt_congr fun i _ hi => hbyte i (by omega)
  · dsimp only
    omega
  · dsimp only
    omega

theorem appendBytes_holds (garbage : Mem) {b : StringBuilder} {string : List UInt8}
    (h : b.Holds string) (bytes : List UInt8)
    (hsmall : b.length + bytes.length < 2 ^ 30)
    (hfit : b.length + bytes.length + 1 < b.size ∨
      (b.length + bytes.length + 1 = b.size ∧ 0 < b.length)) :
    ∃ b', appendBytes garbage b bytes = some b' ∧ b'.Holds (string ++ bytes) := by
  have hlt := h.size_lt
  have hwrap₁ : (b.length + bytes.length + 1) % 2 ^ 32 = b.length + bytes.length + 1 :=
    Nat.mod_eq_of_lt (by omega)
  have hwrap : (b.length + bytes.length) % 2 ^ 32 = b.length + bytes.length :=
    Nat.mod_eq_of_lt (by omega)
  -- the builder that the characters are stored into
  have hgrow : ∃ b₁, resizeIf (b.size ≤ b.length + bytes.length + 1) garbage b b.length
        ((b.length + bytes.length + 1 + (b.length + bytes.length + 1) / 2) % 2 ^ 32) =
          some (b₁, b.length) ∧
      b₁.Contains string ∧ b₁.length = b.length ∧ b₁.size = b.size := by
    unfold resizeIf
    split
    next hfull =>
      -- one character below the size: it grows already
      rw [Nat.mod_eq_of_lt (by omega)]
      exact resizeStringBuilder_contains garbage h.toContains (by omega) (by omega) (by omega)
        (by omega)
    next _ => exact ⟨b, rfl, h.toContains, rfl, rfl⟩
  obtain ⟨b₁, hresize, hcontains, hlength, hsize⟩ := hgrow
  obtain ⟨buffer₁, buffer₂, hstore, hnull, hholds⟩ := store_holds hcontains bytes (by omega)
  rw [hlength] at hstore hnull hholds
  refine ⟨_, ?_, hholds⟩
  unfold appendBytes
  simp only [hwrap₁, hresize, bind, Option.bind, hstore, hnull, hlength, hwrap]
  rfl

/-- The loop of `append_string` up to `size`: the characters are stored one after the
other. -/
theorem appendChars_map (garbage : Mem) (source : List UInt8) :
    ∀ {b : StringBuilder} {target : Nat}, 0 ∉ source →
      b.length + source.length ≤ b.size → b.size < 2 ^ 32 →
      appendChars garbage b target source =
        (b.buffer.storeBytes target source).map fun buffer =>
          (⟨buffer, b.length + source.length, b.size⟩, target + source.length) := by
  induction source with
  | nil => exact fun _ _ _ => rfl
  | cons ch source ih =>
    intro b target hnull hfit hlt
    have hch : ch ≠ 0 := fun heq => hnull (heq ▸ List.mem_cons_self)
    have hrest : 0 ∉ source := fun hmem => hnull (List.mem_cons_of_mem _ hmem)
    rw [List.length_cons] at hfit
    have hwrap : (b.length + 1) % 2 ^ 32 = b.length + 1 := Nat.mod_eq_of_lt (by omega)
    unfold appendChars resizeIf Block.storeBytes
    rw [if_neg hch, if_neg (by omega)]
    simp only [bind, Option.bind, hwrap]
    cases b.buffer.storeByte target ch with
    | none => rfl
    | some buffer₁ =>
      dsimp only
      rw [ih (b := ⟨buffer₁, b.length + 1, b.size⟩) hrest (by dsimp only; omega) hlt, List.length_cons]
      dsimp only
      rw [show b.length + 1 + source.length = b.length + (source.length + 1) by omega,
        show target + 1 + source.length = target + (source.length + 1) by omega]

theorem appendChars_eq (garbage : Mem) {source : List UInt8} {b : StringBuilder} {target : Nat}
    {buffer : Block} (hnull : 0 ∉ source) (hfit : b.length + source.length < b.size)
    (hlt : b.size < 2 ^ 32) (hstore : b.buffer.storeBytes target source = some buffer) :
    appendChars garbage b target source =
      some (⟨buffer, b.length + source.length, b.size⟩, target + source.length) := by
  rw [appendChars_map garbage source hnull (Nat.le_of_lt hfit) hlt, hstore]
  rfl

theorem appendString_holds (garbage : Mem) {b : StringBuilder} {string : List UInt8}
    (h : b.Holds string) {source : List UInt8} (hnull : 0 ∉ source)
    (hfit : b.length + source.length < b.size) :
    ∃ b', appendString garbage b source = some b' ∧ b'.Holds (string ++ source) := by
  obtain ⟨buffer₁, buffer₂, hstore, hend, hholds⟩ := store_holds h.toContains source hfit
  refine ⟨_, ?_, hholds⟩
  unfold appendString appendNull resizeIf
  simp only [bind, Option.bind, appendChars_eq garbage hnull hfit h.size_lt hstore]
  rw [if_neg (by omega)]
  simp only [hend]
  rfl

/-- Cutting a string: the `NUL` is stored at the new length. -/
theorem cut_holds {b : StringBuilder} {string : List UInt8} (h : b.Holds string) {n : Nat}
    (hn : n ≤ b.length) :
    ∃ buffer, b.buffer.storeByte n 0 = some buffer ∧
      Holds ⟨buffer, n, b.size⟩ (string.take n) := by
  have hsize := h.size_le
  have hlength := h.length_lt
  have hstring := h.length
  refine ⟨_, Block.storeByte_eq (by omega) 0, ?_⟩
  refine ⟨⟨?_, ?_, h.size_le, h.aligned, h.size_lt⟩, if_pos rfl, by dsimp only; omega⟩
  · dsimp only
    rw [List.length_take]
    omega
  · -- what is in front of the `NUL` stays
    have hfront : bytesAt (storeByte b.buffer.byte n 0) 0 n = bytesAt b.buffer.byte 0 n :=
      bytesAt_congr fun i _ hi => if_neg (by omega)
    have hsplit := bytesAt_add b.buffer.byte n (b.length - n) 0
    rw [Nat.add_sub_cancel' hn, h.bytes] at hsplit
    dsimp only
    rw [hfront, hsplit, List.take_append_of_le_length (by rw [bytesAt_length]),
      List.take_of_length_le (by rw [bytesAt_length])]

/-- A new builder holds the empty string. -/
theorem initStringBuilder_uint32_holds (garbage : Mem) (bufSize : UInt32)
    (hsize : 1 ≤ bufSize) :
    ∃ b, initStringBuilder_uint32 garbage bufSize = some b ∧ b.Holds [] ∧ b.length = 0 ∧
      b.size = bufSize.toNat := by
  have hpos : 1 ≤ bufSize.toNat := hsize
  have hlt := bufSize.toNat_lt
  have hbuffer := mallocArray_eq garbage (by omega : 1 * bufSize.toNat + 15 < 2 ^ 63)
  have hstore := Block.storeByte_eq (b := ⟨(1 * bufSize.toNat + 15) / 16 * 16, garbage⟩)
    (by dsimp only; omega : 0 < _) 0
  refine ⟨⟨⟨(1 * bufSize.toNat + 15) / 16 * 16, storeByte garbage 0 0⟩, 0, bufSize.toNat⟩, ?_,
    ⟨⟨rfl, rfl, ?_, Nat.mul_mod_left _ _, hlt⟩, rfl, hpos⟩, rfl, rfl⟩
  · unfold initStringBuilder_uint32
    rw [hbuffer]
    simp only [bind, Option.bind, hstore]
    rfl
  · dsimp only
    omega

end StringBuilder

/-! ## Runs -/

/-- A call on a builder. -/
inductive BuilderCall where
  | appendChar (ch : UInt8)
  | appendString (source : List UInt8)
  | appendBytes (bytes : List UInt8)
  | appendString_uint32 (source : List UInt8)
  | reduceLength (newLength : UInt32)
  | resetStringBuilder

namespace BuilderCall

/-- What a call appends. -/
def data : BuilderCall → List UInt8
  | .appendChar ch => [ch]
  | .appendString source => source
  | .appendBytes bytes => bytes
  | .appendString_uint32 source => source
  | .reduceLength _ => []
  | .resetStringBuilder => []

end BuilderCall

namespace StringBuilder

/-- A call, with what a buffer that it allocates holds. -/
def step (b : StringBuilder) : BuilderCall × Mem → Option (Unit × StringBuilder)
  | (.appendChar ch, garbage) => (appendChar garbage b ch).map fun b => ((), b)
  | (.appendString source, garbage) => (appendString garbage b source).map fun b => ((), b)
  | (.appendBytes bytes, garbage) => (appendBytes garbage b bytes).map fun b => ((), b)
  | (.appendString_uint32 source, garbage) =>
    (appendString_uint32 garbage b source).map fun b => ((), b)
  | (.reduceLength newLength, _) => (reduceLength b newLength.toNat).map fun b => ((), b)
  | (.resetStringBuilder, _) => (resetStringBuilder b).map fun b => ((), b)

/-- The same call on a string. -/
def stringStep (string : List UInt8) : BuilderCall × Mem → Unit × List UInt8
  | (.reduceLength newLength, _) => ((), string.take newLength.toNat)
  | (.resetStringBuilder, _) => ((), [])
  | (call, _) => ((), string ++ call.data)

/-- The calls looked at: data without a `NUL`, and less than `2 ^ 30` of it. -/
def Legal (string : List UInt8) (call : BuilderCall × Mem) : Prop :=
  0 ∉ call.1.data ∧ (string ++ call.1.data).length < 2 ^ 30

/-- What a builder shows of its string. -/
def Shows (b : StringBuilder) (string : List UInt8) : Prop :=
  b.length = string.length ∧ bytesAt b.buffer.byte 0 b.length = string ∧
    b.buffer.byte b.length = 0 ∧ b.length < b.size ∧ b.size ≤ b.buffer.size

/-- A call that stays below the size; `appendBytes` and `append_string_uint32` move to
a new buffer one character before that, which takes some characters to move. -/
def Fits (b : StringBuilder) : BuilderCall × Mem → Prop
  | (.appendChar _, _) => b.length + 1 < b.size
  | (.appendString source, _) => b.length + source.length < b.size
  | (.appendBytes bytes, _) =>
    b.length + bytes.length + 1 < b.size ∨
      (b.length + bytes.length + 1 = b.size ∧ 0 < b.length)
  | (.appendString_uint32 source, _) =>
    b.length + source.length + 1 < b.size ∨
      (b.length + source.length + 1 = b.size ∧ 0 < b.length)
  | (.reduceLength _, _) => True
  | (.resetStringBuilder, _) => True

/-- **A call that fits does what it does to the string.** -/
theorem step_holds {b : StringBuilder} {string : List UInt8} (call : BuilderCall × Mem)
    (h : b.Holds string) (hlegal : Legal string call) (hfit : Fits b call) :
    ∃ b', step b call = some ((stringStep string call).1, b') ∧
      b'.Holds (stringStep string call).2 := by
  obtain ⟨call, garbage⟩ := call
  obtain ⟨hnull, hsmall⟩ := hlegal
  rw [List.length_append, ← h.length] at hsmall
  cases call with
  | appendChar ch =>
    obtain ⟨b', hrun, hholds⟩ := appendChar_holds garbage h ch hfit
    exact ⟨b', by rw [step, hrun]; rfl, hholds⟩
  | appendString source =>
    have hsource : 0 ∉ source := hnull
    obtain ⟨b', hrun, hholds⟩ := appendString_holds garbage h hsource hfit
    exact ⟨b', by rw [step, hrun]; rfl, hholds⟩
  | appendBytes bytes =>
    obtain ⟨b', hrun, hholds⟩ := appendBytes_holds garbage h bytes hsmall hfit
    exact ⟨b', by rw [step, hrun]; rfl, hholds⟩
  | appendString_uint32 source =>
    obtain ⟨b', hrun, hholds⟩ := appendBytes_holds garbage h source hsmall hfit
    exact ⟨b', by rw [step, appendString_uint32_eq, hrun]; rfl, hholds⟩
  | reduceLength newLength =>
    unfold step stringStep reduceLength
    dsimp only
    split
    next hlt =>
      obtain ⟨buffer, hstore, hholds⟩ := cut_holds h (Nat.le_of_lt hlt)
      exact ⟨_, by rw [hstore]; rfl, hholds⟩
    next hge =>
      rw [List.take_of_length_le (by rw [← h.length]; omega)]
      exact ⟨b, rfl, h⟩
  | resetStringBuilder =>
    obtain ⟨buffer, hstore, hholds⟩ := cut_holds h (Nat.zero_le _)
    exact ⟨_, by rw [step, resetStringBuilder, hstore]; rfl, hholds⟩

/-- A call that does not fit aborts, or leaves a length that is not below the size. -/
theorem step_breaks {b b' : StringBuilder} {string : List UInt8} (call : BuilderCall × Mem)
    (h : b.Holds string) (hlegal : Legal string call) (hfit : ¬ Fits b call)
    (hstep : step b call = some ((stringStep string call).1, b')) : b'.size ≤ b'.length := by
  obtain ⟨call, garbage⟩ := call
  obtain ⟨hnull, hsmall⟩ := hlegal
  rw [List.length_append, ← h.length] at hsmall
  -- either it aborts, or `size` is behind the length from now on
  have hbytes : ∀ bytes : List UInt8, b.length + bytes.length < 2 ^ 30 →
      ¬ (b.length + bytes.length + 1 < b.size ∨
        (b.length + bytes.length + 1 = b.size ∧ 0 < b.length)) →
      appendBytes garbage b bytes = some b' → b'.size ≤ b'.length := by
    intro bytes hlt hno hrun
    obtain ⟨hpos, hlength, hsize⟩ := appendBytes_some hrun
    rw [Nat.mod_eq_of_lt (by omega)] at hpos hlength
    omega
  cases call with
  | appendChar ch =>
    have hno : ¬ b.length + 1 < b.size := hfit
    obtain ⟨c, hrun, hc⟩ := Option.map_eq_some_iff.mp hstep
    cases hc
    obtain ⟨hlength, hsize⟩ := appendChar_some hrun
    have hone : b.length + 1 < 2 ^ 30 := hsmall
    rw [Nat.mod_eq_of_lt (by omega)] at hlength
    omega
  | appendString source =>
    have hno : ¬ b.length + source.length < b.size := hfit
    have hsource : 0 ∉ source := hnull
    have hlt : b.length + source.length < 2 ^ 30 := hsmall
    obtain ⟨c, hrun, hc⟩ := Option.map_eq_some_iff.mp hstep
    cases hc
    obtain ⟨hlength, hsize⟩ := appendString_some hsource (by omega) hrun
    omega
  | appendBytes bytes =>
    obtain ⟨c, hrun, hc⟩ := Option.map_eq_some_iff.mp hstep
    cases hc
    exact hbytes bytes hsmall hfit hrun
  | appendString_uint32 source =>
    obtain ⟨c, hrun, hc⟩ := Option.map_eq_some_iff.mp hstep
    cases hc
    rw [appendString_uint32_eq] at hrun
    exact hbytes source hsmall hfit hrun
  | reduceLength newLength => exact absurd trivial hfit
  | resetStringBuilder => exact absurd trivial hfit

/-- **Runs of a builder against runs of a string.** Every call comes back and leaves the
string with a `NUL` behind it, below the size and inside the buffer, exactly when
every call fits. -/
theorem run_holds_iff (garbage : Mem) (bufSize : UInt32) (hsize : 1 ≤ bufSize)
    (calls : List (BuilderCall × Mem))
    (hlegal : Along (fun string call => some (stringStep string call)) Legal calls []) :
    ∃ b, initStringBuilder_uint32 garbage bufSize = some b ∧
      (RefinesRun step stringStep Shows calls b [] ↔ Along step Fits calls b) := by
  obtain ⟨b, hinit, hholds, _, _⟩ := initStringBuilder_uint32_holds garbage bufSize hsize
  have hshows : ∀ (b : StringBuilder) (string : List UInt8), b.Holds string → b.Shows string :=
    fun _ _ h => ⟨h.length, h.bytes, h.null, h.length_lt, h.size_le⟩
  have hbreaks : ∀ (b : StringBuilder) (string : List UInt8) (call : BuilderCall × Mem)
      (b' : StringBuilder), b.Holds string → Legal string call → ¬ Fits b call →
      step b call = some ((stringStep string call).1, b') →
      ¬ b'.Shows (stringStep string call).2 := by
    intro b string call b' h hcall hfit hstep hshow
    have hover := step_breaks call h hcall hfit hstep
    have hbelow := hshow.2.2.2.1
    omega
  exact ⟨b, hinit, refinesRun_iff_along hshows (fun _ _ call h => step_holds call h) hbreaks
    calls hholds hlegal⟩

/-- Two characters, and back to one. -/
def smallCalls : List (BuilderCall × Mem) :=
  [(.appendBytes [0x61, 0x62], fun _ => 0), (.reduceLength 1, fun _ => 0)]

theorem smallCalls_legal :
    Along (fun string call => some (stringStep string call)) Legal smallCalls [] := by
  refine ⟨⟨by decide, by decide⟩, ?_⟩
  intro r string h
  cases h
  exact ⟨⟨by decide, by decide⟩, fun _ _ _ => trivial⟩

theorem run_holds_iff_smallCalls :
    ∃ b, initStringBuilder_uint32 (fun _ => 0) 64 = some b ∧
      (RefinesRun step stringStep Shows smallCalls b [] ↔ Along step Fits smallCalls b) :=
  run_holds_iff (fun _ => 0) 64 (by decide) smallCalls smallCalls_legal

/-- **One character for a builder of size one**: the call does not come back. -/
theorem appendChar_aborts :
    ¬ ∀ (garbage : Mem) (bufSize : UInt32), 1 ≤ bufSize →
      ∀ calls : List (BuilderCall × Mem),
      Along (fun string call => some (stringStep string call)) Legal calls [] →
      ∃ b, initStringBuilder_uint32 garbage bufSize = some b ∧
        RefinesRun step stringStep Shows calls b [] := by
  intro h
  have hlegal : Along (fun string call => some (stringStep string call)) Legal
      [(.appendChar 0x61, fun _ => 0)] [] :=
    ⟨⟨by decide, by decide⟩, fun _ _ _ => trivial⟩
  obtain ⟨b, hinit, _, b', hstep, hrun⟩ := h (fun _ => 0) 1 (by decide) _ hlegal
  obtain ⟨b₁, hinit₁, hholds, hlength, hsize⟩ :=
    initStringBuilder_uint32_holds (fun _ => 0) 1 (by decide)
  rw [hinit] at hinit₁
  cases hinit₁
  have hfit : ¬ Fits b (.appendChar 0x61, fun _ => 0) := by
    show ¬ b.length + 1 < b.size
    rw [hlength, hsize]
    decide
  have hover := step_breaks _ hholds hlegal.1 hfit hstep
  have hbelow := hrun.2.2.2.1
  omega

end StringBuilder

end DevopsBroker.Lang
