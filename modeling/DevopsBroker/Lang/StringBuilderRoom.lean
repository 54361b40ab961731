import DevopsBroker.Lang.StringBuilderSpec
import DevopsBroker.Lib.Exactly

/-!
# `StringBuilder` beyond its size

A builder that comes to its `size` moves to a buffer of twice that. `size` stays what it was, so
that it never moves to a larger one: `room` is how many bytes there are in the end, and what is
appended goes well exactly where it fits into these, with its `NUL`.
-/

namespace DevopsBroker.Lang

open DevopsBroker.Lib

namespace StringBuilder

/-- What is allocated for twice the size. -/
def room (size : Nat) : Nat := (2 * size + 15) / 16 * 16

/-- The builder starts with some string, in a buffer that it moved to where the string is longer
than the size. -/
structure Growing (b : StringBuilder) (string : List UInt8) : Prop extends Contains b string where
  length_le : b.length ≤ b.buffer.size
  moved : b.size < b.length → b.buffer.size = room b.size

/-- The builder holds a string, in a buffer that it moved to where the string is as long as the
size. -/
structure Within (b : StringBuilder) (string : List UInt8) : Prop extends Contains b string where
  null : b.buffer.byte b.length = 0
  length_lt : b.length < b.buffer.size
  moved : b.size ≤ b.length → b.buffer.size = room b.size

section

variable {b : StringBuilder} {string : List UInt8}

theorem Holds.within (h : b.Holds string) : b.Within string :=
  ⟨h.toContains, h.null, Nat.lt_of_lt_of_le h.length_lt h.size_le,
    fun hle => absurd hle (Nat.not_le_of_lt h.length_lt)⟩

theorem Within.holds (h : b.Within string) (hlt : b.length < b.size) : b.Holds string :=
  ⟨h.toContains, h.null, hlt⟩

theorem Within.growing (h : b.Within string) : b.Growing string :=
  ⟨h.toContains, Nat.le_of_lt h.length_lt, fun hlt => h.moved (Nat.le_of_lt hlt)⟩

theorem Growing.le_room (h : b.Growing string) : b.length ≤ room b.size := by
  rcases Nat.lt_or_ge b.size b.length with hlt | hge
  · rw [← h.moved hlt]
    exact h.length_le
  · unfold room
    omega

/-- There is room for what the builder holds. -/
theorem Within.length_lt_room (h : b.Within string) : b.length < room b.size := by
  rcases Nat.lt_or_ge b.length b.size with hlt | hge
  · unfold room
    omega
  · rw [← h.moved hge]
    exact h.length_lt

/-- A builder without a size has no room for a `NUL`. -/
theorem Within.size_pos (h : b.Within string) : 0 < b.size := by
  rcases Nat.eq_zero_or_pos b.size with hzero | hpos
  · have hmoved := h.moved (by omega)
    have hlt := h.length_lt
    rw [hzero] at hmoved
    unfold room at hmoved
    omega
  · exact hpos

/-- The last character of the string, or a `NUL` without one. -/
theorem Contains.getLastChar (h : b.Contains string) : b.getLastChar = string.getLast?.getD 0 := by
  have hlength := h.length
  have hbytes := h.bytes
  unfold StringBuilder.getLastChar
  rcases List.eq_nil_or_concat string with rfl | ⟨front, c, rfl⟩
  · rw [hlength]
    rfl
  · rw [List.concat_eq_append] at hlength hbytes ⊢
    rw [List.length_append, List.length_singleton] at hlength
    rw [hlength, bytesAt_add, Nat.zero_add, bytesAt_succ] at hbytes
    rw [hlength, if_pos (Nat.succ_pos _), List.getLast?_concat, Option.getD_some, Nat.add_sub_cancel]
    exact (List.cons.inj (List.append_inj hbytes (bytesAt_length ..)).2).1

/-- The string is what a reader finds. -/
theorem Within.text (h : b.Within string) (hnul : 0 ∉ string) : b.buffer.text = some string := by
  have hsplit : bytesAt b.buffer.byte 0 b.buffer.size =
      string ++ 0 :: bytesAt b.buffer.byte (b.length + 1) (b.buffer.size - b.length - 1) := by
    have hadd := bytesAt_add b.buffer.byte b.length (b.buffer.size - b.length - 1 + 1) 0
    rw [h.bytes, Nat.zero_add, bytesAt_succ, h.null,
      show b.length + (b.buffer.size - b.length - 1 + 1) = b.buffer.size by
        have := h.length_lt
        omega] at hadd
    exact hadd
  have htake : ∀ c ∈ string, decide (c ≠ 0) = true := by
    intro c hc
    exact decide_eq_true fun heq => hnul (heq ▸ hc)
  unfold Block.text
  rw [hsplit, if_pos (List.mem_append_right _ List.mem_cons_self),
    List.takeWhile_append_of_pos htake]
  simp

/-! ## Growing, and storing a character -/

theorem Contains.store (h : b.Contains string) (ch : UInt8) {buffer : Block}
    (hsize : buffer.size = b.buffer.size) (hbyte : buffer.byte = storeByte b.buffer.byte b.length ch) :
    Contains ⟨buffer, b.length + 1, b.size⟩ (string ++ [ch]) := by
  refine ⟨?_, ?_, by dsimp only; rw [hsize]; exact h.size_le, by dsimp only; rw [hsize]; exact h.aligned,
    h.size_lt⟩
  · dsimp only
    rw [List.length_append, h.length]
    rfl
  · have hfront : bytesAt buffer.byte 0 b.length = string := by
      rw [← h.bytes, hbyte]
      exact bytesAt_congr fun i _ hi => if_neg (by omega)
    dsimp only
    rw [bytesAt_add, hfront, Nat.zero_add, bytesAt_succ, hbyte]
    exact congrArg (fun c => string ++ [c]) (if_pos rfl)

/-- A `NUL` behind the string. -/
theorem Contains.storeNull (h : b.Contains string) {buffer : Block}
    (hsize : buffer.size = b.buffer.size) (hbyte : buffer.byte = storeByte b.buffer.byte b.length 0) :
    Contains { b with buffer := buffer } string ∧ buffer.byte b.length = 0 := by
  refine ⟨⟨h.length, ?_, by dsimp only; rw [hsize]; exact h.size_le,
    by dsimp only; rw [hsize]; exact h.aligned, h.size_lt⟩, by rw [hbyte]; exact if_pos rfl⟩
  dsimp only
  rw [← h.bytes, hbyte]
  exact bytesAt_congr fun i _ hi => if_neg (by omega)

/-- A store, and what it leaves. -/
theorem storeByte_exactly (buffer : Block) (i : Nat) (value : UInt8) :
    Exactly (i < buffer.size)
      (fun buffer' => i < buffer.size ∧ buffer'.size = buffer.size ∧
        buffer'.byte = storeByte buffer.byte i value)
      (buffer.storeByte i value) :=
  Exactly.guard fun hlt => ⟨hlt, rfl, rfl⟩

/-- **Growing where it is necessary.** -/
theorem Growing.resize (garbage : Mem) (h : b.Growing string) {necessary : Prop} [Decidable necessary]
    (hpos : necessary → 0 < b.length) (hsmall : necessary → b.size < 2 ^ 31) :
    ∃ b', resizeIf necessary garbage b b.length (2 * b.size % 2 ^ 32) = some (b', b.length) ∧
      b'.Contains string ∧ b'.length = b.length ∧ b'.size = b.size ∧
      b'.buffer.size = if necessary then room b.size else b.buffer.size := by
  unfold resizeIf
  by_cases hnecessary : necessary
  · rw [if_pos hnecessary, if_pos hnecessary]
    have hlen := hpos hnecessary
    have hlt := hsmall hnecessary
    have hle := h.le_room
    have hsize := h.size_le
    unfold room at hle ⊢
    rw [Nat.mod_eq_of_lt (by omega)]
    obtain ⟨buffer, hresize, hbuffer, hbyte⟩ := resizeArray_keeps garbage hlen Nat.one_pos
      (by omega : 0 < 2 * b.size) (by omega) (by omega) h.aligned
      (by rw [Nat.mul_one]; exact h.length_le)
    rw [Nat.one_mul] at hbuffer
    refine ⟨{ b with buffer := buffer }, ?_, ⟨h.length, ?_, ?_, ?_, h.size_lt⟩, rfl, rfl, hbuffer⟩
    · rw [resizeStringBuilder, hresize]
      rfl
    · dsimp only
      rw [← h.bytes]
      exact bytesAt_congr fun i _ hi => hbyte i (by omega)
    · dsimp only
      omega
    · dsimp only
      omega
  · rw [if_neg hnecessary, if_neg hnecessary]
    exact ⟨b, rfl, h.toContains, rfl, rfl, rfl⟩

/-! ## The calls -/

theorem appendChar_exactly (garbage : Mem) (h : b.Within string) (ch : UInt8)
    (hpos : b.size ≤ b.length + 1 → 0 < b.length) (hsmall : b.length + 1 < 2 ^ 30) :
    Exactly (b.length + 1 < room b.size)
      (fun b' => b'.Within (string ++ [ch]) ∧ b'.size = b.size) (appendChar garbage b ch) := by
  have hle := h.growing.le_room
  have hsize := h.size_le
  have hlt := h.length_lt
  have hwrap : (b.length + 1) % 2 ^ 32 = b.length + 1 := Nat.mod_eq_of_lt (by omega)
  unfold appendChar
  rw [hwrap]
  obtain ⟨b₁, hresize, hcontains, hlength, hsame, hbuffer⟩ :=
    @h.growing.resize _ _ garbage (b.size ≤ b.length + 1) _ hpos (by omega)
  -- the `NUL` goes behind the character
  have hnull : ∀ buffer₁ : Block, b.length < b₁.buffer.size ∧ buffer₁.size = b₁.buffer.size ∧
      buffer₁.byte = storeByte b₁.buffer.byte b.length ch →
      Exactly (b.length + 1 < b₁.buffer.size) (fun b' => b'.Within (string ++ [ch]) ∧ b'.size = b.size)
        ((buffer₁.storeByte (b.length + 1) 0).bind fun buffer =>
          some { b₁ with buffer := buffer, length := (b₁.length + 1) % 2 ^ 32 }) := by
    intro buffer₁ ⟨_, hsize₁, hbyte₁⟩
    have hstored := hcontains.store ch hsize₁ (by rw [hlength]; exact hbyte₁)
    rw [hlength] at hstored
    rw [hlength, hwrap, ← hsize₁]
    refine ⟨fun hlt => ?_, fun hno => ?_⟩
    · let buffer : Block := { buffer₁ with byte := storeByte buffer₁.byte (b.length + 1) 0 }
      obtain ⟨hstring, hzero⟩ := hstored.storeNull
        (show buffer.size = buffer₁.size from rfl) rfl
      refine ⟨_, by rw [Block.storeByte_eq hlt]; rfl, ⟨hstring, hzero, hlt, ?_⟩, hsame⟩
      intro hle
      rw [hsame] at hle ⊢
      rw [hsize₁, hbuffer, if_pos hle]
    · rw [(storeByte_exactly buffer₁ (b.length + 1) 0).fails hno]
      rfl
  refine Exactly.bind_some hresize (Exactly.cond (Exactly.bind (storeByte_exactly _ _ _) hnull) ?_)
  rw [hbuffer]
  unfold room at hle ⊢
  split <;> omega

/-- Growing at the size, as `append_string` does: there is room from then on. -/
theorem Growing.resizeFull (garbage : Mem) (h : b.Growing string) (hpos : 0 < b.size)
    (hsmall : b.length < 2 ^ 30) :
    ∃ b', resizeIf (b.length = b.size) garbage b b.length (2 * b.size % 2 ^ 32) = some (b', b.length) ∧
      b'.Contains string ∧ b'.length = b.length ∧ b'.size = b.size ∧
      (b.size ≤ b.length → b'.buffer.size = room b.size) ∧
      (b.length < b'.buffer.size ↔ b.length < room b.size) := by
  obtain ⟨b', hresize, hcontains, hlength, hsame, hbuffer⟩ :=
    @h.resize _ _ garbage (b.length = b.size) _ (by omega) (by omega)
  have hmoved : b.size ≤ b.length → b'.buffer.size = room b.size := by
    intro hle
    rw [hbuffer]
    split
    next _ => rfl
    next hne => exact h.moved (by omega)
  refine ⟨b', hresize, hcontains, hlength, hsame, hmoved, ?_⟩
  rcases Nat.lt_or_ge b.length b.size with hlt | hge
  · have hsize := h.size_le
    rw [hbuffer, if_neg (Nat.ne_of_lt hlt)]
    unfold room
    omega
  · rw [hmoved hge]

/-- The loop of `append_string`. -/
theorem appendChars_exactly (garbage : Mem) (source : List UInt8) :
    ∀ {b : StringBuilder} {string : List UInt8}, b.Growing string → 0 ∉ source → 0 < b.size →
      b.length + source.length < 2 ^ 30 →
      Exactly (b.length + source.length ≤ room b.size)
        (fun r => r.1.Growing (string ++ source) ∧ r.1.size = b.size ∧ r.2 = r.1.length)
        (appendChars garbage b b.length source) := by
  induction source with
  | nil =>
    intro b string h _ _ _
    refine (Exactly.some ⟨?_, rfl, rfl⟩).cond ⟨fun _ => h.le_room, fun _ => trivial⟩
    rw [List.append_nil]
    exact h
  | cons ch source ih =>
    intro b string h hnul hpos hsmall
    have hch : ch ≠ 0 := fun heq => hnul (heq ▸ List.mem_cons_self)
    have hrest : 0 ∉ source := fun hmem => hnul (List.mem_cons_of_mem _ hmem)
    rw [List.length_cons] at hsmall ⊢
    obtain ⟨b₁, hresize, hcontains, hlength, hsame, hmoved, hfits⟩ :=
      h.resizeFull garbage hpos (by omega)
    have hwrap : (b₁.length + 1) % 2 ^ 32 = b.length + 1 := by
      rw [hlength, Nat.mod_eq_of_lt (by omega)]
    -- the rest, from one character further on
    have hloop : ∀ buffer : Block, b.length < b₁.buffer.size ∧ buffer.size = b₁.buffer.size ∧
        buffer.byte = storeByte b₁.buffer.byte b.length ch →
        Exactly (b.length + 1 + source.length ≤ room b.size)
          (fun r => r.1.Growing (string ++ ch :: source) ∧ r.1.size = b.size ∧ r.2 = r.1.length)
          (appendChars garbage { b₁ with buffer := buffer, length := (b₁.length + 1) % 2 ^ 32 }
            (b.length + 1) source) := by
      intro buffer ⟨hlt, hsize, hbyte⟩
      have hstored := hcontains.store ch hsize (by rw [hlength]; exact hbyte)
      rw [hwrap, hsame, List.append_cons]
      rw [hlength, hsame] at hstored
      refine ih ⟨hstored, by dsimp only; omega, ?_⟩ hrest hpos (by dsimp only; omega)
      intro hgt
      dsimp only at hgt ⊢
      rw [hsize, hmoved (by omega)]
    unfold appendChars
    rw [if_neg hch]
    refine Exactly.bind_some hresize (Exactly.cond (Exactly.bind (storeByte_exactly _ _ _) hloop) ?_)
    rw [hfits]
    omega

/-- Characters behind a string, and a `NUL` behind these. -/
theorem appendNull_exactly (garbage : Mem) (h : b.Growing string) (hpos : 0 < b.size)
    (hsmall : b.length < 2 ^ 30) :
    Exactly (b.length < room b.size) (fun b' => b'.Within string ∧ b'.size = b.size)
      (appendNull garbage b b.length) := by
  obtain ⟨b', hresize, hcontains, hlength, hsame, hmoved, hfits⟩ := h.resizeFull garbage hpos hsmall
  rw [← hfits]
  unfold appendNull
  refine Exactly.bind_some hresize (Exactly.bind_pure (storeByte_exactly _ _ _) ?_)
  intro buffer ⟨hlt, hsize, hbyte⟩
  obtain ⟨hstring, hzero⟩ := hcontains.storeNull hsize (by rw [hlength]; exact hbyte)
  refine ⟨⟨hstring, hzero, ?_, ?_⟩, hsame⟩
  · dsimp only
    omega
  · intro hle
    dsimp only at hle ⊢
    rw [hsize, hsame]
    exact hmoved (by omega)

/-- **`append_string`.** -/
theorem appendString_exactly (garbage : Mem) (h : b.Within string) {source : List UInt8}
    (hnul : 0 ∉ source) (hsmall : b.length + source.length < 2 ^ 30) :
    Exactly (b.length + source.length < room b.size)
      (fun b' => b'.Within (string ++ source) ∧ b'.size = b.size) (appendString garbage b source) := by
  have hloop := appendChars_exactly garbage source h.growing hnul h.size_pos hsmall
  have hnull : ∀ r : StringBuilder × Nat, r.1.Growing (string ++ source) ∧ r.1.size = b.size ∧
      r.2 = r.1.length →
      Exactly (b.length + source.length < room b.size)
        (fun b' => b'.Within (string ++ source) ∧ b'.size = b.size) (appendNull garbage r.1 r.2) := by
    intro ⟨b₁, target⟩ ⟨hgrowing, hsize₁, htarget⟩
    dsimp only at hgrowing hsize₁ htarget ⊢
    have hlength₁ : b₁.length = b.length + source.length := by
      rw [hgrowing.length, List.length_append, h.length]
    rw [htarget, ← hlength₁, ← hsize₁]
    exact appendNull_exactly garbage hgrowing (by rw [hsize₁]; exact h.size_pos) (by omega)
  refine (hloop.bind hnull).cond ?_
  omega

/-- The characters of a string come one part after the other. -/
theorem appendChars_append (garbage : Mem) (source : List UInt8) {front : List UInt8} :
    ∀ {b : StringBuilder} {target : Nat}, 0 ∉ front →
      appendChars garbage b target (front ++ source) =
        (appendChars garbage b target front).bind fun r => appendChars garbage r.1 r.2 source := by
  induction front with
  | nil => exact fun _ => rfl
  | cons ch front ih =>
    intro b target hnul
    have hch : ch ≠ 0 := fun heq => hnul (heq ▸ List.mem_cons_self)
    have hrest : 0 ∉ front := fun hmem => hnul (List.mem_cons_of_mem _ hmem)
    rw [List.cons_append, appendChars, if_neg hch, appendChars, if_neg hch]
    simp only [Option.bind_eq_bind, Option.bind_assoc, ih hrest]

/-- **`append_string`, for a string of any length**: a part of it is too long already. -/
theorem appendString_anyLength (garbage : Mem) (h : b.Within string) {source : List UInt8}
    (hnul : 0 ∉ source) (hsmall : room b.size + 1 < 2 ^ 30) :
    Exactly (b.length + source.length < room b.size)
      (fun b' => b'.Within (string ++ source) ∧ b'.size = b.size) (appendString garbage b source) := by
  have hlt := h.length_lt_room
  by_cases hlong : b.length + source.length ≤ room b.size
  · exact appendString_exactly garbage h hnul (by omega)
  · refine ⟨fun hno => absurd (Nat.le_of_lt hno) hlong, fun _ => ?_⟩
    have hfront : (source.take (room b.size - b.length + 1)).length = room b.size - b.length + 1 := by
      rw [List.length_take]
      omega
    have hnul' : 0 ∉ source.take (room b.size - b.length + 1) := fun hmem => hnul (List.mem_of_mem_take hmem)
    have hloop := appendChars_exactly garbage _ h.growing hnul' h.size_pos (by omega)
    rw [appendString, ← List.take_append_drop (room b.size - b.length + 1) source,
      appendChars_append garbage _ hnul', hloop.fails (by omega)]
    rfl

/-- **`appendBytes`** moves to a buffer for what it appends. -/
theorem appendBytes_contains (garbage : Mem) (h : b.Within string) (bytes : List UInt8)
    (hpos : 0 < b.length) (hsmall : b.length + bytes.length < 2 ^ 30) :
    ∃ b', appendBytes garbage b bytes = some b' ∧ b'.Contains (string ++ bytes) ∧
      b'.length < b'.buffer.size := by
  have hlt := h.length_lt
  have hsize := h.size_le
  have hwrap : (b.length + bytes.length) % 2 ^ 32 = b.length + bytes.length :=
    Nat.mod_eq_of_lt (by omega)
  have hwrap' : (b.length + bytes.length + 1) % 2 ^ 32 = b.length + bytes.length + 1 :=
    Nat.mod_eq_of_lt (by omega)
  have hgrow : ∃ b₁, resizeIf (b.size ≤ b.length + bytes.length + 1) garbage b b.length
        ((b.length + bytes.length + 1 + (b.length + bytes.length + 1) / 2) % 2 ^ 32) =
          some (b₁, b.length) ∧
      b₁.Contains string ∧ b₁.length = b.length ∧ b₁.size = b.size ∧
      b.length + bytes.length < b₁.buffer.size := by
    unfold resizeIf
    split
    next hfull =>
      obtain ⟨buffer, hresize, hbuffer, hbyte⟩ := resizeArray_keeps garbage hpos Nat.one_pos
        (by omega : 0 < b.length + bytes.length + 1 + (b.length + bytes.length + 1) / 2) (by omega)
        (by omega) h.aligned (by omega)
      rw [Nat.mod_eq_of_lt (by omega)]
      refine ⟨{ b with buffer := buffer }, by rw [resizeStringBuilder, hresize]; rfl,
        ⟨h.length, ?_, ?_, ?_, h.size_lt⟩, rfl, rfl, ?_⟩
      · dsimp only
        rw [← h.bytes]
        exact bytesAt_congr fun i _ hi => hbyte i (by omega)
      all_goals
        dsimp only
        omega
    next _ => exact ⟨b, rfl, h.toContains, rfl, rfl, by omega⟩
  obtain ⟨b₁, hresize, hcontains, hlength, hsame, hfit⟩ := hgrow
  -- as if the size were what is needed, where that is more
  have hsize₁ := hcontains.size_le
  have hlt₁ := hcontains.size_lt
  obtain ⟨buffer₁, buffer₂, hstore, hnull, hholds⟩ := @store_holds
    ⟨b₁.buffer, b₁.length, max b₁.size (b.length + bytes.length + 1)⟩ string
    ⟨hcontains.length, hcontains.bytes, by dsimp only; omega, hcontains.aligned, by dsimp only; omega⟩
    bytes (by dsimp only; omega)
  dsimp only at hstore hnull hholds
  rw [hlength] at hstore hnull hholds
  have hsize₂ := hholds.size_le
  dsimp only at hsize₂
  refine ⟨⟨buffer₂, b.length + bytes.length, b₁.size⟩, ?_,
    ⟨hholds.length, hholds.bytes, by dsimp only; omega, hholds.aligned, hlt₁⟩, by dsimp only; omega⟩
  unfold appendBytes
  simp only [hwrap', hresize, bind, Option.bind, hstore, hnull, hlength, hwrap]
  rfl

/-- `reduceLength`. -/
theorem reduceLength_within (h : b.Within string) {n : Nat} (hn : n ≤ b.length) :
    ∃ b', reduceLength b n = some b' ∧ b'.Within (string.take n) ∧ b'.size = b.size := by
  have hlt := h.length_lt
  unfold reduceLength
  split
  next hcut =>
    have hbytes : bytesAt b.buffer.byte 0 n = string.take n := by
      rw [← h.bytes, bytesAt_take _ _ hn]
    refine ⟨⟨{ b.buffer with byte := storeByte b.buffer.byte n 0 }, n, b.size⟩,
      by rw [Block.storeByte_eq (by omega)]; rfl, ⟨⟨?_, ?_, h.size_le, h.aligned, h.size_lt⟩, ?_, ?_, ?_⟩,
      rfl⟩
    · dsimp only
      rw [List.length_take, ← h.length, Nat.min_eq_left hn]
    · dsimp only
      rw [← hbytes]
      exact bytesAt_congr fun i _ hi => if_neg (by omega)
    · exact if_pos rfl
    · exact Nat.lt_of_le_of_lt hn hlt
    · intro hle
      exact h.moved (Nat.le_trans hle hn)
  next hno =>
    rw [List.take_of_length_le (by rw [← h.length]; omega)]
    exact ⟨b, rfl, h, rfl⟩

end

/-! ## New strings -/

/-- A block holds a string. -/
structure HoldsText (block : Block) (text : List UInt8) : Prop where
  bytes : bytesAt block.byte 0 text.length = text
  null : block.byte text.length = 0
  length_lt : text.length < block.size

section

variable {b : StringBuilder} {string : List UInt8}

/-- A copy of what the builder holds. -/
theorem copyString_contains (fresh : Mem) (h : b.Contains string) (hle : b.length ≤ b.buffer.size)
    (hsmall : b.length < 2 ^ 30) :
    ∃ block, copyString fresh b = some block ∧ HoldsText block string := by
  have hlength := h.length
  refine ⟨⟨(b.length / 16 + 1) * 16, storeByte (copyObject b.buffer.byte fresh b.length) b.length 0⟩, ?_,
    ⟨?_, ?_, ?_⟩⟩
  · unfold copyString stralloc Block.copyTo
    rw [Nat.mod_eq_of_lt (by omega), if_neg (by omega)]
    simp only [Option.bind_eq_bind, Option.bind_some]
    rw [if_pos ⟨hle, by omega⟩, Option.bind_some, Block.storeByte_eq (by dsimp only; omega)]
  · dsimp only
    rw [← hlength]
    refine Eq.trans (bytesAt_congr fun i _ hi => ?_) h.bytes
    rw [storeByte, if_neg (by omega), copyObject, if_pos (by omega)]
  · dsimp only
    rw [← hlength]
    exact if_pos rfl
  · dsimp only
    omega

/-- **`createString`**: the string and the suffix in a new string, and the builder as it was. -/
theorem createString_exactly (garbage fresh : Mem) (h : b.Within string) {suffix : List UInt8}
    (hnul : 0 ∉ suffix) (hpos : 0 < b.length) (hsmall : b.length + suffix.length < 2 ^ 30) :
    Exactly (b.length + suffix.length < room b.size)
      (fun r => (∃ block, r.1 = some block ∧ HoldsText block (string ++ suffix)) ∧ r.2.Within string ∧
        r.2.size = b.size)
      (createString garbage fresh b (some suffix)) := by
  have hlength := h.length
  unfold createString
  rw [if_pos hpos]
  refine ((appendString_exactly garbage h hnul hsmall).bind fun b₁ h₁ => ?_).cond
    (iff_of_eq (and_true _))
  obtain ⟨h₁, hsize₁⟩ := h₁
  have hlength₁ : b₁.length = b.length + suffix.length := by
    rw [h₁.length, List.length_append, hlength]
  obtain ⟨block, hcopy, htext⟩ := copyString_contains fresh h₁.toContains (Nat.le_of_lt h₁.length_lt) (by omega)
  obtain ⟨b₂, hcut, h₂, hsize₂⟩ := reduceLength_within h₁ (show b.length ≤ b₁.length by omega)
  rw [List.take_left' hlength.symm] at h₂
  exact Exactly.bind_some hcopy (Exactly.bind_some hcut
    (Exactly.some ⟨⟨block, rfl, htext⟩, h₂, hsize₂.trans hsize₁⟩))

end

end StringBuilder

end DevopsBroker.Lang
