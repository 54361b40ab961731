import DevopsBroker.Lang.StringBuilderSpec
import DevopsBroker.Lib.Text

/-!
# Appending an array of strings

`append_stringArray` stores the closing bracket and does not go on to the next character, so that
the `NUL` replaces it; only a builder that the text fills up to its `size` moves to a new buffer in
between, and gets the `NUL` behind the bracket. **`appendStringArray_appends_iff`**.
-/

namespace DevopsBroker.Lang

open DevopsBroker.Lib

namespace StringBuilder

/-- `[s1,s2,...,sn]`. -/
def arrayText (array : List (List UInt8)) : List UInt8 :=
  LEFT_BRACKET :: ([COMMA].intercalate array ++ [RIGHT_BRACKET])

/-- The strings with a comma in front of each. -/
def elements (array : List (List UInt8)) : List UInt8 := array.flatMap (COMMA :: ·)

theorem elements_cons (string : List UInt8) (array : List (List UInt8)) :
    elements (string :: array) = COMMA :: (string ++ elements array) := List.flatMap_cons ..

theorem intercalate_eq_elements (string : List UInt8) (array : List (List UInt8)) :
    [COMMA].intercalate (string :: array) = string ++ elements array := by
  induction array generalizing string with
  | nil => rw [List.intercalate_singleton, elements, List.flatMap_nil, List.append_nil]
  | cons next array ih =>
    rw [List.intercalate_cons_cons, ih, elements_cons, List.append_assoc]
    rfl

/-! ## The loops up to `size` -/

section

variable (garbage : Mem) {b : StringBuilder} {target : Nat}

theorem appendElements_map {array : List (List UInt8)} :
    ∀ {b : StringBuilder} {target : Nat}, (∀ string ∈ array, 0 ∉ string) →
      b.length + (elements array).length ≤ b.size → b.size < 2 ^ 32 →
      appendElements garbage b target array =
        (b.buffer.storeBytes target (elements array)).map fun buffer =>
          (⟨buffer, b.length + (elements array).length, b.size⟩, target + (elements array).length) := by
  induction array with
  | nil => exact fun _ _ _ => rfl
  | cons string array ih =>
    intro b target hnull hfit hlt
    obtain ⟨hstring, harray⟩ := List.forall_mem_cons.mp hnull
    rw [elements_cons, List.length_cons, List.length_append] at hfit ⊢
    have hwrap : (b.length + 1) % 2 ^ 32 = b.length + 1 := Nat.mod_eq_of_lt (by omega)
    rw [Block.storeBytes]
    unfold appendElements resizeIf
    rw [if_neg (by omega)]
    simp only [bind, Option.bind, hwrap]
    cases b.buffer.storeByte target COMMA with
    | none => rfl
    | some buffer₁ =>
      have hchars := @appendChars_map garbage string ⟨buffer₁, b.length + 1, b.size⟩ (target + 1)
        hstring (by dsimp only; omega) hlt
      dsimp only at hchars ⊢
      rw [hchars, Block.storeBytes_append]
      cases buffer₁.storeBytes (target + 1) string with
      | none => rfl
      | some buffer₂ =>
        have hrest := @ih ⟨buffer₂, b.length + 1 + string.length, b.size⟩
          (target + 1 + string.length) harray (by dsimp only; omega) hlt
        simp only [Option.map_some, Option.bind_some]
        rw [hrest]
        dsimp only
        rw [show b.length + 1 + string.length + (elements array).length =
            b.length + (string.length + (elements array).length + 1) by omega,
          show target + 1 + string.length + (elements array).length =
            target + (string.length + (elements array).length + 1) by omega]

theorem appendArray_map {array : List (List UInt8)} (hnull : ∀ string ∈ array, 0 ∉ string)
    (hfit : b.length + ([COMMA].intercalate array).length ≤ b.size) (hlt : b.size < 2 ^ 32) :
    appendArray garbage b target array =
      (b.buffer.storeBytes target ([COMMA].intercalate array)).map fun buffer =>
        (⟨buffer, b.length + ([COMMA].intercalate array).length, b.size⟩,
          target + ([COMMA].intercalate array).length) := by
  cases array with
  | nil => rfl
  | cons string array =>
    obtain ⟨hstring, harray⟩ := List.forall_mem_cons.mp hnull
    rw [intercalate_eq_elements, List.length_append] at hfit ⊢
    rw [appendArray, appendChars_map garbage string hstring (by omega) hlt, Block.storeBytes_append]
    cases b.buffer.storeBytes target string with
    | none => rfl
    | some buffer₁ =>
      have hrest := @appendElements_map garbage array ⟨buffer₁, b.length + string.length, b.size⟩
        (target + string.length) harray (by dsimp only; omega) hlt
      simp only [Option.map_some, Option.bind_eq_bind, Option.bind_some]
      rw [hrest]
      dsimp only
      rw [Nat.add_assoc, Nat.add_assoc]

/-- **Up to `size`** the text is stored behind the string. The `NUL` goes where its last character
is, unless the builder moves. -/
theorem appendStringArray_eq {array : List (List UInt8)} (hnull : ∀ string ∈ array, 0 ∉ string)
    (hfit : b.length + (arrayText array).length ≤ b.size) (hlt : b.size < 2 ^ 32) :
    appendStringArray garbage b array =
      (resizeIf (b.size ≤ (b.length + 3) % 2 ^ 32) garbage b b.length (2 * b.size % 2 ^ 32)).bind
        fun (b₁, target) => (b₁.buffer.storeBytes target (arrayText array)).bind fun buffer =>
          appendNull garbage ⟨buffer, b.length + (arrayText array).length, b.size⟩
            (target + ([COMMA].intercalate array).length + 1) := by
  have htext : (arrayText array).length = ([COMMA].intercalate array).length + 2 := by
    rw [arrayText, List.length_cons, List.length_append, List.length_singleton]
  unfold appendStringArray
  cases hresize : resizeIf (b.size ≤ (b.length + 3) % 2 ^ 32) garbage b b.length
      (2 * b.size % 2 ^ 32) with
  | none => rfl
  | some moved =>
    obtain ⟨b₁, target⟩ := moved
    obtain ⟨_, hlength, hsize⟩ := resizeIf_some hresize
    have hwrap : (b₁.length + 1) % 2 ^ 32 = b₁.length + 1 := Nat.mod_eq_of_lt (by omega)
    simp only [arrayText, Block.storeBytes, bind, Option.bind, hwrap]
    cases b₁.buffer.storeByte target LEFT_BRACKET with
    | none => rfl
    | some buffer₁ =>
      have harray := @appendArray_map garbage ⟨buffer₁, b₁.length + 1, b₁.size⟩ (target + 1) array
        hnull (by dsimp only; omega) (by dsimp only; omega)
      dsimp only at harray ⊢
      rw [harray, Block.storeBytes_append]
      cases buffer₁.storeBytes (target + 1) ([COMMA].intercalate array) with
      | none => rfl
      | some buffer₂ =>
        simp only [Option.map_some, Option.bind_some, Block.storeBytes]
        rw [show target + 1 + ([COMMA].intercalate array).length =
          target + ([COMMA].intercalate array).length + 1 by omega]
        cases buffer₂.storeByte (target + ([COMMA].intercalate array).length + 1) RIGHT_BRACKET with
        | none => rfl
        | some buffer₃ =>
          have hlast : (b₁.length + 1 + ([COMMA].intercalate array).length + 1) % 2 ^ 32 =
              b.length + (arrayText array).length := by
            rw [htext, hlength, Nat.mod_eq_of_lt (by omega)]
            omega
          dsimp only
          rw [hlast, hsize]
          rfl

end

/-! ## Moving -/

/-- What twice the size is allocated as. -/
def doubled (size : Nat) : Nat := (2 * size % 2 ^ 32 + 15) / 16 * 16

/-- A buffer for twice the size. -/
theorem resizeStringBuilder_size {garbage : Mem} {b b' : StringBuilder} {target : Nat}
    (h : resizeStringBuilder garbage b (2 * b.size % 2 ^ 32) = some (b', target)) :
    b'.buffer.size = doubled b.size ∧ target = b.length := by
  unfold resizeStringBuilder at h
  obtain ⟨buffer, hresize, hend⟩ := Option.bind_eq_some_iff.mp h
  cases hend
  refine ⟨?_, rfl⟩
  have hlt : 2 * b.size % 2 ^ 32 < 2 ^ 32 := Nat.mod_lt _ (by decide)
  unfold resizeArray at hresize
  rw [mallocArray_eq garbage (by omega), Nat.one_mul] at hresize
  dsimp only at hresize
  split at hresize
  · cases hresize
  · split at hresize
    · cases hresize
    · split at hresize
      · cases hresize
        rfl
      · cases hresize

/-- The string moves, where it fits. -/
theorem resizeStringBuilder_keeps (garbage : Mem) {b : StringBuilder} (hpos : 0 < b.length)
    (hfit : b.length < doubled b.size) (haligned : b.buffer.size % 16 = 0)
    (hold : b.length ≤ b.buffer.size) :
    ∃ buffer, resizeStringBuilder garbage b (2 * b.size % 2 ^ 32) =
        some ({ b with buffer := buffer }, b.length) ∧ buffer.size = doubled b.size ∧
      ∀ i < b.length, buffer.byte i = b.buffer.byte i := by
  unfold doubled at hfit ⊢
  obtain ⟨buffer, hresize, hsize, hkeep⟩ := resizeArray_keeps garbage hpos Nat.one_pos
    (by omega : 0 < 2 * b.size % 2 ^ 32) (by omega) (by omega) haligned (by omega)
  rw [Nat.one_mul] at hsize
  rw [Nat.mul_one] at hkeep
  refine ⟨buffer, ?_, hsize, hkeep⟩
  rw [resizeStringBuilder, hresize]
  rfl

/-! ## Appending -/

section

variable {b : StringBuilder} {array : List (List UInt8)}

/-- The last character of the text. -/
theorem Appends.last {b b' : StringBuilder} {front : List UInt8} {c : UInt8}
    (h : b.Appends b' (front ++ [c])) : b'.buffer.byte (b.length + front.length) = c := by
  have hlength := h.length
  have hbytes := h.bytes
  rw [List.length_append, List.length_singleton, ← Nat.add_assoc] at hlength
  rw [hlength, bytesAt_add, ← List.append_assoc] at hbytes
  have hlast := (List.append_inj' hbytes rfl).2
  rw [bytesAt_succ, Nat.zero_add] at hlast
  exact (List.cons.inj hlast).1

/-- A buffer that `append_stringArray` has moved to, or not. -/
theorem resizeIf_keeps (garbage : Mem) (hsize : b.size ≤ b.buffer.size)
    (haligned : b.buffer.size % 16 = 0) (hlength : b.length < b.size) {P : Prop} [Decidable P]
    (hpos : P → 0 < b.length) (hdoubled : b.size < doubled b.size) :
    ∃ b₁, resizeIf P garbage b b.length (2 * b.size % 2 ^ 32) = some (b₁, b.length) ∧
      b.size ≤ b₁.buffer.size ∧ b₁.buffer.size % 16 = 0 ∧
      ∀ i < b.length, b₁.buffer.byte i = b.buffer.byte i := by
  unfold resizeIf
  split
  next hgrow =>
    obtain ⟨buffer, hresize, hbuffer, hkeep⟩ := resizeStringBuilder_keeps garbage (hpos hgrow)
      (by omega) haligned (by omega)
    refine ⟨_, hresize, ?_, ?_, hkeep⟩
    · dsimp only
      omega
    · dsimp only
      unfold doubled at hbuffer
      omega
  next _ => exact ⟨b, rfl, hsize, haligned, fun _ _ => rfl⟩

/-- **What it takes**: the builder moves before the `NUL` is stored, and there is room for it then. -/
theorem appendStringArray_full {garbage : Mem} {b' : StringBuilder} (hlt : b.size < 2 ^ 32)
    (hnull : ∀ string ∈ array, 0 ∉ string) (hroom : b.length + (arrayText array).length ≤ b.size)
    (hrun : appendStringArray garbage b array = some b') (happends : b.Appends b' (arrayText array)) :
    b.length + (arrayText array).length = b.size ∧
      (b.size ≤ (b.length + 3) % 2 ^ 32 → 0 < b.length) ∧ b.size < doubled b.size := by
  have htext : (arrayText array).length = ([COMMA].intercalate array).length + 2 := by
    rw [arrayText, List.length_cons, List.length_append, List.length_singleton]
  rw [appendStringArray_eq garbage hnull hroom hlt] at hrun
  obtain ⟨⟨b₁, target⟩, hresize, hrun⟩ := Option.bind_eq_some_iff.mp hrun
  obtain ⟨buffer, hstore, hrun⟩ := Option.bind_eq_some_iff.mp hrun
  obtain ⟨hpos, hlength₁, hsize₁⟩ := resizeIf_some hresize
  have htarget : target = b.length := by
    unfold resizeIf at hresize
    split at hresize
    · exact (resizeStringBuilder_some hresize).2.2.2
    · cases hresize
      rfl
  subst htarget
  unfold appendNull at hrun
  obtain ⟨⟨b₂, target₂⟩, hresize₂, hrun⟩ := Option.bind_eq_some_iff.mp hrun
  obtain ⟨buffer₂, hnul, hend⟩ := Option.bind_eq_some_iff.mp hrun
  cases hend
  unfold resizeIf at hresize₂
  by_cases hfull : b.length + (arrayText array).length = b.size
  · rw [if_pos hfull] at hresize₂
    obtain ⟨hsize₂, rfl⟩ := resizeStringBuilder_size hresize₂
    have hin := (Block.storeByte_size hnul).1
    refine ⟨hfull, hpos, ?_⟩
    dsimp only at hsize₂ hin
    omega
  · -- the `NUL` replaces the bracket
    rw [if_neg hfull] at hresize₂
    cases hresize₂
    have hlast := (show b.Appends _ ((LEFT_BRACKET :: [COMMA].intercalate array) ++
      [RIGHT_BRACKET]) from happends).last
    unfold Block.storeByte at hnul
    split at hnul
    · cases hnul
      rw [List.length_cons, ← Nat.add_assoc] at hlast
      exact absurd ((if_pos rfl).symm.trans hlast) (by decide)
    · cases hnul

/-- **It is enough.** -/
theorem appendStringArray_moves (garbage : Mem) (hsize : b.size ≤ b.buffer.size)
    (haligned : b.buffer.size % 16 = 0) (hlt : b.size < 2 ^ 32)
    (hnull : ∀ string ∈ array, 0 ∉ string) (hfull : b.length + (arrayText array).length = b.size)
    (hpos : b.size ≤ (b.length + 3) % 2 ^ 32 → 0 < b.length) (hdoubled : b.size < doubled b.size) :
    ∃ b', appendStringArray garbage b array = some b' ∧ b.Appends b' (arrayText array) := by
  have htext : (arrayText array).length = ([COMMA].intercalate array).length + 2 := by
    rw [arrayText, List.length_cons, List.length_append, List.length_singleton]
  rw [appendStringArray_eq garbage hnull (Nat.le_of_eq hfull) hlt]
  obtain ⟨b₁, hresize, hsize₁, haligned₁, hkeep₁⟩ :=
    resizeIf_keeps garbage hsize haligned (by omega) hpos hdoubled
  obtain ⟨buffer₂, hstore, hsize₂, hkeep₂, hbytes⟩ := Block.storeBytes_eq (arrayText array)
    (by omega : b.length + (arrayText array).length ≤ b₁.buffer.size)
  obtain ⟨buffer₃, hresize₃, hsize₃, hkeep₃⟩ := resizeStringBuilder_keeps garbage
    (b := ⟨buffer₂, b.length + (arrayText array).length, b.size⟩) (by dsimp only; omega)
    (by dsimp only; omega) (by dsimp only; omega) (by dsimp only; omega)
  dsimp only at hresize₃ hsize₃ hkeep₃
  have hnul := Block.storeByte_eq
    (by omega : b.length + (arrayText array).length < buffer₃.size) 0
  refine ⟨⟨{ buffer₃ with byte := storeByte buffer₃.byte (b.length + (arrayText array).length) 0 },
    b.length + (arrayText array).length, b.size⟩, ?_, rfl, ?_, if_pos rfl⟩
  · rw [hresize, Option.bind_some]
    dsimp only
    rw [hstore, Option.bind_some, appendNull, resizeIf, if_pos hfull, hresize₃]
    simp only [Option.bind_eq_bind, Option.bind_some, hnul]
    rfl
  · have hfront : bytesAt (storeByte buffer₃.byte (b.length + (arrayText array).length) 0) 0
        (b.length + (arrayText array).length) =
        bytesAt buffer₂.byte 0 (b.length + (arrayText array).length) :=
      bytesAt_congr fun i _ hi => (if_neg (by omega)).trans (hkeep₃ i (by omega))
    have hstring : bytesAt buffer₂.byte 0 b.length = bytesAt b.buffer.byte 0 b.length :=
      bytesAt_congr fun i _ hi => (hkeep₂ i (by omega)).trans (hkeep₁ i (by omega))
    dsimp only
    rw [hfront, bytesAt_add, hstring, Nat.zero_add, hbytes]

/-- **`append_stringArray` appends the text exactly when it ends at `size`**, and the builder can move
to a larger buffer whenever it has to. -/
theorem appendStringArray_appends_iff (garbage : Mem) (hsize : b.size ≤ b.buffer.size)
    (haligned : b.buffer.size % 16 = 0) (hlt : b.size < 2 ^ 32)
    (hnull : ∀ string ∈ array, 0 ∉ string)
    (hroom : b.length + (arrayText array).length ≤ b.size) :
    (∃ b', appendStringArray garbage b array = some b' ∧ b.Appends b' (arrayText array)) ↔
      b.length + (arrayText array).length = b.size ∧
        (b.size ≤ (b.length + 3) % 2 ^ 32 → 0 < b.length) ∧ b.size < doubled b.size := by
  constructor
  · rintro ⟨b', hrun, happends⟩
    exact appendStringArray_full hlt hnull hroom hrun happends
  · rintro ⟨hfull, hpos, hdoubled⟩
    exact appendStringArray_moves garbage hsize haligned hlt hnull hfull hpos hdoubled

/-- `[b]` behind one of four characters fills the builder. -/
theorem appendStringArray_appends_iff_full :
    (∃ b', appendStringArray (fun _ => 0) ⟨⟨16, textMem [0x61]⟩, 1, 4⟩ [[0x62]] = some b' ∧
        Appends ⟨⟨16, textMem [0x61]⟩, 1, 4⟩ b' (arrayText [[0x62]])) ↔
      1 + (arrayText [[0x62]]).length = 4 ∧ (4 ≤ (1 + 3) % 2 ^ 32 → 0 < 1) ∧ 4 < doubled 4 :=
  @appendStringArray_appends_iff ⟨⟨16, textMem [0x61]⟩, 1, 4⟩ [[0x62]] (fun _ => 0) (by decide)
    (by decide) (by decide) (by decide) (by decide)

/-- With room, `[b]` is left as `[b`: the length is `3`, and the third character is the `NUL`. -/
theorem appendStringArray_loses :
    (appendStringArray (fun _ => 0) ⟨⟨64, textMem []⟩, 0, 64⟩ [[0x62]]).map
        (fun b' => (b'.length, bytesAt b'.buffer.byte 0 3)) = some (3, [0x5B, 0x62, 0]) ∧
      ¬ ∃ b', appendStringArray (fun _ => 0) ⟨⟨64, textMem []⟩, 0, 64⟩ [[0x62]] = some b' ∧
        Appends ⟨⟨64, textMem []⟩, 0, 64⟩ b' (arrayText [[0x62]]) := by
  have hrun : (appendStringArray (fun _ => 0) ⟨⟨64, textMem []⟩, 0, 64⟩ [[0x62]]).map
      (fun b' => (b'.length, bytesAt b'.buffer.byte 0 3)) = some (3, [0x5B, 0x62, 0]) := by
    decide
  refine ⟨hrun, ?_⟩
  rintro ⟨b', hsome, happends⟩
  rw [hsome, Option.map_some, Option.some.injEq, Prod.mk.injEq] at hrun
  have hbytes := happends.bytes
  rw [hrun.1, hrun.2] at hbytes
  exact absurd hbytes (by decide)

end

end StringBuilder

end DevopsBroker.Lang
