import DevopsBroker.Adt.UnsignedIntArray
import DevopsBroker.Lang.StringBuilderArray

/-!
# Numbers that are added, shown and read back

An array of numbers is the list of what was added, up to `2 ^ 31` of them. What `extract` appends to
a builder is the numbers in brackets, exactly where the builder has room for them, and this text
reads back as the numbers.
-/

namespace DevopsBroker.Adt

open DevopsBroker.Lang DevopsBroker.Lang.StringBuilder DevopsBroker.Lib

/-! ## Four bytes -/

theorem uintBytes_length (value : UInt32) : (uintBytes value).length = 4 := rfl

theorem littleEndian_uintBytes (value : UInt32) : littleEndian (uintBytes value) = value.toNat := by
  have hlt := value.toNat_lt
  have hbytes : uintBytes value = [UInt8.ofNat value.toNat, UInt8.ofNat (value.toNat / 256),
      UInt8.ofNat (value.toNat / 65536), UInt8.ofNat (value.toNat / 16777216)] := by
    simp [uintBytes, List.range_succ]
  rw [hbytes]
  simp only [littleEndian_cons, UInt8.toNat_ofNat']
  have hnil : littleEndian [] = 0 := rfl
  omega

/-! ## The elements -/

namespace UnsignedIntArray

/-- The array has some elements, in a block with room for `size` of them. -/
structure Holds (listArray : UnsignedIntArray) (elements : List UInt32) : Prop where
  length : listArray.length = elements.length
  loads : ∀ i, (hi : i < elements.length) → uintAt listArray.values i = elements[i]
  length_le : listArray.length ≤ listArray.size
  size : ∃ k ≤ 27, listArray.size = 16 * 2 ^ k
  room : 4 * listArray.size ≤ listArray.values.size
  aligned : listArray.values.size % 16 = 0

theorem Holds.size_bounds {listArray : UnsignedIntArray} {elements : List UInt32}
    (h : listArray.Holds elements) : 16 ≤ listArray.size ∧ listArray.size ≤ 2 ^ 31 := by
  obtain ⟨k, hk, hsize⟩ := h.size
  have hlow := Nat.two_pow_pos k
  have hhigh : 2 ^ k ≤ 2 ^ 27 := Nat.pow_le_pow_right (by omega) hk
  omega

theorem initUnsignedIntArray_holds (garbage : Mem) :
    ∃ listArray, initUnsignedIntArray garbage = some listArray ∧ listArray.Holds [] := by
  have hmalloc := mallocArray_eq garbage
    (by decide : SIZEOF_UINT * A8638224_DEFAULT_SIZE + 15 < 2 ^ 63)
  have hroom : 4 * A8638224_DEFAULT_SIZE ≤ (SIZEOF_UINT * A8638224_DEFAULT_SIZE + 15) / 16 * 16 := by
    decide
  have haligned : (SIZEOF_UINT * A8638224_DEFAULT_SIZE + 15) / 16 * 16 % 16 = 0 := by decide
  refine ⟨_, by rw [initUnsignedIntArray, hmalloc]; rfl, rfl, nofun, Nat.zero_le _, ⟨0, by omega, rfl⟩,
    hroom, haligned⟩

theorem uintAt_congr {values values' : Block} {i : Nat}
    (h : ∀ a, 4 * i ≤ a → a < 4 * i + 4 → values'.byte a = values.byte a) :
    uintAt values' i = uintAt values i := by
  unfold uintAt
  rw [bytesAt_congr h]

/-- A block with room for twice as many. -/
theorem resize_exactly (garbage : Mem) {listArray : UnsignedIntArray} {elements : List UInt32}
    (h : listArray.Holds elements) (hfull : listArray.length = listArray.size) :
    Exactly (elements.length < 2 ^ 31)
      (fun listArray' => listArray'.Holds elements ∧ listArray'.length < listArray'.size)
      (resize garbage listArray) := by
  obtain ⟨hlow, hhigh⟩ := h.size_bounds
  have hlength := h.length
  refine ⟨fun hlt => ?_, fun hno => ?_⟩
  · have hroom := h.room
    have hdouble : 2 * listArray.size % 2 ^ 32 = 2 * listArray.size := Nat.mod_eq_of_lt (by omega)
    obtain ⟨values, hresize, hsize, hbyte⟩ := resizeArray_eq garbage
      (by omega : 0 < listArray.length) (by decide : 0 < SIZEOF_UINT)
      (by omega : listArray.length ≤ 2 * listArray.size) (by unfold SIZEOF_UINT; omega) h.aligned
      (by unfold SIZEOF_UINT; omega)
    unfold SIZEOF_UINT at hsize hbyte
    refine ⟨{ listArray with values := values, size := 2 * listArray.size }, ?_,
      ⟨hlength, fun i hi => ?_, ?_, ?_, ?_, ?_⟩, ?_⟩
    · rw [resize, hdouble, hresize]
      rfl
    · rw [← h.loads i hi]
      exact uintAt_congr fun a _ ha => hbyte a (by omega)
    · dsimp only
      omega
    · obtain ⟨k, hk, hpow⟩ := h.size
      refine ⟨k + 1, ?_, by dsimp only; rw [hpow, Nat.pow_succ]; omega⟩
      exact (Nat.pow_lt_pow_iff_right (by decide : 1 < 2)).mp (by omega : 2 ^ k < 2 ^ 27)
    · dsimp only
      omega
    · dsimp only
      omega
    · dsimp only
      omega
  · -- twice the size is no `uint32_t`
    have hdouble : 2 * listArray.size % 2 ^ 32 = 0 := by omega
    rw [resize, hdouble, resizeArray_noBlocks]
    rfl

/-- A number behind the others, where there is room. -/
theorem store_holds {listArray : UnsignedIntArray} {elements : List UInt32}
    (h : listArray.Holds elements) (hroom : listArray.length < listArray.size) (element : UInt32) :
    ∃ values, listArray.values.storeBytes (4 * listArray.length) (uintBytes element) = some values ∧
      Holds { listArray with values := values, length := (listArray.length + 1) % 2 ^ 32 }
        (elements ++ [element]) := by
  have hbounds := h.size_bounds
  have hsize := h.room
  have hlength := h.length
  obtain ⟨values, hstore, hsame, hkeep, hbytes⟩ := Block.storeBytes_eq (uintBytes element)
    (by rw [uintBytes_length]; omega : 4 * listArray.length + (uintBytes element).length ≤
      listArray.values.size)
  have hwrap : (listArray.length + 1) % 2 ^ 32 = listArray.length + 1 := Nat.mod_eq_of_lt (by omega)
  rw [hwrap]
  refine ⟨values, hstore, ?_, fun i hi => ?_, by dsimp only; omega, h.size, by dsimp only; omega, ?_⟩
  · dsimp only
    rw [List.length_append, List.length_singleton, hlength]
  · rw [List.length_append, List.length_singleton] at hi
    dsimp only
    rcases Nat.lt_or_ge i elements.length with hlt | hge
    · rw [List.getElem_append_left hlt, ← h.loads i hlt]
      exact uintAt_congr fun a _ ha => hkeep a (by omega)
    · obtain rfl : i = elements.length := by omega
      rw [uintBytes_length, hlength] at hbytes
      rw [List.getElem_concat_length rfl, uintAt, hbytes, littleEndian_uintBytes]
      exact UInt32.ofNat_toNat
  · dsimp only
    rw [hsame]
    exact h.aligned

/-- **`add` puts a number behind the others**, up to `2 ^ 31` of them. -/
theorem add_exactly (garbage : Mem) {listArray : UnsignedIntArray} {elements : List UInt32}
    (h : listArray.Holds elements) (element : UInt32) :
    Exactly (elements.length < 2 ^ 31) (fun listArray' => listArray'.Holds (elements ++ [element]))
      (add garbage listArray element) := by
  have hstored : ∀ listArray₁ : UnsignedIntArray,
      listArray₁.Holds elements ∧ listArray₁.length < listArray₁.size →
      Exactly True (fun listArray' => listArray'.Holds (elements ++ [element]))
        ((listArray₁.values.storeBytes (4 * listArray₁.length) (uintBytes element)).bind fun values =>
          some { listArray₁ with values := values, length := (listArray₁.length + 1) % 2 ^ 32 }) := by
    intro listArray₁ ⟨hholds, hroom⟩
    obtain ⟨values, hstore, hholds'⟩ := store_holds hholds hroom element
    exact Exactly.bind_some hstore (Exactly.some hholds')
  unfold add
  by_cases hfull : listArray.length = listArray.size
  · rw [if_pos hfull]
    exact ((resize_exactly garbage h hfull).bind hstored).cond (iff_of_eq (and_true _))
  · have hle := h.length_le
    have hbounds := h.size_bounds
    have hlength := h.length
    rw [if_neg hfull]
    refine Exactly.bind_some rfl ((hstored listArray ⟨h, by omega⟩).cond ?_)
    exact iff_of_true trivial (by omega)

/-! ## Showing the elements -/

/-- The digits of a number. -/
def digits (value : UInt32) : List UInt8 := numeral value.toNat

/-- What `extract` shows. -/
def shown (elements : List UInt32) : List UInt8 := arrayText (elements.map digits)

theorem load_eq {listArray : UnsignedIntArray} {elements : List UInt32} (h : listArray.Holds elements)
    {i : Nat} {value : UInt32} (hi : elements[i]? = some value) : listArray.load i = some value := by
  obtain ⟨hlt, hvalue⟩ := List.getElem?_eq_some_iff.mp hi
  have hlength := h.length
  have hle := h.length_le
  have hroom := h.room
  rw [load, if_pos (by omega), h.loads i hlt, hvalue]

/-- **The loop**, over the elements that are left. -/
theorem extractRest_exactly (garbage : Nat → Nat → Mem) {listArray : UnsignedIntArray}
    {all : List UInt32} (hall : listArray.Holds all) (rest : List UInt32) :
    ∀ {i : Nat} {b : StringBuilder} {string : List UInt8}, all.drop i = rest → b.Within string →
      0 < b.length → b.length + (elements (rest.map digits)).length < 2 ^ 30 →
      Exactly (b.length + (elements (rest.map digits)).length < room b.size)
        (fun b' => b'.Within (string ++ elements (rest.map digits)) ∧ b'.size = b.size)
        (extractRest garbage listArray rest.length i b) := by
  induction rest with
  | nil =>
    intro i b string _ h _ _
    have hnil : elements (List.map digits []) = [] := rfl
    rw [hnil, List.append_nil]
    exact (Exactly.some ⟨h, rfl⟩).cond (iff_of_true trivial h.length_lt_room)
  | cons value rest ih =>
    intro i b string hdrop h hpos hsmall
    have hcons : elements ((value :: rest).map digits) =
        COMMA :: (digits value ++ elements (rest.map digits)) := elements_cons ..
    rw [hcons, List.length_cons, List.length_append] at hsmall ⊢
    have hvalue : all[i]? = some value := by
      rw [← List.head?_drop, hdrop]
      rfl
    have hrest : all.drop (i + 1) = rest := by
      rw [← List.tail_drop, hdrop]
      rfl
    have hlength := h.length
    refine Exactly.cond (P := b.length + 1 < room b.size ∧
      b.length + 1 + (digits value).length < room b.size ∧
      b.length + 1 + (digits value).length + (elements (rest.map digits)).length < room b.size) ?_
      (by omega)
    refine (appendChar_exactly (garbage i 0) h COMMA (fun _ => hpos) (by omega)).bind fun b₁ hb₁ => ?_
    obtain ⟨hb₁, hsize₁⟩ := hb₁
    have hlength₁ : b₁.length = b.length + 1 := by
      rw [hb₁.length, List.length_append, List.length_singleton, hlength]
    rw [← hsize₁, ← hlength₁]
    refine Exactly.bind_some (load_eq hall hvalue) ?_
    refine (appendUint_exactly (garbage i 1) (garbage i 2) hb₁ value
      (by show _ + (digits value).length < _; omega)).bind fun b₂ hb₂ => ?_
    obtain ⟨hb₂, hsize₂⟩ := hb₂
    have hlength₂ : b₂.length = b₁.length + (digits value).length := by
      rw [hb₂.length, List.length_append, hb₁.length]
      rfl
    rw [← hsize₂, ← hlength₂]
    refine (ih hrest hb₂ (by omega) (by omega)).imp Iff.rfl fun b₃ hb₃ => ⟨?_, hb₃.2⟩
    have hstring : string ++ COMMA :: (digits value ++ elements (rest.map digits)) =
        string ++ [COMMA] ++ numeral value.toNat ++ elements (rest.map digits) := by
      simp [digits]
    rw [hstring]
    exact hb₃.1

theorem extractElements_exactly (garbage : Nat → Nat → Mem) {listArray : UnsignedIntArray}
    {all : List UInt32} (hall : listArray.Holds all) {b : StringBuilder} {string : List UInt8}
    (h : b.Within string) (hpos : 0 < b.length)
    (hsmall : b.length + ([COMMA].intercalate (all.map digits)).length < 2 ^ 30) :
    Exactly (b.length + ([COMMA].intercalate (all.map digits)).length < room b.size)
      (fun b' => b'.Within (string ++ [COMMA].intercalate (all.map digits)) ∧ b'.size = b.size)
      (extractElements garbage listArray b) := by
  have hcount := hall.length
  cases all with
  | nil =>
    rw [List.length_nil] at hcount
    rw [extractElements, if_neg (by omega), List.map_nil, List.intercalate_nil, List.append_nil]
    exact (Exactly.some ⟨h, rfl⟩).cond (iff_of_true trivial h.length_lt_room)
  | cons value rest =>
    rw [List.map_cons, intercalate_eq_elements, List.length_append] at hsmall ⊢
    rw [List.length_cons] at hcount
    have hlength := h.length
    have hrounds : listArray.length - 1 = rest.length := by omega
    rw [extractElements, if_pos (by omega), hrounds]
    refine Exactly.bind_some (load_eq hall (i := 0) rfl) ?_
    refine Exactly.cond (P := b.length + (digits value).length < room b.size ∧
      b.length + (digits value).length + (elements (rest.map digits)).length < room b.size) ?_ (by omega)
    refine (appendUint_exactly (garbage 0 1) (garbage 0 2) h value
      (by show _ + (digits value).length < _; omega)).bind fun b₁ hb₁ => ?_
    obtain ⟨hb₁, hsize₁⟩ := hb₁
    have hlength₁ : b₁.length = b.length + (digits value).length := by
      rw [hb₁.length, List.length_append, hlength]
      rfl
    rw [← hsize₁, ← hlength₁]
    refine (extractRest_exactly garbage hall rest (i := 1) rfl hb₁ (by omega) (by omega)).imp Iff.rfl
      fun b₂ hb₂ => ⟨?_, hb₂.2⟩
    rw [← List.append_assoc]
    exact hb₂.1

/-- **`extract` shows the elements**, where the builder has room for the text. -/
theorem extract_exactly (garbage : Nat → Nat → Mem) {listArray : UnsignedIntArray} {all : List UInt32}
    (hall : listArray.Holds all) {b : StringBuilder} {string : List UInt8} (h : b.Holds string)
    (hsize : 1 < b.size) (hsmall : b.length + (shown all).length < 2 ^ 30) :
    Exactly (b.length + (shown all).length < room b.size)
      (fun b' => b'.Within (string ++ shown all) ∧ b'.size = b.size)
      (extract garbage listArray b) := by
  have htext : (shown all).length = ([COMMA].intercalate (all.map digits)).length + 2 := by
    rw [shown, arrayText, List.length_cons, List.length_append, List.length_singleton]
  have hlength := h.length
  unfold extract
  refine Exactly.cond (P := b.length + 1 < room b.size ∧
    b.length + 1 + ([COMMA].intercalate (all.map digits)).length < room b.size ∧
    b.length + 1 + ([COMMA].intercalate (all.map digits)).length + 1 < room b.size) ?_ (by omega)
  refine (appendChar_exactly (garbage 0 0) h.within LEFT_BRACKET (by omega) (by omega)).bind fun b₁ hb₁ => ?_
  obtain ⟨hb₁, hsize₁⟩ := hb₁
  have hlength₁ : b₁.length = b.length + 1 := by
    rw [hb₁.length, List.length_append, List.length_singleton, hlength]
  rw [← hsize₁, ← hlength₁]
  refine (extractElements_exactly garbage hall hb₁ (by omega) (by omega)).bind fun b₂ hb₂ => ?_
  obtain ⟨hb₂, hsize₂⟩ := hb₂
  have hlength₂ : b₂.length = b₁.length + ([COMMA].intercalate (all.map digits)).length := by
    rw [hb₂.length, List.length_append, hb₁.length]
  rw [← hsize₂, ← hlength₂]
  refine (appendChar_exactly (garbage listArray.length 3) hb₂ RIGHT_BRACKET (by omega) (by omega)).imp
    Iff.rfl fun b₃ hb₃ => ⟨?_, hb₃.2⟩
  have hstring : string ++ shown all = string ++ [LEFT_BRACKET] ++
      [COMMA].intercalate (all.map digits) ++ [RIGHT_BRACKET] := by
    simp [shown, arrayText]
  rw [hstring]
  exact hb₃.1

/-! ## From the first `add` to the text -/

/-- One `add` after the other. -/
def addEach (garbage : Nat → Mem) : List UInt32 → UnsignedIntArray → Option UnsignedIntArray
  | [], listArray => some listArray
  | element :: rest, listArray => do
    let listArray ← listArray.add (garbage 0) element
    addEach (fun i => garbage (i + 1)) rest listArray

theorem addEach_exactly (added : List UInt32) :
    ∀ {garbage : Nat → Mem} {listArray : UnsignedIntArray} {before : List UInt32},
      listArray.Holds before → before.length ≤ 2 ^ 31 →
      Exactly ((before ++ added).length ≤ 2 ^ 31) (fun listArray' => listArray'.Holds (before ++ added))
        (addEach garbage added listArray) := by
  induction added with
  | nil =>
    intro garbage listArray before h hle
    rw [List.append_nil]
    exact (Exactly.some (Q := fun l : UnsignedIntArray => l.Holds before) h).cond
      (iff_of_true trivial hle)
  | cons element rest ih =>
    intro garbage listArray before h hle
    refine Exactly.cond (P := before.length < 2 ^ 31 ∧ (before ++ element :: rest).length ≤ 2 ^ 31) ?_ ?_
    · by_cases hlt : before.length < 2 ^ 31
      · refine (add_exactly (garbage 0) h element).bind fun listArray' hholds => ?_
        rw [List.append_cons]
        exact ih hholds (by rw [List.length_append, List.length_singleton]; omega)
      · have hfails := (add_exactly (garbage 0) h element).fails hlt
        refine ⟨fun hp => absurd hp.1 hlt, fun _ => ?_⟩
        rw [addEach, hfails]
        rfl
    · rw [List.length_append, List.length_cons]
      omega

/-- The numbers that are separated by commas, in brackets. -/
def readNumbers (text : List UInt8) : List Nat :=
  let inside := text.tail.dropLast
  if inside = [] then [] else (inside.splitOn COMMA).map decimal

theorem comma_notMem_digits (value : UInt32) : COMMA ∉ digits value := by
  intro hmem
  have hdecimal := numeral_isDecimal value.toNat COMMA hmem
  exact absurd hdecimal (by decide)

/-- **What is shown reads back.** -/
theorem readNumbers_shown (all : List UInt32) : readNumbers (shown all) = all.map UInt32.toNat := by
  have hinside : (shown all).tail.dropLast = [COMMA].intercalate (all.map digits) := by
    rw [shown, arrayText, List.tail_cons, List.dropLast_concat]
  rw [readNumbers, hinside]
  cases all with
  | nil => rfl
  | cons value rest =>
    have hne : [COMMA].intercalate ((value :: rest).map digits) ≠ [] := by
      rw [List.map_cons, intercalate_eq_elements]
      exact List.append_ne_nil_of_left_ne_nil (List.ne_nil_of_length_pos (numeral_length_pos _)) _
    have hsplit := @List.splitOn_intercalate _ ((value :: rest).map digits) _ _ COMMA
      (fun text htext => by
        obtain ⟨v, _, rfl⟩ := List.mem_map.mp htext
        exact comma_notMem_digits v) (by simp)
    rw [if_neg hne, hsplit, List.map_map]
    exact List.map_congr_left fun v _ => decimal_numeral v.toNat

/-- **Numbers that are added are shown, and read back.** An array takes up to `2 ^ 31` of them; it is
then shown exactly where the builder has room, by a text that says which numbers they were. -/
theorem added_shown (garbage : Nat → Mem) (fresh : Nat → Nat → Mem) (added : List UInt32) :
    Exactly (added.length ≤ 2 ^ 31)
        (fun listArray => ∀ (b : StringBuilder) (string : List UInt8), b.Holds string → 1 < b.size →
          b.length + (shown added).length < 2 ^ 30 →
          Exactly (b.length + (shown added).length < room b.size)
            (fun b' => b'.Within (string ++ shown added) ∧ b'.size = b.size)
            (extract fresh listArray b))
        ((initUnsignedIntArray (garbage 0)).bind (addEach (fun i => garbage (i + 1)) added)) ∧
      readNumbers (shown added) = added.map UInt32.toNat := by
  obtain ⟨listArray, hinit, hholds⟩ := initUnsignedIntArray_holds (garbage 0)
  refine ⟨Exactly.bind_some hinit ?_, readNumbers_shown added⟩
  refine (addEach_exactly added hholds (Nat.zero_le _)).imp Iff.rfl fun listArray' hholds' => ?_
  intro b string hb hsize hsmall
  exact extract_exactly fresh hholds' hb hsize hsmall

/-- `1` and `2`, shown in an empty builder of 16 bytes. -/
theorem added_shown_oneTwo :
    ∃ listArray b', (initUnsignedIntArray fun _ => 0).bind (addEach (fun _ _ => 0) [1, 2]) = some listArray ∧
      extract (fun _ _ _ => 0) listArray ⟨⟨16, textMem []⟩, 0, 16⟩ = some b' ∧
      b'.Within (shown [1, 2]) ∧ b'.size = 16 ∧ readNumbers (shown [1, 2]) = [1, 2] := by
  have htext : (shown [1, 2]).length = 5 := by decide
  obtain ⟨hadded, hread⟩ := added_shown (fun _ _ => 0) (fun _ _ _ => 0) [1, 2]
  obtain ⟨listArray, hlist, hextract⟩ := hadded.comes (by decide)
  have hroom : 0 + (shown [1, 2]).length < room 16 := by
    rw [htext]
    decide
  obtain ⟨b', hb', hwithin, hsize⟩ := (hextract ⟨⟨16, textMem []⟩, 0, 16⟩ []
    ⟨⟨rfl, rfl, by decide, by decide, by decide⟩, rfl, by decide⟩ (by decide)
    (by rw [htext]; decide)).comes hroom
  exact ⟨listArray, b', hlist, hb', hwithin, hsize, hread⟩

end UnsignedIntArray

end DevopsBroker.Adt
