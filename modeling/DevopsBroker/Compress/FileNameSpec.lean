import DevopsBroker.Compress.ZipArchive
import DevopsBroker.Fs.MakeDirectoryText
import DevopsBroker.Lang.StringBuilderRoom

/-!
# What becomes of a file name

- **`copyFileName_eq`**: the output directory, a slash and the name, if the builder has room for the
  directory and its slash: its `size` stays 64, so that it grows to 128 bytes and no further.
- **`makeDirectory_eq_some_iff`**: the directories of a name abort the program exactly when the name has
  more than eight pieces; else the name comes back without a slash at its end (`makeDirectory_leaves`).
-/

namespace DevopsBroker.Compress

open DevopsBroker.Lib DevopsBroker.Lang

/-! ## The name in the output directory -/

/-- The output directory, with a slash at its end. -/
def withSlash (outputDir : List UInt8) : List UInt8 :=
  if outputDir.getLast? = some Fs.SLASH then outputDir else outputDir ++ [Fs.SLASH]

/-- The name of a file in the output directory, if there is one. -/
def nameIn (outputDir : Option (List UInt8)) (fileName : List UInt8) : List UInt8 :=
  match outputDir with
  | none => fileName
  | some outputDir => withSlash outputDir ++ fileName

/-- A name of so many bytes can be joined with the output directory. -/
def NameFits (outputDir : Option (List UInt8)) (length : UInt16) : Prop :=
  length ≠ 0 → ∀ dir ∈ outputDir, (withSlash dir).length < 128

instance (outputDir : Option (List UInt8)) (length : UInt16) : Decidable (NameFits outputDir length) :=
  inferInstanceAs (Decidable (_ → ∀ dir ∈ outputDir, (withSlash dir).length < 128))

section

variable (garbage : Mem) {outputDir : List UInt8}

/-- The directory and its slash. -/
theorem appendDirectory_exactly {b : StringBuilder} (h : b.Within []) (hsize : b.size = 64)
    (hnul : 0 ∉ outputDir) :
    Exactly ((withSlash outputDir).length < 128) (fun b' => b'.Within (withSlash outputDir))
      ((b.appendString garbage outputDir).bind (appendSlash garbage)) := by
  have hroom : StringBuilder.room b.size = 128 := by rw [hsize]; rfl
  have hzero : b.length = 0 := h.length
  have hdirectory := StringBuilder.appendString_anyLength garbage h hnul (by rw [hroom]; decide)
  rw [hroom, hzero, Nat.zero_add, List.nil_append] at hdirectory
  unfold withSlash appendSlash
  by_cases hslash : outputDir.getLast? = some Fs.SLASH
  · rw [if_pos hslash]
    refine (hdirectory.bind fun b₁ ⟨hb₁, _⟩ => ?_).cond (iff_of_eq (and_true _))
    rw [hb₁.toContains.getLastChar, hslash, Option.getD_some, if_neg (not_not.mpr rfl)]
    exact Exactly.some hb₁
  · rw [if_neg hslash]
    have happend : ∀ b₁ : StringBuilder, b₁.Within outputDir ∧ b₁.size = b.size →
        Exactly (outputDir.length + 1 < 128) (fun b' => b'.Within (outputDir ++ [Fs.SLASH]))
          (if b₁.getLastChar ≠ Fs.SLASH then b₁.appendChar garbage Fs.SLASH else some b₁) := by
      intro b₁ ⟨hb₁, hsize₁⟩
      have hlength₁ := hb₁.length
      have hlt₁ := hb₁.length_lt_room
      rw [hsize₁, hroom] at hlt₁
      have hlast : b₁.getLastChar ≠ Fs.SLASH := by
        rw [hb₁.toContains.getLastChar]
        cases hlast : outputDir.getLast? with
        | none => decide
        | some c => exact fun heq => hslash (hlast.trans (congrArg some heq))
      have hchar := StringBuilder.appendChar_exactly garbage hb₁ Fs.SLASH (by omega) (by omega)
      rw [hsize₁, hroom, hlength₁] at hchar
      rw [if_pos hlast]
      exact hchar.imp Iff.rfl fun b₂ hb₂ => hb₂.1
    refine (hdirectory.bind happend).cond ?_
    rw [List.length_append, List.length_singleton]
    omega

/-- **The name in the output directory**, where the directory and its slash fit into 128 bytes. -/
theorem outputFileName_eq {bytes : List UInt8} (hnul : 0 ∉ outputDir) (hlength : bytes.length < 2 ^ 16) :
    outputFileName garbage outputDir bytes =
      if (withSlash outputDir).length < 128 then some (some (withSlash outputDir ++ bytes)) else none := by
  obtain ⟨b₀, hinit, hb₀, _, hsize₀⟩ :=
    StringBuilder.initStringBuilder_uint32_holds garbage STRINGBUILDER_DEFAULT_SIZE (by decide)
  have hinit : StringBuilder.initStringBuilder garbage = some b₀ := hinit
  have hdirectory := appendDirectory_exactly garbage hb₀.within hsize₀ hnul
  have hpos : 0 < (withSlash outputDir).length := by
    unfold withSlash
    split
    next hslash => exact List.length_pos_of_ne_nil fun hnil => by rw [hnil] at hslash; cases hslash
    next _ => simp
  unfold outputFileName
  rw [hinit, Option.bind_eq_bind, Option.bind_some, ← Option.bind_assoc]
  split
  next hroom =>
    obtain ⟨b₁, hrun, hb₁⟩ := hdirectory.comes hroom
    have hlength₁ := hb₁.length
    obtain ⟨b₂, hbytes, hb₂, hlt₂⟩ := StringBuilder.appendBytes_contains garbage hb₁ bytes (by omega)
      (by omega)
    have hlength₂ := hb₂.length
    rw [List.length_append] at hlength₂
    obtain ⟨block, hcopy, htext⟩ := StringBuilder.copyString_contains garbage hb₂ (Nat.le_of_lt hlt₂)
      (by omega)
    have hcreate : b₂.createString garbage garbage none = some (some block, b₂) := by
      unfold StringBuilder.createString
      rw [if_pos (by omega)]
      dsimp only
      rw [hcopy]
      rfl
    have hstring : bytesAt block.byte 0 b₂.length = withSlash outputDir ++ bytes := by
      rw [hb₂.length]
      exact htext.bytes
    simp only [hrun, hbytes, hcreate, Option.bind_eq_bind, Option.bind_some, Option.map_some, hstring]
    rfl
  next hno =>
    rw [hdirectory.fails hno]
    rfl

end

/-- **`fileHeader->fileName`.** -/
theorem copyFileName_eq (garbage mem : Mem) {outputDir : Option (List UInt8)}
    (hnul : ∀ dir ∈ outputDir, 0 ∉ dir) (bufPtr : Nat) (length : UInt16) :
    copyFileName garbage mem outputDir bufPtr length =
      if NameFits outputDir length then some ((copyText mem bufPtr length).map (nameIn outputDir))
      else none := by
  unfold copyFileName
  cases outputDir with
  | none =>
    have hfits : NameFits none length := fun _ => nofun
    rw [if_pos hfits]
    exact congrArg some Option.map_id'.symm
  | some dir =>
    dsimp only
    unfold copyText
    by_cases hzero : length = 0
    · have hfits : NameFits (some dir) length := fun hno => absurd hzero hno
      rw [if_pos hzero, if_pos hfits, if_pos hzero]
      rfl
    · have hlt : (bytesAt mem bufPtr length.toNat).length < 2 ^ 16 := by
        rw [bytesAt_length]
        exact length.toNat_lt
      have hfits : NameFits (some dir) length ↔ (withSlash dir).length < 128 :=
        ⟨fun h => h hzero dir rfl, fun h _ dir' hdir => by rw [← Option.some.inj hdir]; exact h⟩
      rw [if_neg hzero, outputFileName_eq garbage (hnul dir rfl) hlt, if_neg hzero]
      simp only [hfits]
      rfl

/-! ## The directories of a name -/

/-- The name as a string, without a slash at its end. -/
def asPath (fileName : List UInt8) : List UInt8 := withoutLast Fs.SLASH (fileName.takeWhile (· ≠ 0))

/-- It has at most eight pieces between its slashes. -/
def FewPieces (fileName : List UInt8) : Prop := (asPath fileName).count Fs.SLASH < 8

instance (fileName : List UInt8) : Decidable (FewPieces fileName) :=
  inferInstanceAs (Decidable (_ < _))

/-- A string that starts with a character and has no slash at its end. -/
structure Plain (fileName : List UInt8) : Prop where
  noNul : 0 ∉ fileName
  ne_nil : fileName ≠ []
  last : fileName.getLast? ≠ some Fs.SLASH

/-- It is its own path. -/
theorem Plain.asPath_eq {fileName : List UInt8} (h : Plain fileName) : asPath fileName = fileName := by
  have hstring : fileName.takeWhile (· ≠ 0) = fileName :=
    List.takeWhile_eq_self_iff.mpr fun c hc => decide_eq_true fun hzero => h.noNul (hzero ▸ hc)
  rw [asPath, hstring]
  exact if_neg h.last

instance (fileName : List UInt8) : Decidable (Plain fileName) :=
  decidable_of_iff (0 ∉ fileName ∧ fileName ≠ [] ∧ fileName.getLast? ≠ some Fs.SLASH)
    ⟨fun ⟨h1, h2, h3⟩ => ⟨h1, h2, h3⟩, fun h => ⟨h.noNul, h.ne_nil, h.last⟩⟩

theorem textAt_name (fileName : List UInt8) :
    TextAt (textMem (0x20 :: fileName)) 1 (fileName.takeWhile (· ≠ 0)) :=
  textAt_takeWhile fileName fun i => by
    rw [Nat.add_comm]
    rfl

/-- A string is what is read of it. -/
theorem stringAt_textAt {mem : Mem} {p n : Nat} {text : List UInt8} (h : TextAt mem p text)
    (hle : text.length ≤ n) : stringAt mem p n = text := by
  have hall : ∀ c ∈ text, decide (c ≠ 0) = true := by
    intro c hc
    exact decide_eq_true fun hzero => h.noNul (hzero ▸ hc)
  have hfront : bytesAt mem p text.length = text := by
    rw [← bytesAt_take _ _ (Nat.le_succ _), h.bytes, List.take_left' rfl]
  obtain ⟨more, rfl⟩ := Nat.exists_eq_add_of_le hle
  unfold stringAt
  rw [bytesAt_add, hfront, List.takeWhile_append_of_pos hall]
  cases more with
  | zero => exact List.append_nil text
  | succ more =>
    -- the `NUL` of the text ends what is read
    rw [bytesAt_succ, h.nul, List.takeWhile_cons_of_neg (by decide), List.append_nil]

section

variable (env : Env) {fileName : List UInt8} (hasFilename : Bool)

theorem length_takeWhile_le (fileName : List UInt8) :
    (fileName.takeWhile (· ≠ 0)).length ≤ fileName.length :=
  (List.takeWhile_prefix _).length_le

/-- **More than eight pieces**: the program aborts. -/
theorem makeDirectory_tooMany (hlength : fileName.length < 2 ^ 31) (hmany : ¬ FewPieces fileName) :
    makeDirectory env fileName hasFilename = some none := by
  obtain ⟨pieces, hpieces⟩ := exists_splitsInto Fs.SLASH (fileName.takeWhile (· ≠ 0))
  have hcount := hpieces.length
  have hle := length_takeWhile_le fileName
  have hslashes := (count_withoutLast_le Fs.SLASH (fileName.takeWhile (· ≠ 0))).trans List.count_le_length
  have hfull : 8 < pieces.length % 2 ^ 32 := by
    unfold FewPieces asPath at hmany
    omega
  have hrun := @Fs.makeDirectory_none env.subdirList env.moreSubdirs _ env.answer 1 DIR_DEFAULT_MODE
    hasFilename env.tree _ pieces Nat.one_ne_zero (textAt_name fileName) hpieces hfull
    (fileName.length + 10) (by omega)
  unfold makeDirectory
  dsimp only at hrun
  rw [hrun]
  rfl

/-- **Up to eight pieces**: the name comes back, as a path. -/
theorem makeDirectory_leaves (hfew : FewPieces fileName) :
    ∃ fileName', makeDirectory env fileName hasFilename = some (some fileName') ∧
      (asPath fileName ≠ [] → fileName' = asPath fileName) := by
  obtain ⟨pieces, hpieces⟩ := exists_splitsInto Fs.SLASH (fileName.takeWhile (· ≠ 0))
  have hcount := hpieces.length
  have hle := length_takeWhile_le fileName
  have hshorter := length_withoutLast_le Fs.SLASH (fileName.takeWhile (· ≠ 0))
  obtain ⟨⟨made, mem, tree⟩, hrun, htext⟩ := @Fs.makeDirectory_text env.subdirList env.moreSubdirs _
    env.answer 1 DIR_DEFAULT_MODE hasFilename env.tree _ pieces Nat.one_ne_zero (textAt_name fileName)
    hpieces (by rw [hcount]; exact hfew) (fileName.length + 10) (by omega)
  refine ⟨stringAt mem 1 fileName.length, by rw [makeDirectory, hrun]; rfl, fun hne => ?_⟩
  refine stringAt_textAt (htext fun hnil => ?_) (Nat.le_trans hshorter hle)
  -- one piece without characters is no path
  have hjoin := hpieces.join
  rw [hnil, List.intercalate_singleton] at hjoin
  exact hne hjoin.symm

/-- **The directories of a name abort the program exactly when** it has more than eight pieces. -/
theorem makeDirectory_eq_some_iff (hlength : fileName.length < 2 ^ 31) :
    (∃ fileName', makeDirectory env fileName hasFilename = some (some fileName')) ↔
      FewPieces fileName := by
  constructor
  · rintro ⟨fileName', hrun⟩
    by_contra hmany
    rw [makeDirectory_tooMany env hasFilename hlength hmany] at hrun
    cases hrun
  · intro hfew
    obtain ⟨fileName', hrun, _⟩ := makeDirectory_leaves env hasFilename hfew
    exact ⟨fileName', hrun⟩

end

end DevopsBroker.Compress
