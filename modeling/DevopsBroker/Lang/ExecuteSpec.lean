import DevopsBroker.Lang.Execute
import DevopsBroker.Lang.StringBuilderSpec
import DevopsBroker.Lib.Exactly

/-!
# What another program writes

However the pipe cuts what the child writes into pieces, `execute` puts the pieces together. The
builder of `PIPE_BUFFER_LENGTH` bytes grows for each piece once it is full, but it cannot grow while
it is empty: `execute` aborts where the first piece leaves no room.
-/

namespace DevopsBroker.Lang

open DevopsBroker.Lib StringBuilder

/-! ## Appending beyond the size -/

/-- A builder with a string, in a buffer that may have grown. -/
structure Collects (b : StringBuilder) (string : List UInt8) : Prop extends b.Contains string where
  null : b.buffer.byte b.length = 0
  length_lt : b.length < b.buffer.size

theorem StringBuilder.Holds.collects {b : StringBuilder} {string : List UInt8} (h : b.Holds string) :
    Collects b string :=
  ⟨h.toContains, h.null, Nat.lt_of_lt_of_le h.length_lt h.size_le⟩

/-- Where the buffer has room, whatever the size is. -/
theorem store_collects {b : StringBuilder} {string : List UInt8} (h : b.Contains string)
    (bytes : List UInt8) (hroom : b.length + bytes.length < b.buffer.size)
    (hsmall : b.length + bytes.length < 2 ^ 30) :
    ∃ buffer₁ buffer₂, b.buffer.storeBytes b.length bytes = some buffer₁ ∧
      buffer₁.storeByte (b.length + bytes.length) 0 = some buffer₂ ∧
      Collects ⟨buffer₂, b.length + bytes.length, b.size⟩ (string ++ bytes) := by
  -- as if the size went as far as what is stored
  let widened : StringBuilder := ⟨b.buffer, b.length, max b.size (b.length + bytes.length + 1)⟩
  have hsize := h.size_le
  have hlt := h.size_lt
  have hcontains : widened.Contains string :=
    ⟨h.length, h.bytes, by dsimp only [widened]; omega, h.aligned, by dsimp only [widened]; omega⟩
  obtain ⟨buffer₁, buffer₂, hstore, hnull, hholds⟩ :=
    store_holds hcontains bytes (by dsimp only [widened]; omega)
  have hwide := hholds.size_le
  have hlong := hholds.length_lt
  dsimp only [widened] at hstore hnull hwide hlong
  refine ⟨buffer₁, buffer₂, hstore, hnull, ⟨hholds.length, hholds.bytes, ?_, hholds.aligned, hlt⟩,
    hholds.null, ?_⟩
  · dsimp only
    omega
  · dsimp only
    omega

/-- **`append_string_uint32` beyond the size**: it grows for every piece, and not from nothing. -/
theorem appendString_uint32_exactly (garbage : Mem) {b : StringBuilder} {string : List UInt8}
    (h : Collects b string) (source : List UInt8) (hsmall : b.length + source.length < 2 ^ 30) :
    Exactly (b.size ≤ b.length + source.length + 1 → 0 < b.length)
      (fun b' => Collects b' (string ++ source) ∧ b'.length = b.length + source.length ∧
        b'.size = b.size)
      (appendString_uint32 garbage b source) := by
  have hwrap₁ : (b.length + source.length + 1) % 2 ^ 32 = b.length + source.length + 1 :=
    Nat.mod_eq_of_lt (by omega)
  have hwrap : (b.length + source.length) % 2 ^ 32 = b.length + source.length :=
    Nat.mod_eq_of_lt (by omega)
  rw [appendString_uint32_eq]
  refine ⟨fun hpos => ?_, fun hno => ?_⟩
  · -- the builder that the bytes are stored into
    have hgrow : ∃ b₁, resizeIf (b.size ≤ b.length + source.length + 1) garbage b b.length
          ((b.length + source.length + 1 + (b.length + source.length + 1) / 2) % 2 ^ 32) =
            some (b₁, b.length) ∧
        b₁.Contains string ∧ b₁.length = b.length ∧ b₁.size = b.size ∧
        b.length + source.length < b₁.buffer.size := by
      unfold resizeIf
      split
      next hfull =>
        have hle := h.length_lt
        rw [Nat.mod_eq_of_lt (by omega)]
        obtain ⟨buffer, hresize, hbuffer, hbyte⟩ := resizeArray_keeps garbage (hpos hfull) Nat.one_pos
          (by omega : 0 < b.length + source.length + 1 + (b.length + source.length + 1) / 2)
          (by omega) (by omega) h.aligned (by omega : b.length * 1 ≤ b.buffer.size)
        refine ⟨{ b with buffer := buffer }, ?_, ⟨h.length, ?_, ?_, ?_, h.size_lt⟩, rfl, rfl, ?_⟩
        · rw [resizeStringBuilder, hresize]
          rfl
        · dsimp only
          rw [← h.bytes]
          exact bytesAt_congr fun i _ hi => hbyte i (by omega)
        · dsimp only
          omega
        · dsimp only
          omega
        · dsimp only
          omega
      next hroom =>
        have hsize := h.size_le
        exact ⟨b, rfl, h.toContains, rfl, rfl, by omega⟩
    obtain ⟨b₁, hresize, hcontains, hlength, hsize, hroom⟩ := hgrow
    obtain ⟨buffer₁, buffer₂, hstore, hnull, hcollects⟩ :=
      store_collects hcontains source (by omega) (by omega)
    rw [hlength] at hstore hnull hcollects
    refine ⟨_, ?_, hcollects, rfl, hsize⟩
    unfold appendBytes
    simp only [hwrap₁, hresize, bind, Option.bind, hstore, hnull, hlength, hwrap]
    rfl
  · cases happend : appendBytes garbage b source with
    | none => rfl
    | some b' =>
      have hpos := (appendBytes_some happend).1
      rw [hwrap₁] at hpos
      exact absurd hpos hno

/-! ## Reading to the end -/

/-- What the child writes. -/
def written (reads : List (Option Chunk)) : List UInt8 :=
  reads.flatMap fun answer => (answer.map Chunk.bytes).getD []

/-- The bytes of the first answer. -/
def firstBytes : List (Option Chunk) → Nat
  | some chunk :: _ => chunk.bytes.length
  | _ => 0

theorem bind_ok_iff {ε α β : Type} {x : Except ε α} {f : α → Except ε β} {b : β} :
    (x >>= f) = .ok b ↔ ∃ a, x = .ok a ∧ f a = .ok b := by
  cases x with
  | error e => exact ⟨nofun, fun ⟨_, h, _⟩ => nomatch h⟩
  | ok a => exact ⟨fun h => ⟨a, rfl, h⟩, fun ⟨_, h, hf⟩ => Except.ok.inj h ▸ hf⟩

@[simp] theorem exitWith_ne_ok {α : Type} (errorMessage : Option StringBuilder) (a : α) :
    exitWith errorMessage ≠ .ok a := by
  intro h
  obtain ⟨message, _, hexit⟩ := bind_ok_iff.mp h
  cases hexit

@[simp] theorem orAbort_eq_ok {α : Type} {x : Option α} {a : α} : orAbort x = .ok a ↔ x = some a := by
  cases x with
  | none => exact ⟨nofun, nofun⟩
  | some a' => exact ⟨fun h => congrArg some (Except.ok.inj h), fun h => congrArg Except.ok (Option.some.inj h)⟩

@[simp] theorem orExit_eq_ok {succeeds : Bool} {message : String} {u : Unit} :
    orExit succeeds message = .ok u ↔ succeeds = true := by
  cases succeeds with
  | false => exact ⟨nofun, nofun⟩
  | true => exact ⟨fun _ => rfl, fun _ => rfl⟩

/-- **All pieces.** What is read to the end is what the child writes, and the loop comes to its end
where no read fails, and the first piece does not have to make room in an empty builder. -/
theorem readAll_collects (path : List UInt8) (reads : List (Option Chunk)) :
    ∀ {garbage : Nat → Mem} {b : StringBuilder} {string : List UInt8}, Collects b string →
      1 < b.size → b.length + (written reads).length < 2 ^ 30 →
      ((∃ b', readAll garbage path reads b = .ok b') ↔
          (∀ answer ∈ reads, answer.isSome) ∧ (b.length = 0 → firstBytes reads + 1 < b.size)) ∧
        ∀ b', readAll garbage path reads b = .ok b' → Collects b' (string ++ written reads) := by
  induction reads with
  | nil =>
    intro garbage b string h hsize _
    refine ⟨iff_of_true ⟨b, rfl⟩ ⟨nofun, fun _ => hsize⟩, fun b' hrun => ?_⟩
    rw [written, List.flatMap_nil, List.append_nil]
    exact Except.ok.inj hrun ▸ h
  | cons answer reads ih =>
    intro garbage b string h hsize hsmall
    cases answer with
    | none =>
      -- the process ends with a message
      have hends : ∀ b', readAll garbage path (none :: reads) b ≠ .ok b' := by
        intro b' hrun
        obtain ⟨bytes, hread, _⟩ := bind_ok_iff.mp hrun
        exact exitWith_ne_ok _ _ hread
      refine ⟨iff_of_false (fun ⟨b', hrun⟩ => hends b' hrun) fun hall => ?_,
        fun b' hrun => absurd hrun (hends b')⟩
      exact absurd (hall.1 none List.mem_cons_self) (by simp)
    | some chunk =>
      have hpos := chunk.pos
      have hwritten : written (some chunk :: reads) = chunk.bytes ++ written reads := rfl
      rw [hwritten, List.length_append] at hsmall
      have happend := appendString_uint32_exactly (garbage 0) h chunk.bytes (by omega)
      have hrun : ∀ b', readAll garbage path (some chunk :: reads) b = .ok b' ↔
          ∃ b₁, appendString_uint32 (garbage 0) b chunk.bytes = some b₁ ∧
            readAll (fun i => garbage (i + 1)) path reads b₁ = .ok b' := by
        intro b'
        rw [readAll, readFile, bind_ok_iff]
        simp only [Except.ok.injEq, exists_eq_left', bind_ok_iff, orAbort_eq_ok]
      have hfirst : (b.length = 0 → firstBytes (some chunk :: reads) + 1 < b.size) ↔
          (b.size ≤ b.length + chunk.bytes.length + 1 → 0 < b.length) := by
        show (b.length = 0 → chunk.bytes.length + 1 < b.size) ↔ _
        omega
      rw [hfirst, List.forall_mem_cons]
      by_cases hroom : b.size ≤ b.length + chunk.bytes.length + 1 → 0 < b.length
      · obtain ⟨b₁, happended, hcollects, hlength, hsame⟩ := happend.comes hroom
        obtain ⟨hcomes, hresult⟩ := @ih (fun i => garbage (i + 1)) _ _ hcollects (hsame ▸ hsize)
          (by omega)
        refine ⟨?_, fun b' hb' => ?_⟩
        · simp only [hrun, happended, Option.some.injEq, exists_eq_left', hcomes]
          exact ⟨fun hall => ⟨⟨rfl, hall.1⟩, hroom⟩, fun hall => ⟨hall.1.2, fun hzero => by omega⟩⟩
        · obtain ⟨b₂, happended', hrest⟩ := (hrun b').mp hb'
          rw [happended, Option.some.injEq] at happended'
          subst happended'
          rw [hwritten, ← List.append_assoc]
          exact hresult b' hrest
      · -- the builder would have to grow from nothing
        have hnone := happend.fails hroom
        have hends : ∀ b', readAll garbage path (some chunk :: reads) b ≠ .ok b' := by
          intro b' hb'
          obtain ⟨b₁, happended, _⟩ := (hrun b').mp hb'
          rw [hnone] at happended
          cases happended
        exact ⟨iff_of_false (fun ⟨b', hb'⟩ => hends b' hb') fun hall => hroom hall.2,
          fun b' hb' => absurd hb' (hends b')⟩

/-! ## The process as a whole -/

/-- A status that the parent takes for success. -/
def EndsWell (status : Int32) : Prop := WIFEXITED status = true ∧ WEXITSTATUS status = 0

theorem waitForChild_eq_ok {garbage : Nat → Mem} {child : Int32} {waited : Option Int32} {u : Unit} :
    waitForChild garbage child waited = .ok u ↔ ∃ status, waited = some status ∧ EndsWell status := by
  cases waited with
  | none =>
    rw [waitForChild]
    exact iff_of_false (exitWith_ne_ok _ _) nofun
  | some status =>
    rw [waitForChild]
    by_cases hbad : ¬ WIFEXITED status ∨ WEXITSTATUS status ≠ 0
    · rw [if_pos hbad]
      refine iff_of_false (exitWith_ne_ok _ _) fun ⟨status', hstatus, hwell⟩ => ?_
      obtain rfl := Option.some.inj hstatus
      rcases hbad with hexit | hcode
      · exact hexit hwell.1
      · exact hcode hwell.2
    · rw [if_neg hbad]
      rw [not_or, not_not, not_not] at hbad
      exact iff_of_true rfl ⟨status, rfl, hbad⟩

/-- What is said of a child that does not end well. -/
def statusMessage (status : Int32) : List UInt8 :=
  literalText "Invalid child process exit status '" ++
    signedNumeral (decide (status < 0)) status.toInt.natAbs ++ [APOSTROPHE]

/-- **The message has the status.** -/
theorem waitForChild_says (garbage : Nat → Mem) (child : Int32) {status : Int32} (hbad : ¬ EndsWell status)
    (hmin : status ≠ Int32.minValue) :
    waitForChild garbage child (some status) = .error (.exit (statusMessage status)) := by
  have hlength : (literalText "Invalid child process exit status '").length = 35 := by decide +kernel
  have hnul : 0 ∉ literalText "Invalid child process exit status '" := by decide +kernel
  have hnumeral : (signedNumeral (decide (status < 0)) status.toInt.natAbs).length ≤ 11 := by
    have hle := status.le_toInt
    have hlt := status.toInt_lt
    have hdigits := numeral_length_le (n := status.toInt.natAbs) (k := 9) (by omega)
    unfold signedNumeral
    split
    · rw [List.length_cons]
      omega
    · omega
  obtain ⟨b₀, hinit, hb₀, hlength₀, hsize₀⟩ :=
    initStringBuilder_uint32_holds (garbage 0) STRINGBUILDER_DEFAULT_SIZE (by decide)
  have hdefault : b₀.size = 64 := hsize₀
  obtain ⟨b₁, happend₁, hb₁⟩ := appendString_holds (garbage 1) hb₀ hnul (by omega)
  rw [List.nil_append] at hb₁
  have hsize₁ : b₁.size = 64 :=
    (appendString_some hnul (by omega) happend₁).2.trans hdefault
  have hlength₁ := hb₁.length
  have hroom : room 64 = 128 := rfl
  obtain ⟨b₂, happend₂, hb₂, hsize₂⟩ := (appendInt_exactly (garbage 2) (garbage 3) hb₁.within hmin
    (by omega)).comes (by rw [hsize₁]; omega)
  have hlength₂ := hb₂.length
  rw [List.length_append] at hlength₂
  obtain ⟨b₃, happend₃, hb₃, _⟩ := (appendChar_exactly (garbage 4) hb₂ APOSTROPHE (by omega)
    (by omega)).comes (by rw [hsize₂, hsize₁]; omega)
  have htext : b₃.buffer.text = some (statusMessage status) := by
    refine hb₃.text ?_
    rw [List.mem_append, List.mem_append, not_or, not_or]
    exact ⟨⟨hnul, signedNumeral_ne_zero _ _⟩, by decide⟩
  have hstatus : ¬ WIFEXITED status = true ∨ WEXITSTATUS status ≠ 0 := by
    by_contra hgood
    rw [not_or, not_not, not_not] at hgood
    exact hbad hgood
  rw [waitForChild, if_pos hstatus, initStringBuilder, hinit]
  simp only [Option.bind_eq_bind, Option.bind_some, happend₁, happend₂, happend₃, exitWith, htext]
  rfl

/-- The system calls succeed, and the child does. -/
structure Kernel.Works (kernel : Kernel) : Prop where
  pipe : kernel.pipe = true
  fork : kernel.fork.isSome
  closeWrite : kernel.closeWrite = true
  reads : ∀ answer ∈ kernel.reads, answer.isSome
  closeRead : kernel.closeRead = true
  waitpid : ∃ status, kernel.waitpid = some status ∧ EndsWell status

/-- **When `execute` returns what the child writes**, however the pipe cuts it into pieces: where
everything works, and the first piece has not more than 4094 bytes. It returns nothing else. -/
theorem execute_iff (garbage : Nat → Nat → Mem) (kernel : Kernel) (path : List UInt8)
    (hsmall : (written kernel.reads).length < 2 ^ 30) :
    ((∃ execOutput, execute garbage kernel path = .ok execOutput) ↔
        kernel.Works ∧ firstBytes kernel.reads ≤ 4094) ∧
      ∀ execOutput, execute garbage kernel path = .ok execOutput →
        Collects execOutput (written kernel.reads) := by
  obtain ⟨b, hinit, hholds, hlength, hsize⟩ :=
    initStringBuilder_uint32_holds (garbage 0 0) PIPE_BUFFER_LENGTH (by decide)
  have hsize' : b.size = 4096 := hsize
  obtain ⟨hcomes, hresult⟩ := @readAll_collects path kernel.reads (garbage 1) _ _ hholds.collects
    (by omega) (by omega)
  rw [List.nil_append] at hresult
  have hrun : ∀ execOutput, execute garbage kernel path = .ok execOutput ↔
      kernel.pipe = true ∧ kernel.fork.isSome ∧ kernel.closeWrite = true ∧
        readAll (garbage 1) path kernel.reads b = .ok execOutput ∧ kernel.closeRead = true ∧
          ∃ status, kernel.waitpid = some status ∧ EndsWell status := by
    intro execOutput
    unfold execute
    cases kernel.fork with
    | none => simp [bind_ok_iff]
    | some child =>
      simp only [bind_ok_iff, orExit_eq_ok, orAbort_eq_ok, hinit, waitForChild_eq_ok]
      constructor
      · intro ⟨_, hpipe, _, hwrite, b', hb', execOutput', hread, _, hclose, _, hwait, hend⟩
        obtain rfl := Option.some.inj hb'
        obtain rfl := Except.ok.inj hend
        exact ⟨hpipe, rfl, hwrite, hread, hclose, hwait⟩
      · intro ⟨hpipe, _, hwrite, hread, hclose, hwait⟩
        exact ⟨(), hpipe, (), hwrite, b, rfl, execOutput, hread, (), hclose, (), hwait, rfl⟩
  refine ⟨?_, fun execOutput hok => hresult execOutput ((hrun execOutput).mp hok).2.2.2.1⟩
  constructor
  · intro ⟨execOutput, hok⟩
    obtain ⟨hpipe, hfork, hwrite, hread, hclose, hwait⟩ := (hrun execOutput).mp hok
    obtain ⟨hreads, hfirst⟩ := hcomes.mp ⟨execOutput, hread⟩
    have hfits := hfirst hlength
    exact ⟨⟨hpipe, hfork, hwrite, hreads, hclose, hwait⟩, by omega⟩
  · intro ⟨hworks, hfirst⟩
    obtain ⟨execOutput, hread⟩ := hcomes.mpr ⟨hworks.reads, fun _ => by omega⟩
    exact ⟨execOutput, (hrun execOutput).mpr
      ⟨hworks.pipe, hworks.fork, hworks.closeWrite, hread, hworks.closeRead, hworks.waitpid⟩⟩

/-- Two pieces, and a child that ends well. -/
def twoPieces : Kernel where
  pipe := true
  fork := some 7
  closeWrite := true
  reads := [some ⟨[0x61], by decide, by decide⟩, some ⟨[0x62, 0x63], by decide, by decide⟩]
  closeRead := true
  waitpid := some 0

theorem execute_iff_twoPieces :
    ((∃ execOutput, execute (fun _ _ _ => 0) twoPieces [0x70] = .ok execOutput) ↔
        twoPieces.Works ∧ firstBytes twoPieces.reads ≤ 4094) ∧
      ∀ execOutput, execute (fun _ _ _ => 0) twoPieces [0x70] = .ok execOutput →
        Collects execOutput (written twoPieces.reads) :=
  execute_iff _ twoPieces [0x70] (by decide)

end DevopsBroker.Lang
