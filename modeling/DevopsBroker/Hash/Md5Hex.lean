import DevopsBroker.Hash.Md5Transform
import DevopsBroker.Lang.StringBuilderSpec
import DevopsBroker.Lib.Hexadecimal
import DevopsBroker.Lib.Rounds

/-!
# `hash/md5.linux-x86_64.asm`: digests as strings

`convertToHexadecimal` writes two digits for each byte of the state. `appendMD5` writes them behind
what a builder holds; where there is no room it moves half of that to a block that ends in front of
the `NUL`. **`appendMD5_appends_iff`**: the digits are appended exactly when they and the `NUL` fit
below `size`.

Mirroring notes vs the source:
- `none` inside of the fuel is an access outside of a block.
- `r13` is what that register of the caller points to.
- `edx` of `appendMD5` is the new length when it calls `resizeStrArray`, and `r8d` half of the old one.
-/

namespace DevopsBroker.Hash

open DevopsBroker.Lang DevopsBroker.Lib

def ZERO : UInt8 := 0x30
def UPPER_W : UInt8 := 0x57
def MD5_HASH_LENGTH : Nat := 32

/-- The bytes of the state, each word with its low one first. -/
def Md5State.bytes (state : Md5State) : List UInt8 :=
  [state.a, state.b, state.c, state.d].flatMap fun word =>
    (List.range 4).map fun i => UInt8.ofNat (word.toNat / 256 ^ i)

/-- The memory that `state` points to. -/
def Md5State.mem (state : Md5State) : Mem := fun i => state.bytes.getD i 0

/-- `baseChar + value`. -/
def hexChar (value : UInt8) : UInt8 := value + if value ≤ 9 then ZERO else UPPER_W

/-- The registers of `convertToHexadecimal`, and the block that `rdi` is in. -/
structure HexState where
  rdi : Nat
  rdx : Nat
  r10b : Nat
  buffer : Block

/-- From `convertToHexadecimal` back to it, or to its end. -/
def convertRound (state : Mem) (s : HexState) : Option (Turn HexState (Option (Block × Nat))) :=
  let written := do
    let buffer ← s.buffer.storeByte s.rdi (hexChar ((lowByte s.rdx &&& 0xF0) >>> 4))
    buffer.storeByte (s.rdi + 1) (hexChar (lowByte s.rdx &&& 0x0F))
  match written with
  | none => some (.done none)
  | some buffer =>
    let r10b := s.r10b + 1
    if r10b % 8 ≠ 0 then some (.next ⟨s.rdi + 2, s.rdx / 256, r10b, buffer⟩)
    else if r10b = 16 then some (.done (some (buffer, s.rdi + 2)))
    else some (.next ⟨s.rdi + 2, orBytes state 8 r10b 0 0, r10b, buffer⟩)

/-- `convertToHexadecimal`: the block, and `rdi`. -/
def convertToHexadecimal (fuel : Nat) (state : Mem) (buffer : Block) (rdi : Nat) :
    Option (Option (Block × Nat)) :=
  rounds (convertRound state) fuel ⟨rdi, orBytes state 8 0 0 0, 0, buffer⟩

/-- The digits, and a `NUL` behind them. -/
def convertAndEnd (fuel : Nat) (state : Mem) (buffer : Block) (rdi : Nat) : Option (Option Block) :=
  (convertToHexadecimal fuel state buffer rdi).map fun converted => do
    let (buffer, rdi) ← converted
    buffer.storeByte rdi 0

/-- `.resizeStringBuilder`, with the new length in `edx`. -/
def growBuilder (garbage : Mem) (r13 : Block) (builder : StringBuilder) (edx : Nat) :
    Option StringBuilder := do
  let newSize := (builder.size + builder.length + builder.length / 2) % 2 ^ 32
  let buffer ← resizeStrArray garbage r13 (some builder.buffer) (builder.length / 2) edx
  return { builder with buffer := buffer, size := newSize }

/-- `f1518caf_appendMD5`. -/
def appendMD5 (fuel : Nat) (garbage : Mem) (r13 : Block) (builder : StringBuilder) (state : Mem) :
    Option (Option StringBuilder) :=
  let edx := (builder.length + 32) % 2 ^ 32
  let grown := if edx < builder.size then some builder else growBuilder garbage r13 builder edx
  match grown with
  | none => some none
  | some grown =>
    (convertAndEnd fuel state grown.buffer builder.length).map fun buffer =>
      buffer.map fun buffer => { grown with buffer := buffer, length := edx }

/-- `f1518caf_getHexString`. -/
def getHexString (fuel : Nat) (garbage : Mem) (state : Mem) : Option (Option Block) :=
  match stralloc garbage MD5_HASH_LENGTH with
  | none => some none
  | some string => convertAndEnd fuel state string 0

/-! ## The digits -/

/-- The bytes with two lower-case digits each. -/
def hexText (bytes : List UInt8) : List UInt8 :=
  bytes.flatMap fun c => [hexDigitOf (c.toNat / 16), hexDigitOf (c.toNat % 16)]

theorem hexText_cons (c : UInt8) (bytes : List UInt8) :
    hexText (c :: bytes) = hexDigitOf (c.toNat / 16) :: hexDigitOf (c.toNat % 16) :: hexText bytes :=
  List.flatMap_cons ..

theorem hexText_length (bytes : List UInt8) : (hexText bytes).length = 2 * bytes.length := by
  induction bytes with
  | nil => rfl
  | cons c bytes ih =>
    rw [hexText_cons, List.length_cons, List.length_cons, List.length_cons, ih]
    omega

theorem hexChar_high (c : UInt8) : hexChar ((c &&& 0xF0) >>> 4) = hexDigitOf (c.toNat / 16) := by
  revert c
  apply forall_byte
  decide +kernel

theorem hexChar_low (c : UInt8) : hexChar (c &&& 0x0F) = hexDigitOf (c.toNat % 16) := by
  revert c
  apply forall_byte
  decide +kernel

@[simp] theorem bytes_length (state : Md5State) : state.bytes.length = 16 := rfl

theorem bytesAt_mem (state : Md5State) : bytesAt state.mem 0 16 = state.bytes := by
  rw [← bytes_length state]
  refine bytesAt_eq_iff.mpr fun i hi => ?_
  rw [Nat.zero_add, Md5State.mem, List.getD_eq_getElem _ _ hi]

/-! ## The loop -/

/-- The register holds the bytes of the state up to the next reload. -/
def Held (state : Mem) (rdx r10b : Nat) : Prop :=
  rdx = littleEndian (bytesAt state r10b (8 - r10b % 8))

theorem held_load (state : Mem) {r10b : Nat} (h : r10b % 8 = 0) :
    Held state (orBytes state 8 r10b 0 0) r10b := by
  rw [Held, h, orBytes_eq_littleEndian]

section

variable {state : Mem} {rdx r10b : Nat}

theorem Held.lowByte (h : Held state rdx r10b) : lowByte rdx = state r10b := by
  have hmore : 8 - r10b % 8 = 7 - r10b % 8 + 1 := by omega
  rw [h, hmore, bytesAt_succ, lowByte_littleEndian, List.headD_cons]

theorem Held.shift (h : Held state rdx r10b) (hmore : (r10b + 1) % 8 ≠ 0) :
    Held state (rdx / 256) (r10b + 1) := by
  have hcount : 8 - r10b % 8 = 8 - (r10b + 1) % 8 + 1 := by omega
  rw [Held, h, hcount, bytesAt_succ, littleEndian_shift, List.tail_cons]

/-- One byte: two digits, and what is next. -/
theorem convertRound_eq (h : Held state rdx r10b) (rdi : Nat) (buffer : Block) :
    convertRound state ⟨rdi, rdx, r10b, buffer⟩ =
      match buffer.storeBytes rdi (hexText [state r10b]) with
      | none => some (.done none)
      | some buffer =>
        if (r10b + 1) % 8 ≠ 0 then some (.next ⟨rdi + 2, rdx / 256, r10b + 1, buffer⟩)
        else if r10b + 1 = 16 then some (.done (some (buffer, rdi + 2)))
        else some (.next ⟨rdi + 2, orBytes state 8 (r10b + 1) 0 0, r10b + 1, buffer⟩) := by
  have hwritten (high low : UInt8) : (do
        let buffer ← buffer.storeByte rdi high
        buffer.storeByte (rdi + 1) low) = buffer.storeBytes rdi [high, low] := by
    rw [Block.storeBytes]
    cases buffer.storeByte rdi high with
    | none => rfl
    | some buffer₁ =>
      exact (Option.bind_fun_some _).symm
  unfold convertRound
  dsimp only
  rw [h.lowByte, hexChar_high, hexChar_low, hwritten]
  rfl

/-- **The loop writes the digits** of the bytes that are left. -/
theorem convertRound_returns {n : Nat} :
    ∀ {rdi rdx r10b : Nat} {buffer : Block}, r10b + (n + 1) = 16 → Held state rdx r10b →
      Returns (fun fuel => rounds (convertRound state) fuel ⟨rdi, rdx, r10b, buffer⟩)
        ((buffer.storeBytes rdi (hexText (bytesAt state r10b (n + 1)))).map
          fun buffer => (buffer, rdi + 2 * (n + 1))) := by
  induction n with
  | zero =>
    intro rdi rdx r10b buffer hlast hheld
    obtain rfl : r10b = 15 := by omega
    have hround := convertRound_eq hheld rdi buffer
    rw [bytesAt_succ]
    apply returns_done
    rw [hround]
    show _ = some (Turn.done ((buffer.storeBytes rdi (hexText [state 15])).map
      fun buffer => (buffer, rdi + 2)))
    cases buffer.storeBytes rdi (hexText [state 15]) <;> rfl
  | succ n ih =>
    intro rdi rdx r10b buffer hlast hheld
    have hround := convertRound_eq hheld rdi buffer
    have hsplit : hexText (bytesAt state r10b (n + 1 + 1)) =
        hexText [state r10b] ++ hexText (bytesAt state (r10b + 1) (n + 1)) := by
      rw [bytesAt_succ, hexText_cons, hexText_cons]
      rfl
    rw [hsplit, Block.storeBytes_append]
    cases hstore : buffer.storeBytes rdi (hexText [state r10b]) with
    | none =>
      rw [hstore] at hround
      exact returns_done hround
    | some buffer₁ =>
      rw [hstore] at hround
      dsimp only at hround
      have hrest {rdx' : Nat} (hheld' : Held state rdx' (r10b + 1))
          (hnext : convertRound state ⟨rdi, rdx, r10b, buffer⟩ =
            some (.next ⟨rdi + 2, rdx', r10b + 1, buffer₁⟩)) := by
        have hrun := returns_next hnext (ih (by omega) hheld')
        have hend : rdi + 2 + 2 * (n + 1) = rdi + 2 * (n + 1 + 1) := by omega
        rw [hend] at hrun
        exact hrun
      by_cases hmore : (r10b + 1) % 8 ≠ 0
      · rw [if_pos hmore] at hround
        exact hrest (hheld.shift hmore) hround
      · rw [if_neg hmore, if_neg (by omega)] at hround
        exact hrest (held_load state (not_not.mp hmore)) hround

end

/-- **`convertToHexadecimal`** stores two digits for each byte of the state. -/
theorem convertToHexadecimal_returns (state : Md5State) (buffer : Block) (rdi : Nat) :
    Returns (fun fuel => convertToHexadecimal fuel state.mem buffer rdi)
      ((buffer.storeBytes rdi (hexText state.bytes)).map fun buffer => (buffer, rdi + 32)) := by
  have hrun := @convertRound_returns state.mem 15 rdi _ 0 buffer rfl (held_load state.mem rfl)
  rw [bytesAt_mem] at hrun
  exact hrun

theorem convertAndEnd_returns (state : Md5State) (buffer : Block) (rdi : Nat) :
    Returns (fun fuel => convertAndEnd fuel state.mem buffer rdi)
      ((buffer.storeBytes rdi (hexText state.bytes)).bind fun buffer =>
        buffer.storeByte (rdi + 32) 0) := by
  have hrun := (convertToHexadecimal_returns state buffer rdi).map fun converted => do
    let (buffer, rdi) ← converted
    buffer.storeByte rdi 0
  cases hstore : buffer.storeBytes rdi (hexText state.bytes) with
  | none =>
    rw [hstore] at hrun
    exact hrun
  | some buffer₁ =>
    rw [hstore] at hrun
    exact hrun

/-! ## Appending -/

/-- The text is appended, the length is below the size, and there is room for the size. -/
structure AppendsWithin (b b' : StringBuilder) (text : List UInt8) : Prop
    extends b.Appends b' text where
  length_lt : b'.length < b'.size
  size_le : b'.size ≤ b'.buffer.size

section

variable {b : StringBuilder} (state : Md5State) (garbage : Mem) (r13 : Block)

/-- There is room for the digits and the `NUL`. -/
theorem appendMD5_appends (hsize : b.size ≤ b.buffer.size) (hlt : b.size < 2 ^ 32)
    (hroom : b.length + 32 < b.size) :
    ∃ b', Returns (fun fuel => appendMD5 fuel garbage r13 b state.mem) (some b') ∧
      AppendsWithin b b' (hexText state.bytes) := by
  have htext : (hexText state.bytes).length = 32 := hexText_length _
  have hwrap : (b.length + 32) % 2 ^ 32 = b.length + 32 := Nat.mod_eq_of_lt (by omega)
  obtain ⟨buffer₁, hstore, hsize₁, hkeep, hbytes⟩ := Block.storeBytes_eq (hexText state.bytes)
    (by omega : b.length + (hexText state.bytes).length ≤ b.buffer.size)
  rw [htext] at hbytes
  have hnull := Block.storeByte_eq (by omega : b.length + 32 < buffer₁.size) 0
  have hrun := convertAndEnd_returns state b.buffer b.length
  rw [hstore, Option.bind_some, hnull] at hrun
  have hreturns : Returns (fun fuel => appendMD5 fuel garbage r13 b state.mem)
      (some ⟨{ buffer₁ with byte := storeByte buffer₁.byte (b.length + 32) 0 }, b.length + 32,
        b.size⟩) := by
    simp only [appendMD5, hwrap, if_pos hroom]
    exact hrun.map _
  refine ⟨_, hreturns, ⟨?_, ?_, if_pos rfl⟩, hroom, ?_⟩
  · rw [htext]
  · -- the `NUL` is behind the digits, and these behind what was there
    have hfront : bytesAt (storeByte buffer₁.byte (b.length + 32) 0) 0 (b.length + 32) =
        bytesAt buffer₁.byte 0 (b.length + 32) :=
      bytesAt_congr fun i _ hi => if_neg (by omega)
    have hkept : bytesAt buffer₁.byte 0 b.length = bytesAt b.buffer.byte 0 b.length :=
      bytesAt_congr fun i _ hi => hkeep i (by omega)
    dsimp only
    rw [hfront, bytesAt_add, hkept, Nat.zero_add, hbytes]
  · dsimp only
    omega

/-- A block for the new length has no place for the `NUL`, and an empty one none for anything. -/
theorem convertAndEnd_fails {buffer : Block} {length : Nat} (hroom : buffer.size ≤ length + 32) :
    Returns (fun fuel => convertAndEnd fuel state.mem buffer length) none := by
  have hrun := convertAndEnd_returns state buffer length
  have hnone : ((buffer.storeBytes length (hexText state.bytes)).bind fun buffer =>
      buffer.storeByte (length + 32) 0) = none := by
    refine Option.bind_eq_none_iff.mpr fun buffer₁ hstore => ?_
    have hsize := Block.storeBytes_size _ hstore
    exact if_neg (by omega)
  rw [hnone] at hrun
  exact hrun

/-- **A builder that has to grow** does not get the digits. -/
theorem appendMD5_grown (hr13 : r13.size = 0) (hfull : b.size ≤ b.length + 32)
    (hwrap : b.length + 32 < 2 ^ 32) :
    Returns (fun fuel => appendMD5 fuel garbage r13 b state.mem) none := by
  have hmod : (b.length + 32) % 2 ^ 32 = b.length + 32 := Nat.mod_eq_of_lt hwrap
  simp only [appendMD5, hmod, if_neg (Nat.not_lt.mpr hfull)]
  cases hgrow : growBuilder garbage r13 b (b.length + 32) with
  | none => exact returns_of_eq fun _ => rfl
  | some grown =>
    unfold growBuilder at hgrow
    obtain ⟨buffer, hresize, hgrown⟩ := Option.bind_eq_some_iff.mp hgrow
    obtain rfl := Option.some.inj hgrown
    have hroom : buffer.size ≤ b.length + 32 := by
      unfold resizeStrArray Block.copyTo at hresize
      dsimp only at hresize
      split at hresize
      · obtain rfl := Option.some.inj hresize
        omega
      · split at hresize
        · obtain rfl := Option.some.inj hresize
          omega
        · split at hresize
          · obtain rfl := Option.some.inj hresize
            exact Nat.le_refl _
          · cases hresize
    exact (convertAndEnd_fails state hroom).map _

/-- The length that is stored. -/
theorem appendMD5_length {fuel : Nat} {b' : StringBuilder}
    (h : appendMD5 fuel garbage r13 b state.mem = some (some b')) :
    b'.length = (b.length + 32) % 2 ^ 32 := by
  unfold appendMD5 at h
  dsimp only at h
  split at h
  next _ => cases h
  next grown _ =>
    obtain ⟨buffer, _, hbuffer⟩ := Option.map_eq_some_iff.mp h
    obtain ⟨_, _, rfl⟩ := Option.map_eq_some_iff.mp hbuffer
    rfl

end

/-- **`appendMD5` appends the digits exactly when they fit below `size`, with the `NUL`.** -/
theorem appendMD5_appends_iff {b : StringBuilder} (hlength : b.length < b.size)
    (hsize : b.size ≤ b.buffer.size) (hlt : b.size < 2 ^ 32) (state : Md5State) :
    (∀ garbage r13, ∃ b', Returns (fun fuel => appendMD5 fuel garbage r13 b state.mem) (some b') ∧
        AppendsWithin b b' (hexText state.bytes)) ↔ b.length + 32 < b.size := by
  constructor
  · intro happends
    obtain ⟨b', hrun, happends⟩ := happends (fun _ => 0) ⟨0, fun _ => 0⟩
    have htext : (hexText state.bytes).length = 32 := hexText_length _
    have hlength' := happends.length
    obtain ⟨enough, hsome⟩ := id hrun
    rw [appendMD5_length state _ _ (hsome enough (Nat.le_refl _)), htext] at hlength'
    by_contra hfull
    have hnone := appendMD5_grown state (fun _ => 0) ⟨0, fun _ => 0⟩ rfl (Nat.not_lt.mp hfull)
      (by omega)
    cases hnone.unique hrun
  · intro hroom garbage r13
    exact appendMD5_appends state garbage r13 hsize hlt hroom

/-- `md5` in a builder for 64 characters. -/
theorem appendMD5_appends_iff_short :
    (∀ garbage r13, ∃ b', Returns (fun fuel => appendMD5 fuel garbage r13
          ⟨⟨64, textMem [0x6D, 0x64, 0x35]⟩, 3, 64⟩ (Md5State.mem ⟨1, 2, 3, 4⟩)) (some b') ∧
        AppendsWithin ⟨⟨64, textMem [0x6D, 0x64, 0x35]⟩, 3, 64⟩ b' (hexText (Md5State.bytes ⟨1, 2, 3, 4⟩))) ↔
      3 + 32 < 64 :=
  @appendMD5_appends_iff ⟨⟨64, textMem [0x6D, 0x64, 0x35]⟩, 3, 64⟩ (by decide) (by decide) (by decide)
    ⟨1, 2, 3, 4⟩

/-- A builder with 40 of 64 characters: the new block has 72 bytes, and the `NUL` is the next one. -/
theorem appendMD5_overruns :
    Returns (fun fuel => appendMD5 fuel (fun _ => 0) ⟨0, fun _ => 0⟩
        ⟨⟨64, textMem (List.replicate 40 0x61)⟩, 40, 64⟩ (Md5State.mem ⟨1, 2, 3, 4⟩)) none ∧
      ¬ ∃ b', Returns (fun fuel => appendMD5 fuel (fun _ => 0) ⟨0, fun _ => 0⟩
          ⟨⟨64, textMem (List.replicate 40 0x61)⟩, 40, 64⟩ (Md5State.mem ⟨1, 2, 3, 4⟩)) (some b') := by
  have hrun := @appendMD5_grown ⟨⟨64, textMem (List.replicate 40 0x61)⟩, 40, 64⟩ ⟨1, 2, 3, 4⟩
    (fun _ => 0) ⟨0, fun _ => 0⟩ rfl (by decide) (by decide)
  refine ⟨hrun, ?_⟩
  rintro ⟨b', hrun'⟩
  cases hrun.unique hrun'

/-! ## A new string -/

/-- `getHexString` has room for all of it. -/
theorem getHexString_returns (state : Md5State) (garbage : Mem) :
    ∃ string, Returns (fun fuel => getHexString fuel garbage state.mem) (some string) ∧
      TextAt string.byte 0 (hexText state.bytes) := by
  have htext : (hexText state.bytes).length = 32 := hexText_length _
  obtain ⟨buffer₁, hstore, hsize, _, hbytes⟩ := Block.storeBytes_eq (b := ⟨48, garbage⟩) (i := 0)
    (hexText state.bytes) (by rw [htext]; exact Nat.le_add_left 32 16)
  have hnull := Block.storeByte_eq (b := buffer₁) (i := 0 + 32)
    (by rw [hsize]; exact Nat.lt_add_of_pos_left (n := 32) (k := 16) (by decide)) 0
  have hrun := convertAndEnd_returns state ⟨48, garbage⟩ 0
  rw [hstore, Option.bind_some, hnull] at hrun
  refine ⟨_, hrun, ?_, ?_⟩
  · intro hmem
    obtain ⟨c, _, hc⟩ := List.mem_flatMap.mp hmem
    have hdigit (n : Nat) (hn : n < 16) : (0 : UInt8) ≠ hexDigitOf n :=
      fun heq => (hexDigitOf_spec n hn).1.ne_zero heq.symm
    have hlt := c.toNat_lt
    rcases List.mem_cons.mp hc with hc | hc
    · exact hdigit _ (by omega) hc
    · exact hdigit _ (by omega) (List.mem_singleton.mp hc)
  · rw [htext] at hbytes ⊢
    have hfront : bytesAt (storeByte buffer₁.byte (0 + 32) 0) 0 32 = bytesAt buffer₁.byte 0 32 :=
      bytesAt_congr fun i _ hi => if_neg (by omega)
    dsimp only
    rw [bytesAt_add, hfront, hbytes]
    rfl

end DevopsBroker.Hash
