import DevopsBroker.Lang.StringScan

/-!
# `net/networkdevice.c`: the name in a request

`initNetworkDeviceRequest` copies the name of a device into a request with `copyToBuffer`.
**`copyToBuffer_overruns`**: the copy does not stop at the end of the name, and its `NUL` is
behind the buffer, for every name and every number of bytes.

Mirroring notes vs the C source:
- `struct ifreq` has forty bytes, and `ifr_name` is in front.
- What is accessed is what `copyToBuffer` accesses; `meminit` clears the whole request first.
-/

namespace DevopsBroker.Net

open DevopsBroker.Lang DevopsBroker.Lib

/-- `IFNAMSIZ`. -/
def IFNAMSIZ : UInt32 := 16

/-- `sizeof(NetworkDeviceRequest)`. -/
def sizeofNetworkDeviceRequest : Nat := 40

/-- `f0185083_initNetworkDeviceRequest`, with the name of the device. -/
def initNetworkDeviceRequest (mem : Mem) (name request : Nat) : List ByteAccess × Mem :=
  copyToBuffer (meminit mem request sizeofNetworkDeviceRequest) name request IFNAMSIZ

/-- Every byte that is written is one of so many. -/
def WritesWithin (accesses : List ByteAccess) (buffer numBytes : Nat) : Prop :=
  ∀ a, .write a ∈ accesses → buffer ≤ a ∧ a < buffer + numBytes

/-- What `copyToBuffer` is for: nothing behind the end of the source is read, nothing outside of
the buffer is written, and the buffer holds as many characters as there is room for. -/
structure Truncates (source buffer numBytes : Nat) (text : List UInt8)
    (copied : List ByteAccess × Mem) : Prop where
  reads : ∀ a, .read a ∈ copied.1 → source ≤ a ∧ a ≤ source + text.length
  writes : WritesWithin copied.1 buffer numBytes
  content : bytesAt copied.2 buffer (min text.length (numBytes - 1) + 1) =
    text.take (numBytes - 1) ++ [0]

/-- `rep movsb` reads all the bytes, and writes as many. -/
theorem mem_repMovsb {n : Nat} :
    ∀ {rsi rdi : Nat} {mem : Mem} {a : Nat},
      (.read a ∈ (repMovsb n rsi rdi mem).1 ↔ rsi ≤ a ∧ a < rsi + n) ∧
        (.write a ∈ (repMovsb n rsi rdi mem).1 ↔ rdi ≤ a ∧ a < rdi + n) := by
  induction n with
  | zero =>
    intro rsi rdi mem a
    simp only [repMovsb, List.not_mem_nil, false_iff]
    omega
  | succ n ih =>
    intro rsi rdi mem a
    obtain ⟨hread, hwrite⟩ := @ih (rsi + 1) (rdi + 1) (storeByte mem rdi (mem rsi)) a
    simp only [repMovsb, List.mem_cons, ByteAccess.read.injEq, ByteAccess.write.injEq,
      reduceCtorEq, false_or, hread, hwrite]
    omega

section

variable {source buffer : Nat} {numBytes : UInt32}

/-- **The accesses of `copyToBuffer`**: it reads as many bytes as the buffer has, and writes one
more. -/
theorem mem_copyToBuffer (mem : Mem) (hsource : source ≠ 0) (hbuffer : buffer ≠ 0)
    (hnum : numBytes ≠ 0) {a : Nat} :
    (.read a ∈ (copyToBuffer mem source buffer numBytes).1 ↔
        source ≤ a ∧ a < source + numBytes.toNat) ∧
      (.write a ∈ (copyToBuffer mem source buffer numBytes).1 ↔
        buffer ≤ a ∧ a ≤ buffer + numBytes.toNat) := by
  obtain ⟨hread, hwrite⟩ := @mem_repMovsb numBytes.toNat source buffer mem a
  rw [copyToBuffer, if_neg hsource, if_neg hbuffer, if_neg hnum]
  simp only [List.mem_append, List.mem_singleton, ByteAccess.write.injEq, reduceCtorEq, or_false,
    hread, hwrite, true_and]
  omega

theorem copyToBuffer_writes (mem : Mem) (hsource : source ≠ 0) (hbuffer : buffer ≠ 0)
    (hnum : numBytes ≠ 0) :
    ¬ WritesWithin (copyToBuffer mem source buffer numBytes).1 buffer numBytes.toNat := by
  intro hwithin
  have hbehind := (mem_copyToBuffer mem hsource hbuffer hnum).2.mpr
    ⟨Nat.le_add_right buffer numBytes.toNat, Nat.le_refl _⟩
  have hlt := (hwithin _ hbehind).2
  omega

/-- **`copyToBuffer` writes behind the buffer**, whatever the string and the size are, and so does
`initNetworkDeviceRequest` behind `ifr_name`, whatever the name is. -/
theorem copyToBuffer_overruns {mem : Mem} {text : List UInt8} (hsource : source ≠ 0)
    (hbuffer : buffer ≠ 0) (hnum : numBytes ≠ 0) (_ : TextAt mem source text) :
    ¬ Truncates source buffer numBytes.toNat text (copyToBuffer mem source buffer numBytes) ∧
      ¬ WritesWithin (initNetworkDeviceRequest mem source buffer).1 buffer IFNAMSIZ.toNat :=
  ⟨fun htruncates => copyToBuffer_writes mem hsource hbuffer hnum htruncates.writes,
    copyToBuffer_writes _ hsource hbuffer (by decide)⟩

end

/-- The name `"lo"`. -/
def nameLo : Mem := storeBytes (fun _ => 0) 0x10 [0x6C, 0x6F]

theorem copyToBuffer_overruns_lo :
    ¬ Truncates 0x10 0x20 4 [0x6C, 0x6F] (copyToBuffer nameLo 0x10 0x20 4) ∧
      ¬ WritesWithin (initNetworkDeviceRequest nameLo 0x10 0x20).1 0x20 16 :=
  @copyToBuffer_overruns 0x10 0x20 4 nameLo [0x6C, 0x6F] (by decide) (by decide) (by decide)
    ⟨by decide, by decide⟩

/-- `"foo"` does not fit into three bytes: all of it is there, and the `NUL` is the fourth byte. -/
theorem not_truncates_foo :
    let mem := storeBytes (fun _ => 0) 0x10 [0x66, 0x6F, 0x6F]
    TextAt mem 0x10 [0x66, 0x6F, 0x6F] ∧ .write 0x23 ∈ (copyToBuffer mem 0x10 0x20 3).1 ∧
      ¬ Truncates 0x10 0x20 3 [0x66, 0x6F, 0x6F] (copyToBuffer mem 0x10 0x20 3) := by
  refine ⟨⟨by decide, by decide⟩, by decide, fun htruncates => ?_⟩
  have hcontent := htruncates.content
  revert hcontent
  decide

end DevopsBroker.Net
