import DevopsBroker.Io.FileBufferList
import Mathlib.Algebra.Ring.Int.Defs
import Mathlib.Data.List.Chain
import Mathlib.Logic.Function.Basic

/-!
# Which bytes a lookup leads to

The FileBuffers of a list hold consecutive pieces of a file (`Contiguous`), so that
each byte of the file is at one address (`addressOf`). A lookup leaves its position in
the `dataOffset` of the FileBuffer it finds, where it stays until the next lookup
that ends up in that FileBuffer; `starts` keeps account of these positions.

- `processed_iff`: walking a chain meets the bytes of the file in order exactly when
  all FileBuffers behind the first one, as far as the data goes, are at their start;
- `containsData_spec`: a lookup inside the list finds the FileBuffer with the offset;
- **`lookup_exact_iff`**: after any lookups, `crc32` and `write` process the range that
  was asked for exactly when none of the later FileBuffers of the range was left
  elsewhere by an earlier lookup.
-/

namespace DevopsBroker.Io

open DevopsBroker.Lib DevopsBroker.Hash

/-! ## The file in memory -/

/-- The offset behind the last byte of a FileBuffer. -/
def FileBuffer.fileEnd (b : FileBuffer) : Int := b.fileOffset + b.numBytes

/-- Every FileBuffer begins in the file where the one before it ends. -/
structure Contiguous (buffers : List FileBuffer) : Prop where
  next : buffers.IsChain fun a b => b.fileOffset = a.fileEnd
  numBytes_lt : ∀ b ∈ buffers, b.numBytes < 2 ^ 32

/-- Where byte `offset` of the file is in memory. -/
def addressOf (buffers : List FileBuffer) (offset : Int) : Nat :=
  match buffers.find? fun b => decide (b.fileOffset ≤ offset ∧ offset < b.fileEnd) with
  | some b => b.buffer + (offset - b.fileOffset).toNat
  | none => 0

/-- The addresses of `length` bytes of the file from `offset` on. -/
def fileAddresses (buffers : List FileBuffer) (offset : Int) (length : Nat) : List Nat :=
  (List.range length).map fun k : Nat => addressOf buffers (offset + k)

theorem addressOf_cons_self {b : FileBuffer} (rest : List FileBuffer) {offset : Int}
    (hlow : b.fileOffset ≤ offset) (hhigh : offset < b.fileEnd) :
    addressOf (b :: rest) offset = b.buffer + (offset - b.fileOffset).toNat := by
  unfold addressOf
  rw [List.find?_cons_of_pos (by simpa using ⟨hlow, hhigh⟩)]

theorem addressOf_cons_of_le {b : FileBuffer} (rest : List FileBuffer) {offset : Int}
    (h : b.fileEnd ≤ offset) : addressOf (b :: rest) offset = addressOf rest offset := by
  unfold addressOf
  rw [List.find?_cons_of_neg (by simp; omega)]

theorem fileAddresses_add (buffers : List FileBuffer) (offset : Int) (n m : Nat) :
    fileAddresses buffers offset (n + m) =
      fileAddresses buffers offset n ++ fileAddresses buffers (offset + n) m := by
  unfold fileAddresses
  rw [List.range_add, List.map_append, List.map_map]
  congr 1
  refine List.map_congr_left fun k _ => ?_
  show addressOf buffers (offset + ((n + k : Nat) : Int)) = addressOf buffers (offset + n + k)
  rw [Int.natCast_add, Int.add_assoc]

/-- Bytes that lie in one FileBuffer are next to each other. -/
theorem fileAddresses_inside {b : FileBuffer} (rest : List FileBuffer) {d length : Nat}
    (h : d + length ≤ b.numBytes) :
    fileAddresses (b :: rest) (b.fileOffset + d) length = List.range' (b.buffer + d) length := by
  unfold fileAddresses
  rw [← Nat.add_zero (b.buffer + d), ← List.map_add_range', ← List.range_eq_range']
  refine List.map_congr_left fun k hk => ?_
  have hk := List.mem_range.mp hk
  have hend : b.fileEnd = b.fileOffset + b.numBytes := rfl
  rw [addressOf_cons_self rest (by omega) (by omega)]
  omega

/-- Bytes behind a FileBuffer are those of the ones that follow. -/
theorem fileAddresses_behind {b : FileBuffer} (rest : List FileBuffer) {offset : Int}
    (length : Nat) (h : b.fileEnd ≤ offset) :
    fileAddresses (b :: rest) offset length = fileAddresses rest offset length :=
  List.map_congr_left fun _ _ => addressOf_cons_of_le rest (by omega)

/-- In order: where a FileBuffer ends, or later, all the following ones begin. -/
theorem Contiguous.pairwise {buffers : List FileBuffer} (h : Contiguous buffers) :
    buffers.Pairwise fun a b => a.fileEnd ≤ b.fileOffset := by
  have htrans : ∀ {a b c : FileBuffer}, a.fileEnd ≤ b.fileOffset → b.fileEnd ≤ c.fileOffset →
      a.fileEnd ≤ c.fileOffset := by
    intro a b c hab hbc
    have hend : b.fileEnd = b.fileOffset + b.numBytes := rfl
    omega
  have : Trans (fun a b : FileBuffer => a.fileEnd ≤ b.fileOffset)
      (fun a b : FileBuffer => a.fileEnd ≤ b.fileOffset)
      (fun a b : FileBuffer => a.fileEnd ≤ b.fileOffset) := ⟨htrans⟩
  exact List.isChain_iff_pairwise.mp (h.next.imp fun a b hab => Int.le_of_eq hab.symm)

theorem Contiguous.tail {b : FileBuffer} {rest : List FileBuffer} (h : Contiguous (b :: rest)) :
    Contiguous rest :=
  ⟨h.next.tail, fun c hc => h.numBytes_lt c (List.mem_cons_of_mem b hc)⟩

/-! ## Walking a chain -/

/-- The addresses that are handed on, in order. -/
def processed (chain : List FileBuffer) (length : Nat) : Option (List Nat) :=
  forPieces (fun addresses bufferPtr bufferLength =>
    addresses ++ List.range' bufferPtr bufferLength) chain length []

/-- What the pieces are folded into may be followed by a further function. -/
theorem forPieces_map {σ τ : Type} {f : σ → Nat → Nat → σ} {g : τ → Nat → Nat → τ} (h : σ → τ)
    (hstep : ∀ s p n, h (f s p n) = g (h s) p n) :
    ∀ (chain : List FileBuffer) (length : Nat) (s : σ),
      (forPieces f chain length s).map h = forPieces g chain length (h s) := by
  intro chain
  induction chain with
  | nil =>
    intro length s
    cases length <;> rfl
  | cons b next ih =>
    intro length s
    cases length with
    | zero => rfl
    | succ length =>
      rw [forPieces, forPieces, ih, hstep]

/-- `write` hands the processed addresses to `writeFile`. -/
theorem write_eq (chain : List FileBuffer) (length : Nat) :
    (write chain length).map (fun calls => calls.flatMap fun call => List.range' call.1 call.2) =
      processed chain length := by
  refine forPieces_map _ (fun calls p n => ?_) chain length []
  rw [List.flatMap_append]
  simp

/-- **`crc32` is the CRC-32 of the bytes at the processed addresses.** -/
theorem crc32_eq_processed (mem : Mem) (chain : List FileBuffer) (length : Nat) :
    crc32 mem chain length =
      (processed chain length).map fun addresses => crcOf crc32Polynomial (addresses.map mem) := by
  have hbytes : ∀ p n, bytesAt mem p n = (List.range' p n).map mem := by
    intro p n
    rw [← Nat.add_zero p, ← List.map_add_range', List.map_map, ← List.range_eq_range', Nat.add_zero]
    rfl
  symm
  have hstart : crcOf crc32Polynomial (([] : List Nat).map mem) = 0 := crcUpdate_nil _ _
  unfold processed crc32
  rw [← hstart]
  refine forPieces_map _ (fun addresses p n => ?_) chain length []
  rw [Hash.crc32_eq, hbytes, List.map_append]
  exact crcUpdate_append _ _ _ _

/-- The first piece, and what follows it. -/
theorem processed_cons (b : FileBuffer) (next : List FileBuffer) {length : Nat}
    (hle : b.dataOffset ≤ b.numBytes) (hlt : b.numBytes < 2 ^ 32) :
    processed (b :: next) length =
      (processed next (length - (b.numBytes - b.dataOffset))).map fun addresses =>
        List.range' (b.buffer + b.dataOffset) (min length (b.numBytes - b.dataOffset)) ++ addresses := by
  have hacc : ∀ (chain : List FileBuffer) (n : Nat) (front : List Nat),
      forPieces (fun addresses p n => addresses ++ List.range' p n) chain n front =
        (processed chain n).map (front ++ ·) := by
    intro chain n front
    have h := forPieces_map (f := fun addresses p n => addresses ++ List.range' p n)
      (g := fun addresses p n => addresses ++ List.range' p n) (front ++ ·)
      (fun s p n => (List.append_assoc front s (List.range' p n)).symm) chain n []
    rw [List.append_nil] at h
    exact h.symm
  cases length with
  | zero =>
    rw [Nat.zero_sub, Nat.zero_min]
    cases next <;> rfl
  | succ length =>
    have hwrap : (b.numBytes + 2 ^ 32 - b.dataOffset) % 2 ^ 32 = b.numBytes - b.dataOffset := by
      omega
    rw [processed, forPieces, hwrap, hacc, List.nil_append]
    split
    next hgt =>
      have hnone : length + 1 - (b.numBytes - b.dataOffset) = 0 := by omega
      rw [Nat.min_eq_left (by omega), Nat.sub_self, hnone]
    next hgt => rw [Nat.min_eq_right (by omega)]

/-- No position is past the data of its FileBuffer, nor at the end of it, except in
the last FileBuffer. -/
def Settled (chain : List FileBuffer) : Prop :=
  ∀ (j : Nat) (b : FileBuffer), chain[j]? = some b →
    b.dataOffset = 0 ∨ b.dataOffset < b.numBytes ∨
      (j + 1 = chain.length ∧ b.dataOffset = b.numBytes)

theorem Settled.tail {b : FileBuffer} {rest : List FileBuffer} (h : Settled (b :: rest)) :
    Settled rest := by
  intro j c hj
  have hc := h (j + 1) c (by rw [List.getElem?_cons_succ]; exact hj)
  rw [List.length_cons] at hc
  omega

theorem Settled.dataOffset_le {chain : List FileBuffer} (h : Settled chain) {b : FileBuffer}
    (hb : b ∈ chain) : b.dataOffset ≤ b.numBytes := by
  obtain ⟨j, hj⟩ := List.mem_iff_getElem?.mp hb
  have := h j b hj
  omega

/-- A FileBuffer that is not at its start does not lead to the byte it starts with. -/
theorem processed_moved {b : FileBuffer} {rest : List FileBuffer} (hc : Contiguous (b :: rest))
    (hs : Settled (b :: rest)) (hmoved : b.dataOffset ≠ 0) {length : Nat} (hpos : 0 < length) :
    processed (b :: rest) length ≠ some (fileAddresses (b :: rest) b.fileOffset length) := by
  have hlt := hc.numBytes_lt b (List.mem_cons_self ..)
  have hle := hs.dataOffset_le (List.mem_cons_self ..)
  rw [processed_cons b rest hle hlt]
  intro heq
  obtain ⟨addresses, hrest, heq⟩ := Option.map_eq_some_iff.mp heq
  rcases hs 0 b rfl with hzero | hinside | ⟨hlast, hend⟩
  · exact hmoved hzero
  · -- the first address is already wrong
    obtain ⟨n, hn⟩ : ∃ n, min length (b.numBytes - b.dataOffset) = n + 1 :=
      ⟨min length (b.numBytes - b.dataOffset) - 1, by omega⟩
    obtain ⟨m, rfl⟩ : ∃ m, length = 1 + m := ⟨length - 1, by omega⟩
    have hfirst : fileAddresses (b :: rest) b.fileOffset 1 = [b.buffer] := by
      have h := fileAddresses_inside rest (show 0 + 1 ≤ b.numBytes by omega)
      rw [Int.natCast_zero, Int.add_zero] at h
      exact h
    rw [hn, List.range'_succ, fileAddresses_add, hfirst, List.cons_append] at heq
    have hhead := (List.cons.inj heq).1
    omega
  · -- the chain ends before any byte is found
    obtain rfl : rest = [] := List.length_eq_zero_iff.mp (by rw [List.length_cons] at hlast; omega)
    rw [hend, Nat.sub_self, Nat.sub_zero] at hrest
    obtain ⟨m, rfl⟩ : ∃ m, length = m + 1 := ⟨length - 1, by omega⟩
    exact absurd hrest (by simp [processed, forPieces])

/-- Data that ends in the first FileBuffer. -/
theorem processed_inside {b : FileBuffer} {rest : List FileBuffer} {length : Nat}
    (h : b.dataOffset + length ≤ b.numBytes) (hlt : b.numBytes < 2 ^ 32) :
    processed (b :: rest) length =
      some (fileAddresses (b :: rest) (b.fileOffset + b.dataOffset) length) := by
  have hnil : processed rest 0 = some [] := by cases rest <;> rfl
  have hrest : length - (b.numBytes - b.dataOffset) = 0 := by omega
  have hmin : min length (b.numBytes - b.dataOffset) = length := by omega
  rw [processed_cons b rest (by omega) hlt, hrest, hmin, fileAddresses_inside rest h, hnil,
    Option.map_some, List.append_nil]

/-- **Walking a chain** from a position in its first FileBuffer meets the bytes of the
file in order exactly when the FileBuffers behind it, as far as the data goes, are at
their start. -/
theorem processed_iff :
    ∀ (rest : List FileBuffer) {b : FileBuffer} {length : Nat}, Contiguous (b :: rest) →
      Settled (b :: rest) →
      b.fileOffset + b.dataOffset + length ≤ (rest.getLast?.getD b).fileEnd →
      (processed (b :: rest) length
          = some (fileAddresses (b :: rest) (b.fileOffset + b.dataOffset) length) ↔
        ∀ c ∈ rest, c.fileOffset < b.fileOffset + b.dataOffset + length → c.dataOffset = 0) := by
  intro rest
  induction rest with
  | nil =>
    intro b length hc hs hend
    have hlt := hc.numBytes_lt b (List.mem_cons_self ..)
    have hfile : b.fileEnd = b.fileOffset + b.numBytes := rfl
    have hend : b.fileOffset + b.dataOffset + length ≤ b.fileEnd := hend
    rw [processed_inside (by omega) hlt]
    exact ⟨fun _ c hmem => absurd hmem (List.not_mem_nil), fun _ => rfl⟩
  | cons c rest ih =>
    intro b length hc hs hend
    have hlt := hc.numBytes_lt b (List.mem_cons_self ..)
    have hle := hs.dataOffset_le (List.mem_cons_self ..)
    have hfile : b.fileEnd = b.fileOffset + b.numBytes := rfl
    have hnext : c.fileOffset = b.fileEnd := (List.isChain_cons_cons.mp hc.next).1
    rcases Nat.lt_or_ge b.numBytes (b.dataOffset + length) with hspan | hinside
    · obtain ⟨m, hm⟩ : ∃ m, length = (b.numBytes - b.dataOffset) + m :=
        ⟨length - (b.numBytes - b.dataOffset), by omega⟩
      subst hm
      -- what is behind the first FileBuffer must be met from the start of the second one
      have hreduce : processed (b :: c :: rest) (b.numBytes - b.dataOffset + m) =
          some (fileAddresses (b :: c :: rest) (b.fileOffset + b.dataOffset)
            (b.numBytes - b.dataOffset + m)) ↔
          processed (c :: rest) m = some (fileAddresses (c :: rest) c.fileOffset m) := by
        have hsecond : b.fileOffset + b.dataOffset + ((b.numBytes - b.dataOffset : Nat) : Int)
            = c.fileOffset := by omega
        rw [processed_cons b (c :: rest) hle hlt, Nat.add_sub_cancel_left,
          Nat.min_eq_right (Nat.le_add_right _ _), fileAddresses_add,
          fileAddresses_inside (c :: rest) (by omega), hsecond,
          fileAddresses_behind (c :: rest) m (by omega)]
        cases processed (c :: rest) m with
        | none => simp
        | some addresses => simp
      rw [hreduce]
      by_cases hstart : c.dataOffset = 0
      · have hlast : (rest.getLast?.getD c).fileEnd = ((c :: rest).getLast?.getD b).fileEnd := by
          cases hr : rest with
          | nil => rfl
          | cons x xs => simp [List.getLast?_cons]
        have hrec := @ih c m hc.tail hs.tail (by rw [hlast]; omega)
        rw [hstart, Int.natCast_zero, Int.add_zero] at hrec
        rw [hrec, List.forall_mem_cons]
        have hlimit : b.fileOffset + b.dataOffset + ((b.numBytes - b.dataOffset + m : Nat) : Int)
            = c.fileOffset + m := by omega
        rw [hlimit]
        exact ⟨fun h => ⟨fun _ => hstart, h⟩, fun h => h.2⟩
      · refine ⟨fun h => absurd h (processed_moved hc.tail hs.tail hstart (by omega)), fun h => ?_⟩
        exact absurd (h c (List.mem_cons_self ..) (by omega)) hstart
    · -- all of it is in the first one, and no other is reached
      rw [processed_inside hinside hlt]
      refine ⟨fun _ x hx hxlt => ?_, fun _ => rfl⟩
      have hx := List.rel_of_pairwise_cons hc.pairwise hx
      omega

/-! ## Lookups -/

/-- The list built by adding FileBuffers to an empty one. -/
def build (buffers : List FileBuffer) : FileBufferList :=
  buffers.foldl addBuffer initFileBufferList

/-- The list after some lookups, each an offset and a length. -/
def lookups (bufferList : FileBufferList) (calls : List (Int × Nat)) : FileBufferList :=
  calls.foldl (fun l call => (containsData l call.1 call.2).1) bufferList

/-- The file offset range is inside the list. -/
def InRange : List FileBuffer → Int → Nat → Prop
  | [], _, _ => False
  | b :: rest, offset, length =>
    b.fileOffset ≤ offset ∧ offset + length ≤ (rest.getLast?.getD b).fileEnd

instance (buffers : List FileBuffer) (offset : Int) (length : Nat) :
    Decidable (InRange buffers offset length) :=
  match buffers with
  | [] => inferInstanceAs (Decidable False)
  | b :: rest => inferInstanceAs (Decidable (b.fileOffset ≤ offset ∧
      offset + length ≤ (rest.getLast?.getD b).fileEnd))

/-- The FileBuffer where a range begins: the last one that starts at or before it. -/
def home (buffers : List FileBuffer) (offset : Int) : Nat :=
  (buffers.countP fun b => decide (b.fileOffset ≤ offset)) - 1

/-- Where a range begins in that FileBuffer. -/
def startIn (buffers : List FileBuffer) (offset : Int) : Nat :=
  ((buffers[home buffers offset]?).map fun b => (offset - b.fileOffset).toNat).getD 0

/-- The position that some lookups leave in each FileBuffer: the one of the last of
them that began there, or its start. -/
def starts (buffers : List FileBuffer) (calls : List (Int × Nat)) : Nat → Nat :=
  calls.foldl (fun d call =>
    if InRange buffers call.1 call.2 then
      Function.update d (home buffers call.1) (startIn buffers call.1)
    else d) fun _ => 0

/-- The FileBuffers with the given positions. -/
def place (d : Nat → Nat) (buffers : List FileBuffer) : List FileBuffer :=
  buffers.mapIdx fun j b => { b with dataOffset := d j }

theorem place_cons (d : Nat → Nat) (b : FileBuffer) (rest : List FileBuffer) :
    place d (b :: rest) = { b with dataOffset := d 0 } :: place (fun j => d (j + 1)) rest :=
  List.mapIdx_cons

theorem place_getElem? (d : Nat → Nat) (buffers : List FileBuffer) (j : Nat) :
    (place d buffers)[j]? = (buffers[j]?).map fun b => { b with dataOffset := d j } :=
  List.getElem?_mapIdx

/-- Positions do not move the bytes of the file. -/
theorem addressOf_place (d : Nat → Nat) (buffers : List FileBuffer) (offset : Int) :
    addressOf (place d buffers) offset = addressOf buffers offset := by
  induction buffers generalizing d with
  | nil => rfl
  | cons b rest ih =>
    rw [place_cons]
    by_cases hin : b.fileOffset ≤ offset ∧ offset < b.fileEnd
    · -- the byte is in the first one, whatever its position
      rw [addressOf_cons_self rest hin.1 hin.2]
      exact addressOf_cons_self _ hin.1 hin.2
    · have hout := ih fun j => d (j + 1)
      unfold addressOf at hout ⊢
      rw [List.find?_cons_of_neg (by rw [decide_eq_true_eq]; exact hin),
        List.find?_cons_of_neg (by rw [decide_eq_true_eq]; exact hin)]
      exact hout

theorem countP_place (offset : Int) (buffers : List FileBuffer) :
    ∀ d : Nat → Nat, ((place d buffers).countP fun b => decide (b.fileOffset ≤ offset)) =
      buffers.countP fun b => decide (b.fileOffset ≤ offset) := by
  induction buffers with
  | nil => intro d; rfl
  | cons b rest ih => intro d; rw [place_cons, List.countP_cons, List.countP_cons, ih]

theorem contiguous_place {buffers : List FileBuffer} (h : Contiguous buffers) (d : Nat → Nat) :
    Contiguous (place d buffers) := by
  refine ⟨?_, fun c hmem => ?_⟩
  · have hnext := h.next
    clear h
    induction buffers generalizing d with
    | nil => exact List.isChain_nil
    | cons b rest ih =>
      have hrec := ih (fun j => d (j + 1)) hnext.tail
      cases rest with
      | nil => exact List.isChain_singleton _
      | cons c rest =>
        rw [place_cons] at hrec ⊢
        rw [place_cons]
        exact List.isChain_cons_cons.mpr ⟨(List.isChain_cons_cons.mp hnext).1, hrec⟩
  · obtain ⟨j, hj⟩ := List.mem_iff_getElem?.mp hmem
    rw [place_getElem?] at hj
    obtain ⟨b, hb, rfl⟩ := Option.map_eq_some_iff.mp hj
    exact h.numBytes_lt b (List.mem_of_getElem? hb)

/-- Moving one FileBuffer. -/
theorem place_seek (d : Nat → Nat) {buffers : List FileBuffer} {i : Nat} {b : FileBuffer}
    (hb : buffers[i]? = some b) (offset : Int) :
    (place d buffers).modify i (FileBuffer.seek offset) =
      place (Function.update d i ((offset - b.fileOffset) % 2 ^ 32).toNat) buffers := by
  refine List.ext_getElem? fun j => ?_
  rw [List.getElem?_modify, place_getElem?, place_getElem?]
  by_cases hj : i = j
  · subst hj
    rw [hb]
    simp [FileBuffer.seek]
  · rw [Function.update_of_ne (Ne.symm hj)]
    cases buffers[j]? <;> simp [hj]

/-! ## The FileBuffer that is found -/

/-- In order, the FileBuffers that start at or before an offset come first. -/
theorem le_iff_lt_countP {buffers : List FileBuffer} (offset : Int)
    (h : buffers.Pairwise fun a b => a.fileEnd ≤ b.fileOffset) :
    ∀ {j : Nat} {b : FileBuffer}, buffers[j]? = some b →
      (b.fileOffset ≤ offset ↔ j < buffers.countP fun b => decide (b.fileOffset ≤ offset)) := by
  induction h with
  | nil => intro j b hj; exact absurd hj (by simp)
  | @cons a rest hrest _ ih =>
    intro j b hj
    rw [List.countP_cons]
    by_cases ha : a.fileOffset ≤ offset
    · rw [if_pos (decide_eq_true ha)]
      cases j with
      | zero =>
        obtain rfl : a = b := Option.some.inj hj
        exact ⟨fun _ => Nat.succ_pos _, fun _ => ha⟩
      | succ j =>
        rw [List.getElem?_cons_succ] at hj
        rw [ih hj, Nat.add_lt_add_iff_right]
    · -- the first one starts behind the offset, and so do all others
      have hbehind : ∀ c ∈ rest, ¬ c.fileOffset ≤ offset := by
        intro c hc
        have hac := hrest c hc
        have hend : a.fileEnd = a.fileOffset + a.numBytes := rfl
        omega
      have hzero : (rest.countP fun b => decide (b.fileOffset ≤ offset)) = 0 :=
        List.countP_eq_zero.mpr fun c hc => by simpa using hbehind c hc
      rw [hzero, if_neg (by simpa using ha)]
      have hb : b ∈ a :: rest := List.mem_of_getElem? hj
      rcases List.mem_cons.mp hb with rfl | hmem
      · exact ⟨fun hle => absurd hle ha, fun hlt => absurd hlt (Nat.not_lt_zero j)⟩
      · exact ⟨fun hle => absurd hle (hbehind b hmem), fun hlt => absurd hlt (Nat.not_lt_zero j)⟩

/-- The loop of `containsData` counts them. -/
theorem findBuffer_eq (offset : Int) :
    ∀ (rest : List FileBuffer) (i found : Nat),
      rest.Pairwise (fun a b => a.fileEnd ≤ b.fileOffset) →
      findBuffer offset rest i found =
        if (rest.countP fun b => decide (b.fileOffset ≤ offset)) = 0 then found
        else i + (rest.countP fun b => decide (b.fileOffset ≤ offset)) - 1 := by
  intro rest
  induction rest with
  | nil => intro i found _; rfl
  | cons b rest ih =>
    intro i found h
    rw [findBuffer]
    have hfirst := le_iff_lt_countP offset h (List.getElem?_cons_zero (l := rest) (a := b))
    split
    next hle =>
      rw [ih (i + 1) i h.tail, if_neg (Nat.ne_of_gt (hfirst.mp hle)), List.countP_cons,
        if_pos (decide_eq_true hle)]
      split
      next hzero => omega
      next hzero => omega
    next hgt =>
      rw [if_pos (Nat.eq_zero_of_not_pos fun hpos => hgt (hfirst.mpr hpos))]

/-- What is known of the FileBuffer where a range inside the list begins. -/
structure IsHome (buffers : List FileBuffer) (offset : Int) (length : Nat) (b : FileBuffer) :
    Prop where
  found : buffers[home buffers offset]? = some b
  starts_le : b.fileOffset ≤ offset
  inside : offset < b.fileEnd ∨ home buffers offset + 1 = buffers.length
  le_end : home buffers offset + 1 = buffers.length → offset + length ≤ b.fileEnd

theorem exists_isHome {buffers : List FileBuffer} (hc : Contiguous buffers) {offset : Int}
    {length : Nat} (hr : InRange buffers offset length) :
    ∃ b, IsHome buffers offset length b := by
  cases buffers with
  | nil => exact absurd hr (fun h => h)
  | cons a rest =>
    have hcount := fun {j b} => @le_iff_lt_countP (a :: rest) offset hc.pairwise j b
    have hpos := (hcount (List.getElem?_cons_zero)).mp hr.1
    have hhome : home (a :: rest) offset + 1 =
        (a :: rest).countP fun b => decide (b.fileOffset ≤ offset) := Nat.sub_add_cancel hpos
    have hlt : home (a :: rest) offset < (a :: rest).length := by
      have := List.countP_le_length (p := fun b : FileBuffer => decide (b.fileOffset ≤ offset))
        (l := a :: rest)
      omega
    have hfound := List.getElem?_eq_getElem hlt
    refine ⟨_, hfound, (hcount hfound).mpr (by omega), ?_, fun hlast => ?_⟩
    · by_cases hlast : home (a :: rest) offset + 1 = (a :: rest).length
      · exact Or.inr hlast
      · -- the next one starts behind the offset, which is where this one ends
        have hnext := List.getElem?_eq_getElem (l := a :: rest)
          (show home (a :: rest) offset + 1 < (a :: rest).length by omega)
        have hbehind := fun hle => (hcount hnext).mp hle
        have hends := List.isChain_iff_getElem.mp hc.next (home (a :: rest) offset) (by omega)
        left
        rw [← hends]
        omega
    · have hend := hr.2
      have hgetLast : (rest.getLast?.getD a) = (a :: rest)[home (a :: rest) offset] := by
        have h := List.getLast?_cons (a := a) (l := rest)
        rw [List.getLast?_eq_getElem?, ← hlast, Nat.add_sub_cancel, hfound] at h
        exact (Option.some.inj h).symm
      rw [hgetLast] at hend
      exact hend

/-! ## Runs of lookups -/

/-- The number of bytes in all FileBuffers. -/
def totalBytes (buffers : List FileBuffer) : Int := (buffers.map fun b => (b.numBytes : Int)).sum

/-- The list holds the FileBuffers, each at the position that `d` has for it. -/
structure Stands (buffers : List FileBuffer) (d : Nat → Nat) (l : FileBufferList) : Prop where
  values_eq : l.values = place d buffers
  numBytes_eq : l.numBytes = totalBytes buffers
  fileOffset_eq : ∀ b ∈ buffers.head?, l.fileOffset = b.fileOffset
  positions : ∀ j b, buffers[j]? = some b →
    d j = 0 ∨ d j < b.numBytes ∨ (j + 1 = buffers.length ∧ d j = b.numBytes)

/-- Adding FileBuffers one after the other. -/
theorem foldl_addBuffer (buffers : List FileBuffer) :
    ∀ l : FileBufferList, (buffers.foldl addBuffer l).values = l.values ++ buffers ∧
      (buffers.foldl addBuffer l).numBytes = l.numBytes + totalBytes buffers ∧
      (∀ b ∈ (l.values ++ buffers).head?, (l.values ≠ [] → l.fileOffset = b.fileOffset) →
        (buffers.foldl addBuffer l).fileOffset = b.fileOffset) := by
  induction buffers with
  | nil =>
    intro l
    refine ⟨(List.append_nil _).symm, (Int.add_zero _).symm, fun b hb h => ?_⟩
    rw [List.append_nil] at hb
    refine h fun hnil => ?_
    rw [hnil] at hb
    exact absurd hb (by simp)
  | cons a rest ih =>
    intro l
    obtain ⟨hvalues, hbytes, hoffset⟩ := ih (addBuffer l a)
    rw [List.foldl_cons]
    refine ⟨?_, ?_, fun b hb h => hoffset b ?_ fun _ => ?_⟩
    · rw [hvalues]
      show l.values ++ [a] ++ rest = l.values ++ a :: rest
      rw [List.append_assoc]
      rfl
    · rw [hbytes]
      show l.numBytes + a.numBytes + totalBytes rest = l.numBytes + totalBytes (a :: rest)
      rw [totalBytes, totalBytes, List.map_cons, List.sum_cons, Int.add_assoc]
    · show b ∈ (l.values ++ [a] ++ rest).head?
      rw [List.append_assoc]
      exact hb
    · show (if l.values.length = 0 then a.fileOffset else l.fileOffset) = b.fileOffset
      split
      next hzero =>
        rw [List.length_eq_zero_iff.mp hzero] at hb
        rw [Option.some.inj hb]
      next hne => exact h fun hnil => hne (by rw [hnil]; rfl)

/-- A freshly built list has all FileBuffers at their start. -/
theorem build_stands {buffers : List FileBuffer} (hfresh : ∀ b ∈ buffers, b.dataOffset = 0) :
    Stands buffers (fun _ => 0) (build buffers) := by
  obtain ⟨hvalues, hbytes, hoffset⟩ := foldl_addBuffer buffers initFileBufferList
  refine ⟨?_, ?_, fun b hb => hoffset b hb fun h => absurd rfl h, fun _ _ _ => Or.inl rfl⟩
  · rw [build, hvalues]
    refine List.ext_getElem? fun j => ?_
    rw [place_getElem?]
    show buffers[j]? = _
    cases hj : buffers[j]? with
    | none => rfl
    | some b => rw [Option.map_some, ← hfresh b (List.mem_of_getElem? hj)]
  · rw [build, hbytes]
    exact Int.zero_add _

/-- All the data ends where the last FileBuffer does. -/
theorem fileOffset_add_totalBytes :
    ∀ (rest : List FileBuffer) {b : FileBuffer}, Contiguous (b :: rest) →
      b.fileOffset + totalBytes (b :: rest) = (rest.getLast?.getD b).fileEnd := by
  intro rest
  induction rest with
  | nil =>
    intro b _
    show b.fileOffset + ((b.numBytes : Int) + 0) = b.fileOffset + b.numBytes
    rw [Int.add_zero]
  | cons c rest ih =>
    intro b hc
    have hnext : c.fileOffset = b.fileOffset + b.numBytes := (List.isChain_cons_cons.mp hc.next).1
    have hrec := ih hc.tail
    have hsum : totalBytes (b :: c :: rest) = b.numBytes + totalBytes (c :: rest) := by
      rw [totalBytes, List.map_cons, List.sum_cons]
      rfl
    rw [List.getLast?_cons, Option.getD_some, ← hrec, hsum]
    omega

/-- **A lookup** finds nothing outside the list; inside it finds the FileBuffer with the
offset, and moves that one. -/
theorem containsData_spec {buffers : List FileBuffer} (hc : Contiguous buffers) {d : Nat → Nat}
    {l : FileBufferList} (hl : Stands buffers d l) (offset : Int) (length : Nat) :
    (¬ InRange buffers offset length → containsData l offset length = (l, none)) ∧
      (InRange buffers offset length →
        (containsData l offset length).2 = some (home buffers offset) ∧
          Stands buffers (Function.update d (home buffers offset) (startIn buffers offset))
            (containsData l offset length).1) := by
  have hlength : l.values.length = buffers.length := by rw [hl.values_eq, place, List.length_mapIdx]
  -- the two checks are the range of the list
  have hchecks : (0 < l.values.length ∧ l.fileOffset ≤ offset ∧
      l.fileOffset + l.numBytes ≥ offset + length) ↔ InRange buffers offset length := by
    rw [hlength, hl.numBytes_eq]
    cases buffers with
    | nil => exact ⟨fun h => absurd h.1 (Nat.lt_irrefl 0), fun h => absurd h (fun h => h)⟩
    | cons a rest =>
      rw [hl.fileOffset_eq a rfl, fileOffset_add_totalBytes rest hc, List.length_cons]
      exact ⟨fun h => h.2, fun h => ⟨Nat.succ_pos _, h⟩⟩
  unfold containsData
  refine ⟨fun hout => ?_, fun hin => ?_⟩
  · -- one of the two checks fails
    have hfail := fun h => hout (hchecks.mp h)
    split
    next h1 =>
      dsimp only
      rw [if_neg fun h2 => hfail ⟨h1.1, h1.2, h2⟩]
    next => rfl
  · -- both succeed, and the loop counts up to the home of the range
    obtain ⟨h1, h2, h3⟩ := hchecks.mpr hin
    obtain ⟨b, hb⟩ := exists_isHome hc hin
    have hhome : findBuffer offset l.values.tail 1 0 = home buffers offset := by
      have hpairwise := (contiguous_place hc d).pairwise
      have hcount := countP_place offset buffers d
      rw [hl.values_eq]
      cases buffers with
      | nil => exact absurd hin fun h => h
      | cons a rest =>
        rw [place_cons] at hpairwise hcount ⊢
        rw [List.tail_cons, findBuffer_eq offset _ 1 0
          (List.pairwise_cons.mp hpairwise).2, home, ← hcount,
          List.countP_cons, if_pos (decide_eq_true hin.1)]
        split <;> omega
    have hend : b.fileEnd = b.fileOffset + b.numBytes := rfl
    have hlt := hc.numBytes_lt b (List.mem_of_getElem? hb.found)
    have hstart : startIn buffers offset = (offset - b.fileOffset).toNat := by
      rw [startIn, hb.found]
      rfl
    have hle := hb.starts_le
    have hwithin := hb.inside
    have hlast := hb.le_end
    have hwrap : ((offset - b.fileOffset) % 2 ^ 32).toNat = startIn buffers offset := by
      rw [hstart, Int.emod_eq_of_lt (by omega) (by omega)]
    rw [if_pos ⟨h1, h2⟩]
    dsimp only
    rw [if_pos h3, hhome]
    refine ⟨rfl, ⟨?_, hl.numBytes_eq, hl.fileOffset_eq, fun j c hj => ?_⟩⟩
    · rw [hl.values_eq]
      dsimp only
      rw [place_seek d hb.found, hwrap]
    · by_cases hjh : j = home buffers offset
      · subst hjh
        obtain rfl : b = c := Option.some.inj (hb.found.symm.trans hj)
        rw [Function.update_self]
        omega
      · rw [Function.update_of_ne hjh]
        exact hl.positions j c hj

/-- **After any lookups** every FileBuffer is where the last lookup that began in it
left it. -/
theorem lookups_stands {buffers : List FileBuffer} (hc : Contiguous buffers)
    (hfresh : ∀ b ∈ buffers, b.dataOffset = 0) (calls : List (Int × Nat)) :
    Stands buffers (starts buffers calls) (lookups (build buffers) calls) := by
  have hrun : ∀ (calls : List (Int × Nat)) (l : FileBufferList) (d : Nat → Nat),
      Stands buffers d l →
      Stands buffers (calls.foldl (fun d call =>
        if InRange buffers call.1 call.2 then
          Function.update d (home buffers call.1) (startIn buffers call.1)
        else d) d) (lookups l calls) := by
    intro calls
    induction calls with
    | nil => intro l d h; exact h
    | cons call calls ih =>
      intro l d h
      obtain ⟨hout, hin⟩ := containsData_spec hc h call.1 call.2
      refine ih _ _ ?_
      dsimp only
      split
      next hr => exact (hin hr).2
      next hr => rw [hout hr]; exact h
  exact hrun calls _ _ (build_stands hfresh)

/-- The bytes from an offset on are those of the FileBuffers from there on. -/
theorem fileAddresses_drop (length : Nat) {offset : Int} :
    ∀ (i : Nat) {buffers : List FileBuffer} {b : FileBuffer}, Contiguous buffers →
      buffers[i]? = some b → b.fileOffset ≤ offset →
      fileAddresses (buffers.drop i) offset length = fileAddresses buffers offset length := by
  intro i
  induction i with
  | zero => intro buffers b _ _ _; rfl
  | succ i ih =>
    intro buffers b hc hb hle
    cases buffers with
    | nil => rfl
    | cons a rest =>
      rw [List.getElem?_cons_succ] at hb
      have hbehind := List.rel_of_pairwise_cons hc.pairwise (List.mem_of_getElem? hb)
      rw [List.drop_succ_cons, ih hc.tail hb hle, fileAddresses_behind rest length (by omega)]

theorem totalBytes_place (buffers : List FileBuffer) :
    ∀ d : Nat → Nat, totalBytes (place d buffers) = totalBytes buffers := by
  induction buffers with
  | nil => intro d; rfl
  | cons b rest ih =>
    intro d
    have hrec := ih fun j => d (j + 1)
    unfold totalBytes at hrec ⊢
    rw [place_cons, List.map_cons, List.sum_cons, hrec, List.map_cons, List.sum_cons]

theorem inRange_place {buffers : List FileBuffer} (hc : Contiguous buffers) (d : Nat → Nat)
    {offset : Int} {length : Nat} (h : InRange buffers offset length) :
    InRange (place d buffers) offset length := by
  have hc' := contiguous_place hc d
  have htotal := totalBytes_place buffers d
  cases buffers with
  | nil => exact h
  | cons b rest =>
    rw [place_cons] at hc' htotal ⊢
    have hend := h.2
    rw [← fileOffset_add_totalBytes rest hc, ← htotal] at hend
    refine ⟨h.1, ?_⟩
    rw [← fileOffset_add_totalBytes _ hc']
    exact hend

theorem inRange_drop {offset : Int} {length : Nat} :
    ∀ (i : Nat) {buffers : List FileBuffer} {b : FileBuffer}, Contiguous buffers →
      buffers[i]? = some b → b.fileOffset ≤ offset → InRange buffers offset length →
      InRange (buffers.drop i) offset length := by
  intro i
  induction i with
  | zero => intro buffers b _ _ _ h; exact h
  | succ i ih =>
    intro buffers b hc hb hle h
    match buffers, hc, hb, h with
    | [], _, _, h => exact absurd h fun h => h
    | [a], _, hb, _ => exact absurd hb (by simp)
    | a :: c :: rest, hc, hb, h =>
      rw [List.getElem?_cons_succ] at hb
      refine ih hc.tail hb hle ⟨?_, ?_⟩
      · rcases List.mem_cons.mp (List.mem_of_getElem? hb) with rfl | hmem
        · exact hle
        · have hbehind := List.rel_of_pairwise_cons hc.tail.pairwise hmem
          have hend : c.fileEnd = c.fileOffset + c.numBytes := rfl
          omega
      · have hend := h.2
        rw [List.getLast?_cons, Option.getD_some] at hend
        exact hend

theorem Contiguous.drop {buffers : List FileBuffer} (h : Contiguous buffers) (i : Nat) :
    Contiguous (buffers.drop i) :=
  ⟨h.next.drop i, fun b hb => h.numBytes_lt b (List.mem_of_mem_drop hb)⟩

/-- The FileBuffers of a list are settled, from any one of them on. -/
theorem Stands.settled {buffers : List FileBuffer} {d : Nat → Nat} {l : FileBufferList}
    (h : Stands buffers d l) (i : Nat) : Settled (l.values.drop i) := by
  intro j c hj
  rw [List.getElem?_drop, h.values_eq, place_getElem?] at hj
  obtain ⟨b, hb, rfl⟩ := Option.map_eq_some_iff.mp hj
  have hlt := (List.getElem?_eq_some_iff.mp hb).1
  have hpos := h.positions (i + j) b hb
  have hlength : (l.values.drop i).length = buffers.length - i := by
    rw [List.length_drop, h.values_eq, place, List.length_mapIdx]
  rw [hlength]
  dsimp only
  omega

/-! ## What `crc32` and `write` process -/

/-- `crc32` and `write`, handed a chain, process exactly the bytes of the file in the
given range, in order. -/
structure Exact (buffers chain : List FileBuffer) (offset : Int) (length : Nat) : Prop where
  write_eq : (write chain length).map (fun calls =>
    calls.flatMap fun call => List.range' call.1 call.2)
      = some (fileAddresses buffers offset length)
  crc32_eq : ∀ mem, crc32 mem chain length =
    some (crcOf crc32Polynomial ((fileAddresses buffers offset length).map mem))

theorem exact_iff (buffers chain : List FileBuffer) (offset : Int) (length : Nat) :
    Exact buffers chain offset length ↔
      processed chain length = some (fileAddresses buffers offset length) := by
  refine ⟨fun h => by rw [← Io.write_eq]; exact h.write_eq, fun h => ⟨?_, fun mem => ?_⟩⟩
  · rw [Io.write_eq]
    exact h
  · rw [crc32_eq_processed, h]
    rfl

/-- The chain of a FileBuffer that a lookup found: the walk along it starts at the
offset, and is exact when the FileBuffers behind it are at their start. -/
theorem exact_iff_behind {buffers : List FileBuffer} (hc : Contiguous buffers) {d : Nat → Nat}
    {l : FileBufferList} {offset : Int} {length : Nat}
    (hl : Stands buffers (Function.update d (home buffers offset) (startIn buffers offset)) l)
    (hr : InRange buffers offset length) :
    Exact buffers (l.values.drop (home buffers offset)) offset length ↔
      ∀ c ∈ l.values.drop (home buffers offset + 1), c.fileOffset < offset + length →
        c.dataOffset = 0 := by
  obtain ⟨b, hb⟩ := exists_isHome hc hr
  have hle := hb.starts_le
  have hstart : startIn buffers offset = (offset - b.fileOffset).toNat := by
    rw [startIn, hb.found]
    rfl
  have hvalue : l.values[home buffers offset]?
      = some { b with dataOffset := startIn buffers offset } := by
    rw [hl.values_eq, place_getElem?, hb.found, Function.update_self]
    rfl
  have hplaced : Contiguous l.values := by
    rw [hl.values_eq]
    exact contiguous_place hc _
  have hrange : InRange l.values offset length := by
    rw [hl.values_eq]
    exact inRange_place hc _ hr
  have haddresses : fileAddresses (l.values.drop (home buffers offset)) offset length =
      fileAddresses buffers offset length := by
    rw [fileAddresses_drop length _ hplaced hvalue hle, hl.values_eq]
    exact List.map_congr_left fun k _ => addressOf_place _ buffers _
  have hdrop := hplaced.drop (home buffers offset)
  have hsettled := hl.settled (home buffers offset)
  have hrange := inRange_drop _ hplaced hvalue hle hrange
  -- the chain is the FileBuffer that was found and the ones behind it
  obtain ⟨hlt, hget⟩ := List.getElem?_eq_some_iff.mp hvalue
  have hchain := List.drop_eq_getElem_cons hlt
  rw [hget] at hchain
  rw [exact_iff, ← haddresses]
  rw [hchain] at hdrop hsettled hrange ⊢
  have hoffset : b.fileOffset + ((startIn buffers offset : Nat) : Int) = offset := by
    rw [hstart]
    omega
  have hend : b.fileOffset + ((startIn buffers offset : Nat) : Int) + length ≤
      ((l.values.drop (home buffers offset + 1)).getLast?.getD
        { b with dataOffset := startIn buffers offset }).fileEnd := by
    rw [hoffset]
    exact hrange.2
  have hiff := processed_iff _ hdrop hsettled hend
  dsimp only at hiff
  rw [hoffset] at hiff
  exact hiff

/-- **When a lookup leads to exactly its bytes.** For FileBuffers that hold consecutive
pieces of a file, added to a list, and any lookups in it: if a further one returns a
FileBuffer, then `crc32` and `write` process exactly the range it was for if and only
if every later FileBuffer that the range reaches into is at its start, which it is
unless the last earlier lookup that began there began further on. -/
theorem lookup_exact_iff (buffers : List FileBuffer) (calls : List (Int × Nat)) (offset : Int)
    (length : Nat) (l : FileBufferList) (i : Nat) (hc : Contiguous buffers)
    (hfresh : ∀ b ∈ buffers, b.dataOffset = 0)
    (hfound : containsData (lookups (build buffers) calls) offset length = (l, some i)) :
    Exact buffers (l.values.drop i) offset length ↔
      ∀ j b, i < j → buffers[j]? = some b → b.fileOffset < offset + length →
        starts buffers calls j = 0 := by
  obtain ⟨hout, hin⟩ := containsData_spec hc (lookups_stands hc hfresh calls) offset length
  by_cases hr : InRange buffers offset length
  · obtain ⟨hhome, hl⟩ := hin hr
    rw [hfound] at hhome hl
    obtain rfl : i = home buffers offset := Option.some.inj hhome
    rw [exact_iff_behind hc hl hr, hl.values_eq]
    constructor
    · -- a later FileBuffer of the list is one of the chain
      intro h j b hj hb hlt
      have hplace := place_getElem? (Function.update (starts buffers calls) (home buffers offset)
        (startIn buffers offset)) buffers j
      rw [hb, Option.map_some, Function.update_of_ne (by omega)] at hplace
      refine h { b with dataOffset := starts buffers calls j }
        (List.mem_iff_getElem?.mpr ⟨j - (home buffers offset + 1), ?_⟩) hlt
      rw [List.getElem?_drop, ← hplace]
      congr 1
      omega
    · intro h c hc hlt
      obtain ⟨k, hk⟩ := List.mem_iff_getElem?.mp hc
      rw [List.getElem?_drop, place_getElem?, Function.update_of_ne (by omega)] at hk
      obtain ⟨b, hb, rfl⟩ := Option.map_eq_some_iff.mp hk
      exact h _ b (by omega) hb hlt
  · rw [hout hr] at hfound
    exact absurd (congrArg Prod.snd hfound) (by simp)

/-- Two pages of a file. -/
def twoPages : List FileBuffer := [⟨8192, 0, 0, 4096⟩, ⟨65536, 4096, 0, 4096⟩]

theorem twoPages_contiguous : Contiguous twoPages :=
  ⟨List.isChain_pair.mpr rfl, by decide⟩

/-- A range across both pages, after a lookup in the first one only. -/
theorem lookup_exact_iff_twoPages :
    let l := (containsData (lookups (build twoPages) [(100, 50)]) 4000 200).1
    Exact twoPages (l.values.drop 0) 4000 200 ↔
      ∀ j b, 0 < j → twoPages[j]? = some b → b.fileOffset < (4000 : Int) + (200 : Nat) →
        starts twoPages [(100, 50)] j = 0 :=
  lookup_exact_iff twoPages [(100, 50)] 4000 200
    (containsData (lookups (build twoPages) [(100, 50)]) 4000 200).1 0 twoPages_contiguous
    (by decide) (by decide +kernel)

/-- **A stale position**: after a lookup of ten bytes at 5000, the range of 200 bytes at
4000 skips the first 904 bytes of the second page. -/
theorem lookup_inexact :
    let l := (containsData (lookups (build twoPages) [(5000, 10)]) 4000 200).1
    containsData (lookups (build twoPages) [(5000, 10)]) 4000 200 = (l, some 0) ∧
      write (l.values.drop 0) 200 = some [(8192 + 4000, 96), (65536 + 904, 104)] ∧
      ¬ Exact twoPages (l.values.drop 0) 4000 200 := by
  have hwrite : write ((containsData (lookups (build twoPages) [(5000, 10)]) 4000 200).1.values.drop 0)
      200 = some [(8192 + 4000, 96), (65536 + 904, 104)] := by decide +kernel
  refine ⟨by decide +kernel, hwrite, fun h => ?_⟩
  have hexact := h.write_eq
  rw [hwrite] at hexact
  exact absurd hexact (by decide +kernel)

end DevopsBroker.Io
