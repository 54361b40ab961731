import Mathlib.Algebra.Order.Ring.Int
import DevopsBroker.Lib.Characters

/-!
# Records that state how long they are

The header of a record says how many bytes the record has, header and all, and the next record
starts at the next multiple of four. `forEach` walks over as many records as there are in a number
of bytes. Where memory holds records that say how long they are, it visits these and nothing else
(`forEach_eq`), whatever is in the padding and behind the last of them.
-/

namespace DevopsBroker.Lib

variable {σ ρ : Type}

/-- The number of bytes that some bytes stand for, and `charsOf` puts there. -/
theorem littleEndian_charsOf (n : Nat) : ∀ {x : Nat}, x < 256 ^ n →
    littleEndian (charsOf n x) = x := by
  induction n with
  | zero =>
    intro x h
    have hx : x = 0 := by simpa using h
    rw [hx]
    rfl
  | succ n ih =>
    intro x h
    have hrest : x / 256 < 256 ^ n := Nat.div_lt_of_lt_mul (by rwa [Nat.pow_succ, Nat.mul_comm] at h)
    rw [charsOf, littleEndian_cons, ih hrest, lowByte, UInt8.toNat_ofNat']
    omega

/-- A part of what is in memory. -/
theorem bytesAt_of_append {mem : Mem} {p n : Nat} {before part after : List UInt8}
    (h : bytesAt mem p n = before ++ part ++ after) :
    bytesAt mem (p + before.length) part.length = part := by
  have hn : n = before.length + part.length + after.length := by
    rw [← bytesAt_length mem p n, h, List.length_append, List.length_append]
  rw [hn, bytesAt_add, bytesAt_add, List.append_assoc, List.append_assoc] at h
  have hfront := List.append_inj_right h (bytesAt_length ..)
  exact List.append_inj_left hfront (bytesAt_length ..)

/-! ## A loop that may break -/

/-- `for` over a list; `done` is `break`. -/
def untilDone (body : ρ → σ → ForInStep σ) : List ρ → σ → σ
  | [], s => s
  | record :: records, s =>
    match body record s with
    | .done s => s
    | .yield s => untilDone body records s

theorem untilDone_cons (body : ρ → σ → ForInStep σ) (record : ρ) (records : List ρ) (s : σ) :
    untilDone body (record :: records) s =
      match body record s with
      | .done s => s
      | .yield s => untilDone body records s := rfl

/-- Without a `break` it is a fold. -/
theorem untilDone_yield (f : σ → ρ → σ) (records : List ρ) : ∀ s : σ,
    untilDone (fun record s => .yield (f s record)) records s = records.foldl f s := by
  induction records with
  | nil => exact fun _ => rfl
  | cons record records ih => exact fun s => ih (f s record)

/-! ## The walk -/

/-- `NLMSG_ALIGN` and `RTA_ALIGN`: the next multiple of four. -/
def alignUp (n : Nat) : Nat := (n + 3) / 4 * 4

theorem le_alignUp (n : Nat) : n ≤ alignUp n := by
  unfold alignUp
  omega

/-- How long the header is, and what it states. -/
structure Framing where
  header : Nat
  header_pos : 0 < header
  lengthAt : Mem → Nat → Nat

namespace Framing

variable (F : Framing)

/-- `for (; OK(record, len); record = NEXT(record, len))`. The body is told where the record is
and how long it says it is. -/
def forEach (mem : Mem) (body : Nat → Nat → σ → ForInStep σ) (record : Nat) (len : Int) (s : σ) : σ :=
  let size := F.lengthAt mem record
  if F.header ≤ len ∧ F.header ≤ size ∧ size ≤ len then
    match body record size s with
    | .done s => s
    | .yield s => forEach mem body (record + alignUp size) (len - alignUp size) s
  else s
termination_by len.toNat
decreasing_by
  have hpos := F.header_pos
  have hle := le_alignUp (F.lengthAt mem record)
  omega

/-- There is no room for a record. -/
theorem forEach_none {mem : Mem} {body : Nat → Nat → σ → ForInStep σ} {record : Nat} {len : Int}
    (h : len < F.header) (s : σ) : F.forEach mem body record len s = s := by
  rw [forEach, if_neg fun hok => absurd hok.1 (Int.not_le.mpr h)]

/-- A record whose header states its length. -/
def Frames (record : List UInt8) : Prop :=
  F.header ≤ record.length ∧
    ∀ mem address, bytesAt mem address record.length = record →
      F.lengthAt mem address = record.length

end Framing

/-- The bytes of some records, with what is between them. -/
def framedLength (records : List (List UInt8)) : Nat :=
  (records.map fun record => alignUp record.length).sum

theorem framedLength_cons (record : List UInt8) (records : List (List UInt8)) :
    framedLength (record :: records) = alignUp record.length + framedLength records := by
  rw [framedLength, List.map_cons, List.sum_cons, framedLength]

/-- Records in memory, one at the next multiple of four behind the other. -/
def HoldsRecords (mem : Mem) : Nat → List (List UInt8) → Prop
  | _, [] => True
  | address, record :: records =>
    bytesAt mem address record.length = record ∧
      HoldsRecords mem (address + alignUp record.length) records

/-- **What the walk visits.** -/
theorem Framing.forEach_eq (F : Framing) {mem : Mem} (encode : ρ → List UInt8)
    {body : Nat → Nat → σ → ForInStep σ} {abstract : ρ → σ → ForInStep σ} (records : List ρ)
    (hframes : ∀ record ∈ records, F.Frames (encode record))
    (hbody : ∀ record ∈ records, ∀ address s,
      bytesAt mem address (encode record).length = encode record →
        body address (encode record).length s = abstract record s) :
    ∀ {address : Nat}, HoldsRecords mem address (records.map encode) → ∀ s : σ,
      F.forEach mem body address (framedLength (records.map encode)) s =
        untilDone abstract records s := by
  induction records with
  | nil =>
    intro address _ s
    exact F.forEach_none (Int.ofNat_lt.mpr F.header_pos) s
  | cons record records ih =>
    rintro address ⟨hrecord, hrest⟩ s
    obtain ⟨hheader, hlength⟩ := hframes record List.mem_cons_self
    have hle := le_alignUp (encode record).length
    have ih := ih (fun record hmem => hframes record (List.mem_cons_of_mem _ hmem))
      (fun record hmem => hbody record (List.mem_cons_of_mem _ hmem)) hrest
    rw [List.map_cons, framedLength_cons, forEach, hlength mem address hrecord, untilDone_cons,
      hbody record List.mem_cons_self address s hrecord, if_pos (by omega)]
    cases abstract record s with
    | done s => rfl
    | yield s =>
      have hlen : ((alignUp (encode record).length + framedLength (records.map encode) : Nat) : Int) -
          alignUp (encode record).length = framedLength (records.map encode) := by omega
      simp only [hlen]
      exact ih s

/-! ## Records that are padded -/

/-- A record and zeros up to the next multiple of four. -/
def padded (record : List UInt8) : List UInt8 :=
  record ++ List.replicate (alignUp record.length - record.length) 0

@[simp] theorem length_padded (record : List UInt8) :
    (padded record).length = alignUp record.length := by
  rw [padded, List.length_append, List.length_replicate]
  exact Nat.add_sub_cancel' (le_alignUp _)

theorem length_flatMap_padded (records : List (List UInt8)) :
    (records.flatMap padded).length = framedLength records := by
  rw [List.length_flatMap, framedLength]
  simp only [length_padded]

/-- Padded records one behind the other are records in memory. -/
theorem holdsRecords_of_padded {mem : Mem} (records : List (List UInt8)) : ∀ {address : Nat},
    bytesAt mem address (framedLength records) = records.flatMap padded →
      HoldsRecords mem address records := by
  induction records with
  | nil => exact fun _ => trivial
  | cons record records ih =>
    intro address h
    rw [framedLength_cons, bytesAt_add, List.flatMap_cons] at h
    obtain ⟨hrecord, hrest⟩ := List.append_inj h (by rw [bytesAt_length, length_padded])
    refine ⟨?_, ih hrest⟩
    exact @bytesAt_of_append mem address _ [] record _ hrecord

end DevopsBroker.Lib
