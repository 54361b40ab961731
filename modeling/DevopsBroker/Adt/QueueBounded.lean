import DevopsBroker.Lang.Block
import DevopsBroker.Lib.Ring
import DevopsBroker.Lib.Simulation

/-!
# `adt/queuebounded.c`: the bounded queue

A ring buffer of `capacity` slots: `enqueue` writes the slot at `tail`, `dequeue` reads
the one at `head`, and both move on by one, back to `0` when they get to the capacity.
`head = tail` is both the empty and the full queue; `length` tells which. **Whatever the
calls, their results are those of a bounded first-in-first-out queue**
(`run_refines_fifo`), a capacity of `0` included.

`toArray` does not ask `length`: it takes `head = tail` for a queue that does not wrap. A
full queue has to start at slot `0` then, or the copy runs past the last slot
(`toArray_iff`).

Mirroring notes vs the C source:
- `values` is the flexible array behind the structure, `capacity` slots that start with
  whatever the block held (`garbage`); a slot outside of it reads as `NULL`.
- `uint32_t` arithmetic is natural numbers modulo `2 ^ 32`.
- The array that `toArray` allocates has `length` slots, with whatever the block held; a copy
  that leaves it, or the slots of the queue, is `none`.
-/

namespace DevopsBroker.Adt

open DevopsBroker.Lang
open DevopsBroker.Lib

/-- `struct QueueBounded`. -/
structure QueueBounded where
  head : Nat
  tail : Nat
  length : Nat
  capacity : Nat
  values : Array Pointer

namespace QueueBounded

/-- `b8da7268_createQueueBounded`. -/
def create (garbage : Nat → Pointer) (capacity : UInt32) : QueueBounded where
  head := 0
  tail := 0
  length := 0
  capacity := capacity.toNat
  values := Array.ofFn fun i : Fin capacity.toNat => garbage i

/-- `b8da7268_dequeue`. -/
def dequeue (queue : QueueBounded) : Pointer × QueueBounded :=
  if 0 < queue.length then
    let head := (queue.head + 1) % 2 ^ 32
    (queue.values.getD queue.head nullPointer,
      { queue with
        length := queue.length - 1
        head := if head = queue.capacity then 0 else head })
  else (nullPointer, queue)

/-- `b8da7268_enqueue`. -/
def enqueue (queue : QueueBounded) (value : Pointer) : Bool × QueueBounded :=
  if queue.length = queue.capacity then (false, queue)
  else
    let tail := (queue.tail + 1) % 2 ^ 32
    (true,
      { queue with
        values := queue.values.setIfInBounds queue.tail value
        length := (queue.length + 1) % 2 ^ 32
        tail := if tail = queue.capacity then 0 else tail })

/-- `b8da7268_isEmpty`. -/
def isEmpty (queue : QueueBounded) : Bool := queue.length == 0

/-- `b8da7268_isFull`. -/
def isFull (queue : QueueBounded) : Bool := queue.length == queue.capacity

/-- `b8da7268_peek`. -/
def peek (queue : QueueBounded) : Pointer :=
  if 0 < queue.length then queue.values.getD queue.head nullPointer else nullPointer

/-- `b8da7268_reset`. -/
def reset (queue : QueueBounded) : QueueBounded :=
  { queue with head := 0, tail := 0, length := 0 }

/-- `f668c4bd_memcopy` of `n` pointers, from slot `i` of one array to slot `j` of another. -/
def copySlots (source target : Array Pointer) (i j n : Nat) : Option (Array Pointer) :=
  if i + n ≤ source.size ∧ j + n ≤ target.size then
    some (Array.ofFn fun k : Fin target.size =>
      if j ≤ k ∧ k < j + n then source.getD (i + (k - j)) nullPointer
      else target.getD k nullPointer)
  else none

/-- `b8da7268_toArray`. -/
def toArray (garbage : Nat → Pointer) (queue : QueueBounded) : Option (Array Pointer) :=
  let array := Array.ofFn fun i : Fin queue.length => garbage i
  if queue.head > queue.tail then
    let firstSectionLength := (queue.capacity + 2 ^ 32 - queue.head) % 2 ^ 32
    match copySlots queue.values array queue.head 0 firstSectionLength with
    | none => none
    | some array =>
      if firstSectionLength < queue.length then
        copySlots queue.values array 0 firstSectionLength queue.tail
      else some array
  else copySlots queue.values array queue.head 0 queue.length

end QueueBounded

/-! ## Runs -/

/-- A call on the queue. -/
inductive QueueCall where
  | enqueue (value : Pointer)
  | dequeue
  | peek
  | isEmpty
  | isFull
  | reset

/-- What a call returns. -/
inductive QueueResult where
  | bool (b : Bool)
  | pointer (p : Pointer)
  | void
deriving DecidableEq

/-- A call on the ring buffer. -/
def QueueBounded.step (queue : QueueBounded) : QueueCall → QueueResult × QueueBounded
  | .enqueue value => (.bool (queue.enqueue value).1, (queue.enqueue value).2)
  | .dequeue => (.pointer queue.dequeue.1, queue.dequeue.2)
  | .peek => (.pointer queue.peek, queue)
  | .isEmpty => (.bool queue.isEmpty, queue)
  | .isFull => (.bool queue.isFull, queue)
  | .reset => (.void, queue.reset)

/-- The same call on a bounded queue; an item that is not there is `NULL`. -/
def fifoStep (q : Fifo Pointer) : QueueCall → QueueResult × Fifo Pointer
  | .enqueue value => (.bool (q.push value).1, (q.push value).2)
  | .dequeue => (.pointer (q.pop.1.getD nullPointer), q.pop.2)
  | .peek => (.pointer (q.items.head?.getD nullPointer), q)
  | .isEmpty => (.bool q.items.isEmpty, q)
  | .isFull => (.bool (q.items.length == q.capacity), q)
  | .reset => (.void, Fifo.empty q.capacity)

/-! ## The ring holds the queue -/

/-- The ring buffer holds the items of a bounded queue. -/
structure QueueBounded.Holds (queue : QueueBounded) (q : Fifo Pointer) : Prop where
  size : queue.values.size = queue.capacity
  small : queue.capacity < 2 ^ 32
  capacity : q.capacity = queue.capacity
  items : q.items = ringItems (fun i => queue.values.getD i nullPointer) queue.capacity queue.head
    queue.length
  head : 0 < queue.capacity → queue.head < queue.capacity
  tail : 0 < queue.capacity → queue.tail = (queue.head + queue.length) % queue.capacity

namespace QueueBounded

theorem Holds.length {queue : QueueBounded} {q : Fifo Pointer} (h : queue.Holds q) :
    q.items.length = queue.length := by
  rw [h.items, ringItems_length]

theorem Holds.length_le {queue : QueueBounded} {q : Fifo Pointer} (h : queue.Holds q) :
    queue.length ≤ queue.capacity := by
  rw [← h.length, ← h.capacity]
  exact q.bounded

/-- The item at the head, when there is one. -/
theorem Holds.head? {queue : QueueBounded} {q : Fifo Pointer} (h : queue.Holds q)
    (hpos : 0 < queue.length) :
    q.items.head? = some (queue.values.getD queue.head nullPointer) := by
  have hle := h.length_le
  obtain ⟨n, hn⟩ : ∃ n, queue.length = n + 1 := ⟨queue.length - 1, by omega⟩
  rw [h.items, hn, ringItems_pop, Nat.mod_eq_of_lt (h.head (by omega))]
  rfl

theorem Holds.nil {queue : QueueBounded} {q : Fifo Pointer} (h : queue.Holds q)
    (hzero : ¬ 0 < queue.length) : q.items = [] :=
  List.eq_nil_of_length_eq_zero (by rw [h.length]; omega)

theorem create_holds (garbage : Nat → Pointer) (capacity : UInt32) :
    (create garbage capacity).Holds (Fifo.empty capacity.toNat) where
  size := Array.size_ofFn
  small := capacity.toNat_lt
  capacity := rfl
  items := rfl
  head := id
  tail := fun _ => (Nat.zero_mod _).symm

theorem reset_holds {queue : QueueBounded} {q : Fifo Pointer} (h : queue.Holds q) :
    queue.reset.Holds (Fifo.empty q.capacity) where
  size := h.size
  small := h.small
  capacity := h.capacity
  items := rfl
  head := id
  tail := fun _ => (Nat.zero_mod _).symm

/-- An index of the queue moves on like one of a ring. -/
theorem Holds.wrap {queue : QueueBounded} {q : Fifo Pointer} (h : queue.Holds q) {i : Nat}
    (hi : i < queue.capacity) :
    (if (i + 1) % 2 ^ 32 = queue.capacity then 0 else (i + 1) % 2 ^ 32) =
      (i + 1) % queue.capacity := by
  have hsmall := h.small
  rw [Nat.mod_eq_of_lt (show i + 1 < 2 ^ 32 by omega), wrap_eq_mod hi]

theorem dequeue_holds {queue : QueueBounded} {q : Fifo Pointer} (h : queue.Holds q) :
    queue.dequeue.1 = q.pop.1.getD nullPointer ∧ queue.dequeue.2.Holds q.pop.2 := by
  have hle := h.length_le
  unfold dequeue Fifo.pop
  split
  next hpos =>
    -- the head moves on by one, and the items are those behind it
    have hcapacity : 0 < queue.capacity := by omega
    have hhead := h.head hcapacity
    obtain ⟨n, hn⟩ : ∃ n, queue.length = n + 1 := ⟨queue.length - 1, by omega⟩
    refine ⟨?_, ?_⟩
    · show _ = q.items.head?.getD nullPointer
      rw [h.head? hpos]
      rfl
    · refine ⟨h.size, h.small, h.capacity, ?_, ?_, ?_⟩
      · show q.items.tail = _
        dsimp only
        rw [h.wrap hhead, ringItems_mod, h.items, hn, ringItems_pop]
        rfl
      · intro _
        dsimp only
        rw [h.wrap hhead]
        exact Nat.mod_lt _ hcapacity
      · intro _
        dsimp only
        rw [h.wrap hhead, h.tail hcapacity, Nat.mod_add_mod, hn]
        congr 1
        omega
  next hzero =>
    refine ⟨?_, ?_⟩
    · show _ = q.items.head?.getD nullPointer
      rw [h.nil hzero]
      rfl
    · refine ⟨h.size, h.small, h.capacity, ?_, h.head, h.tail⟩
      show q.items.tail = _
      rw [← h.items, h.nil hzero]
      rfl

theorem enqueue_holds {queue : QueueBounded} {q : Fifo Pointer} (h : queue.Holds q)
    (value : Pointer) :
    (queue.enqueue value).1 = (q.push value).1 ∧
      (queue.enqueue value).2.Holds (q.push value).2 := by
  have hle := h.length_le
  have hsmall := h.small
  unfold enqueue Fifo.push
  split
  next hfull =>
    -- no room: `false`, and nothing changes
    rw [dif_neg (by rw [h.length, h.capacity]; omega)]
    exact ⟨rfl, h⟩
  next hroom =>
    -- the slot at the tail is not one of the items
    have hcapacity : 0 < queue.capacity := by omega
    have htail : queue.tail < queue.capacity := by
      rw [h.tail hcapacity]
      exact Nat.mod_lt _ hcapacity
    rw [dif_pos (by rw [h.length, h.capacity]; omega)]
    refine ⟨rfl, ?_⟩
    refine ⟨?_, h.small, h.capacity, ?_, h.head, ?_⟩
    · rw [← h.size]
      exact Array.size_setIfInBounds
    · dsimp only
      rw [h.items, Nat.mod_eq_of_lt (show queue.length + 1 < 2 ^ 32 by omega)]
      refine (ringItems_push (by omega) ?_ ?_).symm
      · rw [← h.tail hcapacity, getD_set_self (by rw [h.size]; exact htail)]
      · intro i hi
        rw [← h.tail hcapacity] at hi
        exact getD_set_ne hi.symm value
    · intro _
      dsimp only
      rw [h.wrap htail, h.tail hcapacity, Nat.mod_add_mod,
        Nat.mod_eq_of_lt (show queue.length + 1 < 2 ^ 32 by omega), Nat.add_assoc]

/-- **One call has the result of the bounded queue, and keeps the ring holding it.** -/
theorem step_holds {queue : QueueBounded} {q : Fifo Pointer} (h : queue.Holds q)
    (call : QueueCall) :
    (queue.step call).1 = (fifoStep q call).1 ∧
      (queue.step call).2.Holds (fifoStep q call).2 := by
  cases call with
  | enqueue value =>
    obtain ⟨hresult, hholds⟩ := enqueue_holds h value
    exact ⟨congrArg QueueResult.bool hresult, hholds⟩
  | dequeue =>
    obtain ⟨hresult, hholds⟩ := dequeue_holds h
    exact ⟨congrArg QueueResult.pointer hresult, hholds⟩
  | peek =>
    refine ⟨congrArg QueueResult.pointer ?_, h⟩
    unfold peek
    split
    next hpos => rw [h.head? hpos]; rfl
    next hzero => rw [h.nil hzero]; rfl
  | isEmpty =>
    refine ⟨congrArg QueueResult.bool ?_, h⟩
    unfold isEmpty
    rw [← h.length]
    cases q.items <;> rfl
  | isFull =>
    refine ⟨congrArg QueueResult.bool ?_, h⟩
    unfold isFull
    rw [h.length, h.capacity]
  | reset => exact ⟨rfl, reset_holds h⟩

theorem fifoStep_capacity (q : Fifo Pointer) (call : QueueCall) :
    (fifoStep q call).2.capacity = q.capacity := by
  cases call with
  | enqueue value =>
    show (q.push value).2.capacity = q.capacity
    unfold Fifo.push
    split <;> rfl
  | dequeue => rfl
  | peek => rfl
  | isEmpty => rfl
  | isFull => rfl
  | reset => rfl

/-- A queue without slots keeps its indices at `0`. -/
theorem step_noSlots {queue : QueueBounded} {q : Fifo Pointer} (h : queue.Holds q)
    (hcapacity : queue.capacity = 0) (hindices : queue.head = 0 ∧ queue.tail = 0)
    (call : QueueCall) : (queue.step call).2.head = 0 ∧ (queue.step call).2.tail = 0 := by
  have hle := h.length_le
  cases call with
  | enqueue value =>
    show (queue.enqueue value).2.head = 0 ∧ (queue.enqueue value).2.tail = 0
    unfold enqueue
    rw [if_pos (by omega)]
    exact hindices
  | dequeue =>
    show queue.dequeue.2.head = 0 ∧ queue.dequeue.2.tail = 0
    unfold dequeue
    rw [if_neg (by omega)]
    exact hindices
  | peek => exact hindices
  | isEmpty => exact hindices
  | isFull => exact hindices
  | reset => exact ⟨rfl, rfl⟩

/-- What holds after calls on a new queue: the ring holds the queue that the same calls
give. -/
theorem run_holds (garbage : Nat → Pointer) (capacity : UInt32) (calls : List QueueCall) :
    let run := runCalls step calls (create garbage capacity)
    let fifo := runCalls fifoStep calls (Fifo.empty capacity.toNat)
    run.1 = fifo.1 ∧ run.2.Holds fifo.2 ∧ fifo.2.capacity = capacity.toNat ∧
      (run.2.capacity = 0 → run.2.head = 0 ∧ run.2.tail = 0) := by
  have hstep : ∀ (queue : QueueBounded) (q : Fifo Pointer) (call : QueueCall),
      queue.Holds q ∧ q.capacity = capacity.toNat ∧
        (queue.capacity = 0 → queue.head = 0 ∧ queue.tail = 0) →
      (queue.step call).1 = (fifoStep q call).1 ∧
        (queue.step call).2.Holds (fifoStep q call).2 ∧
        (fifoStep q call).2.capacity = capacity.toNat ∧
        ((queue.step call).2.capacity = 0 →
          (queue.step call).2.head = 0 ∧ (queue.step call).2.tail = 0) := by
    intro queue q call ⟨h, hcapacity, hnone⟩
    obtain ⟨hresult, hholds⟩ := step_holds h call
    have hsame := (fifoStep_capacity q call).trans hcapacity
    refine ⟨hresult, hholds, hsame, ?_⟩
    intro hzero
    have hbefore : queue.capacity = 0 := by
      rw [← h.capacity, hcapacity, ← hsame, hholds.capacity, hzero]
    exact step_noSlots h hbefore (hnone hbefore) call
  apply runCalls_simulates hstep calls
  exact ⟨create_holds garbage capacity, rfl, fun _ => ⟨rfl, rfl⟩⟩

/-- **Calls on a new queue have the results of a bounded first-in-first-out queue**, and
leave `head` and `tail` inside the array. -/
theorem run_refines_fifo (garbage : Nat → Pointer) (capacity : UInt32) (calls : List QueueCall) :
    let run := runCalls step calls (create garbage capacity)
    run.1 = (runCalls fifoStep calls (Fifo.empty capacity.toNat)).1 ∧
      run.2.values.size = capacity.toNat ∧
      (0 < capacity.toNat → run.2.head < capacity.toNat ∧ run.2.tail < capacity.toNat) := by
  obtain ⟨hresults, hend, hcapacity, _⟩ := run_holds garbage capacity calls
  rw [hend.capacity] at hcapacity
  refine ⟨hresults, hend.size.trans hcapacity, ?_⟩
  intro hpos
  rw [← hcapacity] at hpos ⊢
  refine ⟨hend.head hpos, ?_⟩
  rw [hend.tail hpos]
  exact Nat.mod_lt _ hpos

/-! ## The array of the items -/

theorem copySlots_eq (source target : Array Pointer) (i j n : Nat) (hi : i + n ≤ source.size)
    (hj : j + n ≤ target.size) :
    ∃ array, copySlots source target i j n = some array ∧ array.size = target.size ∧
      ∀ k < target.size, array.getD k nullPointer =
        if j ≤ k ∧ k < j + n then source.getD (i + (k - j)) nullPointer
        else target.getD k nullPointer := by
  refine ⟨_, if_pos ⟨hi, hj⟩, Array.size_ofFn, ?_⟩
  intro k hk
  exact getD_ofFn (fun k => if j ≤ k ∧ k < j + n then source.getD (i + (k - j)) nullPointer
    else target.getD k nullPointer) hk

theorem toArray_of_le {queue : QueueBounded} (garbage : Nat → Pointer)
    (horder : queue.head ≤ queue.tail) :
    queue.toArray garbage =
      copySlots queue.values (Array.ofFn fun i : Fin queue.length => garbage i) queue.head 0
        queue.length :=
  if_neg (Nat.not_lt.mpr horder)

/-- The queue does not wrap: one copy. -/
theorem Holds.toArray_straight {queue : QueueBounded} {q : Fifo Pointer} (h : queue.Holds q)
    (garbage : Nat → Pointer) (horder : queue.head ≤ queue.tail)
    (hroom : queue.head + queue.length ≤ queue.capacity) :
    (queue.toArray garbage).map Array.toList = some q.items := by
  obtain ⟨array, hcopy, hsize, hread⟩ :=
    copySlots_eq queue.values (Array.ofFn fun i : Fin queue.length => garbage i) queue.head 0
      queue.length (by rw [h.size]; exact hroom) (by rw [Array.size_ofFn, Nat.zero_add])
  rw [Array.size_ofFn] at hsize hread
  rw [toArray_of_le garbage horder, hcopy, h.items]
  refine congrArg some (toList_eq_map_range nullPointer hsize ?_)
  intro k hk
  rw [hread k hk, if_pos (by omega), Nat.sub_zero,
    Nat.mod_eq_of_lt (show queue.head + k < queue.capacity by omega)]

/-- The queue wraps: the slots from the head on, then those in front of the tail. -/
theorem Holds.toArray_wrapped {queue : QueueBounded} {q : Fifo Pointer} (h : queue.Holds q)
    (garbage : Nat → Pointer) (horder : queue.tail < queue.head)
    (hhead : queue.head < queue.capacity)
    (hwrap : queue.head + queue.length = queue.capacity + queue.tail) :
    (queue.toArray garbage).map Array.toList = some q.items := by
  have hsmall := h.small
  have hfirst : (queue.capacity + 2 ^ 32 - queue.head) % 2 ^ 32 = queue.capacity - queue.head := by
    rw [show queue.capacity + 2 ^ 32 - queue.head = queue.capacity - queue.head + 2 ^ 32 by omega,
      Nat.add_mod_right, Nat.mod_eq_of_lt (by omega)]
  obtain ⟨array, hcopy, hsize, hread⟩ :=
    copySlots_eq queue.values (Array.ofFn fun i : Fin queue.length => garbage i) queue.head 0
      (queue.capacity - queue.head) (by rw [h.size]; omega) (by rw [Array.size_ofFn]; omega)
  rw [Array.size_ofFn] at hsize hread
  unfold toArray
  dsimp only
  rw [if_pos horder, hfirst, hcopy, h.items]
  dsimp only
  split
  next hmore =>
    obtain ⟨array', hcopy', hsize', hread'⟩ :=
      copySlots_eq queue.values array 0 (queue.capacity - queue.head) queue.tail
        (by rw [h.size]; omega) (by omega)
    rw [hcopy']
    refine congrArg some (toList_eq_map_range nullPointer (hsize'.trans hsize) ?_)
    intro k hk
    rw [hread' k (by omega)]
    split
    next hback =>
      rw [show queue.head + k = k - (queue.capacity - queue.head) + queue.capacity by omega,
        Nat.add_mod_right, Nat.mod_eq_of_lt (by omega), Nat.zero_add]
    next hfront =>
      rw [hread k hk, if_pos (by omega), Nat.sub_zero, Nat.mod_eq_of_lt (by omega)]
  next hall =>
    refine congrArg some (toList_eq_map_range nullPointer hsize ?_)
    intro k hk
    rw [hread k hk, if_pos (by omega), Nat.sub_zero, Nat.mod_eq_of_lt (by omega)]

/-- A full queue that starts behind slot `0` has `head = tail`: the copy runs past the last
slot. -/
theorem Holds.toArray_full {queue : QueueBounded} {q : Fifo Pointer} (h : queue.Holds q)
    (garbage : Nat → Pointer) (hfull : queue.length = queue.capacity)
    (hhead : queue.head < queue.capacity) (hpos : 0 < queue.head) :
    queue.toArray garbage = none := by
  have htail := h.tail (by omega)
  rw [hfull, Nat.add_mod_right, Nat.mod_eq_of_lt hhead] at htail
  rw [toArray_of_le garbage (by omega)]
  refine if_neg ?_
  intro hinside
  have hsource := hinside.1
  rw [h.size] at hsource
  omega

/-- **`toArray` lists the items of the queue, exactly where the queue is not full or starts
at slot `0`.** -/
theorem toArray_iff (garbage fresh : Nat → Pointer) (capacity : UInt32)
    (calls : List QueueCall) :
    let queue := (runCalls step calls (create garbage capacity)).2
    let q := (runCalls fifoStep calls (Fifo.empty capacity.toNat)).2
    (queue.toArray fresh).map Array.toList = some q.items ↔
      (queue.isFull → queue.head = 0) := by
  obtain ⟨_, h, _, hnone⟩ := run_holds garbage capacity calls
  intro queue q
  change queue.Holds q at h
  change queue.capacity = 0 → queue.head = 0 ∧ queue.tail = 0 at hnone
  have hle := h.length_le
  by_cases hcapacity : queue.capacity = 0
  · have hindices := hnone hcapacity
    have hlist := h.toArray_straight fresh (by omega) (by omega)
    exact iff_of_true hlist (fun _ => hindices.1)
  · have hhead := h.head (by omega)
    have htail := h.tail (by omega)
    by_cases hwrap : queue.head + queue.length < queue.capacity
    · -- the items end in front of the last slot
      rw [Nat.mod_eq_of_lt hwrap] at htail
      have hlist := h.toArray_straight fresh (by omega) (by omega)
      refine iff_of_true hlist ?_
      intro hfull
      have hlength : queue.length = queue.capacity := by simpa [isFull] using hfull
      omega
    · rw [Nat.mod_eq_sub_mod (by omega), Nat.mod_eq_of_lt (by omega)] at htail
      by_cases hlength : queue.length = queue.capacity
      · -- a full queue: `tail` is `head`
        by_cases hzero : queue.head = 0
        · have hlist := h.toArray_straight fresh (by omega) (by omega)
          exact iff_of_true hlist (fun _ => hzero)
        · have hfails := h.toArray_full fresh hlength hhead (by omega)
          refine iff_of_false (by rw [hfails]; exact nofun) ?_
          intro hfull
          exact hzero (hfull (by simp [isFull, hlength]))
      · have hlist := h.toArray_wrapped fresh (by omega) hhead (by omega)
        refine iff_of_true hlist ?_
        intro hfull
        exact absurd (by simpa [isFull] using hfull) hlength

/-- Two slots: the first one is freed and filled again, and `toArray` reads a third one. -/
theorem not_toArray_refilled :
    ¬ ∀ (garbage fresh : Nat → Pointer) (capacity : UInt32) (calls : List QueueCall),
      ((runCalls step calls (create garbage capacity)).2.toArray fresh).map Array.toList =
        some (runCalls fifoStep calls (Fifo.empty capacity.toNat)).2.items := by
  intro h
  have hrefilled := h (fun _ => 0) (fun _ => 0) 2 [.enqueue 1, .enqueue 2, .dequeue, .enqueue 3]
  exact absurd hrefilled (by decide)

end QueueBounded

end DevopsBroker.Adt
