import DevopsBroker.Lib.Arrays
import Mathlib.Data.Nat.Basic

/-!
# Ring buffers and bounded queues

A ring buffer keeps `n` items in the slots from `head` on, and goes on at slot `0` after
the last one. `ringItems` are the items in order; writing the slot behind the last item
appends one (`ringItems_push`), and moving `head` drops one (`ringItems_pop`). An index
that is moved by one and set to `0` when it gets to the capacity moves modulo the
capacity (`wrap_eq_mod`).

`Fifo` is what a bounded queue is for: a list of items, with a bound on their number.
-/

namespace DevopsBroker.Lib

variable {α : Type}

/-! ## Ring buffers -/

/-- The `n` items from slot `head` on. -/
def ringItems (slot : Nat → α) (capacity head n : Nat) : List α :=
  (List.range n).map fun i => slot ((head + i) % capacity)

/-- An index that wraps by comparison moves modulo the capacity. -/
theorem wrap_eq_mod {i capacity : Nat} (h : i < capacity) :
    (if i + 1 = capacity then 0 else i + 1) = (i + 1) % capacity := by
  split
  next heq => rw [heq, Nat.mod_self]
  next hne => rw [Nat.mod_eq_of_lt (by omega)]

@[simp] theorem ringItems_length (slot : Nat → α) (capacity head n : Nat) :
    (ringItems slot capacity head n).length = n := by
  rw [ringItems, List.length_map, List.length_range]

/-- Only the slots of the items count. -/
theorem ringItems_congr {slot slot' : Nat → α} {capacity head n : Nat}
    (h : ∀ i < n, slot ((head + i) % capacity) = slot' ((head + i) % capacity)) :
    ringItems slot capacity head n = ringItems slot' capacity head n := by
  refine List.map_congr_left ?_
  intro i hi
  exact h i (List.mem_range.mp hi)

/-- The head is taken modulo the capacity. -/
theorem ringItems_mod (slot : Nat → α) (capacity head n : Nat) :
    ringItems slot capacity (head % capacity) n = ringItems slot capacity head n := by
  refine List.map_congr_left ?_
  intro i _
  rw [Nat.mod_add_mod]

theorem ringItems_succ (slot : Nat → α) (capacity head n : Nat) :
    ringItems slot capacity head (n + 1) =
      ringItems slot capacity head n ++ [slot ((head + n) % capacity)] := by
  unfold ringItems
  rw [List.range_succ, List.map_append]
  rfl

/-- **Taking the item at the head.** -/
theorem ringItems_pop (slot : Nat → α) (capacity head n : Nat) :
    ringItems slot capacity head (n + 1) =
      slot (head % capacity) :: ringItems slot capacity (head + 1) n := by
  unfold ringItems
  rw [List.range_succ_eq_map, List.map_cons, List.map_map, Nat.add_zero]
  congr 1
  refine List.map_congr_left ?_
  intro i _
  show slot ((head + (i + 1)) % capacity) = slot ((head + 1 + i) % capacity)
  rw [show head + (i + 1) = head + 1 + i by omega]

/-- Different places of a ring are different slots. -/
theorem ring_ne {capacity head i j : Nat} (hij : i < j) (hj : j < capacity) :
    (head + i) % capacity ≠ (head + j) % capacity := by
  intro h
  have hmod : (head + j - (head + i)) % capacity = 0 := Nat.sub_mod_eq_zero_of_mod_eq h.symm
  rw [show head + j - (head + i) = j - i by omega, Nat.mod_eq_of_lt (by omega)] at hmod
  omega

/-- **Writing the slot behind the last item.** -/
theorem ringItems_push {slot slot' : Nat → α} {capacity head n : Nat} {x : α} (hn : n < capacity)
    (hnew : slot' ((head + n) % capacity) = x)
    (hold : ∀ i, i ≠ (head + n) % capacity → slot' i = slot i) :
    ringItems slot' capacity head (n + 1) = ringItems slot capacity head n ++ [x] := by
  rw [ringItems_succ, hnew, ringItems_congr fun i hi => hold _ (ring_ne hi hn)]

/-! ## Bounded queues -/

/-- A queue of `capacity` items at most, the oldest first. -/
structure Fifo (α : Type) where
  capacity : Nat
  items : List α
  bounded : items.length ≤ capacity

namespace Fifo

def empty (capacity : Nat) : Fifo α := ⟨capacity, [], Nat.zero_le capacity⟩

/-- Add an item at the end; a full queue stays as it is. -/
def push (q : Fifo α) (x : α) : Bool × Fifo α :=
  if h : q.items.length < q.capacity then
    (true, { q with items := q.items ++ [x], bounded := by rw [List.length_append]; exact h })
  else (false, q)

/-- Take the oldest item; an empty queue stays as it is. -/
def pop (q : Fifo α) : Option α × Fifo α :=
  (q.items.head?, { q with
    items := q.items.tail
    bounded := Nat.le_trans (by rw [List.length_tail]; omega) q.bounded })

end Fifo

end DevopsBroker.Lib
