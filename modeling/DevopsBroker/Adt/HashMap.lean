import Mathlib.Algebra.Group.Nat.Defs
import Mathlib.Data.Finset.Card
import DevopsBroker.Lib.Chain

/-!
# `adt/hashmap.c`: the chained hash map

`HashMap` keeps an array of bucket heads; every bucket is a singly linked list
of `MapEntry` blocks on the heap. `put` pushes new entries to the front of
their bucket and doubles the table when the number of entries *before* the
insertion equals `capacity`; `resize` relinks the existing blocks into the new
table without copying them.

Mirroring notes vs the C source:
- A pointer is a `Nat`, `NULL` is `0`; keys and values are opaque pointers. A
  `Store` is the heap of `MapEntry` blocks: their contents and which of them
  are allocated. `malloc` is any allocator handing out non-null blocks that
  are not allocated (it aborts otherwise, so there is no failure path).
- `uint32_t` arithmetic is `Nat` modulo `2 ^ 32`. `capacity * 1.375f` is single
  precision: both the conversion of `capacity` and the product are rounded.
- A `for (e = …; e != NULL; e = e->next)` loop has as much fuel as there are
  allocated blocks, plus one; `none` stands for a loop that never ends or for
  undefined behaviour. The only undefined operation is the signed overflow of
  the index `i` of `putAll`. The `int` index of `resize` cannot overflow: a
  table with `2 ^ 31` slots is far beyond the lengths this map is used with.
- `clear` of a bucket frees blocks; freeing never changes their contents.
-/

namespace DevopsBroker.Adt

open DevopsBroker.Lib (search)

/-- A `void *` or a `MapEntry *`. -/
abbrev Ptr := Nat

/-- The null pointer. -/
abbrev NULL : Ptr := 0

/-- `struct MapEntry`. -/
structure MapEntry where
  key : Ptr
  value : Ptr
  next : Ptr
  hash : UInt32

/-- `struct HashMap`; the table is the block of bucket heads it points to. -/
structure HashMap where
  table : Array Ptr
  hashCode : Ptr → UInt32
  equals : Ptr → Ptr → Bool
  capacity : Nat
  size : Nat
  length : Nat

/-- The heap of `MapEntry` blocks. -/
structure Store where
  entry : Ptr → MapEntry
  live : Finset Ptr

/-- `f668c4bd_malloc(sizeof(MapEntry))`: some block that is not allocated. -/
structure Malloc where
  fresh : Finset Ptr → Ptr
  fresh_ne_null : ∀ live, fresh live ≠ NULL
  fresh_notMem : ∀ live, fresh live ∉ live

/-- A hash map together with the heap its entries live in. -/
structure MapState where
  store : Store
  map : HashMap

/-- Enough iterations to leave any chain of allocated blocks. -/
def Store.fuel (σ : Store) : Nat := σ.live.card + 1

/-- The `next` pointers of a heap. -/
def Store.next (σ : Store) (a : Ptr) : Ptr := (σ.entry a).next

/-- Overwrite one block. -/
def Store.write (σ : Store) (a : Ptr) (e : MapEntry) : Store :=
  { σ with entry := Function.update σ.entry a e }

/-- `f668c4bd_free(a)`: the block is no longer allocated, its bytes stay. -/
def Store.free (σ : Store) (a : Ptr) : Store := { σ with live := σ.live.erase a }

/-! ## The table length -/

/-- Round to single precision: 24 significant bits, ties to even. -/
def toFloat (n : Nat) : Nat :=
  let ulp := 2 ^ (Nat.log2 n - 23)
  let q := n / ulp
  let r := n % ulp
  if 2 * r < ulp ∨ (2 * r = ulp ∧ q % 2 = 0) then q * ulp else (q + 1) * ulp

/-- `length = capacity * 1.375f`, incremented when even. -/
def tableLength (capacity : Nat) : Nat :=
  let length := toFloat (toFloat capacity * 11) / 8 % 2 ^ 32
  if length % 2 = 0 then length + 1 else length

/-! ## Initialisation -/

/-- `c47905f7_createHashMap`: the slots of the table hold whatever the new block held
(`garbage`). -/
def createHashMap (garbage : Nat → Ptr) (hashCode : Ptr → UInt32) (equals : Ptr → Ptr → Bool)
    (capacity : Nat) : HashMap :=
  { table := Array.ofFn fun i : Fin (tableLength capacity) => garbage i
    hashCode := hashCode
    equals := equals
    capacity := capacity
    size := 0
    length := tableLength capacity }

/-- `c47905f7_initHashMap`: `capacity` is rounded up to a multiple of eight and
every slot of the table is cleared. -/
def initHashMap (hashCode : Ptr → UInt32) (equals : Ptr → Ptr → Bool) (capacity : Nat) : HashMap :=
  let capacity := (capacity + 7) % 2 ^ 32 / 8 * 8
  { table := Array.replicate (tableLength capacity) NULL
    hashCode := hashCode
    equals := equals
    capacity := capacity
    size := 0
    length := tableLength capacity }

/-! ## Lookups -/

/-- `hashMap->hashCode(key) % hashMap->length`. -/
def HashMap.index (m : HashMap) (key : Ptr) : Nat := (m.hashCode key).toNat % m.length

/-- The search loop of `containsKey`, `get` and `put`: the first entry of the
bucket whose key equals `key`, or `NULL`. -/
def findEntry (s : MapState) (key : Ptr) : Option Ptr :=
  search s.store.next (fun e => s.map.equals (s.store.entry e).key key) s.store.fuel
    (s.map.table.getD (s.map.index key) NULL)

/-- `c47905f7_containsKey`. -/
def containsKey (s : MapState) (key : Ptr) : Option Bool :=
  (findEntry s key).map fun e => decide (e ≠ NULL)

/-- `c47905f7_get`. -/
def get (s : MapState) (key : Ptr) : Option Ptr :=
  (findEntry s key).map fun e => if e ≠ NULL then (s.store.entry e).value else NULL

/-! ## Growing the table -/

/-- Link entry `e` in front of bucket `i`: `e->next = table[i]; table[i] = e`. -/
def linkFront (σ : Store) (table : Array Ptr) (i : Nat) (e : Ptr) : Store × Array Ptr :=
  (σ.write e { σ.entry e with next := table.getD i NULL }, table.setIfInBounds i e)

/-- The inner loop of `resize`: relink every entry of one old bucket. The next
pointer is read before the entry is relinked. -/
def relinkBucket : Nat → Ptr → Store × Array Ptr → Option (Store × Array Ptr)
  | 0, _, _ => none
  | fuel + 1, entry, (σ, table) =>
    if entry = NULL then some (σ, table)
    else
      let next := σ.next entry
      let index := (σ.entry entry).hash.toNat % table.size
      relinkBucket fuel next (linkFront σ table index entry)

/-- The outer loop of `resize`, over the buckets `i, i + 1, …` of the old table. -/
def relinkFrom (oldTable : Array Ptr) : Nat → Nat → Store × Array Ptr → Option (Store × Array Ptr)
  | 0, _, acc => some acc
  | n + 1, i, acc => do
    let acc ← relinkBucket acc.1.fuel (oldTable.getD i NULL) acc
    relinkFrom oldTable n (i + 1) acc

/-- `resize`: double the capacity and relink every entry into a fresh table.
The result is the bucket of `hashCode` in the new table. -/
def resize (s : MapState) (hashCode : UInt32) : Option (MapState × Nat) := do
  let capacity := s.map.capacity * 2 % 2 ^ 32
  let length := tableLength capacity
  let (σ, table) ←
    relinkFrom s.map.table s.map.length 0 (s.store, Array.replicate length NULL)
  return (⟨σ, { s.map with table := table, capacity := capacity, length := length }⟩,
    hashCode.toNat % length)

/-! ## Updates -/

/-- The tail of `put`: allocate an entry and link it in front of bucket `i`. -/
def addEntry (A : Malloc) (s : MapState) (i : Nat) (key value : Ptr) (hashCode : UInt32) :
    MapState :=
  let e := A.fresh s.store.live
  let σ : Store := { s.store with live := insert e s.store.live }
  { store := σ.write e ⟨key, value, s.map.table.getD i NULL, hashCode⟩
    map := { s.map with table := s.map.table.setIfInBounds i e } }

/-- `c47905f7_put`: the new state and the previous value, or `NULL`. -/
def put (A : Malloc) (s : MapState) (key value : Ptr) : Option (MapState × Ptr) := do
  let hashCode := s.map.hashCode key
  let e ← findEntry s key
  if e ≠ NULL then
    let v := (s.store.entry e).value
    return ({ s with store := s.store.write e { s.store.entry e with value := value } }, v)
  else
    -- the comparison is made before `size++`
    let full := s.map.size = s.map.capacity
    let s := { s with map := { s.map with size := (s.map.size + 1) % 2 ^ 32 } }
    let (s, i) ← if full then resize s hashCode else some (s, s.map.index key)
    return (addEntry A s i key value hashCode, NULL)

/-- The loop of `putAll`; `i` is an `int`, so incrementing it past `INT_MAX` is
undefined. -/
def putAllFrom (A : Malloc) (elementArray : Nat → Ptr) (numElements : Nat) :
    Nat → Nat → MapState → Option MapState
  | 0, _, _ => none
  | fuel + 1, i, s =>
    if i < numElements then do
      let (s, _) ← put A s (elementArray i) (elementArray (i + 1))
      if i + 2 < 2 ^ 31 then putAllFrom A elementArray numElements fuel (i + 2) s else none
    else some s

/-- `c47905f7_putAll`. -/
def putAll (A : Malloc) (s : MapState) (elementArray : Nat → Ptr) (numElements : Nat) :
    Option MapState :=
  putAllFrom A elementArray numElements (numElements + 1) 0 s

/-- The loop of `putFromStack`: what was pushed last comes first, the value of a pair in front of
its key. -/
def putFromStackFrom (A : Malloc) (stack : Nat → Ptr) (numElements : Nat) :
    Nat → Nat → MapState → Option MapState
  | 0, _, _ => none
  | fuel + 1, i, s =>
    if i < numElements then do
      let (s, _) ← put A s (stack (i + 1)) (stack i)
      if i + 2 < 2 ^ 31 then putFromStackFrom A stack numElements fuel (i + 2) s else none
    else some s

/-- `c47905f7_putFromStack`. -/
def putFromStack (A : Malloc) (s : MapState) (stack : Nat → Ptr) (numElements : Nat) :
    Option MapState :=
  putFromStackFrom A stack numElements (numElements + 1) 0 s

/-- The loop of `remove`: the entry to unlink and the one before it, `NULL` when
it heads the bucket; `(_, NULL)` when the key is not there. -/
def findWithPrev (σ : Store) (hit : Ptr → Bool) : Nat → Ptr → Ptr → Option (Ptr × Ptr)
  | 0, _, _ => none
  | fuel + 1, prev, e =>
    if e = NULL then some (prev, NULL)
    else if hit e then some (prev, e)
    else findWithPrev σ hit fuel e (σ.next e)

/-- `hashMap->size--` on a `uint32_t`. -/
def decSize (size : Nat) : Nat := if size = 0 then 2 ^ 32 - 1 else size - 1

/-- The body of the hit branch of `remove`: unlink `e` from bucket `i`, where it
follows `prev` or, when that is `NULL`, heads the bucket; then free it. -/
def unlink (s : MapState) (i : Nat) (prev e : Ptr) : MapState :=
  -- `prev` is `NULL`: the slot of the table points at `e`
  if prev = NULL then
    { store := s.store.free e
      map := { s.map with
        table := s.map.table.setIfInBounds i (s.store.next e), size := decSize s.map.size } }
  else
    let σ := s.store.write prev { s.store.entry prev with next := s.store.next e }
    { store := σ.free e
      map := { s.map with size := decSize s.map.size } }

/-- `c47905f7_remove`: the new state and the removed value, or `NULL`. -/
def remove (s : MapState) (key : Ptr) : Option (MapState × Ptr) := do
  let i := s.map.index key
  let (prev, e) ← findWithPrev s.store (fun e => s.map.equals (s.store.entry e).key key)
    s.store.fuel NULL (s.map.table.getD i NULL)
  if e = NULL then return (s, NULL)
  else return (unlink s i prev e, (s.store.entry e).value)

/-- The inner loop of `clear`: free every entry of one bucket. -/
def freeBucket : Nat → Ptr → Store → Option Store
  | 0, _, _ => none
  | fuel + 1, entry, σ =>
    if entry = NULL then some σ
    else freeBucket fuel (σ.next entry) (σ.free entry)

/-- The outer loop of `clear`, over the buckets `i, i + 1, …`. -/
def clearFrom : Nat → Nat → MapState → Option MapState
  | 0, _, s => some s
  | n + 1, i, s => do
    let σ ← freeBucket s.store.fuel (s.map.table.getD i NULL) s.store
    clearFrom n (i + 1)
      { store := σ, map := { s.map with table := s.map.table.setIfInBounds i NULL } }

/-- `c47905f7_clear`. -/
def clear (s : MapState) : Option MapState := do
  let s ← clearFrom s.map.length 0 s
  return { s with map := { s.map with size := 0 } }

end DevopsBroker.Adt
