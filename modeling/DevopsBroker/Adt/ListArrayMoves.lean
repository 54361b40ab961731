import DevopsBroker.Adt.ListArray
import DevopsBroker.Lang.MemoryMovesSpec

/-!
# Where `adt/listarray.linux-x86_64.asm` stores elements

`add`, `addAll` and `addFromStack` of `ListArray` once more, with the addresses that they compute and
a trace of what they read and write. Each one turns the length into the address of the first free
slot: `add` and `addFromStack` multiply by eight in an address of 64 bits, `addAll` shifts a register
of 32 bits. **`addAll_agrees_iff`**: they agree below a length of `2 ^ 29`, and there only.

Mirroring notes vs the assembly source:
- A list is not `NULL`, and its fields are a structure next to the memory: they are in no array of
  elements.
- The loops run on fuel; `none` is out of fuel. `some none` is an abort of `resizeArray`, which
  starts the trace when it is called.
-/

namespace DevopsBroker.Adt

open DevopsBroker.Lang DevopsBroker.Lib

/-- `struct ListArray`, with the address of the elements. -/
structure ListHeader where
  values : Nat
  length : UInt32
  size : UInt32

namespace ListHeader

/-- `.resizeArray`: the elements are moved, and the new size is stored. -/
def resize (fuel : Nat) (mem : Mem) (newPtr : Nat) (list : ListHeader) (newSize : UInt32) :
    Option (Option (ListHeader × Trace)) :=
  (resizeArrayIn fuel mem list.values list.length 8 newSize.toUInt64 newPtr).map fun moved =>
    moved.map fun moved =>
      ({ list with values := moved.block.start, size := newSize }, moved.trace)

/-- `b196167f_add`. -/
def add (fuel : Nat) (mem : Mem) (newPtr : Nat) (list : ListHeader) (element : Pointer) :
    Option (Option (ListHeader × Trace)) :=
  if element = nullPointer then some (some (list, .start mem))
  else
    let resized :=
      if list.length = list.size then list.resize fuel mem newPtr (list.size <<< 1)
      else some (some (list, .start mem))
    resized.map fun resized => resized.map fun (list, trace) =>
      -- `[rcx + rdx*8]`
      ({ list with length := list.length + 1 },
        trace.store (list.values + list.length.toNat * 8) 8 element.toNat)

/-- `.shouldWeResize` of `b196167f_addAll` and `b196167f_addFromStack`. -/
def shouldWeResize (fuel : Nat) (mem : Mem) (newPtr : Nat) (list : ListHeader) (newLength : UInt32) :
    Option (Option (ListHeader × Trace)) :=
  if newLength ≤ list.size then some (some (list, .start mem))
  else list.resize fuel mem newPtr (newLength + newLength >>> 1)

/-- `rep movsq`. -/
def repMovsq : Nat → Nat → Nat → Trace → Trace
  | 0, _, _, trace => trace
  | ecx + 1, rsi, rdi, trace => repMovsq ecx (rsi + 8) (rdi + 8) (trace.move rsi rdi 8)

/-- `b196167f_addAll`. -/
def addAll (fuel : Nat) (mem : Mem) (newPtr : Nat) (list : ListHeader) (elementArray : Nat)
    (numElements : UInt32) : Option (Option (ListHeader × Trace)) :=
  if elementArray = 0 then some (some (list, .start mem))
  else if numElements = 0 then some (some (list, .start mem))
  else
    let newLength := numElements + list.length
    (list.shouldWeResize fuel mem newPtr newLength).map fun resized =>
      resized.map fun (list, trace) =>
        let edx := list.length <<< 3
        ({ list with length := newLength },
          repMovsq numElements.toNat elementArray (list.values + edx.toNat) trace)

/-- The registers of `addFromStack` in `.whileElements`. -/
structure StackState where
  rsi : Nat
  rdi : Nat
  ecx : UInt32
  trace : Trace

/-- From `.whileElements` back to it, or to the end. -/
def whileElements (s : StackState) : Option (Turn StackState Trace) :=
  let trace := s.trace.move s.rsi s.rdi 8
  let ecx := s.ecx - 1
  if ecx ≠ 0 then some (.next ⟨(2 ^ 64 + s.rsi - 8) % 2 ^ 64, s.rdi + 8, ecx, trace⟩)
  else some (.done trace)

/-- `b196167f_addFromStack`. -/
def addFromStack (fuel : Nat) (mem : Mem) (newPtr : Nat) (list : ListHeader) (stack : Nat)
    (numElements : UInt32) : Option (Option (ListHeader × Trace)) :=
  if stack = 0 then some (some (list, .start mem))
  else if numElements = 0 then some (some (list, .start mem))
  else
    let newLength := numElements + list.length
    (list.shouldWeResize fuel mem newPtr newLength).bind fun resized =>
      match resized with
      | none => some none
      | some (list, trace) =>
        let rdi := list.values + list.length.toNat * 8
        (rounds whileElements fuel ⟨stack, rdi, numElements, trace⟩).map fun trace =>
          some ({ list with length := newLength }, trace)

end ListHeader

/-! ## `rep movsq` -/

theorem repMovsq_accesses (n : Nat) :
    ∀ (rsi rdi : Nat) (t : Trace),
      (ListHeader.repMovsq n rsi rdi t).reads.reverse =
          t.reads.reverse ++ (List.range n).map (Region.piece rsi 8) ∧
        (ListHeader.repMovsq n rsi rdi t).writes.reverse =
          t.writes.reverse ++ (List.range n).map (Region.piece rdi 8) := by
  induction n with
  | zero => exact fun _ _ t => ⟨(List.append_nil _).symm, (List.append_nil _).symm⟩
  | succ n ih =>
    intro rsi rdi t
    obtain ⟨hreads, hwrites⟩ := ih (rsi + 8) (rdi + 8) (t.move rsi rdi 8)
    -- the first piece comes before those that the rest makes
    have hpieces (start : Nat) : ⟨start, 8⟩ :: (List.range n).map (Region.piece (start + 8) 8) =
        (List.range (n + 1)).map (Region.piece start 8) := by
      rw [List.range_succ_eq_map, List.map_cons, List.map_map]
      congr 1
      exact List.map_congr_left fun i _ => Region.piece_succ start 8 i
    constructor
    · rw [ListHeader.repMovsq, hreads, ← hpieces rsi, Trace.move_reads, List.reverse_cons,
        List.append_assoc]
      rfl
    · rw [ListHeader.repMovsq, hwrites, ← hpieces rdi, Trace.move_writes, List.reverse_cons,
        List.append_assoc]
      rfl

/-- `rep movsq` copies, where it does not write what it still has to read. -/
theorem repMovsq_copied {mem : Mem} {source dest : Nat} (n : Nat) :
    ∀ {i : Nat} {t : Trace}, source + 8 * (i + n) ≤ dest ∨ dest ≤ source →
      Copied mem source dest (8 * i) t →
      Copied mem source dest (8 * (i + n))
        (ListHeader.repMovsq n (source + 8 * i) (dest + 8 * i) t) := by
  induction n with
  | zero => exact fun _ h => h
  | succ n ih =>
    intro i t happart h
    have hmoved := h.move (k := 8) (by omega)
    rw [show 8 * i + 8 = 8 * (i + 1) by omega] at hmoved
    have hrest := ih (by omega) hmoved
    rw [show i + 1 + n = i + (n + 1) by omega] at hrest
    exact hrest

/-! ## `.whileElements` -/

/-- What a round of `.whileElements` does: the last element, or one that more follow. -/
theorem whileElements_cases {s : ListHeader.StackState} (hpos : 1 ≤ s.ecx.toNat) :
    (s.ecx.toNat = 1 ∧
      ListHeader.whileElements s = some (.done (s.trace.move s.rsi s.rdi 8))) ∨
    ∃ ecx, ecx.toNat + 1 = s.ecx.toNat ∧ 1 ≤ ecx.toNat ∧ ListHeader.whileElements s =
      some (.next ⟨(2 ^ 64 + s.rsi - 8) % 2 ^ 64, s.rdi + 8, ecx, s.trace.move s.rsi s.rdi 8⟩) := by
  have hless := s.ecx.toNat_lt
  have hone : (1 : UInt32).toNat = 1 := rfl
  have hcount : (s.ecx - 1).toNat + 1 = s.ecx.toNat := by
    rw [UInt32.toNat_sub, hone]
    omega
  unfold ListHeader.whileElements
  by_cases hlast : s.ecx - 1 = 0
  · left
    rw [hlast] at hcount
    exact ⟨hcount.symm, if_neg fun h => h hlast⟩
  · right
    have hmore : (s.ecx - 1).toNat ≠ 0 := fun h => hlast (UInt32.toNat_inj.mp h)
    exact ⟨s.ecx - 1, hcount, Nat.pos_of_ne_zero hmore, if_pos hlast⟩

/-- `i` elements are stored, one behind the other. -/
structure StackInv (dest n i : Nat) (s : ListHeader.StackState) : Prop where
  rdi : s.rdi = dest + 8 * i
  ecx : s.ecx.toNat + i = n
  pos : 1 ≤ s.ecx.toNat
  writes : s.trace.writes.reverse = (List.range i).map (Region.piece dest 8)

theorem whileElements_inv {dest n i : Nat} {s : ListHeader.StackState} (h : StackInv dest n i s) :
    ∃ turn, ListHeader.whileElements s = some turn ∧ turn.Meets
      (fun s' => ∃ i', i < i' ∧ StackInv dest n i' s')
      (fun t => t.writes.reverse = (List.range n).map (Region.piece dest 8)) := by
  obtain ⟨hrdi, hecx, hpos, hwrites⟩ := h
  have hmoved : (s.trace.move s.rsi s.rdi 8).writes.reverse =
      (List.range (i + 1)).map (Region.piece dest 8) := by
    rw [Trace.move_writes, List.reverse_cons, hwrites, hrdi, List.range_succ, List.map_append]
    rfl
  rcases whileElements_cases hpos with ⟨hlast, hround⟩ | ⟨ecx, hcount, hmore, hround⟩
  · have hall : i + 1 = n := by omega
    rw [hall] at hmoved
    exact ⟨_, hround, hmoved⟩
  · exact ⟨_, hround, i + 1, Nat.lt_succ_self i, by dsimp only; omega, by dsimp only; omega, hmore,
      hmoved⟩

/-! ## The slots of the three -/

/-- The slots of `n` elements, from index `i` on. -/
def slotsFrom (values i n : Nat) : List Region :=
  (List.range n).map (Region.piece (values + 8 * i) 8)

section

variable {mem : Mem} {newPtr : Nat} {list : ListHeader} {numElements : UInt32}

/-- There is room for the new elements. -/
theorem shouldWeResize_room (fuel : Nat)
    (hsum : list.length.toNat + numElements.toNat < 2 ^ 31)
    (hroom : list.length.toNat + numElements.toNat ≤ list.size.toNat) :
    list.shouldWeResize fuel mem newPtr (numElements + list.length) =
      some (some (list, .start mem)) := by
  have hlength : (numElements + list.length).toNat = numElements.toNat + list.length.toNat := by
    rw [UInt32.toNat_add, Nat.mod_eq_of_lt (by omega)]
  refine if_pos ?_
  rw [UInt32.le_iff_toNat_le, hlength, Nat.add_comm]
  exact hroom

/-- `addFromStack` comes back when `.whileElements` does. -/
theorem addFromStack_returns (hn : 1 ≤ numElements.toNat)
    (hsum : list.length.toNat + numElements.toNat < 2 ^ 31)
    (hroom : list.length.toNat + numElements.toNat ≤ list.size.toNat) {stack : Nat}
    (hstack : stack ≠ 0) {t : Trace}
    (h : Returns (fun fuel => rounds ListHeader.whileElements fuel
      ⟨stack, list.values + list.length.toNat * 8, numElements, .start mem⟩) t) :
    Returns (fun fuel => list.addFromStack fuel mem newPtr stack numElements)
      (some ({ list with length := numElements + list.length }, t)) := by
  have hzero : ¬ numElements = 0 := by
    rintro rfl
    exact absurd hn (by decide)
  unfold ListHeader.addFromStack
  simp only [if_neg hstack, if_neg hzero, shouldWeResize_room _ hsum hroom, Option.bind_some]
  exact h.map fun trace : Trace =>
    some (ListHeader.mk list.values (numElements + list.length) list.size, trace)

/-- **`addFromStack` stores from the length on.** -/
theorem addFromStack_slots (hn : 1 ≤ numElements.toNat)
    (hsum : list.length.toNat + numElements.toNat < 2 ^ 31)
    (hroom : list.length.toNat + numElements.toNat ≤ list.size.toNat) {stack : Nat}
    (hstack : stack ≠ 0) :
    ∃ t, Returns (fun fuel => list.addFromStack fuel mem newPtr stack numElements)
        (some ({ list with length := numElements + list.length }, t)) ∧
      t.writes.reverse = slotsFrom list.values list.length.toNat numElements.toNat := by
  have hstart : StackInv (list.values + list.length.toNat * 8) numElements.toNat 0
      ⟨stack, list.values + list.length.toNat * 8, numElements, .start mem⟩ :=
    ⟨rfl, rfl, hn, rfl⟩
  obtain ⟨t, hreturns, hwrites⟩ := returns_of_progress numElements.toNat
    (fun _ _ hs => whileElements_inv hs) (fun i s hs => by have := hs.ecx; omega) hstart
  refine ⟨t, addFromStack_returns hn hsum hroom hstack hreturns, ?_⟩
  rw [hwrites, slotsFrom, Nat.mul_comm]

/-- **`add` stores at the length**, where there is room. -/
theorem add_slot (hroom : list.length.toNat < list.size.toNat) {element : Pointer}
    (helement : element ≠ nullPointer) :
    ∃ t, Returns (fun fuel => list.add fuel mem newPtr element)
        (some ({ list with length := list.length + 1 }, t)) ∧
      t.writes = slotsFrom list.values list.length.toNat 1 := by
  have hfull : ¬ list.length = list.size := fun h => by
    rw [h] at hroom
    exact Nat.lt_irrefl _ hroom
  refine ⟨Trace.store (.start mem) (list.values + list.length.toNat * 8) 8 element.toNat,
    returns_of_eq fun fuel => ?_, ?_⟩
  · unfold ListHeader.add
    simp only [if_neg helement, if_neg hfull, Option.map_some]
  · rw [Nat.mul_comm]
    rfl

/-- **`addAll` stores from eight times the length on, modulo `2 ^ 32`.** -/
theorem addAll_moves (fuel : Nat) (hn : 1 ≤ numElements.toNat)
    (hsum : list.length.toNat + numElements.toNat < 2 ^ 31)
    (hroom : list.length.toNat + numElements.toNat ≤ list.size.toNat) {elementArray : Nat}
    (harray : elementArray ≠ 0) :
    list.addAll fuel mem newPtr elementArray numElements =
      some (some ({ list with length := numElements + list.length },
        ListHeader.repMovsq numElements.toNat elementArray
          (list.values + 8 * list.length.toNat % 2 ^ 32) (.start mem))) := by
  have hzero : ¬ numElements = 0 := by
    rintro rfl
    exact absurd hn (by decide)
  have hshift : (list.length <<< 3).toNat = 8 * list.length.toNat % 2 ^ 32 := by
    rw [UInt32.toNat_shiftLeft, Nat.mul_comm]
    exact congrArg (· % 2 ^ 32) (Nat.shiftLeft_eq _ 3)
  unfold ListHeader.addAll
  simp only [if_neg harray, if_neg hzero, shouldWeResize_room _ hsum hroom, Option.map_some, hshift]

end

/-! ## Do they agree? -/

/-- Elements are read one after the other, and stored behind the first `length` ones. -/
structure StoresBehind (mem : Mem) (values length elementArray n : Nat) (t : Trace) : Prop where
  reads : t.reads.reverse = (List.range n).map (Region.piece elementArray 8)
  writes : t.writes.reverse = slotsFrom values length n
  elements : Region.Apart ⟨elementArray, 8 * n⟩ ⟨values + 8 * length, 8 * n⟩ →
    ∀ j < n, bytesAt t.mem (values + 8 * (length + j)) 8 = bytesAt mem (elementArray + 8 * j) 8

/-- `addAll` stores the elements behind those that there are, and at the addresses that
`addFromStack` and `add` store at. -/
def AddAllAgrees (mem : Mem) (newPtr : Nat) (list : ListHeader) (elementArray : Nat)
    (numElements : UInt32) : Prop :=
  ∃ list' t,
    Returns (fun fuel => list.addAll fuel mem newPtr elementArray numElements) (some (list', t)) ∧
    StoresBehind mem list.values list.length.toNat elementArray numElements.toNat t ∧
    (∀ stack ≠ 0, ∃ list' t',
      Returns (fun fuel => list.addFromStack fuel mem newPtr stack numElements)
        (some (list', t')) ∧ t'.writes = t.writes) ∧
    ∀ j < numElements.toNat, ∀ element ≠ nullPointer, ∃ list' t',
      Returns (fun fuel =>
        { list with length := list.length + UInt32.ofNat j }.add fuel mem newPtr element)
        (some (list', t')) ∧ t'.writes = slotsFrom list.values (list.length.toNat + j) 1

section

variable {mem : Mem} {newPtr : Nat} {list : ListHeader} {numElements : UInt32} {elementArray : Nat}

/-- What `rep movsq` stores behind the first `length` elements. -/
theorem repMovsq_storesBehind (mem : Mem) (values length elementArray n : Nat) :
    StoresBehind mem values length elementArray n
      (ListHeader.repMovsq n elementArray (values + 8 * length) (.start mem)) := by
  obtain ⟨hreads, hwrites⟩ :=
    repMovsq_accesses n elementArray (values + 8 * length) (.start mem)
  refine ⟨hreads, hwrites, ?_⟩
  intro happart j hj
  unfold Region.Apart at happart
  dsimp only at happart
  have hcopied := repMovsq_copied n (i := 0) (by omega)
    (copied_start mem elementArray (values + 8 * length))
  refine bytesAt_inj.mpr fun k hk => ?_
  have hbyte := hcopied.byte (i := 8 * j + k) (by omega)
  rw [Nat.mul_add, ← Nat.add_assoc, Nat.add_assoc (values + 8 * length), Nat.add_assoc elementArray]
  exact hbyte

/-- **`addAll` agrees below a length of `2 ^ 29`**, and nowhere else. -/
theorem addAll_agrees_iff (mem : Mem) (newPtr : Nat) (harray : elementArray ≠ 0)
    (hn : 1 ≤ numElements.toNat) (hsum : list.length.toNat + numElements.toNat < 2 ^ 31)
    (hroom : list.length.toNat + numElements.toNat ≤ list.size.toNat) :
    AddAllAgrees mem newPtr list elementArray numElements ↔ list.length.toNat < 2 ^ 29 := by
  have hmoves (fuel : Nat) := @addAll_moves mem newPtr list numElements fuel hn hsum hroom
    elementArray harray
  constructor
  · rintro ⟨list', t, hreturns, hstores, -⟩
    -- the first slot tells them apart
    cases (returns_of_eq hmoves).unique hreturns
    have hwrites := hstores.writes
    rw [(repMovsq_accesses ..).2] at hwrites
    obtain ⟨n, hn'⟩ : ∃ n, numElements.toNat = n + 1 := ⟨numElements.toNat - 1, by omega⟩
    rw [hn', slotsFrom, List.range_succ_eq_map, List.map_cons, List.map_cons] at hwrites
    have hfirst := congrArg Region.start (List.cons.inj hwrites).1
    unfold Region.piece at hfirst
    dsimp only at hfirst
    omega
  · intro hshort
    have hoffset : 8 * list.length.toNat % 2 ^ 32 = 8 * list.length.toNat := by omega
    have hstores := repMovsq_storesBehind mem list.values list.length.toNat elementArray
      numElements.toNat
    simp only [hoffset] at hmoves
    refine ⟨_, _, returns_of_eq hmoves, hstores, ?_, ?_⟩
    · intro stack hstack
      obtain ⟨t', hreturns, hslots⟩ :=
        @addFromStack_slots mem newPtr list numElements hn hsum hroom stack hstack
      refine ⟨_, t', hreturns, ?_⟩
      rw [← List.reverse_inj, hslots, hstores.writes]
    · intro j hj element helement
      have hlength : (list.length + UInt32.ofNat j).toNat = list.length.toNat + j := by
        rw [UInt32.toNat_add, UInt32.toNat_ofNat', Nat.add_mod_mod, Nat.mod_eq_of_lt (by omega)]
      obtain ⟨t', hreturns, hslot⟩ := @add_slot mem newPtr
        { list with length := list.length + UInt32.ofNat j } (by dsimp only; omega) element helement
      exact ⟨_, t', hreturns, by rw [hslot, hlength]⟩

end

theorem addAll_agrees_three : AddAllAgrees UInt8.ofNat 0 ⟨4096, 2, 8⟩ 64 3 :=
  (@addAll_agrees_iff ⟨4096, 2, 8⟩ 3 64 UInt8.ofNat 0 (by decide) (by decide) (by decide)
    (by decide)).mpr (by decide)

/-- Behind `2 ^ 29` elements, one more is stored over the first one. -/
theorem addAll_overwrites : ¬ AddAllAgrees UInt8.ofNat 0 ⟨4096, 0x20000000, 0x40000000⟩ 64 1 := by
  rintro ⟨list', t, ⟨enough, hrun⟩, hstores, -⟩
  have hmoves := @addAll_moves UInt8.ofNat 0 ⟨4096, 0x20000000, 0x40000000⟩ 1 enough (by decide)
    (by decide) (by decide) 64 (by decide)
  cases Option.some.inj (Option.some.inj (hmoves.symm.trans (hrun enough (Nat.le_refl enough))))
  exact absurd hstores.writes (by decide +kernel)

/-! ## The list of blocks -/

/-- The list whose elements are a block in memory. -/
def ListHeader.view (list : ListHeader) (mem : Mem) (blockSize : Nat) : ListArray :=
  ⟨blockAt mem ⟨list.values, blockSize⟩, list.length.toNat, list.size.toNat⟩

/-- `rep movsq` into a block stores the elements, one after the other. -/
theorem storeAll_repMovsq {block : Region} (n : Nat) :
    ∀ {i rsi : Nat} {t : Trace} (elements : Nat → Pointer),
      rsi + 8 * n ≤ block.start ∨ block.start + block.size ≤ rsi → 8 * (i + n) ≤ block.size →
      (∀ j < n, elements j = pointerAt t.mem (rsi + 8 * j)) →
      ListArray.storeAll n (blockAt t.mem block) i elements =
        some (blockAt (ListHeader.repMovsq n rsi (block.start + 8 * i) t).mem block) := by
  induction n with
  | zero => exact fun _ _ _ _ => rfl
  | succ n ih =>
    intro i rsi t elements happart hfit helements
    have hfirst : elements 0 = pointerAt t.mem rsi := helements 0 (Nat.succ_pos n)
    have hrest := @ih (i + 1) (rsi + 8) (t.move rsi (block.start + 8 * i) 8)
      (fun j => elements (j + 1)) (by omega) (by omega) (by
        intro j hj
        have helement := helements (j + 1) (by omega)
        rw [show rsi + 8 * (j + 1) = rsi + 8 + 8 * j by omega] at helement
        refine helement.trans (pointerAt_congr fun k hk => ?_)
        -- the element is not in the block, and so it was not overwritten
        show _ = storeBytes t.mem (block.start + 8 * i) _ _
        rw [storeBytes, charsOf_length, if_neg (by omega)])
    rw [ListArray.storeAll, hfirst, storeSlot_move t rsi (by omega)]
    exact hrest

/-- One more element at the end. -/
theorem storeAll_succ (n : Nat) :
    ∀ (values : Block) (i : Nat) (elements : Nat → Pointer),
      ListArray.storeAll (n + 1) values i elements =
        (ListArray.storeAll n values i elements).bind fun values =>
          values.storeSlot (i + n) (elements n) := by
  induction n with
  | zero =>
    intro values i elements
    exact Option.bind_fun_some _
  | succ n ih =>
    intro values i elements
    rw [ListArray.storeAll, ListArray.storeAll]
    cases values.storeSlot i (elements 0) with
    | none => rfl
    | some values =>
      have hindex : i + 1 + n = i + (n + 1) := by omega
      rw [Option.bind_eq_bind, Option.bind_some, ih, hindex]
      rfl

/-- `i` elements of the stack are stored into a block, and nothing else was changed. -/
structure StackRead (mem : Mem) (block : Region) (index stack n i : Nat)
    (s : ListHeader.StackState) : Prop where
  rsi : s.rsi + 8 * i = stack
  rdi : s.rdi = block.start + 8 * (index + i)
  ecx : s.ecx.toNat + i = n
  pos : 1 ≤ s.ecx.toNat
  stored : ListArray.storeAll i (blockAt mem block) index (fun j => pointerAt mem (stack - 8 * j)) =
    some (blockAt s.trace.mem block)
  outside : ∀ a, ¬ (block.start ≤ a ∧ a < block.start + block.size) → s.trace.mem a = mem a

section

variable {mem : Mem} {block : Region} {index stack n : Nat}

/-- The next element of the stack is stored. -/
theorem StackRead.move {i : Nat} {s : ListHeader.StackState}
    (h : StackRead mem block index stack n i s) (hfit : 8 * (index + i) + 8 ≤ block.size)
    (happart : stack + 8 ≤ block.start ∨ block.start + block.size + 8 * i ≤ stack) :
    ListArray.storeAll (i + 1) (blockAt mem block) index (fun j => pointerAt mem (stack - 8 * j)) =
        some (blockAt (s.trace.move s.rsi s.rdi 8).mem block) ∧
      ∀ a, ¬ (block.start ≤ a ∧ a < block.start + block.size) →
        (s.trace.move s.rsi s.rdi 8).mem a = mem a := by
  have hrsi := h.rsi
  have helement : pointerAt mem (stack - 8 * i) = pointerAt s.trace.mem s.rsi := by
    rw [show stack - 8 * i = s.rsi by omega]
    exact pointerAt_congr fun k hk => (h.outside _ (by omega)).symm
  constructor
  · rw [storeAll_succ, h.stored, Option.bind_some, helement, storeSlot_move _ _ hfit, h.rdi]
  · intro a ha
    show storeBytes s.trace.mem s.rdi _ a = mem a
    rw [storeBytes, charsOf_length, h.rdi, if_neg (by omega)]
    exact h.outside a ha

/-- **`.whileElements` stores the stack**, from its top down. -/
theorem whileElements_stored {numElements : UInt32} (hn : 1 ≤ numElements.toNat)
    (hfit : 8 * (index + numElements.toNat) ≤ block.size) (hstack : stack < 2 ^ 64)
    (hdeep : 8 * numElements.toNat ≤ stack + 8)
    (happart : stack + 8 ≤ block.start ∨ block.start + block.size + 8 * numElements.toNat ≤ stack) :
    ∃ t, Returns (fun fuel => rounds ListHeader.whileElements fuel
        ⟨stack, block.start + 8 * index, numElements, .start mem⟩) t ∧
      ListArray.storeAll numElements.toNat (blockAt mem block) index
          (fun j => pointerAt mem (stack - 8 * j)) = some (blockAt t.mem block) := by
  have hstart : StackRead mem block index stack numElements.toNat 0
      ⟨stack, block.start + 8 * index, numElements, .start mem⟩ :=
    ⟨rfl, rfl, rfl, hn, rfl, fun _ _ => rfl⟩
  refine returns_of_progress numElements.toNat ?_ (fun i s hs => by have := hs.ecx; omega) hstart
  intro i s hs
  have hrsi := hs.rsi
  have hrdi := hs.rdi
  have hecx := hs.ecx
  have hpos := hs.pos
  obtain ⟨hmoved, houtside⟩ := hs.move (by omega) (by omega)
  rcases whileElements_cases hpos with ⟨hlast, hround⟩ | ⟨ecx, hcount, hmore, hround⟩
  · have hall : i + 1 = numElements.toNat := by omega
    rw [hall] at hmoved
    exact ⟨_, hround, hmoved⟩
  · -- there is another element below, and so the address does not go below zero
    exact ⟨_, hround, i + 1, Nat.lt_succ_self i, by dsimp only; omega, by dsimp only; omega,
      by dsimp only; omega, hmore, hmoved, houtside⟩

end

/-! Where there is room, `ListArray` does not move its elements either. -/

section

variable {mem : Mem} {list : ListHeader} {numElements : UInt32} {blockSize : Nat}

theorem shouldWeResize_view (garbage : Mem)
    (hsum : list.length.toNat + numElements.toNat < 2 ^ 31)
    (hroom : list.length.toNat + numElements.toNat ≤ list.size.toNat) :
    ListArray.shouldWeResize garbage (list.view mem blockSize)
      ((numElements.toNat + (list.view mem blockSize).length) % 2 ^ 32) =
        some (list.view mem blockSize) := by
  refine if_pos ?_
  show (numElements.toNat + list.length.toNat) % 2 ^ 32 ≤ list.size.toNat
  omega

/-- The list with other elements, and its new length. -/
theorem view_of_stored {values : Block} {mem' : Mem}
    (h : values = blockAt mem' ⟨list.values, blockSize⟩) :
    ListArray.mk values ((numElements.toNat + (list.view mem blockSize).length) % 2 ^ 32)
        (list.view mem blockSize).size =
      ListHeader.view { list with length := numElements + list.length } mem' blockSize := by
  rw [h]
  exact congrArg (fun length => ListArray.mk _ length list.size.toNat) (UInt32.toNat_add ..).symm

end

/-- **`add` of `ListArray` is what the registers do.** -/
theorem add_view (garbage mem : Mem) (newPtr : Nat) {list : ListHeader} {blockSize : Nat}
    (hroom : list.length.toNat < list.size.toNat) (hblock : 8 * list.size.toNat ≤ blockSize)
    (element : Pointer) :
    ∃ list' t, Returns (fun fuel => list.add fuel mem newPtr element) (some (list', t)) ∧
      ListArray.add garbage (list.view mem blockSize) element = some (list'.view t.mem blockSize) := by
  by_cases hnull : element = nullPointer
  · exact ⟨list, .start mem, returns_of_eq fun _ => if_pos hnull, if_pos hnull⟩
  · have hfull : ¬ list.length = list.size := fun h => by
      rw [h] at hroom
      exact Nat.lt_irrefl _ hroom
    have hfull' : ¬ (list.view mem blockSize).length = (list.view mem blockSize).size :=
      Nat.ne_of_lt hroom
    refine ⟨{ list with length := list.length + 1 },
      Trace.store (.start mem) (list.values + list.length.toNat * 8) 8 element.toNat,
      returns_of_eq fun fuel => ?_, ?_⟩
    · unfold ListHeader.add
      simp only [if_neg hnull, if_neg hfull, Option.map_some]
    · have hstore := @storeSlot_store (.start mem) ⟨list.values, blockSize⟩ list.length.toNat
        (by dsimp only; omega) element
      rw [Nat.mul_comm]
      unfold ListArray.add
      rw [if_neg hnull, if_neg hfull', Option.bind_eq_bind, Option.bind_some]
      refine Option.bind_eq_some_iff.mpr ⟨_, hstore, ?_⟩
      have hnext : (list.length.toNat + 1) % 2 ^ 32 = (list.length + 1).toNat :=
        (UInt32.toNat_add list.length 1).symm
      exact congrArg (fun length => some (ListArray.mk _ length list.size.toNat)) hnext

/-- **`addAll` of `ListArray` is what the registers do.** -/
theorem addAll_view (garbage mem : Mem) (newPtr : Nat) {list : ListHeader} {numElements : UInt32}
    {elementArray blockSize : Nat} (harray : elementArray ≠ 0) (hn : 1 ≤ numElements.toNat)
    (hsum : list.length.toNat + numElements.toNat < 2 ^ 31)
    (hroom : list.length.toNat + numElements.toNat ≤ list.size.toNat)
    (hblock : 8 * list.size.toNat ≤ blockSize)
    (happart : Region.Apart ⟨elementArray, 8 * numElements.toNat⟩ ⟨list.values, blockSize⟩) :
    ∃ list' t,
      Returns (fun fuel => list.addAll fuel mem newPtr elementArray numElements) (some (list', t)) ∧
      ListArray.addAll garbage (list.view mem blockSize)
          (some (blockAt mem ⟨elementArray, 8 * numElements.toNat⟩).slot) numElements.toNat =
        some (list'.view t.mem blockSize) := by
  have hmoves (fuel : Nat) := @addAll_moves mem newPtr list numElements fuel hn hsum hroom
    elementArray harray
  refine ⟨_, _, returns_of_eq hmoves, ?_⟩
  have hindex : 8 * (8 * list.length.toNat % 2 ^ 32 / 8) = 8 * list.length.toNat % 2 ^ 32 := by omega
  have hstore := @storeAll_repMovsq ⟨list.values, blockSize⟩ numElements.toNat
    (8 * list.length.toNat % 2 ^ 32 / 8) elementArray (.start mem)
    (blockAt mem ⟨elementArray, 8 * numElements.toNat⟩).slot happart (by dsimp only; omega)
    fun j _ => slot_blockAt mem ⟨elementArray, 8 * numElements.toNat⟩ j
  rw [hindex] at hstore
  unfold ListArray.addAll
  dsimp only
  rw [if_neg (by omega), shouldWeResize_view garbage hsum hroom, Option.bind_eq_bind,
    Option.bind_some]
  exact Option.bind_eq_some_iff.mpr ⟨_, hstore, congrArg some (view_of_stored rfl)⟩

/-- **`addFromStack` of `ListArray` is what the registers do.** -/
theorem addFromStack_view (garbage mem : Mem) (newPtr : Nat) {list : ListHeader}
    {numElements : UInt32} {stack blockSize : Nat} (hstack : stack ≠ 0) (hlow : stack < 2 ^ 64)
    (hdeep : 8 * numElements.toNat ≤ stack + 8) (hn : 1 ≤ numElements.toNat)
    (hsum : list.length.toNat + numElements.toNat < 2 ^ 31)
    (hroom : list.length.toNat + numElements.toNat ≤ list.size.toNat)
    (hblock : 8 * list.size.toNat ≤ blockSize)
    (happart : stack + 8 ≤ list.values ∨
      list.values + blockSize + 8 * numElements.toNat ≤ stack) :
    ∃ list' t,
      Returns (fun fuel => list.addFromStack fuel mem newPtr stack numElements) (some (list', t)) ∧
      ListArray.addFromStack garbage (list.view mem blockSize)
          (some fun j => pointerAt mem (stack - 8 * j)) numElements.toNat =
        some (list'.view t.mem blockSize) := by
  obtain ⟨t, hreturns, hstore⟩ := @whileElements_stored mem ⟨list.values, blockSize⟩
    list.length.toNat stack numElements hn (by dsimp only; omega) hlow hdeep happart
  rw [Nat.mul_comm] at hreturns
  refine ⟨_, t, addFromStack_returns hn hsum hroom hstack hreturns, ?_⟩
  unfold ListArray.addFromStack
  dsimp only
  rw [if_neg (by omega), shouldWeResize_view garbage hsum hroom, Option.bind_eq_bind,
    Option.bind_some]
  exact Option.bind_eq_some_iff.mpr ⟨_, hstore, congrArg some (view_of_stored rfl)⟩

end DevopsBroker.Adt
