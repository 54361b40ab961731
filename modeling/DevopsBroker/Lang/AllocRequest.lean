import DevopsBroker.Lang.Block

/-!
# `lang/memory.linux-x86_64.asm`: how much memory is requested

`malloc`, `mallocArray`, `mallocFlexibleStruct` and `resizeArray` compute a size, round it up to a
multiple of 16 and pass it to `aligned_alloc`. Behind each step there is a `jo` to `.fatalError`.
Behind `mul` it finds every product that does not fit into a register; behind `add` it finds
signed overflow, and a sum from `2 ^ 64` on is taken modulo that. **`requests_cover_iff`**: for which
sizes what is requested is enough.

Mirroring notes vs the assembly source:
- `none` is `.fatalError`; what `aligned_alloc` makes of the request is left to `Block`.
- `.calcAllocSize` of the four routines adds `0x0F`, and shifts by four bits to the right and back.
-/

namespace DevopsBroker.Lang

open DevopsBroker.Lib

/-- `add` and `jo .fatalError`. -/
def addOrAbort (a b : UInt64) : Option UInt64 :=
  if a.toBitVec.saddOverflow b.toBitVec then none else some (a + b)

/-- `mul` and `jo .fatalError`. -/
def mulOrAbort (a b : UInt64) : Option UInt64 :=
  if a.toBitVec.umulOverflow b.toBitVec then none else some (a * b)

/-- `size = ((size + 15) / 16) * 16`. -/
def calcAllocSize (size : UInt64) : Option UInt64 :=
  (addOrAbort size 0x0F).map fun size => (size >>> (4 : UInt64)) <<< (4 : UInt64)

/-- The size that `f668c4bd_malloc` requests. -/
def mallocRequest (size : UInt64) : Option UInt64 := calcAllocSize size

/-- The size that `f668c4bd_mallocArray` requests. -/
def mallocArrayRequest (typeSize numBlocks : UInt64) : Option UInt64 :=
  (mulOrAbort typeSize numBlocks).bind calcAllocSize

/-- The size that `f668c4bd_mallocFlexibleStruct` requests. -/
def mallocFlexibleStructRequest (structSize typeSize numBlocks : UInt64) : Option UInt64 := do
  let allocSize ← mulOrAbort typeSize numBlocks
  let allocSize ← addOrAbort allocSize structSize
  calcAllocSize allocSize

/-- The size that `f668c4bd_resizeArray` requests. -/
def resizeArrayRequest (typeSize numBlocks : UInt64) : Option UInt64 :=
  (mulOrAbort typeSize numBlocks).bind calcAllocSize

/-- `f668c4bd_mallocFlexibleStruct`. -/
def mallocFlexibleStruct (garbage : Mem) (structSize typeSize numBlocks : UInt64) : Option Block :=
  (mallocFlexibleStructRequest structSize typeSize numBlocks).map fun size => ⟨size.toNat, garbage⟩

/-- A request is a multiple of 16 and enough for `exact` bytes, if there is one. -/
def Covers (request : Option UInt64) (exact : Nat) : Prop :=
  ∀ size, request = some size → size.toNat % 16 = 0 ∧ exact ≤ size.toNat

/-! ## What `jo` finds -/

/-- The overflow flag behind `add`: the operands have one sign, and the sum has the other one. -/
theorem saddOverflow_iff (a b : UInt64) : a.toBitVec.saddOverflow b.toBitVec = true ↔
    (a.toNat < 2 ^ 63 ∧ b.toNat < 2 ^ 63 ∧ 2 ^ 63 ≤ a.toNat + b.toNat) ∨
      (2 ^ 63 ≤ a.toNat ∧ 2 ^ 63 ≤ b.toNat ∧ a.toNat + b.toNat < 2 ^ 64 + 2 ^ 63) := by
  have ha := a.toNat_lt
  have hb := b.toNat_lt
  rw [BitVec.saddOverflow, Bool.or_eq_true, decide_eq_true_iff, decide_eq_true_iff,
    BitVec.toInt_eq_toNat_cond, BitVec.toInt_eq_toNat_cond, UInt64.toNat_toBitVec,
    UInt64.toNat_toBitVec]
  split <;> split <;> omega

theorem addOrAbort_none {a b : UInt64}
    (h : (a.toNat < 2 ^ 63 ∧ b.toNat < 2 ^ 63 ∧ 2 ^ 63 ≤ a.toNat + b.toNat) ∨
      (2 ^ 63 ≤ a.toNat ∧ 2 ^ 63 ≤ b.toNat ∧ a.toNat + b.toNat < 2 ^ 64 + 2 ^ 63)) :
    addOrAbort a b = none := if_pos ((saddOverflow_iff a b).mpr h)

theorem addOrAbort_some {a b : UInt64}
    (h : ¬ ((a.toNat < 2 ^ 63 ∧ b.toNat < 2 ^ 63 ∧ 2 ^ 63 ≤ a.toNat + b.toNat) ∨
      (2 ^ 63 ≤ a.toNat ∧ 2 ^ 63 ≤ b.toNat ∧ a.toNat + b.toNat < 2 ^ 64 + 2 ^ 63))) :
    addOrAbort a b = some (a + b) := if_neg (mt (saddOverflow_iff a b).mp h)

theorem mulOrAbort_none {a b : UInt64} (h : 2 ^ 64 ≤ a.toNat * b.toNat) : mulOrAbort a b = none :=
  if_pos (decide_eq_true h)

theorem mulOrAbort_some {a b : UInt64} (h : a.toNat * b.toNat < 2 ^ 64) :
    mulOrAbort a b = some (a * b) ∧ (a * b).toNat = a.toNat * b.toNat := by
  have hflag : ¬ a.toBitVec.umulOverflow b.toBitVec = true := by
    rw [BitVec.umulOverflow, decide_eq_true_iff]
    exact Nat.not_le.mpr h
  exact ⟨if_neg hflag, by rw [UInt64.toNat_mul, Nat.mod_eq_of_lt h]⟩

/-- `shr` and `shl` by four bits. -/
theorem toNat_shift (size : UInt64) :
    ((size >>> (4 : UInt64)) <<< (4 : UInt64)).toNat = size.toNat / 16 * 16 := by
  have hlt := size.toNat_lt
  rw [UInt64.toNat_shiftLeft, UInt64.toNat_shiftRight]
  show (size.toNat >>> 4) <<< 4 % 2 ^ 64 = _
  rw [Nat.shiftRight_eq_div_pow, Nat.shiftLeft_eq]
  omega

/-- **`.calcAllocSize`** in numbers. -/
theorem calcAllocSize_toNat (size : UInt64) :
    (calcAllocSize size).map UInt64.toNat = allocSize size.toNat := by
  have hlt := size.toNat_lt
  have hfifteen : (0x0F : UInt64).toNat = 15 := rfl
  unfold allocSize calcAllocSize
  split
  next h =>
    rw [@addOrAbort_none size 0x0F (by omega)]
    rfl
  next h =>
    rw [@addOrAbort_some size 0x0F (by omega), Option.map_some, Option.map_some, toNat_shift,
      UInt64.toNat_add, hfifteen]

/-! ## The blocks -/

/-- `malloc` hands out as much as it requests. -/
theorem malloc_request (garbage : Mem) (size : UInt64) :
    malloc garbage size.toNat = (mallocRequest size).map fun size => ⟨size.toNat, garbage⟩ := by
  rw [malloc, ← calcAllocSize_toNat, Option.map_map]
  rfl

/-- So does `mallocArray`. -/
theorem mallocArray_request (garbage : Mem) (typeSize numBlocks : UInt64) :
    mallocArray garbage typeSize.toNat numBlocks.toNat =
      (mallocArrayRequest typeSize numBlocks).map fun size => ⟨size.toNat, garbage⟩ := by
  unfold mallocArray mallocArrayRequest
  split
  next hlarge =>
    rw [mulOrAbort_none hlarge]
    rfl
  next hsmall =>
    obtain ⟨hmul, hproduct⟩ := mulOrAbort_some (Nat.not_le.mp hsmall)
    rw [hmul, Option.bind_some, ← hproduct]
    exact malloc_request garbage _

/-- A structure with an array behind it, where the sizes are far from overflow. -/
theorem mallocFlexibleStruct_eq (garbage : Mem) {structSize typeSize numBlocks : UInt64}
    (h : structSize.toNat + typeSize.toNat * numBlocks.toNat + 15 < 2 ^ 63) :
    mallocFlexibleStruct garbage structSize typeSize numBlocks =
      some ⟨(structSize.toNat + typeSize.toNat * numBlocks.toNat + 15) / 16 * 16, garbage⟩ := by
  obtain ⟨hmul, hproduct⟩ := mulOrAbort_some (by omega : typeSize.toNat * numBlocks.toNat < 2 ^ 64)
  have hadd := @addOrAbort_some (typeSize * numBlocks) structSize (by omega)
  have hsum : (typeSize * numBlocks + structSize).toNat =
      structSize.toNat + typeSize.toNat * numBlocks.toNat := by
    rw [UInt64.toNat_add, hproduct, Nat.mod_eq_of_lt (by omega), Nat.add_comm]
  have hrequest : mallocFlexibleStructRequest structSize typeSize numBlocks =
      calcAllocSize (typeSize * numBlocks + structSize) := by
    unfold mallocFlexibleStructRequest
    rw [hmul, Option.bind_eq_bind, Option.bind_some, hadd]
    rfl
  have hmalloc := malloc_request garbage (typeSize * numBlocks + structSize)
  rw [hsum, malloc_eq garbage h] at hmalloc
  rw [mallocFlexibleStruct, hrequest]
  exact hmalloc.symm

/-! ## Which requests are enough -/

theorem covers_none (exact : Nat) : Covers none exact := by
  intro size h
  cases h

theorem covers_calcAllocSize (size : UInt64) (exact : Nat) : Covers (calcAllocSize size) exact ↔
    (size.toNat < 2 ^ 63 ∧ 2 ^ 63 ≤ size.toNat + 15) ∨
      exact ≤ (size.toNat + 15) % 2 ^ 64 / 16 * 16 := by
  have hsize := calcAllocSize_toNat size
  unfold allocSize at hsize
  split at hsize
  next habort =>
    rw [Option.map_eq_none_iff.mp hsize]
    exact ⟨fun _ => Or.inl habort, fun _ => covers_none exact⟩
  next hgoes =>
    obtain ⟨request, hrequest, hvalue⟩ := Option.map_eq_some_iff.mp hsize
    rw [hrequest]
    constructor
    · intro h
      rw [← hvalue]
      exact Or.inr (h request rfl).2
    · intro h request' heq
      rw [← Option.some.inj heq, hvalue]
      refine ⟨Nat.mul_mod_left _ 16, ?_⟩
      rcases h with habort | henough
      · exact absurd habort hgoes
      · exact henough

/-- `malloc` requests enough, unless its size is one of the last fifteen. -/
theorem covers_mallocRequest (size : UInt64) :
    Covers (mallocRequest size) size.toNat ↔ size.toNat + 15 < 2 ^ 64 := by
  have hlt := size.toNat_lt
  rw [mallocRequest, covers_calcAllocSize]
  omega

/-- An array, too; a product that does not fit into a register is found. -/
theorem covers_mallocArrayRequest (typeSize numBlocks : UInt64) :
    Covers (mallocArrayRequest typeSize numBlocks) (typeSize.toNat * numBlocks.toNat) ↔
      typeSize.toNat * numBlocks.toNat + 15 < 2 ^ 64 ∨
        2 ^ 64 ≤ typeSize.toNat * numBlocks.toNat := by
  unfold mallocArrayRequest
  rcases Nat.lt_or_ge (typeSize.toNat * numBlocks.toNat) (2 ^ 64) with hsmall | hlarge
  · obtain ⟨hmul, hproduct⟩ := mulOrAbort_some hsmall
    rw [hmul, Option.bind_some, ← hproduct]
    have hmalloc := covers_mallocRequest (typeSize * numBlocks)
    rw [mallocRequest] at hmalloc
    rw [hmalloc]
    omega
  · rw [mulOrAbort_none hlarge]
    exact ⟨fun _ => Or.inr hlarge, fun _ => covers_none _⟩

/-- The sum of two sizes, rounded up. It is enough where neither addition reaches `2 ^ 64`, and
where the overflow flag is set: by two sizes below `2 ^ 63`, by two from there on, or by the
fifteen bytes behind a sum that was cut off. -/
theorem covers_sum (a b : UInt64) :
    Covers ((addOrAbort a b).bind calcAllocSize) (b.toNat + a.toNat) ↔
      b.toNat + a.toNat + 15 < 2 ^ 64 ∨ (b.toNat < 2 ^ 63 ∧ a.toNat < 2 ^ 63) ∨
        (2 ^ 63 ≤ b.toNat ∧ 2 ^ 63 ≤ a.toNat ∧ b.toNat + a.toNat < 2 ^ 64 + 2 ^ 63) ∨
        (¬ (2 ^ 63 ≤ b.toNat ∧ 2 ^ 63 ≤ a.toNat) ∧ 2 ^ 64 + 2 ^ 63 ≤ b.toNat + a.toNat + 15) := by
  have ha := a.toNat_lt
  have hb := b.toNat_lt
  by_cases hflag : (a.toNat < 2 ^ 63 ∧ b.toNat < 2 ^ 63 ∧ 2 ^ 63 ≤ a.toNat + b.toNat) ∨
      (2 ^ 63 ≤ a.toNat ∧ 2 ^ 63 ≤ b.toNat ∧ a.toNat + b.toNat < 2 ^ 64 + 2 ^ 63)
  · rw [addOrAbort_none hflag]
    refine ⟨fun _ => ?_, fun _ => covers_none _⟩
    omega
  · rw [addOrAbort_some hflag, Option.bind_some, covers_calcAllocSize, UInt64.toNat_add]
    rcases Nat.lt_or_ge (a.toNat + b.toNat) (2 ^ 64) with hsmall | hlarge
    · rw [Nat.mod_eq_of_lt hsmall]
      omega
    · have hcut : (a.toNat + b.toNat) % 2 ^ 64 = a.toNat + b.toNat - 2 ^ 64 := by omega
      rw [hcut]
      omega

/-- **Which requests are enough.** -/
theorem requests_cover_iff (size structSize typeSize numBlocks : UInt64) :
    (Covers (mallocRequest size) size.toNat ↔ size.toNat + 15 < 2 ^ 64) ∧
    (Covers (mallocArrayRequest typeSize numBlocks) (typeSize.toNat * numBlocks.toNat) ↔
      typeSize.toNat * numBlocks.toNat + 15 < 2 ^ 64 ∨
        2 ^ 64 ≤ typeSize.toNat * numBlocks.toNat) ∧
    (Covers (mallocFlexibleStructRequest structSize typeSize numBlocks)
        (structSize.toNat + typeSize.toNat * numBlocks.toNat) ↔
      2 ^ 64 ≤ typeSize.toNat * numBlocks.toNat ∨
      structSize.toNat + typeSize.toNat * numBlocks.toNat + 15 < 2 ^ 64 ∨
      (structSize.toNat < 2 ^ 63 ∧ typeSize.toNat * numBlocks.toNat < 2 ^ 63) ∨
      (2 ^ 63 ≤ structSize.toNat ∧ 2 ^ 63 ≤ typeSize.toNat * numBlocks.toNat ∧
        structSize.toNat + typeSize.toNat * numBlocks.toNat < 2 ^ 64 + 2 ^ 63) ∨
      (¬ (2 ^ 63 ≤ structSize.toNat ∧ 2 ^ 63 ≤ typeSize.toNat * numBlocks.toNat) ∧
        2 ^ 64 + 2 ^ 63 ≤ structSize.toNat + typeSize.toNat * numBlocks.toNat + 15)) ∧
    (Covers (resizeArrayRequest typeSize numBlocks) (typeSize.toNat * numBlocks.toNat) ↔
      typeSize.toNat * numBlocks.toNat + 15 < 2 ^ 64 ∨
        2 ^ 64 ≤ typeSize.toNat * numBlocks.toNat) := by
  refine ⟨covers_mallocRequest size, covers_mallocArrayRequest typeSize numBlocks, ?_,
    covers_mallocArrayRequest typeSize numBlocks⟩
  rcases Nat.lt_or_ge (typeSize.toNat * numBlocks.toNat) (2 ^ 64) with hsmall | hlarge
  · obtain ⟨hmul, hproduct⟩ := mulOrAbort_some hsmall
    have hsum := covers_sum (typeSize * numBlocks) structSize
    rw [hproduct] at hsum
    have hrequest : mallocFlexibleStructRequest structSize typeSize numBlocks =
        (addOrAbort (typeSize * numBlocks) structSize).bind calcAllocSize := by
      unfold mallocFlexibleStructRequest
      rw [hmul]
      rfl
    rw [hrequest, hsum]
    omega
  · have hrequest : mallocFlexibleStructRequest structSize typeSize numBlocks = none := by
      unfold mallocFlexibleStructRequest
      rw [mulOrAbort_none hlarge]
      rfl
    rw [hrequest]
    exact ⟨fun _ => Or.inl hlarge, fun _ => covers_none _⟩

/-- All that there is: nothing is requested. -/
theorem mallocRequest_max : mallocRequest 0xFFFFFFFFFFFFFFFF = some 0 ∧
    ¬ Covers (mallocRequest 0xFFFFFFFFFFFFFFFF) 0xFFFFFFFFFFFFFFFF := by
  have hrequest : mallocRequest 0xFFFFFFFFFFFFFFFF = some 0 := by decide +kernel
  refine ⟨hrequest, fun h => ?_⟩
  exact absurd (h 0 hrequest).2 (by decide)

end DevopsBroker.Lang
