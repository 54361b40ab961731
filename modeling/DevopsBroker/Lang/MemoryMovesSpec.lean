import DevopsBroker.Lang.MemoryMoves

/-!
# `memcopy`, `meminit`, `realloc` and `resizeArray` in memory

The tails of `memcopy` and `meminit` look at the low byte of a counter that is less than eight by
then. **`memcopy_meminit_exact`**: they copy, and clear, as many bytes as they are told to, for
every number of bytes. `resizeArray` copies quadwords, and its last one may go beyond the last
element; **`resizeArray_exact`**: both blocks are rounded up to a multiple of 16, and so it stays
inside of them. `realloc` requests fifteen bytes, whatever the new size is, and moves sixteen at
once; **`realloc_never`**: there is no block that it moves as it should.
-/

namespace DevopsBroker.Lang

open DevopsBroker.Lib

theorem decrement_succ {register : Nat} (h : register + 1 < 2 ^ 64) :
    decrement (register + 1) = register := by
  unfold decrement
  omega

/-! ## `memcopy` -/

section

variable {mem : Mem} {source dest n : Nat}

/-- How many bytes are left at a label of `memcopy`. -/
def MemcopyLabel.Room : MemcopyLabel → Nat → Prop
  | .eightBytes, rdx => 8 ≤ rdx
  | .fourBytes, rdx => 4 ≤ rdx ∧ rdx < 8
  | .bytes, rdx => 1 ≤ rdx ∧ rdx < 8

/-- `i` of the bytes are copied, and the registers are behind them. -/
structure MemcopyInv (mem : Mem) (source dest n i : Nat) (s : MemcopyState) : Prop where
  rdi : s.rdi = source + i
  rsi : s.rsi = dest + i
  rdx : s.rdx + i = n
  rcx : s.rcx = 8 ∨ s.label = .bytes
  room : s.label.Room s.rdx
  copied : Copied mem source dest i s.trace

/-- What a round of `memcopy` should come to, from where `i` bytes are copied. -/
def MemcopyInv.Goes (mem : Mem) (source dest n i : Nat) (s : MemcopyState) : Prop :=
  ∃ turn, memcopyRound s = some turn ∧ turn.Meets
    (fun s' => ∃ i', i < i' ∧ MemcopyInv mem source dest n i' s') (Copied mem source dest n)

/-- From `.eightBytes`, with eight bytes left at least. -/
theorem eightBytes_goes (hn : n < 2 ^ 64) (happart : source + n ≤ dest ∨ dest + n ≤ source)
    {i rdx : Nat} {t : Trace} (hrdx : rdx + i = n) (hroom : 8 ≤ rdx)
    (hcopied : Copied mem source dest i t) :
    MemcopyInv.Goes mem source dest n i ⟨.eightBytes, source + i, dest + i, rdx, 8, t⟩ := by
  have hleft : (2 ^ 64 + rdx - 8) % 2 ^ 64 = rdx - 8 := by omega
  have hmoved := hcopied.move (k := 8) (by omega)
  unfold MemcopyInv.Goes memcopyRound
  dsimp only
  rw [hleft]
  split
  next hzero => exact ⟨_, rfl, hmoved.all (by omega)⟩
  next hmore =>
    split
    next hagain =>
      exact ⟨_, rfl, i + 8, by omega, rfl, rfl, by dsimp only; omega, Or.inl rfl, hagain, hmoved⟩
    next hless =>
      -- less than eight are left: the low byte is all that there is
      have hlow : (rdx - 8) % 256 = rdx - 8 := by omega
      rw [hlow]
      split
      next hfew =>
        exact ⟨_, rfl, i + 8, by omega, rfl, rfl, by dsimp only; omega, Or.inr rfl,
          ⟨by dsimp only; omega, by dsimp only; omega⟩, hmoved⟩
      next hfour =>
        exact ⟨_, rfl, i + 8, by omega, rfl, rfl, by dsimp only; omega, Or.inl rfl,
          ⟨by dsimp only; omega, by dsimp only; omega⟩, hmoved⟩

/-- From `.fourBytes`, with four to seven bytes left. -/
theorem fourBytes_goes (happart : source + n ≤ dest ∨ dest + n ≤ source) {i rdx : Nat} {t : Trace}
    (hrdx : rdx + i = n) (hroom : 4 ≤ rdx ∧ rdx < 8) (hcopied : Copied mem source dest i t) :
    MemcopyInv.Goes mem source dest n i ⟨.fourBytes, source + i, dest + i, rdx, 8, t⟩ := by
  have hdl : (256 + rdx % 256 - 0x04) % 256 = rdx - 4 := by omega
  have hrdx' : withLowByte rdx (rdx - 4) = rdx - 4 := by
    unfold withLowByte
    omega
  have hmoved := hcopied.move (k := 4) (by omega)
  unfold MemcopyInv.Goes memcopyRound
  dsimp only
  rw [hdl, hrdx']
  split
  next hzero => exact ⟨_, rfl, hmoved.all (by omega)⟩
  next hmore =>
    -- `cl` is four now, and so is `rcx`
    exact ⟨_, rfl, i + 4, by omega, rfl, rfl, by dsimp only; omega, Or.inr rfl,
      ⟨by dsimp only; omega, by dsimp only; omega⟩, hmoved⟩

/-- From `.bytes`, with one to seven bytes left. -/
theorem bytes_goes (happart : source + n ≤ dest ∨ dest + n ≤ source) {i rdx rcx : Nat} {t : Trace}
    (hrdx : rdx + i = n) (hroom : 1 ≤ rdx ∧ rdx < 8) (hcopied : Copied mem source dest i t) :
    MemcopyInv.Goes mem source dest n i ⟨.bytes, source + i, dest + i, rdx, rcx, t⟩ := by
  have hdl : (256 + rdx % 256 - 1) % 256 = rdx - 1 := by omega
  have hrdx' : withLowByte rdx (rdx - 1) = rdx - 1 := by
    unfold withLowByte
    omega
  have hmoved := hcopied.move (k := 1) (by omega)
  unfold MemcopyInv.Goes memcopyRound
  dsimp only
  rw [hdl, hrdx']
  split
  next hzero => exact ⟨_, rfl, hmoved.all (by omega)⟩
  next hmore =>
    exact ⟨_, rfl, i + 1, by omega, rfl, rfl, by dsimp only; omega, Or.inr rfl,
      ⟨by dsimp only; omega, by dsimp only; omega⟩, hmoved⟩

/-- **A round of `memcopy`** copies eight bytes, four or one. -/
theorem memcopyRound_inv (hn : n < 2 ^ 64) (happart : source + n ≤ dest ∨ dest + n ≤ source)
    {s : MemcopyState} {i : Nat} (h : MemcopyInv mem source dest n i s) :
    MemcopyInv.Goes mem source dest n i s := by
  obtain ⟨hrdi, hrsi, hrdx, hrcx, hroom, hcopied⟩ := h
  obtain ⟨label, rdi, rsi, rdx, rcx, trace⟩ := s
  dsimp only at hrdi hrsi hrdx hrcx hroom hcopied
  subst hrdi hrsi
  cases label with
  | eightBytes =>
    rw [hrcx.resolve_right (by simp)]
    exact eightBytes_goes hn happart hrdx hroom hcopied
  | fourBytes =>
    rw [hrcx.resolve_right (by simp)]
    exact fourBytes_goes happart hrdx hroom hcopied
  | bytes => exact bytes_goes happart hrdx hroom hcopied

/-- From any label on, the rest is copied. -/
theorem memcopy_returns (hn : n < 2 ^ 64) (happart : source + n ≤ dest ∨ dest + n ≤ source)
    {s : MemcopyState} {i : Nat} (h : MemcopyInv mem source dest n i s) :
    ∃ t, Returns (fun fuel => rounds memcopyRound fuel s) t ∧ Copied mem source dest n t := by
  refine returns_of_progress n (fun i s hs => memcopyRound_inv hn happart hs) ?_ h
  intro i s hs
  have := hs.rdx
  omega

/-- **`memcopy` copies.** -/
theorem memcopyIn_copied (mem : Mem) {source dest : Nat} {numBytes : UInt64}
    (happart : source + numBytes.toNat ≤ dest ∨ dest + numBytes.toNat ≤ source) :
    ∃ t, Returns (fun fuel => memcopyIn fuel mem source dest numBytes) t ∧
      Copied mem source dest numBytes.toNat t := by
  have hn := numBytes.toNat_lt
  have hstart := copied_start mem source dest
  unfold memcopyIn
  dsimp only
  generalize numBytes.toNat = n at *
  split
  next height =>
    exact memcopy_returns hn happart ⟨rfl, rfl, rfl, Or.inl rfl, height, hstart⟩
  next hless =>
    have hlow : n % 256 = n := by omega
    rw [hlow]
    split
    next hfour =>
      exact memcopy_returns hn happart
        ⟨rfl, rfl, rfl, Or.inl rfl, ⟨hfour, Nat.not_le.mp hless⟩, hstart⟩
    next hfew =>
      split
      next hzero =>
        subst hzero
        exact ⟨_, returns_of_eq fun _ => rfl, hstart⟩
      next hpos =>
        exact memcopy_returns hn happart
          ⟨rfl, rfl, rfl, Or.inl rfl, ⟨Nat.pos_of_ne_zero hpos, Nat.not_le.mp hless⟩, hstart⟩

end

/-! ## `meminit` -/

section

variable {mem : Mem} {ptr n : Nat}

/-- Where the registers of `meminit` are when `i` of the bytes are cleared. -/
def MeminitLabel.Place (ptr n i : Nat) (s : MeminitState) : MeminitLabel → Prop
  | .initBlocks =>
    s.rdi = ptr ∧ 8 * s.rcx = i ∧ 8 * s.rax + s.rsi + i = n ∧ 1 ≤ s.rax ∧ s.rsi < 8
  | .initBytes => s.rdi = ptr + i ∧ s.rsi + i = n ∧ 1 ≤ s.rsi ∧ s.rsi < 8

/-- The first `n` bytes were cleared, and nothing was read. -/
structure Cleared (mem : Mem) (ptr n : Nat) (t : Trace) : Prop where
  stored : Stored mem ptr (List.replicate n 0) t
  reads : t.reads = []

/-- `i` of the bytes are cleared. -/
structure MeminitInv (mem : Mem) (ptr n i : Nat) (s : MeminitState) : Prop where
  place : s.label.Place ptr n i s
  cleared : Cleared mem ptr i s.trace

theorem cleared_start (mem : Mem) (ptr : Nat) : Cleared mem ptr 0 (Trace.start mem) :=
  ⟨stored_start mem ptr, rfl⟩

/-- A store of zeros. -/
theorem Cleared.store {i : Nat} {t : Trace} (h : Cleared mem ptr i t) (k : Nat) :
    Cleared mem ptr (i + k) (t.store (ptr + i) k 0) := by
  have hstored := h.stored.store k 0
  rw [charsOf_zero, List.length_replicate, List.replicate_append_replicate] at hstored
  exact ⟨hstored, h.reads⟩

/-- **A round of `meminit`** clears eight bytes or one. -/
theorem meminitRound_inv (hn : n < 2 ^ 64) {s : MeminitState} {i : Nat}
    (h : MeminitInv mem ptr n i s) :
    ∃ turn, meminitRound s = some turn ∧ turn.Meets
      (fun s' => ∃ i', i < i' ∧ MeminitInv mem ptr n i' s') (Cleared mem ptr n) := by
  obtain ⟨hplace, hcleared⟩ := h
  obtain ⟨label, rdi, rsi, rax, rcx, trace⟩ := s
  unfold meminitRound
  cases label with
  | initBlocks =>
    obtain ⟨hrdi, hrcx, hleft, hpos, hless⟩ := hplace
    dsimp only at hrdi hrcx hleft hpos hless hcleared ⊢
    have hrax : decrement rax = rax - 1 := by
      obtain ⟨k, rfl⟩ : ∃ k, rax = k + 1 := ⟨rax - 1, by omega⟩
      exact decrement_succ (by omega)
    have hstored := hcleared.store 8
    rw [hrdi, hrcx, hrax]
    split
    next hmore =>
      exact ⟨_, rfl, i + 8, by omega, ⟨rfl, by dsimp only; omega, by dsimp only; omega,
        by dsimp only; omega, hless⟩, hstored⟩
    next hlast =>
      split
      next hzero =>
        have hall : i + 8 = n := by omega
        rw [hall] at hstored
        exact ⟨_, rfl, hstored⟩
      next hbytes =>
        exact ⟨_, rfl, i + 8, by omega, ⟨by dsimp only; omega, by dsimp only; omega,
          by dsimp only; omega, hless⟩, hstored⟩
  | initBytes =>
    obtain ⟨hrdi, hleft, hpos, hless⟩ := hplace
    dsimp only at hrdi hleft hpos hless hcleared ⊢
    have hsil : (256 + rsi % 256 - 1) % 256 = rsi - 1 := by omega
    have hstored := hcleared.store 1
    rw [hrdi, hsil]
    split
    next hmore =>
      have hrsi : withLowByte rsi (rsi - 1) = rsi - 1 := by
        unfold withLowByte
        omega
      rw [hrsi]
      exact ⟨_, rfl, i + 1, by omega, ⟨by dsimp only; omega, by dsimp only; omega,
        by dsimp only; omega, by dsimp only; omega⟩, hstored⟩
    next hlast =>
      have hall : i + 1 = n := by omega
      rw [hall] at hstored
      exact ⟨_, rfl, hstored⟩

/-- From any label on, the rest is cleared. -/
theorem meminit_returns (hn : n < 2 ^ 64) {s : MeminitState} {i : Nat}
    (h : MeminitInv mem ptr n i s) :
    ∃ t, Returns (fun fuel => rounds meminitRound fuel s) t ∧ Cleared mem ptr n t := by
  refine returns_of_progress n (fun i s hs => meminitRound_inv hn hs) ?_ h
  rintro i ⟨label, rdi, rsi, rax, rcx, trace⟩ ⟨hplace, -⟩
  cases label with
  | initBlocks =>
    obtain ⟨-, -, hleft, -⟩ := hplace
    omega
  | initBytes =>
    obtain ⟨-, hleft, -⟩ := hplace
    omega

/-- **`meminit` clears.** -/
theorem meminitIn_cleared (mem : Mem) {ptr : Nat} (hptr : ptr ≠ 0) (size : UInt64) :
    ∃ t, Returns (fun fuel => meminitIn fuel mem ptr size) t ∧ Cleared mem ptr size.toNat t := by
  have hn := size.toNat_lt
  have hstart := cleared_start mem ptr
  unfold meminitIn
  simp only [if_neg hptr]
  by_cases hzero : size = 0
  · subst hzero
    exact ⟨_, returns_of_eq fun _ => if_pos rfl, hstart⟩
  · have hpos : size.toNat ≠ 0 := fun h => hzero (UInt64.toNat_inj.mp h)
    simp only [if_neg hzero]
    split
    next hfew =>
      exact meminit_returns hn ⟨⟨rfl, rfl, by dsimp only; omega, by dsimp only; omega⟩, hstart⟩
    next hblocks =>
      exact meminit_returns hn ⟨⟨rfl, rfl, by dsimp only; omega, by dsimp only; omega,
        by dsimp only; omega⟩, hstart⟩

end

/-- **`memcopy` and `meminit` touch exactly the bytes that they are told to.** -/
theorem memcopy_meminit_exact :
    (∀ (mem : Mem) (source dest : Nat) (numBytes : UInt64),
      Region.Apart ⟨source, numBytes.toNat⟩ ⟨dest, numBytes.toNat⟩ →
      ∃ t, Returns (fun fuel => memcopyIn fuel mem source dest numBytes) t ∧
        (∀ i < numBytes.toNat, t.mem (dest + i) = mem (source + i)) ∧
        (∀ a, ¬ (dest ≤ a ∧ a < dest + numBytes.toNat) → t.mem a = mem a) ∧
        Region.cover t.reads = Finset.Ico source (source + numBytes.toNat) ∧
        Region.cover t.writes = Finset.Ico dest (dest + numBytes.toNat)) ∧
    (∀ (mem : Mem) (ptr : Nat) (size : UInt64), ptr ≠ 0 →
      ∃ t, Returns (fun fuel => meminitIn fuel mem ptr size) t ∧
        (∀ i < size.toNat, t.mem (ptr + i) = 0) ∧
        (∀ a, ¬ (ptr ≤ a ∧ a < ptr + size.toNat) → t.mem a = mem a) ∧
        Region.cover t.writes = Finset.Ico ptr (ptr + size.toNat)) := by
  constructor
  · intro mem source dest numBytes happart
    obtain ⟨t, hreturns, hcopied⟩ := memcopyIn_copied mem happart
    exact ⟨t, hreturns, fun i hi => hcopied.byte hi, fun a ha => hcopied.outside ha,
      hcopied.reads, hcopied.writes⟩
  · intro mem ptr size hptr
    obtain ⟨t, hreturns, hstored, -⟩ := meminitIn_cleared mem hptr size
    have hlength : (List.replicate size.toNat (0 : UInt8)).length = size.toNat :=
      List.length_replicate
    refine ⟨t, hreturns, ?_, ?_, ?_⟩
    · intro i hi
      rw [hstored.byte (by rw [hlength]; exact hi), List.getD_replicate _ hi]
    · intro a ha
      exact hstored.outside (by rw [hlength]; exact ha)
    · rw [hstored.writes, hlength]

theorem memcopy_meminit_exact_thirteen :
    (∃ t, Returns (fun fuel => memcopyIn fuel UInt8.ofNat 1 32 13) t ∧ t.mem (32 + 12) = 13) ∧
    ∃ t, Returns (fun fuel => meminitIn fuel UInt8.ofNat 1 9) t ∧ t.mem (1 + 8) = 0 := by
  obtain ⟨hcopy, hinit⟩ := memcopy_meminit_exact
  obtain ⟨t, hreturns, hbyte, -⟩ := hcopy UInt8.ofNat 1 32 13 (Or.inl (by decide))
  obtain ⟨t', hreturns', hbyte', -⟩ := hinit UInt8.ofNat 1 9 (by decide)
  exact ⟨⟨t, hreturns, hbyte 12 (by decide)⟩, ⟨t', hreturns', hbyte' 8 (by decide)⟩⟩

/-- `memcopy` of `Memory` is what the registers do. -/
theorem memcopyIn_eq (mem : Mem) {source dest : Nat} {numBytes : UInt64}
    (happart : source + numBytes.toNat ≤ dest ∨ dest + numBytes.toNat ≤ source) :
    ∃ t, Returns (fun fuel => memcopyIn fuel mem source dest numBytes) t ∧
      t.mem = memcopy mem source dest numBytes.toNat := by
  obtain ⟨t, hreturns, hcopied⟩ := memcopyIn_copied mem happart
  refine ⟨t, hreturns, ?_⟩
  rw [memcopy_eq mem happart]
  funext a
  unfold moveBytes
  split
  next hin =>
    have hbyte := hcopied.byte (i := a - dest) (by omega)
    rwa [Nat.add_sub_of_le hin.1] at hbyte
  next hout => exact hcopied.outside hout

/-- And so is `meminit`. -/
theorem meminitIn_eq (mem : Mem) {ptr : Nat} (hptr : ptr ≠ 0) (size : UInt64) :
    ∃ t, Returns (fun fuel => meminitIn fuel mem ptr size) t ∧ t.mem = meminit mem ptr size.toNat := by
  obtain ⟨t, hreturns, hstored, -⟩ := meminitIn_cleared mem hptr size
  refine ⟨t, hreturns, ?_⟩
  rw [meminit_eq, hstored.content]
  funext a
  unfold storeBytes zeroBytes
  rw [List.length_replicate]
  split
  next hin => exact List.getD_replicate _ (by omega)
  next hout => rfl

/-! ## `resizeArray` -/

section

variable {mem : Mem} {arrayPtr newPtr total : Nat}

/-- `i` bytes are copied, and the counters say so. -/
structure ResizeInv (mem : Mem) (arrayPtr newPtr total i : Nat) (s : ResizeState) : Prop where
  rcx : 8 * s.rcx = i
  rax : s.rcx + s.rax = total
  pos : 1 ≤ s.rax
  copied : Copied mem arrayPtr newPtr i s.trace

/-- A round of `.copyData` copies one quadword. -/
theorem resizeRound_inv (htotal : total < 2 ^ 64)
    (happart : arrayPtr + 8 * total ≤ newPtr ∨ newPtr + 8 * total ≤ arrayPtr) {s : ResizeState}
    {i : Nat} (h : ResizeInv mem arrayPtr newPtr total i s) :
    ∃ turn, resizeRound arrayPtr newPtr s = some turn ∧ turn.Meets
      (fun s' => ∃ i', i < i' ∧ ResizeInv mem arrayPtr newPtr total i' s')
      (Copied mem arrayPtr newPtr (8 * total)) := by
  obtain ⟨hrcx, hrax, hpos, hcopied⟩ := h
  obtain ⟨left, hleft⟩ : ∃ left, s.rax = left + 1 := ⟨s.rax - 1, by omega⟩
  have hmoved := hcopied.move (k := 8) (by omega)
  unfold resizeRound
  dsimp only
  rw [hrcx, hleft, decrement_succ (by omega)]
  split
  next hmore =>
    exact ⟨_, rfl, i + 8, by omega, by dsimp only; omega, by dsimp only; omega,
      Nat.pos_of_ne_zero hmore, hmoved⟩
  next hlast => exact ⟨_, rfl, hmoved.all (by omega)⟩

/-- `.copyData` copies all quadwords. -/
theorem copyData_returns (hpos : 1 ≤ total) (htotal : total < 2 ^ 64)
    (happart : arrayPtr + 8 * total ≤ newPtr ∨ newPtr + 8 * total ≤ arrayPtr) :
    ∃ t, Returns (fun fuel =>
        rounds (resizeRound arrayPtr newPtr) fuel ⟨0, total, .start mem⟩) t ∧
      Copied mem arrayPtr newPtr (8 * total) t := by
  have hstart : ResizeInv mem arrayPtr newPtr total 0 ⟨0, total, .start mem⟩ :=
    ⟨rfl, Nat.zero_add total, hpos, copied_start mem arrayPtr newPtr⟩
  refine returns_of_progress (8 * total) (fun i s hs => resizeRound_inv htotal happart hs) ?_ hstart
  intro i s hs
  have hrcx := hs.rcx
  have hrax := hs.rax
  omega

end

section

variable {mem : Mem} {arrayPtr newPtr : Nat} {arrayLen : UInt32} {typeSize numBlocks : UInt64}

/-- The elements fit into as many blocks, or more. -/
theorem elements_fit (typeSize : UInt64) (hle : arrayLen.toNat ≤ numBlocks.toNat) :
    arrayLen.toNat * typeSize.toNat ≤ typeSize.toNat * numBlocks.toNat := by
  rw [Nat.mul_comm]
  exact Nat.mul_le_mul_left _ hle

/-- What `resizeArray` requests for a new array that is not too large. -/
theorem resizeArrayRequest_eq (hsmall : typeSize.toNat * numBlocks.toNat < 2 ^ 62) :
    ∃ size, resizeArrayRequest typeSize numBlocks = some size ∧
      size.toNat = (typeSize.toNat * numBlocks.toNat + 15) / 16 * 16 := by
  obtain ⟨hmul, hproduct⟩ := mulOrAbort_some (by omega : typeSize.toNat * numBlocks.toNat < 2 ^ 64)
  have hsize := calcAllocSize_toNat (typeSize * numBlocks)
  rw [hproduct, allocSize, if_neg (by omega), Nat.mod_eq_of_lt (by omega)] at hsize
  obtain ⟨size, hrequest, hvalue⟩ := Option.map_eq_some_iff.mp hsize
  refine ⟨size, ?_, hvalue⟩
  rw [resizeArrayRequest, hmul]
  exact hrequest

/-- How many quadwords there are to copy. -/
theorem numBytes_shift (hfit : arrayLen.toNat * typeSize.toNat < 2 ^ 62) :
    ∃ numBytes, ((mulOrAbort arrayLen.toUInt64 typeSize).bind fun numBytes =>
        addOrAbort numBytes 0x07) = some numBytes ∧
      (numBytes >>> (3 : UInt64)).toNat = (arrayLen.toNat * typeSize.toNat + 7) / 8 := by
  have hlen : arrayLen.toUInt64.toNat = arrayLen.toNat := UInt32.toNat_toUInt64 arrayLen
  have hseven : (0x07 : UInt64).toNat = 7 := rfl
  obtain ⟨hmul, hproduct⟩ :=
    @mulOrAbort_some arrayLen.toUInt64 typeSize (by rw [hlen]; omega)
  rw [hlen] at hproduct
  have hadd := @addOrAbort_some (arrayLen.toUInt64 * typeSize) 0x07 (by omega)
  refine ⟨_, by rw [hmul, Option.bind_some, hadd], ?_⟩
  rw [UInt64.toNat_shiftRight, UInt64.toNat_add, hproduct, hseven, Nat.mod_eq_of_lt (by omega)]
  exact Nat.shiftRight_eq_div_pow _ 3

/-- **`resizeArray` copies the quadwords** that have elements in them. -/
theorem resizeArrayIn_copied (mem : Mem) (harray : arrayPtr ≠ 0) (hnew : newPtr ≠ 0)
    (htype : 1 ≤ typeSize.toNat) (hlen : 1 ≤ arrayLen.toNat) (hle : arrayLen.toNat ≤ numBlocks.toNat)
    (hsmall : typeSize.toNat * numBlocks.toNat < 2 ^ 62)
    (happart : Region.Apart ⟨arrayPtr, (arrayLen.toNat * typeSize.toNat + 15) / 16 * 16⟩
      ⟨newPtr, (typeSize.toNat * numBlocks.toNat + 15) / 16 * 16⟩) :
    ∃ t, Returns (fun fuel => resizeArrayIn fuel mem arrayPtr arrayLen typeSize numBlocks newPtr)
        (some ⟨⟨newPtr, (typeSize.toNat * numBlocks.toNat + 15) / 16 * 16⟩, arrayPtr, t⟩) ∧
      Copied mem arrayPtr newPtr (8 * ((arrayLen.toNat * typeSize.toNat + 7) / 8)) t := by
  have hfit := elements_fit typeSize hle
  have hsome : 1 ≤ arrayLen.toNat * typeSize.toNat := Nat.mul_pos hlen htype
  obtain ⟨size, hrequest, hsize⟩ := resizeArrayRequest_eq hsmall
  obtain ⟨numBytes, hcount, hquads⟩ := @numBytes_shift arrayLen typeSize (by omega)
  have hlen0 : ¬ arrayLen = 0 := by
    rintro rfl
    exact absurd hlen (by decide)
  have htype0 : ¬ typeSize = 0 := by
    rintro rfl
    exact absurd htype (by decide)
  have hnum0 : ¬ numBlocks = 0 := by
    rintro rfl
    exact absurd (Nat.le_trans hlen hle) (by decide)
  unfold Region.Apart at happart
  obtain ⟨t, hreturns, hcopied⟩ := @copyData_returns mem arrayPtr newPtr
    ((arrayLen.toNat * typeSize.toNat + 7) / 8) (by omega) (by omega)
    (by dsimp only at happart; omega)
  refine ⟨t, ?_, hcopied⟩
  unfold resizeArrayIn
  simp only [if_neg harray, if_neg hlen0, if_neg htype0, if_neg hnum0, hrequest, if_neg hnew, hcount,
    hquads, hsize]
  exact hreturns.map fun trace : Trace => some (Moved.mk ⟨newPtr, _⟩ arrayPtr trace)

end

/-- **`resizeArray` moves an array**, and stays inside of the two blocks. -/
theorem resizeArray_exact (mem : Mem) {arrayPtr newPtr : Nat} {arrayLen : UInt32}
    {typeSize numBlocks : UInt64} (harray : arrayPtr ≠ 0) (hnew : newPtr ≠ 0)
    (htype : 1 ≤ typeSize.toNat) (hlen : 1 ≤ arrayLen.toNat) (hle : arrayLen.toNat ≤ numBlocks.toNat)
    (hsmall : typeSize.toNat * numBlocks.toNat < 2 ^ 62)
    (happart : Region.Apart ⟨arrayPtr, (arrayLen.toNat * typeSize.toNat + 15) / 16 * 16⟩
      ⟨newPtr, (typeSize.toNat * numBlocks.toNat + 15) / 16 * 16⟩) :
    ∃ moved,
      Returns (fun fuel => resizeArrayIn fuel mem arrayPtr arrayLen typeSize numBlocks newPtr)
        (some moved) ∧
      moved.block = ⟨newPtr, (typeSize.toNat * numBlocks.toNat + 15) / 16 * 16⟩ ∧
      typeSize.toNat * numBlocks.toNat ≤ moved.block.size ∧
      (∀ i < arrayLen.toNat * typeSize.toNat,
        moved.trace.mem (moved.block.start + i) = mem (arrayPtr + i)) ∧
      Region.cover moved.trace.reads ⊆ Finset.Ico arrayPtr
        (arrayPtr + (arrayLen.toNat * typeSize.toNat + 15) / 16 * 16) ∧
      Region.cover moved.trace.writes ⊆ Finset.Ico moved.block.start
        (moved.block.start + moved.block.size) := by
  obtain ⟨t, hreturns, hcopied⟩ :=
    resizeArrayIn_copied mem harray hnew htype hlen hle hsmall happart
  have hfit := elements_fit typeSize hle
  refine ⟨_, hreturns, rfl, by dsimp only; omega, ?_, ?_, ?_⟩
  · intro i hi
    exact hcopied.byte (by omega)
  · rw [hcopied.reads]
    exact Finset.Ico_subset_Ico_right (by omega)
  · rw [hcopied.writes]
    exact Finset.Ico_subset_Ico_right (by dsimp only; omega)

theorem resizeArray_exact_three :
    ∃ moved, Returns (fun fuel => resizeArrayIn fuel UInt8.ofNat 16 3 5 7 64) (some moved) ∧
      35 ≤ moved.block.size ∧ moved.trace.mem (moved.block.start + 14) = 30 := by
  obtain ⟨moved, hreturns, -, hsize, hbyte, -⟩ := @resizeArray_exact UInt8.ofNat 16 64 3 5 7
    (by decide) (by decide) (by decide) (by decide) (by decide) (by decide) (Or.inl (by decide))
  exact ⟨moved, hreturns, hsize, hbyte 14 (by decide)⟩

/-- `resizeArray` of `Block` is what the registers do. -/
theorem resizeArrayIn_block (mem : Mem) {arrayPtr newPtr : Nat} {arrayLen : UInt32}
    {typeSize numBlocks : UInt64} (harray : arrayPtr ≠ 0) (hnew : newPtr ≠ 0)
    (htype : 1 ≤ typeSize.toNat) (hlen : 1 ≤ arrayLen.toNat) (hle : arrayLen.toNat ≤ numBlocks.toNat)
    (hsmall : typeSize.toNat * numBlocks.toNat < 2 ^ 62)
    (happart : Region.Apart ⟨arrayPtr, (arrayLen.toNat * typeSize.toNat + 15) / 16 * 16⟩
      ⟨newPtr, (typeSize.toNat * numBlocks.toNat + 15) / 16 * 16⟩) :
    ∃ moved,
      Returns (fun fuel => resizeArrayIn fuel mem arrayPtr arrayLen typeSize numBlocks newPtr)
        (some moved) ∧
      resizeArray (fun i => mem (newPtr + i))
          (some (blockAt mem ⟨arrayPtr, (arrayLen.toNat * typeSize.toNat + 15) / 16 * 16⟩))
          arrayLen.toNat typeSize.toNat numBlocks.toNat =
        some (blockAt moved.trace.mem moved.block) := by
  obtain ⟨t, hreturns, hcopied⟩ :=
    resizeArrayIn_copied mem harray hnew htype hlen hle hsmall happart
  have hfit := elements_fit typeSize hle
  refine ⟨_, hreturns, ?_⟩
  unfold resizeArray blockAt
  dsimp only
  rw [if_neg (by omega), mallocArray_eq _ (by omega)]
  dsimp only
  rw [if_neg (by omega), Nat.mod_eq_of_lt (by omega), if_pos (by omega)]
  congr 2
  funext i
  unfold copyObject
  split
  next hin => exact (hcopied.byte hin).symm
  next hout => exact (hcopied.outside (by omega)).symm

/-! ## Pointers in memory -/

/-- The pointer at an address. -/
def pointerAt (mem : Mem) (address : Nat) : Pointer :=
  UInt64.ofNat (littleEndian (bytesAt mem address 8))

theorem pointerAt_toNat (mem : Mem) (address : Nat) :
    (pointerAt mem address).toNat = littleEndian (bytesAt mem address 8) := by
  have hlt := littleEndian_lt (bytesAt mem address 8)
  rw [bytesAt_length] at hlt
  exact UInt64.toNat_ofNat_of_lt' hlt

theorem pointerAt_congr {mem mem' : Mem} {address : Nat}
    (h : ∀ k < 8, mem (address + k) = mem' (address + k)) :
    pointerAt mem address = pointerAt mem' address := by
  rw [pointerAt, bytesAt_inj.mpr h, pointerAt]

theorem slot_blockAt (mem : Mem) (region : Region) (i : Nat) :
    (blockAt mem region).slot i = pointerAt mem (region.start + 8 * i) := by
  have hbytes : bytesAt (blockAt mem region).byte (8 * i) 8 =
      bytesAt mem (region.start + 8 * i) 8 :=
    bytesAt_inj.mpr fun _ _ => congrArg mem (Nat.add_assoc ..).symm
  rw [Block.slot, orBytes_eq_littleEndian, pointerAt, hbytes]

theorem quadword_eq_charsOf (value : Nat) : quadword value = charsOf 8 value :=
  (charsOf_eq_map 8 value).symm

/-- Storing a pointer at an address of a block stores it into the slot there. -/
theorem storeSlot_store (t : Trace) {region : Region} {i : Nat} (h : 8 * i + 8 ≤ region.size)
    (p : Pointer) :
    (blockAt t.mem region).storeSlot i p =
      some (blockAt (t.store (region.start + 8 * i) 8 p.toNat).mem region) := by
  rw [Block.storeSlot_eq h]
  refine congrArg some (congrArg (Block.mk region.size) ?_)
  funext a
  show storeQuadword (fun i => t.mem (region.start + i)) (8 * i) _ a =
    storeBytes t.mem (region.start + 8 * i) _ (region.start + a)
  unfold storeQuadword storeBytes
  rw [quadword_eq_charsOf, charsOf_length, Nat.add_sub_add_left]
  split
  next hin => rw [if_pos (by omega)]
  next hout => rw [if_neg (by omega)]

/-- Moving a quadword into a block stores the pointer that it is. -/
theorem storeSlot_move (t : Trace) (source : Nat) {region : Region} {i : Nat}
    (h : 8 * i + 8 ≤ region.size) :
    (blockAt t.mem region).storeSlot i (pointerAt t.mem source) =
      some (blockAt (t.move source (region.start + 8 * i) 8).mem region) := by
  rw [storeSlot_store t h, pointerAt_toNat]
  rfl

/-! ## `realloc` -/

/-- What a block should be moved like: the new one is large enough and has the old one's bytes, and
what was touched is part of one of them. -/
structure Moved.Keeps (mem : Mem) (ptr origSize newSize : Nat) (moved : Moved) : Prop where
  room : newSize ≤ moved.block.size
  bytes : ∀ i < origSize, moved.trace.mem (moved.block.start + i) = mem (ptr + i)
  inside : Region.cover moved.trace.reads ∪ Region.cover moved.trace.writes ⊆
    Finset.Ico ptr (ptr + (origSize + 15) / 16 * 16) ∪
      Finset.Ico moved.block.start (moved.block.start + moved.block.size)

section

variable {fuel : Nat} {mem : Mem} {ptr newPtr : Nat} {origSize newSize : UInt64} {moved : Moved}

/-- What `realloc` comes back with: a block of fifteen bytes, and what `.whileData` did. -/
theorem realloc_inv (h : realloc fuel mem ptr origSize newSize newPtr = some (some moved)) :
    moved.block = ⟨newPtr, 15⟩ ∧
      ∃ numCopies, rounds reallocRound fuel ⟨ptr, numCopies, newPtr, .start mem⟩ =
        some moved.trace := by
  unfold realloc at h
  dsimp only at h
  split at h
  next _ => cases h
  next _ =>
    split at h
    next _ => cases h
    next _ =>
      obtain ⟨trace, hrun, hmoved⟩ := Option.map_eq_some_iff.mp h
      cases hmoved
      exact ⟨rfl, _, hrun⟩

/-- The first move of `.whileData` is at the start of both blocks, which are aligned. -/
theorem reallocRound_first {s : ReallocState} {turn : Turn ReallocState Trace}
    (h : reallocRound s = some turn) :
    s.rdi % 16 = 0 ∧ s.rax % 16 = 0 ∧
      turn.Meets (fun s' => ⟨s.rax, 16⟩ ∈ s'.trace.writes) (fun t => ⟨s.rax, 16⟩ ∈ t.writes) := by
  unfold reallocRound at h
  split at h
  next _ => cases h
  next haligned =>
    refine ⟨by omega, by omega, ?_⟩
    dsimp only at h
    split at h
    next _ =>
      cases h
      exact List.mem_cons_self
    next _ =>
      cases h
      exact List.mem_cons_self

/-- What was written stays written. -/
theorem reallocRound_later {s : ReallocState} {turn : Turn ReallocState Trace} {region : Region}
    (hmem : region ∈ s.trace.writes) (h : reallocRound s = some turn) :
    turn.Meets (fun s' => region ∈ s'.trace.writes) (fun t => region ∈ t.writes) := by
  unfold reallocRound at h
  split at h
  next _ => cases h
  next _ =>
    dsimp only at h
    split at h
    next _ =>
      cases h
      exact List.mem_cons_of_mem _ hmem
    next _ =>
      cases h
      exact List.mem_cons_of_mem _ hmem

/-- **`.whileData` writes sixteen bytes** at the start of the new block. -/
theorem whileData_writes {s : ReallocState} {t : Trace} (h : rounds reallocRound fuel s = some t) :
    s.rdi % 16 = 0 ∧ s.rax % 16 = 0 ∧ ⟨s.rax, 16⟩ ∈ t.writes := by
  cases fuel with
  | zero => cases h
  | succ fuel =>
    rcases rounds_inv h with ⟨s', hround, hrun⟩ | hround
    · obtain ⟨hrdi, hrax, hmem⟩ := reallocRound_first hround
      refine ⟨hrdi, hrax, ?_⟩
      exact rounds_post (fun _ _ hwritten hnext => reallocRound_later hwritten hnext) fuel hmem hrun
    · obtain ⟨hrdi, hrax, hmem⟩ := reallocRound_first hround
      exact ⟨hrdi, hrax, hmem⟩

end

/-- **`realloc` never moves a block as it should**: its first store is one byte too long for the
block that it got. -/
theorem realloc_never (mem : Mem) {ptr newPtr : Nat} {origSize newSize : UInt64}
    (happart : Region.Apart ⟨ptr, (origSize.toNat + 15) / 16 * 16⟩ ⟨newPtr, 15⟩) :
    ¬ ∃ moved,
      Returns (fun fuel => realloc fuel mem ptr origSize newSize newPtr) (some moved) ∧
      moved.Keeps mem ptr origSize.toNat newSize.toNat := by
  rintro ⟨moved, ⟨enough, hrun⟩, hkeeps⟩
  obtain ⟨hblock, numCopies, hloop⟩ := realloc_inv (hrun enough (Nat.le_refl enough))
  obtain ⟨hptr, hnew, hwritten⟩ := whileData_writes hloop
  have hlast : newPtr + 15 ∈ Region.cover moved.trace.writes :=
    Region.mem_cover.mpr ⟨_, hwritten, by dsimp only; omega, by dsimp only; omega⟩
  have hinside := hkeeps.inside (Finset.mem_union_right _ hlast)
  rw [hblock, Finset.mem_union, Finset.mem_Ico, Finset.mem_Ico] at hinside
  unfold Region.Apart at happart
  dsimp only at hptr hnew hinside happart
  omega

theorem realloc_never_sixteen :
    ¬ ∃ moved, Returns (fun fuel => realloc fuel UInt8.ofNat 64 16 16 128) (some moved) ∧
      moved.Keeps UInt8.ofNat 64 16 16 :=
  @realloc_never UInt8.ofNat 64 128 16 16 (Or.inl (by decide))

/-- `i` bytes are copied, and the registers of `.whileData` are behind them. -/
structure ReallocInv (mem : Mem) (ptr newPtr total i : Nat) (s : ReallocState) : Prop where
  rdi : s.rdi = ptr + i
  rax : s.rax = newPtr + i
  rsi : 16 * s.rsi + i = 16 * total
  pos : 1 ≤ s.rsi
  copied : Copied mem ptr newPtr i s.trace

theorem reallocRound_inv {mem : Mem} {ptr newPtr total : Nat} (htotal : total < 2 ^ 64)
    (hptr : ptr % 16 = 0) (hnew : newPtr % 16 = 0)
    (happart : ptr + 16 * total ≤ newPtr ∨ newPtr ≤ ptr) {s : ReallocState} {i : Nat}
    (h : ReallocInv mem ptr newPtr total i s) :
    ∃ turn, reallocRound s = some turn ∧ turn.Meets
      (fun s' => ∃ i', i < i' ∧ ReallocInv mem ptr newPtr total i' s')
      (Copied mem ptr newPtr (16 * total)) := by
  obtain ⟨hrdi, hrax, hrsi, hpos, hcopied⟩ := h
  obtain ⟨left, hleft⟩ : ∃ left, s.rsi = left + 1 := ⟨s.rsi - 1, by omega⟩
  have hmoved := hcopied.move (k := 16) (by omega)
  have haligned : ¬ (s.rdi % 16 ≠ 0 ∨ s.rax % 16 ≠ 0) := by omega
  unfold reallocRound
  dsimp only
  rw [if_neg haligned, hrdi, hrax, hleft, decrement_succ (by omega)]
  split
  next hlast => exact ⟨_, rfl, hmoved.all (by omega)⟩
  next hmore =>
    exact ⟨_, rfl, i + 16, by omega, Nat.add_assoc .., Nat.add_assoc .., by dsimp only; omega,
      Nat.pos_of_ne_zero hmore, hmoved⟩

/-- **What `realloc` does**: the block has fifteen bytes, and 256 times as many bytes as the old one
has are copied to it. -/
theorem realloc_copies (mem : Mem) {ptr newPtr : Nat} {origSize newSize : UInt64}
    (hptr : ptr % 16 = 0) (hnew : newPtr % 16 = 0) (hnull : newPtr ≠ 0) (hpos : 1 ≤ origSize.toNat)
    (hle : origSize.toNat ≤ newSize.toNat) (hsmall : newSize.toNat < 2 ^ 59)
    (happart : ptr + 256 * ((origSize.toNat + 15) / 16 * 16) ≤ newPtr ∨ newPtr ≤ ptr) :
    ∃ t, Returns (fun fuel => realloc fuel mem ptr origSize newSize newPtr)
        (some ⟨⟨newPtr, 15⟩, ptr, t⟩) ∧
      Copied mem ptr newPtr (256 * ((origSize.toNat + 15) / 16 * 16)) t := by
  have hfifteen : (0x0F : UInt64).toNat = 15 := rfl
  have hround {size : UInt64} (hsize : size.toNat < 2 ^ 59) :
      (((size + 0x0F) >>> (4 : UInt64)) <<< (4 : UInt64)).toNat = (size.toNat + 15) / 16 * 16 := by
    rw [toNat_shift, UInt64.toNat_add, hfifteen, Nat.mod_eq_of_lt (by omega)]
  have horig := hround (Nat.lt_of_le_of_lt hle hsmall)
  have hnumCopies : ((((origSize + 0x0F) >>> (4 : UInt64)) <<< (4 : UInt64)) <<<
      (4 : UInt64)).toNat = 16 * ((origSize.toNat + 15) / 16 * 16) := by
    rw [UInt64.toNat_shiftLeft, horig, Nat.mul_comm 16]
    show ((origSize.toNat + 15) / 16 * 16) <<< 4 % 2 ^ 64 = _
    rw [Nat.shiftLeft_eq]
    omega
  have hfits : ¬ ((origSize + 0x0F) >>> (4 : UInt64)) <<< (4 : UInt64) >
      ((newSize + 0x0F) >>> (4 : UInt64)) <<< (4 : UInt64) := by
    intro hgt
    have hlt := UInt64.lt_iff_toNat_lt.mp hgt
    rw [horig, hround hsmall] at hlt
    omega
  have hall : 256 * ((origSize.toNat + 15) / 16 * 16) =
      16 * (16 * ((origSize.toNat + 15) / 16 * 16)) := by omega
  rw [hall] at happart ⊢
  have hstart : ReallocInv mem ptr newPtr (16 * ((origSize.toNat + 15) / 16 * 16)) 0
      ⟨ptr, 16 * ((origSize.toNat + 15) / 16 * 16), newPtr, .start mem⟩ :=
    ⟨rfl, rfl, Nat.add_zero _, by dsimp only; omega, copied_start mem ptr newPtr⟩
  obtain ⟨t, hreturns, hcopied⟩ := returns_of_progress
    (16 * (16 * ((origSize.toNat + 15) / 16 * 16)))
    (fun _ _ hs => reallocRound_inv (by omega) hptr hnew happart hs)
    (fun i s hs => by have := hs.rsi; omega) hstart
  refine ⟨t, ?_, hcopied⟩
  unfold realloc
  simp only [if_neg hfits, if_neg hnull, hnumCopies]
  exact hreturns.map fun trace : Trace => some (Moved.mk ⟨newPtr, 15⟩ ptr trace)

/-- Sixteen bytes are to become thirty-two: what comes back has room for fifteen. -/
theorem realloc_thirtyTwo :
    ¬ ∃ moved, Returns (fun fuel => realloc fuel UInt8.ofNat 64 16 32 128) (some moved) ∧
      moved.Keeps UInt8.ofNat 64 16 32 := by
  rintro ⟨moved, ⟨enough, hrun⟩, hkeeps⟩
  obtain ⟨hblock, -⟩ := realloc_inv (hrun enough (Nat.le_refl enough))
  have hroom := hkeeps.room
  rw [hblock] at hroom
  exact absurd hroom (by decide)

end DevopsBroker.Lang
