import Mathlib.Data.Nat.Basic

/-!
# `hash/md5.linux-x86_64.asm`: the MD5 compression function

`md5Transform` runs four loops of four turns, and each turn makes four steps with the
words `a`, `b`, `c` and `d` moved round by one. Message index and table entry of a step
are computed from the loop index. `MD5Transform` is the C function from RFC 1321 that
`md5.c` keeps beside it: 64 steps written out. **The two are equal**
(`md5Transform_eq`): a turn is four steps (`pass_atHead`), and the steps of all turns
are the 64 that are written out (`md5Steps_eq`).

Mirroring notes vs the source:
- `MD5Transform` stands in a comment of `md5.c`, its steps as macros there.
- Each routine (`ffTransform` and so on) returns the new `eax`; what else it writes is
  scratch, and `cl` is put back.
- The index register `r8` and the rotate count `r9b` are natural numbers.
- The byte addresses of the block count from its first byte.
-/

namespace DevopsBroker.Hash

/-- `uint32_t *state`, or the working words of a transformation. -/
structure Md5State where
  a : BitVec 32
  b : BitVec 32
  c : BitVec 32
  d : BitVec 32
deriving DecidableEq, Repr

/-! ## `MD5Transform` -/

/-- The name of a working word. -/
inductive Word where
  | a | b | c | d
deriving DecidableEq, Repr

def Md5State.get (v : Md5State) : Word → BitVec 32
  | .a => v.a
  | .b => v.b
  | .c => v.c
  | .d => v.d

def Md5State.set (v : Md5State) (w : Word) (x : BitVec 32) : Md5State :=
  match w with
  | .a => { v with a := x }
  | .b => { v with b := x }
  | .c => { v with c := x }
  | .d => { v with d := x }

/-- The transformations for rounds 1, 2, 3, and 4. -/
inductive Round where
  | FF | GG | HH | II
deriving DecidableEq, Repr

/-- The basic functions `F`, `G`, `H` and `I`. -/
def Round.basic (x y z : BitVec 32) : Round → BitVec 32
  | .FF => (x &&& y) ||| (~~~ x &&& z)
  | .GG => (x &&& z) ||| (y &&& ~~~ z)
  | .HH => x ^^^ y ^^^ z
  | .II => y ^^^ (x ||| ~~~ z)

/-- `ROTATE_LEFT`. -/
def rotateLeft (x : BitVec 32) (n : Nat) : BitVec 32 := x <<< n ||| x >>> (32 - n)

/-- The arguments of one step: `FF(a, b, c, d, x[k], s, ac)`. -/
structure Md5Step where
  round : Round
  a : Word
  b : Word
  c : Word
  d : Word
  k : Nat
  s : Nat
  ac : BitVec 32
deriving DecidableEq, Repr

/-- The value a step gives its first word. -/
def stepValue (round : Round) (a b c d x : BitVec 32) (s : Nat) (ac : BitVec 32) : BitVec 32 :=
  let a := a + (round.basic b c d + x + ac)
  let a := rotateLeft a s
  a + b

/-- One of the statements `FF(…);`, `GG(…);`, `HH(…);`, `II(…);`. -/
def Md5Step.run (x : Nat → BitVec 32) (v : Md5State) (t : Md5Step) : Md5State :=
  v.set t.a (stepValue t.round (v.get t.a) (v.get t.b) (v.get t.c) (v.get t.d) (x t.k) t.s t.ac)

/-- Rounds 1 to 4. -/
def md5Steps : List Md5Step :=
  [ ⟨.FF, .a, .b, .c, .d, 0, 7, 0xd76aa478⟩, ⟨.FF, .d, .a, .b, .c, 1, 12, 0xe8c7b756⟩,
    ⟨.FF, .c, .d, .a, .b, 2, 17, 0x242070db⟩, ⟨.FF, .b, .c, .d, .a, 3, 22, 0xc1bdceee⟩,
    ⟨.FF, .a, .b, .c, .d, 4, 7, 0xf57c0faf⟩, ⟨.FF, .d, .a, .b, .c, 5, 12, 0x4787c62a⟩,
    ⟨.FF, .c, .d, .a, .b, 6, 17, 0xa8304613⟩, ⟨.FF, .b, .c, .d, .a, 7, 22, 0xfd469501⟩,
    ⟨.FF, .a, .b, .c, .d, 8, 7, 0x698098d8⟩, ⟨.FF, .d, .a, .b, .c, 9, 12, 0x8b44f7af⟩,
    ⟨.FF, .c, .d, .a, .b, 10, 17, 0xffff5bb1⟩, ⟨.FF, .b, .c, .d, .a, 11, 22, 0x895cd7be⟩,
    ⟨.FF, .a, .b, .c, .d, 12, 7, 0x6b901122⟩, ⟨.FF, .d, .a, .b, .c, 13, 12, 0xfd987193⟩,
    ⟨.FF, .c, .d, .a, .b, 14, 17, 0xa679438e⟩, ⟨.FF, .b, .c, .d, .a, 15, 22, 0x49b40821⟩,
    ⟨.GG, .a, .b, .c, .d, 1, 5, 0xf61e2562⟩, ⟨.GG, .d, .a, .b, .c, 6, 9, 0xc040b340⟩,
    ⟨.GG, .c, .d, .a, .b, 11, 14, 0x265e5a51⟩, ⟨.GG, .b, .c, .d, .a, 0, 20, 0xe9b6c7aa⟩,
    ⟨.GG, .a, .b, .c, .d, 5, 5, 0xd62f105d⟩, ⟨.GG, .d, .a, .b, .c, 10, 9, 0x2441453⟩,
    ⟨.GG, .c, .d, .a, .b, 15, 14, 0xd8a1e681⟩, ⟨.GG, .b, .c, .d, .a, 4, 20, 0xe7d3fbc8⟩,
    ⟨.GG, .a, .b, .c, .d, 9, 5, 0x21e1cde6⟩, ⟨.GG, .d, .a, .b, .c, 14, 9, 0xc33707d6⟩,
    ⟨.GG, .c, .d, .a, .b, 3, 14, 0xf4d50d87⟩, ⟨.GG, .b, .c, .d, .a, 8, 20, 0x455a14ed⟩,
    ⟨.GG, .a, .b, .c, .d, 13, 5, 0xa9e3e905⟩, ⟨.GG, .d, .a, .b, .c, 2, 9, 0xfcefa3f8⟩,
    ⟨.GG, .c, .d, .a, .b, 7, 14, 0x676f02d9⟩, ⟨.GG, .b, .c, .d, .a, 12, 20, 0x8d2a4c8a⟩,
    ⟨.HH, .a, .b, .c, .d, 5, 4, 0xfffa3942⟩, ⟨.HH, .d, .a, .b, .c, 8, 11, 0x8771f681⟩,
    ⟨.HH, .c, .d, .a, .b, 11, 16, 0x6d9d6122⟩, ⟨.HH, .b, .c, .d, .a, 14, 23, 0xfde5380c⟩,
    ⟨.HH, .a, .b, .c, .d, 1, 4, 0xa4beea44⟩, ⟨.HH, .d, .a, .b, .c, 4, 11, 0x4bdecfa9⟩,
    ⟨.HH, .c, .d, .a, .b, 7, 16, 0xf6bb4b60⟩, ⟨.HH, .b, .c, .d, .a, 10, 23, 0xbebfbc70⟩,
    ⟨.HH, .a, .b, .c, .d, 13, 4, 0x289b7ec6⟩, ⟨.HH, .d, .a, .b, .c, 0, 11, 0xeaa127fa⟩,
    ⟨.HH, .c, .d, .a, .b, 3, 16, 0xd4ef3085⟩, ⟨.HH, .b, .c, .d, .a, 6, 23, 0x4881d05⟩,
    ⟨.HH, .a, .b, .c, .d, 9, 4, 0xd9d4d039⟩, ⟨.HH, .d, .a, .b, .c, 12, 11, 0xe6db99e5⟩,
    ⟨.HH, .c, .d, .a, .b, 15, 16, 0x1fa27cf8⟩, ⟨.HH, .b, .c, .d, .a, 2, 23, 0xc4ac5665⟩,
    ⟨.II, .a, .b, .c, .d, 0, 6, 0xf4292244⟩, ⟨.II, .d, .a, .b, .c, 7, 10, 0x432aff97⟩,
    ⟨.II, .c, .d, .a, .b, 14, 15, 0xab9423a7⟩, ⟨.II, .b, .c, .d, .a, 5, 21, 0xfc93a039⟩,
    ⟨.II, .a, .b, .c, .d, 12, 6, 0x655b59c3⟩, ⟨.II, .d, .a, .b, .c, 3, 10, 0x8f0ccc92⟩,
    ⟨.II, .c, .d, .a, .b, 10, 15, 0xffeff47d⟩, ⟨.II, .b, .c, .d, .a, 1, 21, 0x85845dd1⟩,
    ⟨.II, .a, .b, .c, .d, 8, 6, 0x6fa87e4f⟩, ⟨.II, .d, .a, .b, .c, 15, 10, 0xfe2ce6e0⟩,
    ⟨.II, .c, .d, .a, .b, 6, 15, 0xa3014314⟩, ⟨.II, .b, .c, .d, .a, 13, 21, 0x4e0811a1⟩,
    ⟨.II, .a, .b, .c, .d, 4, 6, 0xf7537e82⟩, ⟨.II, .d, .a, .b, .c, 11, 10, 0xbd3af235⟩,
    ⟨.II, .c, .d, .a, .b, 2, 15, 0x2ad7d2bb⟩, ⟨.II, .b, .c, .d, .a, 9, 21, 0xeb86d391⟩ ]

/-- Decode from `char*` to `uint32_t*` values. -/
def decode (block : Nat → UInt8) (i : Nat) : BitVec 32 :=
  let j := 4 * i
  (block j).toBitVec.setWidth 32 ||| (block (j + 1)).toBitVec.setWidth 32 <<< 8
    ||| (block (j + 2)).toBitVec.setWidth 32 <<< 16 ||| (block (j + 3)).toBitVec.setWidth 32 <<< 24

/-- `MD5Transform`. -/
def MD5Transform (state : Md5State) (block : Nat → UInt8) : Md5State :=
  let v := md5Steps.foldl (Md5Step.run (decode block)) state
  ⟨state.a + v.a, state.b + v.b, state.c + v.c, state.d + v.d⟩

/-! ## `f1518caf_md5Transform` -/

/-- `X`: precomputed table for the binary integer part of the sines of integers. -/
def X : Array (BitVec 32) :=
  #[0xd76aa478, 0xe8c7b756, 0x242070db, 0xc1bdceee, 0xf57c0faf, 0x4787c62a, 0xa8304613, 0xfd469501,
    0x698098d8, 0x8b44f7af, 0xffff5bb1, 0x895cd7be, 0x6b901122, 0xfd987193, 0xa679438e, 0x49b40821,
    0xf61e2562, 0xc040b340, 0x265e5a51, 0xe9b6c7aa, 0xd62f105d, 0x02441453, 0xd8a1e681, 0xe7d3fbc8,
    0x21e1cde6, 0xc33707d6, 0xf4d50d87, 0x455a14ed, 0xa9e3e905, 0xfcefa3f8, 0x676f02d9, 0x8d2a4c8a,
    0xfffa3942, 0x8771f681, 0x6d9d6122, 0xfde5380c, 0xa4beea44, 0x4bdecfa9, 0xf6bb4b60, 0xbebfbc70,
    0x289b7ec6, 0xeaa127fa, 0xd4ef3085, 0x04881d05, 0xd9d4d039, 0xe6db99e5, 0x1fa27cf8, 0xc4ac5665,
    0xf4292244, 0x432aff97, 0xab9423a7, 0xfc93a039, 0x655b59c3, 0x8f0ccc92, 0xffeff47d, 0x85845dd1,
    0x6fa87e4f, 0xfe2ce6e0, 0xa3014314, 0x4e0811a1, 0xf7537e82, 0xbd3af235, 0x2ad7d2bb, 0xeb86d391]

/-- The registers of the loops, and the four words at `[rsp]`. -/
structure Registers where
  eax : BitVec 32
  ebx : BitVec 32
  ecx : BitVec 32
  edx : BitVec 32
  a : BitVec 32
  b : BitVec 32
  c : BitVec 32
  d : BitVec 32
  r8 : Nat

/-- `dword [rsi + offset]`: the byte at the lowest address is the low one. -/
def dword (rsi : Nat → UInt8) (offset : Nat) : BitVec 32 :=
  (rsi (offset + 3)).toBitVec ++ (rsi (offset + 2)).toBitVec ++ (rsi (offset + 1)).toBitVec
    ++ (rsi offset).toBitVec

/-- The end that all four routines share, with the index of the message word in `r13`. -/
def addAndRotate (rsi : Nat → UInt8) (r : Registers) (r11d : BitVec 32) (r13 r9b : Nat) :
    BitVec 32 :=
  let r11d := r11d + X.getD r.r8 0
  let r11d := r11d + dword rsi (4 * r13)
  let eax := r.eax + r11d
  eax.rotateLeft r9b + r.ebx

def ffTransform (rsi : Nat → UInt8) (r : Registers) (r9b : Nat) : BitVec 32 :=
  addAndRotate rsi r ((r.ebx &&& r.ecx) ||| (~~~ r.ebx &&& r.edx)) r.r8 r9b

def ggTransform (rsi : Nat → UInt8) (r : Registers) (r9b : Nat) : BitVec 32 :=
  addAndRotate rsi r ((r.ebx &&& r.edx) ||| (~~~ r.edx &&& r.ecx)) ((5 * r.r8 + 1) &&& 0x0F) r9b

def hhTransform (rsi : Nat → UInt8) (r : Registers) (r9b : Nat) : BitVec 32 :=
  addAndRotate rsi r (r.ebx ^^^ r.ecx ^^^ r.edx) ((3 * r.r8 + 5) &&& 0x0F) r9b

def iiTransform (rsi : Nat → UInt8) (r : Registers) (r9b : Nat) : BitVec 32 :=
  addAndRotate rsi r ((~~~ r.edx ||| r.ebx) ^^^ r.ecx) ((r.r8 <<< 3 - r.r8) &&& 0x0F) r9b

/-- One turn of a loop: four calls of its routine, with rotate counts `s₁` to `s₄`. -/
def pass (transform : Registers → Nat → BitVec 32) (s₁ s₂ s₃ s₄ : Nat) (r : Registers) :
    Registers :=
  let a := transform r s₁
  let r := { r with r8 := r.r8 + 1, a := a, eax := r.d, ebx := a, ecx := r.b, edx := r.c }
  let d := transform r s₂
  let r := { r with r8 := r.r8 + 1, d := d, eax := r.c, ebx := d, ecx := r.a, edx := r.b }
  let c := transform r s₃
  let r := { r with r8 := r.r8 + 1, c := c, eax := r.b, ebx := c, ecx := r.d, edx := r.a }
  let b := transform r s₄
  { r with r8 := r.r8 + 1, b := b, eax := r.a, ebx := b, ecx := r.c, edx := r.d }

theorem pass_r8 (transform : Registers → Nat → BitVec 32) (s₁ s₂ s₃ s₄ : Nat) (r : Registers) :
    (pass transform s₁ s₂ s₃ s₄ r).r8 = r.r8 + 4 := rfl

/-- The loop around it, until the loop index reaches `bound`. -/
def performTransform (transform : Registers → Nat → BitVec 32) (s₁ s₂ s₃ s₄ bound : Nat)
    (r : Registers) : Registers :=
  if (pass transform s₁ s₂ s₃ s₄ r).r8 < bound then
    performTransform transform s₁ s₂ s₃ s₄ bound (pass transform s₁ s₂ s₃ s₄ r)
  else pass transform s₁ s₂ s₃ s₄ r
termination_by bound - r.r8
decreasing_by
  rename_i h
  rw [pass_r8] at h ⊢
  omega

/-- `.performFFTransform`. -/
def performFFTransform (rsi : Nat → UInt8) : Registers → Registers :=
  performTransform (ffTransform rsi) 0x07 0x0C 0x11 0x16 0x10

/-- `.performGGTransform`. -/
def performGGTransform (rsi : Nat → UInt8) : Registers → Registers :=
  performTransform (ggTransform rsi) 0x05 0x09 0x0E 0x14 0x20

/-- `.performHHTransform`. -/
def performHHTransform (rsi : Nat → UInt8) : Registers → Registers :=
  performTransform (hhTransform rsi) 0x04 0x0B 0x10 0x17 0x30

/-- `.performIITransform`. -/
def performIITransform (rsi : Nat → UInt8) : Registers → Registers :=
  performTransform (iiTransform rsi) 0x06 0x0A 0x0F 0x15 0x40

/-- `f1518caf_md5Transform`. -/
def md5Transform (state : Md5State) (block : Nat → UInt8) : Md5State :=
  let r : Registers := ⟨state.a, state.b, state.c, state.d, state.a, state.b, state.c, state.d, 0⟩
  let r := performFFTransform block r
  let r := performGGTransform block r
  let r := performHHTransform block r
  let r := performIITransform block r
  ⟨state.a + r.eax, state.b + r.ebx, state.c + r.ecx, state.d + r.edx⟩

/-! ## They are the same function -/

theorem rotateLeft_eq (x : BitVec 32) {n : Nat} (h : n < 32) : x.rotateLeft n = rotateLeft x n := by
  rw [BitVec.rotateLeft_def, Nat.mod_eq_of_lt h]
  rfl

/-- A dword is the word that `decode` puts together. -/
theorem dword_eq (block : Nat → UInt8) (i : Nat) : dword block (4 * i) = decode block i := by
  have hbyte : ∀ (b : UInt8) (k : Nat), 8 ≤ k → b.toBitVec.getLsbD k = false :=
    fun b k hk => BitVec.getLsbD_of_ge b.toBitVec k hk
  refine BitVec.eq_of_getLsbD_eq fun j hj => ?_
  unfold dword decode
  dsimp only
  simp only [BitVec.getLsbD_append, BitVec.getLsbD_or, BitVec.getLsbD_shiftLeft,
    BitVec.getLsbD_setWidth, decide_eq_true hj, Bool.true_and]
  -- in which of the four bytes is bit `j`?
  rcases Nat.lt_or_ge j 8 with h0 | h0
  · simp [h0, show j < 16 by omega, show j < 24 by omega]
  rcases Nat.lt_or_ge j 16 with h1 | h1
  · simp only [hbyte _ j h0, show ¬ j < 8 by omega, show j - 8 < 8 by omega,
      show j - 8 < 32 by omega, h1, show j < 24 by omega]
    simp
  rcases Nat.lt_or_ge j 24 with h2 | h2
  · simp only [hbyte _ j h0, hbyte _ (j - 8) (by omega), show ¬ j < 8 by omega,
      show ¬ j < 16 by omega, show ¬ j - 8 < 8 by omega, show j - 8 - 8 = j - 16 by omega,
      show j - 16 < 8 by omega, show j - 16 < 32 by omega, h2]
    simp
  · simp only [hbyte _ j h0, hbyte _ (j - 8) (by omega), hbyte _ (j - 16) (by omega),
      show ¬ j < 8 by omega, show ¬ j < 16 by omega, show ¬ j < 24 by omega,
      show ¬ j - 8 < 8 by omega, show j - 8 - 8 = j - 16 by omega,
      show j - 16 - 8 = j - 24 by omega, show ¬ j - 16 < 8 by omega, show j - 24 < 32 by omega]
    simp

/-- The shared end computes the value of a step. -/
theorem addAndRotate_eq (rsi : Nat → UInt8) (r : Registers) (round : Round) {r11d : BitVec 32}
    (r13 : Nat) {s : Nat} (hs : s < 32) (h : r11d = round.basic r.ebx r.ecx r.edx) :
    addAndRotate rsi r r11d r13 s =
      stepValue round r.eax r.ebx r.ecx r.edx (decode rsi r13) s (X.getD r.r8 0) := by
  unfold addAndRotate stepValue
  dsimp only
  rw [dword_eq, rotateLeft_eq _ hs, h, BitVec.add_assoc (round.basic r.ebx r.ecx r.edx),
    BitVec.add_comm (X.getD r.r8 0), ← BitVec.add_assoc (round.basic r.ebx r.ecx r.edx)]

/-- The message index that a routine computes from the loop index. -/
def Round.index (i : Nat) : Round → Nat
  | .FF => i
  | .GG => (5 * i + 1) &&& 0x0F
  | .HH => (3 * i + 5) &&& 0x0F
  | .II => (i <<< 3 - i) &&& 0x0F

/-- The routine of a round. -/
def Round.routine (rsi : Nat → UInt8) : Round → Registers → Nat → BitVec 32
  | .FF => ffTransform rsi
  | .GG => ggTransform rsi
  | .HH => hhTransform rsi
  | .II => iiTransform rsi

/-- **A routine computes the value of a step of its round.** -/
theorem routine_eq (rsi : Nat → UInt8) (round : Round) (r : Registers) {s : Nat} (hs : s < 32) :
    round.routine rsi r s =
      stepValue round r.eax r.ebx r.ecx r.edx (decode rsi (round.index r.r8)) s
        (X.getD r.r8 0) := by
  cases round with
  | FF => exact addAndRotate_eq rsi r .FF r.r8 hs rfl
  | GG =>
    refine addAndRotate_eq rsi r .GG _ hs ?_
    rw [BitVec.and_comm (~~~ r.edx)]
    rfl
  | HH => exact addAndRotate_eq rsi r .HH _ hs rfl
  | II =>
    refine addAndRotate_eq rsi r .II _ hs ?_
    rw [BitVec.xor_comm, BitVec.or_comm]
    rfl

/-- The registers at the head of a loop. -/
def atHead (v : Md5State) (i : Nat) : Registers := ⟨v.a, v.b, v.c, v.d, v.a, v.b, v.c, v.d, i⟩

/-- The steps of one turn. -/
def turn (round : Round) (s₁ s₂ s₃ s₄ i : Nat) : List Md5Step :=
  [⟨round, .a, .b, .c, .d, round.index i, s₁, X.getD i 0⟩,
    ⟨round, .d, .a, .b, .c, round.index (i + 1), s₂, X.getD (i + 1) 0⟩,
    ⟨round, .c, .d, .a, .b, round.index (i + 2), s₃, X.getD (i + 2) 0⟩,
    ⟨round, .b, .c, .d, .a, round.index (i + 3), s₄, X.getD (i + 3) 0⟩]

/-- One turn of a loop is four steps. -/
theorem pass_atHead (rsi : Nat → UInt8) (round : Round) {s₁ s₂ s₃ s₄ : Nat} (h₁ : s₁ < 32)
    (h₂ : s₂ < 32) (h₃ : s₃ < 32) (h₄ : s₄ < 32) (v : Md5State) (i : Nat) :
    pass (round.routine rsi) s₁ s₂ s₃ s₄ (atHead v i) =
      atHead ((turn round s₁ s₂ s₃ s₄ i).foldl (Md5Step.run (decode rsi)) v) (i + 4) := by
  unfold pass
  simp only [routine_eq rsi round _ h₁, routine_eq rsi round _ h₂, routine_eq rsi round _ h₃,
    routine_eq rsi round _ h₄]
  rfl

/-- The steps of several turns. -/
def turns (round : Round) (s₁ s₂ s₃ s₄ : Nat) : Nat → Nat → List Md5Step
  | 0, _ => []
  | n + 1, i => turn round s₁ s₂ s₃ s₄ i ++ turns round s₁ s₂ s₃ s₄ n (i + 4)

/-- **A loop takes the steps of all its turns.** -/
theorem performTransform_atHead (rsi : Nat → UInt8) (round : Round) {s₁ s₂ s₃ s₄ : Nat}
    (h₁ : s₁ < 32) (h₂ : s₂ < 32) (h₃ : s₃ < 32) (h₄ : s₄ < 32) (n : Nat) :
    ∀ (v : Md5State) (i : Nat),
      performTransform (round.routine rsi) s₁ s₂ s₃ s₄ (i + 4 * (n + 1)) (atHead v i) =
        atHead ((turns round s₁ s₂ s₃ s₄ (n + 1) i).foldl (Md5Step.run (decode rsi)) v)
          (i + 4 * (n + 1)) := by
  induction n with
  | zero =>
    intro v i
    have hend : ¬ (atHead ((turn round s₁ s₂ s₃ s₄ i).foldl (Md5Step.run (decode rsi)) v)
        (i + 4)).r8 < i + 4 * (0 + 1) := Nat.lt_irrefl _
    rw [performTransform, pass_atHead rsi round h₁ h₂ h₃ h₄, if_neg hend]
    rfl
  | succ n ih =>
    intro v i
    have hlt : (atHead ((turn round s₁ s₂ s₃ s₄ i).foldl (Md5Step.run (decode rsi)) v)
        (i + 4)).r8 < i + 4 * (n + 1 + 1) := by
      show i + 4 < i + 4 * (n + 1 + 1)
      omega
    have hturns : turns round s₁ s₂ s₃ s₄ (n + 1 + 1) i =
        turn round s₁ s₂ s₃ s₄ i ++ turns round s₁ s₂ s₃ s₄ (n + 1) (i + 4) := rfl
    rw [performTransform, pass_atHead rsi round h₁ h₂ h₃ h₄, if_pos hlt, hturns,
      List.foldl_append, show i + 4 * (n + 1 + 1) = i + 4 + 4 * (n + 1) by omega, ih]

theorem performFFTransform_atHead (rsi : Nat → UInt8) (v : Md5State) :
    performFFTransform rsi (atHead v 0) =
      atHead ((turns .FF 0x07 0x0C 0x11 0x16 4 0).foldl (Md5Step.run (decode rsi)) v) 16 :=
  performTransform_atHead rsi .FF (by decide) (by decide) (by decide) (by decide) 3 v 0

theorem performGGTransform_atHead (rsi : Nat → UInt8) (v : Md5State) :
    performGGTransform rsi (atHead v 16) =
      atHead ((turns .GG 0x05 0x09 0x0E 0x14 4 16).foldl (Md5Step.run (decode rsi)) v) 32 :=
  performTransform_atHead rsi .GG (by decide) (by decide) (by decide) (by decide) 3 v 16

theorem performHHTransform_atHead (rsi : Nat → UInt8) (v : Md5State) :
    performHHTransform rsi (atHead v 32) =
      atHead ((turns .HH 0x04 0x0B 0x10 0x17 4 32).foldl (Md5Step.run (decode rsi)) v) 48 :=
  performTransform_atHead rsi .HH (by decide) (by decide) (by decide) (by decide) 3 v 32

theorem performIITransform_atHead (rsi : Nat → UInt8) (v : Md5State) :
    performIITransform rsi (atHead v 48) =
      atHead ((turns .II 0x06 0x0A 0x0F 0x15 4 48).foldl (Md5Step.run (decode rsi)) v) 64 :=
  performTransform_atHead rsi .II (by decide) (by decide) (by decide) (by decide) 3 v 48

/-- The loops take the 64 steps that `MD5Transform` writes out. -/
theorem md5Steps_eq : md5Steps =
    turns .FF 0x07 0x0C 0x11 0x16 4 0 ++ (turns .GG 0x05 0x09 0x0E 0x14 4 16 ++
      (turns .HH 0x04 0x0B 0x10 0x17 4 32 ++ turns .II 0x06 0x0A 0x0F 0x15 4 48)) := by
  decide

/-- The transformation in the assembly is the one in C. -/
theorem md5Transform_eq (state : Md5State) (block : Nat → UInt8) :
    md5Transform state block = MD5Transform state block := by
  have hhead : (⟨state.a, state.b, state.c, state.d, state.a, state.b, state.c, state.d, 0⟩ :
      Registers) = atHead state 0 := rfl
  unfold md5Transform MD5Transform
  dsimp only
  rw [hhead, performFFTransform_atHead, performGGTransform_atHead, performHHTransform_atHead,
    performIITransform_atHead, md5Steps_eq, List.foldl_append, List.foldl_append,
    List.foldl_append]
  simp only [atHead]

/-- **`f1518caf_md5Transform` and `MD5Transform` are one function** of state and block. -/
theorem md5Transform_refines : md5Transform = MD5Transform := by
  funext state block
  exact md5Transform_eq state block

end DevopsBroker.Hash
