import DevopsBroker.Compress.Inflate

/-!
# `inflate` stays inside of its slab

Whatever the input is, and however decompression ends: `length` never passes the size
of the slab, since literals and back references are checked before they are stored
(`inflate_fits`). What is stored goes behind what is there, so that the bytes from `length` on
are those that the slab was acquired with (`inflate_behind`).
-/

namespace DevopsBroker.Compress

open DevopsBroker.Lib DevopsBroker.Io DevopsBroker.Lang

/-- The slab is not overrun. -/
def Inflate.Fits (inflate : Inflate) : Prop := inflate.outputBuffer.length ≤ INFLATE_OUTPUT_LENGTH

/-- Bytes are added to an OutputBuffer, within the slab, and those behind are left alone. -/
structure OutputBuffer.Extends (ob ob' : OutputBuffer) : Prop where
  length_le : ob.length ≤ ob'.length
  fits : ob.length ≤ INFLATE_OUTPUT_LENGTH → ob'.length ≤ INFLATE_OUTPUT_LENGTH
  behind : ∀ a, ob'.length ≤ a → ob'.buffer a = ob.buffer a

theorem OutputBuffer.Extends.refl (ob : OutputBuffer) : ob.Extends ob :=
  ⟨Nat.le_refl _, id, fun _ _ => rfl⟩

theorem OutputBuffer.Extends.trans {ob ob' ob'' : OutputBuffer} (h : ob.Extends ob')
    (h' : ob'.Extends ob'') : ob.Extends ob'' where
  length_le := Nat.le_trans h.length_le h'.length_le
  fits := h'.fits ∘ h.fits
  behind a ha := (h'.behind a ha).trans (h.behind a (Nat.le_trans h'.length_le ha))

/-- The state at the end of a round. -/
def Round.inflate : Round → Inflate
  | .next inflate _ => inflate
  | .done (_, inflate) => inflate

/-- A literal, where there is room for it. -/
theorem extends_literal {ob : OutputBuffer} (hnotFull : ob.length ≠ INFLATE_OUTPUT_LENGTH)
    (literal : UInt8) :
    ob.Extends ⟨Function.update ob.buffer ob.length literal, ob.length + 1⟩ where
  length_le := Nat.le_succ _
  fits h := by
    show ob.length + 1 ≤ INFLATE_OUTPUT_LENGTH
    omega
  behind a ha := Function.update_of_ne (Nat.ne_of_gt ha) _ _

theorem outputBackref_extends {ob ob' : OutputBuffer} {dist length : Nat}
    (hrun : outputBackref ob dist length = some ob') : ob.Extends ob' := by
  have hlz77 : ∀ a, ob.length + length ≤ a → lz77OutputBackref ob dist length a = ob.buffer a :=
    fun a ha => copyChunks_frame 1 length _ ob.buffer (by omega)
  unfold outputBackref roundUp8 at hrun
  split at hrun
  next hroom =>
    rw [← Option.some.inj hrun]
    refine ⟨Nat.le_add_right _ _, fun h => ?_, fun a ha => ?_⟩
    · dsimp only
      omega
    · unfold outputBackref64
      dsimp only at ha ⊢
      split
      next _ => exact hlz77 a ha
      next _ => exact memcopy_frame ob.buffer _ (Or.inr ha)
  next _ =>
    split at hrun
    next hroom =>
      rw [← Option.some.inj hrun]
      refine ⟨Nat.le_add_right _ _, fun h => ?_, hlz77⟩
      dsimp only
      omega
    next _ => cases hrun

theorem backrefRound_extends {distDecoder : HuffmanDecoder} {inflate : Inflate}
    {litlen numBitsUsed : Nat} {round : Round}
    (hrun : backrefRound distDecoder inflate litlen numBitsUsed = some round) :
    inflate.outputBuffer.Extends round.inflate.outputBuffer := by
  have hsame := OutputBuffer.Extends.refl inflate.outputBuffer
  unfold backrefRound at hrun
  generalize litlenTbl.getD (litlen - 257) (0, 0) = lengthEntry at hrun
  obtain ⟨⟨distSymbol, used⟩, _, hrun⟩ := Option.bind_eq_some_iff.mp hrun
  rcases hdist : distTbl.getD distSymbol.toNat (0, 0) with ⟨baseDist, distBits⟩
  simp only [hdist] at hrun
  split at hrun
  next _ =>
    rw [← Option.some.inj hrun]
    exact hsame
  next _ =>
    split at hrun
    next _ =>
      rw [← Option.some.inj hrun]
      exact hsame
    next _ =>
      split at hrun
      next _ =>
        rw [← Option.some.inj hrun]
        exact hsame
      next _ =>
        split at hrun
        next _ =>
          rw [← Option.some.inj hrun]
          exact hsame
        next ob hob =>
          rw [← Option.some.inj hrun]
          exact outputBackref_extends hob

/-- **A round adds to what is there.** -/
theorem literalBackrefRound_extends {mem : Mem} {litlenDecoder distDecoder : HuffmanDecoder}
    {inflate : Inflate} {numBitsUsed : Nat} {round : Round}
    (hrun : literalBackrefRound mem litlenDecoder distDecoder inflate numBitsUsed = some round) :
    inflate.outputBuffer.Extends round.inflate.outputBuffer := by
  have hsame := OutputBuffer.Extends.refl inflate.outputBuffer
  unfold literalBackrefRound at hrun
  obtain ⟨⟨litlen, used⟩, _, hrun⟩ := Option.bind_eq_some_iff.mp hrun
  dsimp only at hrun
  split at hrun
  next _ =>
    rw [← Option.some.inj hrun]
    exact hsame
  next _ =>
    split at hrun
    next _ =>
      split at hrun
      next _ =>
        rw [← Option.some.inj hrun]
        exact hsame
      next _ =>
        split at hrun
        next _ =>
          rw [← Option.some.inj hrun]
          exact hsame
        next hnotFull =>
          rw [← Option.some.inj hrun]
          exact extends_literal hnotFull _
    next _ =>
      split at hrun
      next _ =>
        split at hrun
        next _ =>
          rw [← Option.some.inj hrun]
          exact hsame
        next _ =>
          rw [← Option.some.inj hrun]
          exact hsame
      next _ =>
        have hbackref := backrefRound_extends hrun
        exact hbackref

theorem literalBackrefLoop_extends {mem : Mem} {litlenDecoder distDecoder : HuffmanDecoder}
    (fuel : Nat) :
    ∀ {inflate inflate' : Inflate} {numBitsUsed : Nat} {ok : Bool},
      literalBackrefLoop mem litlenDecoder distDecoder fuel inflate numBitsUsed =
        some (ok, inflate') → inflate.outputBuffer.Extends inflate'.outputBuffer := by
  induction fuel with
  | zero => exact fun hrun => nomatch hrun
  | succ fuel ih =>
    intro inflate inflate' numBitsUsed ok hrun
    rw [literalBackrefLoop] at hrun
    obtain ⟨round, hround, hrun⟩ := Option.bind_eq_some_iff.mp hrun
    have hextends := literalBackrefRound_extends hround
    cases round with
    | next inflate numBitsUsed => exact hextends.trans (ih hrun)
    | done result =>
      rw [Option.some.inj hrun] at hextends
      exact hextends

/-- Reading the codes does not touch the slab. -/
theorem initDynamicDecoder_output {mem : Mem} {garbage : Nat → Nat} {inflate : Inflate}
    {r : (Bool × Inflate) ⊕ (Inflate × HuffmanDecoder × HuffmanDecoder)}
    (hrun : initDynamicDecoder mem garbage inflate = some r) :
    (r.elim Prod.snd Prod.fst).outputBuffer = inflate.outputBuffer := by
  unfold initDynamicDecoder at hrun
  dsimp only at hrun
  split at hrun
  next _ =>
    rw [← Option.some.inj hrun]
    rfl
  next _ =>
    split at hrun
    next _ =>
      rw [← Option.some.inj hrun]
      rfl
    next _ =>
      obtain ⟨⟨ib, lengths⟩, _, hrun⟩ := Option.bind_eq_some_iff.mp hrun
      cases lengths with
      | error status =>
        rw [← Option.some.inj hrun]
        rfl
      | ok lengths =>
        rw [← Option.some.inj hrun]
        rfl

theorem processDynamicDeflateBlock_extends {mem : Mem} {garbage : Nat → Nat}
    {inflate inflate' : Inflate} {ok : Bool}
    (hrun : processDynamicDeflateBlock mem garbage inflate = some (ok, inflate')) :
    inflate.outputBuffer.Extends inflate'.outputBuffer := by
  unfold processDynamicDeflateBlock at hrun
  obtain ⟨r, hinit, hrun⟩ := Option.bind_eq_some_iff.mp hrun
  have houtput := initDynamicDecoder_output hinit
  rcases r with result | ⟨decoded, litlenDecoder, distDecoder⟩
  · rw [← houtput, Option.some.inj hrun]
    exact OutputBuffer.Extends.refl inflate'.outputBuffer
  · rw [← houtput]
    exact literalBackrefLoop_extends _ hrun

theorem inflateLoop_extends {mem : Mem} {garbage : Nat → Nat} (fuel : Nat) :
    ∀ {inflate inflate' : Inflate} {ok : Bool},
      inflateLoop mem garbage fuel inflate = some (ok, inflate') →
        inflate.outputBuffer.Extends inflate'.outputBuffer := by
  induction fuel with
  | zero => exact fun hrun => nomatch hrun
  | succ fuel ih =>
    intro inflate inflate' ok hrun
    have hsame := OutputBuffer.Extends.refl inflate.outputBuffer
    rw [inflateLoop] at hrun
    split at hrun
    next _ =>
      rw [← (Prod.mk.inj (Option.some.inj hrun)).2]
      exact hsame
    next _ =>
      dsimp only at hrun
      split at hrun
      next _ =>
        rw [← (Prod.mk.inj (Option.some.inj hrun)).2]
        exact hsame
      next _ =>
        split at hrun
        next _ =>
          obtain ⟨⟨okStatus, st⟩, hblock, hrun⟩ := Option.bind_eq_some_iff.mp hrun
          have hst := processDynamicDeflateBlock_extends hblock
          dsimp only at hrun
          split at hrun
          next _ => exact hst.trans (ih hrun)
          next _ =>
            split at hrun
            next _ =>
              rw [← (Prod.mk.inj (Option.some.inj hrun)).2]
              exact hst
            next _ =>
              rw [← (Prod.mk.inj (Option.some.inj hrun)).2]
              exact hst
        next _ =>
          dsimp only [Option.bind_some, bind, Option.bind] at hrun
          split at hrun
          next _ =>
            have hrest := ih hrun
            exact hrest
          next _ =>
            rw [← (Prod.mk.inj (Option.some.inj hrun)).2]
            exact hsame

/-- **`inflate` never stores more than a slab.** -/
theorem inflate_fits {mem : Mem} {garbage : Nat → Nat} {st st' : Inflate} {ok : Bool}
    (h : st.Fits) (hrun : inflate mem garbage st = some (ok, st')) : st'.Fits :=
  (inflateLoop_extends _ hrun).fits h

/-- **The slab behind what `inflate` stores is as it was acquired.** -/
theorem inflate_behind {mem : Mem} {garbage : Nat → Nat} {st st' : Inflate} {ok : Bool}
    (hrun : inflate mem garbage st = some (ok, st')) {a : Nat} (ha : st'.outputBuffer.length ≤ a) :
    st'.outputBuffer.buffer a = st.outputBuffer.buffer a :=
  (inflateLoop_extends _ hrun).behind a ha

end DevopsBroker.Compress
