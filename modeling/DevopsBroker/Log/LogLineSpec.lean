import DevopsBroker.Lang.StringCompareSpec
import DevopsBroker.Lib.Region
import DevopsBroker.Log.LogLine

/-!
# Clones of log lines

`initLogLine` leaves strings that end before the one that its `lineLength` counts up to, so that a copy
of so many bytes has them all: **`initLogLine_fields`**. `cloneLogLine` does not set a missing MAC
address, and takes a protocol with the text `IGMP` for the one that has no ports:
**`cloneLogLine_iff`**.
-/

namespace DevopsBroker.Log

open DevopsBroker.Lang DevopsBroker.Lib
open DevopsBroker.Text (Line)

/-- The string literals are in memory. -/
structure Literals.InMemory (literals : Literals) (mem : Mem) : Prop where
  in_ : TextAt mem literals.in_ IN
  out : TextAt mem literals.out OUT
  mac : TextAt mem literals.mac MAC
  src : TextAt mem literals.src SRC
  dst : TextAt mem literals.dst DST
  proto : TextAt mem literals.proto PROTO
  icmp : TextAt mem literals.icmp ICMP
  type : TextAt mem literals.type TYPE
  two : TextAt mem literals.two TWO
  igmp : TextAt mem literals.igmp IGMP
  igmp_ne : literals.igmp ≠ 0
  spt : TextAt mem literals.spt SPT
  dpt : TextAt mem literals.dpt DPT

/-! ## Fields -/

/-- Nothing is written but what is in between. -/
def KeptOutside (mem mem' : Mem) (start stop : Nat) : Prop :=
  ∀ a, a < start ∨ stop ≤ a → mem' a = mem a

theorem KeptOutside.refl (mem : Mem) (start stop : Nat) : KeptOutside mem mem start stop :=
  fun _ _ => rfl

theorem KeptOutside.trans {mem mem' mem'' : Mem} {start stop start' stop' : Nat}
    (h : KeptOutside mem mem' start stop) (h' : KeptOutside mem' mem'' start' stop')
    (hstart : start ≤ start') (hstop : stop ≤ stop') : KeptOutside mem mem'' start stop' :=
  fun a ha => (h' a (by omega)).trans (h a (by omega))

/-- A string that ends before an address. -/
def EndsBefore (mem : Mem) (stop field : Nat) : Prop :=
  ∃ text, TextAt mem field text ∧ field + text.length < stop

/-- It stays there when something is written behind. -/
theorem EndsBefore.mono {mem mem' : Mem} {stop field start stop' : Nat}
    (h : EndsBefore mem stop field) (hkept : KeptOutside mem mem' start stop') (hstart : stop ≤ start) :
    EndsBefore mem' stop field := by
  obtain ⟨text, htext, hlt⟩ := h
  exact ⟨text, htext.congr fun a _ ha => hkept a (Or.inl (by omega)), hlt⟩

theorem EndsBefore.le {mem : Mem} {stop stop' field : Nat} (h : EndsBefore mem stop field)
    (hle : stop ≤ stop') : EndsBefore mem stop' field := by
  obtain ⟨text, htext, hlt⟩ := h
  exact ⟨text, htext, Nat.lt_of_lt_of_le hlt hle⟩

/-- An address that a search has not gone back from: it is behind the start when a pattern was read. -/
def NotBack (mem : Mem) (pattern start address : Nat) : Prop :=
  start ≤ address ∧ (mem pattern ≠ 0 → start < address)

/-- The registers of `search`: when the pattern is at its end, some of the text was read for it. -/
def Ahead (mem : Mem) (pattern start : Nat) (registers : Cursor × Cursor) : Prop :=
  start ≤ registers.2.address ∧
    (registers.1.char = 0 → NotBack mem pattern start registers.2.address)

section

variable {mem : Mem} {pattern start : Nat} {c d : Cursor}

theorem ahead_next (hle : start ≤ d.address) : Ahead mem pattern start (c, d.next mem) := by
  have hnext : (d.next mem).address = d.address + 1 := Cursor.next_address ..
  refine ⟨?_, fun _ => ⟨?_, fun _ => ?_⟩⟩
  · dsimp only
    omega
  · dsimp only
    omega
  · dsimp only
    omega

theorem searchRound_ahead {turn : Turn (Cursor × Cursor) Nat} (h : Ahead mem pattern start (c, d))
    (hround : searchRound mem pattern (c, d) = some turn) :
    turn.Meets (Ahead mem pattern start) fun address =>
      address = 0 ∨ NotBack mem pattern start address := by
  obtain ⟨hle, hend⟩ := h
  unfold searchRound at hround
  dsimp only at hle hend hround
  split at hround
  next _ =>
    split at hround
    next hzero =>
      cases hround
      exact Or.inr (hend hzero)
    next _ =>
      split at hround
      next _ =>
        cases hround
        exact Or.inl rfl
      next _ =>
        cases hround
        exact ahead_next hle
  next _ =>
    split at hround
    next hzero =>
      cases hround
      exact Or.inr (hend hzero)
    next _ =>
      cases hround
      exact ahead_next hle

/-- **`search`** does not go back, and has read something when the pattern is no empty one. -/
theorem search_bounds {fuel address : Nat} (h : Lang.search fuel mem pattern start = some address) :
    address = 0 ∨ NotBack mem pattern start address := by
  have hchar : (Cursor.load mem pattern).char = mem pattern := by
    unfold Cursor.char Cursor.load
    rw [orBytes_eq_littleEndian, bytesAt_succ, lowByte_littleEndian, List.headD_cons]
  unfold Lang.search at h
  split at h
  next _ =>
    cases h
    exact Or.inl rfl
  next _ =>
    split at h
    next _ =>
      cases h
      exact Or.inl rfl
    next _ =>
      refine rounds_post (fun _ _ => searchRound_ahead) fuel ⟨Nat.le_refl _, fun hzero => ?_⟩ h
      exact ⟨Nat.le_refl _, fun hne => absurd (hchar.symm.trans hzero) hne⟩

end

/-- **`terminateField`** makes a string of the field. -/
theorem terminateField_some {fuel : Nat} {mem mem' : Mem} {field position : Nat}
    (h : terminateField fuel mem field = some (position, mem')) :
    field ≠ 0 ∧ field < position ∧ KeptOutside mem mem' field position ∧
      EndsBefore mem' position field := by
  unfold terminateField at h
  split at h
  next _ => cases h
  next hne =>
    obtain ⟨stop, hrounds, hend⟩ := Option.bind_eq_some_iff.mp h
    cases hend
    let passed (s : Nat) : Prop := ∃ text : List UInt8, s = field + text.length ∧ 0 ∉ text ∧
      bytesAt mem field text.length = text
    have hfield := @rounds_post _ _ (fieldRound mem) passed passed ?_ fuel _ _
      ⟨[], rfl, List.not_mem_nil, rfl⟩ hrounds
    · obtain ⟨text, rfl, hnul, hbytes⟩ := hfield
      refine ⟨hne, by omega, fun a ha => if_neg (by omega), text, ⟨hnul, ?_⟩, Nat.lt_succ_self _⟩
      rw [bytesAt_add, bytesAt_succ]
      refine congrArg₂ (· ++ ·) ((bytesAt_inj.mpr fun k hk => ?_).trans hbytes) ?_
      · exact if_neg (by omega)
      · exact congrArg (· :: []) (if_pos rfl)
    · rintro s turn ⟨text, rfl, hnul, hbytes⟩ hround
      unfold fieldRound at hround
      dsimp only at hround
      split at hround
      next hch =>
        cases hround
        refine ⟨text ++ [mem (field + text.length)], ?_, ?_, ?_⟩
        · rw [List.length_append, List.length_singleton, Nat.add_assoc]
        · rw [List.mem_append, List.mem_singleton]
          exact not_or.mpr ⟨hnul, Ne.symm hch.1⟩
        · rw [List.length_append, List.length_singleton, bytesAt_add, hbytes]
          rfl
      next _ =>
        cases hround
        exact ⟨text, rfl, hnul, hbytes⟩

/-- **A field that is found.** -/
theorem findField_some {fuel : Nat} {mem mem' : Mem} {pattern start field position : Nat}
    (h : findField fuel mem pattern start = some (field, position, mem')) :
    field ≠ 0 ∧ start ≤ field ∧ (mem pattern ≠ 0 → start < field) ∧ field < position ∧
      KeptOutside mem mem' start position ∧ EndsBefore mem' position field := by
  obtain ⟨found, hsearch, h⟩ := Option.bind_eq_some_iff.mp h
  obtain ⟨⟨stop, mem₁⟩, hterminate, hend⟩ := Option.bind_eq_some_iff.mp h
  cases hend
  obtain ⟨hne, hlt, hkept, hends⟩ := terminateField_some hterminate
  obtain ⟨hle, hstrict⟩ := (search_bounds hsearch).resolve_left hne
  exact ⟨hne, hle, hstrict, hlt, fun a ha => hkept a (by omega), hends⟩

/-- A field that may be missing. -/
theorem findOptional_some {fuel : Nat} {mem mem' : Mem} {pattern start field position : Nat}
    (h : findOptional fuel mem pattern start = some (field, position, mem')) :
    start ≤ position ∧ KeptOutside mem mem' start position ∧
      (field ≠ 0 → start ≤ field ∧ EndsBefore mem' position field) := by
  obtain ⟨found, hsearch, h⟩ := Option.bind_eq_some_iff.mp h
  split at h
  next hne =>
    obtain ⟨⟨stop, mem₁⟩, hterminate, hend⟩ := Option.bind_eq_some_iff.mp h
    cases hend
    obtain ⟨_, hlt, hkept, hends⟩ := terminateField_some hterminate
    obtain ⟨hle, _⟩ := (search_bounds hsearch).resolve_left hne
    exact ⟨by omega, fun a ha => hkept a (by omega), fun _ => ⟨hle, hends⟩⟩
  next hzero =>
    cases h
    exact ⟨Nat.le_refl _, .refl _ _ _, fun hne => absurd hne hzero⟩

/-- The protocol stays in the line, or is the constant without ports. -/
theorem readPorts_some {fuel : Nat} {literals : Literals} {mem mem' : Mem}
    {protocol start protocol' position : Nat} {sourcePort destPort : UInt32}
    (h : readPorts fuel literals mem protocol start =
      some (protocol', sourcePort, destPort, position, mem')) :
    start ≤ position ∧ KeptOutside mem mem' start position ∧
      (protocol' = protocol ∨ protocol' = literals.igmp ∧ sourcePort = 0 ∧ destPort = 0) := by
  obtain ⟨icmp, _, h⟩ := Option.bind_eq_some_iff.mp h
  split at h
  next _ =>
    obtain ⟨⟨field, stop, mem₁⟩, hfield, h⟩ := Option.bind_eq_some_iff.mp h
    obtain ⟨port, _, hend⟩ := Option.bind_eq_some_iff.mp h
    cases hend
    obtain ⟨_, hle, _, hlt, hkept, _⟩ := findField_some hfield
    exact ⟨by omega, hkept, Or.inl rfl⟩
  next _ =>
    obtain ⟨igmp, _, h⟩ := Option.bind_eq_some_iff.mp h
    split at h
    next _ =>
      cases h
      exact ⟨Nat.le_refl _, .refl _ _ _, Or.inr ⟨rfl, rfl, rfl⟩⟩
    next _ =>
      obtain ⟨⟨field, stop, mem₁⟩, hfield, h⟩ := Option.bind_eq_some_iff.mp h
      obtain ⟨port, _, h⟩ := Option.bind_eq_some_iff.mp h
      obtain ⟨⟨field₂, stop₂, mem₂⟩, hfield₂, h⟩ := Option.bind_eq_some_iff.mp h
      obtain ⟨port₂, _, hend⟩ := Option.bind_eq_some_iff.mp h
      cases hend
      obtain ⟨_, hle, _, hlt, hkept, _⟩ := findField_some hfield
      obtain ⟨_, hle₂, _, hlt₂, hkept₂, _⟩ := findField_some hfield₂
      exact ⟨by omega, hkept.trans hkept₂ (by omega) (by omega), Or.inl rfl⟩

/-- A string of a line, from its first field on. -/
def InLine (mem : Mem) (logLine : LogLine) (stop field : Nat) : Prop :=
  logLine.in_ ≤ field ∧ EndsBefore mem stop field

/-- What `initLogLine` leaves: the strings end before `stop`, and the line was read to `position`. -/
structure Fields (literals : Literals) (mem mem' : Mem) (line : Line) (logLine : LogLine)
    (stop position : Nat) : Prop where
  start : line.value < logLine.in_
  in_ : InLine mem' logLine stop logLine.in_
  out : InLine mem' logLine stop logLine.out
  macAddress : logLine.macAddress ≠ 0 → InLine mem' logLine stop logLine.macAddress
  sourceIPAddr : InLine mem' logLine stop logLine.sourceIPAddr
  destIPAddr : InLine mem' logLine stop logLine.destIPAddr
  protocol : InLine mem' logLine stop logLine.protocol ∨
    logLine.protocol = literals.igmp ∧ logLine.sourcePort = 0 ∧ logLine.destPort = 0
  stop_le : stop ≤ position
  lineLength : logLine.lineLength = UInt32.ofNat (stop - logLine.in_)
  kept : KeptOutside mem mem' line.value position

/-- **The fields of a line.** -/
theorem initLogLine_fields {fuel : Nat} {literals : Literals} {mem mem' : Mem} {line : Line}
    {logLine : LogLine} {position : Nat} (hin : mem literals.in_ ≠ 0)
    (h : initLogLine fuel literals mem line = some (logLine, position, mem')) :
    ∃ stop, Fields literals mem mem' line logLine stop position := by
  obtain ⟨⟨in_, p₁, mem₁⟩, hin_, h⟩ := Option.bind_eq_some_iff.mp h
  obtain ⟨⟨out, p₂, mem₂⟩, hout, h⟩ := Option.bind_eq_some_iff.mp h
  obtain ⟨⟨macAddress, p₃, mem₃⟩, hmac, h⟩ := Option.bind_eq_some_iff.mp h
  obtain ⟨⟨sourceIPAddr, p₄, mem₄⟩, hsource, h⟩ := Option.bind_eq_some_iff.mp h
  obtain ⟨⟨destIPAddr, p₅, mem₅⟩, hdest, h⟩ := Option.bind_eq_some_iff.mp h
  obtain ⟨⟨protocol, p₆, mem₆⟩, hprotocol, h⟩ := Option.bind_eq_some_iff.mp h
  obtain ⟨⟨protocol', sourcePort, destPort, p₇, mem₇⟩, hports, hend⟩ := Option.bind_eq_some_iff.mp h
  cases hend
  obtain ⟨_, _, hstart, hlt₁, hkept₁, hends₁⟩ := findField_some hin_
  obtain ⟨_, hle₂, _, hlt₂, hkept₂, hends₂⟩ := findField_some hout
  obtain ⟨hle₃, hkept₃, hends₃⟩ := findOptional_some hmac
  obtain ⟨_, hle₄, _, hlt₄, hkept₄, hends₄⟩ := findField_some hsource
  obtain ⟨_, hle₅, _, hlt₅, hkept₅, hends₅⟩ := findField_some hdest
  obtain ⟨_, hle₆, _, hlt₆, hkept₆, hends₆⟩ := findField_some hprotocol
  obtain ⟨hle₇, hkept₇, hprotocol'⟩ := readPorts_some hports
  have hstart := hstart hin
  -- what is written behind each field
  have hbehind₆ := hkept₆.trans hkept₇ (by omega) hle₇
  have hbehind₅ := hkept₅.trans hbehind₆ (by omega) (by omega)
  have hbehind₄ := hkept₄.trans hbehind₅ (by omega) (by omega)
  have hbehind₃ := hkept₃.trans hbehind₄ (by omega) (by omega)
  have hbehind₂ := hkept₂.trans hbehind₃ (by omega) (by omega)
  refine ⟨p₆, hstart, ⟨Nat.le_refl _, ?_⟩, ⟨?_, ?_⟩, fun hne => ⟨?_, ?_⟩, ⟨?_, ?_⟩, ⟨?_, ?_⟩, ?_, hle₇,
    rfl, hkept₁.trans hbehind₂ (by omega) (by omega)⟩
  · exact (hends₁.mono hbehind₂ (Nat.le_refl _)).le (by omega)
  · exact Nat.le_trans (Nat.le_of_lt hlt₁) hle₂
  · exact (hends₂.mono hbehind₃ (Nat.le_refl _)).le (by omega)
  · have hmacLe := (hends₃ hne).1
    dsimp only
    omega
  · exact ((hends₃ hne).2.mono hbehind₄ (Nat.le_refl _)).le (by omega)
  · dsimp only
    omega
  · exact (hends₄.mono hbehind₅ (Nat.le_refl _)).le (by omega)
  · dsimp only
    omega
  · exact (hends₅.mono hbehind₆ (Nat.le_refl _)).le (by omega)
  · rcases hprotocol' with rfl | hconstant
    · refine Or.inl ⟨?_, hends₆.mono hkept₇ (Nat.le_refl _)⟩
      dsimp only
      omega
    · exact Or.inr hconstant

/-! ## The copy -/

/-- `rep movsb`, where the objects are apart. -/
theorem repMovsb_eq {n : Nat} :
    ∀ {rsi rdi : Nat} (mem : Mem), rsi + n ≤ rdi ∨ rdi + n ≤ rsi →
      (repMovsb n rsi rdi mem).2 = moveBytes mem rsi rdi n := by
  have hchunks {n : Nat} : ∀ (rsi rdi : Nat) (mem : Mem),
      (repMovsb n rsi rdi mem).2 = copyChunks 1 n rsi rdi mem := by
    induction n with
    | zero => exact fun _ _ _ => rfl
    | succ n ih =>
      intro rsi rdi mem
      have hone : storeByte mem rdi (mem rsi) = moveBytes mem rsi rdi 1 := by
        funext a
        unfold storeByte moveBytes
        by_cases ha : a = rdi
        · rw [if_pos ha, if_pos (by omega), ha, Nat.sub_self, Nat.add_zero]
        · rw [if_neg ha, if_neg (by omega)]
      rw [repMovsb, copyChunks, ← hone]
      exact ih _ _ _
  intro rsi rdi mem hapart
  rw [hchunks, copyChunks_eq 1 n mem (by omega), Nat.one_mul]

/-- What `copyToBuffer` leaves: the bytes in the buffer, and everything outside of it. -/
theorem copyToBuffer_some {mem : Mem} {source buffer : Nat} {numBytes : UInt32} (hsource : source ≠ 0)
    (hbuffer : buffer ≠ 0) (hpos : 0 < numBytes.toNat)
    (hapart : source + numBytes.toNat ≤ buffer ∨ buffer + numBytes.toNat ≤ source) :
    (∀ k < numBytes.toNat, (copyToBuffer mem source buffer numBytes).2 (buffer + k) = mem (source + k)) ∧
      KeptOutside mem (copyToBuffer mem source buffer numBytes).2 buffer
        (buffer + numBytes.toNat + 1) := by
  have hne : numBytes ≠ 0 := by
    rintro rfl
    exact absurd hpos (Nat.lt_irrefl 0)
  have hcopy : (copyToBuffer mem source buffer numBytes).2 =
      storeByte (moveBytes mem source buffer numBytes.toNat) (buffer + numBytes.toNat) 0 := by
    rw [copyToBuffer, if_neg hsource, if_neg hbuffer, if_neg hne, ← repMovsb_eq mem hapart]
  rw [hcopy]
  refine ⟨fun k hk => ?_, fun a ha => ?_⟩
  · rw [storeByte, if_neg (by omega), moveBytes, if_pos (by omega), Nat.add_sub_cancel_left]
  · rw [storeByte, if_neg (by omega), moveBytes, if_neg (by omega)]

/-! ## The clone -/

/-- The string fields. -/
def stringFields : List (LogLine → Nat) :=
  [LogLine.in_, LogLine.out, LogLine.macAddress, LogLine.sourceIPAddr, LogLine.destIPAddr,
    LogLine.protocol]

/-- Two strings with the same text, or `NULL` twice. -/
def SameText (mem : Mem) (p q : Nat) : Prop :=
  p = 0 ∧ q = 0 ∨ p ≠ 0 ∧ q ≠ 0 ∧ ∃ text, TextAt mem p text ∧ TextAt mem q text

/-- What a clone is: it has the same strings and numbers, and its strings are in a buffer of its own. -/
structure ClonedFrom (literals : Literals) (mem : Mem) (logLine clone : LogLine) (buffer : Nat) :
    Prop where
  texts : ∀ field ∈ stringFields, SameText mem (field logLine) (field clone)
  own : ∀ field ∈ stringFields, field clone ≠ 0 → field clone ≠ literals.igmp →
    buffer ≤ field clone ∧ field clone < buffer + logLine.lineLength.toNat
  sourcePort : clone.sourcePort = logLine.sourcePort
  destPort : clone.destPort = logLine.destPort
  lineLength : clone.lineLength = logLine.lineLength
  count : clone.count = logLine.count

/-- A pointer into the copy. -/
def moved (logLine : LogLine) (buffer field : Nat) : Nat := buffer + field - logLine.in_

/-- What `cloneLogLine` sets, where the protocol was found to be the constant or not. -/
def cloned (literals : Literals) (logLine garbage : LogLine) (buffer : Nat) (igmp : Bool) : LogLine where
  in_ := buffer
  out := moved logLine buffer logLine.out
  macAddress :=
    if logLine.macAddress ≠ 0 then moved logLine buffer logLine.macAddress else garbage.macAddress
  sourceIPAddr := moved logLine buffer logLine.sourceIPAddr
  destIPAddr := moved logLine buffer logLine.destIPAddr
  protocol := if igmp then literals.igmp else moved logLine buffer logLine.protocol
  sourcePort := if igmp then 0 else logLine.sourcePort
  destPort := if igmp then 0 else logLine.destPort
  count := logLine.count
  lineLength := logLine.lineLength

theorem cloneLogLine_eq (fuel : Nat) (literals : Literals) (mem : Mem) (logLine garbage : LogLine)
    (buffer : Nat) :
    cloneLogLine fuel literals mem logLine garbage buffer =
      (isEqualIn fuel (copyToBuffer mem logLine.in_ buffer logLine.lineLength).2 literals.igmp
        logLine.protocol).map fun igmp => (cloned literals logLine garbage buffer igmp,
          (copyToBuffer mem logLine.in_ buffer logLine.lineLength).2) := by
  rw [Option.map_eq_bind]
  refine congrArg (Option.bind (isEqualIn fuel
    (copyToBuffer mem logLine.in_ buffer logLine.lineLength).2 literals.igmp logLine.protocol))
    (funext fun igmp => ?_)
  unfold cloned
  by_cases hmac : logLine.macAddress = 0
  · cases igmp <;> simp [hmac, moved]
  · cases igmp <;> simp [hmac, moved]

/-- **Without a MAC address** the clone keeps what its memory held. -/
theorem cloneLogLine_noMac {literals : Literals} {mem : Mem} {logLine : LogLine} {buffer : Nat}
    (hmac : logLine.macAddress = 0) :
    ¬ ∀ garbage, ∃ clone mem'',
      Returns (fun fuel => cloneLogLine fuel literals mem logLine garbage buffer) (clone, mem'') ∧
        ClonedFrom literals mem'' logLine clone buffer := by
  intro hcloned
  obtain ⟨clone, mem'', ⟨enough, hrun⟩, hclone⟩ := hcloned { logLine with macAddress := 1 }
  have hsome := hrun enough (Nat.le_refl enough)
  dsimp only at hsome
  rw [cloneLogLine_eq] at hsome
  obtain ⟨igmp, _, hend⟩ := Option.map_eq_some_iff.mp hsome
  cases hend
  have hone : (cloned literals logLine { logLine with macAddress := 1 } buffer igmp).macAddress = 1 :=
    if_neg (not_not.mpr hmac)
  have hsame := hclone.texts LogLine.macAddress (by simp [stringFields])
  rw [hone] at hsame
  rcases hsame with ⟨_, hzero⟩ | ⟨hne, _⟩
  · cases hzero
  · exact hne hmac

section

variable {literals : Literals} {mem mem' : Mem} {line : Line} {logLine : LogLine}
  {stop position buffer : Nat}

/-- Where the new buffer is, and the constant. -/
structure Allocated (literals : Literals) (line : Line) (logLine : LogLine) (buffer : Nat) : Prop where
  ne : buffer ≠ 0
  apartLine : (Region.mk buffer (logLine.lineLength.toNat + 1)).Apart ⟨line.value, line.length + 1⟩
  apartIgmp : (Region.mk buffer (logLine.lineLength.toNat + 1)).Apart ⟨literals.igmp, 5⟩
  constant : (Region.mk literals.igmp 5).Apart ⟨line.value, line.length + 1⟩

/-- The fields of a line are in it. -/
theorem Fields.lineLength_eq (h : Fields literals mem mem' line logLine stop position)
    (hline : position ≤ line.value + line.length + 1) (hlength : line.length < 2 ^ 32) :
    logLine.in_ + logLine.lineLength.toNat = stop ∧ 0 < logLine.lineLength.toNat := by
  obtain ⟨_, text, _, hlt⟩ := h.in_
  have hstart := h.start
  have hstop := h.stop_le
  rw [h.lineLength, UInt32.toNat_ofNat', Nat.mod_eq_of_lt (by omega)]
  omega

/-- What is in memory when the copy is made. -/
structure Copied (literals : Literals) (mem' mem'' : Mem) (logLine : LogLine) (stop buffer : Nat) :
    Prop where
  igmp : TextAt mem'' literals.igmp IGMP
  kept : ∀ a, logLine.in_ ≤ a → a < stop → mem'' a = mem' a
  copy : ∀ a, logLine.in_ ≤ a → a < stop → mem'' (buffer + a - logLine.in_) = mem' a

theorem copied_of_fields (hliterals : literals.InMemory mem)
    (h : Fields literals mem mem' line logLine stop position)
    (hline : position ≤ line.value + line.length + 1) (hlength : line.length < 2 ^ 32)
    (hbuffer : Allocated literals line logLine buffer) :
    Copied literals mem' (copyToBuffer mem' logLine.in_ buffer logLine.lineLength).2 logLine stop
      buffer := by
  obtain ⟨hne, happart, higmp, hconstant⟩ := hbuffer
  obtain ⟨hend, hpos⟩ := h.lineLength_eq hline hlength
  have hstart := h.start
  have hstop := h.stop_le
  unfold Region.Apart at happart higmp hconstant
  dsimp only at happart higmp hconstant
  obtain ⟨hbytes, hkept⟩ := @copyToBuffer_some mem' logLine.in_ buffer logLine.lineLength (by omega)
    hne hpos (by omega)
  have higmpLength : IGMP.length = 4 := rfl
  refine ⟨(hliterals.igmp.congr fun a hle hge => h.kept a ?_).congr fun a hle hge => hkept a ?_,
    fun a hle hlt => hkept a (by omega), fun a hle hlt => ?_⟩
  · omega
  · omega
  · have hbyte := hbytes (a - logLine.in_) (by omega)
    rw [Nat.add_sub_cancel' hle] at hbyte
    rw [Nat.add_sub_assoc hle, hbyte]

/-- **A string of the line is in the copy.** -/
theorem Copied.moved {mem'' : Mem} {field : Nat} (h : Copied literals mem' mem'' logLine stop buffer)
    (hne : buffer ≠ 0) (hin : logLine.in_ ≠ 0) (hfield : InLine mem' logLine stop field) :
    SameText mem'' field (Log.moved logLine buffer field) ∧
      buffer ≤ Log.moved logLine buffer field ∧
      Log.moved logLine buffer field + logLine.in_ < buffer + stop := by
  obtain ⟨hle, text, htext, hlt⟩ := hfield
  unfold Log.moved
  refine ⟨Or.inr ⟨by omega, by omega, text, htext.congr fun a hle' hge => h.kept a (by omega) (by omega),
    htext.noNul, ?_⟩, by omega, by omega⟩
  rw [← htext.bytes]
  refine bytesAt_inj.mpr fun k hk => ?_
  have hcopy := h.copy (field + k) (by omega) (by omega)
  rw [← hcopy]
  congr 1
  omega

/-- The text of the protocol. -/
theorem Fields.protocol_text (hliterals : literals.InMemory mem)
    (h : Fields literals mem mem' line logLine stop position) {mem'' : Mem}
    (hline : position ≤ line.value + line.length + 1) (hbuffer : Allocated literals line logLine buffer)
    (hcopied : Copied literals mem' mem'' logLine stop buffer) :
    ∃ text, TextAt mem' logLine.protocol text ∧ TextAt mem'' logLine.protocol text ∧
      logLine.protocol ≠ 0 ∧ (text ≠ IGMP → InLine mem' logLine stop logLine.protocol) := by
  have hstart := h.start
  rcases h.protocol with ⟨hle, text, htext, hlt⟩ | ⟨hconstant, _, _⟩
  · exact ⟨text, htext, htext.congr fun a hle' hge => hcopied.kept a (by omega) (by omega), by omega,
      fun _ => ⟨hle, text, htext, hlt⟩⟩
  · rw [hconstant]
    have hapart := hbuffer.constant
    unfold Region.Apart at hapart
    dsimp only at hapart
    have higmpLength : IGMP.length = 4 := rfl
    exact ⟨IGMP, hliterals.igmp.congr fun a hle hge => h.kept a (by omega), hcopied.igmp,
      hliterals.igmp_ne, fun hne => absurd rfl hne⟩

/-- A clone has the strings of the line, and what is known of its protocol and its ports. -/
theorem clonedFrom_cloned {mem'' : Mem} {igmp : Bool} (garbage : LogLine)
    (h : Fields literals mem mem' line logLine stop position)
    (hline : position ≤ line.value + line.length + 1) (hlength : line.length < 2 ^ 32)
    (hbuffer : Allocated literals line logLine buffer)
    (hcopied : Copied literals mem' mem'' logLine stop buffer) (hmac : logLine.macAddress ≠ 0)
    (hprotocol : igmp = true ∧ SameText mem'' logLine.protocol literals.igmp ∧
        logLine.sourcePort = 0 ∧ logLine.destPort = 0 ∨
      igmp = false ∧ InLine mem' logLine stop logLine.protocol) :
    ClonedFrom literals mem'' logLine (cloned literals logLine garbage buffer igmp) buffer := by
  obtain ⟨hend, _⟩ := h.lineLength_eq hline hlength
  have hstart := h.start
  have hfield {field : Nat} (hfield : InLine mem' logLine stop field) :
      SameText mem'' field (moved logLine buffer field) ∧ (buffer ≤ moved logLine buffer field ∧
        moved logLine buffer field < buffer + logLine.lineLength.toNat) := by
    obtain ⟨hsame, hle, hlt⟩ := hcopied.moved hbuffer.ne (by omega) hfield
    exact ⟨hsame, hle, by omega⟩
  have hself : moved logLine buffer logLine.in_ = buffer := Nat.add_sub_cancel ..
  have hin := hfield h.in_
  have hout := hfield h.out
  have hmacField := hfield (h.macAddress hmac)
  have hsource := hfield h.sourceIPAddr
  have hdest := hfield h.destIPAddr
  rw [hself] at hin
  rcases hprotocol with ⟨rfl, hconstant, hsourcePort, hdestPort⟩ | ⟨rfl, hprotocol⟩
  · refine ⟨?_, ?_, hsourcePort.symm, hdestPort.symm, rfl, rfl⟩
    · simp only [stringFields, List.forall_mem_cons, cloned, if_pos hmac, if_true]
      exact ⟨hin.1, hout.1, hmacField.1, hsource.1, hdest.1, hconstant, List.forall_mem_nil _⟩
    · simp only [stringFields, List.forall_mem_cons, cloned, if_pos hmac, if_true]
      exact ⟨fun _ _ => hin.2, fun _ _ => hout.2, fun _ _ => hmacField.2, fun _ _ => hsource.2,
        fun _ _ => hdest.2, fun _ hne => absurd rfl hne, List.forall_mem_nil _⟩
  · have hprotocolField := hfield hprotocol
    refine ⟨?_, ?_, rfl, rfl, rfl, rfl⟩
    · simp only [stringFields, List.forall_mem_cons, cloned, if_pos hmac, Bool.false_eq_true, if_false]
      exact ⟨hin.1, hout.1, hmacField.1, hsource.1, hdest.1, hprotocolField.1, List.forall_mem_nil _⟩
    · simp only [stringFields, List.forall_mem_cons, cloned, if_pos hmac, Bool.false_eq_true, if_false]
      exact ⟨fun _ _ => hin.2, fun _ _ => hout.2, fun _ _ => hmacField.2, fun _ _ => hsource.2,
        fun _ _ => hdest.2, fun _ _ => hprotocolField.2, List.forall_mem_nil _⟩

/-- **A clone is one exactly when there is a MAC address, and a protocol with the text `IGMP` has no
ports.** -/
theorem cloneLogLine_iff {fuel : Nat} (hliterals : literals.InMemory mem)
    (hinit : initLogLine fuel literals mem line = some (logLine, position, mem'))
    (hline : position ≤ line.value + line.length + 1) (hlength : line.length < 2 ^ 32)
    (hbuffer : Allocated literals line logLine buffer) :
    (∀ garbage, ∃ clone mem'',
        Returns (fun fuel => cloneLogLine fuel literals mem' logLine garbage buffer) (clone, mem'') ∧
          ClonedFrom literals mem'' logLine clone buffer) ↔
      logLine.macAddress ≠ 0 ∧
        (TextAt mem' logLine.protocol IGMP → logLine.sourcePort = 0 ∧ logLine.destPort = 0) := by
  have hin : mem literals.in_ ≠ 0 := by
    rw [hliterals.in_.char]
    decide
  obtain ⟨stop, hfields⟩ := initLogLine_fields hin hinit
  have hcopied := copied_of_fields hliterals hfields hline hlength hbuffer
  obtain ⟨text, htext, htext'', hprotocol, hinLine⟩ :=
    hfields.protocol_text hliterals hline hbuffer hcopied
  have hequal := isEqualIn_returns hliterals.igmp_ne hprotocol hcopied.igmp htext''
  have hrun (garbage : LogLine) :
      Returns (fun fuel => cloneLogLine fuel literals mem' logLine garbage buffer)
        (cloned literals logLine garbage buffer (isEqual IGMP text),
          (copyToBuffer mem' logLine.in_ buffer logLine.lineLength).2) := by
    simp only [cloneLogLine_eq]
    exact hequal.map _
  constructor
  · intro hcloned
    refine ⟨fun hmac => cloneLogLine_noMac hmac hcloned, fun higmp => ?_⟩
    obtain ⟨clone, mem'', hrun', hclone⟩ := hcloned logLine
    obtain rfl := htext.unique higmp
    rw [isEqual_iff.mpr rfl] at hrun
    cases (hrun _).unique hrun'
    exact ⟨hclone.sourcePort.symm, hclone.destPort.symm⟩
  · rintro ⟨hmac, hports⟩ garbage
    refine ⟨_, _, hrun garbage, clonedFrom_cloned garbage hfields hline hlength hbuffer hcopied hmac ?_⟩
    by_cases heq : text = IGMP
    · subst heq
      exact Or.inl ⟨isEqual_iff.mpr rfl,
        Or.inr ⟨hprotocol, hliterals.igmp_ne, IGMP, htext'', hcopied.igmp⟩, hports htext⟩
    · exact Or.inr ⟨Bool.eq_false_iff.mpr fun h => heq (isEqual_iff.mp h).symm, hinLine heq⟩

end

/-! ## Lines without ports -/

/-- The literals, each of them behind a `NUL`, and a line behind them. -/
def lineMem (line : List UInt8) : Mem :=
  textMem ([IN, OUT, MAC, SRC, DST, PROTO, ICMP, TYPE, TWO, IGMP, SPT, DPT].flatMap (0 :: ·) ++ 0 :: line)

/-- Where they are then. -/
def lineLiterals : Literals := ⟨1, 5, 10, 15, 20, 25, 32, 37, 43, 45, 50, 55⟩

theorem lineLiterals_inMemory (line : List UInt8) : lineLiterals.InMemory (lineMem line) where
  in_ := ⟨by decide, rfl⟩
  out := ⟨by decide, rfl⟩
  mac := ⟨by decide, rfl⟩
  src := ⟨by decide, rfl⟩
  dst := ⟨by decide, rfl⟩
  proto := ⟨by decide, rfl⟩
  icmp := ⟨by decide, rfl⟩
  type := ⟨by decide, rfl⟩
  two := ⟨by decide, rfl⟩
  igmp := ⟨by decide, rfl⟩
  igmp_ne := by decide
  spt := ⟨by decide, rfl⟩
  dpt := ⟨by decide, rfl⟩

/-- `IN=a OUT=`, a MAC address or none, and `SRC=s DST=d PROTO=2`. -/
def igmpLine (mac : List UInt8) : List UInt8 :=
  IN ++ [0x61, SPACE] ++ OUT ++ [SPACE] ++ mac ++ SRC ++ [0x73, SPACE] ++ DST ++ [0x64, SPACE] ++
    PROTO ++ TWO

/-- The result of a run that gives some fields and a position. -/
theorem exists_mem_of_map {run : Option (LogLine × Nat × Mem)} {logLine : LogLine} {position : Nat}
    (h : run.map (fun result => (result.1, result.2.1)) = some (logLine, position)) :
    ∃ mem', run = some (logLine, position, mem') := by
  obtain ⟨⟨logLine', position', mem'⟩, hrun, hfields⟩ := Option.map_eq_some_iff.mp h
  cases hfields
  exact ⟨mem', hrun⟩

/-- `IN=a OUT= MAC=m SRC=s DST=d PROTO=2`. -/
theorem cloneLogLine_iff_mac :
    ∃ logLine mem', initLogLine 100 lineLiterals (lineMem (igmpLine (MAC ++ [0x6D, SPACE]))) ⟨60, 35⟩ =
        some (logLine, 96, mem') ∧
      ((∀ garbage, ∃ clone mem'', Returns (fun fuel =>
          cloneLogLine fuel lineLiterals mem' logLine garbage 200) (clone, mem'') ∧
            ClonedFrom lineLiterals mem'' logLine clone 200) ↔
        logLine.macAddress ≠ 0 ∧
          (TextAt mem' logLine.protocol IGMP → logLine.sourcePort = 0 ∧ logLine.destPort = 0)) := by
  obtain ⟨mem', hinit⟩ := @exists_mem_of_map
    (initLogLine 100 lineLiterals (lineMem (igmpLine (MAC ++ [0x6D, SPACE]))) ⟨60, 35⟩)
    ⟨63, 69, 74, 80, 86, 45, 0, 0, 1, 33⟩ 96 (by decide +kernel)
  refine ⟨_, mem', hinit, cloneLogLine_iff (lineLiterals_inMemory _) hinit ?_ ?_ ⟨?_, ?_, ?_, ?_⟩⟩
  · decide
  · decide
  · decide
  · exact Or.inr (by decide)
  · exact Or.inr (by decide)
  · exact Or.inl (by decide)

/-- `IN=a OUT= SRC=s DST=d PROTO=2`: the clone keeps what its memory held. -/
theorem cloneLogLine_garbage :
    ∃ logLine mem', initLogLine 100 lineLiterals (lineMem (igmpLine [])) ⟨60, 29⟩ =
        some (logLine, 90, mem') ∧
      ¬ ∀ garbage, ∃ clone mem'', Returns (fun fuel =>
          cloneLogLine fuel lineLiterals mem' logLine garbage 200) (clone, mem'') ∧
            ClonedFrom lineLiterals mem'' logLine clone 200 := by
  obtain ⟨mem', hinit⟩ := @exists_mem_of_map
    (initLogLine 100 lineLiterals (lineMem (igmpLine [])) ⟨60, 29⟩)
    ⟨63, 69, 0, 74, 80, 45, 0, 0, 1, 27⟩ 90 (by decide +kernel)
  exact ⟨_, mem', hinit, cloneLogLine_noMac rfl⟩

end DevopsBroker.Log
