import DevopsBroker.Io.AsyncRuns
import DevopsBroker.Io.FileBufferListSpec

/-!
# What a read of a list reads

An AIOFile is read call by call, and the kernel completes reads with the bytes of the file,
in any order, some in a later call than the one that issued them. The FileBuffers of a list
are in the order of the completions. **`run_reads_iff`**: in every run, a list is what the
call asked for exactly when the completions that the call gets are those of the reads at
its offset, and at every page behind it, in this order, up to the last one that is needed,
and not beyond the end of the file.

`Solo` is the invariant of such a run: all that the kernel holds was issued by one call, so
that offsets differ by whole pages.
-/

namespace DevopsBroker.Io.Aio

open DevopsBroker.Lib

/-! ## Lists of completed reads -/

/-- How many bytes a read of a page gives, in a file of so many bytes. -/
def bytesRead (size offset : Int) : Int := max 0 (min 4096 (size - offset))

/-- How many bytes a call is to read: as asked for, but only 32768 and not beyond the end. -/
def bytesNeeded (size offset length : Int) : Int :=
  max 0 (min (min length ASYNC_AIOTICKET_MAXSIZE) (size - offset))

/-- FileBuffers in increasing order, each where the one before it ends, from an offset on,
with so many bytes. -/
structure Covers (buffers : List FileBuffer) (offset needed : Int) : Prop where
  ordered : buffers.IsChain fun a b => a.fileOffset < b.fileOffset ∧ b.fileOffset = a.fileEnd
  begins : ∀ b ∈ buffers.head?, b.fileOffset = offset
  covers : needed ≤ totalBytes buffers

/-- The FileBuffer of a read that was completed. -/
def ReadFrom (size : Int) (b : FileBuffer) : Prop :=
  (b.numBytes : Int) = bytesRead size b.fileOffset

/-- The pages from an offset on, one after another. -/
def Successive (offset : Int) (offsets : List Int) : Prop :=
  ∀ (i : Nat) (o : Int), offsets[i]? = some o → o = offset + 4096 * i

theorem successive_cons {offset o : Int} {offsets : List Int} :
    Successive offset (o :: offsets) ↔ o = offset ∧ Successive (offset + 4096) offsets := by
  constructor
  · intro h
    refine ⟨(h 0 o rfl).trans (by simp), fun i o' ho => ?_⟩
    have ho := h (i + 1) o' ho
    push_cast at ho
    omega
  · rintro ⟨rfl, h⟩ i o' ho
    rcases i with _ | i
    · obtain rfl := Option.some.inj ho
      simp
    · have ho := h i o' ho
      push_cast
      omega

/-- Completed reads at whole pages are in order when none of them but the last is short. -/
theorem ordered_iff (size base : Int) :
    ∀ (buffers : List FileBuffer) (offset : Int),
      (∀ b ∈ buffers, ReadFrom size b ∧ ∃ j : Int, b.fileOffset = base + 4096 * j) →
      ((buffers.IsChain fun a b => a.fileOffset < b.fileOffset ∧ b.fileOffset = a.fileEnd) ∧
          (∀ b ∈ buffers.head?, b.fileOffset = offset) ↔
        Successive offset (buffers.map FileBuffer.fileOffset) ∧
          (1 < buffers.length → offset + 4096 * ((buffers.length : Int) - 1) ≤ size)) := by
  intro buffers
  induction buffers with
  | nil =>
    intro offset _
    exact ⟨fun _ => ⟨nofun, nofun⟩, fun _ => ⟨List.isChain_nil, nofun⟩⟩
  | cons a rest ih =>
    intro offset h
    obtain ⟨hread, j, hj⟩ := h a (List.mem_cons_self ..)
    have hrest := fun b hb => h b (List.mem_cons_of_mem a hb)
    have hend : a.fileEnd = a.fileOffset + a.numBytes := rfl
    unfold ReadFrom bytesRead at hread
    rw [List.map_cons, successive_cons]
    cases rest with
    | nil =>
      refine ⟨fun hin => ⟨⟨hin.2 a rfl, nofun⟩, fun hlt => absurd hlt (Nat.lt_irrefl 1)⟩,
        fun hin => ⟨List.isChain_singleton a, fun b hb => ?_⟩⟩
      rw [← Option.some.inj hb]
      exact hin.1.1
    | cons b rest =>
      obtain ⟨_, j', hj'⟩ := hrest b (List.mem_cons_self ..)
      have hstep := ih (offset + 4096) hrest
      simp only [List.length_cons] at hstep ⊢
      rw [List.isChain_cons_cons]
      constructor
      · rintro ⟨⟨⟨hlt, hnext⟩, hchain⟩, hhead⟩
        have hfirst := hhead a rfl
        -- a page that is not the last one is full
        have hfull : (a.numBytes : Int) = 4096 := by omega
        obtain ⟨hothers, hinside⟩ := hstep.mp ⟨hchain, fun c hc => by
          rw [← Option.some.inj hc]
          omega⟩
        refine ⟨⟨hfirst, hothers⟩, fun _ => ?_⟩
        by_cases hmore : 1 < rest.length + 1
        · have := hinside hmore
          omega
        · omega
      · rintro ⟨⟨hfirst, hothers⟩, hinside⟩
        have hend' := hinside (by omega)
        obtain ⟨hchain, hhead⟩ := hstep.mpr ⟨hothers, fun _ => by omega⟩
        have hsecond := hhead b rfl
        refine ⟨⟨⟨by omega, by omega⟩, hchain⟩, fun c hc => ?_⟩
        rw [← Option.some.inj hc]
        exact hfirst

/-- How much completed reads in order give. -/
theorem totalBytes_iff (size : Int) :
    ∀ (buffers : List FileBuffer) (offset : Int), (∀ b ∈ buffers, ReadFrom size b) →
      Successive offset (buffers.map FileBuffer.fileOffset) →
      totalBytes buffers = max 0 (min (4096 * (buffers.length : Int)) (size - offset)) := by
  intro buffers
  induction buffers with
  | nil =>
    intro offset _ _
    show (0 : Int) = _
    rw [List.length_nil]
    omega
  | cons a rest ih =>
    intro offset h hoffsets
    rw [List.map_cons, successive_cons] at hoffsets
    have hread := h a (List.mem_cons_self ..)
    have hrest := ih (offset + 4096) (fun b hb => h b (List.mem_cons_of_mem a hb)) hoffsets.2
    have htotal : totalBytes (a :: rest) = a.numBytes + totalBytes rest := List.sum_cons
    unfold ReadFrom bytesRead at hread
    rw [htotal, hrest, List.length_cons]
    omega

/-- **Completed reads are what was asked for exactly when** they are those of successive
pages, as many as are needed, and none but the first beyond the end of the file. -/
theorem covers_iff {size base offset length : Int} {buffers : List FileBuffer}
    (h : ∀ b ∈ buffers, ReadFrom size b ∧ ∃ j : Int, b.fileOffset = base + 4096 * j) :
    Covers buffers offset (bytesNeeded size offset length) ↔
      Successive offset (buffers.map FileBuffer.fileOffset) ∧
        (1 < buffers.length → offset + 4096 * ((buffers.length : Int) - 1) ≤ size) ∧
        bytesNeeded size offset length ≤ 4096 * buffers.length := by
  have hordered := ordered_iff size base buffers offset h
  have htotal := totalBytes_iff size buffers offset fun b hb => (h b hb).1
  constructor
  · intro hcovers
    obtain ⟨hoffsets, hinside⟩ := hordered.mp ⟨hcovers.ordered, hcovers.begins⟩
    have hle := hcovers.covers
    rw [htotal hoffsets] at hle
    exact ⟨hoffsets, hinside, by omega⟩
  · rintro ⟨hoffsets, hinside, hle⟩
    obtain ⟨hchain, hhead⟩ := hordered.mpr ⟨hoffsets, hinside⟩
    refine ⟨hchain, hhead, ?_⟩
    rw [htotal hoffsets]
    unfold bytesNeeded at hle ⊢
    omega

/-! ## One AIOFile -/

section

variable {φ : Type} [DecidableEq φ]

/-- What a read gives, in a file of so many bytes. -/
def resultOf (size : Int) (iocb : AIORequest) : Int :=
  max 0 (min iocb.aio_nbytes (size - iocb.aio_offset))

/-- A call on an AIOFile, which the kernel answers with completions, each with what its read
gives. -/
def Delivers (size : Int) (f : φ) (s : Aio φ) : AioCall φ → Prop
  | .seek g _ => g = f
  | .readFileBuffer _ _ _ _ => False
  | .readFileBufferList g _ length pages kernel =>
    g = f ∧ ∃ events, kernel.ioGetEvents = some events ∧
      ∀ s', s.issueReads f length pages kernel.ioSubmit = some s' →
        ∀ event ∈ events, ∀ e ∈ s'.inFlight, e.request = event.obj →
          event.res = resultOf size e.iocb

/-- The reads that complete in a call are those of successive pages from the offset of the
AIOFile on, in this order, as many as are needed, and none but the first beyond the end. -/
def CompletesInOrder (size : Int) (s : Aio φ) (f : φ) (length : Int) (pages : Nat → Nat)
    (kernel : Kernel) : Prop :=
  ∃ s' events, s.issueReads f length pages kernel.ioSubmit = some s' ∧
    kernel.ioGetEvents = some events ∧
    Successive (s.files f).offset (events.map fun event => (s'.requests event.obj).aio_offset) ∧
    (1 < events.length → (s.files f).offset + 4096 * ((events.length : Int) - 1) ≤ size) ∧
    bytesNeeded size (s.files f).offset length ≤ 4096 * events.length

/-- The list of a call is what it asked for exactly when the reads complete in order. -/
def ReadsIff (size : Int) (s : Aio φ) : AioCall φ → Prop
  | .readFileBufferList f bufferList length pages kernel =>
    ∀ result s', s.readFileBufferList f bufferList length pages kernel = some (result, s') →
      (Covers result.values (s.files f).offset (bytesNeeded size (s.files f).offset length) ↔
        CompletesInOrder size s f length pages kernel)
  | _ => True

/-- Behind `issueReads`: the ticket has all that the kernel holds, reads of whole pages. When
nothing of the call was dropped, its requests are not in the pool. -/
structure Mid (s : Aio φ) (f : φ) : Prop where
  items : s.requestQueue.items = []
  counted : (s.files f).aioTicket.numEvents + s.inFlight.length ≤ (s.files f).aioTicket.numRequests
  requested : (s.files f).aioTicket.numRequests ≤
    (s.files f).aioTicket.numEvents + (s.files f).numRequestsRemaining
  bounded : (s.files f).aioTicket.numEvents + (s.files f).numRequestsRemaining ≤ 8
  synced : ∀ e ∈ s.inFlight, s.requests e.request = e.iocb
  pages : ∃ base : Int, ∀ e ∈ s.inFlight,
    e.iocb.aio_nbytes = MEMORY_PAGE_SIZE ∧ ∃ j : Int, e.iocb.aio_offset = base + 4096 * j
  complete : (s.files f).aioTicket.numRequests =
      (s.files f).aioTicket.numEvents + (s.files f).numRequestsRemaining →
    PoolOk s ∧ ((s.files f).aioTicket.requestList.take (s.files f).aioTicket.numRequests).Nodup ∧
      ∀ r ∈ (s.files f).aioTicket.requestList.take (s.files f).aioTicket.numRequests,
        r ∉ s.pool ∧ r < s.fresh

/-- Between calls: nothing remains, and the kernel holds nothing; or something remains. -/
structure Solo (s : Aio φ) (f : φ) : Prop where
  items : s.requestQueue.items = []
  state : ((s.files f).numRequestsRemaining = 0 ∧ s.inFlight = [] ∧ PoolOk s) ∨
    (0 < (s.files f).numRequestsRemaining ∧ Mid s f)

/-- **Issuing reads**: the kernel holds requests of one call only. -/
theorem Solo.issue {s s' : Aio φ} {f : φ} {length : Int} {pages : Nat → Nat} {ioSubmit : Int}
    (h : Solo s f) (hrun : s.issueReads f length pages ioSubmit = some s') : Mid s' f := by
  rcases h.state with ⟨hzero, hnone, hp⟩ | ⟨hpos, hmid⟩
  · rcases issueReads_eq hp h.items hrun with ⟨hpos, _⟩ | ⟨_, reqs, hissued, hblocks⟩
    · omega
    have hle := hissued.taken_le
    have hlength := hissued.length
    rw [List.length_map, List.length_range] at hlength
    have hblocks_le := numBlocksOf_le length
    have hinFlight := hissued.inFlight
    rw [hnone, List.nil_append] at hinFlight
    refine
      { items := hissued.items
        counted := ?_
        requested := ?_
        bounded := ?_
        synced := fun e he => ?_
        pages := ⟨(s.files f).offset, fun e he => ?_⟩
        complete := fun _ => ⟨hissued.took.poolOk hp, ?_, ?_⟩ }
    · rw [hissued.numEvents, hissued.numRequests, hinFlight, List.length_map, List.length_take]
      omega
    · rw [hissued.numEvents, hissued.numRequests, hblocks]
      omega
    · rw [hissued.numEvents, hblocks]
      omega
    · rw [hinFlight] at he
      obtain ⟨r, _, rfl⟩ := List.mem_map.mp he
      rfl
    · rw [hinFlight] at he
      obtain ⟨r, hr, rfl⟩ := List.mem_map.mp he
      obtain ⟨i, hi⟩ := List.mem_iff_getElem?.mp (List.mem_of_mem_take hr)
      obtain ⟨page, _, hread⟩ := hissued.reads i r hi
      dsimp only
      rw [hread]
      refine ⟨rfl, (i : Int), ?_⟩
      unfold MEMORY_PAGE_SIZE
      push_cast
      rfl
    · rw [hissued.numRequests, hissued.requestList]
      exact hissued.took.nodup
    · rw [hissued.numRequests, hissued.requestList]
      exact fun r hr => ⟨hissued.took.notMem_pool r hr, hissued.took.lt_fresh r hr⟩
  · rw [issueReads, if_pos hpos] at hrun
    rw [← Option.some.inj hrun]
    exact hmid

omit [DecidableEq φ] in
/-- No more requests complete than remain. -/
theorem Mid.collected_le {s s' : Aio φ} {f : φ} {events : List AIOEvent} (h : Mid s f)
    (hcollected : Collected s f events s') :
    events.length ≤ (s.files f).numRequestsRemaining := by
  have hlength := hcollected.length
  have hcounted := h.counted
  have hrequested := h.requested
  omega

omit [DecidableEq φ] in
/-- **Collecting events**: what remains is counted down by them. -/
theorem Mid.collect {s s' : Aio φ} {f : φ} {events : List AIOEvent} (h : Mid s f)
    (hcollected : Collected s f events s')
    (hremaining : (s.files f).numRequestsRemaining =
      events.length + (s'.files f).numRequestsRemaining) : Mid s' f := by
  obtain ⟨hsublist, _⟩ := reap_eq_some hcollected.reaped
  have hlength := hcollected.length
  have hcounted := h.counted
  have hrequested := h.requested
  have hbounded := h.bounded
  have hnumEvents := hcollected.numEvents
  rw [Nat.mod_eq_of_lt (by omega)] at hnumEvents
  have hnumRequests := hcollected.numRequests
  refine
    { items := ?_
      counted := by omega
      requested := by omega
      bounded := by omega
      synced := fun e he => ?_
      pages := ?_
      complete := fun hall => ?_ }
  · rw [hcollected.requestQueue]
    exact h.items
  · rw [hcollected.requests]
    exact h.synced e (hsublist.subset he)
  · obtain ⟨base, hbase⟩ := h.pages
    exact ⟨base, fun e he => hbase e (hsublist.subset he)⟩
  · obtain ⟨hp, hnodup, hapart⟩ := h.complete (by omega)
    rw [hcollected.requestList, hnumRequests, hcollected.pool, hcollected.fresh]
    refine ⟨⟨?_, ?_⟩, hnodup, hapart⟩
    · rw [hcollected.pool]
      exact hp.nodup
    · rw [hcollected.pool, hcollected.fresh]
      exact hp.lt_fresh

omit [DecidableEq φ] in
/-- **Cleaning up**: when nothing remains, all requests have completed, and they go back into
the pool. -/
theorem Mid.cleanUp {s : Aio φ} {f : φ} (h : Mid s f) : Solo (s.cleanUpAIOTicket f) f := by
  have hcounted := h.counted
  have hrequested := h.requested
  rw [cleanUpAIOTicket_eq]
  refine ⟨h.items, ?_⟩
  rcases Nat.eq_zero_or_pos (s.files f).numRequestsRemaining with hzero | hpos
  · obtain ⟨hp, hnodup, hapart⟩ := h.complete (by omega)
    have hnone : s.inFlight = [] := List.length_eq_zero_iff.mp (by omega)
    refine Or.inl ⟨hzero, hnone, ?_⟩
    rw [if_pos (by omega)]
    refine ⟨List.nodup_append.mpr ⟨(List.reverse_perm _).nodup_iff.mpr hnodup, hp.nodup, ?_⟩, ?_⟩
    · intro r hr r' hr' heq
      rw [heq] at hr
      exact (hapart r' (List.mem_reverse.mp hr)).1 hr'
    · intro r hr
      rcases List.mem_append.mp hr with hr | hr
      · exact (hapart r (List.mem_reverse.mp hr)).2
      · exact hp.lt_fresh r hr
  · refine Or.inr ⟨hpos, h.items, hcounted, hrequested, h.bounded, h.synced, h.pages, ?_⟩
    intro hall
    -- nothing was dropped, so that events are still to come and the pool stays as it is
    have hall : (s.files f).aioTicket.numRequests =
        (s.files f).aioTicket.numEvents + (s.files f).numRequestsRemaining := hall
    rw [if_neg (by omega)]
    exact h.complete hall

omit [DecidableEq φ] in
/-- The FileBuffers of the completions. -/
theorem Mid.buffers {s s₂ : Aio φ} {f : φ} {events : List AIOEvent} {size : Int} (h : Mid s f)
    (hcollected : Collected s f events s₂)
    (hres : ∀ event ∈ events, ∀ e ∈ s.inFlight, e.request = event.obj →
      event.res = resultOf size e.iocb) :
    ∃ base : Int, ∀ b ∈ events.map s.bufferOf,
      ReadFrom size b ∧ ∃ j : Int, b.fileOffset = base + 4096 * j := by
  obtain ⟨_, reaped, hreaped, hperm⟩ := reap_eq_some hcollected.reaped
  obtain ⟨base, hbase⟩ := h.pages
  refine ⟨base, fun b hb => ?_⟩
  obtain ⟨event, hevent, rfl⟩ := List.mem_map.mp hb
  obtain ⟨e, he, hobj⟩ := List.mem_map.mp
    (hreaped ▸ List.mem_map.mpr ⟨event, hevent, rfl⟩ : event.obj ∈ reaped.map Submitted.request)
  have he := hperm.mem_iff.mpr (List.mem_append_left _ he)
  obtain ⟨hnbytes, j, hj⟩ := hbase e he
  have hres := hres event hevent e he hobj
  have hsynced := h.synced e he
  rw [hobj] at hsynced
  refine ⟨?_, j, ?_⟩
  · show (((event.res % 2 ^ 32).toNat : Nat) : Int) = bytesRead size (s.requests event.obj).aio_offset
    rw [hsynced, hres, resultOf, hnbytes, bytesRead]
    unfold MEMORY_PAGE_SIZE
    omega
  · show (s.requests event.obj).aio_offset = _
    rw [hsynced, hj]

/-- **A read of a list**, and what its FileBuffers are. -/
theorem readFileBufferList_solo {s s' : Aio φ} {f : φ} {size length : Int}
    {bufferList result : FileBufferList} {pages : Nat → Nat} {kernel : Kernel} (h : Solo s f)
    (hdelivers : Delivers size f s (.readFileBufferList f bufferList length pages kernel))
    (hrun : s.readFileBufferList f bufferList length pages kernel = some (result, s')) :
    Solo s' f ∧
      (Covers result.values (s.files f).offset (bytesNeeded size (s.files f).offset length) ↔
        CompletesInOrder size s f length pages kernel) := by
  obtain ⟨_, events, hanswer, hres⟩ := hdelivers
  obtain ⟨s₁, hissue, hrun⟩ := Option.bind_eq_some_iff.mp hrun
  obtain ⟨⟨n, s₂⟩, hevents, hrun⟩ := Option.bind_eq_some_iff.mp hrun
  have hmid := h.issue hissue
  have hsmall : (s₁.files f).aioTicket.numEvents < 2 ^ 32 := by
    have hbounded := hmid.bounded
    omega
  rw [hanswer] at hevents
  obtain ⟨hcollected, _, hremaining, hn⟩ := getEvents_collected hsmall hevents
  rw [Option.getD_some] at hcollected
  obtain ⟨rfl, htake⟩ := hn events rfl
  cases hrun
  have hle := hmid.collected_le hcollected
  obtain ⟨left, hleft⟩ : ∃ left, left = ((((s₂.files f).numRequestsRemaining : Int) -
    (events.length : Int)) % 2 ^ 32).toNat := ⟨_, rfl⟩
  rw [← hleft]
  have hcollected := hcollected.setRemaining left
  have hcount : (s₁.files f).numRequestsRemaining =
      events.length + ((s₂.setRemaining f left).files f).numRequestsRemaining := by
    have hbounded := hmid.bounded
    rw [hremaining] at hleft
    rw [setRemaining, setFile_files_self]
    show (s₁.files f).numRequestsRemaining = events.length + left
    omega
  refine ⟨(hmid.collect hcollected hcount).cleanUp, ?_⟩
  -- the FileBuffers are those of the events, in their order
  have hbuffers : (s₂.setRemaining f left).bufferOf = s₁.bufferOf := by
    funext event
    unfold bufferOf
    rw [hcollected.requests]
  have hlist : ((s₂.setRemaining f left).files f).aioTicket.eventList.take events.length =
      events := by
    rw [setRemaining, setFile_files_self]
    exact htake
  have hempty : (if bufferList.values.length > 0 then resetFileBufferList bufferList
      else bufferList).values = [] := by
    split
    next _ => rfl
    next hzero => exact List.length_eq_zero_iff.mp (by omega)
  rw [hbuffers, (foldl_addBuffer _ _).1, hempty, List.nil_append, Int.toNat_natCast, hlist]
  obtain ⟨base, hread⟩ := hmid.buffers hcollected (hres s₁ hissue)
  rw [covers_iff hread, List.length_map, List.map_map]
  constructor
  · intro hin
    exact ⟨s₁, events, hissue, hanswer, hin⟩
  · rintro ⟨s₁', events', hissue', hanswer', hin⟩
    rw [hissue] at hissue'
    rw [hanswer] at hanswer'
    obtain rfl := Option.some.inj hissue'
    obtain rfl := Option.some.inj hanswer'
    exact hin

/-- A caller that moves the AIOFile. -/
theorem seek_solo {s : Aio φ} {f : φ} (h : Solo s f) (offset : Int) :
    Solo (s.setFile f { s.files f with offset := offset }) f := by
  refine ⟨h.items, ?_⟩
  rw [setFile_files_self]
  rcases h.state with ⟨hzero, hnone, hp⟩ | ⟨hpos, hmid⟩
  · exact Or.inl ⟨hzero, hnone, ⟨hp.nodup, hp.lt_fresh⟩⟩
  · refine Or.inr ⟨hpos, hmid.items, ?_, ?_, ?_, hmid.synced, hmid.pages, ?_⟩
    all_goals rw [setFile_files_self]
    · exact hmid.counted
    · exact hmid.requested
    · exact hmid.bounded
    · intro hall
      obtain ⟨hp, happly⟩ := hmid.complete hall
      exact ⟨⟨hp.nodup, hp.lt_fresh⟩, happly⟩

omit [DecidableEq φ] in
theorem start_solo (capacity : Nat) (f : φ) : Solo (start capacity) f :=
  ⟨rfl, Or.inl ⟨rfl, rfl, ⟨List.nodup_nil, nofun⟩⟩⟩

/-- **In every run on an AIOFile, the list of a call is what it asked for exactly when the
reads that complete in it are its own, in order, and enough.** -/
theorem run_reads_iff (capacity : Nat) (size : Int) (f : φ) (calls : List (AioCall φ))
    (hdelivers : Along step (Delivers size f) calls (start capacity)) :
    Along step (ReadsIff size) calls (start capacity) := by
  have hstep : ∀ s call, Solo s f → Delivers size f s call → ReadsIff size s call := by
    intro s call h hdelivers
    cases call with
    | seek g offset => trivial
    | readFileBuffer g length page kernel => trivial
    | readFileBufferList g bufferList length pages kernel =>
      obtain rfl := hdelivers.1
      exact fun result s' hrun => (readFileBufferList_solo h hdelivers hrun).2
  have hkeeps : ∀ s call r s', Solo s f → Delivers size f s call → step s call = some (r, s') →
      Solo s' f := by
    intro s call r s' h hdelivers hrun
    cases call with
    | seek g offset =>
      obtain rfl : g = f := hdelivers
      cases hrun
      exact seek_solo h offset
    | readFileBuffer g length page kernel => exact hdelivers.elim
    | readFileBufferList g bufferList length pages kernel =>
      obtain rfl := hdelivers.1
      obtain ⟨⟨result, s₁⟩, hread, heq⟩ := Option.map_eq_some_iff.mp hrun
      cases heq
      exact (readFileBufferList_solo h hdelivers hread).1
  exact (throughout_of_keeps (P := fun _ => True) (fun _ _ => trivial) hstep hkeeps calls
    (start_solo capacity f) hdelivers).2

end

/-- Two pages are read, and complete in the order in which they were submitted. -/
theorem run_reads_iff_ordered :
    Along step (ReadsIff 8192)
      [.readFileBufferList () initFileBufferList 8192 (fun i => 4096 * (i + 1))
        ⟨2, some [⟨0, 4096⟩, ⟨1, 4096⟩]⟩] (start 8) := by
  refine run_reads_iff 8 8192 () _ ⟨⟨rfl, _, rfl, ?_⟩, fun _ _ _ => trivial⟩
  intro s' hissue event hevent e he _
  cases hissue
  -- what the kernel was handed
  have he : e ∈ [⟨0, (), ⟨4096, 4096, 0⟩⟩, ⟨1, (), ⟨8192, 4096, 4096⟩⟩] := he
  have hres : event.res = 4096 := by
    rcases List.mem_pair.mp hevent with rfl | rfl <;> rfl
  rw [hres]
  rcases List.mem_pair.mp he with rfl | rfl <;> rfl

/-- The second page of a file is read before the first one, and the list says so. -/
theorem list_out_of_order :
    ¬ ∀ result s', (start 8).readFileBufferList () initFileBufferList 8192 (fun i => 4096 * (i + 1))
        ⟨2, some [⟨1, 4096⟩, ⟨0, 4096⟩]⟩ = some (result, s') →
      Covers result.values 0 (bytesNeeded 8192 0 8192) := by
  intro h
  have hbegins := (h _ _ rfl).begins ⟨8192, 4096, 0, 4096⟩ rfl
  exact absurd hbegins (by decide)

end DevopsBroker.Io.Aio
