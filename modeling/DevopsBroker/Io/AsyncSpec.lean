import DevopsBroker.Io.Async

/-!
# What reading does, step by step

`Queued` is what a run of reads does to the pool and the queue, `Issued` what is left of
it behind `submit`: the requests `reqs`, new ones out of the pool, make up the ticket, and
the kernel holds some of them. `reap_eq_some` says what the kernel holds after its
completions. Together they are all that the two functions do to requests; what is proved
about runs uses nothing else of them.
-/

namespace DevopsBroker.Io.Aio

open DevopsBroker.Lib

section

variable {φ : Type}

/-! ## Taking requests -/

/-- The pool has no request twice, and none that was never acquired. -/
structure PoolOk (s : Aio φ) : Prop where
  nodup : s.pool.Nodup
  lt_fresh : ∀ r ∈ s.pool, r < s.fresh

/-- The requests `reqs` were taken, from the pool or as new ones. -/
structure Took (s : Aio φ) (reqs : List RequestPtr) (s' : Aio φ) : Prop where
  pool : s'.pool.Sublist s.pool
  fresh_le : s.fresh ≤ s'.fresh
  nodup : reqs.Nodup
  notMem_pool : ∀ r ∈ reqs, r ∉ s'.pool
  lt_fresh : ∀ r ∈ reqs, r < s'.fresh
  source : ∀ r ∈ reqs, r ∈ s.pool ∨ s.fresh ≤ r

theorem Took.poolOk {s s' : Aio φ} {reqs : List RequestPtr} (h : Took s reqs s') (hp : PoolOk s) :
    PoolOk s' :=
  ⟨h.pool.nodup hp.nodup, fun r hr => Nat.lt_of_lt_of_le (hp.lt_fresh r (h.pool.subset hr)) h.fresh_le⟩

theorem took_nil (s : Aio φ) : Took s [] s :=
  ⟨List.Sublist.refl _, Nat.le_refl _, List.nodup_nil, nofun, nofun, nofun⟩

theorem acquireAIORequest_nil {s : Aio φ} (h : s.pool = []) :
    s.acquireAIORequest = (s.fresh, { s with fresh := s.fresh + 1 }) := by
  rw [acquireAIORequest, h]

theorem acquireAIORequest_cons {s : Aio φ} {r : RequestPtr} {pool : List RequestPtr}
    (h : s.pool = r :: pool) : s.acquireAIORequest = (r, { s with pool := pool }) := by
  rw [acquireAIORequest, h]

/-- One request is taken. -/
theorem acquireAIORequest_took {s : Aio φ} (hp : PoolOk s) :
    Took s [s.acquireAIORequest.1] s.acquireAIORequest.2 := by
  have hnodup := hp.nodup
  have hlt := hp.lt_fresh
  rcases hpool : s.pool with _ | ⟨r, pool⟩
  · rw [acquireAIORequest_nil hpool]
    refine ⟨List.Sublist.refl _, Nat.le_succ _, List.nodup_cons.mpr ⟨nofun, List.nodup_nil⟩,
      ?_, ?_, ?_⟩
    all_goals
      intro r hr
      obtain rfl := List.mem_singleton.mp hr
    · exact fun hr => Nat.lt_irrefl _ (hlt _ hr)
    · exact Nat.lt_succ_self _
    · exact Or.inr (Nat.le_refl _)
  · rw [hpool] at hnodup hlt
    rw [acquireAIORequest_cons hpool]
    refine ⟨?_, Nat.le_refl _, List.nodup_cons.mpr ⟨nofun, List.nodup_nil⟩, ?_, ?_, ?_⟩
    · rw [hpool]
      exact List.sublist_cons_self r pool
    all_goals
      intro r' hr'
      obtain rfl := List.mem_singleton.mp hr'
    · exact (List.nodup_cons.mp hnodup).1
    · exact hlt _ (List.mem_cons_self ..)
    · rw [hpool]
      exact Or.inl (List.mem_cons_self ..)

/-- Requests taken one after another. -/
theorem Took.append {s₁ s₂ s₃ : Aio φ} {xs ys : List RequestPtr}
    (hx : Took s₁ xs s₂) (hy : Took s₂ ys s₃) : Took s₁ (xs ++ ys) s₃ := by
  have hnotMem : ∀ r ∈ xs, r ∉ ys := by
    intro r hrx hry
    rcases hy.source r hry with hpool | hfresh
    · exact hx.notMem_pool r hrx hpool
    · exact absurd (hx.lt_fresh r hrx) (Nat.not_lt.mpr hfresh)
  refine ⟨hy.pool.trans hx.pool, Nat.le_trans hx.fresh_le hy.fresh_le, ?_, ?_, ?_, ?_⟩
  · refine List.nodup_append.mpr ⟨hx.nodup, hy.nodup, fun r hrx r' hry heq => ?_⟩
    rw [heq] at hrx
    exact hnotMem r' hrx hry
  · intro r hr
    rcases List.mem_append.mp hr with hr | hr
    · exact fun hpool => hx.notMem_pool r hr (hy.pool.subset hpool)
    · exact hy.notMem_pool r hr
  · intro r hr
    rcases List.mem_append.mp hr with hr | hr
    · exact Nat.lt_of_lt_of_le (hx.lt_fresh r hr) hy.fresh_le
    · exact hy.lt_fresh r hr
  · intro r hr
    rcases List.mem_append.mp hr with hr | hr
    · exact hx.source r hr
    · rcases hy.source r hr with hpool | hfresh
      · exact Or.inl (hx.pool.subset hpool)
      · exact Or.inr (Nat.le_trans hx.fresh_le hfresh)

/-! ## Queueing reads -/

/-- Reads of some pages were queued: those of them that found room. -/
structure Queued (s : Aio φ) (f : φ) (pages : List Nat) (reqs : List RequestPtr) (s' : Aio φ) :
    Prop where
  took : Took s reqs s'
  length : reqs.length = min pages.length (s.requestQueue.capacity - s.requestQueue.items.length)
  items : s'.requestQueue.items = s.requestQueue.items ++ reqs
  capacity : s'.requestQueue.capacity = s.requestQueue.capacity
  inFlight : s'.inFlight = s.inFlight
  file : s'.files f =
    { s.files f with offset := (s.files f).offset + (MEMORY_PAGE_SIZE * reqs.length : Nat) }
  files_ne : ∀ g, g ≠ f → s'.files g = s.files g
  reads : ∀ i r, reqs[i]? = some r → ∃ page, pages[i]? = some page ∧
    s'.requests r = ⟨page, MEMORY_PAGE_SIZE, (s.files f).offset + (MEMORY_PAGE_SIZE * i : Nat)⟩
  requests : ∀ r, r ∉ reqs → s'.requests r = s.requests r

theorem queued_nil (s : Aio φ) (f : φ) : Queued s f [] [] s where
  took := took_nil s
  length := (Nat.zero_min _).symm
  items := (List.append_nil _).symm
  capacity := rfl
  inFlight := rfl
  file := by rw [List.length_nil, Nat.mul_zero, Int.natCast_zero, Int.add_zero]
  files_ne := fun _ _ => rfl
  reads := nofun
  requests := fun _ _ => rfl

/-- Reads queued one after another. -/
theorem Queued.cons {s₁ s₂ s₃ : Aio φ} {f : φ} {page : Nat} {pages : List Nat} {r : RequestPtr}
    {reqs : List RequestPtr} (hx : Queued s₁ f [page] [r] s₂) (hy : Queued s₂ f pages reqs s₃) :
    Queued s₁ f (page :: pages) (r :: reqs) s₃ := by
  have htook := hx.took.append hy.took
  have hroom := hx.length
  have hlength := hy.length
  rw [hx.items, hx.capacity, List.length_append] at hlength
  simp only [List.length_cons, List.length_nil] at hroom hlength
  refine
    { took := htook
      length := ?_
      items := by rw [hy.items, hx.items, List.append_assoc, List.singleton_append]
      capacity := hy.capacity.trans hx.capacity
      inFlight := hy.inFlight.trans hx.inFlight
      file := ?_
      files_ne := fun g hg => (hy.files_ne g hg).trans (hx.files_ne g hg)
      reads := ?_
      requests := fun r' hr' => ?_ }
  · rw [List.length_cons, List.length_cons]
    omega
  · rw [hy.file, hx.file]
    simp only [List.length_cons, List.length_nil, MEMORY_PAGE_SIZE, AIOFile.mk.injEq]
    exact ⟨trivial, by omega, trivial⟩
  · intro i r' hr'
    rcases i with _ | i
    · -- the first request is not taken a second time
      obtain rfl := Option.some.inj hr'
      obtain ⟨page', hpage, hread⟩ := hx.reads 0 r rfl
      obtain rfl := Option.some.inj hpage
      refine ⟨page, rfl, ?_⟩
      rw [hy.requests r (List.nodup_cons.mp htook.nodup).1]
      exact hread
    · obtain ⟨page', hpage, hread⟩ := hy.reads i r' hr'
      refine ⟨page', hpage, hread.trans ?_⟩
      rw [hx.file]
      simp only [List.length_cons, List.length_nil, MEMORY_PAGE_SIZE, AIORequest.mk.injEq]
      exact ⟨trivial, trivial, by omega⟩
  · rw [hy.requests r' fun h => hr' (List.mem_cons_of_mem r h),
      hx.requests r' fun h => hr' (List.mem_singleton.mp h ▸ List.mem_cons_self ..)]

variable [DecidableEq φ]

@[simp] theorem setFile_files_self (s : Aio φ) (f : φ) (file : AIOFile) :
    (s.setFile f file).files f = file := Function.update_self ..

theorem setFile_files_ne (s : Aio φ) {f g : φ} (h : g ≠ f) (file : AIOFile) :
    (s.setFile f file).files g = s.files g := Function.update_of_ne h ..

/-- A full queue drops all reads. -/
theorem readBlocks_full {s : Aio φ} (f : φ)
    (hfull : s.requestQueue.items.length = s.requestQueue.capacity) (pages : List Nat) :
    s.readBlocks f pages = s := by
  induction pages with
  | nil => rfl
  | cons page pages ih =>
    rw [readBlocks, List.foldl_cons, read, if_pos hfull]
    exact ih

/-- A queue with room takes a read. -/
theorem read_queued {s : Aio φ} (hp : PoolOk s) (f : φ) (page : Nat)
    (hroom : s.requestQueue.items.length < s.requestQueue.capacity) :
    Queued s f [page] [s.acquireAIORequest.1] (s.read f page MEMORY_PAGE_SIZE) := by
  have htook := acquireAIORequest_took hp
  have hsame : s.acquireAIORequest.2.files = s.files ∧
      s.acquireAIORequest.2.requestQueue = s.requestQueue ∧
      s.acquireAIORequest.2.requests = s.requests ∧
      s.acquireAIORequest.2.inFlight = s.inFlight := by
    unfold acquireAIORequest
    split <;> exact ⟨rfl, rfl, rfl, rfl⟩
  unfold read
  rw [if_neg (Nat.ne_of_lt hroom)]
  rcases hacquire : s.acquireAIORequest with ⟨r, s₁⟩
  simp only [hacquire] at htook hsame ⊢
  obtain ⟨hfiles, hqueue, hrequests, hinFlight⟩ := hsame
  refine
    { took := ⟨htook.pool, htook.fresh_le, htook.nodup, htook.notMem_pool, htook.lt_fresh,
        htook.source⟩
      length := ?_
      items := ?_
      capacity := ?_
      inFlight := hinFlight
      file := ?_
      files_ne := fun g hg => ?_
      reads := ?_
      requests := fun r' hr' => ?_ }
  · show 1 = min 1 _
    omega
  · show (s₁.requestQueue.push r).2.items = _
    rw [hqueue, Fifo.push, dif_pos hroom]
  · show (s₁.requestQueue.push r).2.capacity = _
    rw [hqueue, Fifo.push, dif_pos hroom]
  · rw [setFile_files_self]
    dsimp only
    rw [hfiles]
    rfl
  · rw [setFile_files_ne _ hg]
    exact congrFun hfiles g
  · intro i r' hr'
    rcases i with _ | i
    · obtain rfl := Option.some.inj hr'
      refine ⟨page, rfl, ?_⟩
      show Function.update s₁.requests r _ r = _
      rw [Function.update_self, hfiles, Nat.mul_zero]
      simp
    · cases hr'
  · show Function.update s₁.requests r _ r' = _
    rw [Function.update_of_ne (fun h => hr' (List.mem_singleton.mpr h)), hrequests]

/-- **The loop that reads.** -/
theorem readBlocks_queued (f : φ) (pages : List Nat) :
    ∀ {s : Aio φ}, PoolOk s → ∃ reqs, Queued s f pages reqs (s.readBlocks f pages) := by
  induction pages with
  | nil => exact fun _ => ⟨[], queued_nil _ f⟩
  | cons page pages ih =>
    intro s hp
    rcases Nat.lt_or_ge s.requestQueue.items.length s.requestQueue.capacity with hroom | hfull
    · have hfirst := read_queued hp f page hroom
      obtain ⟨reqs, hrest⟩ := ih (hfirst.took.poolOk hp)
      exact ⟨_, hfirst.cons hrest⟩
    · have hfull := Nat.le_antisymm s.requestQueue.bounded hfull
      have hnil := queued_nil s f
      rw [readBlocks_full f hfull]
      refine ⟨[], { hnil with length := ?_, reads := nofun }⟩
      rw [hfull, Nat.sub_self, Nat.min_zero, List.length_nil]

/-! ## Submitting -/

theorem dequeueRequests_eq (n : Nat) :
    ∀ queue : Fifo RequestPtr,
      (dequeueRequests n queue).1 = queue.items.take n ∧
        (dequeueRequests n queue).2.items = queue.items.drop n ∧
        (dequeueRequests n queue).2.capacity = queue.capacity := by
  induction n with
  | zero => exact fun queue => ⟨rfl, rfl, rfl⟩
  | succ n ih =>
    intro queue
    obtain ⟨capacity, items, hbounded⟩ := queue
    cases items with
    | nil => exact ⟨rfl, rfl, rfl⟩
    | cons r items =>
      obtain ⟨htake, hdrop, hcapacity⟩ := ih (Fifo.pop ⟨capacity, r :: items, hbounded⟩).2
      exact ⟨congrArg (r :: ·) htake, hdrop, hcapacity⟩

theorem overwrite_take {α : Type} (new old : List α) : (overwrite new old).take new.length = new :=
  List.take_left' rfl

/-- Requests `reqs` were queued and submitted as the ticket of an AIOFile, and the kernel took
`taken` of them. -/
structure Issued (s : Aio φ) (f : φ) (pages : List Nat) (reqs : List RequestPtr) (taken : Nat)
    (s' : Aio φ) : Prop where
  took : Took s reqs s'
  length : reqs.length = min pages.length s.requestQueue.capacity
  items : s'.requestQueue.items = []
  capacity : s'.requestQueue.capacity = s.requestQueue.capacity
  taken_le : taken ≤ reqs.length
  inFlight : s'.inFlight = s.inFlight ++ (reqs.take taken).map fun r => ⟨r, f, s'.requests r⟩
  numRequests : (s'.files f).aioTicket.numRequests = reqs.length
  requestList : (s'.files f).aioTicket.requestList.take reqs.length = reqs
  numEvents : (s'.files f).aioTicket.numEvents = 0
  eventList : (s'.files f).aioTicket.eventList = (s.files f).aioTicket.eventList
  files_ne : ∀ g, g ≠ f → s'.files g = s.files g
  reads : ∀ i r, reqs[i]? = some r → ∃ page, pages[i]? = some page ∧
    s'.requests r = ⟨page, MEMORY_PAGE_SIZE, (s.files f).offset + (MEMORY_PAGE_SIZE * i : Nat)⟩
  requests : ∀ r, r ∉ reqs → s'.requests r = s.requests r

/-- What was queued, as the ticket of an AIOFile: the kernel is handed it, or nothing. -/
theorem submit_eq {s s' : Aio φ} {f : φ} {ioSubmit : Int} (hlength : s.requestQueue.items.length ≤ 8)
    (hrun : s.submit f ioSubmit = some s') :
    (s.requestQueue.items = [] ∧ s' = s) ∨
      (s.requestQueue.items ≠ [] ∧ ioSubmit ≤ s.requestQueue.items.length ∧
        ∃ requestQueue : Fifo RequestPtr, requestQueue.items = [] ∧
          requestQueue.capacity = s.requestQueue.capacity ∧
          s' = { s.setTicket f { (s.files f).aioTicket with
              requestList := overwrite s.requestQueue.items (s.files f).aioTicket.requestList
              numRequests := s.requestQueue.items.length } with
            requestQueue := requestQueue
            inFlight := s.inFlight ++ (s.requestQueue.items.take ioSubmit.toNat).map fun r =>
              ⟨r, f, s.requests r⟩ }) := by
  obtain ⟨htake, hdrop, hcapacity⟩ := dequeueRequests_eq 8 s.requestQueue
  rw [List.take_of_length_le hlength] at htake
  rw [List.drop_eq_nil_of_le hlength] at hdrop
  unfold submit at hrun
  split at hrun
  next hnil => exact Or.inl ⟨hnil, (Option.some.inj hrun).symm⟩
  next hne =>
    refine Or.inr ⟨hne, ?_⟩
    rcases hdequeue : dequeueRequests 8 s.requestQueue with ⟨requestList, requestQueue⟩
    rw [hdequeue] at htake hdrop hcapacity hrun
    dsimp only at htake hdrop hcapacity hrun
    subst htake
    split at hrun
    next hle => exact ⟨hle, requestQueue, hdrop, hcapacity, (Option.some.inj hrun).symm⟩
    next _ => cases hrun

/-- The requests `reqs` were queued for a new ticket, into an empty queue, and `numRequests`
are said to remain. -/
structure Ready (s : Aio φ) (f : φ) (pages : List Nat) (reqs : List RequestPtr)
    (numRequests : Nat) (s' : Aio φ) : Prop where
  took : Took s reqs s'
  length : reqs.length = min pages.length s.requestQueue.capacity
  items : s'.requestQueue.items = reqs
  capacity : s'.requestQueue.capacity = s.requestQueue.capacity
  inFlight : s'.inFlight = s.inFlight
  aioTicket : (s'.files f).aioTicket =
    { (s.files f).aioTicket with numRequests := 0, numEvents := 0 }
  remaining : (s'.files f).numRequestsRemaining = numRequests
  files_ne : ∀ g, g ≠ f → s'.files g = s.files g
  reads : ∀ i r, reqs[i]? = some r → ∃ page, pages[i]? = some page ∧
    s'.requests r = ⟨page, MEMORY_PAGE_SIZE, (s.files f).offset + (MEMORY_PAGE_SIZE * i : Nat)⟩
  requests : ∀ r, r ∉ reqs → s'.requests r = s.requests r

theorem Queued.ready {s s' : Aio φ} {f : φ} {pages : List Nat} {reqs : List RequestPtr}
    (hempty : s.requestQueue.items = []) (h : Queued (s.initAIOTicket f) f pages reqs s')
    (numRequests : Nat) : Ready s f pages reqs numRequests (s'.setRemaining f numRequests) := by
  have hempty : (s.initAIOTicket f).requestQueue.items = [] := hempty
  have hfile : (s.initAIOTicket f).files f = { s.files f with
      aioTicket := { (s.files f).aioTicket with numRequests := 0, numEvents := 0 } } := by
    rw [initAIOTicket, setTicket, setFile_files_self]
  have hlength := h.length
  have hitems := h.items
  have hreads := h.reads
  rw [hempty] at hlength hitems
  rw [hfile] at hreads
  refine
    { took := ⟨h.took.pool, h.took.fresh_le, h.took.nodup, h.took.notMem_pool, h.took.lt_fresh,
        h.took.source⟩
      length := hlength
      items := hitems
      capacity := h.capacity
      inFlight := h.inFlight
      aioTicket := ?_
      remaining := ?_
      files_ne := fun g hg => ?_
      reads := hreads
      requests := h.requests }
  · rw [setRemaining, setFile_files_self, h.file, hfile]
  · rw [setRemaining, setFile_files_self]
  · rw [setRemaining, setFile_files_ne _ hg, h.files_ne g hg, initAIOTicket, setTicket,
      setFile_files_ne _ hg]

/-- **Submitting what was queued.** -/
theorem Ready.submit {s s₃ s' : Aio φ} {f : φ} {pages : List Nat} {reqs : List RequestPtr}
    {ioSubmit : Int} {numRequests : Nat} (h : Ready s f pages reqs numRequests s₃)
    (hpages : pages.length ≤ 8) (hrun : s₃.submit f ioSubmit = some s') :
    Issued s f pages reqs (min ioSubmit.toNat reqs.length) s' ∧
      (s'.files f).numRequestsRemaining = numRequests := by
  have hlength := h.length
  have hitems := h.items
  have hticket := h.aioTicket
  rcases submit_eq (by rw [hitems]; omega) hrun with ⟨hnil, rfl⟩ | ⟨_, hle, queue, hq, hcap, rfl⟩
  · -- nothing was queued
    rw [hitems] at hnil
    subst hnil
    refine ⟨?_, h.remaining⟩
    exact
      { took := h.took
        length := hlength
        items := hitems
        capacity := h.capacity
        taken_le := Nat.min_le_right ..
        inFlight := by rw [h.inFlight, List.take_nil, List.map_nil, List.append_nil]
        numRequests := by rw [hticket, List.length_nil]
        requestList := by rw [List.length_nil, List.take_zero]
        numEvents := by rw [hticket]
        eventList := by rw [hticket]
        files_ne := h.files_ne
        reads := h.reads
        requests := h.requests }
  · -- the queue is emptied, and the kernel takes requests from the front
    rw [hitems] at hle
    have htaken : min ioSubmit.toNat reqs.length = ioSubmit.toNat := by omega
    have hinFlight := h.inFlight
    have htook := h.took
    rw [htaken, hitems]
    refine
      ⟨{ took := ⟨htook.pool, htook.fresh_le, htook.nodup, htook.notMem_pool, htook.lt_fresh,
          htook.source⟩
         length := hlength
         items := hq
         capacity := hcap.trans h.capacity
         taken_le := by omega
         inFlight := by
          dsimp only
          rw [hinFlight]
          rfl
         numRequests := ?_
         requestList := ?_
         numEvents := ?_
         eventList := ?_
         files_ne := fun g hg => ?_
         reads := h.reads
         requests := h.requests }, ?_⟩
    all_goals dsimp only [setTicket]
    · rw [setFile_files_self]
    · rw [setFile_files_self]
      exact overwrite_take _ _
    · rw [setFile_files_self, hticket]
    · rw [setFile_files_self, hticket]
    · rw [setFile_files_ne _ hg, h.files_ne g hg]
    · rw [setFile_files_self]
      exact h.remaining

theorem numBlocksOf_le (length : Int) : numBlocksOf length ≤ 8 := by
  unfold numBlocksOf ASYNC_AIOTICKET_MAXSIZE
  omega

/-- **Up to the completions**, a read of a list finds requests left, or issues its own. -/
theorem issueReads_eq {s s' : Aio φ} {f : φ} {length : Int} {pages : Nat → Nat} {ioSubmit : Int}
    (hp : PoolOk s) (hempty : s.requestQueue.items = [])
    (hrun : s.issueReads f length pages ioSubmit = some s') :
    (0 < (s.files f).numRequestsRemaining ∧ s' = s) ∨
      ((s.files f).numRequestsRemaining = 0 ∧ ∃ reqs,
        Issued s f ((List.range (numBlocksOf length)).map pages) reqs
          (min ioSubmit.toNat reqs.length) s' ∧
        (s'.files f).numRequestsRemaining = numBlocksOf length) := by
  unfold issueReads at hrun
  split at hrun
  next hpos => exact Or.inl ⟨hpos, (Option.some.inj hrun).symm⟩
  next hzero =>
    dsimp only at hrun
    have hp' : PoolOk (s.initAIOTicket f) := ⟨hp.nodup, hp.lt_fresh⟩
    obtain ⟨reqs, hqueued⟩ :=
      readBlocks_queued f ((List.range (numBlocksOf length)).map pages) hp'
    have hlength : ((List.range (numBlocksOf length)).map pages).length ≤ 8 := by
      rw [List.length_map, List.length_range]
      exact numBlocksOf_le length
    obtain ⟨hissued, hremaining⟩ := (hqueued.ready hempty _).submit hlength hrun
    exact Or.inr ⟨Nat.eq_zero_of_not_pos hzero, reqs, hissued, hremaining⟩

/-- The one read of `readFileBuffer`. -/
theorem readPage_issued {s s' : Aio φ} {f : φ} {page : Nat} {ioSubmit : Int} (hp : PoolOk s)
    (hempty : s.requestQueue.items = [])
    (hrun : ((s.initAIOTicket f).read f page MEMORY_PAGE_SIZE).submit f ioSubmit = some s') :
    ∃ reqs, Issued s f [page] reqs (min ioSubmit.toNat reqs.length) s' ∧
      (s'.files f).numRequestsRemaining = (s.files f).numRequestsRemaining := by
  have hp' : PoolOk (s.initAIOTicket f) := ⟨hp.nodup, hp.lt_fresh⟩
  obtain ⟨reqs, hqueued⟩ := readBlocks_queued f [page] hp'
  have hsame : ((s.initAIOTicket f).readBlocks f [page]).setRemaining f
      (s.files f).numRequestsRemaining = (s.initAIOTicket f).read f page MEMORY_PAGE_SIZE := by
    have hremaining : (s.files f).numRequestsRemaining =
        (((s.initAIOTicket f).readBlocks f [page]).files f).numRequestsRemaining := by
      rw [hqueued.file, initAIOTicket, setTicket, setFile_files_self]
    rw [hremaining, setRemaining, setFile]
    dsimp only
    rw [Function.update_eq_self]
    rfl
  rw [← hsame] at hrun
  have hlength : [page].length ≤ 8 := Nat.le_of_ble_eq_true rfl
  obtain ⟨hissued, hremaining⟩ := (hqueued.ready hempty _).submit hlength hrun
  exact ⟨reqs, hissued, hremaining⟩

/-! ## Completions -/

omit [DecidableEq φ] in
/-- **Completions take requests from what the kernel holds**, one for each event. -/
theorem reap_eq_some :
    ∀ {events : List AIOEvent} {inFlight inFlight' : List (Submitted φ)},
      reap events inFlight = some inFlight' →
      inFlight'.Sublist inFlight ∧ ∃ reaped : List (Submitted φ),
        reaped.map Submitted.request = events.map AIOEvent.obj ∧
          inFlight.Perm (reaped ++ inFlight') := by
  intro events
  induction events with
  | nil =>
    intro inFlight inFlight' h
    obtain rfl := Option.some.inj h
    exact ⟨List.Sublist.refl _, [], rfl, List.Perm.refl _⟩
  | cons event events ih =>
    intro inFlight inFlight' h
    unfold reap at h
    split at h
    next hany =>
      obtain ⟨e, he, hobj⟩ := List.any_eq_true.mp hany
      obtain ⟨x, front, back, _, hx, hsplit, herase⟩ := List.exists_of_eraseP (p := fun e => decide (e.request = event.obj)) he hobj
      obtain ⟨hsublist, reaped, hreaped, hperm⟩ := ih h
      refine ⟨hsublist.trans List.eraseP_sublist, x :: reaped, ?_, ?_⟩
      · rw [List.map_cons, List.map_cons, hreaped, of_decide_eq_true hx]
      · rw [herase] at hperm
        rw [hsplit]
        exact List.perm_middle.trans (hperm.cons x)
    next _ => cases h

/-- Events were counted for the ticket of an AIOFile. -/
structure Collected (s : Aio φ) (f : φ) (events : List AIOEvent) (s' : Aio φ) : Prop where
  reaped : reap events s.inFlight = some s'.inFlight
  pool : s'.pool = s.pool
  fresh : s'.fresh = s.fresh
  requestQueue : s'.requestQueue = s.requestQueue
  requests : s'.requests = s.requests
  files_ne : ∀ g, g ≠ f → s'.files g = s.files g
  requestList : (s'.files f).aioTicket.requestList = (s.files f).aioTicket.requestList
  numRequests : (s'.files f).aioTicket.numRequests = (s.files f).aioTicket.numRequests
  numEvents : (s'.files f).aioTicket.numEvents =
    ((s.files f).aioTicket.numEvents + events.length) % 2 ^ 32

omit [DecidableEq φ] in
/-- The kernel holds as many requests less as there are events. -/
theorem Collected.length {s s' : Aio φ} {f : φ} {events : List AIOEvent}
    (h : Collected s f events s') : s.inFlight.length = events.length + s'.inFlight.length := by
  obtain ⟨_, reaped, hreaped, hperm⟩ := reap_eq_some h.reaped
  have hlength := congrArg List.length hreaped
  rw [List.length_map, List.length_map] at hlength
  rw [hperm.length_eq, List.length_append, hlength]

/-- **What `getEvents` does**; after an error nothing was counted. -/
theorem getEvents_collected {s s' : Aio φ} {f : φ} {ioGetEvents : Option (List AIOEvent)} {n : Int}
    (hsmall : (s.files f).aioTicket.numEvents < 2 ^ 32)
    (hrun : s.getEvents f ioGetEvents = some (n, s')) :
    Collected s f (ioGetEvents.getD []) s' ∧
      (ioGetEvents.getD []).length ≤ (s.files f).aioTicket.numRequests ∧
      (s'.files f).numRequestsRemaining = (s.files f).numRequestsRemaining ∧
      ∀ events, ioGetEvents = some events → n = events.length ∧
        (s'.files f).aioTicket.eventList.take events.length = events := by
  unfold getEvents at hrun
  cases ioGetEvents with
  | none =>
    cases hrun
    refine ⟨⟨rfl, rfl, rfl, rfl, rfl, fun _ _ => rfl, rfl, rfl, ?_⟩, Nat.zero_le _, rfl, nofun⟩
    exact (Nat.mod_eq_of_lt hsmall).symm
  | some events =>
    dsimp only at hrun
    split at hrun
    next hle =>
      obtain ⟨inFlight, hreap, heq⟩ := Option.map_eq_some_iff.mp hrun
      cases heq
      refine ⟨⟨hreap, rfl, rfl, rfl, rfl, ?_, ?_, ?_, ?_⟩, hle, ?_, ?_⟩
      · exact fun g hg => setFile_files_ne _ hg _
      · rw [setTicket, setFile_files_self]
      · rw [setTicket, setFile_files_self]
      · rw [setTicket, setFile_files_self]
        rfl
      · rw [setTicket, setFile_files_self]
      · intro events' h
        obtain rfl := Option.some.inj h
        refine ⟨rfl, ?_⟩
        rw [setTicket, setFile_files_self]
        exact overwrite_take _ _
    next _ => cases hrun

/-- What remains may be counted anew. -/
theorem Collected.setRemaining {s s' : Aio φ} {f : φ} {events : List AIOEvent}
    (h : Collected s f events s') (numRequests : Nat) :
    Collected s f events (s'.setRemaining f numRequests) := by
  refine ⟨h.reaped, h.pool, h.fresh, h.requestQueue, h.requests, fun g hg => ?_, ?_, ?_, ?_⟩
  · rw [Aio.setRemaining, setFile_files_ne _ hg, h.files_ne g hg]
  all_goals rw [Aio.setRemaining, setFile_files_self]
  · exact h.requestList
  · exact h.numRequests
  · exact h.numEvents

omit [DecidableEq φ] in
/-- What `cleanUpAIOTicket` does to the pool. -/
theorem cleanUpAIOTicket_eq (s : Aio φ) (f : φ) :
    s.cleanUpAIOTicket f = { s with
      pool :=
        if (s.files f).aioTicket.numEvents = (s.files f).aioTicket.numRequests then
          ((s.files f).aioTicket.requestList.take (s.files f).aioTicket.numRequests).reverse ++ s.pool
        else s.pool } := by
  have hfold : ∀ (reqs : List RequestPtr) (s : Aio φ),
      reqs.foldl releaseAIORequest s = { s with pool := reqs.reverse ++ s.pool } := by
    intro reqs
    induction reqs with
    | nil => exact fun s => rfl
    | cons r reqs ih =>
      intro s
      rw [List.foldl_cons, ih, List.reverse_cons, List.append_assoc]
      rfl
  unfold cleanUpAIOTicket
  dsimp only
  split
  next _ => rw [hfold]
  next _ => rfl

end

end DevopsBroker.Io.Aio
