import DevopsBroker.Lib.Simulation
import DevopsBroker.Io.AsyncSpec

/-!
# Requests over whole runs

AIOFiles that share an AIOContext read, in any order, and the kernel answers in any way.
What each AIOFile counts as remaining is what the kernel holds for it, and the pool has no
request that the kernel holds, and none twice: `Tracked`. **`run_tracked`**: this is so in
every state of a run whose calls meet `Fits`. A call that does not: a read that times out,
completions that belong to another call, an error of `io_getevents`, reads that a full
queue drops.

`Core` is what holds of requests all the time, in the middle of a call too; `owned` are
the requests of a ticket that were not returned.
-/

namespace DevopsBroker.Io.Aio

open DevopsBroker.Lib

section

variable {φ : Type}

/-! ## No request is in two places -/

/-- The requests of a ticket, as long as there are events to come for it. -/
def owned (s : Aio φ) (f : φ) : List RequestPtr :=
  let aioTicket := (s.files f).aioTicket
  if aioTicket.numEvents < aioTicket.numRequests then
    aioTicket.requestList.take aioTicket.numRequests
  else []

/-- No request is in two places. -/
structure Core (s : Aio φ) : Prop where
  items : s.requestQueue.items = []
  poolOk : PoolOk s
  flight_nodup : (s.inFlight.map Submitted.request).Nodup
  flight_pool : ∀ e ∈ s.inFlight, e.request ∉ s.pool
  flight_fresh : ∀ e ∈ s.inFlight, e.request < s.fresh
  owned_nodup : ∀ f, (s.owned f).Nodup
  owned_pool : ∀ f, ∀ r ∈ s.owned f, r ∉ s.pool
  owned_fresh : ∀ f, ∀ r ∈ s.owned f, r < s.fresh
  owned_file : ∀ f, ∀ e ∈ s.inFlight, e.request ∈ s.owned f → e.file = f
  owned_disjoint : ∀ f g, f ≠ g → ∀ r ∈ s.owned f, r ∉ s.owned g

theorem owned_congr {s s' : Aio φ} {f : φ} (h : (s'.files f).aioTicket = (s.files f).aioTicket) :
    s'.owned f = s.owned f := by
  rw [owned, owned, h]

/-- What only the tickets, the pool and the kernel determine. -/
theorem Core.congr {s s' : Aio φ} (h : Core s)
    (hticket : ∀ f, (s'.files f).aioTicket = (s.files f).aioTicket)
    (hqueue : s'.requestQueue = s.requestQueue) (hpool : s'.pool = s.pool)
    (hfresh : s'.fresh = s.fresh) (hinFlight : s'.inFlight = s.inFlight) : Core s' := by
  have howned := fun f => owned_congr (hticket f)
  refine ⟨?_, ⟨?_, ?_⟩, ?_, ?_, ?_, ?_, ?_, ?_, ?_, ?_⟩
  all_goals simp only [howned, hqueue, hpool, hfresh, hinFlight]
  · exact h.items
  · exact h.poolOk.nodup
  · exact h.poolOk.lt_fresh
  · exact h.flight_nodup
  · exact h.flight_pool
  · exact h.flight_fresh
  · exact h.owned_nodup
  · exact h.owned_pool
  · exact h.owned_fresh
  · exact h.owned_file
  · exact h.owned_disjoint

/-! ## Issuing reads -/

/-- Requests that are taken are nowhere else. -/
theorem Took.unused {s s' : Aio φ} {reqs : List RequestPtr} (h : Took s reqs s') (hcore : Core s)
    {r : RequestPtr} (hr : r ∈ reqs) :
    (∀ e ∈ s.inFlight, e.request ≠ r) ∧ ∀ f, r ∉ s.owned f := by
  rcases h.source r hr with hpool | hfresh
  · refine ⟨fun e he heq => ?_, fun f howned => hcore.owned_pool f r howned hpool⟩
    rw [← heq] at hpool
    exact hcore.flight_pool e he hpool
  · have hnot := Nat.not_lt.mpr hfresh
    refine ⟨fun e he heq => ?_, fun f howned => hnot (hcore.owned_fresh f r howned)⟩
    rw [← heq] at hnot
    exact hnot (hcore.flight_fresh e he)

/-- The new ticket. -/
theorem Issued.owned_self {s s' : Aio φ} {f : φ} {pages : List Nat} {reqs : List RequestPtr}
    {taken : Nat} (h : Issued s f pages reqs taken s') : s'.owned f = reqs := by
  unfold owned
  dsimp only
  rw [h.numEvents, h.numRequests, h.requestList]
  split
  next _ => rfl
  next hzero => exact (List.length_eq_zero_iff.mp (by omega)).symm

theorem Issued.owned_ne {s s' : Aio φ} {f g : φ} {pages : List Nat} {reqs : List RequestPtr}
    {taken : Nat} (h : Issued s f pages reqs taken s') (hg : g ≠ f) : s'.owned g = s.owned g :=
  owned_congr (congrArg AIOFile.aioTicket (h.files_ne g hg))

/-- What a ticket owns after that: the new requests, or what it owned. -/
theorem Issued.mem_owned {s s' : Aio φ} {f g : φ} {pages : List Nat} {reqs : List RequestPtr}
    {taken : Nat} (h : Issued s f pages reqs taken s') {r : RequestPtr} (hr : r ∈ s'.owned g) :
    (g = f ∧ r ∈ reqs) ∨ (g ≠ f ∧ r ∈ s.owned g) := by
  by_cases hg : g = f
  · rw [hg, h.owned_self] at hr
    exact Or.inl ⟨hg, hr⟩
  · rw [h.owned_ne hg] at hr
    exact Or.inr ⟨hg, hr⟩

/-- What the kernel holds after that: what it held, and new requests. -/
theorem Issued.mem_inFlight {s s' : Aio φ} {f : φ} {pages : List Nat} {reqs : List RequestPtr}
    {taken : Nat} (h : Issued s f pages reqs taken s') {e : Submitted φ} (he : e ∈ s'.inFlight) :
    e ∈ s.inFlight ∨ (e.request ∈ reqs.take taken ∧ e.file = f) := by
  rw [h.inFlight] at he
  rcases List.mem_append.mp he with hold | hnew
  · exact Or.inl hold
  · obtain ⟨r, hr, rfl⟩ := List.mem_map.mp hnew
    exact Or.inr ⟨hr, rfl⟩

/-- **Issuing reads keeps requests apart.** -/
theorem Issued.core {s s' : Aio φ} {f : φ} {pages : List Nat} {reqs : List RequestPtr}
    {taken : Nat} (h : Issued s f pages reqs taken s') (hcore : Core s) : Core s' := by
  have hunused := fun {r} hr => h.took.unused hcore (r := r) hr
  have hflight : ∀ e ∈ s'.inFlight, e ∈ s.inFlight ∨ (e.request ∈ reqs ∧ e.file = f) := by
    intro e he
    exact (h.mem_inFlight he).imp_right fun ⟨hr, hfile⟩ => ⟨List.mem_of_mem_take hr, hfile⟩
  refine
    { items := h.items
      poolOk := h.took.poolOk hcore.poolOk
      flight_nodup := ?_
      flight_pool := fun e he => ?_
      flight_fresh := fun e he => ?_
      owned_nodup := fun g => ?_
      owned_pool := fun g r hr => ?_
      owned_fresh := fun g r hr => ?_
      owned_file := fun g e he hr => ?_
      owned_disjoint := fun g g' hne r hr hr' => ?_ }
  · rw [h.inFlight, List.map_append, List.map_map]
    refine List.nodup_append.mpr ⟨hcore.flight_nodup, ?_, ?_⟩
    · have hid : (reqs.take taken).map (Submitted.request ∘ fun r => ⟨r, f, s'.requests r⟩) =
          reqs.take taken := List.map_id _
      rw [hid]
      exact (List.take_sublist ..).nodup h.took.nodup
    · intro r hold r' hnew heq
      obtain ⟨e, he, rfl⟩ := List.mem_map.mp hold
      obtain ⟨r'', hr'', rfl⟩ := List.mem_map.mp hnew
      exact (hunused (List.mem_of_mem_take hr'')).1 e he heq
  · rcases hflight e he with hold | ⟨hnew, _⟩
    · exact fun hpool => hcore.flight_pool e hold (h.took.pool.subset hpool)
    · exact h.took.notMem_pool e.request hnew
  · rcases hflight e he with hold | ⟨hnew, _⟩
    · exact Nat.lt_of_lt_of_le (hcore.flight_fresh e hold) h.took.fresh_le
    · exact h.took.lt_fresh e.request hnew
  · by_cases hg : g = f
    · rw [hg, h.owned_self]
      exact h.took.nodup
    · rw [h.owned_ne hg]
      exact hcore.owned_nodup g
  · rcases h.mem_owned hr with ⟨_, hnew⟩ | ⟨_, hold⟩
    · exact h.took.notMem_pool r hnew
    · exact fun hpool => hcore.owned_pool g r hold (h.took.pool.subset hpool)
  · rcases h.mem_owned hr with ⟨_, hnew⟩ | ⟨_, hold⟩
    · exact h.took.lt_fresh r hnew
    · exact Nat.lt_of_lt_of_le (hcore.owned_fresh g r hold) h.took.fresh_le
  · rcases h.mem_owned hr with ⟨hg, hreq⟩ | ⟨_, hown⟩
    · rcases hflight e he with hold | ⟨_, hfile⟩
      · exact absurd rfl ((hunused hreq).1 e hold)
      · rw [hg, hfile]
    · rcases hflight e he with hold | ⟨hnew, _⟩
      · exact hcore.owned_file g e hold hown
      · exact absurd hown ((hunused hnew).2 g)
  -- a new request is in no other ticket, neither an old one nor the same one twice
  · rcases h.mem_owned hr with ⟨hg, hnew⟩ | ⟨_, hold⟩
    · rcases h.mem_owned hr' with ⟨hg', _⟩ | ⟨_, hold'⟩
      · exact hne (hg.trans hg'.symm)
      · exact (hunused hnew).2 g' hold'
    · rcases h.mem_owned hr' with ⟨_, hnew'⟩ | ⟨_, hold'⟩
      · exact (hunused hnew').2 g hold
      · exact hcore.owned_disjoint g g' hne r hold hold'

/-! ## Collecting events -/

/-- The ticket as it is after the events. -/
theorem Collected.owned_self {s s' : Aio φ} {f : φ} {events : List AIOEvent}
    (h : Collected s f events s')
    (hsmall : (s.files f).aioTicket.numEvents + events.length < 2 ^ 32) :
    s'.owned f =
      if (s.files f).aioTicket.numEvents + events.length < (s.files f).aioTicket.numRequests then
        s.owned f
      else [] := by
  unfold owned
  dsimp only
  rw [h.numEvents, h.numRequests, h.requestList, Nat.mod_eq_of_lt hsmall]
  split
  next hlt => rw [if_pos (by omega)]
  next _ => rfl

theorem Collected.owned_ne {s s' : Aio φ} {f g : φ} {events : List AIOEvent}
    (h : Collected s f events s') (hg : g ≠ f) : s'.owned g = s.owned g :=
  owned_congr (congrArg AIOFile.aioTicket (h.files_ne g hg))

/-- **Events keep requests apart**, before the ticket is cleaned up. -/
theorem Collected.core {s s' : Aio φ} {f : φ} {events : List AIOEvent}
    (h : Collected s f events s')
    (hsmall : (s.files f).aioTicket.numEvents + events.length < 2 ^ 32) (hcore : Core s) :
    Core s' := by
  obtain ⟨hsublist, _⟩ := reap_eq_some h.reaped
  have howned : ∀ g, ∀ r ∈ s'.owned g, r ∈ s.owned g := by
    intro g r hr
    by_cases hg : g = f
    · rw [hg, h.owned_self hsmall] at hr
      rw [hg]
      split at hr
      · exact hr
      · cases hr
    · rw [h.owned_ne hg] at hr
      exact hr
  refine
    { items := by rw [h.requestQueue]; exact hcore.items
      poolOk := ⟨by rw [h.pool]; exact hcore.poolOk.nodup,
        by rw [h.pool, h.fresh]; exact hcore.poolOk.lt_fresh⟩
      flight_nodup := (hsublist.map _).nodup hcore.flight_nodup
      flight_pool := fun e he => by rw [h.pool]; exact hcore.flight_pool e (hsublist.subset he)
      flight_fresh := fun e he => by rw [h.fresh]; exact hcore.flight_fresh e (hsublist.subset he)
      owned_nodup := fun g => ?_
      owned_pool := fun g r hr => by rw [h.pool]; exact hcore.owned_pool g r (howned g r hr)
      owned_fresh := fun g r hr => by rw [h.fresh]; exact hcore.owned_fresh g r (howned g r hr)
      owned_file := fun g e he hr => hcore.owned_file g e (hsublist.subset he) (howned g _ hr)
      owned_disjoint := fun g g' hne r hr hr' =>
        hcore.owned_disjoint g g' hne r (howned g r hr) (howned g' r hr') }
  by_cases hg : g = f
  · rw [hg, h.owned_self hsmall]
    split
    · exact hcore.owned_nodup f
    · exact List.nodup_nil
  · rw [h.owned_ne hg]
    exact hcore.owned_nodup g

/-- **Returning the requests of a ticket keeps requests apart**, when they were not returned
before, and the kernel holds none of them. -/
theorem Core.cleanUp {s : Aio φ} {reqs : List RequestPtr} (hcore : Core s)
    (hnodup : reqs.Nodup) (hpool : ∀ r ∈ reqs, r ∉ s.pool) (hfresh : ∀ r ∈ reqs, r < s.fresh)
    (hflight : ∀ e ∈ s.inFlight, e.request ∉ reqs) (howned : ∀ g, ∀ r ∈ s.owned g, r ∉ reqs) :
    Core { s with pool := reqs.reverse ++ s.pool } := by
  have hmem : ∀ {r : RequestPtr}, r ∈ reqs.reverse ++ s.pool → r ∈ reqs ∨ r ∈ s.pool := by
    intro r hr
    rcases List.mem_append.mp hr with hr | hr
    · exact Or.inl (List.mem_reverse.mp hr)
    · exact Or.inr hr
  refine
    { items := hcore.items
      poolOk := ⟨?_, fun r hr => ?_⟩
      flight_nodup := hcore.flight_nodup
      flight_pool := fun e he hr => ?_
      flight_fresh := hcore.flight_fresh
      owned_nodup := hcore.owned_nodup
      owned_pool := fun g r hr hmem' => ?_
      owned_fresh := hcore.owned_fresh
      owned_file := hcore.owned_file
      owned_disjoint := hcore.owned_disjoint }
  · refine List.nodup_append.mpr
      ⟨(List.reverse_perm reqs).nodup_iff.mpr hnodup, hcore.poolOk.nodup, fun r hr r' hr' heq => ?_⟩
    rw [heq] at hr
    exact hpool r' (List.mem_reverse.mp hr) hr'
  · rcases hmem hr with hr | hr
    · exact hfresh r hr
    · exact hcore.poolOk.lt_fresh r hr
  · rcases hmem hr with hr | hr
    · exact hflight e he hr
    · exact hcore.flight_pool e he hr
  · rcases hmem hmem' with hin | hin
    · exact howned g r hr hin
    · exact hcore.owned_pool g r hr hin

/-- **Events, and then cleaning up.** The ticket may become complete once, and only with
nothing left in the kernel. -/
theorem Collected.cleanUp_core {s s' : Aio φ} {f : φ} {events : List AIOEvent}
    (h : Collected s f events s')
    (hsmall : (s.files f).aioTicket.numEvents + events.length < 2 ^ 32) (hcore : Core s)
    (hdone : (s.files f).aioTicket.numEvents + events.length = (s.files f).aioTicket.numRequests →
      (s.files f).aioTicket.numRequests = 0 ∨
        ((s.files f).aioTicket.numEvents < (s.files f).aioTicket.numRequests ∧
          ∀ e ∈ s'.inFlight, e.request ∉ s.owned f)) :
    Core (s'.cleanUpAIOTicket f) := by
  have hcore' := h.core hsmall hcore
  rw [cleanUpAIOTicket_eq, h.numEvents, h.numRequests, h.requestList, Nat.mod_eq_of_lt hsmall]
  by_cases hcomplete :
      (s.files f).aioTicket.numEvents + events.length = (s.files f).aioTicket.numRequests
  · rw [if_pos hcomplete]
    rcases hdone hcomplete with hzero | ⟨hlt, hflight⟩
    · rw [hzero, List.take_zero]
      exact hcore'.congr (fun _ => rfl) rfl rfl rfl rfl
    · have howned : s.owned f =
          (s.files f).aioTicket.requestList.take (s.files f).aioTicket.numRequests := if_pos hlt
      rw [← howned]
      refine hcore'.cleanUp (hcore.owned_nodup f) ?_ ?_ hflight fun g r hr => ?_
      · rw [h.pool]
        exact hcore.owned_pool f
      · rw [h.fresh]
        exact hcore.owned_fresh f
      · by_cases hg : g = f
        · rw [hg, h.owned_self hsmall, if_neg (by omega)] at hr
          cases hr
        · rw [h.owned_ne hg] at hr
          exact hcore.owned_disjoint g f hg r hr
  · rw [if_neg hcomplete]
    exact hcore'

/-- None of the events is for a request that the kernel holds already. -/
def NewOnly (s : Aio φ) (events : List AIOEvent) : Prop :=
  ∀ event ∈ events, ∀ e ∈ s.inFlight, e.request ≠ event.obj

/-- New requests complete for the AIOFile that issued them. -/
theorem Issued.newOnly {s s' : Aio φ} {f : φ} {pages : List Nat} {reqs : List RequestPtr}
    {taken : Nat} (h : Issued s f pages reqs taken s') {events : List AIOEvent}
    (hnew : NewOnly s events) :
    ∀ event ∈ events, ∀ e ∈ s'.inFlight, e.request = event.obj → e.file = f := by
  intro event hevent e he heq
  rcases h.mem_inFlight he with hold | ⟨_, hfile⟩
  · exact absurd heq (hnew event hevent e hold)
  · exact hfile

/-- A request that completed is not held any more. -/
theorem Collected.notMem {s s' : Aio φ} {f : φ} {events : List AIOEvent}
    (h : Collected s f events s') (hcore : Core s) :
    ∀ e ∈ s'.inFlight, e.request ∉ events.map AIOEvent.obj := by
  obtain ⟨_, reaped, hreaped, hperm⟩ := reap_eq_some h.reaped
  have hnodup := (hperm.map Submitted.request).nodup_iff.mp hcore.flight_nodup
  rw [List.map_append, hreaped] at hnodup
  intro e he hobj
  exact (List.nodup_append.mp hnodup).2.2 _ hobj _ (List.mem_map.mpr ⟨e, he, rfl⟩) rfl

end

/-! ## Runs -/

/-- A call: the caller moves an AIOFile, or reads. -/
inductive AioCall (φ : Type) where
  | seek (aioFile : φ) (offset : Int)
  | readFileBuffer (aioFile : φ) (length page : Nat) (kernel : Kernel)
  | readFileBufferList (aioFile : φ) (bufferList : FileBufferList) (length : Int)
      (pages : Nat → Nat) (kernel : Kernel)

section

variable {φ : Type} [DecidableEq φ]

/-- A call, as far as the kernel can answer it that way. -/
def step (s : Aio φ) : AioCall φ → Option (Unit × Aio φ)
  | .seek f offset => some ((), s.setFile f { s.files f with offset := offset })
  | .readFileBuffer f length page kernel =>
    (s.readFileBuffer f length page kernel).map fun result => ((), result.2)
  | .readFileBufferList f bufferList length pages kernel =>
    (s.readFileBufferList f bufferList length pages kernel).map fun result => ((), result.2)

/-- How many requests of an AIOFile the kernel holds. -/
def held (s : Aio φ) (f : φ) : Nat := s.inFlight.countP (·.file = f)

/-- What is counted is what the kernel holds, and what it holds is not in the pool. -/
structure Tracked (s : Aio φ) : Prop where
  remaining : ∀ f, (s.files f).numRequestsRemaining = s.held f
  pool_nodup : s.pool.Nodup
  notMem_pool : ∀ e ∈ s.inFlight, e.request ∉ s.pool

/-- The condition on a call. A single read is refused without events, or taken and
completed at once. A read of a list with requests left gets events of this AIOFile, and at
least one if its ticket is complete; without, all its reads find room and are taken, and
only they complete. -/
def Fits (s : Aio φ) : AioCall φ → Prop
  | .seek _ _ => True
  | .readFileBuffer _ length _ kernel =>
    MEMORY_PAGE_SIZE < length ∨ s.requestQueue.capacity = 0 ∨
      (kernel.ioSubmit ≤ 0 ∧ kernel.ioGetEvents.getD [] = []) ∨
      (kernel.ioSubmit = 1 ∧ ∃ event, kernel.ioGetEvents = some [event] ∧ s.NewOnly [event])
  | .readFileBufferList f _ length _ kernel =>
    ∃ events, kernel.ioGetEvents = some events ∧
      if 0 < (s.files f).numRequestsRemaining then
        (∀ event ∈ events, ∀ e ∈ s.inFlight, e.request = event.obj → e.file = f) ∧
          ((s.files f).aioTicket.numEvents = (s.files f).aioTicket.numRequests → events ≠ [])
      else
        numBlocksOf length ≤ s.requestQueue.capacity ∧
          (numBlocksOf length ≠ 0 → kernel.ioSubmit = numBlocksOf length) ∧ s.NewOnly events

/-! ## The invariant -/

/-- Between calls: events are to come for all requests of a ticket, or for none. -/
structure Steady (s : Aio φ) (f : φ) : Prop where
  pending : (s.files f).aioTicket.numEvents < (s.files f).aioTicket.numRequests →
    (s.files f).aioTicket.numEvents + s.held f = (s.files f).aioTicket.numRequests ∨
      ∀ e ∈ s.inFlight, e.request ∉ s.owned f
  held_le : s.held f ≤ 8
  bounded : (s.files f).aioTicket.numEvents + s.held f ≤ 9

/-- The invariant of a run. -/
structure Inv (s : Aio φ) : Prop extends Core s where
  remaining : ∀ f, (s.files f).numRequestsRemaining = s.held f
  steady : ∀ f, Steady s f

theorem Inv.tracked {s : Aio φ} (h : Inv s) : Tracked s :=
  ⟨h.remaining, h.poolOk.nodup, h.flight_pool⟩

/-! ## Counting -/

/-- Requests of one AIOFile only. -/
theorem countP_file {l : List (Submitted φ)} {f : φ} (h : ∀ e ∈ l, e.file = f) :
    l.countP (·.file = f) = l.length ∧ ∀ g, g ≠ f → l.countP (·.file = g) = 0 := by
  refine ⟨List.countP_eq_length.mpr fun e he => decide_eq_true (h e he), fun g hg => ?_⟩
  refine List.countP_eq_zero.mpr fun e he hfile => hg ?_
  rw [← of_decide_eq_true hfile, h e he]

/-- What the kernel takes counts for the AIOFile. -/
theorem Issued.held {s s' : Aio φ} {f : φ} {pages : List Nat} {reqs : List RequestPtr}
    {taken : Nat} (h : Issued s f pages reqs taken s') :
    s'.held f = s.held f + taken ∧ ∀ g, g ≠ f → s'.held g = s.held g := by
  have hlength : ((reqs.take taken).map fun r => (⟨r, f, s'.requests r⟩ : Submitted φ)).length =
      taken := by
    rw [List.length_map, List.length_take]
    exact Nat.min_eq_left h.taken_le
  obtain ⟨hself, hne⟩ := countP_file (f := f)
    (l := (reqs.take taken).map fun r => (⟨r, f, s'.requests r⟩ : Submitted φ)) (by
      intro e he
      obtain ⟨r, _, rfl⟩ := List.mem_map.mp he
      rfl)
  refine ⟨?_, fun g hg => ?_⟩
  · unfold Aio.held
    rw [h.inFlight, List.countP_append, hself, hlength]
  · unfold Aio.held
    rw [h.inFlight, List.countP_append, hne g hg, Nat.add_zero]

/-- Events of an AIOFile count for it. -/
theorem Collected.held {s s' : Aio φ} {f : φ} {events : List AIOEvent}
    (h : Collected s f events s')
    (hfile : ∀ event ∈ events, ∀ e ∈ s.inFlight, e.request = event.obj → e.file = f) :
    s.held f = events.length + s'.held f ∧ ∀ g, g ≠ f → s'.held g = s.held g := by
  obtain ⟨_, reaped, hreaped, hperm⟩ := reap_eq_some h.reaped
  have hlength : reaped.length = events.length := by
    have hlength := congrArg List.length hreaped
    rw [List.length_map, List.length_map] at hlength
    exact hlength
  have hall : ∀ e ∈ reaped, e.file = f := by
    intro e he
    have hobj : e.request ∈ events.map AIOEvent.obj :=
      hreaped ▸ List.mem_map.mpr ⟨e, he, rfl⟩
    obtain ⟨event, hevent, heq⟩ := List.mem_map.mp hobj
    exact hfile event hevent e (hperm.mem_iff.mpr (List.mem_append_left _ he)) heq.symm
  obtain ⟨hself, hne⟩ := countP_file hall
  refine ⟨?_, fun g hg => ?_⟩
  · unfold Aio.held
    rw [hperm.countP_eq, List.countP_append, hself, hlength]
  · unfold Aio.held
    rw [hperm.countP_eq, List.countP_append, hne g hg, Nat.zero_add]

/-- A call leaves the tickets of the other AIOFiles as they are. -/
theorem Steady.of_ne {s s' : Aio φ} {f g : φ} (h : Steady s g) (hg : g ≠ f) (hcore : Core s')
    (hfiles : s'.files g = s.files g) (hheld : s'.held g = s.held g)
    (hflight : ∀ e ∈ s'.inFlight, e ∈ s.inFlight ∨ e.file = f) : Steady s' g := by
  have howned : s'.owned g = s.owned g := owned_congr (congrArg AIOFile.aioTicket hfiles)
  refine ⟨?_, by rw [hheld]; exact h.held_le, by rw [hfiles, hheld]; exact h.bounded⟩
  rw [hfiles, hheld]
  intro hlt
  rcases h.pending hlt with hcount | hnone
  · exact Or.inl hcount
  · refine Or.inr fun e he hr => ?_
    rcases hflight e he with hold | hfile
    · rw [howned] at hr
      exact hnone e hold hr
    · exact hg ((hcore.owned_file g e he hr).symm.trans hfile)

/-- The state before the first call. -/
def start (capacity : Nat) : Aio φ where
  files := fun _ =>
    { aioTicket := ⟨List.replicate 8 0, List.replicate 8 ⟨0, 0⟩, 0, 0⟩
      offset := 0
      numRequestsRemaining := 0 }
  requestQueue := Fifo.empty capacity
  pool := []
  fresh := 0
  requests := fun _ => ⟨0, 0, 0⟩
  inFlight := []

theorem start_inv (capacity : Nat) : Inv (start capacity : Aio φ) where
  items := rfl
  poolOk := ⟨List.nodup_nil, nofun⟩
  flight_nodup := List.nodup_nil
  flight_pool := nofun
  flight_fresh := nofun
  owned_nodup := fun _ => List.nodup_nil
  owned_pool := fun _ _ hr => absurd hr List.not_mem_nil
  owned_fresh := fun _ _ hr => absurd hr List.not_mem_nil
  owned_file := nofun
  owned_disjoint := fun _ _ _ _ hr => absurd hr List.not_mem_nil
  remaining := fun _ => rfl
  steady := fun _ => ⟨fun h => absurd h (Nat.lt_irrefl 0), Nat.zero_le _, Nat.zero_le _⟩

/-! ## What a call keeps -/

theorem held_eq_zero {s : Aio φ} {f : φ} (h : s.held f = 0) : ∀ e ∈ s.inFlight, e.file ≠ f := by
  intro e he hfile
  exact List.countP_eq_zero.mp h e he (decide_eq_true hfile)

/-- The end of a call. -/
theorem Inv.finish {s s' : Aio φ} {f : φ} (h : Inv s) (hcore : Core s')
    (hclean : Core (s'.cleanUpAIOTicket f)) (hfiles : ∀ g, g ≠ f → s'.files g = s.files g)
    (hheld : ∀ g, g ≠ f → s'.held g = s.held g)
    (hflight : ∀ e ∈ s'.inFlight, e ∈ s.inFlight ∨ e.file = f)
    (hremaining : (s'.files f).numRequestsRemaining = s'.held f) (hsteady : Steady s' f) :
    Inv (s'.cleanUpAIOTicket f) := by
  have hall : ∀ g, (s'.files g).numRequestsRemaining = s'.held g ∧ Steady s' g := by
    intro g
    by_cases hg : g = f
    · rw [hg]
      exact ⟨hremaining, hsteady⟩
    · refine ⟨?_, (h.steady g).of_ne hg hcore (hfiles g hg) (hheld g hg) hflight⟩
      rw [hfiles g hg, hheld g hg]
      exact h.remaining g
  refine { toCore := hclean, remaining := fun g => ?_, steady := fun g => ?_ }
  · rw [cleanUpAIOTicket_eq]
    exact (hall g).1
  · have hg := (hall g).2
    rw [cleanUpAIOTicket_eq]
    exact ⟨hg.pending, hg.held_le, hg.bounded⟩

omit [DecidableEq φ] in
/-- A single read that meets the condition: as many requests are taken as complete, and only
new ones. -/
theorem single_taken {s : Aio φ} {f : φ} {length page : Nat} {kernel : Kernel}
    {reqs : List RequestPtr} (hlength : ¬ length > MEMORY_PAGE_SIZE)
    (hreqs : reqs.length = min 1 s.requestQueue.capacity)
    (hle : (kernel.ioGetEvents.getD []).length ≤ reqs.length)
    (hfits : Fits s (.readFileBuffer f length page kernel)) :
    min kernel.ioSubmit.toNat reqs.length = (kernel.ioGetEvents.getD []).length ∧
      NewOnly s (kernel.ioGetEvents.getD []) := by
  rcases hfits with hlong | hcapacity | ⟨hrefused, hnone⟩ | ⟨htaken, event, hone, hnew⟩
  · exact absurd hlong hlength
  · -- the read was dropped
    have hnil : kernel.ioGetEvents.getD [] = [] := List.length_eq_zero_iff.mp (by omega)
    rw [hnil]
    refine ⟨?_, nofun⟩
    rw [List.length_nil]
    omega
  · rw [hnone]
    refine ⟨?_, nofun⟩
    rw [List.length_nil]
    omega
  · rw [hone] at hle ⊢
    refine ⟨?_, hnew⟩
    rw [Option.getD_some, List.length_singleton] at hle ⊢
    omega

omit [DecidableEq φ] in
/-- When the one request that was taken completes, the kernel holds what it held before. -/
theorem single_completed {s s₁ s₂ : Aio φ} {f : φ} {pages : List Nat} {reqs : List RequestPtr}
    {taken : Nat} {events : List AIOEvent} (hcore : Core s₁)
    (hissued : Issued s f pages reqs taken s₁) (hcollected : Collected s₁ f events s₂)
    (hone : reqs.length ≤ 1) (htaken : taken = events.length) (hnew : NewOnly s events) :
    ∀ e ∈ s₂.inFlight, e ∈ s.inFlight := by
  obtain ⟨hsublist, reaped, hreaped, hperm⟩ := reap_eq_some hcollected.reaped
  intro e he
  rcases hissued.mem_inFlight (hsublist.subset he) with hold | ⟨hr, _⟩
  · exact hold
  -- a new request that the kernel still holds: it is the one that completed
  refine absurd ?_ (hcollected.notMem hcore e he)
  have hpos := List.length_pos_of_mem hr
  rw [List.length_take] at hpos
  obtain ⟨r, rfl⟩ := List.length_eq_one_iff.mp (show reqs.length = 1 by omega)
  obtain ⟨event, rfl⟩ := List.length_eq_one_iff.mp (show events.length = 1 by
    have htaken_le := hissued.taken_le
    omega)
  obtain ⟨x, rfl, hobj⟩ := List.map_eq_singleton_iff.mp hreaped
  have hx : x ∈ s₁.inFlight := hperm.mem_iff.mpr (List.mem_cons_self ..)
  have hxr : x.request ∈ [r] := by
    rcases hissued.mem_inFlight hx with hxold | ⟨hxr, _⟩
    · exact absurd hobj (hnew event (List.mem_singleton_self _) x hxold)
    · exact List.mem_of_mem_take hxr
  rw [List.mem_singleton.mp (List.mem_of_mem_take hr), ← List.mem_singleton.mp hxr, hobj]
  exact List.mem_singleton_self _

/-- **A single read.** -/
theorem readFileBuffer_inv {s s' : Aio φ} {f : φ} {length page : Nat} {kernel : Kernel}
    {fileBuffer : Option FileBuffer} (h : Inv s)
    (hfits : Fits s (.readFileBuffer f length page kernel))
    (hrun : s.readFileBuffer f length page kernel = some (fileBuffer, s')) : Inv s' := by
  unfold readFileBuffer at hrun
  split at hrun
  next _ =>
    cases hrun
    exact h
  next hlength =>
    obtain ⟨s₁, hsubmit, hrun⟩ := Option.bind_eq_some_iff.mp hrun
    obtain ⟨⟨n, s₂⟩, hevents, hrun⟩ := Option.bind_eq_some_iff.mp hrun
    cases hrun
    obtain ⟨reqs, hissued, hremaining⟩ := readPage_issued h.poolOk h.items hsubmit
    have hcore := hissued.core h.toCore
    have hnumEvents := hissued.numEvents
    obtain ⟨hcollected, hle, hremaining', _⟩ :=
      getEvents_collected (by rw [hnumEvents]; omega) hevents
    rw [hissued.numRequests] at hle
    have hreqs : reqs.length = min 1 s.requestQueue.capacity := hissued.length
    have hsmall : (s₁.files f).aioTicket.numEvents + (kernel.ioGetEvents.getD []).length < 2 ^ 32 := by
      rw [hnumEvents]
      omega
    obtain ⟨htaken, hnew⟩ := single_taken hlength hreqs hle hfits
    generalize kernel.ioGetEvents.getD [] = events at hcollected hle hsmall htaken hnew
    obtain ⟨hheld, hheld_ne⟩ := hissued.held
    obtain ⟨hheld', hheld_ne'⟩ := hcollected.held (hissued.newOnly hnew)
    have hold := single_completed hcore hissued hcollected (by omega) htaken hnew
    have hunused : ∀ e ∈ s₂.inFlight, e.request ∉ reqs :=
      fun e he hr => (hissued.took.unused h.toCore hr).1 e (hold e he) rfl
    have hsteady := h.steady f
    refine h.finish (hcollected.core hsmall hcore) (hcollected.cleanUp_core hsmall hcore ?_)
      (fun g hg => (hcollected.files_ne g hg).trans (hissued.files_ne g hg))
      (fun g hg => (hheld_ne' g hg).trans (hheld_ne g hg)) (fun e he => Or.inl (hold e he)) ?_ ?_
    · intro hcomplete
      rw [hissued.numRequests, hissued.owned_self, hnumEvents] at *
      rcases Nat.eq_zero_or_pos reqs.length with hzero | hpos
      · exact Or.inl hzero
      · exact Or.inr ⟨hpos, hunused⟩
    · rw [hremaining', hremaining, h.remaining f]
      omega
    · refine ⟨fun _ => Or.inr fun e he hr => ?_, ?_, ?_⟩
      · rw [hcollected.owned_self hsmall] at hr
        split at hr
        · rw [hissued.owned_self] at hr
          exact hunused e he hr
        · cases hr
      · have hle8 := hsteady.held_le
        omega
      · have hle8 := hsteady.held_le
        rw [hcollected.numEvents, Nat.mod_eq_of_lt hsmall, hnumEvents]
        omega

/-- The end of a read of a list, from the state behind `issueReads`: only requests of this
AIOFile complete. -/
theorem collectList_inv {s s₁ s₂ : Aio φ} {f : φ} {events : List AIOEvent} (h : Inv s)
    (hcore : Core s₁) (hfiles : ∀ g, g ≠ f → s₁.files g = s.files g)
    (hheld : ∀ g, g ≠ f → s₁.held g = s.held g)
    (hflight : ∀ e ∈ s₁.inFlight, e ∈ s.inFlight ∨ e.file = f)
    (hremaining : (s₁.files f).numRequestsRemaining = s₁.held f) (hsteady : Steady s₁ f)
    (hcollected : Collected s₁ f events s₂)
    (hremaining' : (s₂.files f).numRequestsRemaining = (s₁.files f).numRequestsRemaining)
    (hfile : ∀ event ∈ events, ∀ e ∈ s₁.inFlight, e.request = event.obj → e.file = f)
    (hmore : (s₁.files f).aioTicket.numEvents = (s₁.files f).aioTicket.numRequests →
      events ≠ [] ∨ (s₁.files f).aioTicket.numRequests = 0) :
    Inv ((s₂.setRemaining f ((((s₂.files f).numRequestsRemaining : Int) - (events.length : Int))
      % 2 ^ 32).toNat).cleanUpAIOTicket f) := by
  obtain ⟨hcount, hcount_ne⟩ := hcollected.held hfile
  obtain ⟨hsublist, _⟩ := reap_eq_some hcollected.reaped
  have hle8 := hsteady.held_le
  have hbounded := hsteady.bounded
  have hsmall : (s₁.files f).aioTicket.numEvents + events.length < 2 ^ 32 := by omega
  have hleft : (((s₁.held f : Int) - (events.length : Int)) % 2 ^ 32).toNat = s₂.held f := by omega
  rw [hremaining', hremaining, hleft]
  have hcollected := hcollected.setRemaining (s₂.held f)
  have hinFlight : (s₂.setRemaining f (s₂.held f)).inFlight = s₂.inFlight := rfl
  have hheld₂ : ∀ g, (s₂.setRemaining f (s₂.held f)).held g = s₂.held g := fun _ => rfl
  have hremaining₂ : ((s₂.setRemaining f (s₂.held f)).files f).numRequestsRemaining = s₂.held f := by
    rw [setRemaining, setFile_files_self]
  generalize s₂.setRemaining f (s₂.held f) = s₃ at *
  -- nothing of a ticket is held when its last event is there, or nothing was before
  have hpending : (s₁.files f).aioTicket.numEvents < (s₁.files f).aioTicket.numRequests →
      (s₁.files f).aioTicket.numEvents + events.length + s₃.held f =
          (s₁.files f).aioTicket.numRequests ∨ ∀ e ∈ s₃.inFlight, e.request ∉ s₁.owned f := by
    intro hlt
    rcases hsteady.pending hlt with hall | hnone
    · left
      rw [hheld₂ f]
      omega
    · right
      rw [hinFlight]
      exact fun e he => hnone e (hsublist.subset he)
  refine h.finish (hcollected.core hsmall hcore) (hcollected.cleanUp_core hsmall hcore ?_)
    (fun g hg => (hcollected.files_ne g hg).trans (hfiles g hg))
    (fun g hg => (hheld₂ g).trans ((hcount_ne g hg).trans (hheld g hg)))
    (fun e he => hflight e (hsublist.subset (hinFlight ▸ he))) (hremaining₂.trans (hheld₂ f).symm) ?_
  · intro hcomplete
    rcases Nat.lt_or_ge (s₁.files f).aioTicket.numEvents (s₁.files f).aioTicket.numRequests
      with hlt | hge
    · refine Or.inr ⟨hlt, fun e he hr => ?_⟩
      rcases hpending hlt with hall | hnone
      · have hzero : s₃.held f = 0 := by omega
        exact held_eq_zero hzero e he
          (hcore.owned_file f e (hsublist.subset (hinFlight ▸ he)) hr)
      · exact hnone e he hr
    · rcases hmore (by omega) with hne | hzero
      · have hpos := List.length_pos_iff.mpr hne
        omega
      · exact Or.inl hzero
  · refine ⟨?_, by rw [hheld₂]; omega, ?_⟩
    · rw [hcollected.numEvents, hcollected.numRequests, Nat.mod_eq_of_lt hsmall]
      intro hlt
      rcases hpending (by omega) with hall | hnone
      · exact Or.inl hall
      · refine Or.inr fun e he hr => hnone e he ?_
        rw [hcollected.owned_self hsmall, if_pos hlt] at hr
        exact hr
    · rw [hcollected.numEvents, Nat.mod_eq_of_lt hsmall, hheld₂]
      omega

/-- **A read of a list.** -/
theorem readFileBufferList_inv {s s' : Aio φ} {f : φ} {bufferList bufferList' : FileBufferList}
    {length : Int} {pages : Nat → Nat} {kernel : Kernel} (h : Inv s)
    (hfits : Fits s (.readFileBufferList f bufferList length pages kernel))
    (hrun : s.readFileBufferList f bufferList length pages kernel = some (bufferList', s')) :
    Inv s' := by
  obtain ⟨events, hanswer, hfits⟩ := hfits
  obtain ⟨s₁, hissue, hrun⟩ := Option.bind_eq_some_iff.mp hrun
  obtain ⟨⟨n, s₂⟩, hevents, hrun⟩ := Option.bind_eq_some_iff.mp hrun
  cases hrun
  rw [hanswer] at hevents
  have hsteady := h.steady f
  rcases issueReads_eq h.poolOk h.items hissue with ⟨hpos, rfl⟩ | ⟨hzero, reqs, hissued, hblocks⟩
  · -- requests of an earlier call are left
    rw [if_pos hpos] at hfits
    obtain ⟨hfile, hmore⟩ := hfits
    have hbounded := hsteady.bounded
    obtain ⟨hcollected, hle, hremaining, hn⟩ := getEvents_collected (by omega) hevents
    obtain ⟨rfl, _⟩ := hn events rfl
    exact collectList_inv h h.toCore (fun _ _ => rfl) (fun _ _ => rfl) (fun _ he => Or.inl he)
      (h.remaining f) hsteady hcollected hremaining hfile fun heq => Or.inl (hmore heq)
  · -- the call issues its own
    rw [if_neg (by omega)] at hfits
    obtain ⟨hroom, htaken, hnew⟩ := hfits
    have hnumEvents := hissued.numEvents
    obtain ⟨hcollected, hle, hremaining, hn⟩ :=
      getEvents_collected (by rw [hnumEvents]; omega) hevents
    obtain ⟨rfl, _⟩ := hn events rfl
    have hreqs : reqs.length = numBlocksOf length := by
      rw [hissued.length, List.length_map, List.length_range]
      exact Nat.min_eq_left hroom
    have hall : min kernel.ioSubmit.toNat reqs.length = numBlocksOf length := by
      rw [hreqs]
      by_cases hnone : numBlocksOf length = 0
      · omega
      · have hsubmit := htaken hnone
        omega
    obtain ⟨hheld, hheld_ne⟩ := hissued.held
    rw [← h.remaining f, hzero, Nat.zero_add, hall] at hheld
    have hblocks_le := numBlocksOf_le length
    refine collectList_inv h (hissued.core h.toCore) hissued.files_ne hheld_ne
      (fun e he => (hissued.mem_inFlight he).imp_right And.right) (hblocks.trans hheld.symm) ?_
      hcollected hremaining (hissued.newOnly hnew) ?_
    · refine ⟨fun _ => Or.inl ?_, by omega, by omega⟩
      rw [hnumEvents, hissued.numRequests, hheld, hreqs, Nat.zero_add]
    · rw [hnumEvents, hissued.numRequests]
      exact fun heq => Or.inr heq.symm

/-- A caller that moves an AIOFile. -/
theorem seek_inv {s : Aio φ} (h : Inv s) (f : φ) (offset : Int) :
    Inv (s.setFile f { s.files f with offset := offset }) := by
  have hticket : ∀ g, ((s.setFile f { s.files f with offset := offset }).files g).aioTicket =
      (s.files g).aioTicket ∧
      ((s.setFile f { s.files f with offset := offset }).files g).numRequestsRemaining =
        (s.files g).numRequestsRemaining := by
    intro g
    by_cases hg : g = f
    · rw [hg, setFile_files_self]
      exact ⟨rfl, rfl⟩
    · rw [setFile_files_ne _ hg]
      exact ⟨rfl, rfl⟩
  refine
    { toCore := h.congr (fun g => (hticket g).1) rfl rfl rfl rfl
      remaining := fun g => (hticket g).2.trans (h.remaining g)
      steady := fun g => ?_ }
  have hg := h.steady g
  refine ⟨?_, hg.held_le, ?_⟩
  · rw [(hticket g).1, owned_congr (hticket g).1]
    exact hg.pending
  · rw [(hticket g).1]
    exact hg.bounded

/-- **Every call that meets the condition keeps the invariant.** -/
theorem step_inv {s s' : Aio φ} {call : AioCall φ} {r : Unit} (h : Inv s) (hfits : Fits s call)
    (hrun : step s call = some (r, s')) : Inv s' := by
  cases call with
  | seek f offset =>
    cases hrun
    exact seek_inv h f offset
  | readFileBuffer f length page kernel =>
    obtain ⟨⟨fileBuffer, s₁⟩, hread, heq⟩ := Option.map_eq_some_iff.mp hrun
    cases heq
    exact readFileBuffer_inv h hfits hread
  | readFileBufferList f bufferList length pages kernel =>
    obtain ⟨⟨bufferList', s₁⟩, hread, heq⟩ := Option.map_eq_some_iff.mp hrun
    cases heq
    exact readFileBufferList_inv h hfits hread

/-- **Requests are tracked in every state of a run whose calls meet the condition.** -/
theorem run_tracked (capacity : Nat) (calls : List (AioCall φ))
    (hfits : Along step Fits calls (start capacity)) :
    Throughout step Tracked calls (start capacity) :=
  (throughout_of_keeps (Q := fun _ _ => True) (fun _ h => h.tracked) (fun _ _ _ _ => trivial)
    (fun _ _ _ _ h hfits hrun => step_inv h hfits hrun) calls (start_inv capacity) hfits).1

end

/-- Two pages are read, and complete in two calls. -/
def twoReads : List (AioCall Unit) :=
  [.readFileBufferList () initFileBufferList 8192 (fun i => 4096 * (i + 1)) ⟨2, some [⟨1, 4096⟩]⟩,
    .readFileBufferList () initFileBufferList 8192 (fun i => 4096 * (i + 1)) ⟨0, some [⟨0, 4096⟩]⟩]

theorem run_tracked_twoReads : Throughout step Tracked twoReads (start 8) := by
  refine run_tracked 8 twoReads ⟨⟨_, rfl, ?_⟩, fun r s' hrun => ?_⟩
  · refine ⟨by decide, fun _ => rfl, ?_⟩
    intro event _ e he
    cases he
  · cases hrun
    refine ⟨⟨_, rfl, ?_⟩, fun _ _ _ => trivial⟩
    refine ⟨fun _ _ _ _ _ => rfl, nofun⟩

/-- A single read is submitted and does not complete in time: the kernel holds a request, and
none is counted. -/
theorem read_times_out :
    ¬ Throughout step Tracked [.readFileBuffer () 100 4096 ⟨1, some []⟩] (start 8) := by
  intro h
  have hread := (h.2 () _ rfl).remaining ()
  exact absurd hread (by decide)

end DevopsBroker.Io.Aio
