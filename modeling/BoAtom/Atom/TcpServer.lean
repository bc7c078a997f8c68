import Mathlib.Data.List.FinRange
import BoAtom.Ae.TimeEvent
import BoAtom.Fault

/-! # Z_my_work_atom/tcp_server.c, clients and their timers

    A client has room for the ids of five time events.  `clientDelete`
    deletes the time event of each slot that is not negative;
    `server_accept_handle` sets the slots up with `memset`, to 0, and 0 is
    the id of the first time event of the loop.

    `ClientQueue` is kept as a list here, and the address, the buffers and
    the descriptor behind a client are left out: nothing below depends on
    them. -/

namespace BoAtom.Atom

/-! ## Section 1: Accept and delete -/

/-- The address of a client. -/
abbrev ClientId := Nat

/-- `long long time_event_id[5]`. -/
abbrev slotCount : Nat := 5

structure ClientStat where
  fd : Nat
  time_event_id : Fin slotCount → Int

inductive FileProc where
  | recvCmdHandle
  deriving DecidableEq, Repr

/-- The server; its time events have procedures and data of their own. -/
structure Server (T F D : Type) where
  clientQueue : List (ClientId × ClientStat)
  /-- What `malloc` gives next. -/
  nextClient : ClientId
  loop : AeEventLoop FileProc ClientId
  timers : AeTimers T F D

/-- What `server_accept_handle` finds: a descriptor, and whether
    `anetNonBlock` and `aeApiAddEvent` succeed for it. -/
structure Incoming where
  fd : Nat
  nonBlock : Bool
  added : Bool

variable {T F D : Type}

/-- `malloc` and `memset`. -/
def newClient (fd : Nat) : ClientStat where
  fd := fd
  time_event_id := fun _ => 0

def clientAdd (s : Server T F D) (tmp : ClientId) (client_stat : ClientStat) : Server T F D :=
  { s with clientQueue := (tmp, client_stat) :: s.clientQueue }

/-- The loop ends when `anetTcpAccept` gives no positive descriptor. -/
def serverAcceptHandle : List Incoming → Server T F D → Server T F D
  | [], s => s
  | x :: xs, s =>
    if x.fd = 0 then s
    else if !x.nonBlock then s
    else
      let me := s.nextClient
      let s := clientAdd { s with nextClient := me + 1 } me (newClient x.fd)
      let added := aeCreateFileEventApi x.added s.loop x.fd aeReadable .recvCmdHandle me
      serverAcceptHandle xs { s with loop := added.2 }

/-- The timers of all slots in use are deleted. -/
def deleteSlots (client : ClientStat) (timers : AeTimers T F D) : AeTimers T F D :=
  (List.finRange slotCount).foldl (fun timers i =>
    if client.time_event_id i ≥ 0 then (aeDeleteTimeEvent timers (client.time_event_id i)).2 else timers) timers

def clientDelete (s : Server T F D) : Option ClientId → Except Fault (Server T F D)
  | none => .ok s
  | some tmp =>
    match s.clientQueue.lookup tmp with
    | none => .error .nullDeref
    | some client =>
      let s := { s with clientQueue := s.clientQueue.filter fun c => c.1 ≠ tmp }
      let s := { s with loop := aeDeleteFileEvent s.loop client.fd ⟨true, true⟩ }
      .ok { s with timers := deleteSlots client s.timers }

/-! ## Section 2: Slots -/

/-- The client, with ids of its own in some of the slots. -/
def ClientStat.assign (client : ClientStat) (assigned : Fin slotCount → Option Int) : ClientStat :=
  { client with time_event_id := fun i => (assigned i).getD (client.time_event_id i) }

/-- The ids that have been assigned. -/
def ownIds (assigned : Fin slotCount → Option Int) : List Int := (List.finRange slotCount).filterMap assigned

variable {s : Server T F D} {timers : AeTimers T F D} {client : ClientStat} {me : ClientId} {fd : Nat}
  {assigned : Fin slotCount → Option Int} {id : Int}

theorem mem_ownIds : id ∈ ownIds assigned ↔ ∃ i, assigned i = some id := by
  simp only [ownIds, List.mem_filterMap, List.mem_finRange, true_and]

/-- All deletions at once. -/
theorem deleteSlots_eq (h : Numbered timers) :
    deleteSlots client timers =
      { timers with
        timeEvents := timers.timeEvents.map
          (cancel (((List.finRange slotCount).map client.time_event_id).filter (0 ≤ ·))) } := by
  rw [← foldl_delete_eq h, List.foldl_map, deleteSlots]

/-- The ids that `clientDelete` deletes: those assigned, and 0 where a slot
    has none. -/
theorem mem_slots_newClient (h : 0 ≤ id) :
    id ∈ ((List.finRange slotCount).map ((newClient fd).assign assigned).time_event_id).filter (0 ≤ ·) ↔
      id ∈ ownIds assigned ∨ (id = 0 ∧ ∃ i, assigned i = none) := by
  simp only [List.mem_filter, List.mem_map, List.mem_finRange, true_and, decide_eq_true_eq, h, and_true, mem_ownIds,
    ClientStat.assign, newClient]
  constructor
  · rintro ⟨i, hi⟩
    rcases hassigned : assigned i with _ | v
    · rw [hassigned, Option.getD_none] at hi
      exact Or.inr ⟨hi.symm, i, hassigned⟩
    · rw [hassigned, Option.getD_some] at hi
      exact Or.inl ⟨i, hi ▸ hassigned⟩
  · rintro (⟨i, hi⟩ | ⟨rfl, i, hi⟩)
    · exact ⟨i, by rw [hi, Option.getD_some]⟩
    · exact ⟨i, by rw [hi, Option.getD_none]⟩

/-! ## Section 3: Whose timers are deleted -/

/-- The events whose ids were assigned to the client are marked as deleted,
    and all others are as they were. -/
def CancelsOwn (assigned : Fin slotCount → Option Int) (s s' : Server T F D) : Prop :=
  s'.timers.timeEvents = s.timers.timeEvents.map (cancel (ownIds assigned))

/-- **Dropping a client** cancels its own timers alone just when its slots
    are all assigned, or the timer 0 is its own, or no such timer is
    scheduled. -/
theorem clientDelete_own_iff (calls : List (TimeCall T F D)) (htimers : s.timers = calls.foldl timeStep aeNoTimers)
    (hclient : s.clientQueue.lookup me = some ((newClient fd).assign assigned)) :
    ∃ s', clientDelete s (some me) = .ok s' ∧
      (CancelsOwn assigned s s' ↔
        (∀ i, assigned i ≠ none) ∨ (∃ i, assigned i = some 0) ∨ ∀ te ∈ s.timers.timeEvents, te.id ≠ 0) := by
  have hnumbered : Numbered s.timers := by
    rw [htimers]
    exact numbered_run calls
  refine ⟨_, by rw [clientDelete, hclient], ?_⟩
  rw [CancelsOwn, deleteSlots_eq hnumbered, List.map_inj_left]
  -- event by event
  have hevent : ∀ te ∈ s.timers.timeEvents,
      cancel (((List.finRange slotCount).map ((newClient fd).assign assigned).time_event_id).filter (0 ≤ ·)) te =
          cancel (ownIds assigned) te ↔
        (te.id = 0 → (∃ i, assigned i = none) → ∃ i, assigned i = some 0) := by
    intro te hte
    rcases hnumbered.issued te hte with hdeleted | ⟨hnonneg, -⟩
    · rw [cancel_deleted _ hdeleted, cancel_deleted _ hdeleted, hdeleted]
      simp [aeDeletedEventId]
    · have hscheduled : te.id ≠ aeDeletedEventId := by
        rw [aeDeletedEventId]
        omega
      rw [cancel_eq_iff hscheduled, mem_slots_newClient hnonneg, or_iff_left_iff_imp, and_imp]
      constructor
      · intro h hzero hnone
        rw [← hzero]
        exact mem_ownIds.mp (h hzero hnone)
      · intro h hzero hnone
        rw [mem_ownIds, hzero]
        exact h hzero hnone
  constructor
  · intro h
    by_cases hall : ∀ i, assigned i ≠ none
    · exact Or.inl hall
    push Not at hall
    by_cases hown : ∃ i, assigned i = some 0
    · exact Or.inr (Or.inl hown)
    · -- an unused slot stands for the timer 0
      refine Or.inr (Or.inr ?_)
      intro te hte hzero
      exact hown ((hevent te hte).mp (h te hte) hzero hall)
  · intro h te hte
    rw [hevent te hte]
    intro hzero hnone
    rcases h with hall | hown | hnobody
    · obtain ⟨i, hi⟩ := hnone
      exact absurd hi (hall i)
    · exact hown
    · exact absurd hzero (hnobody te hte)

/-- One time event of the program, with id 0. -/
def programTimer : List (TimeCall Nat Nat Nat) := [.create true (0, 0) 1000 7 none none]

/-- A server with the time events of `calls` that has accepted one client,
    with `assigned` in the slots of the client. -/
def serverWith (calls : List (TimeCall Nat Nat Nat)) (assigned : Fin slotCount → Option Int) : Server Nat Nat Nat :=
  let s : Server Nat Nat Nat := ⟨[], 0, aeCreateEventLoop 1000, calls.foldl timeStep aeNoTimers⟩
  let s := serverAcceptHandle [⟨5, true, true⟩] s
  { s with clientQueue := s.clientQueue.map fun c => (c.1, c.2.assign assigned) }

/-- The timer 0 in the first slot. -/
def firstSlot : Fin slotCount → Option Int := fun i => if i = 0 then some 0 else none

/-- The client has the timer 0. -/
theorem clientDelete_own_iff_first :
    ∃ s', clientDelete (serverWith programTimer firstSlot) (some 0) = .ok s' ∧
      (CancelsOwn firstSlot (serverWith programTimer firstSlot) s' ↔
        (∀ i, firstSlot i ≠ none) ∨ (∃ i, firstSlot i = some 0) ∨
          ∀ te ∈ (serverWith programTimer firstSlot).timers.timeEvents, te.id ≠ 0) :=
  clientDelete_own_iff programTimer rfl rfl

/-- The timer 0 is the program's, and the client has none: it is deleted
    with the client. -/
theorem clientDelete_cancels_others :
    ∃ s', clientDelete (serverWith programTimer fun _ => none) (some 0) = .ok s' ∧
      s'.timers.timeEvents.map AeTimeEvent.id = [-1] ∧
      ¬ CancelsOwn (fun _ => none) (serverWith programTimer fun _ => none) s' := by
  refine ⟨_, rfl, by decide, ?_⟩
  rw [CancelsOwn]
  decide

end BoAtom.Atom
