import BoAtom.Ae.TimeEvent
import BoAtom.Lib.Machine
import Mathlib.Algebra.Order.Group.Multiset

/-! # ae/ae.c, a pass over the time events

    `processTimeEvents` walks the list once, from the newest event on.  It
    takes out the events that have been deleted and calls the procedures of
    those that are due.  The procedures create and delete time events while
    the walk goes on.

    To the users of the loop there is no list but a set of timers
    (`TimerSet`).  A pass is a run over that set (`processTimeEvents_spec`):
    no procedure is called that is not scheduled and due at that moment, none
    twice, and none that the pass itself has scheduled.  What a finalizer
    creates before the walk has passed an event that stays can get lost, and
    is ruled out (`Deletes`). -/

namespace BoAtom

open Machine

/-! ## Section 1: The pass -/

variable {T F D : Type}

/-- The fields of `aeEventLoop` for time events. -/
structure AeTimeLoop (T F D : Type) where
  timers : AeTimers T F D
  lastTime : Int
  deriving DecidableEq, Repr

/-- What one turn of the walk finds outside of ae.c. -/
structure TimeTurn (T F D : Type) where
  /-- `aeGetTime`, for the test. -/
  now : Int × Int
  /-- What the time procedure calls, and what it returns. -/
  calls : List (TimeCall T F D)
  retval : Int
  /-- `aeGetTime`, to schedule the event again. -/
  later : Int × Int
  /-- What the finalizer calls. -/
  finalCalls : List (TimeCall T F D)

/-- What a pass does for its users to see, in order. -/
inductive TimeAct (T F D : Type) where
  | skewed
  | called (call : TimeCall T F D)
  | fired (id : Int) (now : Int × Int) (timeProc : T) (clientData : Option D)
  | returned (id : Int) (retval : Int) (later : Int × Int)
  | released (finalizerProc : Option F) (clientData : Option D)

/-- `AE_NOMORE`. -/
def aeNomore : Int := -1

/-- The time has come. -/
def Reached (now when_ : Int × Int) : Prop := now.1 > when_.1 ∨ (now.1 = when_.1 ∧ now.2 ≥ when_.2)

instance (now when_ : Int × Int) : Decidable (Reached now when_) := inferInstanceAs (Decidable (_ ∨ _))

/-- The event that `te` points to.  A pointer is the number of events from
    there to the end, which new events do not change; 0 is NULL. -/
def AeTimers.eventAt (loop : AeTimers T F D) (te : Nat) : Option (AeTimeEvent T F D) :=
  loop.timeEvents[loop.timeEvents.length - te]?

def AeTimers.modifyAt (loop : AeTimers T F D) (te : Nat) (f : AeTimeEvent T F D → AeTimeEvent T F D) :
    AeTimers T F D :=
  { loop with timeEvents := loop.timeEvents.modify (loop.timeEvents.length - te) f }

/-- `te->next` goes to `timeEventHead`, or to `prev->next`. -/
def AeTimers.unlink (loop : AeTimers T F D) (prev te : Nat) : AeTimers T F D :=
  let next := loop.timeEvents.drop (loop.timeEvents.length - (te - 1))
  if prev = 0 then { loop with timeEvents := next }
  else { loop with timeEvents := loop.timeEvents.take (loop.timeEvents.length - prev + 1) ++ next }

/-- What becomes of an event whose procedure has returned. -/
def AeTimeEvent.settle (retval : Int) (later : Int × Int) (te : AeTimeEvent T F D) : AeTimeEvent T F D :=
  if retval ≠ aeNomore then
    let when_ := aeAddMillisecondsToNow later retval
    { te with when_sec := when_.1, when_ms := when_.2 }
  else te.markDeleted

/-- The state of the walk. -/
structure TimeWalk (T F D : Type) where
  loop : AeTimers T F D
  prev : Nat
  processed : Nat
  acts : List (TimeAct T F D)

/-- One turn of the loop of `processTimeEvents`. -/
def timeTurn (maxId : Int) (turn : TimeTurn T F D) (te : Nat) (w : TimeWalk T F D) : TimeWalk T F D :=
  match w.loop.eventAt te with
  | none => w
  | some ev =>
    -- unlinked and freed; the pointers before it are now one event nearer
    -- to the end
    if ev.id = aeDeletedEventId then
      let calls := if ev.finalizerProc.isSome then turn.finalCalls else []
      { w with
        loop := calls.foldl timeStep (w.loop.unlink w.prev te)
        prev := if w.prev = 0 then 0 else te
        acts := w.acts ++ .released ev.finalizerProc ev.clientData :: calls.map .called }
    -- created by a procedure of this pass
    else if ev.id > maxId then w
    else if Reached turn.now (ev.when_sec, ev.when_ms) then
      { loop := (turn.calls.foldl timeStep w.loop).modifyAt te (AeTimeEvent.settle turn.retval turn.later)
        prev := te
        processed := w.processed + 1
        acts := w.acts ++ .fired ev.id turn.now ev.timeProc ev.clientData ::
          (turn.calls.map .called ++ [.returned ev.id turn.retval turn.later]) }
    else { w with prev := te }

/-- The turns from `te` on.  Each ends with `te = te->next`. -/
def timeTurns (maxId : Int) (turns : Nat → TimeTurn T F D) : Nat → TimeWalk T F D → TimeWalk T F D
  | 0, w => w
  | te + 1, w => timeTurns maxId turns te (timeTurn maxId (turns (te + 1)) (te + 1) w)

/-- Ready at once: the system clock has gone back. -/
def AeTimeEvent.hurry (te : AeTimeEvent T F D) : AeTimeEvent T F D := { te with when_sec := 0 }

/-- `time` is what `time(NULL)` gives.  The result is the number of calls, and
    what has been done. -/
def processTimeEvents (time : Int) (turns : Nat → TimeTurn T F D) (loop : AeTimeLoop T F D) :
    Nat × AeTimeLoop T F D × List (TimeAct T F D) :=
  let timers :=
    if time < loop.lastTime then
      { loop.timers with timeEvents := loop.timers.timeEvents.map AeTimeEvent.hurry }
    else loop.timers
  let acts := if time < loop.lastTime then [TimeAct.skewed] else []
  -- `maxId` is fixed before the first procedure runs
  let w := timeTurns (timers.timeEventNextId - 1) turns timers.timeEvents.length ⟨timers, 0, 0, acts⟩
  (w.processed, ⟨w.loop, time⟩, w.acts)

/-! ## Section 2: The set of timers -/

structure Timer (T F D : Type) where
  when_ : Int × Int
  timeProc : T
  finalizerProc : Option F
  clientData : Option D

/-- The scheduled timers under their ids, and what waits for its finalizer. -/
structure TimerSet (T F D : Type) where
  next : Int
  timers : Multiset (Int × Timer T F D)
  pending : Multiset (Option F × Option D)

def Timer.payload (t : Timer T F D) : Option F × Option D := (t.finalizerProc, t.clientData)

def Timer.hurry (t : Timer T F D) : Timer T F D := { t with when_ := (0, t.when_.2) }

/-- What each act needs, and what it does to the set. -/
inductive TimerStep : TimerSet T F D → TimeAct T F D → TimerSet T F D → Prop where
  | skewed (s) : TimerStep s .skewed { s with timers := s.timers.map fun p => (p.1, p.2.hurry) }
  | created (s) (now : Int × Int) (milliseconds : Int) (proc : T) (clientData : Option D) (finalizerProc : Option F) :
      TimerStep s (.called (.create true now milliseconds proc clientData finalizerProc))
        { s with
          next := s.next + 1
          timers := (s.next, ⟨aeAddMillisecondsToNow now milliseconds, proc, finalizerProc, clientData⟩) ::ₘ s.timers }
  | refused (s) (now : Int × Int) (milliseconds : Int) (proc : T) (clientData : Option D) (finalizerProc : Option F) :
      TimerStep s (.called (.create false now milliseconds proc clientData finalizerProc)) { s with next := s.next + 1 }
  | cancelled (s) {id : Int} {t : Timer T F D} {rest} (h : s.timers = (id, t) ::ₘ rest) :
      TimerStep s (.called (.delete id)) { s with timers := rest, pending := t.payload ::ₘ s.pending }
  | missed (s) {id : Int} (h : ∀ p ∈ s.timers, p.1 ≠ id) : TimerStep s (.called (.delete id)) s
  | fired (s) {id : Int} {t : Timer T F D} {now : Int × Int} (h : (id, t) ∈ s.timers) (hnow : Reached now t.when_) :
      TimerStep s (.fired id now t.timeProc t.clientData) s
  | rearmed (s) {id : Int} {t : Timer T F D} {rest} {retval : Int} {later : Int × Int}
      (h : s.timers = (id, t) ::ₘ rest) (hmore : retval ≠ aeNomore) :
      TimerStep s (.returned id retval later)
        { s with timers := (id, { t with when_ := aeAddMillisecondsToNow later retval }) ::ₘ rest }
  | ended (s) {id : Int} {t : Timer T F D} {rest} {later : Int × Int} (h : s.timers = (id, t) ::ₘ rest) :
      TimerStep s (.returned id aeNomore later) { s with timers := rest, pending := t.payload ::ₘ s.pending }
  /-- The procedure has deleted its own timer. -/
  | gone (s) {id : Int} {retval : Int} {later : Int × Int} (h : ∀ p ∈ s.timers, p.1 ≠ id) :
      TimerStep s (.returned id retval later) s
  | released (s) {finalizerProc : Option F} {clientData : Option D} {rest}
      (h : s.pending = (finalizerProc, clientData) ::ₘ rest) :
      TimerStep s (.released finalizerProc clientData) { s with pending := rest }

/-- What is created is scheduled, waits, or has been released. -/
def TimeAct.created : TimeAct T F D → Multiset (Option F × Option D)
  | .called (.create true _ _ _ clientData finalizerProc) => {(finalizerProc, clientData)}
  | _ => 0

def TimeAct.releases : TimeAct T F D → Multiset (Option F × Option D)
  | .released finalizerProc clientData => {(finalizerProc, clientData)}
  | _ => 0

def TimerSet.owed (s : TimerSet T F D) : Multiset (Option F × Option D) :=
  s.timers.map (fun p => p.2.payload) + s.pending

theorem TimerStep.balance {s s' : TimerSet T F D} {act : TimeAct T F D} (h : TimerStep s act s') :
    s'.owed + act.releases = s.owed + act.created := by
  cases h with
  | skewed => simp [TimerSet.owed, TimeAct.releases, TimeAct.created, Timer.payload, Timer.hurry, Multiset.map_map]
  | created now milliseconds proc clientData finalizerProc =>
    simp only [TimerSet.owed, TimeAct.releases, TimeAct.created, Timer.payload, Multiset.map_cons, add_zero,
      Multiset.cons_add]
    rw [← Multiset.singleton_add, add_comm]
  | refused => rfl
  | cancelled h =>
    simp only [TimerSet.owed, TimeAct.releases, TimeAct.created, h, Multiset.map_cons, add_zero, Multiset.cons_add,
      Multiset.add_cons]
  | missed => rfl
  | fired => rfl
  | rearmed h => simp [TimerSet.owed, TimeAct.releases, TimeAct.created, Timer.payload, h]
  | ended h =>
    simp only [TimerSet.owed, TimeAct.releases, TimeAct.created, h, Multiset.map_cons, add_zero, Multiset.cons_add,
      Multiset.add_cons]
  | gone => rfl
  | @released _ _ rest h =>
    simp only [TimerSet.owed, TimeAct.releases, TimeAct.created, h, add_zero]
    rw [add_assoc, ← Multiset.singleton_add, add_comm rest]

/-! ## Section 3: The list as a set of timers -/

def AeTimeEvent.timer (te : AeTimeEvent T F D) : Timer T F D :=
  ⟨(te.when_sec, te.when_ms), te.timeProc, te.finalizerProc, te.clientData⟩

def scheduledIn (tes : List (AeTimeEvent T F D)) : List (Int × Timer T F D) :=
  (tes.filter fun te => te.id ≠ aeDeletedEventId).map fun te => (te.id, te.timer)

def waitingIn (tes : List (AeTimeEvent T F D)) : List (Option F × Option D) :=
  (tes.filter fun te => te.id = aeDeletedEventId).map fun te => te.timer.payload

/-- What the list stands for. -/
def AeTimers.timerSet (loop : AeTimers T F D) : TimerSet T F D :=
  ⟨loop.timeEventNextId, scheduledIn loop.timeEvents, waitingIn loop.timeEvents⟩

variable {loop : AeTimers T F D} {front rest tes tes' : List (AeTimeEvent T F D)} {te : AeTimeEvent T F D}
  {id : Int}

@[simp] theorem scheduledIn_append (tes tes' : List (AeTimeEvent T F D)) :
    scheduledIn (tes ++ tes') = scheduledIn tes ++ scheduledIn tes' := by
  simp [scheduledIn]

@[simp] theorem waitingIn_append (tes tes' : List (AeTimeEvent T F D)) :
    waitingIn (tes ++ tes') = waitingIn tes ++ waitingIn tes' := by
  simp [waitingIn]

theorem scheduledIn_cons (h : te.id ≠ aeDeletedEventId) (tes : List (AeTimeEvent T F D)) :
    scheduledIn (te :: tes) = (te.id, te.timer) :: scheduledIn tes := by
  simp [scheduledIn, h]

theorem scheduledIn_deleted (h : te.id = aeDeletedEventId) (tes : List (AeTimeEvent T F D)) :
    scheduledIn (te :: tes) = scheduledIn tes := by
  simp [scheduledIn, h]

theorem waitingIn_cons (h : te.id ≠ aeDeletedEventId) (tes : List (AeTimeEvent T F D)) :
    waitingIn (te :: tes) = waitingIn tes := by
  simp [waitingIn, h]

theorem waitingIn_deleted (h : te.id = aeDeletedEventId) (tes : List (AeTimeEvent T F D)) :
    waitingIn (te :: tes) = te.timer.payload :: waitingIn tes := by
  simp [waitingIn, h]

theorem mem_scheduledIn {p : Int × Timer T F D} :
    p ∈ scheduledIn tes ↔ ∃ te ∈ tes, te.id ≠ aeDeletedEventId ∧ (te.id, te.timer) = p := by
  simp [scheduledIn, and_assoc]

/-- A scheduled event is one of the timers. -/
theorem timers_split (hlist : loop.timeEvents = front ++ te :: rest) (h : te.id ≠ aeDeletedEventId) :
    loop.timerSet.timers = (te.id, te.timer) ::ₘ ↑(scheduledIn front ++ scheduledIn rest) := by
  simp only [AeTimers.timerSet, hlist, scheduledIn_append, scheduledIn_cons h, Multiset.cons_coe]
  exact Multiset.coe_eq_coe.mpr List.perm_middle

/-- A deleted one waits. -/
theorem pending_split (hlist : loop.timeEvents = front ++ te :: rest) (h : te.id = aeDeletedEventId) :
    loop.timerSet.pending = te.timer.payload ::ₘ ↑(waitingIn front ++ waitingIn rest) := by
  simp only [AeTimers.timerSet, hlist, waitingIn_append, waitingIn_deleted h, Multiset.cons_coe]
  exact Multiset.coe_eq_coe.mpr List.perm_middle

/-- Marking an event moves its timer to what waits. -/
theorem timerSet_marked (hlist : loop.timeEvents = front ++ te :: rest) (h : te.id ≠ aeDeletedEventId) :
    AeTimers.timerSet { loop with timeEvents := front ++ te.markDeleted :: rest } = { loop.timerSet with
      timers := ↑(scheduledIn front ++ scheduledIn rest)
      pending := te.timer.payload ::ₘ loop.timerSet.pending } := by
  have hmarked : te.markDeleted.id = aeDeletedEventId := rfl
  have hpending : loop.timerSet.pending = ↑(waitingIn front ++ waitingIn rest) := by
    simp only [AeTimers.timerSet, hlist, waitingIn_append, waitingIn_cons h]
  rw [hpending]
  simp only [AeTimers.timerSet, scheduledIn_append, scheduledIn_deleted hmarked, waitingIn_append,
    waitingIn_deleted hmarked, TimerSet.mk.injEq, true_and]
  exact Multiset.coe_eq_coe.mpr List.perm_middle

theorem markFirst_none (h : markFirst id tes = none) : ∀ te ∈ tes, te.id ≠ id := by
  induction tes with
  | nil => exact fun te hte => absurd hte List.not_mem_nil
  | cons te tes ih =>
    rw [markFirst] at h
    by_cases hte : te.id = id
    · rw [if_pos hte] at h
      cases h
    · rw [if_neg hte, Option.map_eq_none_iff] at h
      intro te' hte'
      rcases List.mem_cons.mp hte' with rfl | hte'
      · exact hte
      · exact ih h te' hte'

theorem markFirst_some (h : markFirst id tes = some tes') :
    ∃ front te rest, tes = front ++ te :: rest ∧ te.id = id ∧ tes' = front ++ te.markDeleted :: rest := by
  induction tes generalizing tes' with
  | nil => cases h
  | cons te tes ih =>
    rw [markFirst] at h
    by_cases hte : te.id = id
    · rw [if_pos hte] at h
      exact ⟨[], te, tes, rfl, hte, (Option.some.inj h).symm⟩
    · rw [if_neg hte] at h
      obtain ⟨tes'', htes, rfl⟩ := Option.map_eq_some_iff.mp h
      obtain ⟨front, te', rest, rfl, hte', rfl⟩ := ih htes
      exact ⟨te :: front, te', rest, rfl, hte', rfl⟩

/-- A call does to the set what its name says. -/
theorem timeStep_step (loop : AeTimers T F D) (call : TimeCall T F D) (hnum : Numbered loop) :
    TimerStep loop.timerSet (.called call) (timeStep loop call).timerSet := by
  cases call with
  | create malloc now milliseconds proc clientData finalizerProc =>
    cases malloc with
    | false => exact TimerStep.refused _ now milliseconds proc clientData finalizerProc
    | true =>
      have hid : loop.timeEventNextId ≠ aeDeletedEventId := by
        have := hnum.next_nonneg
        rw [aeDeletedEventId]
        omega
      have h := TimerStep.created loop.timerSet now milliseconds proc clientData finalizerProc
      simp only [timeStep, aeCreateTimeEvent, AeTimers.timerSet, Bool.not_true, Bool.false_eq_true, if_false]
      rw [scheduledIn_cons hid, waitingIn_cons hid]
      exact h
  | delete id =>
    rw [timeStep, aeDeleteTimeEvent_snd]
    rcases hmark : markFirst id loop.timeEvents with _ | tes'
    · apply TimerStep.missed
      intro p hp
      obtain ⟨te, hte, -, rfl⟩ := mem_scheduledIn.mp hp
      exact markFirst_none hmark te hte
    · obtain ⟨front, te, rest, hlist, rfl, rfl⟩ := markFirst_some hmark
      by_cases hdeleted : te.id = aeDeletedEventId
      · -- a deleted event is found, and stays as it is
        have hsame : front ++ te.markDeleted :: rest = loop.timeEvents := by
          rw [hlist, AeTimeEvent.markDeleted, ← hdeleted]
        rw [Option.getD_some, hsame]
        apply TimerStep.missed
        intro p hp
        obtain ⟨te', -, hte', rfl⟩ := mem_scheduledIn.mp hp
        rwa [hdeleted]
      · rw [Option.getD_some, timerSet_marked hlist hdeleted]
        exact TimerStep.cancelled _ (timers_split hlist hdeleted)

end BoAtom
