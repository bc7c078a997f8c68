import BoAtom.Ae.TimePass
import BoAtom.Lib.CString

/-! # ae/ae.c, how long a poll waits

    `aeProcessEvents` lets the poll wait until the nearest time event.  The
    times are pairs of seconds and milliseconds and are compared as pairs;
    that this is the order of time rests on milliseconds below 1000
    (`ClockTime`), which every event keeps in every run (`orderly_run`). -/

namespace BoAtom

open CString

variable {T F D : Type}

/-! ## Section 1: The wait -/

/-- The loop of `aeSearchNearestTimer`. -/
def nearestFrom : Option (AeTimeEvent T F D) → List (AeTimeEvent T F D) → Option (AeTimeEvent T F D)
  | nearest, [] => nearest
  | none, te :: rest => nearestFrom (some te) rest
  | some n, te :: rest =>
    if te.when_sec < n.when_sec ∨ (te.when_sec = n.when_sec ∧ te.when_ms < n.when_ms) then
      nearestFrom (some te) rest
    else nearestFrom (some n) rest

def aeSearchNearestTimer (loop : AeTimers T F D) : Option (AeTimeEvent T F D) :=
  nearestFrom none loop.timeEvents

/-- The `tvp` of `aeProcessEvents`, in seconds and microseconds; `now` is what
    `aeGetTime` gives. -/
def pollTimeout (timeEvents dontWait : Bool) (now : Int × Int) (loop : AeTimers T F D) : Option (Int × Int) :=
  let shortest := if timeEvents && !dontWait then aeSearchNearestTimer loop else none
  match shortest with
  | some te =>
    let ms := (te.when_sec - now.1) * 1000 + te.when_ms - now.2
    if ms > 0 then some (ms.tdiv 1000, ms.tmod 1000 * 1000) else some (0, 0)
  | none => if dontWait then some (0, 0) else none

/-- The last argument of `epoll_wait`, an `int`. -/
def epollTimeout : Option (Int × Int) → Int
  | some tv => wrap32 (tv.1 * 1000 + tv.2.tdiv 1000)
  | none => -1

/-! ## Section 2: Times of events -/

/-- A reading of the clock. -/
def ClockTime (time : Int × Int) : Prop := 0 ≤ time.2 ∧ time.2 < 1000

/-- In milliseconds. -/
def total (time : Int × Int) : Int := time.1 * 1000 + time.2

def AeTimeEvent.when_ (te : AeTimeEvent T F D) : Int × Int := (te.when_sec, te.when_ms)

variable {loop : AeTimers T F D} {tes : List (AeTimeEvent T F D)} {te n : AeTimeEvent T F D} {now : Int × Int}

/-- The order of pairs is the order of time. -/
theorem reached_iff {when_ : Int × Int} (hnow : ClockTime now) (hwhen : ClockTime when_) :
    Reached now when_ ↔ total when_ ≤ total now := by
  obtain ⟨hlo, hhi⟩ := hnow
  obtain ⟨hlo', hhi'⟩ := hwhen
  unfold Reached total
  omega

theorem clockTime_add {milliseconds : Int} (hnow : ClockTime now) (hms : 0 ≤ milliseconds) :
    ClockTime (aeAddMillisecondsToNow now milliseconds) := by
  obtain ⟨hlo, hhi⟩ := hnow
  have hmod : milliseconds.tmod 1000 = milliseconds % 1000 := Int.tmod_eq_emod_of_nonneg hms
  unfold aeAddMillisecondsToNow ClockTime
  simp only [hmod]
  split
  · exact ⟨by omega, by omega⟩
  · exact ⟨by omega, by omega⟩

/-- The times of the events in the list, deleted ones included. -/
def Orderly (tes : List (AeTimeEvent T F D)) : Prop := ∀ te ∈ tes, ClockTime te.when_

/-- The clock of the caller, and no negative delay. -/
def TimeCall.Orderly : TimeCall T F D → Prop
  | .create _ now milliseconds _ _ _ => ClockTime now ∧ 0 ≤ milliseconds
  | .delete _ => True

/-- The same for the procedures, which return a delay or `AE_NOMORE`. -/
structure TimeTurn.Orderly (turn : TimeTurn T F D) : Prop where
  calls : ∀ call ∈ turn.calls, call.Orderly
  finalCalls : ∀ call ∈ turn.finalCalls, call.Orderly
  later : ClockTime turn.later
  retval : 0 ≤ turn.retval ∨ turn.retval = aeNomore

def TimeOp.Orderly : TimeOp T F D → Prop
  | .call timeCall => timeCall.Orderly
  | .pass _ turns => ∀ te, (turns te).Orderly

theorem Orderly.map (h : Orderly tes) {f : AeTimeEvent T F D → AeTimeEvent T F D}
    (hf : ∀ te, ClockTime te.when_ → ClockTime (f te).when_) : Orderly (tes.map f) := by
  intro te hte
  obtain ⟨te', hte', rfl⟩ := List.mem_map.mp hte
  exact hf te' (h te' hte')

theorem Orderly.step (h : Orderly loop.timeEvents) {call : TimeCall T F D} (hcall : call.Orderly) :
    Orderly (timeStep loop call).timeEvents := by
  cases call with
  | create malloc now milliseconds proc clientData finalizerProc =>
    cases malloc with
    | false => exact h
    | true =>
      intro te hte
      rcases List.mem_cons.mp hte with rfl | hte
      · exact clockTime_add hcall.1 hcall.2
      · exact h te hte
  | delete id =>
    rw [timeStep, aeDeleteTimeEvent_snd]
    intro te hte
    -- marking keeps the time of the event
    rcases hmark : markFirst id loop.timeEvents with _ | tes'
    · rw [hmark] at hte
      exact h te hte
    · rw [hmark] at hte
      obtain ⟨front, te', rest, hlist, -, rfl⟩ := markFirst_some hmark
      rw [hlist] at h
      rcases List.mem_append.mp hte with hte | hte
      · exact h te (List.mem_append_left _ hte)
      rcases List.mem_cons.mp hte with rfl | hte
      · exact h te' (List.mem_append_right _ List.mem_cons_self)
      · exact h te (List.mem_append_right _ (List.mem_cons_of_mem _ hte))

theorem Orderly.calls (h : Orderly loop.timeEvents) {calls : List (TimeCall T F D)}
    (hcalls : ∀ call ∈ calls, call.Orderly) : Orderly (calls.foldl timeStep loop).timeEvents := by
  induction calls generalizing loop with
  | nil => exact h
  | cons call calls ih =>
    exact ih (h.step (hcalls call List.mem_cons_self)) fun c hc => hcalls c (List.mem_cons_of_mem _ hc)

theorem Orderly.unlink (h : Orderly loop.timeEvents) (prev te : Nat) : Orderly (loop.unlink prev te).timeEvents := by
  unfold AeTimers.unlink
  intro x hx
  by_cases hprev : prev = 0
  · simp only [if_pos hprev] at hx
    exact h x (List.mem_of_mem_drop hx)
  · simp only [if_neg hprev] at hx
    rcases List.mem_append.mp hx with hx | hx
    · exact h x (List.mem_of_mem_take hx)
    · exact h x (List.mem_of_mem_drop hx)

theorem Orderly.modifyAt (h : Orderly loop.timeEvents) (te : Nat) {f : AeTimeEvent T F D → AeTimeEvent T F D}
    (hf : ∀ te, ClockTime te.when_ → ClockTime (f te).when_) : Orderly (loop.modifyAt te f).timeEvents := by
  intro x hx
  obtain ⟨i, hi⟩ := List.mem_iff_getElem?.mp hx
  rw [AeTimers.modifyAt, List.getElem?_modify] at hi
  obtain ⟨y, hy, rfl⟩ := Option.map_eq_some_iff.mp hi
  have hmem := h y (List.mem_of_getElem? hy)
  split
  · exact hf y hmem
  · exact hmem

theorem clockTime_settle {turn : TimeTurn T F D} (hturn : turn.Orderly) (h : ClockTime te.when_) :
    ClockTime (te.settle turn.retval turn.later).when_ := by
  unfold AeTimeEvent.settle
  split
  · next hmore =>
    -- scheduled again: a delay from a sound reading of the clock
    rcases hturn.retval with hnonneg | hnomore
    · exact clockTime_add hturn.later hnonneg
    · exact absurd hnomore hmore
  · exact h

variable {maxId : Int} {turns : Nat → TimeTurn T F D}

theorem Orderly.turn {turn : TimeTurn T F D} {w : TimeWalk T F D} (h : Orderly w.loop.timeEvents)
    (hturn : turn.Orderly) (te : Nat) : Orderly (timeTurn maxId turn te w).loop.timeEvents := by
  unfold timeTurn
  split
  · exact h
  split
  · -- the finalizer may not be there
    apply (h.unlink w.prev te).calls
    split
    · exact hturn.finalCalls
    · exact fun call hcall => absurd hcall List.not_mem_nil
  split
  · exact h
  split
  · exact (h.calls hturn.calls).modifyAt te fun te hte => clockTime_settle hturn hte
  · exact h

theorem Orderly.walk (hturns : ∀ te, (turns te).Orderly) :
    ∀ (te : Nat) {w : TimeWalk T F D}, Orderly w.loop.timeEvents →
      Orderly (timeTurns maxId turns te w).loop.timeEvents := by
  intro te
  induction te with
  | zero => exact fun h => h
  | succ te ih => exact fun h => ih (h.turn (hturns (te + 1)) (te + 1))

theorem Orderly.op {loop : AeTimeLoop T F D} (h : Orderly loop.timers.timeEvents) {op : TimeOp T F D}
    (hop : op.Orderly) : Orderly (timeOp loop op).1.timers.timeEvents := by
  cases op with
  | call call => exact h.step hop
  | pass time turns =>
    apply Orderly.walk hop
    split
    · exact h.map fun te hte => hte
    · exact h

theorem orderly_run {loop : AeTimeLoop T F D} (h : Orderly loop.timers.timeEvents) {ops : List (TimeOp T F D)}
    (hops : ∀ op ∈ ops, op.Orderly) : Orderly (timeRun loop ops).1.timers.timeEvents := by
  induction ops generalizing loop with
  | nil => exact h
  | cons op ops ih =>
    exact ih (h.op (hops op List.mem_cons_self)) fun op hop => hops op (List.mem_cons_of_mem _ hop)

/-! ## Section 3: The nearest event -/

theorem nearestFrom_spec (tes : List (AeTimeEvent T F D)) (n : AeTimeEvent T F D) (hn : ClockTime n.when_)
    (h : Orderly tes) :
    ∃ te, nearestFrom (some n) tes = some te ∧ (te = n ∨ te ∈ tes) ∧ total te.when_ ≤ total n.when_ ∧
      ∀ x ∈ tes, total te.when_ ≤ total x.when_ := by
  induction tes generalizing n with
  | nil => exact ⟨n, rfl, Or.inl rfl, le_refl _, fun x hx => absurd hx List.not_mem_nil⟩
  | cons a tes ih =>
    have ha : ClockTime a.when_ := h a List.mem_cons_self
    have htes : Orderly tes := fun x hx => h x (List.mem_cons_of_mem _ hx)
    -- with milliseconds below 1000 the order of pairs is the order of times
    have horder : (a.when_sec < n.when_sec ∨ (a.when_sec = n.when_sec ∧ a.when_ms < n.when_ms)) ↔
        total a.when_ < total n.when_ := by
      obtain ⟨hlo, hhi⟩ := hn
      obtain ⟨hlo', hhi'⟩ := ha
      simp only [AeTimeEvent.when_] at hlo hhi hlo' hhi'
      simp only [total, AeTimeEvent.when_]
      omega
    rw [nearestFrom]
    split
    · next hlt =>
      obtain ⟨te, hte, hmem, hle, hall⟩ := ih a ha htes
      have hbefore := horder.mp hlt
      refine ⟨te, hte, Or.inr ?_, by omega, ?_⟩
      · rcases hmem with rfl | hmem
        · exact List.mem_cons_self
        · exact List.mem_cons_of_mem _ hmem
      · intro x hx
        rcases List.mem_cons.mp hx with rfl | hx
        · exact hle
        · exact hall x hx
    · next hge =>
      obtain ⟨te, hte, hmem, hle, hall⟩ := ih n hn htes
      have hafter : total n.when_ ≤ total a.when_ := not_lt.mp fun hlt => hge (horder.mpr hlt)
      refine ⟨te, hte, ?_, hle, ?_⟩
      · rcases hmem with rfl | hmem
        · exact Or.inl rfl
        · exact Or.inr (List.mem_cons_of_mem _ hmem)
      · intro x hx
        rcases List.mem_cons.mp hx with rfl | hx
        · exact hle.trans hafter
        · exact hall x hx

theorem aeSearchNearestTimer_spec (h : Orderly loop.timeEvents) (hne : loop.timeEvents ≠ []) :
    ∃ te, aeSearchNearestTimer loop = some te ∧ te ∈ loop.timeEvents ∧
      ∀ x ∈ loop.timeEvents, total te.when_ ≤ total x.when_ := by
  rcases htes : loop.timeEvents with _ | ⟨n, tes⟩
  · exact absurd htes hne
  rw [htes] at h
  obtain ⟨te, hte, hmem, hle, hall⟩ :=
    nearestFrom_spec tes n (h n List.mem_cons_self) fun x hx => h x (List.mem_cons_of_mem _ hx)
  refine ⟨te, by rw [aeSearchNearestTimer, htes, nearestFrom, hte], ?_, ?_⟩
  · rcases hmem with rfl | hmem
    · exact List.mem_cons_self
    · exact List.mem_cons_of_mem _ hmem
  · intro x hx
    rcases List.mem_cons.mp hx with rfl | hx
    · exact hle
    · exact hall x hx

/-- The wait for one event: the time until then, or none. -/
theorem epollTimeout_spec (hnear : aeSearchNearestTimer loop = some te)
    (hrange : total te.when_ - total now < 2 ^ 31) :
    epollTimeout (pollTimeout true false now loop) = max 0 (total te.when_ - total now) := by
  have hms : (te.when_sec - now.1) * 1000 + te.when_ms - now.2 = total te.when_ - total now := by
    simp only [total, AeTimeEvent.when_]
    omega
  simp only [pollTimeout, Bool.not_false, Bool.and_self, if_true, hnear, hms]
  by_cases hpos : total te.when_ - total now > 0
  · have hdiv := Int.tdiv_eq_ediv_of_nonneg (b := 1000) hpos.le
    have hmod := Int.tmod_eq_emod_of_nonneg (b := 1000) hpos.le
    have husec : ((total te.when_ - total now) % 1000 * 1000).tdiv 1000 = (total te.when_ - total now) % 1000 :=
      Int.mul_tdiv_cancel _ (by decide)
    rw [if_pos hpos, epollTimeout, hdiv, hmod, husec, wrap32_of_range (by omega) (by omega)]
    omega
  · rw [if_neg hpos, epollTimeout, max_eq_left (by omega)]
    rfl

/-! ## Section 4: Main result -/

/-- What the poll waits at most, when the clock is at `now`. -/
structure WaitsRight (loop : AeTimers T F D) (now : Int × Int) (wait : Int) : Prop where
  /-- It does not block for ever. -/
  bounded : 0 ≤ wait
  /-- No event is slept through. -/
  early : ∀ te ∈ loop.timeEvents, wait ≤ max 0 (total te.when_ - total now)
  /-- When the time is up one of the events has come. -/
  late : ∃ te ∈ loop.timeEvents, ∀ now', ClockTime now' → total now + wait ≤ total now' → Reached now' te.when_

/-- **The poll waits for the nearest event**: in the state after any calls and
    passes, and with an event less than 2^31 ms away, when `AE_TIME_EVENTS` is
    asked for and `AE_DONT_WAIT` is not. -/
theorem poll_waits_for_nearest (time : Int) {ops : List (TimeOp T F D)} (hops : ∀ op ∈ ops, op.Orderly)
    (hsoon : ∃ te ∈ (timeRun (aeTimeLoop time) ops).1.timers.timeEvents, total te.when_ - total now < 2 ^ 31) :
    WaitsRight (timeRun (aeTimeLoop time) ops).1.timers now
      (epollTimeout (pollTimeout true false now (timeRun (aeTimeLoop time) ops).1.timers)) := by
  have h : Orderly (timeRun (aeTimeLoop time) ops).1.timers.timeEvents :=
    orderly_run (fun te hte => absurd hte List.not_mem_nil) hops
  generalize (timeRun (aeTimeLoop time) ops).1.timers = loop at h hsoon ⊢
  obtain ⟨te₀, hte₀, hrange₀⟩ := hsoon
  obtain ⟨te, hnear, hmem, hall⟩ := aeSearchNearestTimer_spec h (List.ne_nil_of_mem hte₀)
  have hleast := hall te₀ hte₀
  rw [epollTimeout_spec hnear (by omega)]
  refine ⟨le_max_left _ _, ?_, te, hmem, ?_⟩
  · intro x hx
    have := hall x hx
    exact max_le_max (le_refl 0) (by omega)
  · intro now' hclock hafter
    rw [reached_iff hclock (h te hmem)]
    have := le_max_right 0 (total te.when_ - total now)
    omega

/-- An event that comes every 200 ms. -/
def everyFifth : TimeTurn Nat Nat Nat := ⟨(10, 250), [], 200, (10, 260), []⟩

/-- Three events, and a pass in which the nearest of them fires. -/
def threeTimers : List (TimeOp Nat Nat Nat) :=
  [.call (.create true (10, 0) 500 7 none none), .call (.create true (10, 0) 200 8 none none),
    .call (.create true (10, 0) 9000 9 none none), .pass 10 fun _ => everyFifth]

/-- It is due again at 460 ms, the others at 500 and 9000 ms. -/
theorem poll_waits_for_nearest_three :
    (timeRun (aeTimeLoop 0) threeTimers).1.timers.timeEvents.map AeTimeEvent.when_ =
        [(19, 0), (10, 460), (10, 500)] ∧
      epollTimeout (pollTimeout true false (10, 300) (timeRun (aeTimeLoop 0) threeTimers).1.timers) = 160 ∧
      WaitsRight (timeRun (aeTimeLoop 0) threeTimers).1.timers (10, 300)
        (epollTimeout (pollTimeout true false (10, 300) (timeRun (aeTimeLoop 0) threeTimers).1.timers)) := by
  have hfifth : everyFifth.Orderly :=
    ⟨by simp [everyFifth], by simp [everyFifth], ⟨by decide, by decide⟩, by decide⟩
  have hops : ∀ op ∈ threeTimers, op.Orderly := by
    intro op hop
    simp only [threeTimers, List.mem_cons, List.not_mem_nil, or_false] at hop
    rcases hop with rfl | rfl | rfl | rfl
    · exact ⟨⟨by decide, by decide⟩, by decide⟩
    · exact ⟨⟨by decide, by decide⟩, by decide⟩
    · exact ⟨⟨by decide, by decide⟩, by decide⟩
    · exact fun _ => hfifth
  have hwhen : (timeRun (aeTimeLoop 0) threeTimers).1.timers.timeEvents.map AeTimeEvent.when_ =
      [(19, 0), (10, 460), (10, 500)] := by decide
  have hsoon : ∃ te ∈ (timeRun (aeTimeLoop 0) threeTimers).1.timers.timeEvents,
      total te.when_ - total (10, 300) < 2 ^ 31 := by
    obtain ⟨te, hte, hsame⟩ : ∃ te ∈ (timeRun (aeTimeLoop 0) threeTimers).1.timers.timeEvents,
        te.when_ = (10, 460) := by
      rw [← List.mem_map, hwhen]
      decide
    exact ⟨te, hte, by rw [hsame]; decide⟩
  exact ⟨hwhen, by decide, poll_waits_for_nearest 0 hops hsoon⟩

end BoAtom
