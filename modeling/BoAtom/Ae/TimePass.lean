import BoAtom.Ae.ProcessTime

/-! # Passes over the time events

    A pass is taken apart from the inside: what the calls of a procedure do
    to the list (`foldl_calls`), one turn (`Turned`), the walk (`Passed`), the
    pass (`PassDone`).  The last section is about programs that create and
    delete time events and run passes, in any order. -/

namespace BoAtom

open Machine

variable {T F D : Type} {loop : AeTimers T F D} {front rest tes : List (AeTimeEvent T F D)}
  {te : AeTimeEvent T F D} {id : Int}

/-! ## Section 1: What the procedures call -/

/-- A call that creates nothing. -/
def TimeCall.Deletes : TimeCall T F D → Prop
  | .create .. => False
  | .delete _ => True

def TimeCall.deletes? : TimeCall T F D → Option Int
  | .create .. => none
  | .delete id => some id

variable {calls : List (TimeCall T F D)}

theorem cancel_cancel (ids : List Int) (id : Int) (te : AeTimeEvent T F D) :
    cancel [id] (cancel ids te) = cancel (ids ++ [id]) te := by
  by_cases hmem : te.id ∈ ids
  · have hin : te.id ∈ ids ++ [id] := List.mem_append_left _ hmem
    rw [cancel.eq_1 ids, if_pos hmem, cancel.eq_1 (ids ++ [id]), if_pos hin]
    exact cancel_deleted [id] rfl
  · simp only [cancel, List.mem_append, List.mem_singleton, false_or, hmem, if_false]

theorem aeDeleteTimeEvent_cancel (id : Int) (hnum : Numbered loop) :
    (aeDeleteTimeEvent loop id).2 = { loop with timeEvents := loop.timeEvents.map (cancel [id]) } := by
  by_cases hid : id = aeDeletedEventId
  · have hsame : loop.timeEvents.map (cancel [id]) = loop.timeEvents := by
      rw [hid]
      apply List.map_id''
      intro te
      by_cases hte : te.id = aeDeletedEventId
      · exact cancel_deleted _ hte
      · rw [cancel, if_neg (by rwa [List.mem_singleton])]
    rw [hsame, hid, aeDeleteTimeEvent_snd, markFirst_deleted]
  · exact aeDeleteTimeEvent_eq hid hnum

theorem numbered_calls (hnum : Numbered loop) (calls : List (TimeCall T F D)) :
    Numbered (calls.foldl timeStep loop) := by
  induction calls generalizing loop with
  | nil => exact hnum
  | cons call calls ih => exact ih (hnum.step call)

theorem runs_calls (hnum : Numbered loop) (calls : List (TimeCall T F D)) :
    Runs TimerStep loop.timerSet (calls.map TimeAct.called) (calls.foldl timeStep loop).timerSet := by
  induction calls generalizing loop with
  | nil => exact .nil _
  | cons call calls ih => exact .cons (timeStep_step loop call hnum) (ih (hnum.step call))

theorem next_calls (loop : AeTimers T F D) (calls : List (TimeCall T F D)) :
    loop.timeEventNextId ≤ (calls.foldl timeStep loop).timeEventNextId := by
  induction calls generalizing loop with
  | nil => exact le_refl _
  | cons call calls ih =>
    have hstep : loop.timeEventNextId ≤ (timeStep loop call).timeEventNextId := by
      cases call with
      | create malloc now milliseconds proc clientData finalizerProc =>
        have hnext : (timeStep loop
            (.create malloc now milliseconds proc clientData finalizerProc)).timeEventNextId =
              loop.timeEventNextId + 1 := by
          cases malloc <;> rfl
        omega
      | delete id =>
        rw [timeStep, aeDeleteTimeEvent_snd]
    exact hstep.trans (ih _)

/-- What the calls leave in front of the events `tes`, which were there
    before: events that were in front, and new ones. -/
structure InFront (loop : AeTimers T F D) (front : List (AeTimeEvent T F D)) (calls : List (TimeCall T F D))
    (front' : List (AeTimeEvent T F D)) : Prop where
  length : front.length ≤ front'.length
  same : (∀ call ∈ calls, call.Deletes) → front'.length = front.length
  ids : ∀ x ∈ front', x.id ≠ aeDeletedEventId → (∃ y ∈ front, y.id = x.id) ∨ loop.timeEventNextId ≤ x.id

/-- The calls put events in front, and mark the others. -/
theorem foldl_calls (hnum : Numbered loop) (hlist : loop.timeEvents = front ++ tes)
    (calls : List (TimeCall T F D)) :
    ∃ front', (calls.foldl timeStep loop).timeEvents =
        front' ++ tes.map (cancel (calls.filterMap TimeCall.deletes?)) ∧ InFront loop front calls front' := by
  -- the last call acts on what the others have left, so the induction is on
  -- the front of the list
  induction calls using List.reverseRecOn with
  | nil =>
    have hsame : tes.map (cancel []) = tes := by
      rw [List.map_congr_left fun te _ => cancel_nil te, List.map_id']
    refine ⟨front, ?_, le_refl _, fun _ => rfl, fun x hx _ => Or.inl ⟨x, hx, rfl⟩⟩
    rw [List.foldl_nil, hlist, List.filterMap_nil, hsame]
  | append_singleton calls call ih =>
    obtain ⟨front', hfront', hin⟩ := ih
    rw [List.foldl_append, List.foldl_cons, List.foldl_nil, List.filterMap_append]
    cases call with
    | create malloc now milliseconds proc clientData finalizerProc =>
      have hnone : ¬ ∀ call ∈ calls ++ [.create malloc now milliseconds proc clientData finalizerProc],
          TimeCall.Deletes call := fun h => h _ (List.mem_append_right _ (List.mem_singleton_self _))
      have hids : [TimeCall.create malloc now milliseconds proc clientData finalizerProc].filterMap
          TimeCall.deletes? = [] := rfl
      rw [hids, List.append_nil]
      cases malloc with
      | false => exact ⟨front', hfront', hin.length, fun h => absurd h hnone, hin.ids⟩
      | true =>
        simp only [timeStep, aeCreateTimeEvent, Bool.not_true, Bool.false_eq_true, if_false, hfront']
        -- the new event is the head of the list
        refine ⟨_ :: front', rfl, ?_, fun h => absurd h hnone, ?_⟩
        · have := hin.length
          rw [List.length_cons]
          omega
        · intro x hx hid
          rcases List.mem_cons.mp hx with rfl | hx
          · exact Or.inr (next_calls loop calls)
          · exact hin.ids x hx hid
    | delete id =>
      have hids : [TimeCall.delete (T := T) (F := F) (D := D) id].filterMap TimeCall.deletes? = [id] := rfl
      have hmaps : tes.map (cancel [id] ∘ cancel (calls.filterMap TimeCall.deletes?)) =
          tes.map (cancel (calls.filterMap TimeCall.deletes? ++ [id])) := by
        apply List.map_congr_left
        intro te _
        exact cancel_cancel _ id te
      rw [hids, timeStep, aeDeleteTimeEvent_cancel id (numbered_calls hnum calls), hfront', List.map_append,
        List.map_map, hmaps]
      refine ⟨front'.map (cancel [id]), rfl, ?_, ?_, ?_⟩
      · rw [List.length_map]
        exact hin.length
      · intro h
        rw [List.length_map]
        exact hin.same fun call hcall => h call (List.mem_append_left _ hcall)
      · intro x hx hid
        obtain ⟨y, hy, rfl⟩ := List.mem_map.mp hx
        rcases cancel_id [id] y with hmarked | hsame
        · exact absurd hmarked hid
        · rw [hsame] at hid ⊢
          exact hin.ids y hy hid

/-! ## Section 2: Pointers into the list -/

theorem eventAt_eq (hlist : loop.timeEvents = front ++ te :: rest) : loop.eventAt (rest.length + 1) = some te := by
  rw [AeTimers.eventAt, hlist, List.length_append, List.length_cons, Nat.add_sub_cancel,
    List.getElem?_append_right (Nat.le_refl _), Nat.sub_self]
  rfl

theorem modifyAt_eq (hlist : loop.timeEvents = front ++ te :: rest) (f : AeTimeEvent T F D → AeTimeEvent T F D) :
    loop.modifyAt (rest.length + 1) f = { loop with timeEvents := front ++ f te :: rest } := by
  rw [AeTimers.modifyAt, hlist, List.length_append, List.length_cons, Nat.add_sub_cancel]
  congr 1
  simp [List.modify_eq_take_drop]

/-- `prev` is the last event that the walk has left in the list. -/
def Behind (front : List (AeTimeEvent T F D)) (te prev : Nat) : Prop :=
  (prev = 0 ∧ front = []) ∨ (prev = te + 1 ∧ front ≠ [])

theorem unlink_eq {prev : Nat} (hlist : loop.timeEvents = front ++ te :: rest)
    (hprev : Behind front (rest.length + 1) prev) :
    loop.unlink prev (rest.length + 1) = { loop with timeEvents := front ++ rest } := by
  have hdrop : loop.timeEvents.drop (loop.timeEvents.length - rest.length) = rest := by
    have hsplit : loop.timeEvents = (front ++ [te]) ++ rest := by
      rw [hlist, List.append_assoc]
      rfl
    rw [hsplit, List.length_append, Nat.add_sub_cancel]
    exact List.drop_left
  rw [AeTimers.unlink, Nat.add_sub_cancel, hdrop]
  rcases hprev with ⟨rfl, rfl⟩ | ⟨rfl, hfront⟩
  -- no event before it: `timeEventHead` is written
  · rw [if_pos rfl]
    rfl
  · have hlen : 0 < front.length := List.length_pos_of_ne_nil hfront
    have htake : loop.timeEvents.length - (rest.length + 1 + 1) + 1 = front.length := by
      rw [hlist, List.length_append, List.length_cons]
      omega
    rw [if_neg (by omega), htake, hlist, List.take_left]

/-! ## Section 3: One turn -/

/-- The events a procedure has been called for. -/
def TimeAct.fires? : TimeAct T F D → Option Int
  | .fired id _ _ _ => some id
  | _ => none

def TimeAct.deletes? : TimeAct T F D → Option Int
  | .called call => call.deletes?
  | _ => none

def TimeAct.releases? : TimeAct T F D → Option (Option F × Option D)
  | .released finalizerProc clientData => some (finalizerProc, clientData)
  | _ => none

variable {maxId : Int} {turn : TimeTurn T F D} {w w' : TimeWalk T F D} {acts acts' : List (TimeAct T F D)}

@[simp] theorem fires_called (calls : List (TimeCall T F D)) :
    (calls.map TimeAct.called).filterMap TimeAct.fires? = [] := by
  induction calls with
  | nil => rfl
  | cons call calls ih => exact ih

@[simp] theorem deletes_called (calls : List (TimeCall T F D)) :
    (calls.map TimeAct.called).filterMap TimeAct.deletes? = calls.filterMap TimeCall.deletes? := by
  rw [List.filterMap_map]
  rfl

/-- The ids stay apart when an event keeps its id or loses it. -/
theorem Numbered.replace {te' : AeTimeEvent T F D} (hnum : Numbered loop)
    (hlist : loop.timeEvents = front ++ te :: rest) (hid : te'.id = te.id ∨ te'.id = aeDeletedEventId) :
    Numbered { loop with timeEvents := front ++ te' :: rest } := by
  have hmem : te ∈ loop.timeEvents := by
    rw [hlist]
    exact List.mem_append_right _ List.mem_cons_self
  have hdistinct := hnum.distinct
  rw [hlist, List.pairwise_append, List.pairwise_cons] at hdistinct
  obtain ⟨hfront, ⟨hhead, hrest⟩, hcross⟩ := hdistinct
  constructor
  · exact hnum.next_nonneg
  · intro x hx
    rcases List.mem_append.mp hx with hx | hx
    · apply hnum.issued
      rw [hlist]
      exact List.mem_append_left _ hx
    rcases List.mem_cons.mp hx with rfl | hx
    · rcases hid with hid | hid
      · rw [hid]
        exact hnum.issued te hmem
      · exact Or.inl hid
    · apply hnum.issued
      rw [hlist]
      exact List.mem_append_right _ (List.mem_cons_of_mem _ hx)
  · show (front ++ te' :: rest).Pairwise _
    rw [List.pairwise_append, List.pairwise_cons]
    refine ⟨hfront, ⟨?_, hrest⟩, ?_⟩
    · intro x hx heq
      rcases hid with hid | hid
      · rw [hid] at heq ⊢
        exact hhead x hx heq
      · exact hid
    · intro x hx y hy heq
      rcases List.mem_cons.mp hy with rfl | hy
      · rcases hid with hid | hid
        · exact hcross x hx te List.mem_cons_self (heq.trans hid)
        · exact heq.trans hid
      · exact hcross x hx y (List.mem_cons_of_mem _ hy) heq

theorem Numbered.drop (hnum : Numbered loop) (hlist : loop.timeEvents = front ++ te :: rest) :
    Numbered { loop with timeEvents := front ++ rest } := by
  have hsub : (front ++ rest).Sublist loop.timeEvents := by
    rw [hlist]
    exact List.Sublist.append_left (List.sublist_cons_self te rest) front
  exact ⟨hnum.next_nonneg, fun x hx => hnum.issued x (hsub.subset hx), hnum.distinct.sublist hsub⟩

/-- What a turn at the event `ev`, with `rest` behind it, comes to. -/
structure Turned (turn : TimeTurn T F D) (ev : AeTimeEvent T F D) (rest : List (AeTimeEvent T F D))
    (w w' : TimeWalk T F D) (acts : List (TimeAct T F D)) : Prop where
  log : w'.acts = w.acts ++ acts
  numbered : Numbered w'.loop
  runs : Runs TimerStep w.loop.timerSet acts w'.loop.timerSet
  /-- New events are in front; of those behind some are marked. -/
  list : ∃ front, w'.loop.timeEvents = front ++ rest.map (cancel (acts.filterMap TimeAct.deletes?)) ∧
    Behind front rest.length w'.prev
  processed : w'.processed = w.processed + (acts.filterMap TimeAct.fires?).length
  fires : acts.filterMap TimeAct.fires? =
    if ev.id ≠ aeDeletedEventId ∧ Reached turn.now (ev.when_sec, ev.when_ms) then [ev.id] else []
  releases : ev.id = aeDeletedEventId → acts.filterMap TimeAct.releases? = [ev.timer.payload]

/-- The turn at a deleted event. -/
theorem timeTurn_deleted {ev : AeTimeEvent T F D} (hnum : Numbered w.loop)
    (hlist : w.loop.timeEvents = front ++ ev :: rest) (hprev : Behind front (rest.length + 1) w.prev)
    (hdeletes : ∀ call ∈ turn.finalCalls, call.Deletes) (hid : ev.id = aeDeletedEventId) :
    ∃ acts, Turned turn ev rest w (timeTurn maxId turn (rest.length + 1) w) acts := by
  obtain ⟨calls, hcalls⟩ : ∃ calls, calls = if ev.finalizerProc.isSome then turn.finalCalls else [] := ⟨_, rfl⟩
  have hdel : ∀ call ∈ calls, call.Deletes := by
    rw [hcalls]
    split
    · exact hdeletes
    · exact fun call hcall => absurd hcall List.not_mem_nil
  have hturn : timeTurn maxId turn (rest.length + 1) w =
      { w with
        loop := calls.foldl timeStep { w.loop with timeEvents := front ++ rest }
        prev := if w.prev = 0 then 0 else rest.length + 1
        acts := w.acts ++ .released ev.finalizerProc ev.clientData :: calls.map .called } := by
    simp only [timeTurn, eventAt_eq hlist, if_pos hid, unlink_eq hlist hprev, hcalls]
  have hnum' := hnum.drop hlist
  obtain ⟨front', hfront', hin⟩ := foldl_calls hnum' rfl calls
  have hset : AeTimers.timerSet { w.loop with timeEvents := front ++ rest } =
      { w.loop.timerSet with pending := ↑(waitingIn front ++ waitingIn rest) } := by
    simp only [AeTimers.timerSet, hlist, scheduledIn_append, scheduledIn_deleted hid, waitingIn_append]
  rw [hturn]
  refine ⟨.released ev.finalizerProc ev.clientData :: calls.map .called, rfl, numbered_calls hnum' calls, ?_, ?_, ?_, ?_, ?_⟩
  · apply Runs.cons (TimerStep.released _ (pending_split hlist hid))
    rw [← hset]
    exact runs_calls hnum' calls
  · have hids : (TimeAct.released ev.finalizerProc ev.clientData :: calls.map TimeAct.called).filterMap
        TimeAct.deletes? = calls.filterMap TimeCall.deletes? := deletes_called calls
    refine ⟨front', ?_, ?_⟩
    · rw [hids]
      exact hfront'
    -- finalizers create nothing, so an empty front stays empty
    · rcases hprev with ⟨hzero, hnil⟩ | ⟨hprev, hne⟩
      · left
        refine ⟨if_pos hzero, List.length_eq_zero_iff.mp ?_⟩
        rw [hin.same hdel, hnil, List.length_nil]
      · right
        refine ⟨if_neg (by omega), List.ne_nil_of_length_pos ?_⟩
        exact Nat.lt_of_lt_of_le (List.length_pos_of_ne_nil hne) hin.length
  · simp [TimeAct.fires?]
  · rw [if_neg (fun h => h.1 hid)]
    simp [TimeAct.fires?]
  · intro _
    have hcalled : (calls.map TimeAct.called).filterMap TimeAct.releases? = [] := by
      rw [List.filterMap_map]
      exact List.filterMap_eq_nil_iff.mpr fun call _ => rfl
    simp only [List.filterMap_cons, TimeAct.releases?, hcalled]
    rfl

/-- What an event is set to when its procedure has returned. -/
theorem settle_step {ev : AeTimeEvent T F D} (hlist : loop.timeEvents = front ++ te :: rest)
    (hte : te = ev ∨ te = ev.markDeleted) (hid : ev.id ≠ aeDeletedEventId)
    (hothers : ∀ x ∈ front ++ rest, x.id ≠ ev.id) (retval : Int) (later : Int × Int) :
    TimerStep loop.timerSet (.returned ev.id retval later)
      (AeTimers.timerSet { loop with timeEvents := front ++ te.settle retval later :: rest }) := by
  -- the procedure may have deleted its own event
  rcases hte with rfl | rfl
  · by_cases hmore : retval = aeNomore
    · have hmark : te.settle retval later = te.markDeleted := by
        rw [AeTimeEvent.settle, if_neg (not_not_intro hmore)]
      rw [hmark, timerSet_marked hlist hid, hmore]
      exact TimerStep.ended _ (timers_split hlist hid)
    · have hset : AeTimers.timerSet { loop with timeEvents := front ++ te.settle retval later :: rest } =
          { loop.timerSet with
            timers := (te.id, { te.timer with when_ := aeAddMillisecondsToNow later retval }) ::ₘ
              ↑(scheduledIn front ++ scheduledIn rest) } := by
        have hid' : (te.settle retval later).id ≠ aeDeletedEventId := by
          rw [AeTimeEvent.settle, if_pos hmore]
          exact hid
        have hpair : ((te.settle retval later).id, (te.settle retval later).timer) =
            (te.id, { te.timer with when_ := aeAddMillisecondsToNow later retval }) := by
          rw [AeTimeEvent.settle, if_pos hmore]
          rfl
        simp only [AeTimers.timerSet, hlist, scheduledIn_append, scheduledIn_cons hid', waitingIn_append,
          waitingIn_cons hid', waitingIn_cons hid, hpair, TimerSet.mk.injEq, true_and, and_true]
        exact Multiset.coe_eq_coe.mpr List.perm_middle
      rw [hset]
      exact TimerStep.rearmed _ (timers_split hlist hid) hmore
  · -- the procedure has deleted the event itself
    have hsettled : (ev.markDeleted.settle retval later).id = aeDeletedEventId := by
      rw [AeTimeEvent.settle]
      split <;> rfl
    have hpayload : (ev.markDeleted.settle retval later).timer.payload = ev.markDeleted.timer.payload := by
      rw [AeTimeEvent.settle]
      split <;> rfl
    have hmarked : ev.markDeleted.id = aeDeletedEventId := rfl
    have hset : AeTimers.timerSet { loop with timeEvents := front ++ ev.markDeleted.settle retval later :: rest } =
        loop.timerSet := by
      simp only [AeTimers.timerSet, hlist, scheduledIn_append, scheduledIn_deleted hsettled,
        scheduledIn_deleted hmarked, waitingIn_append, waitingIn_deleted hsettled, waitingIn_deleted hmarked, hpayload]
    rw [hset]
    apply TimerStep.gone
    intro p hp
    obtain ⟨x, hx, hxid, rfl⟩ := mem_scheduledIn.mp hp
    rw [hlist] at hx
    rcases List.mem_append.mp hx with hx | hx
    · exact hothers x (List.mem_append_left _ hx)
    rcases List.mem_cons.mp hx with rfl | hx
    · exact absurd hmarked hxid
    · exact hothers x (List.mem_append_right _ hx)

theorem cancel_or (ids : List Int) (te : AeTimeEvent T F D) : cancel ids te = te ∨ cancel ids te = te.markDeleted := by
  rw [cancel]
  split
  · exact Or.inr rfl
  · exact Or.inl rfl

/-- The turn at an event whose time has come. -/
theorem timeTurn_due {ev : AeTimeEvent T F D} (hnum : Numbered w.loop)
    (hlist : w.loop.timeEvents = front ++ ev :: rest) (hid : ev.id ≠ aeDeletedEventId) (hmax : ev.id ≤ maxId)
    (hnow : Reached turn.now (ev.when_sec, ev.when_ms)) :
    ∃ acts, Turned turn ev rest w (timeTurn maxId turn (rest.length + 1) w) acts := by
  obtain ⟨front', hfront', hin⟩ := foldl_calls hnum hlist turn.calls
  have hnum' := numbered_calls hnum turn.calls
  have hev : ev ∈ w.loop.timeEvents := by
    rw [hlist]
    exact List.mem_append_right _ List.mem_cons_self
  have hdistinct := hnum.distinct
  rw [hlist, List.pairwise_append, List.pairwise_cons] at hdistinct
  obtain ⟨-, ⟨hhead, -⟩, hcross⟩ := hdistinct
  generalize hdels : turn.calls.filterMap TimeCall.deletes? = dels at hfront'
  rw [List.map_cons] at hfront'
  -- no other event takes the id while the procedure runs
  have hothers : ∀ x ∈ front' ++ rest.map (cancel dels), x.id ≠ ev.id := by
    intro x hx heq
    have hxid : x.id ≠ aeDeletedEventId := heq ▸ hid
    rcases List.mem_append.mp hx with hx | hx
    -- in front: an event that was there, or one with a later id
    · rcases hin.ids x hx hxid with ⟨y, hy, hyid⟩ | hnew
      · have hsame : y.id = ev.id := hyid.trans heq
        exact hid (hsame ▸ hcross y hy ev List.mem_cons_self hsame)
      · rcases hnum.issued ev hev with hdeleted | ⟨-, hhi⟩
        · exact hid hdeleted
        · omega
    · obtain ⟨y, hy, rfl⟩ := List.mem_map.mp hx
      rcases cancel_id dels y with hmarked | hsame
      · exact hxid hmarked
      · exact hid (hhead y hy (heq.symm.trans hsame))
  have hmodify : (turn.calls.foldl timeStep w.loop).modifyAt (rest.length + 1)
        (AeTimeEvent.settle turn.retval turn.later) =
      { turn.calls.foldl timeStep w.loop with
        timeEvents := front' ++ (cancel dels ev).settle turn.retval turn.later :: rest.map (cancel dels) } := by
    have hmod := modifyAt_eq hfront' (AeTimeEvent.settle turn.retval turn.later)
    rwa [List.length_map] at hmod
  have hturn : timeTurn maxId turn (rest.length + 1) w =
      { loop := { turn.calls.foldl timeStep w.loop with
          timeEvents := front' ++ (cancel dels ev).settle turn.retval turn.later :: rest.map (cancel dels) }
        prev := rest.length + 1
        processed := w.processed + 1
        acts := w.acts ++ .fired ev.id turn.now ev.timeProc ev.clientData ::
          (turn.calls.map .called ++ [.returned ev.id turn.retval turn.later]) } := by
    simp only [timeTurn, eventAt_eq hlist, if_neg hid, if_neg (not_lt.mpr hmax), if_pos hnow, hmodify]
  have hsettled : ((cancel dels ev).settle turn.retval turn.later).id = (cancel dels ev).id ∨
      ((cancel dels ev).settle turn.retval turn.later).id = aeDeletedEventId := by
    rw [AeTimeEvent.settle]
    split
    · exact Or.inl rfl
    · exact Or.inr rfl
  have hfires : (TimeAct.fired ev.id turn.now ev.timeProc ev.clientData ::
      (turn.calls.map TimeAct.called ++ [TimeAct.returned ev.id turn.retval turn.later])).filterMap
        TimeAct.fires? = [ev.id] := by
    simp [TimeAct.fires?]
  have hdeletes : (TimeAct.fired ev.id turn.now ev.timeProc ev.clientData ::
      (turn.calls.map TimeAct.called ++ [TimeAct.returned ev.id turn.retval turn.later])).filterMap
        TimeAct.deletes? = dels := by
    rw [← hdels, ← deletes_called turn.calls, List.filterMap_cons, List.filterMap_append]
    exact List.append_nil _
  rw [hturn]
  refine ⟨_, rfl, hnum'.replace hfront' hsettled, ?_, ?_, ?_, ?_, ?_⟩
  · have hmem : (ev.id, ev.timer) ∈ w.loop.timerSet.timers := by
      rw [timers_split hlist hid]
      exact Multiset.mem_cons_self _ _
    apply Runs.cons (TimerStep.fired _ hmem hnow)
    apply (runs_calls hnum turn.calls).append
    exact .single (settle_step hfront' (cancel_or dels ev) hid hothers _ _)
  · refine ⟨front' ++ [(cancel dels ev).settle turn.retval turn.later], ?_, ?_⟩
    · rw [hdeletes, List.append_assoc]
      rfl
    · exact Or.inr ⟨rfl, List.concat_ne_nil _ _⟩
  · rw [hfires]
    rfl
  · rw [hfires, if_pos ⟨hid, hnow⟩]
  · exact fun h => absurd h hid

/-- The turn at an event that is not due. -/
theorem timeTurn_idle {ev : AeTimeEvent T F D} (hnum : Numbered w.loop)
    (hlist : w.loop.timeEvents = front ++ ev :: rest) (hid : ev.id ≠ aeDeletedEventId) (hmax : ev.id ≤ maxId)
    (hnow : ¬ Reached turn.now (ev.when_sec, ev.when_ms)) :
    ∃ acts, Turned turn ev rest w (timeTurn maxId turn (rest.length + 1) w) acts := by
  have hturn : timeTurn maxId turn (rest.length + 1) w = { w with prev := rest.length + 1 } := by
    simp only [timeTurn, eventAt_eq hlist, if_neg hid, if_neg (not_lt.mpr hmax), if_neg hnow]
  have hsame : rest.map (cancel []) = rest := by
    rw [List.map_congr_left fun te _ => cancel_nil te, List.map_id']
  rw [hturn]
  refine ⟨[], (List.append_nil _).symm, hnum, .nil _, ⟨front ++ [ev], ?_, ?_⟩, rfl, ?_, ?_⟩
  · rw [List.filterMap_nil, hsame, hlist, List.append_assoc]
    rfl
  · exact Or.inr ⟨rfl, List.concat_ne_nil _ _⟩
  · rw [if_neg (fun h => hnow h.2)]
    rfl
  · exact fun h => absurd h hid

theorem timeTurn_turned {ev : AeTimeEvent T F D} (hnum : Numbered w.loop)
    (hlist : w.loop.timeEvents = front ++ ev :: rest) (hprev : Behind front (rest.length + 1) w.prev)
    (hmax : ev.id ≤ maxId) (hdeletes : ∀ call ∈ turn.finalCalls, call.Deletes) :
    ∃ acts, Turned turn ev rest w (timeTurn maxId turn (rest.length + 1) w) acts := by
  by_cases hid : ev.id = aeDeletedEventId
  · exact timeTurn_deleted hnum hlist hprev hdeletes hid
  by_cases hnow : Reached turn.now (ev.when_sec, ev.when_ms)
  · exact timeTurn_due hnum hlist hid hmax hnow
  · exact timeTurn_idle hnum hlist hid hmax hnow

/-! ## Section 4: The walk -/

theorem scheduledIn_cancel (ids : List Int) (tes : List (AeTimeEvent T F D)) :
    (scheduledIn (tes.map (cancel ids))).Sublist (scheduledIn tes) := by
  induction tes with
  | nil => exact List.Sublist.slnil
  | cons te tes ih =>
    rw [List.map_cons]
    by_cases hid : te.id = aeDeletedEventId
    · rw [cancel_deleted ids hid, scheduledIn_deleted hid, scheduledIn_deleted hid]
      exact ih
    rw [scheduledIn_cons hid]
    rcases cancel_or ids te with hsame | hmarked
    · rw [hsame, scheduledIn_cons hid]
      exact ih.cons_cons _
    · rw [hmarked, scheduledIn_deleted rfl]
      exact ih.cons _

theorem waitingIn_cancel (ids : List Int) (tes : List (AeTimeEvent T F D)) :
    (waitingIn tes).Sublist (waitingIn (tes.map (cancel ids))) := by
  induction tes with
  | nil => exact List.Sublist.slnil
  | cons te tes ih =>
    rw [List.map_cons]
    by_cases hid : te.id = aeDeletedEventId
    · rw [cancel_deleted ids hid, waitingIn_deleted hid, waitingIn_deleted hid]
      exact ih.cons_cons _
    rw [waitingIn_cons hid]
    rcases cancel_or ids te with hsame | hmarked
    · rw [hsame, waitingIn_cons hid]
      exact ih
    · rw [hmarked, waitingIn_deleted rfl]
      exact ih.cons _

variable {turns : Nat → TimeTurn T F D}

/-- What the walk over the events `todo` comes to. -/
structure Passed (turns : Nat → TimeTurn T F D) (todo : List (AeTimeEvent T F D)) (w w' : TimeWalk T F D)
    (acts : List (TimeAct T F D)) : Prop where
  log : w'.acts = w.acts ++ acts
  numbered : Numbered w'.loop
  runs : Runs TimerStep w.loop.timerSet acts w'.loop.timerSet
  processed : w'.processed = w.processed + (acts.filterMap TimeAct.fires?).length
  fires : (acts.filterMap TimeAct.fires?).Sublist ((scheduledIn todo).map Prod.fst)
  /-- What is due at every reading of the clock fires, unless it is deleted before. -/
  complete : ∀ p ∈ scheduledIn todo, (∀ te, Reached (turns te).now p.2.when_) →
    p.1 ∈ acts.filterMap TimeAct.fires? ∨ p.1 ∈ acts.filterMap TimeAct.deletes?
  releases : (waitingIn todo).Sublist (acts.filterMap TimeAct.releases?)

theorem Turned.passed {ev : AeTimeEvent T F D} {w₁ : TimeWalk T F D}
    (hturn : Turned (turns (rest.length + 1)) ev rest w w₁ acts)
    (hrest : Passed turns (rest.map (cancel (acts.filterMap TimeAct.deletes?))) w₁ w' acts') :
    Passed turns (ev :: rest) w w' (acts ++ acts') where
  log := by rw [hrest.log, hturn.log, List.append_assoc]
  numbered := hrest.numbered
  runs := hturn.runs.append hrest.runs
  processed := by rw [hrest.processed, hturn.processed, List.filterMap_append, List.length_append, Nat.add_assoc]
  fires := by
    have hsub := hrest.fires.trans ((scheduledIn_cancel _ rest).map Prod.fst)
    rw [List.filterMap_append, hturn.fires]
    by_cases hid : ev.id = aeDeletedEventId
    · rw [if_neg (fun h => h.1 hid), scheduledIn_deleted hid]
      exact hsub
    rw [scheduledIn_cons hid, List.map_cons]
    split
    · exact hsub.cons_cons _
    · exact hsub.cons _
  complete := by
    intro p hp hdue
    rw [List.filterMap_append, List.filterMap_append, List.mem_append, List.mem_append]
    obtain ⟨te, hte, hid, rfl⟩ := mem_scheduledIn.mp hp
    rcases List.mem_cons.mp hte with rfl | hte
    · -- the event of this turn
      left
      left
      rw [hturn.fires, if_pos ⟨hid, hdue _⟩]
      exact List.mem_singleton_self _
    -- a later event: it is deleted by this turn, or the rest of the walk finds it
    by_cases hmem : te.id ∈ acts.filterMap TimeAct.deletes?
    · exact Or.inr (Or.inl hmem)
    · have hsame : cancel (acts.filterMap TimeAct.deletes?) te = te := if_neg hmem
      have hlater : (te.id, te.timer) ∈ scheduledIn (rest.map (cancel (acts.filterMap TimeAct.deletes?))) :=
        mem_scheduledIn.mpr ⟨te, List.mem_map.mpr ⟨te, hte, hsame⟩, hid, rfl⟩
      rcases hrest.complete _ hlater hdue with hfired | hdeleted
      · exact Or.inl (Or.inr hfired)
      · exact Or.inr (Or.inr hdeleted)
  releases := by
    have hsub := (waitingIn_cancel (acts.filterMap TimeAct.deletes?) rest).trans hrest.releases
    rw [List.filterMap_append]
    by_cases hid : ev.id = aeDeletedEventId
    · rw [waitingIn_deleted hid, hturn.releases hid]
      exact hsub.cons_cons _
    · rw [waitingIn_cons hid]
      exact hsub.trans (List.sublist_append_right _ _)

/-- **The walk**, by induction on the number of events ahead. -/
theorem timeTurns_passed (hlow : aeDeletedEventId ≤ maxId)
    (hdeletes : ∀ te, ∀ call ∈ (turns te).finalCalls, call.Deletes) :
    ∀ (n : Nat) {todo front : List (AeTimeEvent T F D)} {w : TimeWalk T F D}, todo.length = n → Numbered w.loop →
      w.loop.timeEvents = front ++ todo → Behind front n w.prev → (∀ te ∈ todo, te.id ≤ maxId) →
      ∃ acts, Passed turns todo w (timeTurns maxId turns n w) acts := by
  intro n
  induction n with
  | zero =>
    intro todo front w hlen hnum _ _ _
    obtain rfl := List.length_eq_zero_iff.mp hlen
    exact ⟨[], (List.append_nil _).symm, hnum, .nil _, rfl, List.Sublist.slnil,
      fun p hp => absurd hp List.not_mem_nil, List.Sublist.slnil⟩
  | succ n ih =>
    intro todo front w hlen hnum hlist hprev hmax
    obtain ⟨ev, rest, rfl⟩ := List.exists_cons_of_length_eq_add_one hlen
    obtain rfl : rest.length = n := Nat.succ.inj hlen
    obtain ⟨acts, hturn⟩ :=
      timeTurn_turned hnum hlist hprev (hmax ev List.mem_cons_self) (hdeletes (rest.length + 1))
    obtain ⟨front', hlist', hprev'⟩ := hturn.list
    -- ids only go to `aeDeletedEventId`, so they stay at or below `maxId`
    have hmax' : ∀ te ∈ rest.map (cancel (acts.filterMap TimeAct.deletes?)), te.id ≤ maxId := by
      intro te hte
      obtain ⟨te', hte', rfl⟩ := List.mem_map.mp hte
      rcases cancel_id (acts.filterMap TimeAct.deletes?) te' with hmarked | hsame
      · rw [hmarked]
        exact hlow
      · rw [hsame]
        exact hmax te' (List.mem_cons_of_mem _ hte')
    obtain ⟨acts', hrest⟩ := ih (List.length_map _) hturn.numbered hlist' hprev' hmax'
    exact ⟨acts ++ acts', hturn.passed hrest⟩

/-! ## Section 5: The pass -/

theorem Numbered.hurry (hnum : Numbered loop) :
    Numbered { loop with timeEvents := loop.timeEvents.map AeTimeEvent.hurry } where
  next_nonneg := hnum.next_nonneg
  issued te hte := by
    obtain ⟨te', hte', rfl⟩ := List.mem_map.mp hte
    exact hnum.issued te' hte'
  distinct := by
    rw [List.pairwise_map]
    exact hnum.distinct

theorem scheduledIn_hurry (tes : List (AeTimeEvent T F D)) :
    scheduledIn (tes.map AeTimeEvent.hurry) = (scheduledIn tes).map fun p => (p.1, p.2.hurry) := by
  induction tes with
  | nil => rfl
  | cons te tes ih =>
    rw [List.map_cons]
    by_cases hid : te.id = aeDeletedEventId
    · rw [scheduledIn_deleted (show te.hurry.id = aeDeletedEventId from hid), scheduledIn_deleted hid, ih]
    · rw [scheduledIn_cons (show te.hurry.id ≠ aeDeletedEventId from hid), scheduledIn_cons hid, ih]
      rfl

theorem waitingIn_hurry (tes : List (AeTimeEvent T F D)) :
    waitingIn (tes.map AeTimeEvent.hurry) = waitingIn tes := by
  induction tes with
  | nil => rfl
  | cons te tes ih =>
    rw [List.map_cons]
    by_cases hid : te.id = aeDeletedEventId
    · rw [waitingIn_deleted (show te.hurry.id = aeDeletedEventId from hid), waitingIn_deleted hid, ih]
      rfl
    · rw [waitingIn_cons (show te.hurry.id ≠ aeDeletedEventId from hid), waitingIn_cons hid, ih]

/-- The walk of a pass starts at the head. -/
theorem walk_passed (hnum : Numbered loop) (hdeletes : ∀ te, ∀ call ∈ (turns te).finalCalls, call.Deletes)
    (acts : List (TimeAct T F D)) :
    ∃ acts', Passed turns loop.timeEvents ⟨loop, 0, 0, acts⟩
      (timeTurns (loop.timeEventNextId - 1) turns loop.timeEvents.length ⟨loop, 0, 0, acts⟩) acts' := by
  have hnext := hnum.next_nonneg
  have hlow : aeDeletedEventId ≤ loop.timeEventNextId - 1 := by
    rw [aeDeletedEventId]
    omega
  have hmax : ∀ te ∈ loop.timeEvents, te.id ≤ loop.timeEventNextId - 1 := by
    intro te hte
    rcases hnum.issued te hte with hdeleted | ⟨-, hhi⟩
    · rw [hdeleted]
      exact hlow
    · omega
  exact timeTurns_passed hlow hdeletes loop.timeEvents.length rfl hnum (List.nil_append _).symm
    (Or.inl ⟨rfl, rfl⟩) hmax

/-- When a timer is due in a pass that finds the clock at `time`. -/
def AeTimeLoop.dueAt (loop : AeTimeLoop T F D) (time : Int) (t : Timer T F D) : Int × Int :=
  if time < loop.lastTime then t.hurry.when_ else t.when_

/-- What a pass is for. -/
structure PassDone (time : Int) (turns : Nat → TimeTurn T F D) (loop : AeTimeLoop T F D)
    (r : Nat × AeTimeLoop T F D × List (TimeAct T F D)) : Prop where
  numbered : Numbered r.2.1.timers
  runs : Runs TimerStep loop.timers.timerSet r.2.2 r.2.1.timers.timerSet
  processed : r.1 = (r.2.2.filterMap TimeAct.fires?).length
  fires : (r.2.2.filterMap TimeAct.fires?).Sublist ((scheduledIn loop.timers.timeEvents).map Prod.fst)
  complete : ∀ p ∈ scheduledIn loop.timers.timeEvents, (∀ te, Reached (turns te).now (loop.dueAt time p.2)) →
    p.1 ∈ r.2.2.filterMap TimeAct.fires? ∨ p.1 ∈ r.2.2.filterMap TimeAct.deletes?
  releases : (waitingIn loop.timers.timeEvents).Sublist (r.2.2.filterMap TimeAct.releases?)

theorem processTimeEvents_spec {loop : AeTimeLoop T F D} (hnum : Numbered loop.timers)
    (hdeletes : ∀ te, ∀ call ∈ (turns te).finalCalls, call.Deletes) (time : Int) :
    PassDone time turns loop (processTimeEvents time turns loop) := by
  -- with the clock gone back the walk is over the hurried events
  by_cases hskew : time < loop.lastTime
  · obtain ⟨acts, h⟩ := walk_passed hnum.hurry hdeletes [.skewed]
    have hset : AeTimers.timerSet { loop.timers with timeEvents := loop.timers.timeEvents.map AeTimeEvent.hurry } =
        { loop.timers.timerSet with timers := loop.timers.timerSet.timers.map fun p => (p.1, p.2.hurry) } := by
      simp only [AeTimers.timerSet, scheduledIn_hurry, waitingIn_hurry, Multiset.map_coe]
    simp only [processTimeEvents, if_pos hskew]
    refine ⟨h.numbered, ?_, ?_, ?_, ?_, ?_⟩
    · rw [h.log]
      apply Runs.cons (TimerStep.skewed _)
      rw [← hset]
      exact h.runs
    · rw [h.log, h.processed, List.filterMap_append, List.length_append]
      rfl
    · have hsub := h.fires
      rw [scheduledIn_hurry, List.map_map] at hsub
      rw [h.log]
      exact hsub
    · intro p hp hdue
      rw [h.log]
      refine h.complete (p.1, p.2.hurry) ?_ ?_
      · rw [scheduledIn_hurry]
        exact List.mem_map.mpr ⟨p, hp, rfl⟩
      · intro te
        have := hdue te
        rwa [AeTimeLoop.dueAt, if_pos hskew] at this
    · have hsub := h.releases
      rw [waitingIn_hurry] at hsub
      rw [h.log]
      exact hsub
  · obtain ⟨acts, h⟩ := walk_passed hnum hdeletes []
    simp only [processTimeEvents, if_neg hskew]
    refine ⟨h.numbered, ?_, ?_, ?_, ?_, ?_⟩
    · rw [h.log]
      exact h.runs
    · rw [h.log, h.processed, List.nil_append]
      exact Nat.zero_add _
    · rw [h.log]
      exact h.fires
    · intro p hp hdue
      rw [h.log]
      apply h.complete p hp
      intro te
      have := hdue te
      rwa [AeTimeLoop.dueAt, if_neg hskew] at this
    · rw [h.log]
      exact h.releases

/-! ## Section 6: Runs -/

/-- A program creates and deletes time events, and runs passes. -/
inductive TimeOp (T F D : Type) where
  | call (call : TimeCall T F D)
  | pass (time : Int) (turns : Nat → TimeTurn T F D)

/-- The finalizers of the pass create nothing. -/
def TimeOp.Deletes : TimeOp T F D → Prop
  | .call _ => True
  | .pass _ turns => ∀ te, ∀ call ∈ (turns te).finalCalls, call.Deletes

def timeOp (loop : AeTimeLoop T F D) : TimeOp T F D → AeTimeLoop T F D × List (TimeAct T F D)
  | .call call => ({ loop with timers := timeStep loop.timers call }, [.called call])
  | .pass time turns => (processTimeEvents time turns loop).2

def timeRun (loop : AeTimeLoop T F D) : List (TimeOp T F D) → AeTimeLoop T F D × List (TimeAct T F D)
  | [] => (loop, [])
  | op :: ops =>
    let r := timeOp loop op
    let r' := timeRun r.1 ops
    (r'.1, r.2 ++ r'.2)

variable {ops : List (TimeOp T F D)}

theorem timeOp_spec {loop : AeTimeLoop T F D} (hnum : Numbered loop.timers) {op : TimeOp T F D} (hop : op.Deletes) :
    Numbered (timeOp loop op).1.timers ∧
      Runs TimerStep loop.timers.timerSet (timeOp loop op).2 (timeOp loop op).1.timers.timerSet := by
  cases op with
  | call call => exact ⟨hnum.step call, .single (timeStep_step loop.timers call hnum)⟩
  | pass time turns =>
    have h := processTimeEvents_spec hnum hop time
    exact ⟨h.numbered, h.runs⟩

theorem timeRun_spec {loop : AeTimeLoop T F D} (hnum : Numbered loop.timers) (hops : ∀ op ∈ ops, op.Deletes) :
    Numbered (timeRun loop ops).1.timers ∧
      Runs TimerStep loop.timers.timerSet (timeRun loop ops).2 (timeRun loop ops).1.timers.timerSet := by
  induction ops generalizing loop with
  | nil => exact ⟨hnum, .nil _⟩
  | cons op ops ih =>
    obtain ⟨hnum', hruns⟩ := timeOp_spec hnum (hops op List.mem_cons_self)
    obtain ⟨hnum'', hruns'⟩ := ih hnum' fun op hop => hops op (List.mem_cons_of_mem _ hop)
    exact ⟨hnum'', hruns.append hruns'⟩

/-- The ids of the scheduled events. -/
theorem nodup_scheduled (hnum : Numbered loop) : ((scheduledIn loop.timeEvents).map Prod.fst).Nodup := by
  have hids : (scheduledIn loop.timeEvents).map Prod.fst =
      (loop.timeEvents.filter fun te => te.id ≠ aeDeletedEventId).map AeTimeEvent.id := by
    rw [scheduledIn, List.map_map]
    rfl
  rw [hids, List.Nodup, List.pairwise_map]
  have hsub : (loop.timeEvents.filter fun te => te.id ≠ aeDeletedEventId).Sublist loop.timeEvents :=
    List.filter_sublist
  apply (hnum.distinct.sublist hsub).imp_of_mem
  intro te te' hte _ hpair heq
  have hlive := (List.mem_filter.mp hte).2
  exact absurd (hpair heq) (of_decide_eq_true hlive)

/-- As `aeCreateEventLoop` leaves it. -/
def aeTimeLoop (time : Int) : AeTimeLoop T F D := ⟨aeNoTimers, time⟩

theorem numbered_start (time : Int) : Numbered (aeTimeLoop time : AeTimeLoop T F D).timers :=
  ⟨le_refl 0, fun _ hte => absurd hte List.not_mem_nil, List.Pairwise.nil⟩

/-- **The list is a set of timers.**  Whatever calls and passes there are, and
    whatever the procedures call, as long as no finalizer creates an event,
    each call, each firing and each release is a step of the set: what fires
    is scheduled and due, and what is released has been deleted. -/
theorem time_events_are_timers (time : Int) (hops : ∀ op ∈ ops, op.Deletes) :
    Runs TimerStep ⟨0, 0, 0⟩ (timeRun (aeTimeLoop time) ops).2 (timeRun (aeTimeLoop time) ops).1.timers.timerSet :=
  (timeRun_spec (numbered_start time) hops).2

/-- A procedure that creates an event and is done. -/
def oneShot : TimeTurn Nat Nat Nat := ⟨(11, 0), [.create true (11, 0) 100 8 none (some 5)], -1, (11, 0), []⟩

/-- An event fires in a pass, and is released in the next. -/
def oneShotOps : List (TimeOp Nat Nat Nat) :=
  [.call (.create true (10, 0) 500 7 (some 3) (some 4)), .pass 1 fun _ => oneShot, .pass 2 fun _ => oneShot]

theorem oneShotOps_deletes : ∀ op ∈ oneShotOps, op.Deletes := by
  simp [oneShotOps, TimeOp.Deletes, oneShot]

theorem time_events_are_timers_one : (∀ op ∈ oneShotOps, op.Deletes) ∧
    Runs TimerStep ⟨0, 0, 0⟩ (timeRun (aeTimeLoop 0) oneShotOps).2
      (timeRun (aeTimeLoop 0) oneShotOps).1.timers.timerSet :=
  ⟨oneShotOps_deletes, time_events_are_timers 0 oneShotOps_deletes⟩

/-- A finalizer that creates an event, with a deleted event next and nothing
    passed yet: the new event is lost. -/
example : (timeRun (aeTimeLoop 0)
    [.call (.create true (0, 0) 0 7 none (some 4)), .call (.create true (0, 0) 0 7 none (some 4)),
      .call (.delete 0), .call (.delete 1),
      .pass 1 fun te => ⟨(0, 0), [], -1, (0, 0), if te = 2 then [.create true (0, 0) 0 9 none none] else []⟩]
    : AeTimeLoop Nat Nat Nat × _).1.timers = ⟨3, []⟩ := by
  decide

/-- **A pass**, after any run, as long as no finalizer creates an event, then
    or now: it calls each procedure once at most, only of events that were
    scheduled when it began, and of all that are due at its readings of the
    clock unless they are deleted meanwhile; and it releases all that was
    deleted before. -/
theorem pass_fires_due (time : Int) (hops : ∀ op ∈ ops, op.Deletes) (now : Int)
    (hpass : (TimeOp.pass now turns).Deletes) :
    let start := (timeRun (aeTimeLoop time) ops).1
    let r := processTimeEvents now turns start
    let fired := r.2.2.filterMap TimeAct.fires?
    r.1 = fired.length ∧ fired.Nodup ∧
      (∀ id ∈ fired, ∃ t, (id, t) ∈ start.timers.timerSet.timers) ∧
      (∀ id t, (id, t) ∈ start.timers.timerSet.timers →
        (∀ te, Reached (turns te).now (start.dueAt now t)) →
        id ∈ fired ∨ id ∈ r.2.2.filterMap TimeAct.deletes?) ∧
      start.timers.timerSet.pending ≤ ↑(r.2.2.filterMap TimeAct.releases?) := by
  intro start r fired
  have hnum : Numbered start.timers := (timeRun_spec (numbered_start time) hops).1
  have h : PassDone now turns start r := processTimeEvents_spec hnum hpass now
  constructor
  · exact h.processed
  constructor
  · exact (nodup_scheduled hnum).sublist h.fires
  constructor
  · intro id hid
    obtain ⟨p, hp, rfl⟩ := List.mem_map.mp (h.fires.subset hid)
    exact ⟨p.2, hp⟩
  constructor
  · intro id t hid hdue
    exact h.complete (id, t) hid hdue
  · exact Multiset.coe_le.mpr h.releases.subperm

theorem pass_fires_due_one :
    let start := (timeRun (aeTimeLoop 0) (oneShotOps.take 1)).1
    (∀ op ∈ oneShotOps.take 1, op.Deletes) ∧ (TimeOp.pass 1 fun _ => oneShot).Deletes ∧
      (processTimeEvents 1 (fun _ => oneShot) start).1 =
        ((processTimeEvents 1 (fun _ => oneShot) start).2.2.filterMap TimeAct.fires?).length := by
  intro start
  have hops : ∀ op ∈ oneShotOps.take 1, op.Deletes :=
    fun op hop => oneShotOps_deletes op (List.mem_of_mem_take hop)
  have hpass : (TimeOp.pass 1 fun _ => oneShot).Deletes := by
    simp [TimeOp.Deletes, oneShot]
  exact ⟨hops, hpass, (pass_fires_due 0 hops 1 hpass).1⟩

/-- **Nothing is lost.**  In any run whose finalizers create no event, what has
    been created is scheduled, waits for its finalizer, or has been released,
    each once. -/
theorem time_events_balance (time : Int) (hops : ∀ op ∈ ops, op.Deletes) :
    let r := timeRun (aeTimeLoop time) ops
    r.1.timers.timerSet.owed + (r.2.map TimeAct.releases).sum = (r.2.map TimeAct.created).sum := by
  intro r
  have hruns := (timeRun_spec (numbered_start time) hops).2
  have hbalance := hruns.balance fun _ _ _ => TimerStep.balance
  rwa [show (aeTimeLoop time : AeTimeLoop T F D).timers.timerSet.owed = 0 from rfl, zero_add] at hbalance

theorem time_events_balance_one : (∀ op ∈ oneShotOps, op.Deletes) ∧
    (timeRun (aeTimeLoop 0) oneShotOps).1.timers.timerSet.owed +
        ((timeRun (aeTimeLoop 0) oneShotOps).2.map TimeAct.releases).sum =
      ((timeRun (aeTimeLoop 0) oneShotOps).2.map TimeAct.created).sum :=
  ⟨oneShotOps_deletes, time_events_balance 0 oneShotOps_deletes⟩

end BoAtom
