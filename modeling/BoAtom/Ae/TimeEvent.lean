import Mathlib.Data.List.Induction
import BoAtom.Ae.FileEvent

/-! # ae/ae.c, time events

    The list of time events of an event loop, newest first.  Ids are counted
    up from 0; a deleted event stays in the list with the id -1, until
    `processTimeEvents` takes it out.

    An id belongs to one scheduled event at most (`Numbered`), so a deletion
    marks that event and no other (`aeDeleteTimeEvent_eq`). -/

namespace BoAtom

/-! ## Section 1: Creation and deletion -/

/-- `AE_DELETED_EVENT_ID`. -/
def aeDeletedEventId : Int := -1

structure AeTimeEvent (T F D : Type) where
  id : Int
  when_sec : Int
  when_ms : Int
  timeProc : T
  finalizerProc : Option F
  clientData : Option D
  deriving DecidableEq, Repr

structure AeTimers (T F D : Type) where
  timeEventNextId : Int
  /-- From `timeEventHead` on. -/
  timeEvents : List (AeTimeEvent T F D)
  deriving DecidableEq, Repr

variable {T F D : Type}

/-- As `aeCreateEventLoop` leaves it. -/
def aeNoTimers : AeTimers T F D := ⟨0, []⟩

/-- `now` is what `aeGetTime` gives: seconds and milliseconds. -/
def aeAddMillisecondsToNow (now : Int × Int) (milliseconds : Int) : Int × Int :=
  let when_sec := now.1 + milliseconds.tdiv 1000
  let when_ms := now.2 + milliseconds.tmod 1000
  if when_ms ≥ 1000 then (when_sec + 1, when_ms - 1000) else (when_sec, when_ms)

/-- The id, or `AE_ERR` when `malloc` fails; the id is used up all the same. -/
def aeCreateTimeEvent (malloc : Bool) (now : Int × Int) (loop : AeTimers T F D) (milliseconds : Int) (proc : T)
    (clientData : Option D) (finalizerProc : Option F) : Int × AeTimers T F D :=
  let id := loop.timeEventNextId
  let loop := { loop with timeEventNextId := id + 1 }
  if !malloc then (-1, loop)
  else
    let when_ := aeAddMillisecondsToNow now milliseconds
    let te := { id := id, when_sec := when_.1, when_ms := when_.2, timeProc := proc,
                finalizerProc := finalizerProc, clientData := clientData }
    (id, { loop with timeEvents := te :: loop.timeEvents })

def AeTimeEvent.markDeleted (te : AeTimeEvent T F D) : AeTimeEvent T F D := { te with id := aeDeletedEventId }

/-- The loop of `aeDeleteTimeEvent`: the first event with the id is marked. -/
def markFirst (id : Int) : List (AeTimeEvent T F D) → Option (List (AeTimeEvent T F D))
  | [] => none
  | te :: rest => if te.id = id then some (te.markDeleted :: rest) else (markFirst id rest).map (te :: ·)

def aeDeleteTimeEvent (loop : AeTimers T F D) (id : Int) : AeStatus × AeTimers T F D :=
  match markFirst id loop.timeEvents with
  | none => (.err, loop)
  | some timeEvents => (.ok, { loop with timeEvents := timeEvents })

/-- The calls that make up the set of time events of a program. -/
inductive TimeCall (T F D : Type) where
  | create (malloc : Bool) (now : Int × Int) (milliseconds : Int) (proc : T) (clientData : Option D)
      (finalizerProc : Option F)
  | delete (id : Int)

def timeStep (loop : AeTimers T F D) : TimeCall T F D → AeTimers T F D
  | .create malloc now milliseconds proc clientData finalizerProc =>
    (aeCreateTimeEvent malloc now loop milliseconds proc clientData finalizerProc).2
  | .delete id => (aeDeleteTimeEvent loop id).2

/-! ## Section 2: Ids -/

/-- Scheduled events have ids that have been given out, no two the same. -/
structure Numbered (loop : AeTimers T F D) : Prop where
  next_nonneg : 0 ≤ loop.timeEventNextId
  issued : ∀ te ∈ loop.timeEvents, te.id = aeDeletedEventId ∨ (0 ≤ te.id ∧ te.id < loop.timeEventNextId)
  distinct : loop.timeEvents.Pairwise fun te te' => te.id = te'.id → te.id = aeDeletedEventId

variable {loop : AeTimers T F D} {tes : List (AeTimeEvent T F D)} {te : AeTimeEvent T F D} {id : Int}

/-- The events with one of the ids are marked. -/
def cancel (ids : List Int) (te : AeTimeEvent T F D) : AeTimeEvent T F D :=
  if te.id ∈ ids then te.markDeleted else te

theorem cancel_id (ids : List Int) (te : AeTimeEvent T F D) :
    (cancel ids te).id = aeDeletedEventId ∨ (cancel ids te).id = te.id := by
  rw [cancel]
  split
  · exact Or.inl rfl
  · exact Or.inr rfl

theorem cancel_nil (te : AeTimeEvent T F D) : cancel [] te = te := if_neg List.not_mem_nil

/-- Marking a deleted event again has no effect. -/
theorem cancel_deleted (ids : List Int) (h : te.id = aeDeletedEventId) : cancel ids te = te := by
  rw [cancel, AeTimeEvent.markDeleted, ← h]
  exact ite_self te

theorem cancel_eq_iff {ids ids' : List Int} (h : te.id ≠ aeDeletedEventId) :
    cancel ids te = cancel ids' te ↔ (te.id ∈ ids ↔ te.id ∈ ids') := by
  have hmarked : te.markDeleted ≠ te := fun heq => h (congrArg AeTimeEvent.id heq).symm
  rw [cancel, cancel]
  by_cases hin : te.id ∈ ids <;> by_cases hin' : te.id ∈ ids' <;> simp [hin, hin', hmarked, hmarked.symm]

/-- A deletion after the others marks one more id; -1 is nobody's. -/
theorem cancel_append (ids : List Int) (h : 0 ≤ id) (te : AeTimeEvent T F D) :
    cancel [id] (cancel ids te) = cancel (ids ++ [id]) te := by
  have hdeleted : aeDeletedEventId ≠ id := by
    rw [aeDeletedEventId]
    omega
  by_cases hmem : te.id ∈ ids
  · have hmarked : (te.markDeleted).id ∉ [id] := by
      rw [List.mem_singleton]
      exact hdeleted
    rw [cancel, cancel, if_pos hmem, if_neg hmarked, cancel, if_pos (List.mem_append_left _ hmem)]
  · simp only [cancel, List.mem_append, List.mem_singleton, false_or, hmem, if_false]

/-- Without another event of the same id, the first one is all. -/
theorem markFirst_eq (hid : id ≠ aeDeletedEventId)
    (hdistinct : tes.Pairwise fun te te' => te.id = te'.id → te.id = aeDeletedEventId) :
    (markFirst id tes).getD tes = tes.map (cancel [id]) := by
  induction tes with
  | nil => rfl
  | cons te tes ih =>
    obtain ⟨hhead, htail⟩ := List.pairwise_cons.mp hdistinct
    rw [markFirst, List.map_cons]
    by_cases hte : te.id = id
    · -- the ids behind are others
      have hsame : tes.map (cancel [id]) = tes := by
        have hothers : ∀ te' ∈ tes, cancel [id] te' = te' := by
          intro te' hte'
          rw [cancel, if_neg]
          rw [List.mem_singleton]
          rintro rfl
          exact hid (hte ▸ hhead te' hte' hte)
        rw [List.map_congr_left hothers, List.map_id']
      rw [if_pos hte, Option.getD_some, hsame, cancel, if_pos (List.mem_singleton.mpr hte)]
    · rw [if_neg hte, cancel, if_neg (by rwa [List.mem_singleton]), ← ih htail]
      cases markFirst id tes <;> rfl

/-- The id of deleted events finds one of them, if any. -/
theorem markFirst_deleted : (markFirst aeDeletedEventId tes).getD tes = tes := by
  induction tes with
  | nil => rfl
  | cons te tes ih =>
    rw [markFirst]
    by_cases hte : te.id = aeDeletedEventId
    · rw [if_pos hte, Option.getD_some, AeTimeEvent.markDeleted, ← hte]
    · rw [if_neg hte]
      rcases hmark : markFirst aeDeletedEventId tes with _ | tes'
      · rfl
      · rw [hmark] at ih
        exact congrArg (te :: ·) ih

theorem aeDeleteTimeEvent_snd (loop : AeTimers T F D) (id : Int) : (aeDeleteTimeEvent loop id).2 =
    { loop with timeEvents := (markFirst id loop.timeEvents).getD loop.timeEvents } := by
  rw [aeDeleteTimeEvent]
  cases markFirst id loop.timeEvents <;> rfl

theorem aeDeleteTimeEvent_eq (hid : id ≠ aeDeletedEventId) (h : Numbered loop) :
    (aeDeleteTimeEvent loop id).2 = { loop with timeEvents := loop.timeEvents.map (cancel [id]) } := by
  rw [aeDeleteTimeEvent_snd, markFirst_eq hid h.distinct]

/-- Marking keeps ids apart. -/
theorem Numbered.cancel (h : Numbered loop) (ids : List Int) :
    Numbered { loop with timeEvents := loop.timeEvents.map (cancel ids) } where
  next_nonneg := h.next_nonneg
  issued te hte := by
    obtain ⟨te', hte', rfl⟩ := List.mem_map.mp hte
    rcases cancel_id ids te' with hmarked | hsame
    · exact Or.inl hmarked
    · rw [hsame]
      exact h.issued te' hte'
  distinct := by
    rw [List.pairwise_map]
    apply h.distinct.imp
    intro te te' hpair heq
    rcases cancel_id ids te with hmarked | hsame
    · exact hmarked
    rw [hsame] at heq ⊢
    rcases cancel_id ids te' with hmarked' | hsame'
    · exact heq.trans hmarked'
    · exact hpair (heq.trans hsame')

theorem Numbered.step (h : Numbered loop) (call : TimeCall T F D) : Numbered (timeStep loop call) := by
  cases call with
  | create malloc now milliseconds proc clientData finalizerProc =>
    have hnext := h.next_nonneg
    have hnext' : 0 ≤ loop.timeEventNextId + 1 := by omega
    -- the events there keep their ids below the next one
    have hissued : ∀ te ∈ loop.timeEvents,
        te.id = aeDeletedEventId ∨ (0 ≤ te.id ∧ te.id < loop.timeEventNextId + 1) := by
      intro te hte
      rcases h.issued te hte with hdeleted | ⟨hlo, hhi⟩
      · exact Or.inl hdeleted
      · exact Or.inr ⟨hlo, by omega⟩
    cases malloc with
    | false => exact ⟨hnext', hissued, h.distinct⟩
    | true =>
      refine ⟨hnext', ?_, ?_⟩
      · intro te hte
        rcases List.mem_cons.mp hte with rfl | hte
        · exact Or.inr ⟨hnext, Int.lt_succ _⟩
        · exact hissued te hte
      · refine List.pairwise_cons.mpr ⟨?_, h.distinct⟩
        intro te hte heq
        -- a new id is none of theirs
        rcases h.issued te hte with hdeleted | ⟨_, hhi⟩
        · exact heq.trans hdeleted
        · exact absurd (heq ▸ hhi) (Int.lt_irrefl _)
  | delete id =>
    rw [timeStep]
    by_cases hid : id = aeDeletedEventId
    · rw [hid, aeDeleteTimeEvent_snd, markFirst_deleted]
      exact h
    · rw [aeDeleteTimeEvent_eq hid h]
      exact h.cancel [id]

/-- **Ids** of scheduled events are distinct after any calls. -/
theorem numbered_run (calls : List (TimeCall T F D)) : Numbered (calls.foldl timeStep aeNoTimers) := by
  induction calls using List.reverseRecOn with
  | nil => exact ⟨Int.le_refl 0, fun te hte => absurd hte List.not_mem_nil, List.Pairwise.nil⟩
  | append_singleton calls call ih =>
    rw [List.foldl_append]
    exact ih.step call

/-- Deletions, one after the other. -/
theorem foldl_delete_eq (h : Numbered loop) (ids : List Int) :
    ids.foldl (fun loop id => if id ≥ 0 then (aeDeleteTimeEvent loop id).2 else loop) loop =
      { loop with timeEvents := loop.timeEvents.map (cancel (ids.filter (0 ≤ ·))) } := by
  induction ids using List.reverseRecOn with
  | nil =>
    rw [List.foldl_nil, List.filter_nil, List.map_congr_left fun te _ => cancel_nil te, List.map_id']
  | append_singleton ids id ih =>
    rw [List.foldl_append, ih, List.foldl_cons, List.foldl_nil, List.filter_append]
    by_cases hid : 0 ≤ id
    · have hne : id ≠ aeDeletedEventId := by
        rw [aeDeletedEventId]
        omega
      rw [if_pos hid, aeDeleteTimeEvent_eq hne (h.cancel _), List.filter_cons_of_pos (by simpa using hid),
        List.filter_nil, List.map_map]
      congr 1
      apply List.map_congr_left
      intro te _
      exact cancel_append _ hid te
    · rw [if_neg hid, List.filter_cons_of_neg (by simpa using hid), List.filter_nil, List.append_nil]

end BoAtom
