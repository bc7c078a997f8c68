import BoAtom.Lib.LinkedQueue
import BoAtom.Mem.TcpServer

/-! # The two queues of a client

    The queue macros of tcp_server.h over any sequence of calls.
    `ResponseInsert` and `ResponseDeleteHead` keep a first-in first-out queue,
    here over the `next` pointers, and do to it what the model does to the
    list in `ClientStat`.  `CmdInsert` does not move `recv_cmd_queue_tail`
    when it finds commands in the queue: the macros of the commands keep one
    just when every command is inserted into an empty queue. -/

namespace BoAtom

open Memory Machine History LinkedQueue

/-! ## Section 1: The response queue -/

/-- A `Response *`. -/
abbrev ResponsePtr : Type := Nat

structure ResponseCell where
  response : Response
  next : Option ResponsePtr

/-- The fields of a `ClientStat` that the macros use, and the memory. -/
structure ResponseQueue where
  responses : Pool ResponseCell
  sendResponseQueueHead : Option ResponsePtr
  sendResponseQueueTail : Option ResponsePtr

/-- `*p` for a `Response *`. -/
def derefResponse (responses : Pool ResponseCell) (p : Option ResponsePtr) :
    Except Fault (ResponsePtr × ResponseCell) :=
  match p with
  | none => .error .nullDeref
  | some p =>
    match responses.get p with
    | none => .error .nullDeref
    | some cell => .ok (p, cell)

namespace ResponseQueue

/-- `ResponseInsert(client, res)`. -/
def responseInsert (q : ResponseQueue) (res : Option ResponsePtr) : Except Fault ResponseQueue :=
  if res.isNone then .ok q
  else if q.sendResponseQueueHead.isNone && q.sendResponseQueueTail.isNone then do
    let (p, cell) ← derefResponse q.responses res
    .ok { responses := q.responses.set p { cell with next := none }
          sendResponseQueueHead := res
          sendResponseQueueTail := res }
  else do
    let (t, last) ← derefResponse q.responses q.sendResponseQueueTail
    let responses := q.responses.set t { last with next := res }
    let (p, cell) ← derefResponse responses res
    .ok { q with
      responses := responses.set p { cell with next := none }
      sendResponseQueueTail := res }

/-- `ResponseDeleteHead(client)`. -/
def responseDeleteHead (q : ResponseQueue) : Except Fault ResponseQueue :=
  if q.sendResponseQueueHead.isNone then .ok q
  else do
    let (p, cell) ← derefResponse q.responses q.sendResponseQueueHead
    .ok { responses := q.responses.release p
          sendResponseQueueTail :=
            if q.sendResponseQueueHead = q.sendResponseQueueTail then none else q.sendResponseQueueTail
          sendResponseQueueHead := cell.next }

end ResponseQueue

def responsePlace : Place ResponseQueue ResponseCell where
  next := ResponseCell.next
  cells := ResponseQueue.responses
  head := ResponseQueue.sendResponseQueueHead
  tail := ResponseQueue.sendResponseQueueTail

def responseStep (q : ResponseQueue) : QueueCall → Except Fault ResponseQueue
  | .insert p => q.responseInsert (some p)
  | .deleteHead => q.responseDeleteHead

variable {q : ResponseQueue} {p t : Nat} {l : List Nat} {cell last : ResponseCell}

theorem derefResponse_some {responses : Pool ResponseCell} (h : responses.get p = some cell) :
    derefResponse responses (some p) = .ok (p, cell) := by
  simp [derefResponse, h]

theorem responseInsert_empty (hhead : q.sendResponseQueueHead = none) (htail : q.sendResponseQueueTail = none)
    (hp : q.responses.get p = some cell) :
    q.responseInsert (some p) = .ok ⟨q.responses.set p { cell with next := none }, some p, some p⟩ := by
  simp [ResponseQueue.responseInsert, hhead, htail, derefResponse_some hp, bind, Except.bind]

theorem responseInsert_behind (htail : q.sendResponseQueueTail = some t) (ht : q.responses.get t = some last)
    (hp : q.responses.get p = some cell) (hne : p ≠ t) :
    q.responseInsert (some p) = .ok
      ⟨(q.responses.set t { last with next := some p }).set p { cell with next := none },
        q.sendResponseQueueHead, some p⟩ := by
  have hp' : (q.responses.set t { last with next := some p }).get p = some cell :=
    (Pool.get_set_ne hne).trans hp
  simp [ResponseQueue.responseInsert, htail, derefResponse_some ht, derefResponse_some hp', bind, Except.bind]

theorem responseDeleteHead_eq (hhead : q.sendResponseQueueHead = some p) (hp : q.responses.get p = some cell) :
    q.responseDeleteHead = .ok ⟨q.responses.release p, cell.next,
      if some p = q.sendResponseQueueTail then none else q.sendResponseQueueTail⟩ := by
  simp [ResponseQueue.responseDeleteHead, hhead, derefResponse_some hp, bind, Except.bind]

/-- A structure is linked, its response stays the same. -/
theorem response_set (responses : Pool ResponseCell) (n : Option ResponsePtr) (hp : responses.get p = some cell)
    (i : ResponsePtr) : ((responses.set p { cell with next := n }).get i).map ResponseCell.response =
      (responses.get i).map ResponseCell.response := by
  by_cases hi : i = p
  · rw [hi, Pool.get_set_self hp, hp]
    rfl
  · rw [Pool.get_set_ne hi]

/-- **`ResponseInsert`** appends, whatever is in the queue. -/
theorem responseInsert_holds (h : responsePlace.Holds q l) (hnew : p ∉ l) (hp : q.responses.get p = some cell) :
    ∃ q', q.responseInsert (some p) = .ok q' ∧ responsePlace.Holds q' (l ++ [p]) ∧
      (∀ i ∉ l, i ≠ p → q'.responses.get i = q.responses.get i) ∧
      ∀ i, (q'.responses.get i).map ResponseCell.response = (q.responses.get i).map ResponseCell.response := by
  rcases List.eq_nil_or_concat l with rfl | ⟨l, t, rfl⟩
  · refine ⟨_, responseInsert_empty (h.head_none.mpr rfl) (h.tail_none.mpr rfl) hp, fifo_singleton hp rfl,
      fun i _ hi => Pool.get_set_ne hi, response_set _ _ hp⟩
  · -- the last response is `t`: its `next` and that of `p` are written
    rw [List.concat_eq_append] at *
    have htail : q.sendResponseQueueTail = some t := h.tail.trans List.getLast?_concat
    obtain ⟨last, ht⟩ : ∃ last, q.responses.get t = some last := h.chain.live (by simp)
    have hne : p ≠ t := by
      rintro rfl
      exact hnew (by simp)
    have hp' : (q.responses.set t { last with next := some p }).get p = some cell := (Pool.get_set_ne hne).trans hp
    have hholds : Fifo ResponseCell.next q.responses q.sendResponseQueueHead (some t) (l ++ [t]) := htail ▸ h
    refine ⟨_, responseInsert_behind htail ht hp hne, hholds.push hp hnew rfl rfl, fun i hi hip => ?_, fun i => ?_⟩
    · have hit : i ≠ t := by
        rintro rfl
        exact hi (by simp)
      exact (Pool.get_set_ne hip).trans (Pool.get_set_ne hit)
    · rw [response_set _ _ hp', response_set _ _ ht]

/-- **`ResponseDeleteHead`** takes the first response. -/
theorem responseDeleteHead_holds (h : responsePlace.Holds q l) :
    ∃ q', q.responseDeleteHead = .ok q' ∧ responsePlace.Holds q' l.tail ∧
      ∀ i, l.head? ≠ some i → q'.responses.get i = q.responses.get i := by
  rcases l with _ | ⟨p, l⟩
  · have hhead : q.sendResponseQueueHead = none := h.head_none.mpr rfl
    exact ⟨q, by simp [ResponseQueue.responseDeleteHead, hhead], h, fun _ _ => rfl⟩
  · have hhead : q.sendResponseQueueHead = some p := h.head_eq
    obtain ⟨cell, hp⟩ := h.chain.live List.mem_cons_self
    have hholds : Fifo ResponseCell.next q.responses (some p) q.sendResponseQueueTail (p :: l) := hhead ▸ h
    refine ⟨_, responseDeleteHead_eq hhead hp, hholds.pop hp, fun i hi => Pool.get_release_ne ?_⟩
    rintro rfl
    exact hi rfl

theorem responses_keep : responsePlace.Keeps responseStep fun _ => True where
  insert h _ hnew hp := by
    obtain ⟨q', hq', hholds, hsame, -⟩ := responseInsert_holds h hnew hp
    exact ⟨q', hq', hholds, hsame⟩
  deleteHead {q l} h := by
    obtain ⟨q', hq', hholds, hsame⟩ := responseDeleteHead_holds h
    refine ⟨q', hq', hholds, fun i hi => hsame i fun hhead => ?_⟩
    exact hi (List.mem_of_mem_head? hhead)

/-! ## Section 2: The list in `ClientStat` -/

/-- The responses behind the pointers. -/
def ResponseQueue.stored (q : ResponseQueue) (l : List ResponsePtr) : List Response :=
  l.filterMap fun p => (q.responses.get p).map ResponseCell.response

/-- The list is what the pointers run through. -/
def ResponseQueue.Represents (q : ResponseQueue) (client : ClientStat) : Prop :=
  ∃ l, responsePlace.Holds q l ∧ q.stored l = client.sendResponseQueue

theorem stored_congr {q' : ResponseQueue}
    (hsame : ∀ i ∈ l, (q'.responses.get i).map ResponseCell.response = (q.responses.get i).map ResponseCell.response) :
    q'.stored l = q.stored l :=
  List.filterMap_congr hsame

variable {client : ClientStat}

/-- `ResponseInsert` of a structure that is in no queue. -/
theorem responseInsert_represents (h : q.Represents client) (hp : q.responses.get p = some cell)
    (hnew : ∀ l, responsePlace.Holds q l → p ∉ l) :
    ∃ q', q.responseInsert (some p) = .ok q' ∧ q'.Represents (responseInsert client (some cell.response)) := by
  obtain ⟨l, hl, hstored⟩ := h
  obtain ⟨q', hq', hholds, -, hsame⟩ := responseInsert_holds hl (hnew l hl) hp
  refine ⟨q', hq', l ++ [p], hholds, ?_⟩
  have hcell : (q'.responses.get p).map ResponseCell.response = some cell.response := by
    rw [hsame p, hp]
    rfl
  rw [ResponseQueue.stored, List.filterMap_append, ← ResponseQueue.stored, stored_congr fun i _ => hsame i, hstored]
  simp [responseInsert, hcell]

theorem responseDeleteHead_represents (h : q.Represents client) :
    ∃ q', q.responseDeleteHead = .ok q' ∧ q'.Represents (responseDeleteHead client) := by
  obtain ⟨l, hl, hstored⟩ := h
  obtain ⟨q', hq', hholds, hsame⟩ := responseDeleteHead_holds hl
  refine ⟨q', hq', l.tail, hholds, ?_⟩
  show q'.stored l.tail = client.sendResponseQueue.tail
  rw [← hstored]
  rcases l with _ | ⟨p, l⟩
  · rfl
  · obtain ⟨cell, hp⟩ : ∃ cell, q.responses.get p = some cell := hl.chain.live List.mem_cons_self
    have hpl : p ∉ l := (List.nodup_cons.mp hl.nodup).1
    -- only the memory of `p` was released
    have htail : q'.stored l = q.stored l := by
      refine stored_congr fun i hi => ?_
      rw [hsame i]
      rintro hhead
      obtain rfl := Option.some.inj hhead
      exact hpl hi
    simp only [List.tail_cons]
    rw [htail]
    simp [ResponseQueue.stored, hp]

/-- What a call does to the list, for the responses that are in memory. -/
def listCall (q : ResponseQueue) (client : ClientStat) : QueueCall → ClientStat
  | .insert p => responseInsert client ((q.responses.get p).map ResponseCell.response)
  | .deleteHead => responseDeleteHead client

/-- **The list of responses** is what the macros make of the pointers, over
    every sequence of calls. -/
theorem responses_represented {calls : List QueueCall} (hempty : client.sendResponseQueue = [])
    (hfresh : responsePlace.Fresh q calls) :
    ∃ q', run responseStep q calls = .ok q' ∧ q'.Represents (calls.foldl (listCall q) client) := by
  induction calls using List.reverseRecOn with
  | nil =>
    refine ⟨q, rfl, [], ?_, hempty.symm⟩
    rw [Place.Holds, hfresh.head, hfresh.tail]
    exact fifo_nil _ _
  | append_singleton calls call ih =>
    obtain ⟨q₁, hrun, hrep⟩ := ih hfresh.front
    obtain ⟨q₂, hrun₂, hholds, hsame⟩ := responses_keep.runs (fun _ _ _ _ _ _ => trivial) hfresh.front
    obtain rfl := Except.ok.inj (hrun.symm.trans hrun₂)
    rw [List.foldl_append, List.foldl_cons, List.foldl_nil]
    cases call with
    | insert p =>
      -- `p` is as it was at the start, and not in the queue yet
      obtain ⟨cell, hcell⟩ : ∃ cell, q.responses.get p = some cell :=
        hfresh.live p (by rw [insertions_snoc_insert]; simp)
      have hp : q₁.responses.get p = some cell := (hsame p (not_mem_insertions hfresh.nodup)).trans hcell
      have hnew : ∀ l, responsePlace.Holds q₁ l → p ∉ l := by
        intro l hl
        rw [hl.chain.unique hholds.chain]
        exact not_mem_held hfresh.nodup
      obtain ⟨q', hstep, hrep'⟩ := responseInsert_represents hrep hp hnew
      refine ⟨q', run_snoc_eq_ok.mpr ⟨q₁, hrun, hstep⟩, ?_⟩
      rw [listCall, hcell]
      exact hrep'
    | deleteHead =>
      obtain ⟨q', hstep, hrep'⟩ := responseDeleteHead_represents hrep
      exact ⟨q', run_snoc_eq_ok.mpr ⟨q₁, hrun, hstep⟩, hrep'⟩

/-! ## Section 3: The command queue -/

def cmdPlace : Place Conn Cmd where
  next := Cmd.next
  cells c := c.world.cmds
  head c := c.client.recvCmdQueueHead
  tail c := c.client.recvCmdQueueTail

def cmdStep (c : Conn) : QueueCall → Except Fault Conn
  | .insert p => cmdInsert c p
  | .deleteHead => cmdDeleteHead c

variable {c c' start : Conn} {cmd : Cmd} {calls : List QueueCall}

theorem cmdInsert_empty (hhead : c.client.recvCmdQueueHead = none) (htail : c.client.recvCmdQueueTail = none)
    (hp : c.world.cmds.get p = some cmd) :
    cmdInsert c p = .ok { c with
      client := { c.client with recvCmdQueueHead := some p, recvCmdQueueTail := some p }
      world := (c.world.log (.inserted c.me p true)).setCmd p { cmd with next := none } } := by
  simp [cmdInsert, derefCmd_some hp, hhead, htail, bind, Except.bind]

/-- An insertion behind a command does not move the tail. -/
theorem cmdInsert_tail (h : cmdInsert c p = .ok c') (hhead : c.client.recvCmdQueueHead ≠ none) :
    c'.client.recvCmdQueueTail = c.client.recvCmdQueueTail := by
  obtain ⟨⟨_, cmd⟩, -, h⟩ := ok_of_bind h
  have hbefore : (c.client.recvCmdQueueHead.isNone && c.client.recvCmdQueueTail.isNone) = false := by
    rw [Option.isNone_eq_false_iff.mpr (Option.isSome_iff_ne_none.mpr hhead), Bool.false_and]
  simp only [hbefore, Bool.false_eq_true, if_false] at h
  obtain ⟨⟨t, last⟩, -, h⟩ := ok_of_bind h
  obtain ⟨⟨_, cmd'⟩, -, h⟩ := ok_of_bind h
  obtain rfl := Except.ok.inj h
  rfl

theorem cmdDeleteHead_eq (hhead : c.client.recvCmdQueueHead = some p) (hp : c.world.cmds.get p = some cmd) :
    cmdDeleteHead c = .ok { c with
      client := { c.client with
        recvCmdQueueTail := if some p = c.client.recvCmdQueueTail then none else c.client.recvCmdQueueTail
        recvCmdQueueHead := cmd.next }
      world := { c.world with cmds := c.world.cmds.release p } } := by
  simp [cmdDeleteHead, hhead, derefCmd_some hp, bind, Except.bind]

theorem cmds_keep : cmdPlace.Keeps cmdStep fun l => l = [] where
  insert {c l p cmd} h hempty _ hp := by
    subst hempty
    refine ⟨_, cmdInsert_empty (h.head_none.mpr rfl) (h.tail_none.mpr rfl) hp, fifo_singleton hp rfl,
      fun i _ hi => Pool.get_set_ne hi⟩
  deleteHead {c l} h := by
    rcases l with _ | ⟨p, l⟩
    · have hhead : c.client.recvCmdQueueHead = none := h.head_none.mpr rfl
      exact ⟨c, by simp [cmdStep, cmdDeleteHead, hhead], h, fun _ _ => rfl⟩
    · have hhead : c.client.recvCmdQueueHead = some p := h.head_eq
      obtain ⟨cmd, hp⟩ := h.chain.live List.mem_cons_self
      have hholds : Fifo Cmd.next c.world.cmds (some p) c.client.recvCmdQueueTail (p :: l) := hhead ▸ h
      refine ⟨_, cmdDeleteHead_eq hhead hp, hholds.pop hp, fun i hi => Pool.get_release_ne ?_⟩
      rintro rfl
      exact hi List.mem_cons_self

/-- A queue that stays first in, first out has no command inserted behind
    another one: the tail would be the old one, and not the new command. -/
theorem inserts_when_empty (hfresh : cmdPlace.Fresh start calls) (h : cmdPlace.IsFifo cmdStep start calls) :
    InsertsWhen (fun l => l = []) calls := by
  rintro before call later rfl p rfl
  by_contra hne
  obtain ⟨c, hrun, hexact⟩ := h before _ rfl
  obtain ⟨c', hrun', hexact'⟩ := h (before ++ [.insert p]) later (by simp)
  obtain ⟨c₀, hrun₀, hstep⟩ := run_snoc_eq_ok.mp hrun'
  obtain rfl := Except.ok.inj (hrun.symm.trans hrun₀)
  have htail := cmdInsert_tail hstep fun hhead => hne (hexact.head_none.mp hhead)
  have hlast : c'.client.recvCmdQueueTail = some p := by
    rw [show c'.client.recvCmdQueueTail = _ from hexact'.holds.tail, held_snoc]
    exact List.getLast?_concat
  -- so the new command was the last one before
  have hmem : p ∈ held before := List.mem_of_getLast? (hexact.holds.tail.symm.trans (htail.symm.trans hlast))
  have hsplit : before ++ .insert p :: later = (before ++ [.insert p]) ++ later := by simp
  exact not_mem_held (hsplit ▸ hfresh).front.nodup hmem

/-- **The queues.**  The macros of the responses are first in, first out
    over every sequence of calls, those of the commands just when every
    command is inserted into an empty queue. -/
theorem queues_fifo {responseCalls : List QueueCall} (hresponses : responsePlace.Fresh q responseCalls)
    (hcmds : cmdPlace.Fresh start calls) :
    responsePlace.IsFifo responseStep q responseCalls ∧
      (cmdPlace.IsFifo cmdStep start calls ↔ InsertsWhen (fun l => l = []) calls) := by
  refine ⟨responses_keep.isFifo (fun _ _ _ _ _ _ => trivial) hresponses, ?_, ?_⟩
  · exact inserts_when_empty hcmds
  · intro hwhen
    exact cmds_keep.isFifo hwhen hcmds

/-- A client with empty queues, and three commands allocated for it. -/
def threeCmds : Conn where
  me := 0
  client := newClient 5
  world := { initServer.world with cmds := ⟨List.replicate 3 (some (newCmd 1))⟩ }

def twoResponses : ResponseQueue where
  responses := ⟨List.replicate 2 (some ⟨getOkResponse, none⟩)⟩
  sendResponseQueueHead := none
  sendResponseQueueTail := none

theorem threeCmds_fresh (hnodup : (insertions calls).Nodup) (hlt : ∀ p ∈ insertions calls, p < 3) :
    cmdPlace.Fresh threeCmds calls where
  head := rfl
  tail := rfl
  nodup := hnodup
  live p hp := ⟨newCmd 1, Pool.get_replicate (hlt p hp)⟩

theorem twoResponses_fresh (hnodup : (insertions calls).Nodup) (hlt : ∀ p ∈ insertions calls, p < 2) :
    responsePlace.Fresh twoResponses calls where
  head := rfl
  tail := rfl
  nodup := hnodup
  live p hp := ⟨⟨getOkResponse, none⟩, Pool.get_replicate (hlt p hp)⟩

theorem queues_fifo_two :
    responsePlace.IsFifo responseStep twoResponses [.insert 0, .insert 1, .deleteHead] ∧
      (cmdPlace.IsFifo cmdStep threeCmds [.insert 0, .deleteHead, .insert 1] ↔
        InsertsWhen (fun l => l = []) [.insert 0, .deleteHead, .insert 1]) :=
  queues_fifo (twoResponses_fresh (by decide) (by decide)) (threeCmds_fresh (by decide) (by decide))

/-- The third command takes the place of the second one, which is lost; after
    a deletion between them there is no tail to insert behind. -/
theorem third_command_lost :
    cmdPlace.Fresh threeCmds [.insert 0, .insert 1, .insert 2] ∧
      ¬ cmdPlace.IsFifo cmdStep threeCmds [.insert 0, .insert 1, .insert 2] ∧
      (∃ c, run cmdStep threeCmds [.insert 0, .insert 1, .insert 2] = .ok c ∧
        Chain Cmd.next c.world.cmds c.client.recvCmdQueueHead [0, 2] none ∧
        c.client.recvCmdQueueTail = some 0) ∧
      run cmdStep threeCmds [.insert 0, .insert 1, .deleteHead, .insert 2] = .error .nullDeref := by
  have hlost : ∃ c, run cmdStep threeCmds [.insert 0, .insert 1, .insert 2] = .ok c ∧
      Chain Cmd.next c.world.cmds c.client.recvCmdQueueHead [0, 2] none ∧
      c.client.recvCmdQueueTail = some 0 :=
    ⟨_, rfl, ⟨rfl, _, rfl, rfl, _, rfl, rfl⟩, rfl⟩
  refine ⟨threeCmds_fresh (by decide) (by decide), fun hfifo => ?_, hlost, rfl⟩
  obtain ⟨c, hrun, hchain, -⟩ := hlost
  obtain ⟨c', hrun', hexact⟩ := hfifo _ [] (List.append_nil _).symm
  obtain rfl := Except.ok.inj (hrun.symm.trans hrun')
  have hsame := hchain.unique hexact.holds.chain
  exact absurd hsame (by decide)

end BoAtom
