import BoAtom.Mem.Reach

/-! # Partial writes

    Responses are inserted into the queue of a connection, and passes of
    `send_response_handle` run in between, with `write` accepting what it
    likes.  `rest` is what a queued response still has to send: a pass
    always advances the queue by the bytes accepted, but it hands `write`
    the start of the item, whatever `item_pos` is. -/

namespace BoAtom

open Machine Memory

/-! ## Section 1: Operations on the queue -/

inductive QueueOp where
  /-- `ResponseInsert`. -/
  | insert (res : Response)
  /-- A pass of `send_response_handle`. -/
  | send (w : WriteResult)

def queueStep (c : Conn) : QueueOp → Except Fault Conn
  | .insert res => .ok { c with client := responseInsert c.client (some res) }
  | .send w => (sendPass c w).map Prod.snd

/-- A response none of which has been sent. -/
structure Unsent (res : Response) : Prop where
  argsNum_le : res.argsNum ≤ cmdArgsMax
  curItem : res.curItem = 0
  itemPos : ∀ i, res.itemPos i = 0

/-- All bytes of a response. -/
def Response.content (h : Heap) (r : Response) : Bytes := (r.items h).flatten

def QueueOp.added (h : Heap) : QueueOp → Bytes
  | .insert res => res.content h
  | .send _ => []

/-- The items of all responses that were inserted. -/
def queued (h : Heap) (ops : List QueueOp) : Bytes := ops.flatMap (QueueOp.added h)

/-- The bytes `write` accepts at `item_pos` are those at the start of the
    item. -/
def Resumes (c : Conn) : QueueOp → Prop
  | .send (.accepted k) => ∀ tmp rest, c.client.sendResponseQueue = tmp :: rest →
      ∀ i j : Fin cmdArgsMax, i.val = tmp.curItem → j.val = (nextItem tmp i).curItem →
        j.val < tmp.argsNum → ∀ n, n = min k (tmp.itemLength j - tmp.itemPos j) →
          (tmp.item c.world.heap j).take n =
            ((tmp.item c.world.heap j).drop (tmp.itemPos j)).take n
  | _ => True

/-- The same at the item that is due. -/
theorem resumes_accepted_iff {c : Conn} {k : Nat} : Resumes c (.send (.accepted k)) ↔
    ∀ tmp ∈ c.client.sendResponseQueue.head?, ∀ hi : tmp.curItem < cmdArgsMax,
      ∀ hj : (nextItem tmp ⟨_, hi⟩).curItem < cmdArgsMax, (nextItem tmp ⟨_, hi⟩).curItem < tmp.argsNum →
        let j : Fin cmdArgsMax := ⟨_, hj⟩
        let n := min k (tmp.itemLength j - tmp.itemPos j)
        (tmp.item c.world.heap j).take n = ((tmp.item c.world.heap j).drop (tmp.itemPos j)).take n := by
  constructor
  · intro h tmp htmp hi hj hlt
    obtain ⟨rest, hqueue⟩ := List.head?_eq_some_iff.mp htmp
    exact h tmp rest hqueue ⟨_, hi⟩ ⟨_, hj⟩ rfl rfl hlt _ rfl
  · rintro h tmp rest hqueue ⟨i, hi⟩ ⟨j, hj⟩ rfl rfl hlt n rfl
    exact h tmp (by rw [hqueue]; rfl) hi hj hlt

instance decidableResumes (c : Conn) : ∀ op, Decidable (Resumes c op)
  | .insert _ | .send .eagain | .send .error => isTrue trivial
  | .send (.accepted _) => decidable_of_iff _ resumes_accepted_iff.symm

/-! ## Section 2: What is left of a response -/

variable {c c' : Conn} {h : Heap} {r : Response} {i j : Fin cmdArgsMax}

/-- How far a response in the queue can be. -/
structure Sendable (r : Response) : Prop where
  argsNum_le : r.argsNum ≤ cmdArgsMax
  curItem_lt : r.curItem < cmdArgsMax
  pos_le : ∀ i : Fin cmdArgsMax, i.val = r.curItem → r.itemPos i ≤ r.itemLength i
  later : ∀ i : Fin cmdArgsMax, r.curItem < i.val → r.itemPos i = 0

/-- How much of the current item has been sent. -/
def Response.pos (r : Response) : Nat :=
  if hi : r.curItem < cmdArgsMax then r.itemPos ⟨r.curItem, hi⟩ else 0

/-- The bytes still to be sent. -/
def Response.rest (h : Heap) (r : Response) : Bytes :=
  ((r.items h).drop r.curItem).flatten.drop r.pos

/-- The bytes a queue still has to send. -/
def backlog (h : Heap) (queue : List Response) : Bytes := queue.flatMap (Response.rest h)

theorem Response.pos_eq (hi : i.val = r.curItem) : r.pos = r.itemPos i := by
  have hlt : r.curItem < cmdArgsMax := hi ▸ i.isLt
  unfold Response.pos
  rw [dif_pos hlt]
  congr 1
  exact Fin.ext hi.symm

theorem Response.length_item (h : Heap) (r : Response) (i : Fin cmdArgsMax) :
    (r.item h i).length = r.itemLength i := by
  unfold Response.item
  rw [dif_pos i.isLt]
  exact length_loadChars _ _ _

theorem Response.drop_items (h : Heap) (r : Response) (k : Nat) :
    (r.items h).drop k = if k < r.argsNum then r.item h k :: (r.items h).drop (k + 1) else [] := by
  have hlen : (r.items h).length = r.argsNum := by simp [Response.items]
  by_cases hk : k < r.argsNum
  · rw [if_pos hk, List.drop_eq_getElem_cons (by omega)]
    simp [Response.items]
  · rw [if_neg hk, List.drop_of_length_le (by omega)]

/-- Nothing has been sent yet. -/
theorem Unsent.sendable (hr : Unsent r) : Sendable r ∧ r.rest h = r.content h := by
  have hpos : r.pos = 0 := by
    rw [Response.pos_eq (i := ⟨0, by decide⟩) hr.curItem.symm, hr.itemPos]
  refine ⟨⟨hr.argsNum_le, by rw [hr.curItem]; decide, fun i _ => ?_, fun i _ => hr.itemPos i⟩, ?_⟩
  · rw [hr.itemPos]
    exact Nat.zero_le _
  · rw [Response.rest, hpos, hr.curItem]
    rfl

/-- The current item, and the items behind it. -/
theorem Response.rest_of_lt (hi : i.val = r.curItem) (hlt : r.curItem < r.argsNum)
    (hle : r.itemPos i ≤ r.itemLength i) :
    r.rest h = (r.item h i).drop (r.itemPos i) ++ ((r.items h).drop (r.curItem + 1)).flatten := by
  have hlen := r.length_item h i
  rw [Response.rest, Response.pos_eq hi, Response.drop_items, if_pos hlt, List.flatten_cons, ← hi,
    List.drop_append_of_le_length (by omega)]

theorem Response.rest_of_ge (hge : r.argsNum ≤ r.curItem) : r.rest h = [] := by
  rw [Response.rest, Response.drop_items, if_neg (Nat.not_lt.mpr hge)]
  simp

/-- Going on to the next item sends nothing; behind the last one nothing is
    left. -/
theorem Sendable.next (hr : Sendable r) (hi : i.val = r.curItem) :
    ((nextItem r i).curItem < (nextItem r i).argsNum → Sendable (nextItem r i) ∧
      (nextItem r i).rest h = r.rest h) ∧
    (¬ (nextItem r i).curItem < (nextItem r i).argsNum → r.rest h = []) := by
  unfold nextItem
  by_cases hdone : r.itemPos i ≥ r.itemLength i
  swap
  · rw [if_neg hdone]
    exact ⟨fun _ => ⟨hr, rfl⟩, fun hge => Response.rest_of_ge (Nat.not_lt.mp hge)⟩
  rw [if_pos hdone]
  have hpos : r.itemPos i = r.itemLength i := le_antisymm (hr.pos_le i hi) hdone
  -- the current item has been sent as a whole
  have hrest : r.rest h = ((r.items h).drop (r.curItem + 1)).flatten := by
    by_cases hlt : r.curItem < r.argsNum
    · rw [Response.rest_of_lt hi hlt hpos.le, hpos, ← r.length_item h i, List.drop_length,
        List.nil_append]
    · have hge : ¬ r.curItem + 1 < r.argsNum := by omega
      rw [Response.rest_of_ge (Nat.not_lt.mp hlt), Response.drop_items, if_neg hge]
      rfl
  constructor
  · intro hlt
    have hlt' : r.curItem + 1 < r.argsNum := hlt
    have hin : r.curItem + 1 < cmdArgsMax := lt_of_lt_of_le hlt' hr.argsNum_le
    refine ⟨⟨hr.argsNum_le, hin, fun j hj => ?_, fun j hj => ?_⟩, ?_⟩
    · rw [hr.later j (by rw [hj]; exact Nat.lt_succ_self _)]
      exact Nat.zero_le _
    · exact hr.later j (Nat.lt_of_succ_lt hj)
    · have hzero : r.itemPos ⟨r.curItem + 1, hin⟩ = 0 := hr.later _ (Nat.lt_succ_self _)
      rw [hrest, Response.rest, Response.pos_eq (i := ⟨r.curItem + 1, hin⟩) rfl]
      show List.drop (r.itemPos _) _ = _
      rw [hzero]
      rfl
  · intro hge
    have hge' : ¬ r.curItem + 1 < r.argsNum := hge
    rw [hrest, Response.drop_items, if_neg hge']
    rfl

/-- The response after `write` has accepted `n` bytes. -/
def Response.accept (r : Response) (i : Fin cmdArgsMax) (n : Nat) : Response :=
  { r with itemPos := Function.update r.itemPos i (r.itemPos i + n) }

@[simp] theorem Response.accept_itemPos (r : Response) (i : Fin cmdArgsMax) (n : Nat) :
    (r.accept i n).itemPos i = r.itemPos i + n := Function.update_self _ _ _

theorem Sendable.wrote (hr : Sendable r) (hi : i.val = r.curItem) (hlt : r.curItem < r.argsNum) {n : Nat}
    (hn : n ≤ r.itemLength i - r.itemPos i) :
    Sendable (r.accept i n) ∧ (r.accept i n).rest h = (r.rest h).drop n ∧
    (r.rest h).take n = ((r.item h i).drop (r.itemPos i)).take n := by
  have hle := hr.pos_le i hi
  have hlen := r.length_item h i
  have hrest := Response.rest_of_lt (h := h) hi hlt hle
  have hbound : n ≤ ((r.item h i).drop (r.itemPos i)).length := by
    rw [List.length_drop]
    omega
  have hle' : (r.accept i n).itemPos i ≤ (r.accept i n).itemLength i := by
    rw [Response.accept_itemPos]
    show r.itemPos i + n ≤ r.itemLength i
    omega
  refine ⟨⟨hr.argsNum_le, hr.curItem_lt, fun j hj => ?_, fun j hj => ?_⟩, ?_, ?_⟩
  · obtain rfl : j = i := Fin.ext (hj.trans hi.symm)
    exact hle'
  · have hji : j ≠ i := by
      rintro rfl
      have hj' : r.curItem < j.val := hj
      omega
    exact (Function.update_of_ne hji _ _).trans (hr.later j hj)
  · rw [Response.rest_of_lt (r := r.accept i n) hi hlt hle', hrest, Response.accept_itemPos,
      List.drop_append_of_le_length hbound, List.drop_drop]
    rfl
  · rw [hrest, List.take_append_of_le_length hbound]

/-! ## Section 3: One operation -/

theorem readAs_take {bs : Bytes} {m n : Nat} (hm : m ≤ n) : (readAs bs n).take m = readAs bs m := by
  unfold readAs
  rw [List.take_append, List.take_take, Nat.min_eq_left hm, List.take_replicate, List.length_take]
  congr 2
  omega

/-- Fewer bytes from the same pointer are a beginning of more. -/
theorem loadChars_take (h : Heap) (p : CharPtr) {m n : Nat} (hm : m ≤ n) :
    (loadChars h p n).take m = loadChars h p m := by
  unfold loadChars Heap.load
  cases p with
  | null | lit => exact readAs_take hm
  | heap a =>
    simp only
    split <;> exact readAs_take hm

/-- A connection whose queue can be sent. -/
def Ready (c : Conn) : Prop := ∀ r ∈ c.client.sendResponseQueue, Sendable r

/-- What one operation does: some bytes are sent, as many leave the backlog,
    and they are the right ones when the write resumes. -/
structure Moved (c : Conn) (op : QueueOp) (c' : Conn) (bs : Bytes) : Prop where
  ready : Ready c'
  heap : c'.world.heap = c.world.heap
  sent : sentBy c'.me c'.world.trace = sentBy c.me c.world.trace ++ bs
  length_le : bs.length ≤ (backlog c.world.heap c.client.sendResponseQueue).length
  backlog : backlog c.world.heap c'.client.sendResponseQueue =
    (backlog c.world.heap c.client.sendResponseQueue).drop bs.length ++ op.added c.world.heap
  resumes : Resumes c op ↔ bs <+: BoAtom.backlog c.world.heap c.client.sendResponseQueue

theorem sentBy_wrote (me : ClientId) (trace : List Happened) (bs : Bytes) :
    sentBy me (trace ++ [.wrote me bs]) = sentBy me trace ++ bs := by
  rw [sentBy_snoc]
  simp [sentBy]

theorem sentBy_finished (me : ClientId) (trace : List Happened) :
    sentBy me (trace ++ [.finished me]) = sentBy me trace := by
  rw [sentBy_snoc]
  simp [sentBy]

theorem queueStep_insert (hc : Ready c) {res : Response} (hres : Unsent res) :
    ∃ c', queueStep c (.insert res) = .ok c' ∧ Moved c (.insert res) c' [] := by
  obtain ⟨hsendable, hrest⟩ := hres.sendable (h := c.world.heap)
  refine ⟨_, rfl, ⟨fun r hr => ?_, rfl, (List.append_nil _).symm, Nat.zero_le _, ?_, ?_⟩⟩
  · rcases List.mem_append.mp hr with hr | hr
    · exact hc r hr
    · rw [List.mem_singleton.mp hr]
      exact hsendable
  · show (c.client.sendResponseQueue ++ [res]).flatMap _ = _
    rw [List.flatMap_append, List.flatMap_singleton, hrest]
    rfl
  · exact iff_of_true trivial List.nil_prefix

@[simp] theorem nextItem_argsNum (r : Response) (i : Fin cmdArgsMax) :
    (nextItem r i).argsNum = r.argsNum := by
  unfold nextItem
  split <;> rfl

/-- Going on changes `cur_item` only. -/
theorem nextItem_same (h : Heap) (r : Response) (i j : Fin cmdArgsMax) :
    (nextItem r i).itemPos j = r.itemPos j ∧ (nextItem r i).itemLength j = r.itemLength j ∧
    (nextItem r i).item h j = r.item h j := by
  unfold nextItem
  split <;> exact ⟨rfl, rfl, rfl⟩

/-- Nothing is sent, and what there is to send stays the same. -/
theorem Moved.idle {op : QueueOp} (hready : Ready c') (hheap : c'.world.heap = c.world.heap)
    (hsent : sentBy c'.me c'.world.trace = sentBy c.me c.world.trace)
    (hbacklog : BoAtom.backlog c.world.heap c'.client.sendResponseQueue =
      BoAtom.backlog c.world.heap c.client.sendResponseQueue)
    (hadded : op.added c.world.heap = []) (hresumes : Resumes c op) : Moved c op c' [] := by
  refine ⟨hready, hheap, by rw [hsent, List.append_nil], Nat.zero_le _, ?_,
    iff_of_true hresumes List.nil_prefix⟩
  rw [hbacklog, hadded, List.append_nil]
  rfl

/-- What `write` is given, and what it should be given. -/
theorem Sendable.write {tmp : Response} {k n : Nat} (hr : Sendable tmp) (h : Heap)
    (rest : List Response) {j : Fin cmdArgsMax}
    (hj : j.val = tmp.curItem) (hlt : tmp.curItem < tmp.argsNum)
    (hn : n = min k (tmp.itemLength j - tmp.itemPos j)) :
    ((loadChars h (tmp.value j) (tmp.itemLength j - tmp.itemPos j)).take n).length = n ∧
    n ≤ (tmp.rest h).length ∧
    ((tmp.item h j).take n = ((tmp.item h j).drop (tmp.itemPos j)).take n ↔
      (loadChars h (tmp.value j) (tmp.itemLength j - tmp.itemPos j)).take n <+:
        backlog h (tmp :: rest)) := by
  have hle := hr.pos_le j hj
  have hnle : n ≤ tmp.itemLength j - tmp.itemPos j := by omega
  obtain ⟨-, hrest, htake⟩ := hr.wrote (h := h) hj hlt hnle
  have hlen : ((loadChars h (tmp.value j) (tmp.itemLength j - tmp.itemPos j)).take n).length = n := by
    rw [List.length_take, length_loadChars]
    omega
  have hitem : (loadChars h (tmp.value j) (tmp.itemLength j - tmp.itemPos j)).take n =
      (tmp.item h j).take n := by
    have hnle' : n ≤ tmp.itemLength j := by omega
    unfold Response.item
    rw [dif_pos j.isLt, loadChars_take h _ hnle, loadChars_take h _ hnle']
  have hbacklog : backlog h (tmp :: rest) = tmp.rest h ++ backlog h rest := List.flatMap_cons
  have hbound : n ≤ (tmp.rest h).length := by
    rw [Response.rest_of_lt hj hlt hle, List.length_append, List.length_drop, Response.length_item]
    omega
  refine ⟨hlen, hbound, ?_⟩
  rw [List.prefix_iff_eq_take, hlen, hitem, hbacklog, List.take_append_of_le_length hbound, htake]

/-- **A pass.** -/
theorem queueStep_send (hc : Ready c) (w : WriteResult) :
    ∃ c' bs, queueStep c (.send w) = .ok c' ∧ Moved c (.send w) c' bs := by
  unfold queueStep sendPass
  -- no response queued: the callback has nothing to write
  rcases hqueue : c.client.sendResponseQueue with _ | ⟨tmp, rest⟩
  · refine ⟨_, [], rfl, .idle hc rfl rfl rfl rfl ?_⟩
    cases w with
    | accepted k =>
      intro tmp rest hcons
      rw [hqueue] at hcons
      cases hcons
    | eagain | error => trivial
  have hr : Sendable tmp := hc tmp (by rw [hqueue]; exact List.mem_cons_self)
  have hready : ∀ r ∈ rest, Sendable r := fun r hmem =>
    hc r (by rw [hqueue]; exact List.mem_cons_of_mem _ hmem)
  have hbacklog : backlog c.world.heap c.client.sendResponseQueue =
      tmp.rest c.world.heap ++ backlog c.world.heap rest := by
    rw [hqueue]
    exact List.flatMap_cons
  simp only [responseSlot_ok hr.curItem_lt, bind, Except.bind]
  set i : Fin cmdArgsMax := ⟨tmp.curItem, hr.curItem_lt⟩ with hi
  -- `nextItem` skips the items already sent; what is left of the response stays the same
  obtain ⟨hmore, hdone⟩ := hr.next (h := c.world.heap) (i := i) rfl
  by_cases hlt : (nextItem tmp i).curItem < (nextItem tmp i).argsNum
  swap
  · -- the response is done
    rw [if_neg hlt]
    refine ⟨_, [], rfl, .idle ?_ rfl (sentBy_finished _ _) ?_ rfl ?_⟩
    · show ∀ r ∈ c.client.sendResponseQueue.tail, Sendable r
      rw [hqueue]
      exact hready
    · show backlog c.world.heap c.client.sendResponseQueue.tail = _
      rw [hbacklog, hdone hlt, hqueue]
      rfl
    · cases w with
      | accepted k =>
        intro tmp' rest' hcons i' j hi' hj hin
        rw [hqueue] at hcons
        cases hcons
        obtain rfl : i' = i := Fin.ext hi'
        rw [hj, ← nextItem_argsNum tmp i] at hin
        exact absurd hin hlt
      | eagain | error => trivial
  obtain ⟨hr', hrest⟩ := hmore hlt
  rw [if_pos hlt]
  simp only [responseSlot_ok hr'.curItem_lt]
  unfold writeItem
  have hbacklog' : backlog c.world.heap (nextItem tmp i :: rest) =
      backlog c.world.heap c.client.sendResponseQueue := by
    rw [hbacklog, ← hrest]
    exact List.flatMap_cons
  have hready' : ∀ r ∈ nextItem tmp i :: rest, Sendable r := by
    intro r hmem
    rcases List.mem_cons.mp hmem with rfl | hmem
    · exact hr'
    · exact hready r hmem
  cases w with
  -- nothing was written, and the position stays
  | eagain | error => exact ⟨_, [], rfl, .idle hready' rfl rfl hbacklog' rfl trivial⟩
  | accepted k =>
    set j : Fin cmdArgsMax := ⟨(nextItem tmp i).curItem, hr'.curItem_lt⟩ with hj
    set n := min k ((nextItem tmp i).itemLength j - (nextItem tmp i).itemPos j) with hn
    -- `n` bytes of item `j` were accepted: they are the next `n` of the backlog
    obtain ⟨hlen, hnle, hiff⟩ := hr'.write c.world.heap rest rfl hlt hn
    obtain ⟨hwrote, hleft, -⟩ := hr'.wrote (h := c.world.heap) (i := j) rfl hlt (n := n)
      (Nat.min_le_right _ _)
    refine ⟨_, _, rfl, ⟨fun r hmem => ?_, rfl, sentBy_wrote _ _ _, ?_, ?_, ?_⟩⟩
    · rcases List.mem_cons.mp hmem with rfl | hmem
      · exact hwrote
      · exact hready r hmem
    · rw [hlen, hbacklog, List.length_append, ← hrest]
      omega
    · have hcons : backlog c.world.heap ((nextItem tmp i).accept j n :: rest) =
          ((nextItem tmp i).accept j n).rest c.world.heap ++ backlog c.world.heap rest :=
        List.flatMap_cons
      rw [hlen, hbacklog, ← hrest, List.drop_append_of_le_length hnle, ← hleft]
      exact hcons.trans (List.append_nil _).symm
    · -- the bytes are the right ones exactly when the write started where the last one stopped
      rw [← hbacklog', ← hiff]
      obtain ⟨hpos, hlength, hitem⟩ := nextItem_same c.world.heap tmp i j
      rw [hpos, hlength] at hn
      rw [hitem, hpos]
      rw [nextItem_argsNum] at hlt
      constructor
      · intro hresumes
        exact hresumes tmp rest hqueue i j rfl rfl hlt n hn
      · intro hsame tmp' rest' hcons i' j' hi' hj' _ n' hn'
        rw [hqueue] at hcons
        cases hcons
        obtain rfl : i' = i := Fin.ext hi'
        obtain rfl : j' = j := Fin.ext hj'
        rw [hn', ← hn]
        exact hsame

/-! ## Section 4: Runs -/

/-- The bytes sent are a beginning of those of the responses, and all of
    them when the queue is empty. -/
def InOrder (c : Conn) (total : Bytes) : Prop :=
  sentBy c.me c.world.trace <+: total ∧
  (c.client.sendResponseQueue = [] → sentBy c.me c.world.trace = total)

theorem inOrder_of_backlog {total : Bytes}
    (h : sentBy c.me c.world.trace ++ backlog c.world.heap c.client.sendResponseQueue = total) :
    InOrder c total := by
  refine ⟨⟨_, h⟩, fun hempty => ?_⟩
  rw [hempty] at h
  rw [← h]
  exact (List.append_nil _).symm

theorem queueStep_moved (hc : Ready c) (op : QueueOp) (hop : ∀ res, op = .insert res → Unsent res) :
    ∃ c' bs, queueStep c op = .ok c' ∧ Moved c op c' bs := by
  cases op with
  | insert res =>
    obtain ⟨c', hstep, hmoved⟩ := queueStep_insert hc (hop res rfl)
    exact ⟨c', [], hstep, hmoved⟩
  | send w => exact queueStep_send hc w

/-- The run from a connection that has sent the right bytes so far. -/
theorem inOrder_iff (ops : List QueueOp) (hunsent : ∀ res, .insert res ∈ ops → Unsent res) :
    ∀ (c : Conn) (total : Bytes), Ready c →
      sentBy c.me c.world.trace ++ backlog c.world.heap c.client.sendResponseQueue = total →
      ((∀ n c', run queueStep c (ops.take n) = .ok c' →
        InOrder c' (total ++ queued c.world.heap (ops.take n))) ↔ Along queueStep Resumes c ops) := by
  induction ops with
  | nil =>
    intro c total hc htotal
    refine iff_of_true (fun n c' hrun => ?_) trivial
    rw [List.take_nil, run_nil, Except.ok.injEq] at hrun
    subst hrun
    rw [List.take_nil, queued, List.flatMap_nil, List.append_nil]
    exact inOrder_of_backlog htotal
  | cons op ops ih =>
    intro c total hc htotal
    obtain ⟨c₁, bs, hstep, hmoved⟩ :=
      queueStep_moved hc op fun res hres => hunsent res (by rw [hres]; exact List.mem_cons_self)
    have ih' := ih fun res hmem => hunsent res (List.mem_cons_of_mem _ hmem)
    have hcons : ∀ ops, total ++ queued c.world.heap (op :: ops) =
        total ++ op.added c.world.heap ++ queued c.world.heap ops := by
      intro ops
      rw [queued, List.flatMap_cons, List.append_assoc]
      rfl
    -- as long as the right bytes are sent
    have hnext : bs <+: backlog c.world.heap c.client.sendResponseQueue →
        sentBy c₁.me c₁.world.trace ++ backlog c₁.world.heap c₁.client.sendResponseQueue =
          total ++ op.added c.world.heap := by
      intro hbegins
      have htake := List.prefix_iff_eq_take.mp hbegins
      have hsplit := List.take_append_drop bs.length (backlog c.world.heap c.client.sendResponseQueue)
      rw [← htake] at hsplit
      rw [hmoved.sent, hmoved.heap, hmoved.backlog, ← htotal, ← hsplit]
      simp
    constructor
    · intro hgood
      have hone := (hgood 1 c₁ (by rw [List.take_succ_cons, List.take_zero, run_cons_ok hstep, run_nil])).1
      have hbegins : bs <+: backlog c.world.heap c.client.sendResponseQueue := by
        rw [List.take_succ_cons, List.take_zero, hcons, ← htotal, hmoved.sent, List.append_assoc,
          List.append_assoc, List.prefix_append_right_inj] at hone
        exact List.prefix_of_prefix_length_le hone (List.prefix_append _ _) hmoved.length_le
      refine ⟨hmoved.resumes.mpr hbegins, fun c₂ hc₂ => ?_⟩
      rw [hstep, Except.ok.injEq] at hc₂
      subst hc₂
      refine (ih' c₁ _ hmoved.ready (hnext hbegins)).mp fun n c' hrun => ?_
      have hinorder := hgood (n + 1) c' (by rw [List.take_succ_cons, run_cons_ok hstep]; exact hrun)
      rw [List.take_succ_cons, hcons] at hinorder
      rw [hmoved.heap]
      exact hinorder
    · rintro ⟨hresumes, halong⟩ n c' hrun
      have hbegins := hmoved.resumes.mp hresumes
      cases n with
      | zero =>
        rw [List.take_zero, run_nil, Except.ok.injEq] at hrun
        subst hrun
        rw [List.take_zero, queued, List.flatMap_nil, List.append_nil]
        exact inOrder_of_backlog htotal
      | succ n =>
        rw [List.take_succ_cons, run_cons_ok hstep] at hrun
        have hinorder := (ih' c₁ _ hmoved.ready (hnext hbegins)).mpr (halong c₁ hstep) n c' hrun
        rw [List.take_succ_cons, hcons]
        rw [hmoved.heap] at hinorder
        exact hinorder

/-- No operation faults. -/
theorem queue_run (ops : List QueueOp) (hunsent : ∀ res, .insert res ∈ ops → Unsent res) :
    ∀ c, Ready c → ∃ c', run queueStep c ops = .ok c' := by
  induction ops with
  | nil => exact fun c _ => ⟨c, rfl⟩
  | cons op ops ih =>
    intro c hc
    obtain ⟨c₁, bs, hstep, hmoved⟩ :=
      queueStep_moved hc op fun res hres => hunsent res (by rw [hres]; exact List.mem_cons_self)
    rw [run_cons_ok hstep]
    exact ih (fun res hmem => hunsent res (List.mem_cons_of_mem _ hmem)) c₁ hmoved.ready

/-- **Responses are sent in order**, for all insertions and all results of
    `write`, if and only if the bytes accepted in a partial write are always
    those at the start of the item. -/
theorem sent_in_order_iff (c : Conn) (ops : List QueueOp) (hidle : c.client.sendResponseQueue = [])
    (hnew : sentBy c.me c.world.trace = []) (hunsent : ∀ res, .insert res ∈ ops → Unsent res) :
    (∃ c', run queueStep c ops = .ok c') ∧
    ((∀ n c', run queueStep c (ops.take n) = .ok c' →
        sentBy c'.me c'.world.trace <+: queued c.world.heap (ops.take n) ∧
        (c'.client.sendResponseQueue = [] →
          sentBy c'.me c'.world.trace = queued c.world.heap (ops.take n))) ↔
      Along queueStep Resumes c ops) := by
  have hready : Ready c := by
    intro r hr
    rw [hidle] at hr
    simp at hr
  refine ⟨queue_run ops hunsent c hready, ?_⟩
  have hiff := inOrder_iff ops hunsent c [] hready (by rw [hnew, hidle]; rfl)
  simp only [List.nil_append] at hiff
  exact hiff

theorem unsent_literal (s : Bytes) : Unsent (literalResponse s) := 
  ⟨show 1 ≤ cmdArgsMax by decide, rfl, fun _ => rfl⟩

/-- Two answers, the first in two pieces.  Its bytes are equal, so that it does
    not matter where the second piece starts. -/
def answersInPieces : List QueueOp :=
  [.insert (literalResponse [97, 97, 97, 97]), .send (.accepted 1), .insert getOkResponse, .send .eagain,
    .send (.accepted 3), .send .eagain, .send (.accepted 12), .send .eagain]

theorem sent_in_order_iff_pieces :
    (∃ c', run queueStep ⟨0, newClient 5, initServer.world⟩ answersInPieces = .ok c' ∧
      c'.client.sendResponseQueue = [] ∧ sentBy c'.me c'.world.trace = [97, 97, 97, 97] ++ setOkStr) ∧
    ∀ n c', run queueStep ⟨0, newClient 5, initServer.world⟩ (answersInPieces.take n) = .ok c' →
      sentBy c'.me c'.world.trace <+: queued initServer.world.heap (answersInPieces.take n) := by
  have hunsent : ∀ res, .insert res ∈ answersInPieces → Unsent res := by
    intro res hres
    simp only [answersInPieces, List.mem_cons, QueueOp.insert.injEq, reduceCtorEq, List.not_mem_nil,
      or_false, false_or] at hres
    rcases hres with rfl | rfl <;> exact unsent_literal _
  obtain ⟨-, hiff⟩ := sent_in_order_iff ⟨0, newClient 5, initServer.world⟩ answersInPieces rfl rfl hunsent
  have hinorder := hiff.mpr (by decide +kernel)
  obtain ⟨c', hrun, hlen⟩ := ok_of_map (show (run queueStep ⟨0, newClient 5, initServer.world⟩
      answersInPieces).map (fun c => c.client.sendResponseQueue.length) = .ok 0 by decide +kernel)
  have hempty := List.eq_nil_of_length_eq_zero hlen
  refine ⟨⟨c', hrun, hempty, ?_⟩, fun n c' hn => (hinorder n c' hn).1⟩
  rw [(hinorder 8 c' hrun).2 hempty]
  decide +kernel

/-- The answer to a SET, of which `write` takes 1 byte and then 11: the
    first byte is sent twice, and the last one never. -/
theorem partial_write_repeats_bytes :
    ∃ s, run (step plainEnv) initServer [.connect 5 true,
        .recv 0 (.data [42, 51, 13, 10, 36, 51, 13, 10, 83, 69, 84, 13, 10, 36, 49, 13, 10, 107, 13, 10,
          36, 49, 13, 10, 118, 13, 10]),
        .send 0 (.accepted 1), .send 0 (.accepted 11), .send 0 (.accepted 11)] = .ok s ∧
      appendedBy 0 s.world.trace = [[setOkStr]] ∧
      (s.clients.get 0).map (fun c => c.sendResponseQueue.length) = some 0 ∧
      sentBy 0 s.world.trace = setOkStr.take 1 ++ setOkStr.take 11 ∧
      ¬ sentBy 0 s.world.trace <+: setOkStr := by
  obtain ⟨s, hs, hlog⟩ := ok_of_map (show (run (step plainEnv) initServer [.connect 5 true,
        .recv 0 (.data [42, 51, 13, 10, 36, 51, 13, 10, 83, 69, 84, 13, 10, 36, 49, 13, 10, 107, 13, 10,
          36, 49, 13, 10, 118, 13, 10]),
        .send 0 (.accepted 1), .send 0 (.accepted 11), .send 0 (.accepted 11)]).map
      (fun s => (appendedBy 0 s.world.trace,
        (s.clients.get 0).map (fun c => c.sendResponseQueue.length), sentBy 0 s.world.trace)) =
      .ok ([[setOkStr]], some 0, setOkStr.take 1 ++ setOkStr.take 11) by decide +kernel)
  simp only [Prod.mk.injEq] at hlog
  obtain ⟨happended, hqueue, hsent⟩ := hlog
  refine ⟨s, hs, happended, hqueue, hsent, ?_⟩
  rw [hsent]
  decide

end BoAtom
