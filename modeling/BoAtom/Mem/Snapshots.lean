import BoAtom.Mem.Answers
import BoAtom.Mem.Wire

/-! # Answers as snapshots

    A queued GET answer points into the store.  As long as no SET of its key
    is executed while it is queued, and every `write` takes all it is given,
    memory reads as the answer did when it was made, and the bytes sent to a
    client are the answers owed to it, one after the other.

    The first half is about logs alone: what each entry must be like for the
    bytes to add up.  The second half finds the logs of runs to be so. -/

namespace BoAtom

open History Machine Memory

/-! ## Section 1: Logs whose bytes add up -/

variable {trace : List Happened} {me : ClientId}


/-- `write` took the rest of an item, and an answer is finished when all of
    it has been sent. -/
def WholeItems (before : List Happened) : Happened → Prop
  | .wrote me bs => ∃ p ps j pos item, (Ledger.after before).pending me = p :: ps ∧
      p.items[j]? = some item ∧ p.sent = (p.items.take j).flatten.length + pos ∧
      pos ≤ item.length ∧ bs.length = item.length - pos ∧
      (p.intact = true → bs = item.take bs.length)
  | .finished me => ∃ p ps, (Ledger.after before).pending me = p :: ps ∧
      p.sent = p.content.length
  | _ => True

/-- No SET of a key is executed while a GET answer of that key is queued. -/
def Undisturbed (before : List Happened) : Happened → Prop
  | .executed _ e => ∀ key value, request e.items = .set key value →
      ∀ i, ∀ p ∈ (Ledger.after before).pending i, p.key ≠ some key
  | _ => True

/-- Intact, and sent up to the end of an item. -/
structure Pending.Snapshot (p : Pending) : Prop where
  intact : p.intact = true
  sent : ∃ j, p.sent = (p.items.take j).flatten.length

/-- What is left of an answer. -/
def Pending.unsent (p : Pending) : Bytes := p.content.drop p.sent

theorem Ledger.disturb_undisturbed {l : Ledger} {r : Request}
    (h : ∀ key value, r = .set key value → ∀ i, ∀ p ∈ l.pending i, p.key ≠ some key) (i : ClientId) :
    l.disturb r i = l.pending i := by
  cases r with
  | set key value =>
    show (l.pending i).map (Pending.overwrite key) = l.pending i
    have hsame : ∀ p ∈ l.pending i, Pending.overwrite key p = id p :=
      fun p hp => if_neg (h key value rfl i p hp)
    rw [List.map_congr_left hsame, List.map_id]
  | get | wrongArity | unknown => rfl

/-- The answers of `me` once a request has been executed that disturbs
    none. -/
theorem Ledger.execute_undisturbed {l : Ledger} {r : Request} {i : ClientId}
    (h : ∀ key value, r = .set key value → ∀ i, ∀ p ∈ l.pending i, p.key ≠ some key) :
    (l.execute i r).pending me = l.pending me ++
      if i = me then ((r.answer l.store).map fun items => (⟨items, r.source l.store, true, 0⟩ : Pending)).toList
      else [] := by
  have hsame := Ledger.disturb_undisturbed h
  unfold Ledger.execute
  by_cases hi : i = me
  · subst hi
    rw [if_pos rfl]
    rcases r.answer l.store with _ | items <;> simp [hsame]
  · rw [if_neg hi, List.append_nil]
    rcases r.answer l.store with _ | items
    · exact hsame me
    · simp only [Function.update_of_ne (Ne.symm hi)]
      exact hsame me

/-- Between the ends of two items lies no end of an item. -/
theorem length_take_flatten {items : List Bytes} {item : Bytes} {j j' pos : Nat}
    (hitem : items[j]? = some item) (hlt : pos < item.length)
    (h : (items.take j').flatten.length = (items.take j).flatten.length + pos) : pos = 0 := by
  have hmono : ∀ {m n : Nat}, m ≤ n → (items.take m).flatten.length ≤ (items.take n).flatten.length := by
    intro m n hmn
    rw [← Nat.add_sub_cancel' hmn, List.take_add, List.flatten_append, List.length_append]
    exact Nat.le_add_right _ _
  by_cases hle : j' ≤ j
  · have := hmono hle
    omega
  · have hnext := hmono (Nat.lt_of_not_le hle)
    have htake : items.take (j + 1) = items.take j ++ [item] := by
      rw [List.take_add_one, hitem]
      rfl
    rw [Nat.succ_eq_add_one, htake, List.flatten_append, List.length_append, List.flatten_singleton] at hnext
    omega

/-- What a client is sent, and what it is still owed. -/
structure Delivered (trace : List Happened) : Prop where
  snapshot : ∀ me, ∀ p ∈ (Ledger.after trace).pending me, p.Snapshot
  sent : ∀ me, .closed me ∉ trace →
    sentBy me trace ++ ((Ledger.after trace).pending me).flatMap Pending.unsent =
      (appendedBy me trace).flatten.flatten

/-- The conditions on one entry. -/
structure Accounted (before : List Happened) (x : Happened) : Prop where
  whole : WholeItems before x
  undisturbed : Undisturbed before x
  answered : ∀ i e, x = .executed i e → e.res = (request e.items).answer (Ledger.after before).store

theorem delivered_nil : Delivered [] :=
  ⟨fun me p hp => by simp [Ledger.init] at hp, fun me _ => rfl⟩

theorem Delivered.executed {i : ClientId} {e : Execution} (h : Delivered trace)
    (hx : Accounted trace (.executed i e)) : Delivered (trace ++ [.executed i e]) := by
  -- the answer joins the queue of its client, and no queued answer changes
  have hpending : ∀ me, (Ledger.after (trace ++ [.executed i e])).pending me =
      (Ledger.after trace).pending me ++ if i = me then
        (((request e.items).answer (Ledger.after trace).store).map fun items =>
          (⟨items, (request e.items).source (Ledger.after trace).store, true, 0⟩ : Pending)).toList
        else [] := by
    intro me
    rw [Ledger.after_snoc]
    exact Ledger.execute_undisturbed hx.undisturbed
  constructor
  · intro me p hp
    rw [hpending, List.mem_append] at hp
    rcases hp with hp | hp
    · exact h.snapshot me p hp
    · split at hp
      · rw [Option.mem_toList, Option.map_eq_some_iff] at hp
        obtain ⟨items, -, rfl⟩ := hp
        exact ⟨rfl, 0, rfl⟩
      · simp at hp
  · intro me hclosed
    have hold := h.sent me fun hmem => hclosed (List.mem_append_left _ hmem)
    have hsent : sentBy me (trace ++ [.executed i e]) = sentBy me trace := by
      rw [sentBy_snoc]
      simp [sentBy]
    rw [hsent, hpending, List.flatMap_append, ← List.append_assoc, hold, appendedBy_snoc,
      List.flatten_append, List.flatten_append]
    congr 1
    unfold appendedBy
    by_cases hi : i = me
    · -- what joins the queue is unsent, and it is what is owed for this command
      simp only [if_pos hi, List.filterMap_cons, List.filterMap_nil, hx.answered i e rfl]
      rcases (request e.items).answer (Ledger.after trace).store with _ | items
      · rfl
      · simp [Pending.unsent, Pending.content]
    · simp [hi]

/-- An entry that only changes the answers of `i` and what it was sent. -/
theorem Delivered.sending {x : Happened} (h : Delivered trace) (i : ClientId) (ps : List Pending)
    (hpending : (Ledger.after (trace ++ [x])).pending = Function.update (Ledger.after trace).pending i ps)
    (hsnap : ∀ p ∈ ps, p.Snapshot) (happended : ∀ me, appendedBy me [x] = [])
    (hother : ∀ me, me ≠ i → sentBy me [x] = [])
    (hsent : sentBy i [x] ++ ps.flatMap Pending.unsent =
      ((Ledger.after trace).pending i).flatMap Pending.unsent) : Delivered (trace ++ [x]) := by
  refine ⟨fun me p hp => ?_, fun me hclosed => ?_⟩
  · rw [hpending] at hp
    by_cases hme : me = i
    · rw [hme, Function.update_self] at hp
      exact hsnap p hp
    · rw [Function.update_of_ne hme] at hp
      exact h.snapshot me p hp
  · have hold := h.sent me fun hmem => hclosed (List.mem_append_left _ hmem)
    rw [appendedBy_snoc, happended, List.append_nil, ← hold, sentBy_snoc, hpending]
    by_cases hme : me = i
    · rw [hme, Function.update_self, List.append_assoc, hsent]
    · rw [Function.update_of_ne hme, hother me hme, List.append_nil]

theorem Delivered.wrote {i : ClientId} {bs : Bytes} (h : Delivered trace)
    (hx : Accounted trace (.wrote i bs)) : Delivered (trace ++ [.wrote i bs]) := by
  obtain ⟨p, ps, j, pos, item, hpend, hitem, hsent, hpos, hlen, hbs⟩ := hx.whole
  have hsnap := h.snapshot i p (by rw [hpend]; exact List.mem_cons_self)
  obtain ⟨hintact, j', hj'⟩ := hsnap
  have htake : p.items.take (j + 1) = p.items.take j ++ [item] := by
    rw [List.take_add_one, hitem]
    rfl
  -- before and after it the client's first answer has been sent up to the end of an item
  have hend : p.sent + bs.length = (p.items.take (j + 1)).flatten.length := by
    rw [htake, List.flatten_append, List.length_append, List.flatten_singleton]
    omega
  refine h.sending i ({ p with sent := p.sent + bs.length } :: ps) ?_ ?_
    (fun me => rfl) (fun me hme => ?_) ?_
  · rw [Ledger.after_snoc]
    show Function.update (Ledger.after trace).pending i (Ledger.progress bs.length ((Ledger.after trace).pending i)) = _
    rw [hpend]
    rfl
  · intro q hq
    rcases List.mem_cons.mp hq with rfl | hq
    · exact ⟨hintact, j + 1, hend⟩
    · exact h.snapshot i q (by rw [hpend]; exact List.mem_cons_of_mem _ hq)
  · simp [sentBy, Ne.symm hme]
  · have hcontent : bs ++ p.content.drop (p.sent + bs.length) = p.content.drop p.sent := by
      by_cases hwhole : pos < item.length
      · -- the write starts with the item
        have hzero := length_take_flatten hitem hwhole (hj'.symm.trans hsent)
        have hitem' : bs = item := by
          rw [hbs hintact, List.take_of_length_le (by omega)]
        have hsplit : p.content = (p.items.take j).flatten ++
            (item ++ (p.items.drop (j + 1)).flatten) := by
          have hall := List.take_append_drop (j + 1) p.items
          rw [htake] at hall
          show p.items.flatten = _
          rw [← congrArg List.flatten hall]
          simp
        rw [hsent, hzero, hitem', hsplit, Nat.add_zero, List.drop_left, ← List.drop_drop, List.drop_left,
          List.drop_left]
      · -- nothing was left of it
        have hnil : bs = [] := List.eq_nil_of_length_eq_zero (by omega)
        rw [hnil]
        rfl
    have hsent' : sentBy i [.wrote i bs] = bs := by simp [sentBy]
    rw [hsent', hpend, List.flatMap_cons, List.flatMap_cons, ← List.append_assoc]
    exact congrArg (· ++ _) hcontent

theorem Delivered.finished {i : ClientId} (h : Delivered trace) (hx : Accounted trace (.finished i)) :
    Delivered (trace ++ [.finished i]) := by
  obtain ⟨p, ps, hpend, hsent⟩ := hx.whole
  refine h.sending i ps ?_ ?_ (fun me => rfl) (fun me hme => rfl) ?_
  · rw [Ledger.after_snoc]
    show Function.update (Ledger.after trace).pending i ((Ledger.after trace).pending i).tail = _
    rw [hpend]
    rfl
  · intro q hq
    exact h.snapshot i q (by rw [hpend]; exact List.mem_cons_of_mem _ hq)
  · have hnil : p.unsent = [] := by
      unfold Pending.unsent
      rw [hsent, List.drop_length]
    rw [hpend, List.flatMap_cons, hnil]
    rfl

theorem Delivered.closed {i : ClientId} (h : Delivered trace) : Delivered (trace ++ [.closed i]) := by
  have hpending : (Ledger.after (trace ++ [.closed i])).pending =
      Function.update (Ledger.after trace).pending i [] := by
    rw [Ledger.after_snoc]
    rfl
  refine ⟨fun me p hp => ?_, fun me hclosed => ?_⟩
  · rw [hpending] at hp
    by_cases hme : me = i
    · rw [hme, Function.update_self] at hp
      simp at hp
    · rw [Function.update_of_ne hme] at hp
      exact h.snapshot me p hp
  · have hme : me ≠ i := by
      rintro rfl
      exact hclosed (by simp)
    have hold := h.sent me fun hmem => hclosed (List.mem_append_left _ hmem)
    have hsent : sentBy me [.closed i] = [] := rfl
    have happended : appendedBy me [.closed i] = [] := rfl
    rw [appendedBy_snoc, happended, List.append_nil, ← hold, sentBy_snoc, hsent, List.append_nil,
      hpending, Function.update_of_ne hme]

/-- **One entry**, one case for each kind. -/
theorem delivered_snoc {x : Happened} (h : Delivered trace) (hx : Accounted trace x) :
    Delivered (trace ++ [x]) := by
  cases x with
  | executed i e => exact h.executed hx
  | wrote i bs => exact h.wrote hx
  | finished i => exact h.finished hx
  | closed i => exact h.closed
  | received i bs | inserted i p b | dropped i p q =>
    refine h.sending i ((Ledger.after trace).pending i) ?_ (h.snapshot i)
      (fun me => rfl) (fun me _ => rfl) rfl
    rw [Ledger.after_snoc, Function.update_eq_self]
    rfl

theorem delivered_of_each (h : Each Accounted trace) : Delivered trace :=
  h.induction delivered_nil fun _ _ => delivered_snoc

/-! ## Section 2: Runs -/

/-- `write` takes all it is given. -/
def FullWrites (s : Server) : Event → Prop
  | .send me (.accepted k) => ∀ c, s.clients.get me = some c → ∀ r ∈ c.sendResponseQueue,
      ∀ i : Fin cmdArgsMax, i.val < r.argsNum → r.itemLength i ≤ k
  | _ => True

instance decidableFullWrites (s : Server) : (e : Event) → Decidable (FullWrites s e)
  | .send me (.accepted k) => inferInstanceAs (Decidable (∀ c ∈ s.clients.get me,
      ∀ r ∈ c.sendResponseQueue, ∀ i : Fin cmdArgsMax, i.val < r.argsNum → r.itemLength i ≤ k))
  | .send _ .eagain | .send _ .error | .connect _ _ | .recv _ _ => isTrue trivial

variable {env : Env} {g : Ghost} {h : Heap} {s s' : Server} {e : Event}

/-- The lengths memory holds for an answer are those of its items. -/
theorem RespRep.item_length {r : Response} {p : Pending} (hr : RespRep g h r p) {j : Nat} {item : Bytes}
    (hitem : p.items[j]? = some item) :
    ∃ i : Fin cmdArgsMax, i.val = j ∧ i.val < r.argsNum ∧ r.itemLength i = item.length := by
  have hlt : j < p.items.length := (List.getElem?_eq_some_iff.mp hitem).1
  have hsmall := hr.small
  have hin : j < cmdArgsMax := by
    simp only [cmdArgsMax]
    omega
  exact ⟨⟨j, hin⟩, rfl, by rw [hr.argsNum]; exact hlt, (hr.item ⟨j, hin⟩ item hitem).2⟩

/-- An answer that is intact reads as it was made, from live blocks. -/
theorem RespRep.reads {r : Response} {p : Pending} (hr : RespRep g h r p) (hintact : p.intact = true) :
    r.items h = p.items ∧ ∀ (i : Fin cmdArgsMax) a, i.val < r.argsNum → r.value i = .heap a →
      ∃ bs, h.Holds a bs.length bs := by
  constructor
  · apply List.ext_getElem
    · simp [Response.items, hr.argsNum]
    · intro j hj hj'
      obtain ⟨i, rfl, -, hlen⟩ := hr.item_length (List.getElem?_eq_getElem hj')
      have hrep := (hr.item i _ (List.getElem?_eq_getElem hj')).1
      have hload := hrep.load hintact (le_refl _)
      rw [List.take_length] at hload
      simp [Response.items, Response.item, hlen, hload]
  · intro i a hi hvalue
    have hlt : i.val < p.items.length := hr.argsNum ▸ hi
    obtain ⟨hrep, -⟩ := hr.item i _ (List.getElem?_eq_getElem hlt)
    rcases hrep with hlit | ⟨a', k, hheap, -, hown⟩
    · rw [hvalue] at hlit
      cases hlit
    · rw [hvalue] at hheap
      cases hheap
      exact ⟨_, (hown hintact).2⟩

/-- **One event** writes whole items. -/
theorem wholeItems_step (hrep : ServerRep env g s) (hwhole : Each WholeItems s.world.trace)
    (hfull : FullWrites s e) (hstep : step env s e = .ok s') : Each WholeItems s'.world.trace := by
  refine each_step hrep hwhole (fun before x hx => ?_) (fun _ _ => trivial) ?_ hstep
  · -- a read logs nothing of the kind
    cases x with
    | wrote _ _ | finished _ | closed _ => exact absurd hx id
    | received _ _ | inserted _ _ _ | dropped _ _ _ | executed _ _ => trivial
  · rintro me r c ext rfl hget hlog
    have hqueue := (hrep.conn hget).1.client.queue
    generalize hpend : (Ledger.after s.world.trace).pending me = ps at hlog
    cases hlog with
    | nothing => rwa [List.append_nil]
    | finished p ps hsent => exact each_snoc.mpr ⟨hwhole, p, ps, hpend, hsent⟩
    | wrote p ps j pos k item bs hw hitem hsent hpos hlen hbs =>
      refine each_snoc.mpr ⟨hwhole, p, ps, j, pos, item, hpend, hitem, hsent, hpos, ?_, hbs⟩
      have hqueue' : QueueRep g s.world.heap c.sendResponseQueue (p :: ps) := hpend ▸ hqueue
      obtain ⟨r', rest, hr', -, hcons⟩ := List.forall₂_cons_right_iff.mp hqueue'
      obtain ⟨i, -, hi, hilen⟩ := hr'.item_length hitem
      subst hw
      have hk := hfull c hget r' (by rw [hcons]; exact List.mem_cons_self) i hi
      omega

/-- **Queued answers are snapshots**, when all writes are full and no SET of
    a key is executed while a GET answer of that key is queued: memory reads
    as the answers were made, from live blocks, and the bytes sent to a
    client and those it is still owed are the answers to its requests. -/
theorem queued_answers_are_snapshots (env : Env) (es : List Event) (s : Server)
    (hfull : Along (step env) FullWrites initServer es)
    (hrun : run (step env) initServer es = .ok s)
    (hundisturbed : ∀ before me e later key value, s.world.trace = before ++ .executed me e :: later →
      request e.items = .set key value →
      ∀ i, ∀ p ∈ (Ledger.after before).pending i, p.key ≠ some key) :
    (∀ me c, s.clients.get me = some c → List.Forall₂
      (fun r p => r.items s.world.heap = p.items ∧
        ∀ (i : Fin cmdArgsMax) a, i.val < r.argsNum → r.value i = .heap a →
          ∃ bs, s.world.heap.Holds a bs.length bs)
      c.sendResponseQueue ((Ledger.after s.world.trace).pending me)) ∧
    ∀ me, .closed me ∉ s.world.trace →
      sentBy me s.world.trace ++ ((Ledger.after s.world.trace).pending me).flatMap Pending.unsent =
        (owed me s.world.trace).flatten.flatten := by
  -- every write of the run was of a whole item
  have hinv : (∃ g, ServerRep env g s) ∧ Each WholeItems s.world.trace := by
    apply along_invariant (I := fun s => (∃ g, ServerRep env g s) ∧ Each WholeItems s.world.trace) _
      ⟨⟨_, initServer_rep env⟩, each_nil⟩ hfull hrun
    rintro s e s' ⟨⟨g, hrep⟩, hwhole⟩ hfull hstep
    have hends := step_rep hrep e
    rw [hstep] at hends
    exact ⟨hends, wholeItems_step hrep hwhole hfull hstep⟩
  obtain ⟨⟨g, hrep⟩, hwhole⟩ := hinv
  have hdelivered : Delivered s.world.trace := by
    apply delivered_of_each
    intro before x later hsplit
    refine ⟨hwhole before x later hsplit, ?_, ?_⟩
    · -- a SET finds no queued answer that points at its key's value
      cases x with
      | executed me e => exact fun key value hset => hundisturbed before me e later key value hsplit hset
      | received _ _ | inserted _ _ _ | dropped _ _ _ | wrote _ _ | finished _ | closed _ => trivial
    · rintro i e rfl
      exact (hrep.world.consistent before i e later hsplit).1
  refine ⟨fun me c hget => ?_, fun me hclosed => ?_⟩
  · have hqueue := (hrep.conn hget).1.client.queue
    have hboth : List.Forall₂ (fun p r => p.Snapshot ∧ RespRep g s.world.heap r p)
        ((Ledger.after s.world.trace).pending me) c.sendResponseQueue :=
      (List.forall₂_and_left _ _).mpr ⟨hdelivered.snapshot me, List.Forall₂.flip hqueue⟩
    apply List.Forall₂.flip
    exact hboth.imp fun p r hpr => hpr.2.reads hpr.1.intact
  · rw [hdelivered.sent me hclosed, appendedBy_eq_owed hrep.world.consistent]

/-- A SET, its answer sent, and a GET of the same key, its answer sent. -/
def setThenGet : List Event :=
  [.connect 5 true, .recv 0 (.data (encodeRequest [[83, 69, 84], [107], [118]])),
    .send 0 (.accepted 100), .send 0 (.accepted 100),
    .recv 0 (.data (encodeRequest [[71, 69, 84], [107]])), .send 0 (.accepted 100),
    .send 0 (.accepted 100)]

def setThenGetLog : List Happened :=
  [.received 0 (encodeRequest [[83, 69, 84], [107], [118]]), .inserted 0 0 true,
    .executed 0 ⟨0, [strSET, encodeItem [107], encodeItem [118]], [(9, 9), (7, 7), (7, 7)], [.SET_cmd],
      some [setOkStr]⟩,
    .wrote 0 setOkStr, .finished 0, .received 0 (encodeRequest [[71, 69, 84], [107]]),
    .inserted 0 1 true,
    .executed 0 ⟨1, [strGET, encodeItem [107]], [(9, 9), (7, 7)], [.GET_cmd],
      some [num1, encodeItem [118]]⟩,
    .wrote 0 num1, .wrote 0 (encodeItem [118])]

/-- The only SET finds nothing queued. -/
theorem setThenGetLog_undisturbed : Each Undisturbed setThenGetLog := by
  have hset : Undisturbed (setThenGetLog.take 2) (.executed 0 ⟨0, [strSET, encodeItem [107],
      encodeItem [118]], [(9, 9), (7, 7), (7, 7)], [.SET_cmd], some [setOkStr]⟩) := by
    intro key value _ i p hp
    have hnil : (Ledger.after (setThenGetLog.take 2)).pending i = [] := rfl
    rw [hnil] at hp
    simp at hp
  have hget : ∀ before, Undisturbed before (.executed 0 ⟨1, [strGET, encodeItem [107]],
      [(9, 9), (7, 7)], [.GET_cmd], some [num1, encodeItem [118]]⟩) := by
    intro before key value hreq
    have hreq' : request [strGET, encodeItem [107]] = .get (encodeItem [107]) := by decide +kernel
    cases hreq'.symm.trans hreq
  apply each_of_getElem
  intro i hi
  have hi' : i < 10 := hi
  interval_cases i
  all_goals first | exact hset | exact hget _ | trivial

theorem queued_answers_are_snapshots_get :
    ∃ s, run (step plainEnv) initServer setThenGet = .ok s ∧
      sentBy 0 s.world.trace ++ ((Ledger.after s.world.trace).pending 0).flatMap Pending.unsent =
        (owed 0 s.world.trace).flatten.flatten ∧
      sentBy 0 s.world.trace = setOkStr ++ num1 ++ encodeItem [118] := by
  obtain ⟨s, hs, htrace⟩ := ok_of_map (show (run (step plainEnv) initServer setThenGet).map
      (fun s => s.world.trace) = .ok setThenGetLog by decide +kernel)
  have hfull : Along (step plainEnv) FullWrites initServer setThenGet := by decide +kernel
  obtain ⟨-, hsent⟩ := queued_answers_are_snapshots plainEnv setThenGet s hfull hs (by
    intro before me e later key value hsplit hset
    have hentry : Undisturbed before (.executed me e) :=
      setThenGetLog_undisturbed before _ later (htrace ▸ hsplit)
    exact hentry key value hset)
  refine ⟨s, hs, hsent 0 ?_, ?_⟩
  · rw [htrace]
    decide
  · rw [htrace]
    decide +kernel

/-- Memory that is cleared when it is freed. -/
def clearingEnv : Env := { hash := fun _ => 0, released := fun _ bs => List.replicate bs.length 0 }

/-- A GET and a SET of the same key arrive in one read, and all writes are
    full: what is sent as the value is the cleared block. -/
theorem overwritten_answer_is_sent_from_freed_block :
    ∃ s, run (step clearingEnv) initServer [.connect 5 true,
        .recv 0 (.data (encodeRequest [[83, 69, 84], [107], [118]])),
        .send 0 (.accepted 100), .send 0 (.accepted 100),
        .recv 0 (.data (encodeRequest [[71, 69, 84], [107]] ++
          encodeRequest [[83, 69, 84], [107], [119]])),
        .send 0 (.accepted 100), .send 0 (.accepted 100)] = .ok s ∧
      owed 0 s.world.trace = [[setOkStr], [num1, encodeItem [118]], [setOkStr]] ∧
      sentBy 0 s.world.trace = setOkStr ++ num1 ++ List.replicate 7 0 := by
  obtain ⟨s, hs, hlog⟩ := ok_of_map (show (run (step clearingEnv) initServer [.connect 5 true,
        .recv 0 (.data (encodeRequest [[83, 69, 84], [107], [118]])),
        .send 0 (.accepted 100), .send 0 (.accepted 100),
        .recv 0 (.data (encodeRequest [[71, 69, 84], [107]] ++
          encodeRequest [[83, 69, 84], [107], [119]])),
        .send 0 (.accepted 100), .send 0 (.accepted 100)]).map
      (fun s => (owed 0 s.world.trace, sentBy 0 s.world.trace)) =
      .ok ([[setOkStr], [num1, encodeItem [118]], [setOkStr]], setOkStr ++ num1 ++ List.replicate 7 0) by
    decide +kernel)
  exact ⟨s, hs, Prod.mk.inj hlog⟩

end BoAtom
