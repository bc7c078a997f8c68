import BoAtom.Mem.Reach
import BoAtom.Mem.Wire

/-! # What the server answers

    Facts about the log of any run: a GET is answered from the most recent
    SET, the responses of a client are the answers to its requests in
    order, and a command is executed once, when it is complete.  All of
    them are read off the invariant of `Reach`. -/

namespace BoAtom

open History Machine

variable {env : Env} {es : List Event} {s : Server} {trace : List Happened} {me : ClientId}
  {x : Happened}

/-! ## Section 1: The store as a history of SETs -/

/-- The value item that is put under a key here, if any. -/
def Happened.setValue (key : Bytes) : Happened → Option Bytes
  | .executed _ e =>
    match request e.items with
    | .set k value => if k = key then some value else none
    | _ => none
  | _ => none

/-- The value item of the most recent SET of a key. -/
def lastSet (key : Bytes) (trace : List Happened) : Option Bytes :=
  (trace.filterMap (Happened.setValue key)).getLast?

theorem lastSet_snoc (key : Bytes) (trace : List Happened) (x : Happened) :
    lastSet key (trace ++ [x]) = (x.setValue key).or (lastSet key trace) := by
  unfold lastSet
  rw [List.filterMap_append, List.getLast?_append]
  rcases hx : x.setValue key with _ | v <;> simp [hx]

/-- The ledger's store holds the most recent SETs. -/
theorem ledger_store (key : Bytes) (trace : List Happened) :
    (Ledger.after trace).store key = lastSet key trace := by
  induction trace using List.reverseRec with
  | nil => rfl
  | append_singleton trace x ih =>
    rw [Ledger.after_snoc, lastSet_snoc]
    cases x with
    | executed me e =>
      show (request e.items).effect _ key = _
      simp only [Happened.setValue]
      rcases request e.items with ⟨k, v⟩ | k | handler | _
      · simp only [Request.effect]
        by_cases hk : k = key
        · rw [if_pos hk, hk, Function.update_self]
          rfl
        · rw [if_neg hk, Function.update_of_ne (Ne.symm hk), ih]
          rfl
      all_goals exact ih
    | received _ _ | inserted _ _ _ | dropped _ _ _ | wrote _ _ | finished _ | closed _ => exact ih

/-- **GET answers with the most recent SET.**  In every run, of any clients
    in any interleaving. -/
theorem get_answers_most_recent_set (env : Env) (es : List Event) :
    (∀ s, run (step env) initServer es = .ok s →
      ∀ before me e later key, s.world.trace = before ++ .executed me e :: later →
        request e.items = .get key →
          e.calls = [.GET_cmd] ∧
          (∀ value, e.res = some [num1, value] ↔ lastSet key before = some value) ∧
          (e.res = some [setErrStr] ↔ lastSet key before = none)) ∧
    ∀ f, run (step env) initServer es = .error f → RunFault env f := by
  refine ⟨fun s hrun before me e later key hsplit hreq => ?_, fun f hrun => reachable_fault hrun⟩
  obtain ⟨g, hrep⟩ := reachable_rep hrun
  obtain ⟨hres, hcalls⟩ := hrep.world.consistent before me e later hsplit
  rw [hreq] at hres hcalls
  refine ⟨hcalls, ?_⟩
  rw [hres, ← ledger_store key before]
  simp only [Request.answer]
  rcases (Ledger.after before).store key with _ | v
  · simp
  · simp

/-- `SET k v`, then `GET k`. -/
theorem get_answers_most_recent_set_after :
    ∃ s before e later, run (step plainEnv) initServer [.connect 5 true,
        .recv 0 (.data (encodeRequest [[83, 69, 84], [107], [118]])),
        .recv 0 (.data (encodeRequest [[71, 69, 84], [107]]))] = .ok s ∧
      s.world.trace = before ++ .executed 0 e :: later ∧
      e.res = some [num1, encodeItem [118]] := by
  obtain ⟨s, hs, hlog⟩ := ok_of_map (show (run (step plainEnv) initServer [.connect 5 true,
        .recv 0 (.data (encodeRequest [[83, 69, 84], [107], [118]])),
        .recv 0 (.data (encodeRequest [[71, 69, 84], [107]]))]).map
      (fun s => (s.world.trace[5]?, lastSet (encodeItem [107]) (s.world.trace.take 5))) =
      .ok (some (.executed 0 ⟨1, [strGET, encodeItem [107]], [(9, 9), (7, 7)], [.GET_cmd],
        some [num1, encodeItem [118]]⟩), some (encodeItem [118])) by decide +kernel)
  obtain ⟨hentry, hlast⟩ := Prod.mk.inj hlog
  obtain ⟨hlt, hget⟩ := List.getElem?_eq_some_iff.mp hentry
  have hsplit := (List.take_append_drop 5 s.world.trace).symm
  rw [List.drop_eq_getElem_cons hlt, hget] at hsplit
  obtain ⟨-, hvalue, -⟩ := (get_answers_most_recent_set plainEnv _).1 s hs _ _ _ _ (encodeItem [107])
    hsplit (by decide +kernel)
  exact ⟨s, _, _, _, hs, hsplit, (hvalue _).mpr hlast⟩

/-! ## Section 2: Responses by position -/

/-- Is the first item one of the names `ALL_cmd` compares with? -/
def hasKnownName : List Bytes → Bool
  | [] => false
  | name :: _ => isSetName name || isGetName name

theorem answer_isSome (store : Store) (items : List Bytes) :
    ((request items).answer store).isSome = hasKnownName items := by
  rcases items with _ | ⟨name, args⟩
  · rfl
  show _ = (isSetName name || isGetName name)
  by_cases hset : isSetName name
  · rw [hset, Bool.true_or]
    by_cases hargs : args.length = 2
    · obtain ⟨key, value, rfl⟩ := List.length_eq_two.mp hargs
      rw [request_set key value hset]
      rfl
    · rw [request_set_arity hset hargs]
      rfl
  rw [Bool.not_eq_true] at hset
  by_cases hget : isGetName name
  · rw [hget, Bool.or_true]
    have hfind : ∀ key, ((Request.get key).answer store).isSome = true := by
      intro key
      simp only [Request.answer]
      rcases store key with _ | v <;> rfl
    by_cases hone : args.length = 1
    · obtain ⟨key, rfl⟩ := List.length_eq_one_iff.mp hone
      rw [(request_get key [] hset hget).1]
      exact hfind key
    by_cases htwo : args.length = 2
    · obtain ⟨key, extra, rfl⟩ := List.length_eq_two.mp htwo
      rw [(request_get key extra hset hget).2]
      exact hfind key
    rw [request_get_arity hset hget hone htwo]
    rfl
  · rw [Bool.not_eq_true] at hget
    rw [request_unknown args hset hget, hset, hget]
    rfl

/-- The answer due to `me` for an entry, with the store it finds. -/
def Happened.due (me : ClientId) (store : Store) : Happened → List (List Bytes)
  | .executed i e => if i = me then ((request e.items).answer store).toList else []
  | _ => []

/-- The answers to the requests of `me`, in the order in which they were
    completed, each with the store at that moment. -/
def owed (me : ClientId) (log : List Happened) : List (List Bytes) :=
  (List.range log.length).flatMap fun i =>
    (log[i]?).elim [] (Happened.due me (Ledger.after (log.take i)).store)

theorem owed_snoc (me : ClientId) (trace : List Happened) (x : Happened) :
    owed me (trace ++ [x]) = owed me trace ++ x.due me (Ledger.after trace).store := by
  unfold owed
  rw [List.length_append, List.length_singleton, List.range_succ, List.flatMap_append]
  congr 1
  · apply List.flatMap_congr
    intro i hi
    have hlt : i < trace.length := List.mem_range.mp hi
    rw [List.getElem?_append_left hlt, List.take_append_of_le_length hlt.le]
  · simp

theorem Consistent.init (h : Consistent (trace ++ [x])) : Consistent trace :=
  consistent_iff_each.mpr (History.each_snoc.mp (consistent_iff_each.mp h)).1

theorem appendedBy_eq_owed (h : Consistent trace) (me : ClientId) :
    appendedBy me trace = owed me trace := by
  induction trace using List.reverseRec with
  | nil => rfl
  | append_singleton trace x ih =>
    rw [appendedBy_snoc, owed_snoc, ih h.init]
    congr 1
    cases x with
    | executed i e =>
      obtain ⟨hres, -⟩ := h trace i e [] rfl
      unfold appendedBy Happened.due
      by_cases hi : i = me
      · simp only [List.filterMap_cons, if_pos hi, hres, List.filterMap_nil]
        rcases (request e.items).answer (Ledger.after trace).store with _ | r <;> rfl
      · simp only [List.filterMap_cons, if_neg hi, List.filterMap_nil]
    | received _ _ | inserted _ _ _ | dropped _ _ _ | wrote _ _ | finished _ | closed _ => rfl

theorem length_owed (me : ClientId) (trace : List Happened) :
    (owed me trace).length = ((handedBy me trace).filter hasKnownName).length := by
  induction trace using List.reverseRec with
  | nil => rfl
  | append_singleton trace x ih =>
    rw [owed_snoc, handedBy_snoc, List.filter_append, List.length_append, List.length_append, ih]
    congr 1
    cases x with
    | executed i e =>
      unfold handedBy Happened.due
      by_cases hi : i = me
      · simp only [List.filterMap_cons, if_pos hi, List.filterMap_nil]
        rw [Option.length_toList, List.filter_cons, ← answer_isSome (Ledger.after trace).store]
        rcases (request e.items).answer (Ledger.after trace).store with _ | r <;> rfl
      · simp only [List.filterMap_cons, if_neg hi, List.filterMap_nil]
        rfl
    | received _ _ | inserted _ _ _ | dropped _ _ _ | wrote _ _ | finished _ | closed _ => rfl

/-- An answer leaves the queue when all of it has been sent. -/
def Finishing (before : List Happened) : Happened → Prop
  | .finished me => ∃ p ps, (Ledger.after before).pending me = p :: ps ∧ p.sent = p.content.length
  | _ => True

/-- An answer joins those of its client; the others stay, if disturbed. -/
theorem Ledger.execute_items (l : Ledger) (i : ClientId) (r : Request) :
    ((l.execute i r).pending me).map Pending.items =
      (l.pending me).map Pending.items ++ if i = me then (r.answer l.store).toList else [] := by
  have hsame : ∀ j, (l.disturb r j).map Pending.items = (l.pending j).map Pending.items := by
    intro j
    cases r with
    | set key value =>
      show ((l.pending j).map (Pending.overwrite key)).map Pending.items = _
      rw [List.map_map]
      apply List.map_congr_left
      intro p _
      simp only [Function.comp_apply, Pending.overwrite]
      split <;> rfl
    | get | wrongArity | unknown => rfl
  unfold Ledger.execute
  by_cases hi : i = me
  · subst hi
    rcases r.answer l.store with _ | items
    · simp [hsame]
    · simp [hsame]
  · rcases r.answer l.store with _ | items
    · simp [hsame, hi]
    · simp [hsame, hi, Function.update_of_ne (Ne.symm hi)]

/-- **The answers of a client in order**: those that have left its queue,
    then those still in it. -/
theorem owed_split (h : Each Finishing trace) (hopen : .closed me ∉ trace) :
    ∃ sent, sent.length = trace.count (.finished me) ∧
      owed me trace = sent ++ ((Ledger.after trace).pending me).map Pending.items := by
  induction trace using List.reverseRec with
  | nil => exact ⟨[], rfl, rfl⟩
  | append_singleton trace x ih =>
    obtain ⟨hold, hx⟩ := each_snoc.mp h
    obtain ⟨sent, hlen, howed⟩ := ih hold fun hmem => hopen (List.mem_append_left _ hmem)
    rw [owed_snoc, howed, Ledger.after_snoc, List.count_append]
    cases x with
    | executed i e =>
      refine ⟨sent, by simp [hlen], ?_⟩
      show _ = sent ++ (((Ledger.after trace).execute i (request e.items)).pending me).map Pending.items
      rw [Ledger.execute_items, List.append_assoc]
      rfl
    | finished i =>
      obtain ⟨p, ps, hpend, -⟩ := hx
      by_cases hi : i = me
      · subst hi
        refine ⟨sent ++ [p.items], by simp [hlen], ?_⟩
        rw [Ledger.next_finished, hpend]
        simp [Happened.due]
      · refine ⟨sent, by simp [hlen, hi], ?_⟩
        have hother : ((Ledger.after trace).next (.finished i)).pending me = (Ledger.after trace).pending me :=
          Function.update_of_ne (Ne.symm hi) _ _
        rw [hother]
        exact List.append_nil _
    | wrote i bs =>
      refine ⟨sent, by simp [hlen], ?_⟩
      have hitems : (((Ledger.after trace).next (.wrote i bs)).pending me).map Pending.items =
          ((Ledger.after trace).pending me).map Pending.items := by
        by_cases hi : i = me
        · subst hi
          rw [Ledger.next_wrote]
          rcases (Ledger.after trace).pending i with _ | ⟨p, ps⟩ <;> rfl
        · rw [show ((Ledger.after trace).next (.wrote i bs)).pending me = (Ledger.after trace).pending me from
            Function.update_of_ne (Ne.symm hi) _ _]
      rw [hitems]
      exact List.append_nil _
    | closed i =>
      have hi : me ≠ i := by
        rintro rfl
        exact hopen (by simp)
      refine ⟨sent, by simp [hlen], ?_⟩
      have hother : ((Ledger.after trace).next (.closed i)).pending me = (Ledger.after trace).pending me :=
        Function.update_of_ne hi _ _
      rw [hother]
      exact List.append_nil _
    | received _ _ | inserted _ _ _ | dropped _ _ _ =>
      exact ⟨sent, by simp [hlen], List.append_nil _⟩

/-- In every run. -/
theorem reachable_finishing (hrun : run (step env) initServer es = .ok s) :
    Each Finishing s.world.trace := by
  have hinv : (∃ g, ServerRep env g s) ∧ Each Finishing s.world.trace := by
    apply run_invariant (I := fun s => (∃ g, ServerRep env g s) ∧ Each Finishing s.world.trace) _
      ⟨⟨_, initServer_rep env⟩, each_nil⟩ hrun
    rintro s e s' ⟨⟨g, hrep⟩, hfinishing⟩ hstep
    have hends := step_rep hrep e
    rw [hstep] at hends
    refine ⟨hends, each_step hrep hfinishing (fun before x hx => ?_) (fun _ _ => trivial) ?_ hstep⟩
    · cases x with
      | wrote _ _ | finished _ | closed _ => exact absurd hx id
      | received _ _ | inserted _ _ _ | dropped _ _ _ | executed _ _ => trivial
    · intro i r c ext _ _ hlog
      generalize hpend : (Ledger.after s.world.trace).pending i = ps at hlog
      cases hlog with
      | nothing => rwa [List.append_nil]
      | finished p ps hsent => exact each_snoc.mpr ⟨hfinishing, p, ps, hpend, hsent⟩
      | wrote => exact each_snoc.mpr ⟨hfinishing, trivial⟩
  exact hinv.2

/-- The response `r` in memory is the answer `p`: item by item a literal, or
    the block that was stored under the key, which holds the item as long as
    that key is not SET again. -/
def Response.IsAnswer (h : Memory.Heap) (r : Response) (p : Pending) : Prop :=
  r.argsNum = p.items.length ∧ ∀ (i : Fin cmdArgsMax) item, p.items[i.val]? = some item →
    r.itemLength i = item.length ∧ (r.value i = .lit item ∨ ∃ a k, r.value i = .heap a ∧
      p.key = some k ∧ (p.intact = true → h.load a item.length = item))

theorem RespRep.isAnswer {g : Ghost} {h : Memory.Heap} {r : Response} {p : Pending}
    (hr : RespRep g h r p) : r.IsAnswer h p := by
  refine ⟨hr.argsNum, fun i item hitem => ?_⟩
  obtain ⟨hrep, hlen⟩ := hr.item i item hitem
  refine ⟨hlen, ?_⟩
  rcases hrep with hlit | ⟨a, k, hvalue, hkey, hown⟩
  · exact Or.inl hlit
  · exact Or.inr ⟨a, k, hvalue, hkey, fun hintact => Memory.Heap.load_of_holds (hown hintact).2⟩

/-- **Responses match requests by position**, among the requests whose name
    `ALL_cmd` knows.  Those that have left the client's queue, followed by
    those in it, are the answers owed, in order. -/
theorem responses_answer_known_requests (env : Env) (es : List Event) (s : Server)
    (hrun : run (step env) initServer es = .ok s) (me : ClientId) :
    appendedBy me s.world.trace = owed me s.world.trace ∧
    (appendedBy me s.world.trace).length =
      ((handedBy me s.world.trace).filter hasKnownName).length ∧
    ∀ c, s.clients.get me = some c → ∃ sent, sent.length = s.world.trace.count (.finished me) ∧
      owed me s.world.trace = sent ++ ((Ledger.after s.world.trace).pending me).map Pending.items ∧
      List.Forall₂ (Response.IsAnswer s.world.heap) c.sendResponseQueue
        ((Ledger.after s.world.trace).pending me) := by
  obtain ⟨g, hrep⟩ := reachable_rep hrun
  have howed := appendedBy_eq_owed hrep.world.consistent me
  refine ⟨howed, by rw [howed, length_owed], fun c hget => ?_⟩
  obtain ⟨sent, hlen, hsplit⟩ :=
    owed_split (reachable_finishing hrun) (reachable_open hrun me (by rw [hget]; rfl))
  exact ⟨sent, hlen, hsplit, (hrep.conn hget).1.client.queue.imp fun _ _ => RespRep.isAnswer⟩

/-- `SET k v`, an unknown `A` and `GET k`, and the first answer is sent. -/
def setUnknownGet : List Event :=
  [.connect 5 true, .recv 0 (.data (encodeRequest [[83, 69, 84], [107], [118]])),
    .recv 0 (.data (encodeRequest [[65]])), .recv 0 (.data (encodeRequest [[71, 69, 84], [107]])),
    .send 0 (.accepted 100), .send 0 (.accepted 100)]

theorem responses_answer_known_requests_queued :
    ∃ s c r sent, run (step plainEnv) initServer setUnknownGet = .ok s ∧
      s.clients.get 0 = some c ∧ c.sendResponseQueue = [r] ∧ sent.length = 1 ∧
      (handedBy 0 s.world.trace).length = 3 ∧
      [[setOkStr], [num1, encodeItem [118]]] = sent ++ ((Ledger.after s.world.trace).pending 0).map Pending.items ∧
      List.Forall₂ (Response.IsAnswer s.world.heap) [r] ((Ledger.after s.world.trace).pending 0) := by
  obtain ⟨s, hs, hlog⟩ := ok_of_map (show (run (step plainEnv) initServer setUnknownGet).map
      (fun s => ((handedBy 0 s.world.trace).length, owed 0 s.world.trace, s.world.trace.count (.finished 0),
        (s.clients.get 0).map fun c => c.sendResponseQueue.length)) =
      .ok (3, [[setOkStr], [num1, encodeItem [118]]], 1, some 1) by decide +kernel)
  simp only [Prod.mk.injEq] at hlog
  obtain ⟨hhanded, howed, hfinished, hqueue⟩ := hlog
  obtain ⟨c, hget, hlen⟩ := Option.map_eq_some_iff.mp hqueue
  obtain ⟨r, hr⟩ := List.length_eq_one_iff.mp hlen
  obtain ⟨-, -, hlive⟩ := responses_answer_known_requests plainEnv setUnknownGet s hs 0
  obtain ⟨sent, hsent, hsplit, hanswers⟩ := hlive c hget
  rw [hfinished] at hsent
  rw [howed] at hsplit
  rw [hr] at hanswers
  exact ⟨s, c, r, sent, hs, hget, hr, hsent, hhanded, hsplit, hanswers⟩

/-- A request whose name `ALL_cmd` does not know gets no response. -/
theorem unknown_name_gets_no_response :
    ∃ s, run (step plainEnv) initServer [.connect 5 true,
        .recv 0 (.data (encodeRequest [[65]]))] = .ok s ∧
      handedBy 0 s.world.trace = [[encodeItem [65]]] ∧ appendedBy 0 s.world.trace = [] := by
  obtain ⟨s, hs, hlog⟩ := ok_of_map (show (run (step plainEnv) initServer [.connect 5 true,
        .recv 0 (.data (encodeRequest [[65]]))]).map
      (fun s => (handedBy 0 s.world.trace, appendedBy 0 s.world.trace)) =
      .ok ([[encodeItem [65]]], []) by decide +kernel)
  exact ⟨s, hs, Prod.mk.inj hlog⟩

/-! ## Section 3: Execution -/

/-- **Commands are executed once, and when they are complete.** -/
theorem executed_once_when_complete (env : Env) (es : List Event) :
    (∀ s, run (step env) initServer es = .ok s →
      (∀ me c, s.clients.get me = some c →
        (c.curCmdItem = none → c.recvCmdQueueHead = none ∧ c.recvCmdQueueTail = none) ∧
        ∀ p, c.curCmdItem = some p → c.recvCmdQueueHead = some p ∧ c.recvCmdQueueTail = some p ∧
          ∃ cmd, s.world.cmds.get p = some cmd ∧ cmd.next = none) ∧
      (∀ me p emptyBefore, .inserted me p emptyBefore ∈ s.world.trace → emptyBefore = true) ∧
      (∀ me meant head, .dropped me meant head ∈ s.world.trace → meant = head) ∧
      (executedCmds s.world.trace).Nodup ∧
      ∀ me e, .executed me e ∈ s.world.trace →
        e.calls.length ≤ 1 ∧ e.received = e.items.map fun bs => (bs.length, bs.length)) ∧
    ∀ f, (∀ a bs, env.released a bs = bs) → run (step env) initServer es = .error f → ∃ i, f = .cmdIndex i := by
  refine ⟨fun s hrun => ?_, fun f hkept hrun => ?_⟩
  · obtain ⟨g, hrep⟩ := reachable_rep hrun
    refine ⟨fun me c hget => ?_, fun me p b hmem => hrep.world.orderly _ hmem,
      fun me m hd hmem => hrep.world.orderly _ hmem, hrep.world.once, fun me e hmem => ⟨?_, ?_⟩⟩
    · -- the queue holds the command being decoded and nothing else
      obtain ⟨⟨-, hclient⟩, -⟩ := hrep.conn hget
      have hcur := hclient.cur
      rcases hdc : (s.dec me).cur with _ | dc
      · rw [hdc] at hcur
        refine ⟨fun _ => hcur.2, fun p hp => ?_⟩
        rw [hcur.1] at hp
        simp at hp
      · rw [hdc] at hcur
        obtain ⟨p, cmd, hp, hhead, htail, hcmd, -, hcr⟩ := hcur
        refine ⟨fun hnone => ?_, fun q hq => ?_⟩
        · rw [hp] at hnone
          simp at hnone
        · rw [hp, Option.some.injEq] at hq
          subst hq
          exact ⟨hhead, htail, cmd, hcmd, hcr.next⟩
    · -- the calls made are those of the request, of which there is one at most
      obtain ⟨before, later, hsplit⟩ := List.append_of_mem hmem
      rw [(hrep.world.consistent before me e later hsplit).2]
      exact Request.length_calls _
    · exact hrep.world.orderly _ hmem
  · -- a quiet environment frees nothing twice: only the index of a command is left
    rcases reachable_fault hrun with ⟨-, hquiet⟩ | hindex
    · exact absurd (Env.quiet_of_kept hkept) hquiet
    · exact hindex

/-- Two requests in one read. -/
theorem executed_once_when_complete_two :
    ∃ s, run (step plainEnv) initServer [.connect 5 true,
        .recv 0 (.data (encode [[[65]], [[71, 69, 84], [107]]]))] = .ok s ∧
      executedCmds s.world.trace = [0, 1] ∧ (executedCmds s.world.trace).Nodup := by
  obtain ⟨s, hs, hcmds⟩ := ok_of_map (show (run (step plainEnv) initServer [.connect 5 true,
        .recv 0 (.data (encode [[[65]], [[71, 69, 84], [107]]]))]).map
      (fun s => executedCmds s.world.trace) = .ok [0, 1] by decide +kernel)
  obtain ⟨-, -, -, hnodup, -⟩ := (executed_once_when_complete plainEnv _).1 s hs
  exact ⟨s, hs, hcmds, hnodup⟩

end BoAtom
