import BoAtom.Mem.AllCmd

/-! # ALL_cmd and freed memory

    `ALL_cmd` on any queue of complete commands, each in blocks of its own.
    Run in order on the store, the commands decide by themselves what is
    called, answered and stored (`logOf`, `storeAfter`); the bytes that are
    left in a freed block enter in one place.  A SET whose freed name reads
    as GET is passed to `GET_cmd` as well, which frees that name again. -/

namespace BoAtom

open Memory

/-! ## Section 1: A queue of complete commands -/

/-- The `next` pointers from `head` on lead through these commands.  The
    blocks of the command `p` are owned as arguments of `who p`. -/
inductive Queued (g : Ghost) (w : World) (who : CmdPtr → ClientId) :
    Option CmdPtr → List (CmdPtr × List Bytes) → Prop where
  | nil : Queued g w who none []
  | cons {p cmd items q} (get : w.cmds.get p = some cmd)
      (loaded : Loaded g w.heap (who p) cmd items)
      (fresh : ∀ x ∈ q, x.1 ≠ p ∧ who x.1 ≠ who p)
      (rest : Queued g w who cmd.next q) : Queued g w who (some p) ((p, items) :: q)

/-- The command, where it lies, is a phantom. -/
def PhantomAt (env : Env) (cmds : Pool Cmd) (x : CmdPtr × List Bytes) : Prop :=
  ∃ cmd, cmds.get x.1 = some cmd ∧ Phantom env cmd x.2

/-- The commands `ALL_cmd` runs: it passes over the current one. -/
def executable (cur : Option CmdPtr) (q : List (CmdPtr × List Bytes)) :
    List (CmdPtr × List Bytes) :=
  q.filter fun x => decide (cur ≠ some x.1)

/-- The entry a command logs when it finds this store. -/
def entryOf (me : ClientId) (store : Store) (x : CmdPtr × List Bytes) : Happened :=
  .executed me
    { cmd := x.1
      items := x.2
      received := x.2.map fun bs => (bs.length, bs.length)
      calls := (request x.2).calls
      res := (request x.2).answer store }

def logOf (me : ClientId) : Store → List (CmdPtr × List Bytes) → List Happened
  | _, [] => []
  | store, x :: q => entryOf me store x :: logOf me ((request x.2).effect store) q

def storeAfter : Store → List (CmdPtr × List Bytes) → Store
  | store, [] => store
  | store, x :: q => storeAfter ((request x.2).effect store) q

/-- The responses, as lists of items. -/
def answersOf : Store → List (CmdPtr × List Bytes) → List (List Bytes)
  | _, [] => []
  | store, x :: q =>
    ((request x.2).answer store).toList ++ answersOf ((request x.2).effect store) q

/-- How many items a response has, and how long they are. -/
def Response.lengths (r : Response) : List Nat :=
  (List.range r.argsNum).map fun i => if hi : i < cmdArgsMax then r.itemLength ⟨i, hi⟩ else 0

theorem RespRep.lengths {g : Ghost} {h : Heap} {r : Response} {p : Pending}
    (hr : RespRep g h r p) : r.lengths = p.items.map List.length := by
  unfold Response.lengths
  rw [hr.argsNum]
  apply List.ext_getElem (by simp)
  intro i h1 h2
  have hi : i < p.items.length := by simpa using h2
  have h512 : i < cmdArgsMax := by
    have := hr.small
    show i < 512
    omega
  rw [List.getElem_map, List.getElem_range, dif_pos h512, List.getElem_map]
  exact (hr.item ⟨i, h512⟩ _ (List.getElem?_eq_getElem hi)).2

/-! ## Section 2: One pass over the queue -/

section pass

variable {env : Env} {g g' : Ghost} {c : Conn} {who : CmdPtr → ClientId} {head : Option CmdPtr}
  {q : List (CmdPtr × List Bytes)} {store : Store}

/-- Running one command leaves the arguments of the others alone. -/
theorem Queued.keep {w w' : World} (hq : Queued g w who head q) (hcmds : w'.cmds = w.cmds)
    (hkeep : ∀ x ∈ q, ∀ a i n bs, Owns g w.heap a (.arg (who x.1) i) n bs →
      Owns g' w'.heap a (.arg (who x.1) i) n bs) : Queued g' w' who head q := by
  induction hq with
  | nil => exact Queued.nil
  | @cons p cmd items q hget hloaded hfresh hrest ih =>
    apply Queued.cons
    · rw [hcmds]
      exact hget
    · exact hloaded.mono (hkeep _ List.mem_cons_self)
    · exact hfresh
    · exact ih fun x hx => hkeep x (List.mem_cons_of_mem _ hx)

/-- From `c` to `c'` the commands `xs` have been executed on `store`. -/
structure Performed (env : Env) (g : Ghost) (store : Store) (xs : List (CmdPtr × List Bytes))
    (c c' : Conn) : Prop where
  me : c'.me = c.me
  client : c'.client = { c.client with sendResponseQueue := c'.client.sendResponseQueue }
  cmds : c'.world.cmds = c.world.cmds
  trace : c'.world.trace = c.world.trace ++ logOf c.me store xs
  queue : c'.client.sendResponseQueue.map Response.lengths =
    c.client.sendResponseQueue.map Response.lengths ++
      (answersOf store xs).map (List.map List.length)
  store : StoreRep env g c'.world.heap c'.world.dict (storeAfter store xs)

theorem Performed.nil (hst : StoreRep env g c.world.heap c.world.dict store) :
    Performed env g store [] c c :=
  ⟨rfl, rfl, rfl, by simp [logOf], by simp [answersOf], hst⟩

/-- The response queue grows by the answer. -/
theorem responseInsert_lengths {h : Heap} {client : ClientStat} {r : Request}
    {res : Option Response} (hres : ResRep g h store r res) :
    (responseInsert client res).sendResponseQueue.map Response.lengths =
      client.sendResponseQueue.map Response.lengths ++
        (r.answer store).toList.map (List.map List.length) := by
  unfold ResRep at hres
  rcases hans : r.answer store with _ | items
  · rw [hans] at hres
    rw [hres]
    simp [responseInsert]
  · rw [hans] at hres
    obtain ⟨x, rfl, hrep, -⟩ := hres
    simp [responseInsert, hrep.lengths]

theorem responseInsert_client (client : ClientStat) (res : Option Response) :
    responseInsert client res =
      { client with sendResponseQueue := (responseInsert client res).sendResponseQueue } := by
  cases res <;> rfl

theorem res_items {h : Heap} {r : Request} {res : Option Response}
    (hres : ResRep g h store r res) : res.map (Response.items h) = r.answer store := by
  unfold ResRep at hres
  rcases hans : r.answer store with _ | items
  · rw [hans] at hres
    rw [hres]
    rfl
  · rw [hans] at hres
    obtain ⟨x, rfl, -, hitems⟩ := hres
    rw [Option.map_some, hitems]

/-- One command, then the rest of the queue. -/
theorem Performed.cons {c' : Conn} {h' : Heap} {d' : Dict DictItem DictItem}
    {res : Option Response} {g'' : Ghost} {p : CmdPtr} {items : List Bytes}
    (hres : ResRep g' h' store (request items) res)
    (hrest : Performed env g'' ((request items).effect store) q
      (answered c p items (items.map fun bs => (bs.length, bs.length)) (request items).calls res
        { c.world with heap := h', dict := d' }) c') :
    Performed env g'' store ((p, items) :: q) c c' := by
  constructor
  · exact hrest.me
  · rw [hrest.client]
    simp only [answered]
    rw [responseInsert_client]
  · exact hrest.cmds
  · rw [hrest.trace]
    simp [answered, World.log, logOf, entryOf, res_items hres]
  · rw [hrest.queue]
    simp only [answered, responseInsert_lengths hres, answersOf, List.map_append, List.append_assoc]
  · exact hrest.store

/-- **The pass**, by induction on the queue.  The commands are run in order
    on the store, unless one of them is a phantom. -/
theorem runLoop_spec {fuel : Nat} (hq : Queued g c.world who head q)
    (hst : StoreRep env g c.world.heap c.world.dict store) (hfuel : q.length ≤ fuel) :
    ((∀ x ∈ executable c.client.curCmdItem q, ¬ PhantomAt env c.world.cmds x) →
      ∃ g' c', runLoop env fuel head c = .ok c' ∧
        Performed env g' store (executable c.client.curCmdItem q) c c') ∧
    ((∃ x ∈ executable c.client.curCmdItem q, PhantomAt env c.world.cmds x) →
      runLoop env fuel head c = .error .doubleFree) := by
  -- along the queue: each command runs on the store and the heap the ones before it left
  induction q generalizing g c head store fuel with
  | nil =>
    cases hq
    refine ⟨fun _ => ⟨g, c, by unfold runLoop; rfl, Performed.nil hst⟩, fun hex => ?_⟩
    obtain ⟨x, hx, -⟩ := hex
    simp [executable] at hx
  | cons x q ih =>
    obtain ⟨p, items⟩ := x
    obtain ⟨fuel, rfl⟩ : ∃ n, fuel = n + 1 := ⟨fuel - 1, by simp at hfuel; omega⟩
    have hlen : q.length ≤ fuel := by simpa using hfuel
    cases hq with
    | @cons p cmd items q hget hloaded hfresh hrest =>
    have hpos : decide (cmd.argsNum > 0) = true := by
      rw [hloaded.argsNum]
      exact decide_eq_true (by exact_mod_cast hloaded.pos)
    by_cases hcur : c.client.curCmdItem = some p
    · -- the current command is passed over
      have hexec : executable c.client.curCmdItem ((p, items) :: q) =
          executable c.client.curCmdItem q := by
        simp [executable, hcur]
      have hloop : runLoop env (fuel + 1) (some p) c = runLoop env fuel cmd.next c := by
        simp [runLoop, derefCmd_some hget, bind, Except.bind, hloaded.cmdComplete_eq, hcur]
      rw [hexec, hloop]
      exact ih hrest hst hlen
    · have hexec : executable c.client.curCmdItem ((p, items) :: q) =
          (p, items) :: executable c.client.curCmdItem q := by
        simp [executable, hcur]
      have hloop : runLoop env (fuel + 1) (some p) c =
          (runCmd env c p cmd).bind fun c' => runLoop env fuel cmd.next c' := by
        simp [runLoop, derefCmd_some hget, bind, Except.bind, hloaded.cmdComplete_eq, hcur, hpos]
      rw [hexec, hloop]
      rcases runCmd_cases p hst hloaded with ⟨hnot, g', h', d', res, hrun, -, hst', hsp, hres⟩ |
        ⟨hphantom, hrun⟩
      · rw [hrun]
        -- what ran gave up its own arguments only, so the rest of the queue is loaded as before
        have hq' : Queued g' (answered c p items (items.map fun bs => (bs.length, bs.length))
            (request items).calls res { c.world with heap := h', dict := d' }).world who
            cmd.next q := by
          refine Queued.keep hrest ?_ fun x hx a i n bs ho => hsp _ _ _ _ ho fun hgone => ?_
          · rfl
          · rcases hgone.arg_or_val with ⟨j, hj⟩ | ⟨k, hk⟩
            · exact (hfresh x hx).2 (Owner.arg.inj hj).1
            · simp at hk
        obtain ⟨hok, herr⟩ := ih hq' hst' hlen
        have hcur' : (answered c p items (items.map fun bs => (bs.length, bs.length))
            (request items).calls res { c.world with heap := h', dict := d' }).client.curCmdItem =
            c.client.curCmdItem := by
          simp only [answered]
          rw [responseInsert_client]
        -- this command is no phantom: the rest of the queue decides
        rw [hcur'] at hok herr
        constructor
        · intro hall
          obtain ⟨g'', c', hc', hperf⟩ := hok fun x hx => hall x (List.mem_cons_of_mem _ hx)
          exact ⟨g'', c', hc', hperf.cons hres⟩
        · intro hex
          obtain ⟨x, hx, hphantom⟩ := hex
          rcases List.mem_cons.mp hx with rfl | hx
          · obtain ⟨cmd', hget', hphantom⟩ := hphantom
            cases hget.symm.trans hget'
            exact absurd hphantom hnot
          · exact herr ⟨x, hx, hphantom⟩
      · rw [hrun]
        constructor
        · intro hall
          exact absurd ⟨cmd, hget, hphantom⟩ (hall _ List.mem_cons_self)
        · intro _
          rfl

end pass

/-! ## Section 3: Deleting the queue -/

theorem Queued.lt {g : Ghost} {w : World} {who : CmdPtr → ClientId} {head : Option CmdPtr}
    {q : List (CmdPtr × List Bytes)} (hq : Queued g w who head q) :
    ∀ p ∈ q.map Prod.fst, p < w.cmds.cells.length := by
  induction hq with
  | nil => simp
  | cons hget hloaded hfresh hrest ih =>
    intro p hp
    rcases List.mem_cons.mp hp with rfl | hp
    · exact Pool.lt_of_get hget
    · exact ih p hp

theorem Queued.nodup {g : Ghost} {w : World} {who : CmdPtr → ClientId} {head : Option CmdPtr}
    {q : List (CmdPtr × List Bytes)} (hq : Queued g w who head q) :
    (q.map Prod.fst).Nodup := by
  induction hq with
  | nil => exact List.nodup_nil
  | cons hget hloaded hfresh hrest ih =>
    apply List.nodup_cons.mpr
    refine ⟨fun hmem => ?_, ih⟩
    obtain ⟨x, hx, hxp⟩ := List.mem_map.mp hmem
    exact (hfresh x hx).1 hxp

/-- There are not more commands in a queue than were ever allocated. -/
theorem Queued.length_le {g : Ghost} {w : World} {who : CmdPtr → ClientId} {head : Option CmdPtr}
    {q : List (CmdPtr × List Bytes)} (hq : Queued g w who head q) :
    q.length ≤ w.cmds.cells.length := by
  have hsub : q.map Prod.fst ⊆ List.range w.cmds.cells.length := by
    intro p hp
    exact List.mem_range.mpr (hq.lt p hp)
  have hle := (List.subperm_of_subset hq.nodup hsub).length_le
  simpa using hle

/-- Every command of the queue is complete, so that all are deleted. -/
theorem deleteLoop_spec {g : Ghost} {w : World} {who : CmdPtr → ClientId} {head : Option CmdPtr}
    {q : List (CmdPtr × List Bytes)} (hq : Queued g w who head q) :
    ∀ {fuel : Nat} {c : Conn}, c.client.recvCmdQueueHead = head →
      (∀ x ∈ q, c.world.cmds.get x.1 = w.cmds.get x.1) → q.length < fuel →
      ∃ c', deleteLoop fuel c = .ok c' ∧ c'.me = c.me ∧
        c'.client.sendResponseQueue = c.client.sendResponseQueue ∧
        c'.world = { c.world with cmds := c'.world.cmds } := by
  induction hq with
  | nil =>
    intro fuel c hhead _ hfuel
    obtain ⟨fuel, rfl⟩ : ∃ n, fuel = n + 1 := ⟨fuel - 1, by omega⟩
    exact ⟨c, by simp [deleteLoop, hhead], rfl, rfl, rfl⟩
  | @cons p cmd items q hget hloaded hfresh hrest ih =>
    intro fuel c hhead hsame hfuel
    obtain ⟨fuel, rfl⟩ : ∃ n, fuel = n + 1 := ⟨fuel - 1, by omega⟩
    have hget' : c.world.cmds.get p = some cmd := (hsame _ List.mem_cons_self).trans hget
    obtain ⟨c₁, hdel, hhead₁, hme₁, hqueue₁, hworld₁⟩ : ∃ c₁, cmdDeleteHead c = .ok c₁ ∧
        c₁.client.recvCmdQueueHead = cmd.next ∧ c₁.me = c.me ∧
        c₁.client.sendResponseQueue = c.client.sendResponseQueue ∧
        c₁.world = { c.world with cmds := c.world.cmds.release p } := by
      simp only [cmdDeleteHead, hhead, Option.isNone_some, Bool.false_eq_true, if_false,
        derefCmd_some hget', bind, Except.bind]
      exact ⟨_, rfl, rfl, rfl, rfl, rfl⟩
    -- releasing `p` leaves the commands behind it in the pool
    have hsame₁ : ∀ x ∈ q, c₁.world.cmds.get x.1 = w.cmds.get x.1 := by
      intro x hx
      rw [hworld₁]
      show (c.world.cmds.release p).get x.1 = _
      rw [Pool.get_release_ne (hfresh x hx).1]
      exact hsame x (List.mem_cons_of_mem _ hx)
    obtain ⟨c', hrun, hme, hqueue, hworld⟩ := ih hhead₁ hsame₁ (by simpa using hfuel)
    refine ⟨c', ?_, hme.trans hme₁, hqueue.trans hqueue₁, ?_⟩
    · simp only [deleteLoop, hhead, Option.isNone_some, Bool.false_eq_true, if_false,
        derefCmd_some hget', bind, Except.bind, hloaded.cmdComplete_eq, if_true, hdel, hrun]
    · rw [hworld, hworld₁]

/-! ## Section 4: ALL_cmd -/

/-- The item stored under a key. -/
def World.stored (w : World) (k : Bytes) : Option Bytes :=
  (w.dict.entries.find? fun e => keyOf w.heap e.key = k).map fun e => keyOf w.heap e.val

theorem StoreRep.stored {env : Env} {g : Ghost} {w : World} {store : Store}
    (hst : StoreRep env g w.heap w.dict store) (k : Bytes) : w.stored k = store k := by
  unfold World.stored
  rcases hfind : w.dict.entries.find? (fun e => keyOf w.heap e.key = k) with _ | e
  · rw [hfind, Option.map_none]
    rcases hk : store k with _ | v
    · rfl
    · obtain ⟨e, he, hek⟩ := hst.complete k v hk
      have hnone := List.find?_eq_none.mp hfind e he
      simp [hek] at hnone
  · have hek : keyOf w.heap e.key = k := by simpa using List.find?_some hfind
    obtain ⟨k', v, ka, va, hkey, hval, hown, hown', hstore⟩ :=
      hst.entry e (List.mem_of_find?_eq_some hfind)
    have hkk : k' = k := by rw [← hek, hkey, keyOf_some hown]
    rw [hkk] at hstore
    rw [hfind, Option.map_some, hval, keyOf_some hown', hstore]

section execution

variable {env : Env} {g : Ghost} {c : Conn} {who : CmdPtr → ClientId}
  {q : List (CmdPtr × List Bytes)} {store : Store}

/-- **`ALL_cmd` on a queue of complete commands.** -/
theorem allCmd_queue (hq : Queued g c.world who c.client.recvCmdQueueHead q)
    (hst : StoreRep env g c.world.heap c.world.dict store) :
    ((∀ x ∈ executable c.client.curCmdItem q, ¬ PhantomAt env c.world.cmds x) →
      ∃ c', allCmd env c = .ok c' ∧
        c'.world.trace = c.world.trace ++
          logOf c.me store (executable c.client.curCmdItem q) ∧
        c'.client.sendResponseQueue.map Response.lengths =
          c.client.sendResponseQueue.map Response.lengths ++
            (answersOf store (executable c.client.curCmdItem q)).map (List.map List.length) ∧
        ∀ k, c'.world.stored k = storeAfter store (executable c.client.curCmdItem q) k) ∧
    ((∃ x ∈ executable c.client.curCmdItem q, PhantomAt env c.world.cmds x) →
      allCmd env c = .error .doubleFree) := by
  have hfuel := hq.length_le
  have hpass : q.length ≤ c.world.cmds.cells.length + 1 := by omega
  obtain ⟨hok, herr⟩ := runLoop_spec hq hst hpass
  constructor
  · intro hall
    obtain ⟨g', c₁, hrun, hperf⟩ := hok hall
    have hhead : c₁.client.recvCmdQueueHead = c.client.recvCmdQueueHead := by
      rw [hperf.client]
    obtain ⟨c', hdel, -, hqueue, hworld⟩ := deleteLoop_spec hq hhead
      (fun x _ => by rw [hperf.cmds]) (Nat.lt_succ_of_le hfuel)
    refine ⟨c', ?_, ?_, ?_, ?_⟩
    · simp only [allCmd, hrun, bind, Except.bind, hdel]
    · rw [hworld]
      exact hperf.trace
    · rw [hqueue]
      exact hperf.queue
    · intro k
      rw [hworld]
      exact hperf.store.stored k
  · intro hex
    simp only [allCmd, herr hex, bind, Except.bind]

end execution

/-- What two choices of freed bytes must not make a difference to: the
    calls and the items of the responses (both in the log), the responses in
    the queue, the store. -/
def SameExecution (env₁ env₂ : Env) (c : Conn) : Prop :=
  ∃ c₁ c₂ ext, allCmd env₁ c = .ok c₁ ∧ allCmd env₂ c = .ok c₂ ∧
    c₁.world.trace = c.world.trace ++ ext ∧ c₂.world.trace = c.world.trace ++ ext ∧
    (∀ me e, .executed me e ∈ ext → e.calls.length ≤ 1) ∧
    c₁.client.sendResponseQueue.map Response.lengths =
      c₂.client.sendResponseQueue.map Response.lengths ∧
    ∀ k, c₁.world.stored k = c₂.world.stored k

theorem length_calls_of_mem {me : ClientId} {e : Execution} {i : ClientId} :
    ∀ {q : List (CmdPtr × List Bytes)} {store : Store}, .executed i e ∈ logOf me store q →
      e.calls.length ≤ 1 := by
  intro q
  induction q with
  | nil => intro store h; simp [logOf] at h
  | cons x q ih =>
    intro store h
    rcases List.mem_cons.mp h with heq | h
    · unfold entryOf at heq
      cases heq
      exact Request.length_calls _
    · exact ih h

/-- **Execution does not depend on freed memory**, for a queue none of whose
    SET names reads as a GET name after `free`, and for no other queue. -/
theorem execution_ignores_freed_iff (hash : Bytes → UInt32) (released₁ released₂ : Addr → Bytes → Bytes)
    {g : Ghost} {c : Conn} {who : CmdPtr → ClientId} {q : List (CmdPtr × List Bytes)}
    {store : Store} (hq : Queued g c.world who c.client.recvCmdQueueHead q)
    (hst : StoreRep ⟨hash, released₁⟩ g c.world.heap c.world.dict store) :
    SameExecution ⟨hash, released₁⟩ ⟨hash, released₂⟩ c ↔
      ∀ x ∈ executable c.client.curCmdItem q,
        ¬ PhantomAt ⟨hash, released₁⟩ c.world.cmds x ∧ ¬ PhantomAt ⟨hash, released₂⟩ c.world.cmds x := by
  have hst₂ : StoreRep ⟨hash, released₂⟩ g c.world.heap c.world.dict store :=
    ⟨hst.dict, hst.entry, hst.complete⟩
  obtain ⟨hok₁, herr₁⟩ := allCmd_queue hq hst
  obtain ⟨hok₂, herr₂⟩ := allCmd_queue hq hst₂
  constructor
  · intro hsame x hx
    obtain ⟨c₁, c₂, ext, hrun₁, hrun₂, -⟩ := hsame
    constructor
    · intro hphantom
      rw [herr₁ ⟨x, hx, hphantom⟩] at hrun₁
      cases hrun₁
    · intro hphantom
      rw [herr₂ ⟨x, hx, hphantom⟩] at hrun₂
      cases hrun₂
  · intro hall
    obtain ⟨c₁, hrun₁, htrace₁, hqueue₁, hstore₁⟩ := hok₁ fun x hx => (hall x hx).1
    obtain ⟨c₂, hrun₂, htrace₂, hqueue₂, hstore₂⟩ := hok₂ fun x hx => (hall x hx).2
    refine ⟨c₁, c₂, _, hrun₁, hrun₂, htrace₁, htrace₂, fun me e he => ?_, ?_, ?_⟩
    · exact length_calls_of_mem he
    · rw [hqueue₁, hqueue₂]
    · intro k
      rw [hstore₁, hstore₂]

/-- The items of a SET: the name, a key and a value. -/
def setItems : List Bytes := [strSET, [36, 49, 13, 10, 107, 13, 10], [36, 49, 13, 10, 118, 13, 10]]

/-- A client with that command complete in its queue, and an empty store. -/
def setConn : Conn :=
  { me := 0
    client :=
      { fd := 5, recvCmd := RecvBuf.zero, curCmdItem := none, recvCmdQueueHead := some 0,
        recvCmdQueueTail := some 0, recvPos := 0, sendResponseQueue := [], next := none, pre := none }
    world :=
      { heap := ⟨setItems.map fun bs => ⟨bs.length, bs, true⟩⟩
        cmds := ⟨[some
          { argsNum := 3
            value := fun i => if i.val < 3 then some i.val else none
            itemLength := fun i => ((setItems[i.val]?).getD []).length
            itemPos := fun i => ((setItems[i.val]?).getD []).length
            curItem := 3
            next := none }]⟩
        dict := initDict 50
        loop := aeCreateEventLoop 1000
        trace := [] } }

theorem setConn_queued : Queued ⟨fun a => .arg 0 a, fun _ => 0⟩ setConn.world (fun _ => 0)
    setConn.client.recvCmdQueueHead [(0, setItems)] := by
  apply Queued.cons rfl
  · constructor
    · rfl
    · intro i bs hi
      have hlt : i.val < 3 := (List.getElem?_eq_some_iff.mp hi).1
      refine ⟨i.val, if_pos hlt, ⟨rfl, ?_⟩, ?_, ?_⟩
      · show (setItems.map fun bs => (⟨bs.length, bs, true⟩ : Block))[i.val]? = _
        rw [List.getElem?_map, hi]
        rfl
      · show ((setItems[i.val]?).getD []).length = _
        rw [hi]
        rfl
      · show ((setItems[i.val]?).getD []).length = _
        rw [hi]
        rfl
    · decide
    · decide
    · decide
  · simp
  · exact Queued.nil

theorem setConn_store (env : Env) : StoreRep env ⟨fun a => .arg 0 a, fun _ => 0⟩
    setConn.world.heap setConn.world.dict fun _ => none := storeRep_init env _ _ 50

/-- The block of an address is cleared when it is even. -/
def clearedEven (a : Addr) (bs : Bytes) : Bytes := if a % 2 = 0 then [] else bs

/-- Blocks that keep their bytes, and blocks some of which are cleared. -/
theorem execution_ignores_freed_cleared :
    SameExecution ⟨dictGenHashFunction, fun _ bs => bs⟩ ⟨dictGenHashFunction, clearedEven⟩ setConn := by
  apply (execution_ignores_freed_iff dictGenHashFunction (fun _ bs => bs) clearedEven setConn_queued
    (setConn_store _)).mpr
  intro x hx
  obtain rfl : x = (0, setItems) := by simpa [executable, setConn] using hx
  constructor
  · rintro ⟨cmd, -, a, name, key, value, -, heq, -, hget⟩
    cases heq
    have hget' : isGetName (readAs strSET strSET.length) = true := hget
    exact absurd hget' (by decide)
  · rintro ⟨cmd, hcmd, a, name, key, value, hvalue, heq, -, hget⟩
    cases hcmd
    cases hvalue
    cases heq
    exact absurd hget (by decide)

/-- Blocks in which a GET name is left: the SET is answered in the one run,
    the other frees its name twice. -/
theorem execution_depends_on_freed :
    ¬ SameExecution ⟨dictGenHashFunction, fun _ bs => bs⟩ ⟨dictGenHashFunction, fun _ _ => strGET⟩ setConn := by
  intro hsame
  obtain ⟨-, c₂, -, -, hrun, -⟩ := hsame
  rw [(allCmd_queue setConn_queued (setConn_store _)).2] at hrun
  · cases hrun
  · refine ⟨(0, setItems), by simp [executable, setConn], _, rfl, 0, strSET, _, _, rfl, rfl, ?_, ?_⟩
    · decide
    · decide

end BoAtom
