import BoAtom.Mem.Execute

/-! # ALL_cmd

    With an empty queue `ALL_cmd` does nothing; with one complete command
    in it, which is the only other way it is called, it executes that
    command once, answers it and deletes it.  What it executes is what the
    ledger executes. -/

namespace BoAtom

open Memory

/-! ## Section 1: A complete command -/

/-- `cmd` is complete and holds `items`, each in a block of `who`. -/
structure Loaded (g : Ghost) (h : Heap) (who : ClientId) (cmd : Cmd) (items : List Bytes) :
    Prop where
  argsNum : cmd.argsNum = items.length
  arg : ∀ (i : Fin cmdArgsMax) bs, items[i.val]? = some bs → ArgRep g h who cmd i bs
  size_gt : ∀ bs ∈ items, 5 < bs.length
  pos : 0 < items.length
  le : items.length ≤ cmdArgsMax

section loaded

variable {g g' : Ghost} {h h' : Heap} {who : ClientId} {cmd : Cmd} {items : List Bytes}

theorem Loaded.mono (hr : Loaded g h who cmd items)
    (hkeep : ∀ a i n bs, Owns g h a (.arg who i) n bs → Owns g' h' a (.arg who i) n bs) :
    Loaded g' h' who cmd items := by
  refine ⟨hr.argsNum, fun i bs hi => ?_, hr.size_gt, hr.pos, hr.le⟩
  obtain ⟨a, hv, hown, hlen, hpos⟩ := hr.arg i bs hi
  exact ⟨a, hv, hkeep _ _ _ _ hown, hlen, hpos⟩

theorem Loaded.item_eq (hr : Loaded g h who cmd items) {i : Nat} (hi : i < items.length) :
    ∃ h512 : i < cmdArgsMax, loadItem h (cmd.value ⟨i, h512⟩) (cmd.itemLength ⟨i, h512⟩) =
      items[i] ∧ cmd.itemPos ⟨i, h512⟩ = items[i].length ∧
      cmd.itemLength ⟨i, h512⟩ = items[i].length := by
  have h512 : i < cmdArgsMax := lt_of_lt_of_le hi hr.le
  obtain ⟨a, hv, hown, hlen, hpos⟩ := hr.arg ⟨i, h512⟩ _ (List.getElem?_eq_getElem hi)
  refine ⟨h512, ?_, hpos, hlen⟩
  rw [hv, hlen]
  exact Heap.load_of_holds hown.2

theorem Loaded.cmdItems_eq (hr : Loaded g h who cmd items) : cmdItems h cmd = items := by
  unfold cmdItems
  rw [hr.argsNum, Int.toNat_natCast]
  refine List.ext_getElem (by simp) fun i h1 h2 => ?_
  obtain ⟨h512, hload, -, -⟩ := hr.item_eq h2
  rw [List.getElem_map, List.getElem_range, dif_pos h512, hload]

theorem Loaded.cmdReceived_eq (hr : Loaded g h who cmd items) :
    cmdReceived cmd = items.map fun bs => (bs.length, bs.length) := by
  unfold cmdReceived
  rw [hr.argsNum, Int.toNat_natCast]
  refine List.ext_getElem (by simp) fun i h1 h2 => ?_
  obtain ⟨h512, -, hpos, hlen⟩ := hr.item_eq (by simpa using h2)
  rw [List.getElem_map, List.getElem_range, dif_pos h512, List.getElem_map, hpos, hlen]

end loaded

theorem slot_ofNat {i : Nat} (hi : i < cmdArgsMax) : slot (i : Int) = .ok ⟨i, hi⟩ := by
  rw [slot, dif_pos ⟨by omega, by exact_mod_cast hi⟩]
  rfl

theorem slot_error {i : Nat} (hi : cmdArgsMax ≤ i) : slot (i : Int) = .error (.cmdIndex i) := by
  rw [slot, dif_neg]
  rintro ⟨-, hlt⟩
  have : i < cmdArgsMax := by exact_mod_cast hlt
  omega

/-- An index that is in the arrays is the slot's own. -/
theorem slot_ok {i : Nat} {j : Fin cmdArgsMax} (h : slot (i : Int) = .ok j) : j.val = i := by
  unfold slot at h
  split at h
  · cases h
    simp
  · cases h

theorem slot_neg {i : Int} (hi : i < 0) : slot i = .error (.cmdIndex i) := by
  rw [slot, dif_neg]
  rintro ⟨h0, -⟩
  omega

theorem Loaded.cmdComplete_eq {g : Ghost} {h : Heap} {who : ClientId} {cmd : Cmd}
    {items : List Bytes} (hr : Loaded g h who cmd items) : cmdComplete cmd = .ok true := by
  have hlt : items.length - 1 < items.length := Nat.sub_lt hr.pos Nat.one_pos
  obtain ⟨h512, -, hpos, hlen⟩ := hr.item_eq hlt
  have hidx : cmd.argsNum - 1 = ((items.length - 1 : Nat) : Int) := by
    rw [hr.argsNum]
    have := hr.pos
    omega
  have hne : cmd.argsNum ≠ 0 := by
    rw [hr.argsNum]
    have := hr.pos
    omega
  rw [cmdComplete, if_neg hne, hidx, slot_ofNat h512]
  simp only [bind, Except.bind, hpos, hlen, ge_iff_le, le_refl, decide_true]

section complete

variable {g : Ghost} {h : Heap} {me : ClientId} {cmd : Cmd} {dc : DecCmd}

theorem CmdRep.arg (hr : CmdRep g h me cmd dc) {i : Fin cmdArgsMax} {bs : Bytes}
    (hi : dc.items[i.val]? = some bs) : ArgRep g h me cmd i bs := by
  have hs := hr.slots i
  rw [DecCmd.slotAt_item hi] at hs
  exact hs

/-- All arguments have been received. -/
def Full (dc : DecCmd) : Prop := 0 < dc.argc ∧ (dc.items.length : Int) = dc.argc

theorem Full.pos (hf : Full dc) : 0 < dc.items.length := by
  have := hf.1; have := hf.2; omega

theorem CmdRep.loaded (hr : CmdRep g h me cmd dc) (hf : Full dc) :
    Loaded g h me cmd dc.items := by
  constructor
  · rw [hr.argsNum, hf.2]
  · intro i bs hi
    exact hr.arg hi
  · exact hr.size_gt
  · exact hf.pos
  · exact hr.items_le

/-- A command with a negative count never gets past `CmdComplete`. -/
theorem cmdComplete_neg (hneg : cmd.argsNum < 0) :
    cmdComplete cmd = .error (.cmdIndex (cmd.argsNum - 1)) := by
  rw [cmdComplete, if_neg (by omega), slot_neg (by omega)]
  rfl

end complete

/-! ## Section 2: Queued answers while a command runs -/

section queues

variable {g g' : Ghost} {h h' : Heap} {me : ClientId}

theorem RespRep.mono {r : Response} {p p' : Pending} (hr : RespRep g h r p)
    (hitems : p'.items = p.items) (hkey : p'.key = p.key) (hsent : p'.sent = p.sent)
    (hint : p'.intact = true → p.intact = true)
    (hkeep : ∀ a k n bs, p'.intact = true → p.key = some k → Owns g h a (.val k) n bs →
      Owns g' h' a (.val k) n bs) : RespRep g' h' r p' := by
  refine ⟨by rw [hitems]; exact hr.argsNum, by rw [hitems]; exact hr.small, fun i item hi => ?_,
    by rw [hitems]; exact hr.curItem, hr.pos_le, hr.later, fun i hi => ?_⟩
  · rw [hitems] at hi
    obtain ⟨hrep, hlen⟩ := hr.item i item hi
    refine ⟨?_, hlen⟩
    rcases hrep with hlit | ⟨a, k, hv, hk, hown⟩
    · exact Or.inl hlit
    · exact Or.inr ⟨a, k, hv, hkey.trans hk, fun hi' => hkeep a k _ _ hi' hk (hown (hint hi'))⟩
  · rw [hsent, hitems]
    exact hr.sent i hi

theorem QueueRep.keep {q : List Response} {ps : List Pending} (hq : QueueRep g h q ps)
    (hs : Spares (fun o => ∃ i, o = .arg me i) g h g' h') : QueueRep g' h' q ps :=
  hq.imp fun _ _ hr => hr.mono rfl rfl rfl id fun _ _ _ _ _ _ ho => hs _ _ _ _ ho (by simp)

/-- Answers found under the key that is SET are no longer vouched for. -/
theorem QueueRep.overwrite {q : List Response} {ps : List Pending} {key : Bytes}
    (hq : QueueRep g h q ps) (hs : Spares (SetGone me key) g h g' h') :
    QueueRep g' h' q (ps.map (Pending.overwrite key)) := by
  unfold QueueRep at hq ⊢
  rw [List.forall₂_map_right_iff]
  refine hq.imp fun r p hr => ?_
  unfold Pending.overwrite
  by_cases hk : p.key = some key
  · rw [if_pos hk]
    exact hr.mono rfl rfl rfl (by simp) (fun a k n bs hint => by simp at hint)
  · rw [if_neg hk]
    refine hr.mono rfl rfl rfl id fun a k n bs _ hpk ho => hs _ _ _ _ ho ?_
    rintro (⟨i, hi⟩ | hi)
    · simp at hi
    · cases hi
      exact hk hpk

/-- The owners an executed request takes blocks from. -/
def Gone (who : ClientId) : Request → Owner → Prop
  | .set key _ => SetGone who key
  | _ => fun o => ∃ i, o = .arg who i

theorem Gone.arg_or_val {who : ClientId} {r : Request} {o : Owner} (ho : Gone who r o) :
    (∃ i, o = .arg who i) ∨ ∃ k, o = .val k := by
  cases r with
  | set key value => exact Or.imp_right (fun hk => ⟨key, hk⟩) ho
  | get key => exact Or.inl ho
  | wrongArity handler => exact Or.inl ho
  | unknown => exact Or.inl ho

/-- The answers still owed, after the request has been executed. -/
theorem QueueRep.disturb {q : List Response} {l : Ledger} {r : Request} {me' : ClientId}
    (hq : QueueRep g h q (l.pending me')) (hs : Spares (Gone me r) g h g' h') :
    QueueRep g' h' q (l.disturb r me') := by
  cases r with
  | set key value => exact hq.overwrite hs
  | get key => exact hq.keep hs
  | wrongArity handler => exact hq.keep hs
  | unknown => exact hq.keep hs

end queues

/-! ## Section 3: What an execution changes -/

/-- From `c` to `c'` the command `p` with these items has been executed. -/
structure Executed (env : Env) (p : CmdPtr) (items : List Bytes) (g : Ghost) (c : Conn)
    (g' : Ghost) (c' : Conn) : Prop where
  me : c'.me = c.me
  client : c'.client = { c.client with sendResponseQueue := c'.client.sendResponseQueue }
  cmds : c'.world.cmds = c.world.cmds
  ghost : g'.cmd = g.cmd
  trace : ∃ e, c'.world.trace = c.world.trace ++ [.executed c.me e] ∧ e.cmd = p ∧
    e.items = items ∧ e.received = items.map (fun bs => (bs.length, bs.length)) ∧
    e.res = (request items).answer (Ledger.after c.world.trace).store ∧
    e.calls = (request items).calls
  spares : Spares (fun o => (∃ i, o = .arg c.me i) ∨ ∃ k, o = .val k) g c.world.heap g' c'.world.heap
  store : StoreRep env g' c'.world.heap c'.world.dict
    ((request items).effect (Ledger.after c.world.trace).store)
  others : ∀ me' q, QueueRep g c.world.heap q ((Ledger.after c.world.trace).pending me') →
    QueueRep g' c'.world.heap q ((Ledger.after c.world.trace).disturb (request items) me')
  queue : QueueRep g c.world.heap c.client.sendResponseQueue
      ((Ledger.after c.world.trace).pending c.me) →
    QueueRep g' c'.world.heap c'.client.sendResponseQueue
      (((Ledger.after c.world.trace).execute c.me (request items)).pending c.me)

theorem execute_pending_some {l : Ledger} {me : ClientId} {r : Request} {items : List Bytes}
    (h : r.answer l.store = some items) :
    (l.execute me r).pending me = l.disturb r me ++ [⟨items, r.source l.store, true, 0⟩] := by
  simp [Ledger.execute, h]

theorem execute_pending_none {l : Ledger} {me : ClientId} {r : Request}
    (h : r.answer l.store = none) : (l.execute me r).pending me = l.disturb r me := by
  simp [Ledger.execute, h]

theorem queueRep_snoc {g : Ghost} {h : Heap} {q : List Response} {ps : List Pending} {r : Response}
    {p : Pending} (hq : QueueRep g h q ps) (hr : RespRep g h r p) :
    QueueRep g h (q ++ [r]) (ps ++ [p]) :=
  List.rel_append hq (List.Forall₂.cons hr List.Forall₂.nil)

/-- The response to a request, in memory. -/
def ResRep (g : Ghost) (h : Heap) (store : Store) (r : Request) (res : Option Response) : Prop :=
  match r.answer store with
  | none => res = none
  | some items => ∃ x, res = some x ∧ RespRep g h x ⟨items, r.source store, true, 0⟩ ∧
      Response.items h x = items

/-- The connection after `ResponseInsert`, with its log entry. -/
def answered (c : Conn) (p : CmdPtr) (items : List Bytes) (received : List (Nat × Nat))
    (calls : List Handler) (res : Option Response) (w : World) : Conn :=
  { c with
    client := responseInsert c.client res
    world := w.log (.executed c.me
      { cmd := p, items := items, received := received, calls := calls
        res := res.map (Response.items w.heap) }) }

theorem executed_answered {env : Env} {p : CmdPtr} {items : List Bytes} {g g' : Ghost} {c : Conn}
    (h' : Heap) (d' : Dict DictItem DictItem) (res : Option Response) (hghost : g'.cmd = g.cmd)
    (hstore : StoreRep env g' h' d' ((request items).effect (Ledger.after c.world.trace).store))
    (hsp : Spares (fun o => (∃ i, o = .arg c.me i) ∨ ∃ k, o = .val k) g c.world.heap g' h')
    (hothers : ∀ me' q, QueueRep g c.world.heap q ((Ledger.after c.world.trace).pending me') →
      QueueRep g' h' q ((Ledger.after c.world.trace).disturb (request items) me'))
    (hres : ResRep g' h' (Ledger.after c.world.trace).store (request items) res) :
    Executed env p items g c g' (answered c p items (items.map fun bs => (bs.length, bs.length))
      (request items).calls res { c.world with heap := h', dict := d' }) := by
  unfold ResRep at hres
  rcases hans : (request items).answer (Ledger.after c.world.trace).store with _ | answer
  · rw [hans] at hres
    subst hres
    refine ⟨rfl, rfl, rfl, hghost, ⟨_, rfl, rfl, rfl, rfl, by simp [hans], rfl⟩, hsp, hstore,
      hothers, fun hq => ?_⟩
    rw [execute_pending_none hans]
    exact hothers _ _ hq
  · rw [hans] at hres
    obtain ⟨x, rfl, hrep, hitems⟩ := hres
    refine ⟨rfl, rfl, rfl, hghost, ⟨_, rfl, rfl, rfl, rfl, by simp [hans, hitems], rfl⟩, hsp,
      hstore, hothers, fun hq => ?_⟩
    rw [execute_pending_some hans]
    exact queueRep_snoc (hothers _ _ hq) hrep

/-! ## Section 4: One command -/

theorem nameIs_eq {g : Ghost} {h : Heap} {me : ClientId} {cmd : Cmd} {name : Bytes}
    (h0 : ArgRep g h me cmd 0 name) (s : Bytes) : nameIs h cmd s = sameAs s name := by
  obtain ⟨a, hv, hown, hlen, -⟩ := h0
  rw [nameIs, hv, hlen]
  exact congrArg _ (Heap.load_of_holds hown.2)

/-- Once freed, the name reads as what `free` left there. -/
theorem nameIs_dead {h : Heap} {cmd : Cmd} {a : Addr} {n : Nat} {bs name : Bytes}
    (hv : cmd.value 0 = some a) (hlen : cmd.itemLength 0 = name.length)
    (hdead : h.blocks[a]? = some ⟨n, bs, false⟩) (s : Bytes) :
    nameIs h cmd s = sameAs s (readAs bs name.length) := by
  rw [nameIs, hv, hlen]
  simp [loadItem, Heap.load, hdead]

/-- A SET that `ALL_cmd` takes for a GET as well: once `SET_cmd` has freed
    it, the name reads as a GET name. -/
def Phantom (env : Env) (cmd : Cmd) (items : List Bytes) : Prop :=
  ∃ a name key value, cmd.value ⟨0, by decide⟩ = some a ∧ items = [name, key, value] ∧ isSetName name = true ∧
    isGetName (readAs (env.released a name) name.length) = true

theorem not_phantom_of_quiet {env : Env} {cmd : Cmd} {items : List Bytes} (hquiet : env.Quiet)
    (hsize : ∀ bs ∈ items, 5 < bs.length) : ¬ Phantom env cmd items := by
  rintro ⟨a, name, key, value, -, rfl, hset, hget⟩
  rw [hquiet a name (hsize name List.mem_cons_self) hset] at hget
  exact absurd hget (by simp)

theorem not_phantom_of_name {env : Env} {cmd : Cmd} {name : Bytes} {args : List Bytes}
    (hset : isSetName name = false) : ¬ Phantom env cmd (name :: args) := by
  rintro ⟨a, name', key, value, -, heq, hset', -⟩
  cases heq
  rw [hset] at hset'
  exact absurd hset' (by simp)

theorem not_phantom_of_length {env : Env} {cmd : Cmd} {name : Bytes} {args : List Bytes}
    (hlen : args.length ≠ 2) : ¬ Phantom env cmd (name :: args) := by
  rintro ⟨a, name', key, value, -, heq, -, -⟩
  cases heq
  exact hlen rfl

/-- The command with these items is executed, calls one function at most,
    and leaves memory that represents the effect of its request. -/
def Obeyed (env : Env) (g : Ghost) (who : ClientId) (store : Store) (c : Conn) (p : CmdPtr)
    (cmd : Cmd) (items : List Bytes) : Prop :=
  ∃ g' h' d' res,
    runCmd env c p cmd = .ok (answered c p items (items.map fun bs => (bs.length, bs.length))
      (request items).calls res { c.world with heap := h', dict := d' }) ∧
    g'.cmd = g.cmd ∧
    StoreRep env g' h' d' ((request items).effect store) ∧
    Spares (Gone who (request items)) g c.world.heap g' h' ∧
    ResRep g' h' store (request items) res

section runCmd

variable {env : Env} {g : Ghost} {who : ClientId} {store : Store} {c : Conn} {cmd : Cmd}
  {name : Bytes} {args : List Bytes}

theorem slot_zero : slot 0 = .ok 0 := slot_ofNat (by decide)

/-- SET key value: the name is looked at again after it has been freed. -/
theorem runCmd_set (p : CmdPtr) {key value : Bytes}
    (hst : StoreRep env g c.world.heap c.world.dict store)
    (hr : Loaded g c.world.heap who cmd [name, key, value]) (hset : isSetName name = true) :
    (¬ Phantom env cmd [name, key, value] ∧ Obeyed env g who store c p cmd [name, key, value]) ∨
    (Phantom env cmd [name, key, value] ∧ runCmd env c p cmd = .error .doubleFree) := by
  have hitems := hr.cmdItems_eq
  have hrecv := hr.cmdReceived_eq
  have h0 : ArgRep g c.world.heap who cmd 0 name := hr.arg 0 name rfl
  have h1 : ArgRep g c.world.heap who cmd 1 key := hr.arg 1 key rfl
  have h2 : ArgRep g c.world.heap who cmd 2 value := hr.arg 2 value rfl
  have hreq := request_set key value hset
  have h3 : cmd.argsNum = 3 := hr.argsNum
  have hl0 := h0
  obtain ⟨a0, hv0, -, hlen0, -⟩ := hl0
  obtain ⟨g', h', d', hcall, hghost, hrep, hsp, a, hva, n, hdead⟩ := setCmd_spec hst h3 h0 h1 h2
  -- SET has freed the name, and the second comparison reads the block again
  by_cases hphantom : isGetName (readAs (env.released a name) name.length) = true
  · -- GET is called too, and frees the name once more
    refine Or.inr ⟨⟨a, name, key, value, hva, rfl, hset, hphantom⟩, ?_⟩
    have hfree : freeItem env { c.world with heap := h', dict := d' } (cmd.value 0) =
        .error .doubleFree := by
      rw [hva]
      exact freeItem_dead hdead
    simp only [runCmd, slot_zero, bind, Except.bind, nameIs_eq h0, ← isSetName.eq_1, hset, if_true,
      hcall, nameIs_dead hva hlen0 hdead, ← isGetName.eq_1, hphantom, getCmd, h3, hfree]
    rfl
  · -- what is read there is no GET: SET alone answers
    rw [Bool.not_eq_true] at hphantom
    have hnot : ¬ Phantom env cmd [name, key, value] := by
      rintro ⟨a', name', key', value', hva', heq, -, hget⟩
      cases heq
      cases hva.symm.trans hva'
      rw [hphantom] at hget
      exact absurd hget (by simp)
    refine Or.inl ⟨hnot, g', h', d', some getOkResponse, ?_, hghost, ?_, ?_, ?_⟩
    · simp only [runCmd, slot_zero, bind, Except.bind, nameIs_eq h0, ← isSetName.eq_1, hset, if_true,
        hcall, nameIs_dead hva hlen0 hdead, ← isGetName.eq_1, hphantom, hitems, hrecv]
      rw [hreq]; rfl
    · rw [hreq]; exact hrep
    · rw [hreq]; exact hsp
    · rw [hreq]
      exact ⟨_, rfl, respRep_literal _ _ _, items_literal _ _⟩

/-- SET with the wrong number of arguments. -/
theorem runCmd_set_arity (p : CmdPtr) (hst : StoreRep env g c.world.heap c.world.dict store)
    (hr : Loaded g c.world.heap who cmd (name :: args)) (hset : isSetName name = true)
    (hlen : args.length ≠ 2) : Obeyed env g who store c p cmd (name :: args) := by
  have h0 : ArgRep g c.world.heap who cmd 0 name := hr.arg 0 name rfl
  have hreq := request_set_arity hset hlen
  have h3 : cmd.argsNum ≠ 3 := by
    rw [hr.argsNum, List.length_cons]
    omega
  have hget := isGetName_of_isSetName (hr.size_gt name List.mem_cons_self) hset
  refine ⟨g, c.world.heap, c.world.dict, some getErrResponse, ?_, rfl, ?_, fun a o n bs ho _ => ho, ?_⟩
  · simp only [runCmd, slot_zero, bind, Except.bind, nameIs_eq h0, ← isSetName.eq_1, hset, if_true,
      setCmd, if_pos h3, ← isGetName.eq_1, hget, hr.cmdItems_eq, hr.cmdReceived_eq]
    rw [hreq]; rfl
  · rw [hreq]; exact hst
  · rw [hreq]
    exact ⟨_, rfl, respRep_literal _ _ _, items_literal _ _⟩

/-- GET key; a third item is ignored. -/
theorem runCmd_get (p : CmdPtr) {key : Bytes}
    (hst : StoreRep env g c.world.heap c.world.dict store)
    (hr : Loaded g c.world.heap who cmd (name :: key :: args)) (hset : isSetName name = false)
    (hget : isGetName name = true) (hlen : args.length ≤ 1) :
    Obeyed env g who store c p cmd (name :: key :: args) := by
  have h0 : ArgRep g c.world.heap who cmd 0 name := hr.arg 0 name rfl
  have h1 : ArgRep g c.world.heap who cmd 1 key := hr.arg 1 key rfl
  have hreq : request (name :: key :: args) = .get key := by
    rcases args with _ | ⟨extra, _ | ⟨y, ys⟩⟩
    · exact (request_get key [] hset hget).1
    · exact (request_get key extra hset hget).2
    · simp at hlen
  have h23 : cmd.argsNum = 2 ∨ cmd.argsNum = 3 := by
    rw [hr.argsNum, List.length_cons, List.length_cons]
    omega
  obtain ⟨g', h', d', r, q, hcall, hghost, hrep, hsp, hresp, hint, hsent, hans, hkey, hri⟩ :=
    getCmd_spec hst h23 h0 h1
  refine ⟨g', h', d', some r, ?_, hghost, ?_, ?_, ?_⟩
  · simp only [runCmd, slot_zero, bind, Except.bind, nameIs_eq h0, ← isSetName.eq_1, hset,
      Bool.false_eq_true, if_false, ← isGetName.eq_1, hget, if_true, hcall, hr.cmdItems_eq,
      hr.cmdReceived_eq]
    rw [hreq]; rfl
  · rw [hreq]; exact hrep
  · rw [hreq]; exact hsp
  · rw [ResRep, hreq, hans]
    refine ⟨r, rfl, ?_, hri⟩
    have hq : q = ⟨q.items, (Request.get key).source store, true, 0⟩ := by
      rw [← hkey, ← hint, ← hsent]
    rw [← hq]
    exact hresp

/-- GET with the wrong number of arguments. -/
theorem runCmd_get_arity (p : CmdPtr) (hst : StoreRep env g c.world.heap c.world.dict store)
    (hr : Loaded g c.world.heap who cmd (name :: args)) (hset : isSetName name = false)
    (hget : isGetName name = true) (hlen1 : args.length ≠ 1) (hlen2 : args.length ≠ 2) :
    Obeyed env g who store c p cmd (name :: args) := by
  have h0 : ArgRep g c.world.heap who cmd 0 name := hr.arg 0 name rfl
  have hreq := request_get_arity hset hget hlen1 hlen2
  have h23 : cmd.argsNum ≠ 2 ∧ cmd.argsNum ≠ 3 := by
    rw [hr.argsNum, List.length_cons]
    omega
  refine ⟨g, c.world.heap, c.world.dict, some getErrResponse, ?_, rfl, ?_, fun a o n bs ho _ => ho, ?_⟩
  · simp only [runCmd, slot_zero, bind, Except.bind, nameIs_eq h0, ← isSetName.eq_1, hset,
      Bool.false_eq_true, if_false, ← isGetName.eq_1, hget, if_true, getCmd, if_pos h23,
      hr.cmdItems_eq, hr.cmdReceived_eq]
    rw [hreq]; rfl
  · rw [hreq]; exact hst
  · rw [hreq]
    exact ⟨_, rfl, respRep_literal _ _ _, items_literal _ _⟩

/-- Any other name: nothing is called and nothing is answered. -/
theorem runCmd_unknown (p : CmdPtr) (hst : StoreRep env g c.world.heap c.world.dict store)
    (hr : Loaded g c.world.heap who cmd (name :: args)) (hset : isSetName name = false)
    (hget : isGetName name = false) : Obeyed env g who store c p cmd (name :: args) := by
  have h0 : ArgRep g c.world.heap who cmd 0 name := hr.arg 0 name rfl
  have hreq := request_unknown args hset hget
  refine ⟨g, c.world.heap, c.world.dict, none, ?_, rfl, ?_, fun a o n bs ho _ => ho, ?_⟩
  · simp only [runCmd, slot_zero, bind, Except.bind, nameIs_eq h0, ← isSetName.eq_1, hset,
      Bool.false_eq_true, if_false, ← isGetName.eq_1, hget, hr.cmdItems_eq, hr.cmdReceived_eq]
    rw [hreq]; rfl
  · rw [hreq]; exact hst
  · rw [ResRep, hreq]; rfl

/-- **A complete command is executed, unless it is a phantom.**  Then the
    name that `SET_cmd` has freed is freed once more. -/
theorem runCmd_cases {items : List Bytes} (p : CmdPtr)
    (hst : StoreRep env g c.world.heap c.world.dict store)
    (hr : Loaded g c.world.heap who cmd items) :
    (¬ Phantom env cmd items ∧ Obeyed env g who store c p cmd items) ∨
    (Phantom env cmd items ∧ runCmd env c p cmd = .error .doubleFree) := by
  rcases items with _ | ⟨name, args⟩
  · exact absurd hr.pos (by simp)
  rcases hset : isSetName name with _ | _
  · refine Or.inl ⟨not_phantom_of_name hset, ?_⟩
    rcases hget : isGetName name with _ | _
    · exact runCmd_unknown p hst hr hset hget
    · rcases args with _ | ⟨key, args⟩
      · exact runCmd_get_arity p hst hr hset hget (by simp) (by simp)
      · by_cases hlen : args.length ≤ 1
        · exact runCmd_get p hst hr hset hget hlen
        · apply runCmd_get_arity p hst hr hset hget
          · rw [List.length_cons]; omega
          · rw [List.length_cons]; omega
  · by_cases hlen : args.length = 2
    · obtain ⟨key, value, rfl⟩ := List.length_eq_two.mp hlen
      exact runCmd_set p hst hr hset
    · exact Or.inl ⟨not_phantom_of_length hlen, runCmd_set_arity p hst hr hset hlen⟩

end runCmd

/-- **A command is executed as the ledger says.**  The only way not to get
    through is a name that reads as GET after `SET_cmd` has freed it: GET
    then frees the name once more. -/
theorem runCmd_spec {env : Env} {g : Ghost} {c : Conn} {p : CmdPtr} {cmd : Cmd} {dc : DecCmd}
    (hst : StoreRep env g c.world.heap c.world.dict (Ledger.after c.world.trace).store)
    (hr : CmdRep g c.world.heap c.me cmd dc) (hf : Full dc) :
    (∃ g' c', runCmd env c p cmd = .ok c' ∧ Executed env p dc.items g c g' c') ∨
    (runCmd env c p cmd = .error .doubleFree ∧ ¬ env.Quiet) := by
  rcases runCmd_cases p hst (hr.loaded hf) with ⟨-, hobeyed⟩ | ⟨hphantom, herr⟩
  · obtain ⟨g', h', d', res, hrun, hghost, hrep, hsp, hres⟩ := hobeyed
    refine Or.inl ⟨g', _, hrun, executed_answered h' d' res hghost hrep ?_ ?_ hres⟩
    · exact hsp.weaken fun o ho => ho.arg_or_val
    · intro me' q hq
      exact hq.disturb hsp
  · exact Or.inr ⟨herr, fun hquiet => not_phantom_of_quiet hquiet hr.size_gt hphantom⟩

/-! ## Section 5: The queue -/

theorem allCmd_idle (env : Env) {c : Conn} (hhead : c.client.recvCmdQueueHead = none) :
    allCmd env c = .ok c := by
  simp [allCmd, bind, Except.bind, hhead, runLoop, deleteLoop]

/-- The state once `CmdDeleteHead` has taken out the only command. -/
def dequeued (c : Conn) (p : CmdPtr) : Conn :=
  { c with
    client := { c.client with recvCmdQueueHead := none, recvCmdQueueTail := none }
    world := { c.world with cmds := c.world.cmds.release p } }

theorem cmdDeleteHead_single {c : Conn} {p : CmdPtr} {cmd : Cmd}
    (hhead : c.client.recvCmdQueueHead = some p) (htail : c.client.recvCmdQueueTail = some p)
    (hget : c.world.cmds.get p = some cmd) (hnext : cmd.next = none) :
    cmdDeleteHead c = .ok (dequeued c p) := by
  simp [cmdDeleteHead, hhead, htail, derefCmd_some hget, bind, Except.bind, hnext, dequeued]

/-- A queue of one complete command: it is run, then deleted. -/
theorem allCmd_single (env : Env) {g : Ghost} {c : Conn} {p : CmdPtr} {cmd : Cmd} {dc : DecCmd}
    (hr : CmdRep g c.world.heap c.me cmd dc) (hf : Full dc) (hcur : c.client.curCmdItem = none)
    (hhead : c.client.recvCmdQueueHead = some p) (htail : c.client.recvCmdQueueTail = some p)
    (hget : c.world.cmds.get p = some cmd) :
    (∀ c' g', runCmd env c p cmd = .ok c' → Executed env p dc.items g c g' c' →
      allCmd env c = .ok (dequeued c' p)) ∧
    (∀ f, runCmd env c p cmd = .error f → allCmd env c = .error f) := by
  have hcomplete := (hr.loaded hf).cmdComplete_eq
  have hpos : decide (cmd.argsNum > 0) = true := by
    rw [hr.argsNum]
    exact decide_eq_true hf.1
  have hloop : ∀ n, runLoop env (n + 1) (some p) c = (runCmd env c p cmd).bind fun c' =>
      runLoop env n none c' := by
    intro n
    simp only [runLoop, derefCmd_some hget, bind, Except.bind, hcomplete, hpos, hcur, Bool.true_and,
      ne_eq, reduceCtorEq, not_false_eq_true, decide_true, if_true, hr.next]
  obtain ⟨n, hn⟩ : ∃ n, c.world.cmds.cells.length = n + 1 :=
    Nat.exists_eq_add_one.mpr (Nat.lt_of_le_of_lt (Nat.zero_le _) (Pool.lt_of_get hget))
  constructor
  · intro c' g' hrun hex
    have hhead' : c'.client.recvCmdQueueHead = some p := by rw [hex.client]; exact hhead
    have htail' : c'.client.recvCmdQueueTail = some p := by rw [hex.client]; exact htail
    have hget' : c'.world.cmds.get p = some cmd := by rw [hex.cmds]; exact hget
    simp only [allCmd, hhead, hloop, hrun, bind, Except.bind, runLoop]
    rw [hn]
    simp only [deleteLoop, hhead', Option.isNone_some, Bool.false_eq_true, if_false,
      derefCmd_some hget', bind, Except.bind, hcomplete, if_true,
      cmdDeleteHead_single hhead' htail' hget' hr.next]
    simp [dequeued]
  · intro f hrun
    simp only [allCmd, hhead, hloop, hrun, bind, Except.bind]

section executed

variable {env : Env} {g g' : Ghost} {c c' : Conn} {p : CmdPtr} {cmd : Cmd} {items : List Bytes}

/-- A command still in the pool has not been executed. -/
theorem not_executed_of_get (hw : WorldRep env g c.world) (hget : c.world.cmds.get p = some cmd) :
    p ∉ executedCmds c.world.trace := by
  intro hmem
  have := (hw.released p hmem).2
  rw [hget] at this
  simp at this

/-- With its command deleted, no executed command is left in the pool. -/
theorem Executed.released (hex : Executed env p items g c g' c') (hw : WorldRep env g c.world)
    (hget : c.world.cmds.get p = some cmd) :
    ∀ q ∈ executedCmds (dequeued c' p).world.trace,
      q < (dequeued c' p).world.cmds.cells.length ∧ (dequeued c' p).world.cmds.get q = none := by
  obtain ⟨e, htrace, hcmd, -⟩ := hex.trace
  have hnew := not_executed_of_get hw hget
  show ∀ q ∈ executedCmds c'.world.trace, q < (c'.world.cmds.release p).cells.length ∧
    (c'.world.cmds.release p).get q = none
  rw [htrace, executedCmds_snoc, hex.cmds]
  intro q hq
  have hlen : (c.world.cmds.release p).cells.length = c.world.cmds.cells.length := by
    simp [Pool.release]
  rw [hlen]
  rcases List.mem_append.mp hq with hq | hq
  · obtain ⟨hlt, hnone⟩ := hw.released q hq
    have hqp : q ≠ p := by
      rintro rfl
      exact hnew hq
    exact ⟨hlt, by rw [Pool.get_release_ne hqp]; exact hnone⟩
  · simp only [executedCmds, List.filterMap_cons, List.filterMap_nil, List.mem_singleton] at hq
    rw [hq, hcmd]
    exact ⟨Pool.lt_of_get hget, Pool.get_release_self _ _⟩

theorem Executed.worldRep (hex : Executed env p items g c g' c') (hw : WorldRep env g c.world)
    (hget : c.world.cmds.get p = some cmd) : WorldRep env g' (dequeued c' p).world := by
  obtain ⟨e, htrace, hcmd, hitems, hrecv, hres, hcalls⟩ := hex.trace
  have hnew := not_executed_of_get hw hget
  constructor
  · show StoreRep env g' c'.world.heap c'.world.dict (Ledger.after c'.world.trace).store
    rw [htrace, Ledger.after_snoc]
    show StoreRep env g' c'.world.heap c'.world.dict ((request e.items).effect _)
    rw [hitems]
    exact hex.store
  · show Consistent c'.world.trace
    rw [htrace]
    refine consistent_snoc hw.consistent fun i e' he' => ?_
    cases he'
    rw [hitems]
    exact ⟨hres, hcalls⟩
  · show ∀ x ∈ c'.world.trace, x.Orderly
    rw [htrace]
    intro x hx
    rcases List.mem_append.mp hx with hx | hx
    · exact hw.orderly x hx
    · rw [List.mem_singleton] at hx
      subst hx
      show e.received = _
      rw [hrecv, hitems]
  · show (executedCmds c'.world.trace).Nodup
    rw [htrace, executedCmds_snoc]
    refine List.Nodup.append hw.once (by simp [executedCmds]) ?_
    intro q hq hq'
    simp only [executedCmds, List.filterMap_cons, List.filterMap_nil, List.mem_singleton] at hq'
    rw [hq', hcmd] at hq
    exact hnew hq
  · exact hex.released hw hget

/-- The executing client has handed over one more request, and owes its answer. -/
theorem Executed.clientRep {d : Dec} (hex : Executed env p items g c g' c')
    (hcur : c.client.curCmdItem = none) (hbuf : c.client.recvCmd = d.buf)
    (hpos : c.client.recvPos = d.pos) (hgot : receivedBy c.me c.world.trace = d.got)
    (hhanded : handedBy c.me c.world.trace = d.handed)
    (hqueue : QueueRep g c.world.heap c.client.sendResponseQueue
      ((Ledger.after c.world.trace).pending c.me)) :
    ClientRep g' (dequeued c' p).world (dequeued c' p).me (dequeued c' p).client
      { d with cur := none, handed := d.handed ++ [items] } := by
  obtain ⟨e, htrace, -, hitems, -⟩ := hex.trace
  constructor
  · show c'.client.recvCmd = d.buf
    rw [hex.client]; exact hbuf
  · show c'.client.recvPos = d.pos
    rw [hex.client]; exact hpos
  · show receivedBy c'.me c'.world.trace = d.got
    rw [htrace, hex.me, receivedBy_snoc, hgot]
    simp [receivedBy]
  · show handedBy c'.me c'.world.trace = d.handed ++ [items]
    rw [htrace, hex.me, handedBy_snoc, hhanded]
    simp [handedBy, hitems]
  · show QueueRep g' c'.world.heap c'.client.sendResponseQueue
      ((Ledger.after c'.world.trace).pending c'.me)
    rw [htrace, hex.me, Ledger.after_snoc]
    show QueueRep _ _ _ (((Ledger.after c.world.trace).execute c.me (request e.items)).pending c.me)
    rw [hitems]
    exact hex.queue hqueue
  · refine ⟨?_, rfl, rfl⟩
    show c'.client.curCmdItem = none
    rw [hex.client]; exact hcur

/-- Another client's command is neither executed nor deleted. -/
theorem Executed.curRep_other {me' : ClientId} {cl : ClientStat} {o : Option DecCmd}
    (hex : Executed env p items g c g' c') (howner : g.cmd p = c.me) (hne : me' ≠ c.me)
    (hc : CurRep g c.world me' cl o) : CurRep g' (dequeued c' p).world me' cl o := by
  rcases o with _ | dc
  · exact hc
  · obtain ⟨q, cmd', hq, hqh, hqt, hqget, hqo, hqr⟩ := hc
    have hqp : q ≠ p := by
      rintro rfl
      exact hne (hqo.symm.trans howner)
    refine ⟨q, cmd', hq, hqh, hqt, ?_, by rw [hex.ghost]; exact hqo, ?_⟩
    · show (c'.world.cmds.release p).get q = some cmd'
      rw [Pool.get_release_ne hqp, hex.cmds]
      exact hqget
    · -- only the executing client's arguments may have been taken
      refine hqr.mono fun a i n bs ho => hex.spares _ _ _ _ ho ?_
      rintro (⟨j, hj⟩ | ⟨k, hk⟩)
      · cases hj
        exact hne rfl
      · simp at hk

theorem Executed.others_rep {me' : ClientId} {cl : ClientStat} {d' : Dec}
    (hex : Executed env p items g c g' c') (howner : g.cmd p = c.me) (hne : me' ≠ c.me)
    (h : ClientRep g c.world me' cl d') : ClientRep g' (dequeued c' p).world me' cl d' := by
  obtain ⟨e, htrace, -, hitems, -⟩ := hex.trace
  have hother : ∀ y ∈ [Happened.executed c.me e], y.client ≠ me' := by
    simp [Happened.client, hne.symm]
  refine ⟨h.buf, h.pos, ?_, ?_, ?_, hex.curRep_other howner hne h.cur⟩
  · show receivedBy me' c'.world.trace = d'.got
    rw [htrace, receivedBy_append_other hother]; exact h.got
  · show handedBy me' c'.world.trace = d'.handed
    rw [htrace, handedBy_append_other hother]; exact h.handed
  · show QueueRep g' c'.world.heap cl.sendResponseQueue
      ((Ledger.after c'.world.trace).pending me')
    rw [htrace, Ledger.after_snoc]
    show QueueRep _ _ _ (((Ledger.after c.world.trace).execute c.me (request e.items)).pending me')
    rw [hitems, Ledger.execute_pending_other _ hne]
    exact hex.others me' _ h.queue

theorem Executed.frame (hex : Executed env p items g c g' c') (howner : g.cmd p = c.me) :
    Frame Happened.Receiving g c g' (dequeued c' p) := by
  obtain ⟨e, htrace, -⟩ := hex.trace
  refine ⟨hex.me, ?_, ?_, ?_, ⟨_, htrace, by simp [Happened.client, Happened.Receiving]⟩,
    fun me' cl d' hne h => hex.others_rep howner hne h⟩
  · show c'.client.fd = c.client.fd
    rw [hex.client]
  · show c'.client.next = c.client.next
    rw [hex.client]
  · show c'.client.pre = c.client.pre
    rw [hex.client]

end executed

/-- **The execution of a completed command, seen from its client.** -/
theorem allCmd_spec {env : Env} {g : Ghost} {c : Conn} {d : Dec} {p : CmdPtr} {cmd : Cmd}
    {dc : DecCmd} (hw : WorldRep env g c.world) (hr : CmdRep g c.world.heap c.me cmd dc)
    (hf : Full dc) (hcur : c.client.curCmdItem = none)
    (hhead : c.client.recvCmdQueueHead = some p) (htail : c.client.recvCmdQueueTail = some p)
    (hget : c.world.cmds.get p = some cmd) (howner : g.cmd p = c.me)
    (hbuf : c.client.recvCmd = d.buf) (hpos : c.client.recvPos = d.pos)
    (hgot : receivedBy c.me c.world.trace = d.got)
    (hhanded : handedBy c.me c.world.trace = d.handed)
    (hqueue : QueueRep g c.world.heap c.client.sendResponseQueue
      ((Ledger.after c.world.trace).pending c.me)) :
    (∃ g' c', allCmd env c = .ok c' ∧
      ConnRep env g' c' { d with cur := none, handed := d.handed ++ [dc.items] } ∧
      Frame Happened.Receiving g c g' c') ∨
    (allCmd env c = .error .doubleFree ∧ ¬ env.Quiet) := by
  obtain ⟨hok, herr⟩ := allCmd_single env hr hf hcur hhead htail hget
  rcases runCmd_spec (p := p) hw.store hr hf with ⟨g', c', hrun, hex⟩ | ⟨hrun, hquiet⟩
  · refine Or.inl ⟨g', dequeued c' p, hok c' g' hrun hex, ⟨?_, ?_⟩, ?_⟩
    · exact hex.worldRep hw hget
    · exact hex.clientRep hcur hbuf hpos hgot hhanded hqueue
    · exact hex.frame howner
  · exact Or.inr ⟨herr _ hrun, hquiet⟩

end BoAtom
