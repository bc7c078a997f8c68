import BoAtom.Mem.AllCmd
import BoAtom.Mem.Turns
import BoAtom.Lib.Machine

/-! # The server follows the decoder

    Every function of the receiving side, run on memory that represents a
    decoder state, ends in memory that represents the state the decoder
    ends in, or stops with the decoder's fault.  The one fault of its own
    is the double free of `runCmd_spec`.  Along the way the work on one
    client leaves the others alone (`Frame`). -/

namespace BoAtom

open Memory Machine Loop

/-! ## Section 1: Relations -/

/-- The fault the decoder knows nothing of. -/
def OwnFault (env : Env) (f : Fault) : Prop := f = .doubleFree ∧ ¬ env.Quiet

/-- A state reached from `c` that represents `d`. -/
def Follows (env : Env) (g : Ghost) (c : Conn) (c' : Conn) (d : Dec) : Prop :=
  ∃ g', ConnRep env g' c' d ∧ Frame Happened.Receiving g c g' c'

def FlowSim (R : Conn → Dec → Prop) : Flow Conn → Flow Dec → Prop
  | .ret code c, .ret code' d => code = code' ∧ R c d
  | .next pre c, .next pre' d => pre = pre' ∧ R c d
  | _, _ => False

variable {env : Env} {g g' : Ghost} {c c' : Conn} {d : Dec}

theorem Follows.refl (h : ConnRep env g c d) : Follows env g c c d := ⟨g, h, Frame.refl g c⟩

theorem Follows.after (hf : Frame Happened.Receiving g c g' c') {c'' : Conn} (h : Follows env g' c' c'' d) :
    Follows env g c c'' d := by
  obtain ⟨g'', hrep, hframe⟩ := h
  exact ⟨g'', hrep, hf.trans hframe⟩

theorem FlowSim.mono {R S : Conn → Dec → Prop} (h : ∀ c d, R c d → S c d) {x : Flow Conn}
    {y : Flow Dec} (hxy : FlowSim R x y) : FlowSim S x y := by
  match x, y, hxy with
  | .ret _ _, .ret _ _, hxy => exact ⟨hxy.1, h _ _ hxy.2⟩
  | .next _ _, .next _ _, hxy => exact ⟨hxy.1, h _ _ hxy.2⟩

/-- What a state reached from `c` leads to is reached from `c`. -/
theorem flow_after {x : Except Fault (Flow Conn)} {y : Except Fault (Flow Dec)}
    (hf : Frame Happened.Receiving g c g' c') (h : Simulates (OwnFault env) (FlowSim (Follows env g' c')) x y) :
    Simulates (OwnFault env) (FlowSim (Follows env g c)) x y :=
  h.mono fun _ _ => FlowSim.mono fun _ _ => Follows.after hf

/-! ## Section 2: Small changes to the client -/

/-- The buffer and the position are the client's own. -/
theorem ConnRep.rebuf (h : ConnRep env g c d) (buf : RecvBuf) (pos : Nat) :
    ConnRep env g { c with client := { c.client with recvCmd := buf, recvPos := pos } }
      { d with buf := buf, pos := pos } :=
  ⟨h.world, ⟨rfl, rfl, h.client.got, h.client.handed, h.client.queue, h.client.cur⟩⟩

theorem ConnRep.repos (h : ConnRep env g c d) (pos : Nat) :
    ConnRep env g { c with client := { c.client with recvPos := pos } } { d with pos := pos } :=
  ⟨h.world, ⟨h.client.buf, rfl, h.client.got, h.client.handed, h.client.queue, h.client.cur⟩⟩

theorem frame_rebuf (g : Ghost) (c : Conn) (buf : RecvBuf) (pos : Nat) :
    Frame Happened.Receiving g c g { c with client := { c.client with recvCmd := buf, recvPos := pos } } :=
  ⟨rfl, rfl, rfl, rfl, ⟨[], by simp, by simp⟩, fun _ _ _ _ h => h⟩

theorem follows_repos (h : ConnRep env g c d) (pos : Nat) :
    Follows env g c { c with client := { c.client with recvPos := pos } } { d with pos := pos } :=
  ⟨g, h.repos pos, frame_rebuf g c c.client.recvCmd pos⟩

theorem follows_keepFrom (h : ConnRep env g c d) (total pre : Nat) :
    Follows env g c { c with client := keepFrom c.client total pre } (d.keepFrom total pre) := by
  unfold keepFrom Dec.keepFrom
  by_cases hpre : pre ≠ 0
  · rw [if_pos hpre, if_pos hpre, h.client.buf]
    exact ⟨g, h.rebuf _ _, frame_rebuf g c _ _⟩
  · rw [if_neg hpre, if_neg hpre]
    exact Follows.refl h

/-- Asking to be told when the socket is writable touches the event loop
    only. -/
theorem follows_registerWrite (h : ConnRep env g c d) : Follows env g c (registerWrite c) d := by
  unfold registerWrite
  split
  · exact ⟨g, h.reloop _, frame_reloop g c _⟩
  · exact Follows.refl h

/-! ## Section 3: A header -/

theorem scanHeader_count_ne {buf : RecvBuf} {total pre stop : Nat} {num : Int}
    (h : scanHeader buf total pre = .count num stop) : num ≠ 0 := by
  unfold scanHeader at h
  split at h
  · simp at h
  · simp only at h
    split at h
    · simp at h
    · split at h
      · simp at h
      · split at h
        · simp at h
        · next hne =>
          simp only [HeaderScan.count.injEq] at h
          exact h.1 ▸ hne

theorem slotAt_start (num : Int) (i : Nat) : (DecCmd.start num).slotAt i = none := by
  simp only [DecCmd.slotAt, DecCmd.start, List.length_nil, Nat.not_lt_zero, if_false]
  exact ite_self _

theorem cmdRep_newCmd {h : Heap} {me : ClientId} {num : Int} (hne : num ≠ 0) :
    CmdRep g h me (newCmd num) (.start num) := by
  refine ⟨rfl, rfl, rfl, fun i => ?_, by simp [DecCmd.start], by simp [DecCmd.start], hne,
    Nat.zero_le _, fun h => le_of_lt h⟩
  rw [slotAt_start]
  exact ⟨rfl, rfl, rfl⟩

/-- The state once a header has been accepted. -/
def started (c : Conn) (buf : RecvBuf) (num : Int) (loop : AeEventLoop FileProc ClientId) : Conn :=
  let p := c.world.cmds.cells.length
  { c with
    client := { c.client with
      recvCmd := buf
      curCmdItem := some p
      recvCmdQueueHead := some p
      recvCmdQueueTail := some p }
    world := { c.world with
      cmds := ((c.world.cmds.alloc (newCmd num)).2.set p (newCmd num))
      loop := loop
      trace := c.world.trace ++ [.inserted c.me p true] } }

theorem local_started (g : Ghost) (c : Conn) (buf : RecvBuf) (num : Int)
    (loop : AeEventLoop FileProc ClientId) :
    Local c.me g c.world { g with cmd := Function.update g.cmd c.world.cmds.cells.length c.me }
      (started c buf num loop).world := by
  have hcells : ∀ p, p < c.world.cmds.cells.length →
      ((c.world.cmds.alloc (newCmd num)).2.set c.world.cmds.cells.length (newCmd num)).get p =
        c.world.cmds.get p := by
    intro p hp
    rw [Pool.get_set_ne (Nat.ne_of_lt hp), Pool.get_alloc_old hp]
  refine ⟨fun a _ _ _ => ⟨rfl, rfl⟩, fun p hp hne => ⟨?_, hcells p hp⟩, fun p hp hnone => ⟨?_, ?_⟩,
    rfl, ?_, fun me' hne => ?_, fun me' hne => ?_, fun me' hne => ?_⟩
  · exact Function.update_of_ne (Nat.ne_of_lt hp) _ _
  · simp only [started, Pool.set, Pool.alloc, List.length_set, List.length_append]
    omega
  · exact (hcells p hp).trans hnone
  · simp [started, Ledger.next]
  · simp [started, Ledger.next]
  · exact receivedBy_append_other (by simp [Happened.client, hne.symm])
  · exact handedBy_append_other (by simp [Happened.client, hne.symm])

theorem started_rep (h : ConnRep env g c d) {buf : RecvBuf} {num : Int} (hne : num ≠ 0)
    (loop : AeEventLoop FileProc ClientId) :
    Follows env g c (started c buf num loop) { d with buf := buf, cur := some (.start num) } := by
  have hl := local_started g c buf num loop
  refine ⟨_, ⟨hl.worldRep h.world rfl (by simp [Happened.Orderly]), ⟨rfl, h.client.pos, ?_, ?_, ?_, ?_⟩⟩,
    hl.frame rfl rfl rfl rfl rfl (by simp [Happened.client, Happened.Receiving])⟩
  · show receivedBy c.me (c.world.trace ++ [_]) = d.got
    rw [receivedBy_snoc, h.client.got]
    simp [receivedBy]
  · show handedBy c.me (c.world.trace ++ [_]) = d.handed
    rw [handedBy_snoc, h.client.handed]
    simp [handedBy]
  · have hq := hl.queueRep h.client.queue
    simpa [started, Ledger.next] using hq
  · refine ⟨_, newCmd num, rfl, rfl, rfl, ?_, Function.update_self _ _ _, cmdRep_newCmd hne⟩
    exact Pool.get_set_self (Pool.get_alloc_new _ _)

theorem headerStage_sim (h : ConnRep env g c d) (hcur : d.cur = none) (total pre : Nat) :
    Simulates (OwnFault env) (FlowSim (Follows env g c)) (headerStage env total pre c)
      (.ok (d.headerStage total pre)) := by
  have hc := h.client.cur
  rw [hcur] at hc
  obtain ⟨-, hhead, htail⟩ := hc
  unfold headerStage Dec.headerStage
  rw [h.client.buf]
  -- both stages read the same bytes, so they take the same branch
  rcases hscan : scanHeader d.buf total pre with _ | pre' | _ | stop | ⟨num, stop⟩
  · exact ⟨rfl, follows_repos h 0⟩
  · exact ⟨rfl, follows_keepFrom h total pre'⟩
  · exact ⟨rfl, Follows.refl h⟩
  · exact ⟨rfl, g, ⟨h.world, ⟨rfl, h.client.pos, h.client.got, h.client.handed, h.client.queue,
      h.client.cur⟩⟩, frame_rebuf g c (d.buf.write stop [0]) c.client.recvPos⟩
  · -- ALL_cmd finds an empty queue, and so does CmdInsert
    have hnum : num ≠ 0 := scanHeader_count_ne hscan
    set c1 : Conn := { c with
      client := { c.client with
        recvCmd := d.buf.write stop [0], curCmdItem := some c.world.cmds.cells.length }
      world := { c.world with cmds := (c.world.cmds.alloc (newCmd num)).2 } } with hc1
    have hall : allCmd env c1 = .ok c1 := allCmd_idle env hhead
    obtain ⟨loop, hreg⟩ : ∃ loop, registerWrite c1 = { c1 with world := { c1.world with loop := loop } } := by
      unfold registerWrite
      split
      · exact ⟨_, rfl⟩
      · exact ⟨c1.world.loop, rfl⟩
    have hget : (c.world.cmds.alloc (newCmd num)).2.get c.world.cmds.cells.length =
        some (newCmd num) := Pool.get_alloc_new _ _
    have hins : cmdInsert (registerWrite c1) c.world.cmds.cells.length =
        .ok (started c (d.buf.write stop [0]) num loop) := by
      rw [hreg]
      simp only [cmdInsert, derefCmd, hc1, hget, hhead, htail, bind, Except.bind, World.log,
        World.setCmd, Option.isNone_none, Bool.and_self, if_true]
      rfl
    show Simulates _ _ ((allCmd env c1).bind fun c2 =>
      (cmdInsert (registerWrite c2) c.world.cmds.cells.length).bind fun c3 => Except.ok (Flow.next (stop + 2) c3)) _
    rw [hall]
    simp only [Except.bind, hins]
    exact ⟨rfl, started_rep h hnum loop⟩

/-! ## Section 4: Filling an argument -/

theorem slotAt_part_ne {dc : DecCmd} {x : Option (Nat × Bytes)} {j : Nat}
    (hj : j ≠ dc.items.length) : ({ dc with part := x } : DecCmd).slotAt j = dc.slotAt j := by
  simp only [DecCmd.slotAt, if_neg hj]

theorem slotAt_snoc_ne {dc : DecCmd} {bs : Bytes} {j : Nat} (hj : j ≠ dc.items.length) :
    ({ dc with items := dc.items ++ [bs], part := none } : DecCmd).slotAt j = dc.slotAt j := by
  simp only [DecCmd.slotAt, if_neg hj, List.length_append, List.length_singleton]
  by_cases hlt : j < dc.items.length
  · rw [if_pos hlt, if_pos (by omega), List.getElem?_append_left hlt]
  · rw [if_neg hlt, if_neg (by omega)]
    exact ite_self _

/-- From `cmd` to `cmd'` only argument `i` changes, the one being received:
    it has its block now, of size `n`, which holds `bs`. -/
structure Fills (g : Ghost) (h : Heap) (g' : Ghost) (h' : Heap) (me : ClientId) (cmd cmd' : Cmd)
    (i : Fin cmdArgsMax) (n : Nat) (bs : Bytes) : Prop where
  other : ∀ j, j ≠ i → cmd'.value j = cmd.value j ∧ cmd'.itemLength j = cmd.itemLength j ∧
    cmd'.itemPos j = cmd.itemPos j
  slot : SlotRep g' h' me i (cmd'.value i) (cmd'.itemLength i) (cmd'.itemPos i) (some (n, bs))
  argsNum : cmd'.argsNum = cmd.argsNum
  next : cmd'.next = cmd.next
  keep : ∀ b j m cs, j ≠ i.val → Owns g h b (.arg me j) m cs → Owns g' h' b (.arg me j) m cs
  size : 5 < n

section fills

variable {h h' : Heap} {me : ClientId} {cmd cmd' : Cmd} {dc : DecCmd} {i : Fin cmdArgsMax} {n : Nat}
  {bs : Bytes}

theorem Fills.slots (hf : Fills g h g' h' me cmd cmd' i n bs) (hr : CmdRep g h me cmd dc)
    {j : Fin cmdArgsMax} (hj : j ≠ i) :
    SlotRep g' h' me j (cmd'.value j) (cmd'.itemLength j) (cmd'.itemPos j) (dc.slotAt j) := by
  obtain ⟨h1, h2, h3⟩ := hf.other j hj
  rw [h1, h2, h3]
  have hs := hr.slots j
  rcases hslot : dc.slotAt j with _ | ⟨m, cs⟩
  · rw [hslot] at hs
    exact hs
  · rw [hslot] at hs
    obtain ⟨b, hbv, hbo, hbl, hbp⟩ := hs
    exact ⟨b, hbv, hf.keep b j m cs (fun hji => hj (Fin.ext hji)) hbo, hbl, hbp⟩

/-- More of the item is still to come. -/
theorem Fills.part (hf : Fills g h g' h' me cmd cmd' i n bs) (hr : CmdRep g h me cmd dc)
    (hi : i.val = dc.items.length) (hcur : cmd'.curItem = cmd.curItem) (hlt : bs.length < n) :
    CmdRep g' h' me cmd' { dc with part := some (n, bs) } := by
  refine ⟨hf.argsNum.trans hr.argsNum, hcur.trans hr.curItem, hf.next.trans hr.next, fun j => ?_,
    hr.size_gt, ?_, hr.argc_ne, hr.items_le, hr.items_le_argc⟩
  · by_cases hj : j = i
    · subst hj
      have hslot : ({ dc with part := some (n, bs) } : DecCmd).slotAt j = some (n, bs) := by
        rw [hi]
        exact DecCmd.slotAt_part { dc with part := some (n, bs) }
      rw [hslot]
      exact hf.slot
    · rw [slotAt_part_ne fun hjl => hj (Fin.ext (hjl.trans hi.symm))]
      exact hf.slots hr hj
  · intro m cs hm
    simp only [Option.some.injEq, Prod.mk.injEq] at hm
    obtain ⟨rfl, rfl⟩ := hm
    exact ⟨hlt, hf.size, hi ▸ i.isLt⟩

/-- The item is complete. -/
theorem Fills.item (hf : Fills g h g' h' me cmd cmd' i n bs) (hr : CmdRep g h me cmd dc)
    (hi : i.val = dc.items.length) (hcur : cmd'.curItem = cmd.curItem + 1) (hlen : bs.length = n)
    (hmore : (dc.items.length : Int) < dc.argc) :
    CmdRep g' h' me cmd' { dc with items := dc.items ++ [bs], part := none } := by
  refine ⟨hf.argsNum.trans hr.argsNum, ?_, hf.next.trans hr.next, fun j => ?_, ?_, by simp,
    hr.argc_ne, ?_, ?_⟩
  · rw [hcur, hr.curItem]; simp
  · by_cases hj : j = i
    · subst hj
      have hslot : ({ dc with items := dc.items ++ [bs], part := none } : DecCmd).slotAt j =
          some (n, bs) := by
        rw [← hlen]
        apply DecCmd.slotAt_item
        rw [hi]
        simp
      rw [hslot]
      exact hf.slot
    · rw [slotAt_snoc_ne fun hjl => hj (Fin.ext (hjl.trans hi.symm))]
      exact hf.slots hr hj
  · intro x hx
    rcases List.mem_append.mp hx with hx | hx
    · exact hr.size_gt x hx
    · rw [List.mem_singleton] at hx
      rw [hx, hlen]
      exact hf.size
  · simp only [List.length_append, List.length_singleton]
    have := i.isLt
    omega
  · intro _
    simp only [List.length_append, List.length_singleton]
    omega

end fills

/-- Work on the commands of `me`, and on blocks only its arguments may
    use, is local. -/
theorem local_change {me : ClientId} {w : World} (g' : Ghost) (h' : Heap) (cmds' : Pool Cmd)
    (ext : List Happened) (hcmd : g'.cmd = g.cmd)
    (hblock : ∀ a, a < w.heap.blocks.length → (∀ i, g.block a ≠ .arg me i) →
      g'.block a = g.block a ∧ h'.blocks[a]? = w.heap.blocks[a]?)
    (hother : ∀ q, q < w.cmds.cells.length → g.cmd q ≠ me → cmds'.get q = w.cmds.get q)
    (hreleased : ∀ q, q < w.cmds.cells.length → w.cmds.get q = none →
      q < cmds'.cells.length ∧ cmds'.get q = none)
    (hext : ∀ x ∈ ext, x.client = me ∧ ∀ l : Ledger, l.next x = l) :
    Local me g w g' { w with heap := h', cmds := cmds', trace := w.trace ++ ext } := by
  have hledger : Ledger.after (w.trace ++ ext) = Ledger.after w.trace := by
    rw [Ledger.after, List.foldl_append, ← Ledger.after]
    generalize Ledger.after w.trace = l
    induction ext with
    | nil => rfl
    | cons x ext ih =>
      rw [List.foldl_cons, (hext x List.mem_cons_self).2 l]
      exact ih fun y hy => hext y (List.mem_cons_of_mem _ hy)
  have hclient : ∀ me', me' ≠ me → ∀ y ∈ ext, y.client ≠ me' := by
    intro me' hne y hy
    rw [(hext y hy).1]
    exact hne.symm
  exact ⟨fun a ha hown _ => hblock a ha hown, fun q hq hne => ⟨by rw [hcmd], hother q hq hne⟩,
    hreleased, rfl, by rw [hledger], fun me' _ => by rw [hledger],
    fun me' hne => receivedBy_append_other (hclient me' hne),
    fun me' hne => handedBy_append_other (hclient me' hne)⟩

/-- The command `p` of `me` is written to. -/
theorem local_write {me : ClientId} {w : World} (g' : Ghost) (h' : Heap) (cmd' : Cmd)
    (ext : List Happened) {p : CmdPtr} {cmd : Cmd} (hget : w.cmds.get p = some cmd)
    (howner : g.cmd p = me) (hcmd : g'.cmd = g.cmd)
    (hblock : ∀ a, a < w.heap.blocks.length → (∀ i, g.block a ≠ .arg me i) →
      g'.block a = g.block a ∧ h'.blocks[a]? = w.heap.blocks[a]?)
    (hext : ∀ x ∈ ext, x.client = me ∧ ∀ l : Ledger, l.next x = l) :
    Local me g w g' { w with
      heap := h', cmds := w.cmds.set p cmd', trace := w.trace ++ ext } := by
  refine local_change g' h' _ ext hcmd hblock (fun q hq hne => ?_) (fun q hq hnone => ⟨?_, ?_⟩) hext
  · have hqp : q ≠ p := by
      rintro rfl
      exact hne howner
    exact Pool.get_set_ne hqp
  · simpa [Pool.set] using hq
  · have hqp : q ≠ p := by
      rintro rfl
      rw [hget] at hnone
      simp at hnone
    exact (Pool.get_set_ne hqp).trans hnone

/-! ## Section 5: An item in the buffer -/

theorem owns_append {h : Heap} {a : Addr} {o : Owner} {n : Nat} {bs : Bytes} {b : Block}
    (o' : Owner) (ho : Owns g h a o n bs) :
    Owns (g.give h.blocks.length o') ⟨h.blocks ++ [b]⟩ a o n bs := by
  refine ho.other (Nat.ne_of_lt ho.lt) ?_
  simp [List.getElem?_append_left ho.lt]

theorem copied_rep {dc dc' : DecCmd} {p : CmdPtr} {cmd cmd' : Cmd} {num : Nat} {bs : Bytes}
    (h : ConnRep env g c d) (hcur : c.client.curCmdItem = some p)
    (hhead : c.client.recvCmdQueueHead = some p) (htail : c.client.recvCmdQueueTail = some p)
    (hget : c.world.cmds.get p = some cmd) (howner : g.cmd p = c.me) (pos : Nat)
    (hrep : CmdRep (g.give c.world.heap.blocks.length (.arg c.me dc.items.length))
      ⟨c.world.heap.blocks ++ [⟨num, bs, true⟩]⟩ c.me cmd' dc') :
    Follows env g c (copied c p cmd' num bs pos) { d with pos := pos, cur := some dc' } := by
  have hl : Local c.me g c.world (g.give c.world.heap.blocks.length (.arg c.me dc.items.length))
      (copied c p cmd' num bs pos).world := by
    have := local_write (g.give c.world.heap.blocks.length (.arg c.me dc.items.length))
      ⟨c.world.heap.blocks ++ [⟨num, bs, true⟩]⟩ cmd' [] hget howner rfl
      (fun a ha _ => ⟨g.give_ne _ (Nat.ne_of_lt ha), List.getElem?_append_left ha⟩) (by simp)
    rwa [List.append_nil] at this
  have htrace : (copied c p cmd' num bs pos).world.trace = c.world.trace ++ [] := by
    simp [copied]
  exact ⟨_, ⟨hl.worldRep h.world htrace (by simp), ⟨h.client.buf, rfl, h.client.got,
    h.client.handed, hl.queueRep h.client.queue, p, cmd', hcur, hhead, htail,
    Pool.get_set_self hget, howner, hrep⟩⟩, hl.frame rfl rfl rfl rfl htrace (by simp)⟩

/-- The decoder's turn at an item of `num` bytes. -/
theorem dec_itemTurn_size {total pre num : Nat} {dc : DecCmd} (hdc : d.cur = some dc)
    (hmore : (dc.items.length : Int) < dc.argc) (hscan : scanItem d.buf total pre = .size num)
    (hlt : dc.items.length < cmdArgsMax) :
    Dec.itemTurn total (pre, d) =
      if pre + num > total then
        .ok (.leaves (.ret 0 { d with
          pos := 0, cur := some { dc with part := some (num, d.buf.slice pre total) } }))
      else
        .ok (.goes (pre + num, { d with
          cur := some { dc with
            items := dc.items ++ [d.buf.slice pre (pre + num)], part := none } })) := by
  simp only [Dec.itemTurn, hdc, if_neg (not_not.mpr hmore), hscan, ge_iff_le,
    if_neg (Nat.not_le_of_lt hlt)]

/-- A new block becomes the argument's. -/
theorem fills_malloc {h : Heap} {me : ClientId} (cmd : Cmd) {num k : Nat} (bs : Bytes)
    (i : Fin cmdArgsMax) (hnum : 5 < num) :
    Fills g h (g.give h.blocks.length (.arg me i.val)) ⟨h.blocks ++ [⟨num, bs, true⟩]⟩ me cmd
      { cmd with
        itemLength := Function.update cmd.itemLength i num
        value := Function.update cmd.value i (some h.blocks.length)
        itemPos := Function.update cmd.itemPos i bs.length
        curItem := k } i num bs :=
  ⟨fun j hj => ⟨Function.update_of_ne hj _ _, Function.update_of_ne hj _ _,
      Function.update_of_ne hj _ _⟩,
    ⟨h.blocks.length, Function.update_self _ _ _, ⟨by simp, by simp [Heap.Holds]⟩,
      Function.update_self _ _ _, Function.update_self _ _ _⟩,
    rfl, rfl, fun b j m cs _ ho => owns_append _ ho, hnum⟩

/-- The two loops at the same place. -/
def SamePlace (R : Conn → Dec → Prop) (s : Nat × Conn) (t : Nat × Dec) : Prop :=
  s.1 = t.1 ∧ R s.2 t.2

/-- **One turn of the item loop.** -/
theorem itemTurn_sim {total : Nat} (htotal : total ≤ clientRecvCmdLength) (pre : Nat)
    (h : ConnRep env g c d) :
    Simulates (OwnFault env) (TurnSim (SamePlace (Follows env g c)) (FlowSim (Follows env g c)))
      (itemTurn total (pre, c)) (Dec.itemTurn total (pre, d)) := by
  have hc := h.client.cur
  rcases hdc : d.cur with _ | dc
  · -- `cmd(_stat)` is NULL
    rw [hdc] at hc
    simp only [itemTurn, Dec.itemTurn, hdc, hc.1, derefCmd, bind, Except.bind]
    exact Simulates.error _
  rw [hdc] at hc
  obtain ⟨p, cmd, hcur, hhead, htail, hget, howner, hr⟩ := hc
  have hargs := hr.argsNum
  have hitem := hr.curItem
  by_cases hmore : (dc.items.length : Int) < dc.argc
  swap
  · simp only [itemTurn, Dec.itemTurn, hdc, hcur, derefCmd_some hget, bind, Except.bind, hargs,
      hitem, if_pos hmore]
    exact ⟨rfl, Follows.refl h⟩
  have hmore' : (cmd.curItem : Int) < cmd.argsNum := by rw [hitem, hargs]; exact hmore
  have hbuf := h.client.buf
  rcases hscan : scanItem d.buf total pre with _ | _ | _ | _ | num
  case size =>
    have hscan' : scanItem c.client.recvCmd total pre = .size num := by rw [hbuf]; exact hscan
    obtain ⟨hpre, hnum⟩ := scanItem_size hscan
    by_cases hlt : dc.items.length < cmdArgsMax
    swap
    · -- item 512 of a command: both sides index past the arrays
      have hslot := slot_error (Nat.le_of_not_lt hlt)
      have hge : dc.items.length ≥ cmdArgsMax := Nat.le_of_not_lt hlt
      have hx : itemTurn total (pre, c) = .error (.cmdIndex dc.items.length) := by
        simp only [itemTurn, hcur, derefCmd_some hget, bind, Except.bind, hargs, hitem,
          if_neg (not_not.mpr hmore), hscan', hslot]
      have hy : Dec.itemTurn total (pre, d) = .error (.cmdIndex dc.items.length) := by
        simp only [Dec.itemTurn, hdc, if_neg (not_not.mpr hmore), hscan, if_pos hge]
      rw [hx, hy]
      exact Simulates.error _
    have hslot : slot cmd.curItem = .ok ⟨dc.items.length, hlt⟩ := by
      rw [hitem]; exact slot_ofNat hlt
    rw [itemTurn_size hcur hget hmore' hscan' hslot, dec_itemTurn_size hdc hmore hscan hlt, hbuf]
    by_cases hpart : pre + num > total
    · -- the item goes on behind the received bytes
      have hlen : (d.buf.slice pre total).length = total - pre := d.buf.length_slice htotal
      rw [if_pos hpart, if_pos hpart]
      have hrep := (fills_malloc cmd (k := cmd.curItem) (d.buf.slice pre total)
        ⟨dc.items.length, hlt⟩ hnum).part hr rfl rfl (by rw [hlen]; omega)
      rw [hlen] at hrep
      exact ⟨rfl, copied_rep h hcur hhead htail hget howner 0 hrep⟩
    · -- the item is complete, and the loop goes on behind it
      have hlen : (d.buf.slice pre (pre + num)).length = num := by
        rw [d.buf.length_slice (by omega)]; omega
      rw [if_neg hpart, if_neg hpart, h.client.pos]
      have hrep := (fills_malloc cmd (k := cmd.curItem + 1) (d.buf.slice pre (pre + num))
        ⟨dc.items.length, hlt⟩ hnum).item hr rfl rfl hlen hmore
      rw [hlen] at hrep
      exact ⟨rfl, copied_rep h hcur hhead htail hget howner d.pos hrep⟩
  -- without a size both stop, with the same code and the same rest kept
  all_goals
    simp only [itemTurn, Dec.itemTurn, hdc, hcur, derefCmd_some hget, bind, Except.bind, hargs,
      hitem, if_neg (not_not.mpr hmore), hbuf, hscan]
  · exact ⟨rfl, by simpa only [hdc, hcur, hbuf] using follows_repos h 0⟩
  · exact ⟨rfl, Follows.refl h⟩
  · exact ⟨rfl, follows_keepFrom h total pre⟩
  · exact ⟨rfl, Follows.refl h⟩

theorem itemLoop_sim {total : Nat} (htotal : total ≤ clientRecvCmdLength) (fuel pre : Nat)
    (h : ConnRep env g c d) :
    Simulates (OwnFault env) (FlowSim (Follows env g c)) (itemLoop total fuel pre c)
      (d.itemLoop total fuel pre) := by
  rw [itemLoop_eq, Dec.itemLoop_eq]
  apply iterate_simulates (R := SamePlace (Follows env g c))
  · rintro ⟨pre₁, c₁⟩ ⟨pre₂, d₁⟩ ⟨hpre, g₁, hrep, hframe⟩
    obtain rfl : pre₁ = pre₂ := hpre
    apply (itemTurn_sim htotal pre₁ hrep).mono
    intro x y
    exact TurnSim.mono (fun _ _ hst => ⟨hst.1, hst.2.after hframe⟩)
      (fun _ _ => FlowSim.mono fun _ _ => Follows.after hframe)
  · exact ⟨rfl, Follows.refl h⟩

/-! ## Section 6: The end of a command -/

theorem completeCmd_sim {dc : DecCmd} (h : ConnRep env g c d) (hdc : d.cur = some dc)
    (hfull : (dc.items.length : Int) ≥ dc.argc) :
    Simulates (OwnFault env) (Follows env g c) (completeCmd env c) (Dec.complete dc d) := by
  have hc := h.client.cur
  rw [hdc] at hc
  obtain ⟨p, cmd, hcur, hhead, htail, hget, howner, hr⟩ := hc
  unfold completeCmd Dec.complete
  by_cases hneg : dc.argc < 0
  · -- `CmdComplete` looks at item `args_num - 1`
    have hneg' : cmd.argsNum < 0 := by rw [hr.argsNum]; exact hneg
    rw [if_pos hneg]
    simp only [allCmd, runLoop, hhead, derefCmd_some hget, bind, Except.bind, cmdComplete_neg hneg',
      hr.argsNum]
    exact Simulates.error _
  rw [if_neg hneg]
  have hpos : 0 < dc.argc := by
    have := hr.argc_ne
    omega
  have hf : Full dc := ⟨hpos, by have := hr.items_le_argc hpos; omega⟩
  have hframe : Frame Happened.Receiving g c g { c with client := { c.client with curCmdItem := none } } :=
    ⟨rfl, rfl, rfl, rfl, ⟨[], by simp, by simp⟩, fun _ _ _ _ h => h⟩
  have hspec := allCmd_spec (c := { c with client := { c.client with curCmdItem := none } })
    (d := d) h.world hr hf rfl hhead htail hget howner h.client.buf h.client.pos h.client.got
    h.client.handed h.client.queue
  rcases hspec with ⟨g', c', hrun, hrep, hframe'⟩ | ⟨hrun, hquiet⟩
  · rw [hrun]
    exact (follows_registerWrite hrep).after (hframe.trans hframe')
  · rw [hrun]
    exact ⟨rfl, hquiet⟩

theorem completeIfFull_sim (h : ConnRep env g c d) :
    Simulates (OwnFault env) (Follows env g c) (completeIfFull env c) d.completeIfFull := by
  have hc := h.client.cur
  rcases hdc : d.cur with _ | dc
  · rw [hdc] at hc
    simp only [completeIfFull, Dec.completeIfFull, hdc, hc.1, derefCmd, bind, Except.bind]
    exact Simulates.error _
  · rw [hdc] at hc
    obtain ⟨p, cmd, hcur, -, -, hget, -, hr⟩ := hc
    have hif : completeIfFull env c =
        if (dc.items.length : Int) ≥ dc.argc then completeCmd env c else .ok c := by
      rw [← hr.argsNum, ← hr.curItem]
      simp only [completeIfFull, hcur, derefCmd_some hget, bind, Except.bind]
    rw [hif, Dec.completeIfFull, hdc]
    by_cases hfull : (dc.items.length : Int) ≥ dc.argc
    · simp only [if_pos hfull]
      exact completeCmd_sim h hdc hfull
    · simp only [if_neg hfull]
      exact Follows.refl h

/-! ## Section 7: _check_cmd_complete2 -/

theorem wantsHeader_eq (h : ConnRep env g c d) : wantsHeader c = .ok d.wantsHeader := by
  have hc := h.client.cur
  rcases hdc : d.cur with _ | dc
  · rw [hdc] at hc
    simp [wantsHeader, Dec.wantsHeader, hdc, hc.1]
  · rw [hdc] at hc
    obtain ⟨p, cmd, hcur, -, -, hget, -, hr⟩ := hc
    simp [wantsHeader, Dec.wantsHeader, hdc, hcur, derefCmd_some hget, bind, Except.bind, hr.curItem,
      hr.argsNum]

theorem decodeCmd_sim {total : Nat} (htotal : total ≤ clientRecvCmdLength) (h : ConnRep env g c d)
    (hopen : d.Open) (pre : Nat) :
    Simulates (OwnFault env) (FlowSim (Follows env g c)) (decodeCmd env total pre c)
      (d.decodeCmd total pre) := by
  have hheader : Simulates (OwnFault env) (FlowSim (Follows env g c))
      (if d.wantsHeader then headerStage env total pre c else .ok (.next pre c))
      (.ok (if d.wantsHeader then d.headerStage total pre else .next pre d)) := by
    rw [hopen.wantsHeader]
    rcases hdc : d.cur with _ | dc
    · exact headerStage_sim h hdc total pre
    · exact ⟨rfl, Follows.refl h⟩
  unfold decodeCmd Dec.decodeCmd
  rw [wantsHeader_eq h]
  show Simulates _ _ ((if d.wantsHeader then headerStage env total pre c
    else .ok (.next pre c)).bind fun flow => flow.andThen _)
    ((Except.ok (if d.wantsHeader then d.headerStage total pre else .next pre d)).bind
      fun flow => flow.andThen _)
  refine hheader.bind fun x y hxy => ?_
  match x, y, hxy with
  | .ret code c', .ret code' d', hxy => exact hxy
  | .next pre' c', .next pre'' d', ⟨heq, g', hrep, hframe⟩ =>
    subst heq
    exact flow_after hframe (itemLoop_sim htotal _ _ hrep)

/-- A result code and a state. -/
def CheckSim (R : Conn → Dec → Prop) (x : Int × Conn) (y : Int × Dec) : Prop :=
  x.1 = y.1 ∧ R x.2 y.2

/-- Where the outer loop goes on, no command is complete. -/
def NextCheck (R : Conn → Dec → Prop) (s : Nat × Conn) (t : Nat × Dec) : Prop :=
  SamePlace R s t ∧ t.2.Open

/-- **One pass of the outer loop.** -/
theorem checkTurn_sim {total : Nat} (htotal : total ≤ clientRecvCmdLength) (pre : Nat)
    (h : ConnRep env g c d) (hopen : d.Open) :
    Simulates (OwnFault env) (TurnSim (NextCheck (Follows env g c)) (CheckSim (Follows env g c)))
      (checkTurn env total (pre, c)) (Dec.checkTurn total (pre, d)) := by
  apply (decodeCmd_sim htotal h hopen pre).bind
  intro x y hxy
  rcases x with ⟨code, c'⟩ | ⟨pre', c'⟩
  · rcases y with ⟨code', d'⟩ | ⟨pre'', d'⟩
    · exact hxy
    · exact False.elim hxy
  · rcases y with ⟨code', d'⟩ | ⟨pre'', d'⟩
    · exact False.elim hxy
    · obtain ⟨heq, g', hrep, hframe⟩ := hxy
      subst heq
      apply (completeIfFull_sim hrep).bind_eq
      intro c'' d'' _ hd'' hfol
      obtain ⟨g'', hrep', hframe'⟩ := hfol
      by_cases hend : pre' ≥ total
      · simp only [if_pos hend]
        exact ⟨rfl, (follows_repos hrep' 0).after (hframe.trans hframe')⟩
      · simp only [if_neg hend]
        exact ⟨⟨rfl, (Follows.refl hrep').after (hframe.trans hframe')⟩,
          Dec.completeIfFull_open hd''⟩

theorem checkLoop_sim {total : Nat} (htotal : total ≤ clientRecvCmdLength) (fuel pre : Nat)
    (h : ConnRep env g c d) (hopen : d.Open) :
    Simulates (OwnFault env) (CheckSim (Follows env g c)) (checkLoop env total fuel pre c)
      (d.checkLoop total fuel pre) := by
  rw [checkLoop_eq, Dec.checkLoop_eq]
  apply iterate_simulates (R := NextCheck (Follows env g c))
  · rintro ⟨pre₁, c₁⟩ ⟨pre₂, d₁⟩ ⟨⟨hpre, g₁, hrep, hframe⟩, hopen₁⟩
    obtain rfl : pre₁ = pre₂ := hpre
    apply (checkTurn_sim htotal pre₁ hrep hopen₁).mono
    intro x y
    exact TurnSim.mono (fun _ _ hst => ⟨⟨hst.1.1, hst.1.2.after hframe⟩, hst.2⟩)
      (fun _ _ hab => ⟨hab.1, hab.2.after hframe⟩)
  · exact ⟨⟨rfl, Follows.refl h⟩, hopen⟩

/-! ## Section 8: Giving up the current command -/

theorem Local.trans {me : ClientId} {g₁ g₂ g₃ : Ghost} {w₁ w₂ w₃ : World}
    (h : Local me g₁ w₁ g₂ w₂) (h' : Local me g₂ w₂ g₃ w₃) : Local me g₁ w₁ g₃ w₃ := by
  refine ⟨fun a ha harg hno => ?_, fun p hp hne => ?_, fun p hp hnone => ?_,
    h'.dict.trans h.dict, h'.store.trans h.store, fun i hi => (h'.pending i hi).trans (h.pending i hi),
    fun i hi => (h'.got i hi).trans (h.got i hi), fun i hi => (h'.handed i hi).trans (h.handed i hi)⟩
  · obtain ⟨hg, hb⟩ := h.block a ha harg hno
    have ha' : a < w₂.heap.blocks.length := by
      rw [List.getElem?_eq_getElem ha] at hb
      exact (List.getElem?_eq_some_iff.mp hb).1
    obtain ⟨hg', hb'⟩ := h'.block a ha' (fun i => hg ▸ harg i) (hg ▸ hno)
    exact ⟨hg'.trans hg, hb'.trans hb⟩
  · obtain ⟨hg, hc⟩ := h.cmd p hp hne
    have hp' : p < w₂.cmds.cells.length := by
      rcases hget : w₁.cmds.get p with _ | cmd
      · exact (h.released p hp hget).1
      · exact Pool.lt_of_get (hc.trans hget)
    obtain ⟨hg', hc'⟩ := h'.cmd p hp' (hg ▸ hne)
    exact ⟨hg'.trans hg, hc'.trans hc⟩
  · obtain ⟨hp', hnone'⟩ := h.released p hp hnone
    exact h'.released p hp' hnone'

theorem Local.refl (me : ClientId) (g : Ghost) (w : World) : Local me g w g w :=
  ⟨fun _ _ _ _ => ⟨rfl, rfl⟩, fun _ _ _ => ⟨rfl, rfl⟩, fun _ hp hnone => ⟨hp, hnone⟩, rfl, rfl,
    fun _ _ => rfl, fun _ _ => rfl, fun _ _ => rfl⟩

/-- From `pos` on every argument is NULL or a block of its own. -/
def Freeable (g : Ghost) (h : Heap) (me : ClientId) (cmd : Cmd) (pos : Nat) : Prop :=
  ∀ j : Fin cmdArgsMax, pos ≤ j.val →
    cmd.value j = none ∨ ∃ a n bs, cmd.value j = some a ∧ Owns g h a (.arg me j) n bs

theorem CmdRep.freeable {h : Heap} {me : ClientId} {cmd : Cmd} {dc : DecCmd}
    (hr : CmdRep g h me cmd dc) (pos : Nat) : Freeable g h me cmd pos := by
  intro j _
  have hs := hr.slots j
  rcases hslot : dc.slotAt j with _ | ⟨n, bs⟩
  · rw [hslot] at hs
    exact Or.inl hs.1
  · rw [hslot] at hs
    obtain ⟨a, hv, hown, -, -⟩ := hs
    exact Or.inr ⟨a, n, bs, hv, hown⟩

/-- One round of the loop that frees the arguments. -/
theorem freeValue_step (env : Env) {me : ClientId} {w : World} {p : CmdPtr} {cmd : Cmd} {pos : Nat}
    (hpos : pos < cmdArgsMax) (hfree : Freeable g w.heap me cmd pos)
    (hget : w.cmds.get p = some cmd) (howner : g.cmd p = me) :
    let cmd' := { cmd with value := Function.update cmd.value ⟨pos, hpos⟩ none }
    ∃ g' w', freeItem env w (cmd.value ⟨pos, hpos⟩) = .ok w' ∧ g'.cmd = g.cmd ∧
      w'.trace = w.trace ∧ (w'.setCmd p cmd').cmds.get p = some cmd' ∧
      Freeable g' (w'.setCmd p cmd').heap me cmd' (pos + 1) ∧
      Local me g w g' (w'.setCmd p cmd') := by
  intro cmd'
  have hvalue : ∀ j : Fin cmdArgsMax, pos + 1 ≤ j.val → cmd'.value j = cmd.value j := by
    intro j hj
    exact Function.update_of_ne (fun hjp => by rw [hjp] at hj; simp at hj) _ _
  -- the slot is NULL, and `free` does nothing, or it holds a block of this argument
  rcases hfree ⟨pos, hpos⟩ (le_refl _) with hv | ⟨a, n, bs, hv, hown⟩
  · rw [hv]
    refine ⟨g, w, rfl, rfl, rfl, Pool.get_set_self hget, fun j hj => ?_, ?_⟩
    · rw [hvalue j hj]
      exact hfree j (by omega)
    · have := local_write g w.heap cmd' [] hget howner rfl (fun a _ _ => ⟨rfl, rfl⟩) (by simp)
      rwa [List.append_nil] at this
  · obtain ⟨h', hrun, -, hother, hsp⟩ := freeItem_spec env hown
    rw [hv]
    refine ⟨g.give a .nobody, { w with heap := h' }, hrun, rfl, rfl, Pool.get_set_self hget,
      fun j hj => ?_, ?_⟩
    · rw [hvalue j hj]
      rcases hfree j (by omega) with hvj | ⟨b, m, cs, hvj, hownj⟩
      · exact Or.inl hvj
      · refine Or.inr ⟨b, m, cs, hvj, hsp _ _ _ _ hownj ?_⟩
        intro heq
        simp only [Owner.arg.injEq, true_and] at heq
        omega
    · have := local_write (g.give a .nobody) h' cmd' [] hget howner rfl (fun b _ hb => ?_) (by simp)
      · rwa [List.append_nil] at this
      · -- no block of another owner is the one freed
        have hne : b ≠ a := by
          rintro rfl
          exact hb _ hown.1
        exact ⟨g.give_ne _ hne, hother b hne⟩

/-- The loop frees every argument below `args_num`, or runs off the array. -/
theorem freeValues_spec (env : Env) {me : ClientId} {p : CmdPtr} : ∀ (n pos : Nat) (g : Ghost) (cmd : Cmd)
    (w : World), pos ≤ cmdArgsMax → Freeable g w.heap me cmd pos → w.cmds.get p = some cmd →
    g.cmd p = me → cmd.next = none →
    (pos + n ≤ cmdArgsMax → ∃ g' w' cmd', freeValues env p n pos cmd w = .ok w' ∧
      w'.cmds.get p = some cmd' ∧ cmd'.next = none ∧ g'.cmd = g.cmd ∧ w'.trace = w.trace ∧
      Local me g w g' w') ∧
    (cmdArgsMax < pos + n → freeValues env p n pos cmd w = .error (.cmdIndex cmdArgsMax)) := by
  intro n
  induction n with
  | zero =>
    intro pos g cmd w hpos hfree hget howner hnext
    exact ⟨fun _ => ⟨g, w, cmd, rfl, hget, hnext, rfl, rfl, Local.refl _ _ _⟩, fun h => by omega⟩
  | succ n ih =>
    intro pos g cmd w hpos hfree hget howner hnext
    by_cases hlt : pos < cmdArgsMax
    swap
    · -- `value[512]`
      have hpos' : pos = cmdArgsMax := by omega
      refine ⟨fun h => by omega, fun _ => ?_⟩
      have hslot := slot_error (Nat.le_of_not_lt hlt)
      simp only [freeValues, hslot, bind, Except.bind]
      rw [hpos']
    obtain ⟨g', w', hrun, hghost, htrace, hget', hfree', hlocal⟩ :=
      freeValue_step env hlt hfree hget howner
    -- the slot is free: the rest of the loop starts from what `freeValue_step` left
    obtain ⟨hok, herr⟩ := ih (pos + 1) g' _ _ hlt hfree' hget' (by rw [hghost]; exact howner) hnext
    have hstep : freeValues env p (n + 1) pos cmd w =
        freeValues env p n (pos + 1) { cmd with value := Function.update cmd.value ⟨pos, hlt⟩ none }
          (w'.setCmd p { cmd with value := Function.update cmd.value ⟨pos, hlt⟩ none }) := by
      simp only [freeValues, slot_ofNat hlt, bind, Except.bind, hrun]
    rw [hstep]
    constructor
    · intro hle
      obtain ⟨g'', w'', cmd'', hrun', hget'', hnext'', hghost', htrace', hlocal'⟩ := hok (by omega)
      exact ⟨g'', w'', cmd'', hrun', hget'', hnext'', hghost'.trans hghost,
        htrace'.trans htrace, hlocal.trans hlocal'⟩
    · intro hgt
      exact herr (by omega)

/-- `CmdDeleteHead` of the client's own command, with its log entries. -/
theorem local_release {me : ClientId} {w : World} {p : CmdPtr} (ext : List Happened)
    (howner : g.cmd p = me) (hext : ∀ x ∈ ext, x.client = me ∧ ∀ l : Ledger, l.next x = l) :
    Local me g w g { w with cmds := w.cmds.release p, trace := w.trace ++ ext } := by
  refine local_change g w.heap _ ext rfl (fun a _ _ => ⟨rfl, rfl⟩) (fun q _ hne => ?_)
    (fun q hq hnone => ⟨by simpa [Pool.release] using hq, ?_⟩) hext
  · have hqp : q ≠ p := by
      rintro rfl
      exact hne howner
    exact Pool.get_release_ne hqp
  · by_cases hqp : q = p
    · rw [hqp]
      exact Pool.get_release_self _ _
    · rw [Pool.get_release_ne hqp]
      exact hnone

theorem freeable_eq (dc : DecCmd) :
    (dc.argc.toNat ≤ cmdArgsMax → Dec.freeable dc = .ok ()) ∧
    (cmdArgsMax < dc.argc.toNat → Dec.freeable dc = .error (.cmdIndex cmdArgsMax)) := by
  unfold Dec.freeable
  constructor
  · intro h
    rw [if_pos (by omega)]
  · intro h
    rw [if_neg (by omega)]

theorem freeClientCurCmd_sim (h : ConnRep env g c d) :
    Simulates (OwnFault env) (Follows env g c) (freeClientCurCmd env c) d.reject := by
  have hc := h.client.cur
  rcases hdc : d.cur with _ | dc
  · -- the early return
    rw [hdc] at hc
    simp only [freeClientCurCmd, Dec.reject, hdc, hc.1, Option.isNone_none, if_true]
    exact Follows.refl h
  rw [hdc] at hc
  obtain ⟨p, cmd, hcur, hhead, htail, hget, howner, hr⟩ := hc
  obtain ⟨hok, herr⟩ := freeValues_spec env cmd.argsNum.toNat 0 g cmd c.world
    (Nat.zero_le _) (hr.freeable 0) hget howner hr.next
  obtain ⟨hfok, hferr⟩ := freeable_eq dc
  rw [hr.argsNum, Nat.zero_add] at hok herr
  unfold freeClientCurCmd Dec.reject
  simp only [hcur, hdc, Option.isNone_some, Bool.false_eq_true, if_false, derefCmd_some hget, bind,
    Except.bind, hr.argsNum]
  by_cases hle : dc.argc.toNat ≤ cmdArgsMax
  swap
  · rw [herr (by omega), hferr (by omega)]
    exact Simulates.error _
  obtain ⟨g', w', cmd', hrun, hget', hnext', hghost, htrace, hlocal⟩ := hok hle
  rw [hrun, hfok hle]
  simp only
  -- the head that is deleted is the current command
  set c1 : Conn := { c with world := w'.log (.dropped c.me (some p) c.client.recvCmdQueueHead) } with hc1
  rw [cmdDeleteHead_single (c := c1) hhead htail hget' hnext']
  simp only
  have hl := hlocal.trans (local_release (p := p) [.dropped c.me (some p) c.client.recvCmdQueueHead]
    (by rw [hghost]; exact howner) (by simp [Happened.client, Ledger.next]))
  have htrace' : w'.trace ++ [.dropped c.me (some p) c.client.recvCmdQueueHead] =
      c.world.trace ++ [.dropped c.me (some p) c.client.recvCmdQueueHead] := by rw [htrace]
  refine ⟨g', ⟨hl.worldRep h.world htrace' (by simp [Happened.Orderly, hhead]),
    ⟨h.client.buf, rfl, ?_, ?_, ?_, rfl, rfl, rfl⟩⟩,
    hl.frame rfl rfl rfl rfl htrace' (by simp [Happened.client, Happened.Receiving])⟩
  · show receivedBy c.me (w'.trace ++ [_]) = d.got
    rw [htrace, receivedBy_snoc, h.client.got]
    simp [receivedBy]
  · show handedBy c.me (w'.trace ++ [_]) = d.handed
    rw [htrace, handedBy_snoc, h.client.handed]
    simp [handedBy]
  · show QueueRep g' w'.heap c.client.sendResponseQueue
      ((Ledger.after (w'.trace ++ [_])).pending c.me)
    rw [htrace, Ledger.after_snoc]
    exact hlocal.queueRep h.client.queue

/-! ## Section 9: One pass -/

def PassSim (R : Conn → Dec → Prop) (x : PassEnd × Conn) (y : PassEnd × Dec) : Prop :=
  x.1 = y.1 ∧ R x.2 y.2

/-- A pass that ends with the check for a complete command. -/
theorem passAgain {c₀ : Conn} (h : Follows env g c₀ c d) :
    Simulates (OwnFault env) (PassSim (Follows env g c₀))
      ((completeIfFull env c).bind fun c => .ok (.again, c))
      (d.completeIfFull.bind fun d => .ok (.again, d)) := by
  obtain ⟨g', hrep, hframe⟩ := h
  exact (completeIfFull_sim hrep).bind fun c' d' hfol => ⟨rfl, hfol.after hframe⟩

/-- The bytes are appended to the block of the current item. -/
theorem storeItem_append {w : World} {a : Addr} {o : Owner} {n : Nat} {bs xs : Bytes}
    (ho : Owns g w.heap a o n bs) (hfit : bs.length + xs.length ≤ n) :
    ∃ h', storeItem w (some a) bs.length xs = .ok { w with heap := h' } ∧
      Owns g h' a o n (bs ++ xs) ∧ ∀ b, b ≠ a → h'.blocks[b]? = w.heap.blocks[b]? := by
  refine ⟨_, by rw [storeItem, Heap.store_eq ho.2 xs hfit], ⟨ho.1, Heap.set_holds ho.lt⟩,
    fun b hb => Heap.set_other hb⟩

theorem recvItem_sim {dc : DecCmd} {p : CmdPtr} {cmd : Cmd} {n : Nat} {bs : Bytes}
    (h : ConnRep env g c d) (hopen : d.Open) (hdc : d.cur = some dc)
    (hcur : c.client.curCmdItem = some p) (hhead : c.client.recvCmdQueueHead = some p)
    (htail : c.client.recvCmdQueueTail = some p) (hget : c.world.cmds.get p = some cmd)
    (howner : g.cmd p = c.me) (hr : CmdRep g c.world.heap c.me cmd dc)
    (hlt : dc.items.length < cmdArgsMax) (hpart : dc.part = some (n, bs)) (r : ReadResult) :
    Simulates (OwnFault env) (PassSim (Follows env g c))
      (recvItem env c p cmd ⟨dc.items.length, hlt⟩ r) (Dec.recvItem dc n bs r d) := by
  have hs := hr.slots ⟨dc.items.length, hlt⟩
  rw [DecCmd.slotAt_part, hpart] at hs
  obtain ⟨a, hv, hown, hlen, hpos⟩ := hs
  obtain ⟨hlt', h5, -⟩ := hr.part_lt n bs hpart
  unfold recvItem Dec.recvItem
  rw [hlen, hpos, hv]
  rcases hb : r.bound (n - bs.length) with xs | _ | _ | _
  · obtain ⟨hne, hle⟩ := bound_data hb
    have hfit : bs.length + xs.length ≤ n := by omega
    obtain ⟨h', hrun, hown', hother⟩ := storeItem_append
      (w := c.world.log (.received c.me xs)) hown hfit
    simp only [bind, hrun, Except.bind]
    -- the argument with its new bytes
    set cmd' : Cmd := { cmd with
      itemPos := Function.update cmd.itemPos ⟨dc.items.length, hlt⟩ (bs.length + xs.length) } with hcmd'
    have hfills : ∀ k, Fills g c.world.heap g h' c.me cmd { cmd' with curItem := k }
        ⟨dc.items.length, hlt⟩ n (bs ++ xs) := by
      intro k
      refine ⟨fun j hj => ⟨rfl, rfl, Function.update_of_ne hj _ _⟩, ⟨a, hv, hown', hlen, ?_⟩, rfl,
        rfl, fun b j m cs hj ho => ?_, h5⟩
      · rw [List.length_append]
        exact Function.update_self _ _ _
      · have hba : b ≠ a := ho.ne hown (by simpa using hj)
        exact ⟨ho.1, by unfold Heap.Holds; rw [hother b hba]; exact ho.2⟩
    have hl : ∀ cmd'', Local c.me g c.world g { c.world with
        heap := h', cmds := c.world.cmds.set p cmd''
        trace := c.world.trace ++ [.received c.me xs] } := by
      intro cmd''
      refine local_write g h' cmd'' _ hget howner rfl (fun b _ hb => ⟨rfl, hother b ?_⟩)
        (by simp [Happened.client, Ledger.next])
      rintro rfl
      exact hb _ hown.1
    -- in both cases a state that represents the extended command
    have hrep : ∀ (k pos : Nat) (dc' : DecCmd),
        CmdRep g h' c.me { cmd' with curItem := k } dc' →
        Follows env g c { c with
          client := { c.client with recvPos := pos }
          world := { c.world with
            heap := h', cmds := c.world.cmds.set p { cmd' with curItem := k }
            trace := c.world.trace ++ [.received c.me xs] } }
          { d with pos := pos, cur := some dc', got := d.got ++ xs } := by
      intro k pos dc' hdc'
      refine ⟨g, ⟨(hl _).worldRep h.world rfl (by simp [Happened.Orderly]),
        ⟨h.client.buf, rfl, ?_, ?_, ?_, p, _, hcur, hhead, htail, Pool.get_set_self hget, howner,
          hdc'⟩⟩, (hl _).frame rfl rfl rfl rfl rfl (by simp [Happened.client, Happened.Receiving])⟩
      · show receivedBy c.me (c.world.trace ++ [_]) = _
        rw [receivedBy_snoc, h.client.got]
        simp [receivedBy]
      · show handedBy c.me (c.world.trace ++ [_]) = _
        rw [handedBy_snoc, h.client.handed]
        simp [handedBy]
      · have := (hl { cmd' with curItem := k }).queueRep h.client.queue
        simpa [Ledger.next] using this
    by_cases hfull : bs.length + xs.length ≥ n
    · have hfol := hrep (cmd.curItem + 1) 0 _ ((hfills _).item hr rfl rfl
        (by rw [List.length_append]; omega) (hopen dc hdc))
      simp only [hlen, hfull, decide_true, if_true, DecCmd.extend]
      exact passAgain hfol
    · have hfol := hrep cmd.curItem c.client.recvPos _ ((hfills _).part hr rfl rfl
        (by rw [List.length_append]; omega))
      simp only [hlen, hfull, decide_false, Bool.false_eq_true, if_false, DecCmd.extend]
      rw [← h.client.pos]
      exact passAgain hfol
  · exact ⟨rfl, Follows.refl h⟩
  · exact ⟨rfl, Follows.refl h⟩
  · exact ⟨rfl, Follows.refl h⟩

/-- What has been read lies in `recv_cmd`. -/
def Conn.readInto (c : Conn) (xs : Bytes) : Conn :=
  { c with
    client := { c.client with
      recvCmd := c.client.recvCmd.write c.client.recvPos xs
      recvPos := c.client.recvPos + xs.length }
    world := c.world.log (.received c.me xs) }

theorem readInto_rep (h : ConnRep env g c d) (xs : Bytes) :
    ConnRep env g (c.readInto xs) (d.read xs) ∧ Frame Happened.Receiving g c g (c.readInto xs) := by
  have hl : Local c.me g c.world g (c.world.log (.received c.me xs)) :=
    local_change g c.world.heap c.world.cmds [.received c.me xs] rfl (fun _ _ _ => ⟨rfl, rfl⟩)
      (fun _ _ _ => rfl) (fun _ hq hnone => ⟨hq, hnone⟩) (by simp [Happened.client, Ledger.next])
  refine ⟨⟨hl.worldRep h.world rfl (by simp [Happened.Orderly]), ⟨?_, ?_, ?_, ?_, ?_, ?_⟩⟩,
    hl.frame rfl rfl rfl rfl rfl (by simp [Happened.client, Happened.Receiving])⟩
  · show c.client.recvCmd.write c.client.recvPos xs = _
    rw [h.client.buf, h.client.pos]
    rfl
  · show c.client.recvPos + xs.length = _
    rw [h.client.pos]
    rfl
  · show receivedBy c.me (c.world.trace ++ [_]) = _
    rw [receivedBy_snoc, h.client.got]
    simp [receivedBy, Dec.read]
  · show handedBy c.me (c.world.trace ++ [_]) = _
    rw [handedBy_snoc, h.client.handed]
    simp [handedBy, Dec.read]
  · have := hl.queueRep h.client.queue
    simpa [Conn.readInto, World.log, Ledger.next] using this
  · exact h.client.cur

/-- The check of what has been read. -/
theorem check_sim (h : ConnRep env g c d) (hopen : d.Open) {xs : Bytes}
    (htotal : d.pos + xs.length ≤ clientRecvCmdLength) :
    Simulates (OwnFault env) (CheckSim (Follows env g c))
      (checkCmdComplete2 env (c.readInto xs) (c.client.recvPos + xs.length))
      ((d.read xs).check (d.pos + xs.length)) := by
  obtain ⟨hrep, hframe⟩ := readInto_rep h xs
  rw [h.client.pos]
  apply (checkLoop_sim htotal _ 0 hrep hopen).mono
  rintro x y ⟨heq, hfol⟩
  exact ⟨heq, hfol.after hframe⟩

theorem recvHeader_sim (h : ConnRep env g c d) (hopen : d.Open) (r : ReadResult) :
    Simulates (OwnFault env) (PassSim (Follows env g c)) (recvHeader env c r) (d.recvHeader r) := by
  unfold recvHeader Dec.recvHeader
  rw [h.client.pos]
  rcases hb : r.bound (clientRecvCmdLength - d.pos) with xs | _ | _ | _
  · obtain ⟨hne, hle⟩ := bound_data hb
    have hlen : 0 < xs.length := List.length_pos_iff.mpr hne
    have hcheck := check_sim h hopen (show d.pos + xs.length ≤ clientRecvCmdLength by omega)
    rw [h.client.pos] at hcheck
    have hinto : c.readInto xs = { c with
        client := { c.client with
          recvCmd := c.client.recvCmd.write d.pos xs, recvPos := d.pos + xs.length }
        world := c.world.log (.received c.me xs) } := by
      rw [Conn.readInto, h.client.pos]
    rw [hinto] at hcheck
    apply hcheck.bind
    rintro ⟨code, c2⟩ ⟨code', d2⟩ ⟨heq, hfol⟩
    have heq' : code = code' := heq
    subst heq'
    by_cases hcode : code < 0
    · -- the check returned -1
      simp only [if_pos hcode]
      obtain ⟨g', hrep', hframe'⟩ := hfol
      exact (freeClientCurCmd_sim hrep').bind fun c' d' hfol' => ⟨rfl, hfol'.after hframe'⟩
    · simp only [if_neg hcode]
      exact ⟨rfl, hfol⟩
  · exact ⟨rfl, Follows.refl h⟩
  · exact ⟨rfl, Follows.refl h⟩
  · exact ⟨rfl, Follows.refl h⟩

/-- **One pass of `recv_cmd_handle` follows one pass of the decoder.** -/
theorem recvPass_sim (h : ConnRep env g c d) (hopen : d.Open) (r : ReadResult) :
    Simulates (OwnFault env) (PassSim (Follows env g c)) (recvPass env c r) (d.pass r) := by
  have hc := h.client.cur
  rcases hdc : d.cur with _ | dc
  · rw [hdc] at hc
    simp only [recvPass, Dec.pass, hdc, hc.1, Option.isNone_none, if_true]
    exact recvHeader_sim h hopen r
  rw [hdc] at hc
  obtain ⟨p, cmd, hcur, hhead, htail, hget, howner, hr⟩ := hc
  by_cases hlt : dc.items.length < cmdArgsMax
  swap
  · -- 512 items are read, and the source looks at the slot behind them
    have hslot := slot_error (Nat.le_of_not_lt hlt)
    have hx : recvPass env c r = .error (.cmdIndex dc.items.length) := by
      simp only [recvPass, hcur, Option.isNone_some, Bool.false_eq_true, if_false,
        derefCmd_some hget, bind, Except.bind, hr.curItem, hslot]
    have hge : dc.items.length ≥ cmdArgsMax := Nat.le_of_not_lt hlt
    have hy : d.pass r = .error (.cmdIndex dc.items.length) := by
      simp only [Dec.pass, hdc, if_pos hge]
    rw [hx, hy]
    exact Simulates.error _
  have hs := hr.slots ⟨dc.items.length, hlt⟩
  rw [DecCmd.slotAt_part] at hs
  -- the test on the slot's length and position is the decoder's `part`
  have hstep : recvPass env c r =
      if cmd.itemLength ⟨dc.items.length, hlt⟩ ≠ 0 ∧
          cmd.itemLength ⟨dc.items.length, hlt⟩ > cmd.itemPos ⟨dc.items.length, hlt⟩ then
        recvItem env c p cmd ⟨dc.items.length, hlt⟩ r
      else recvHeader env c r := by
    simp only [recvPass, hcur, Option.isNone_some, Bool.false_eq_true, if_false, derefCmd_some hget,
      bind, Except.bind, hr.curItem, slot_ofNat hlt]
  rcases hpart : dc.part with _ | ⟨n, bs⟩
  · rw [hpart] at hs
    obtain ⟨-, hlen, -⟩ := hs
    have hdec : d.pass r = d.recvHeader r := by
      simp only [Dec.pass, hdc, hpart, ge_iff_le, if_neg (Nat.not_le_of_lt hlt)]
    rw [hstep, hdec, if_neg (by rw [hlen]; simp)]
    exact recvHeader_sim h hopen r
  · rw [hpart] at hs
    obtain ⟨-, -, -, hlen, hpos⟩ := hs
    obtain ⟨hlt', -⟩ := hr.part_lt n bs hpart
    have hdec : d.pass r = Dec.recvItem dc n bs r d := by
      simp only [Dec.pass, hdc, hpart, ge_iff_le, if_neg (Nat.not_le_of_lt hlt)]
    rw [hstep, hdec, if_pos (by rw [hlen, hpos]; omega)]
    exact recvItem_sim h hopen hdc hcur hhead htail hget howner hr hlt hpart r

/-! ## Section 10: The end of a connection -/

theorem local_closed (me : ClientId) (g : Ghost) (w : World) :
    Local me g w g (w.log (.closed me)) := by
  refine ⟨fun _ _ _ _ => ⟨rfl, rfl⟩, fun _ _ _ => ⟨rfl, rfl⟩, fun _ hq hnone => ⟨hq, hnone⟩, rfl,
    ?_, fun me' hne => ?_, fun me' hne => ?_, fun me' hne => ?_⟩
  · simp [World.log, Ledger.next]
  · simp [World.log, Ledger.next, hne]
  · exact receivedBy_append_other (by simp [Happened.client, hne.symm])
  · exact handedBy_append_other (by simp [Happened.client, hne.symm])

/-- What the client held is given up; the others and the store stay. -/
theorem clientFreebuf_sim (h : ConnRep env g c d) :
    Simulates (OwnFault env) (fun c' _ => c'.world.trace = c.world.trace ++ [.closed c.me] ∧
        ∃ g', WorldRep env g' c'.world ∧ Frame (fun _ => True) g c g' c')
      (clientFreebuf env { c with world := c.world.log (.closed c.me) }) d.close := by
  have hc := h.client.cur
  have hl := local_closed c.me g c.world
  -- only the client's own blocks are freed, so the others' representation stands
  have hw : ∀ g' w', Local c.me g (c.world.log (.closed c.me)) g' w' →
      w'.trace = c.world.trace ++ [.closed c.me] → WorldRep env g' w' := fun g' w' hl' htrace =>
    (hl.trans hl').worldRep h.world htrace (by simp [Happened.Orderly])
  rcases hdc : d.cur with _ | dc
  · rw [hdc] at hc
    simp only [clientFreebuf, freebufLoop, hc.2.1, Option.isNone_none, if_true, bind, Except.bind,
      Dec.close, hdc]
    exact ⟨rfl, g, hw g _ (Local.refl _ _ _) rfl,
      hl.frame rfl rfl rfl rfl rfl (by simp [Happened.client])⟩
  rw [hdc] at hc
  obtain ⟨p, cmd, hcur, hhead, htail, hget, howner, hr⟩ := hc
  obtain ⟨hok, herr⟩ := freeValues_spec env cmd.argsNum.toNat 0 g cmd
    (c.world.log (.closed c.me)) (Nat.zero_le _) (hr.freeable 0) hget howner hr.next
  obtain ⟨hfok, hferr⟩ := freeable_eq dc
  obtain ⟨n, hn⟩ : ∃ n, c.world.cmds.cells.length = n + 1 :=
    Nat.exists_eq_add_one.mpr (Nat.lt_of_le_of_lt (Nat.zero_le _) (Pool.lt_of_get hget))
  have hcells : (c.world.log (.closed c.me)).cmds.cells.length = n + 1 := hn
  have hget0 : (c.world.log (.closed c.me)).cmds.get p = some cmd := hget
  simp only [clientFreebuf, Dec.close, hdc, hcells]
  -- one round empties the queue, as no command but the current one is in it
  have hround : ∀ w c', freeValues env p cmd.argsNum.toNat 0 cmd (c.world.log (.closed c.me)) = .ok w →
      cmdDeleteHead { c with world := w } = .ok c' → c'.client.recvCmdQueueHead = none →
      freebufLoop env (n + 1 + 1) { c with world := c.world.log (.closed c.me) } = .ok c' := by
    intro w c' hfree hdel hnone
    rw [freebufLoop]
    simp only [hhead, Option.isNone_some, Bool.false_eq_true, if_false, derefCmd_some hget0, bind,
      Except.bind, hfree]
    have hdel' : cmdDeleteHead { me := c.me, client := c.client, world := w } = .ok c' := hdel
    rw [hdel']
    simp [freebufLoop, hnone]
  rw [hr.argsNum, Nat.zero_add] at hok herr
  by_cases hle : dc.argc.toNat ≤ cmdArgsMax
  swap
  · -- more than 512 items were announced, and the loop that frees them indexes past the array
    rw [hferr (by omega)]
    have hstop : freebufLoop env (n + 1 + 1) { c with world := c.world.log (.closed c.me) } =
        .error (.cmdIndex cmdArgsMax) := by
      rw [freebufLoop]
      simp only [hhead, Option.isNone_some, Bool.false_eq_true, if_false, derefCmd_some hget0,
        hr.argsNum, herr (Nat.lt_of_not_le hle), bind, Except.bind]
    simp only [hstop, bind, Except.bind]
    exact Simulates.error _
  obtain ⟨g', w', cmd', hrun, hget', hnext', hghost, htrace, hlocal⟩ := hok hle
  have hdel := cmdDeleteHead_single (c := { c with world := w' }) hhead htail hget' hnext'
  rw [hfok hle, hround w' _ (by rw [hr.argsNum]; exact hrun) hdel rfl]
  simp only [bind, Except.bind]
  have hrel := hlocal.trans (local_release (p := p) [] (by rw [hghost]; exact howner) (by simp))
  rw [List.append_nil] at hrel
  exact ⟨htrace, g', hw g' _ hrel htrace, (hl.trans hrel).frame rfl rfl rfl rfl htrace
    (by simp [Happened.client])⟩

end BoAtom
