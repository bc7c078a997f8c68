import BoAtom.Mem.AllCmd
import BoAtom.Mem.TcpServer
import BoAtom.Lib.Machine

/-! # What running commands works on

    `ALL_cmd` looks at the queues of a client and at its current command;
    it neither reads nor writes the rest of the `ClientStat`, allocates
    nothing and leaves the event loop alone.  `Conn.graft` puts the queues on another client, and
    the functions of `cmd.c` commute with it. -/

namespace BoAtom

open Memory Machine

variable {env : Env} {c : Conn} {x : ClientStat} {p : CmdPtr} {cmd : Cmd}

/-! ## Section 1: Handlers -/

/-- The second of the two calls of `runCmd`, after `calls` with the
    response `res`. -/
def callGet (env : Env) (cmd : Cmd) (calls : List Handler) (res : Option Response) (w : World) :
    Except Fault (List Handler × Option Response × World) :=
  if nameIs w.heap cmd strGET || nameIs w.heap cmd strget then
    (getCmd env cmd w).map fun out => (calls ++ [.GET_cmd], some out.1, out.2)
  else .ok (calls, res, w)

/-- Both calls: which were made, and what came of them. -/
def callHandlers (env : Env) (cmd : Cmd) (w : World) :
    Except Fault (List Handler × Option Response × World) :=
  if nameIs w.heap cmd strSET || nameIs w.heap cmd strset then
    (setCmd env cmd w).bind fun out => callGet env cmd [.SET_cmd] (some out.1) out.2
  else callGet env cmd [] none w

theorem runCmd_eq (env : Env) (c : Conn) (p : CmdPtr) (cmd : Cmd) :
    runCmd env c p cmd = (fun out => answered c p (cmdItems c.world.heap cmd) (cmdReceived cmd) out.1
      out.2.1 out.2.2) <$> callHandlers env cmd c.world := by
  have hslot : slot 0 = .ok 0 := slot_ofNat (i := 0) (by decide)
  unfold runCmd callHandlers callGet
  rw [hslot]
  cases hset : nameIs c.world.heap cmd strSET || nameIs c.world.heap cmd strset with
  | false =>
    cases hget : nameIs c.world.heap cmd strGET || nameIs c.world.heap cmd strget with
    | false => simp [bind, Except.bind, hget, answered, Functor.map, Except.map]
    | true =>
      rcases hcall : getCmd env cmd c.world with f | ⟨r, w⟩ <;>
        simp [bind, Except.bind, hget, hcall, answered, Functor.map, Except.map]
  | true =>
    rcases setCmd env cmd c.world with f | ⟨r, w⟩
    · rfl
    cases hget : nameIs w.heap cmd strGET || nameIs w.heap cmd strget with
    | false => simp [bind, Except.bind, hget, answered, Functor.map, Except.map]
    | true =>
      rcases hcall : getCmd env cmd w with f | ⟨r', w'⟩ <;>
        simp [bind, Except.bind, hget, hcall, answered, Functor.map, Except.map]

/-! ## Section 2: The rest of the client -/

/-- The client `x`, with the queues and the current command of `c`. -/
def Conn.graft (x : ClientStat) (c : Conn) : Conn :=
  { c with
    client := { x with
      curCmdItem := c.client.curCmdItem
      recvCmdQueueHead := c.client.recvCmdQueueHead
      recvCmdQueueTail := c.client.recvCmdQueueTail
      sendResponseQueue := c.client.sendResponseQueue } }

theorem Conn.graft_self (c : Conn) : c.graft c.client = c := rfl

theorem answered_graft (items : List Bytes) (received : List (Nat × Nat)) (calls : List Handler)
    (res : Option Response) (w : World) :
    answered (c.graft x) p items received calls res w = (answered c p items received calls res w).graft x := by
  cases res <;> rfl

theorem runCmd_graft : runCmd env (c.graft x) p cmd = Conn.graft x <$> runCmd env c p cmd := by
  rw [runCmd_eq, runCmd_eq, Functor.map_map]
  simp only [answered_graft]
  rfl

theorem runLoop_graft (fuel : Nat) (q : Option CmdPtr) :
    runLoop env fuel q (c.graft x) = Conn.graft x <$> runLoop env fuel q c := by
  induction fuel generalizing q c with
  | zero => cases q <;> rfl
  | succ fuel ih =>
    cases q with
    | none => rfl
    | some p =>
      simp only [runLoop, map_bind]
      apply bind_congr
      rintro ⟨p, cmd⟩
      apply bind_congr
      intro complete
      have hcur : (c.graft x).client.curCmdItem = c.client.curCmdItem := rfl
      simp only [hcur]
      split
      · rw [runCmd_graft, bind_map_left, map_bind]
        exact bind_congr fun c' => ih cmd.next
      · exact ih cmd.next

theorem cmdDeleteHead_graft : cmdDeleteHead (c.graft x) = Conn.graft x <$> cmdDeleteHead c := by
  unfold cmdDeleteHead
  have hhead : (c.graft x).client.recvCmdQueueHead = c.client.recvCmdQueueHead := rfl
  rw [hhead]
  split
  · rfl
  · rw [map_bind]
    exact bind_congr fun out => rfl

theorem deleteLoop_graft (fuel : Nat) :
    deleteLoop fuel (c.graft x) = Conn.graft x <$> deleteLoop fuel c := by
  induction fuel generalizing c with
  | zero => rfl
  | succ fuel ih =>
    unfold deleteLoop
    have hhead : (c.graft x).client.recvCmdQueueHead = c.client.recvCmdQueueHead := rfl
    rw [hhead]
    split
    · rfl
    · simp only [map_bind]
      apply bind_congr
      rintro ⟨p, cmd⟩
      apply bind_congr
      intro complete
      split
      · rw [cmdDeleteHead_graft, bind_map_left, map_bind]
        exact bind_congr fun c' => ih
      · rfl

/-- **`ALL_cmd` works on the queues**, whatever the rest of the client is. -/
theorem allCmd_graft : allCmd env (c.graft x) = Conn.graft x <$> allCmd env c := by
  unfold allCmd
  simp only [map_bind]
  have hrun : runLoop env (c.world.cmds.cells.length + 1) c.client.recvCmdQueueHead (c.graft x) =
      Conn.graft x <$> runLoop env (c.world.cmds.cells.length + 1) c.client.recvCmdQueueHead c :=
    runLoop_graft _ _
  have hcells : (c.graft x).world = c.world := rfl
  have hhead : (c.graft x).client.recvCmdQueueHead = c.client.recvCmdQueueHead := rfl
  rw [hcells, hhead, hrun, bind_map_left]
  exact bind_congr fun c' => deleteLoop_graft _

theorem cmdInsert_graft : cmdInsert (c.graft x) p = Conn.graft x <$> cmdInsert c p := by
  unfold cmdInsert
  simp only [map_bind]
  apply bind_congr
  rintro ⟨q, cmd⟩
  have hhead : (c.graft x).client.recvCmdQueueHead = c.client.recvCmdQueueHead := rfl
  have htail : (c.graft x).client.recvCmdQueueTail = c.client.recvCmdQueueTail := rfl
  simp only [hhead, htail]
  split
  · rfl
  · simp only [map_bind]
    apply bind_congr
    rintro ⟨t, last⟩
    exact bind_congr fun out => rfl

/-- What comes out of `ALL_cmd` differs from what went in by the queues. -/
theorem allCmd_rest {c' : Conn} (h : allCmd env c = .ok c') : c' = c'.graft c.client := by
  have hgraft : allCmd env (c.graft c.client) = Conn.graft c.client <$> allCmd env c := allCmd_graft
  rw [Conn.graft_self, h] at hgraft
  exact Except.ok.inj hgraft

/-! ## Section 3: The event loop and the allocators -/

/-- Any fault will do. -/
abbrev anyFault : Fault → Prop := fun _ => True

/-- Where nothing is known of the result, nothing is to be shown. -/
theorem ends_any {α : Type} (x : Except Fault α) : Ends anyFault (fun _ => True) x := by
  cases x <;> trivial

/-- The same event loop, and nothing has been allocated. -/
structure Untouched (w w' : World) : Prop where
  loop : w'.loop = w.loop
  blocks : w'.heap.blocks.length = w.heap.blocks.length
  cells : w'.cmds.cells.length = w.cmds.cells.length

theorem Untouched.refl (w : World) : Untouched w w := ⟨rfl, rfl, rfl⟩

theorem Untouched.trans {w w' w'' : World} (h : Untouched w w') (h' : Untouched w' w'') :
    Untouched w w'' :=
  ⟨h'.loop.trans h.loop, h'.blocks.trans h.blocks, h'.cells.trans h.cells⟩

/-- `free` marks a block, and removes none. -/
theorem length_of_free {released : Addr → Bytes → Bytes} {h h' : Heap} {a : Addr}
    (hfree : h.free released a = some h') : h'.blocks.length = h.blocks.length := by
  unfold Heap.free at hfree
  split at hfree
  · cases hfree
  · split at hfree
    · cases hfree
      exact List.length_set
    · cases hfree

theorem length_of_store {h h' : Heap} {a : Addr} {off : Nat} {bs : Bytes}
    (hstore : h.store a off bs = some h') : h'.blocks.length = h.blocks.length := by
  unfold Heap.store at hstore
  split at hstore
  · cases hstore
  · split at hstore
    · cases hstore
      exact List.length_set
    · cases hstore

theorem freeItem_untouched (env : Env) (w : World) (a : Option Addr) :
    Ends anyFault (Untouched w) (freeItem env w a) := by
  unfold freeItem
  split
  · exact .refl w
  · split
    · trivial
    · next h hfree => exact ⟨rfl, length_of_free hfree, rfl⟩

theorem storeItem_untouched (w : World) (a : Option Addr) (off : Nat) (bs : Bytes) :
    Ends anyFault (Untouched w) (storeItem w a off bs) := by
  unfold storeItem
  split
  · trivial
  · split
    · trivial
    · next h hstore => exact ⟨rfl, length_of_store hstore, rfl⟩

theorem setCmd_untouched (env : Env) (cmd : Cmd) (w : World) :
    Ends anyFault (fun out => Untouched w out.2) (setCmd env cmd w) := by
  unfold setCmd
  split
  · exact .refl w
  apply (freeItem_untouched env w (cmd.value 0)).bind
  intro w₁ _ h₁
  apply (ends_any _).bind
  intro out _ _
  rcases out with ⟨r, d⟩
  cases r with
  | ok => exact h₁.trans ⟨rfl, rfl, rfl⟩
  | err =>
    apply (ends_any _).bind
    intro out _ _
    rcases out with ⟨_, old, d⟩
    -- the key is freed, after the value that was there, if any
    have hkey : ∀ w₂ : World, Untouched w w₂ → Ends anyFault (fun out => Untouched w out.2)
        ((myItemfree env w₂ ⟨cmd.value 1, cmd.itemLength 1⟩).bind fun w => .ok (getOkResponse, w)) := by
      intro w₂ h₂
      apply (freeItem_untouched env w₂ _).bind
      intro w₃ _ h₃
      exact h₂.trans h₃
    cases old with
    | none => exact hkey _ (h₁.trans ⟨rfl, rfl, rfl⟩)
    | some v =>
      apply (freeItem_untouched env _ v.item).bind
      intro w₂ _ h₂
      exact hkey w₂ (h₁.trans ⟨h₂.loop, h₂.blocks, h₂.cells⟩)

theorem getCmd_untouched (env : Env) (cmd : Cmd) (w : World) :
    Ends anyFault (fun out => Untouched w out.2) (getCmd env cmd w) := by
  unfold getCmd
  split
  · exact .refl w
  apply (freeItem_untouched env w (cmd.value 0)).bind
  intro w₁ _ h₁
  apply (ends_any _).bind
  intro out _ _
  apply (freeItem_untouched env { w₁ with dict := out.2 } _).bind
  intro w₂ _ h₂
  have hw : Untouched w w₂ := h₁.trans ⟨h₂.loop, h₂.blocks, h₂.cells⟩
  rcases out with ⟨entry, d⟩
  cases entry with
  | none => exact hw
  | some ref =>
    dsimp only
    rcases entryAt d ref with _ | e
    · trivial
    · exact hw

theorem callHandlers_untouched (env : Env) (cmd : Cmd) (w : World) :
    Ends anyFault (fun out => Untouched w out.2.2) (callHandlers env cmd w) := by
  have hget : ∀ calls res (w' : World), Untouched w w' →
      Ends anyFault (fun out => Untouched w out.2.2) (callGet env cmd calls res w') := by
    intro calls res w' hw
    unfold callGet
    split
    · have hcall := getCmd_untouched env cmd w'
      rcases hout : getCmd env cmd w' with f | out
      · trivial
      · rw [hout] at hcall
        exact hw.trans hcall
    · exact hw
  unfold callHandlers
  split
  · apply (setCmd_untouched env cmd w).bind
    intro out _ hout
    exact hget _ _ _ hout
  · exact hget _ _ _ (.refl w)

/-- The same client, and a world as `Untouched` says. -/
structure Spared (c c' : Conn) : Prop where
  me : c'.me = c.me
  world : Untouched c.world c'.world

theorem Spared.refl (c : Conn) : Spared c c := ⟨rfl, .refl _⟩

theorem Spared.trans {c c' c'' : Conn} (h : Spared c c') (h' : Spared c' c'') : Spared c c'' :=
  ⟨h'.me.trans h.me, h.world.trans h'.world⟩

theorem runCmd_spared (env : Env) (c : Conn) (p : CmdPtr) (cmd : Cmd) :
    Ends anyFault (Spared c) (runCmd env c p cmd) := by
  rw [runCmd_eq]
  have hcall := callHandlers_untouched env cmd c.world
  rcases hout : callHandlers env cmd c.world with f | out
  · trivial
  · rw [hout] at hcall
    exact ⟨rfl, hcall.loop, hcall.blocks, hcall.cells⟩

theorem runLoop_spared (env : Env) (fuel : Nat) (q : Option CmdPtr) (c : Conn) :
    Ends anyFault (Spared c) (runLoop env fuel q c) := by
  induction fuel generalizing q c with
  | zero =>
    cases q with
    | none => exact .refl c
    | some p => trivial
  | succ fuel ih =>
    cases q with
    | none => exact .refl c
    | some p =>
      apply (ends_any _).bind
      rintro ⟨p, cmd⟩ _ _
      apply (ends_any _).bind
      intro complete _ _
      dsimp only
      split
      · apply (runCmd_spared env c p cmd).bind
        intro c₁ _ h₁
        exact (ih cmd.next c₁).mono fun c₂ h₂ => h₁.trans h₂
      · exact ih cmd.next c

theorem cmdDeleteHead_spared (c : Conn) : Ends anyFault (Spared c) (cmdDeleteHead c) := by
  unfold cmdDeleteHead
  split
  · exact .refl c
  · apply (ends_any _).bind
    intro out _ _
    exact ⟨rfl, rfl, rfl, List.length_set⟩

theorem deleteLoop_spared (fuel : Nat) (c : Conn) : Ends anyFault (Spared c) (deleteLoop fuel c) := by
  induction fuel generalizing c with
  | zero => trivial
  | succ fuel ih =>
    unfold deleteLoop
    split
    · exact .refl c
    · apply (ends_any _).bind
      rintro ⟨p, cmd⟩ _ _
      apply (ends_any _).bind
      intro complete _ _
      split
      · apply (cmdDeleteHead_spared c).bind
        intro c₁ _ h₁
        exact (ih c₁).mono fun c₂ h₂ => h₁.trans h₂
      · exact .refl c

theorem allCmd_spared (env : Env) (c : Conn) : Ends anyFault (Spared c) (allCmd env c) := by
  apply (runLoop_spared env _ _ c).bind
  intro c₁ _ h₁
  exact (deleteLoop_spared _ c₁).mono fun c₂ h₂ => h₁.trans h₂

/-- The same client, and the same event loop. -/
structure LoopKept (c c' : Conn) : Prop where
  me : c'.me = c.me
  loop : c'.world.loop = c.world.loop

theorem Spared.loopKept {c c' : Conn} (h : Spared c c') : LoopKept c c' := ⟨h.me, h.world.loop⟩

end BoAtom
