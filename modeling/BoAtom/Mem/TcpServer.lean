import BoAtom.Mem.Cmd
import BoAtom.Lib.Machine

/-! # Z_my_work_mem/tcp_server.c

    The decoder, the callbacks, and the server as a transition system.

    An event is one pass of a callback's loop: what one `read` or one
    `write` returned.  A callback runs its passes one after the other until
    the loop ends, so every interleaving of callbacks is a run of passes.

    `strstr` is a search in the 64 bytes of `recv_cmd`: the bytes of the
    pointer field behind it are taken to hold no CR LF. -/

namespace BoAtom

open Memory CString

/-! ## Section 1: The two scans of the decoder -/

/-- `'*'`. -/
abbrev star : UInt8 := 42

/-- `'$'`. -/
abbrev dollar : UInt8 := 36

/-- `while (pre < head + total_len && *pre != '*')` over the bytes up to
    `head + total_len`; `none` is the `return 0` inside the loop. -/
def skipToStar : Bytes → Option Nat
  | [] => none
  | b :: s => if b = star then some 0 else (skipToStar s).map (· + 1)

/-- What the code finds where a header should be. -/
inductive HeaderScan where
  /-- No `'*'` among the received bytes. -/
  | skipped
  /-- A `'*'` at `pre`, and no CR LF behind it. -/
  | partLine (pre : Nat)
  | noStar
  /-- `num == 0`; the line ends at `stop`. -/
  | zero (stop : Nat)
  | count (num : Int) (stop : Nat)
  deriving DecidableEq, Repr

def scanHeader (buf : RecvBuf) (total pre : Nat) : HeaderScan :=
  match (if pre < total then skipToStar (buf.slice pre total) else some 0) with
  | none => .skipped
  | some k =>
    let pre := pre + k
    match strstrCrlf (buf.bytes.drop pre) with
    | none => .partLine pre
    | some q =>
      if buf.bytes[pre]? ≠ some star then .noStar
      else
        let stop := pre + q
        let num := atoi ((buf.write stop [0]).bytes.drop (pre + 1))
        if num = 0 then .zero stop else .count num stop

/-- What the code finds where an item should be. -/
inductive ItemScan where
  | empty
  | noDollar
  | partLine
  /-- `num <= 5`. -/
  | short
  | size (num : Nat)
  deriving DecidableEq, Repr

/-- At every search `end == pre`, so one position is kept; the NUL written
    at `end` for `atoi` and `strlen` is taken back. -/
def scanItem (buf : RecvBuf) (total pre : Nat) : ItemScan :=
  if pre ≥ total then .empty
  else if buf.bytes[pre]? ≠ some dollar then .noDollar
  else
    match strstrCrlf (buf.bytes.drop pre) with
    | none => .partLine
    | some q =>
      let line := (buf.write (pre + q) [0]).bytes.drop (pre + 1)
      let num := wrap32 (atoi line + (1 + strlen line + 2 + 2))
      if num ≤ 5 then .short else .size num.toNat

/-- `if (recv_cmd != pre) { memmove(recv_cmd, pre, n); recv_pos = n; }`. -/
def keepFrom (client : ClientStat) (total pre : Nat) : ClientStat :=
  if pre ≠ 0 then
    { client with
      recvCmd := client.recvCmd.write 0 (client.recvCmd.slice pre total)
      recvPos := total - pre }
  else client

/-! ## Section 2: _check_cmd_complete2 -/

/-- A part of the decoder's loop returns, or goes on at `pre`. -/
inductive Flow (α : Type) where
  | ret (code : Int) (c : α)
  | next (pre : Nat) (c : α)

def Flow.andThen {α : Type} (f : Flow α) (k : Nat → α → Except Fault (Flow α)) :
    Except Fault (Flow α) :=
  match f with
  | .ret code c => .ok (.ret code c)
  | .next pre c => k pre c

/-- `if (ResponseCount(client) > 0) aeCreateFileEvent(.., AE_WRITABLE, ..)`. -/
def registerWrite (c : Conn) : Conn :=
  if responseCount c.client > 0 then
    { c with world := { c.world with
      loop := (aeCreateFileEvent c.world.loop c.client.fd aeWritable .sendResponseHandle c.me).2 } }
  else c

/-- A `Cmd` after `memset`, with its number of arguments. -/
def newCmd (num : Int) : Cmd :=
  { argsNum := num
    value := fun _ => none
    itemLength := fun _ => 0
    itemPos := fun _ => 0
    curItem := 0
    next := none }

/-- The body of `if (!cmd(_stat) || cur_item >= args_num)`. -/
def headerStage (env : Env) (total pre : Nat) (c : Conn) : Except Fault (Flow Conn) :=
  match scanHeader c.client.recvCmd total pre with
  | .skipped => .ok (.ret 0 { c with client := { c.client with recvPos := 0 } })
  | .partLine pre => .ok (.ret 0 { c with client := keepFrom c.client total pre })
  | .noStar => .ok (.ret (-1) c)
  | .zero stop =>
    .ok (.ret (-1) { c with client := { c.client with recvCmd := c.client.recvCmd.write stop [0] } })
  | .count num stop => do
    let (p, cmds) := c.world.cmds.alloc (newCmd num)
    let c : Conn := { c with
      client := { c.client with recvCmd := c.client.recvCmd.write stop [0], curCmdItem := some p }
      world := { c.world with cmds := cmds } }
    let c ← allCmd env c
    let c ← cmdInsert (registerWrite c) p
    .ok (.next (stop + 2) c)

/-- `while (cur_item < args_num)`. -/
def itemLoop (total : Nat) : Nat → Nat → Conn → Except Fault (Flow Conn)
  | 0, _, _ => .error .diverge
  | fuel + 1, pre, c => do
    let (p, cmd) ← derefCmd c.world c.client.curCmdItem
    if ¬ (cmd.curItem : Int) < cmd.argsNum then .ok (.next pre c)
    else
      match scanItem c.client.recvCmd total pre with
      | .empty => .ok (.ret 0 { c with client := { c.client with recvPos := 0 } })
      | .noDollar => .ok (.ret (-1) c)
      | .partLine => .ok (.ret 0 { c with client := keepFrom c.client total pre })
      | .short => .ok (.ret (-1) c)
      | .size num => do
        let i ← slot cmd.curItem
        let (a, heap) := c.world.heap.malloc num
        let cmd := { cmd with
          itemLength := Function.update cmd.itemLength i num
          value := Function.update cmd.value i (some a) }
        let w := { c.world with heap := heap }
        if pre + num > total then do
          let w ← storeItem w (some a) 0 (c.client.recvCmd.slice pre total)
          let cmd := { cmd with itemPos := Function.update cmd.itemPos i (total - pre) }
          .ok (.ret 0 { c with
            client := { c.client with recvPos := 0 }, world := w.setCmd p cmd })
        else do
          let w ← storeItem w (some a) 0 (c.client.recvCmd.slice pre (pre + num))
          let cmd := { cmd with
            itemPos := Function.update cmd.itemPos i num, curItem := cmd.curItem + 1 }
          let c := { c with world := w.setCmd p cmd }
          if (cmd.curItem : Int) > cmd.argsNum then .ok (.ret (-1) c)
          else itemLoop total fuel (pre + num) c

/-- `cur_cmd_item = NULL; ALL_cmd(..); if (ResponseCount(..) > 0) ..`. -/
def completeCmd (env : Env) (c : Conn) : Except Fault Conn := do
  let c ← allCmd env { c with client := { c.client with curCmdItem := none } }
  .ok (registerWrite c)

/-- `!cmd(_stat) || cmd(_stat)->cur_item >= cmd(_stat)->args_num`. -/
def wantsHeader (c : Conn) : Except Fault Bool :=
  if c.client.curCmdItem.isNone then .ok true
  else do
    let (_, cmd) ← derefCmd c.world c.client.curCmdItem
    .ok (decide ((cmd.curItem : Int) ≥ cmd.argsNum))

/-- `if (cmd(_stat)->cur_item >= cmd(_stat)->args_num)` behind the loop. -/
def completeIfFull (env : Env) (c : Conn) : Except Fault Conn := do
  let (_, cmd) ← derefCmd c.world c.client.curCmdItem
  if (cmd.curItem : Int) ≥ cmd.argsNum then completeCmd env c else .ok c

/-- A header where one is due, then items. -/
def decodeCmd (env : Env) (total pre : Nat) (c : Conn) : Except Fault (Flow Conn) := do
  let fresh ← wantsHeader c
  let flow ← (if fresh then headerStage env total pre c else .ok (.next pre c))
  flow.andThen (itemLoop total (clientRecvCmdLength + 1))

/-- `while (1)`. -/
def checkLoop (env : Env) (total : Nat) : Nat → Nat → Conn → Except Fault (Int × Conn)
  | 0, _, _ => .error .diverge
  | fuel + 1, pre, c => do
    match ← decodeCmd env total pre c with
    | .ret code c => .ok (code, c)
    | .next pre c => do
      let c ← completeIfFull env c
      if pre ≥ total then .ok (0, { c with client := { c.client with recvPos := 0 } })
      else checkLoop env total fuel pre c

/-- `_check_cmd_complete2`; each round of a loop moves `pre` forward, so 65
    rounds are enough. -/
def checkCmdComplete2 (env : Env) (c : Conn) (total : Nat) : Except Fault (Int × Conn) :=
  checkLoop env total (clientRecvCmdLength + 1) 0 c

/-! ## Section 3: Releasing commands -/

/-- `for (pos = 0; pos < args_num; pos++) if (value[pos] != NULL) { free; = NULL; }`. -/
def freeValues (env : Env) (p : CmdPtr) : Nat → Nat → Cmd → World → Except Fault World
  | 0, _, _, w => .ok w
  | n + 1, pos, cmd, w => do
    let i ← slot pos
    let w ← freeItem env w (cmd.value i)
    let cmd := { cmd with value := Function.update cmd.value i none }
    freeValues env p n (pos + 1) cmd (w.setCmd p cmd)

/-- `_free_client_cur_cmd`. -/
def freeClientCurCmd (env : Env) (c : Conn) : Except Fault Conn :=
  if c.client.curCmdItem.isNone then .ok c
  else do
    let (p, cmd) ← derefCmd c.world c.client.curCmdItem
    let w ← freeValues env p cmd.argsNum.toNat 0 cmd c.world
    let c := { c with world := w.log (.dropped c.me c.client.curCmdItem c.client.recvCmdQueueHead) }
    let c ← cmdDeleteHead c
    .ok { c with client := { c.client with curCmdItem := none, recvPos := 0 } }

/-- `while (CmdHead(client))` of `_clientFreebuf`. -/
def freebufLoop (env : Env) : Nat → Conn → Except Fault Conn
  | 0, _ => .error .diverge
  | fuel + 1, c =>
    if c.client.recvCmdQueueHead.isNone then .ok c
    else do
      let (p, cmd) ← derefCmd c.world c.client.recvCmdQueueHead
      let w ← freeValues env p cmd.argsNum.toNat 0 cmd c.world
      let c ← cmdDeleteHead { c with world := w }
      freebufLoop env fuel c

/-- `_clientFreebuf`. -/
def clientFreebuf (env : Env) (c : Conn) : Except Fault Conn := do
  let c ← freebufLoop env (c.world.cmds.cells.length + 1) c
  .ok { c with client := { c.client with sendResponseQueue := [] } }

/-! ## Section 4: The list of clients -/

def derefClient (s : Server) (id : Option ClientId) : Except Fault (ClientId × ClientStat) :=
  match id with
  | none => .error .nullDeref
  | some id =>
    match s.clients.get id with
    | none => .error .nullDeref
    | some client => .ok (id, client)

def Server.setClient (s : Server) (id : ClientId) (client : ClientStat) : Server :=
  { s with clients := s.clients.set id client }

/-- `if (id) id->pre = p`. -/
def setPre (s : Server) (id p : Option ClientId) : Except Fault Server :=
  if id.isNone then .ok s
  else do
    let (id, client) ← derefClient s id
    .ok (s.setClient id { client with pre := p })

def clientAdd (s : Server) (tmp : ClientId) : Except Fault Server := do
  let (_, client) ← derefClient s (some tmp)
  let s := s.setClient tmp { client with next := s.clientQueue }
  let s ← setPre s s.clientQueue (some tmp)
  let s := { s with clientQueue := some tmp }
  let (_, client) ← derefClient s (some tmp)
  .ok (s.setClient tmp { client with pre := none })

def clientDelete (env : Env) (s : Server) (tmp : ClientId) : Except Fault Server := do
  let (_, client) ← derefClient s (some tmp)
  let s ← if some tmp = s.clientQueue then do
      let s := { s with clientQueue := client.next }
      setPre s s.clientQueue none
    else do
      let (id, before) ← derefClient s client.pre
      let s := s.setClient id { before with next := client.next }
      setPre s client.next client.pre
  let loop := aeDeleteFileEvent s.world.loop client.fd ⟨true, true⟩
  let world := { s.world with loop := loop }
  let c ← clientFreebuf env { me := tmp, client := client, world := world.log (.closed tmp) }
  .ok { s with clients := s.clients.release tmp, world := c.world }

/-! ## Section 5: The callbacks, one pass at a time -/

/-- What `read` returns: data, end of file, or -1 with `errno`. -/
inductive ReadResult where
  | data (bs : Bytes)
  | eof
  | eagain
  | error
  deriving DecidableEq, Repr

/-- What `write` returns. -/
inductive WriteResult where
  | accepted (k : Nat)
  | eagain
  | error
  deriving DecidableEq, Repr

/-- How a pass leaves its loop. -/
inductive PassEnd where
  | again
  | returned
  | disconnect
  deriving DecidableEq, Repr

/-- At most `asked` bytes are returned, and none when none are asked for. -/
def ReadResult.bound (r : ReadResult) (asked : Nat) : ReadResult :=
  match r with
  | .data bs => if bs.take asked = [] then .eof else .data (bs.take asked)
  | r => r

/-- The pass that reads the rest of the current item into its argument. -/
def recvItem (env : Env) (c : Conn) (p : CmdPtr) (cmd : Cmd) (i : Fin cmdArgsMax)
    (r : ReadResult) : Except Fault (PassEnd × Conn) :=
  match r.bound (cmd.itemLength i - cmd.itemPos i) with
  | .eagain => .ok (.returned, c)
  | .eof | .error => .ok (.disconnect, c)
  | .data bs => do
    let w := c.world.log (.received c.me bs)
    let w ← storeItem w (cmd.value i) (cmd.itemPos i) bs
    let pos := cmd.itemPos i + bs.length
    let cmd := { cmd with itemPos := Function.update cmd.itemPos i pos }
    let full := decide (pos ≥ cmd.itemLength i)
    let cmd := if full then { cmd with curItem := cmd.curItem + 1 } else cmd
    let client := if full then { c.client with recvPos := 0 } else c.client
    let c ← completeIfFull env { c with client := client, world := w.setCmd p cmd }
    .ok (.again, c)

/-- The pass that reads into `recv_cmd` and decodes. -/
def recvHeader (env : Env) (c : Conn) (r : ReadResult) : Except Fault (PassEnd × Conn) :=
  match r.bound (clientRecvCmdLength - c.client.recvPos) with
  | .eagain => .ok (.returned, c)
  | .eof | .error => .ok (.disconnect, c)
  | .data bs => do
    let pos := c.client.recvPos + bs.length
    let c : Conn := { c with
      client := { c.client with
        recvCmd := c.client.recvCmd.write c.client.recvPos bs, recvPos := pos }
      world := c.world.log (.received c.me bs) }
    let (checkRet, c) ← checkCmdComplete2 env c pos
    let c ← (if checkRet < 0 then freeClientCurCmd env c else .ok c)
    .ok (.again, c)

/-- One pass of the loop of `recv_cmd_handle`. -/
def recvPass (env : Env) (c : Conn) (r : ReadResult) : Except Fault (PassEnd × Conn) :=
  if c.client.curCmdItem.isNone then recvHeader env c r
  else do
    let (p, cmd) ← derefCmd c.world c.client.curCmdItem
    let i ← slot cmd.curItem
    if cmd.itemLength i ≠ 0 ∧ cmd.itemLength i > cmd.itemPos i then recvItem env c p cmd i r
    else recvHeader env c r

/-- `if (item_pos[cur_item] >= item_length[cur_item]) cur_item += 1`. -/
def nextItem (tmp : Response) (i : Fin cmdArgsMax) : Response :=
  if tmp.itemPos i ≥ tmp.itemLength i then { tmp with curItem := tmp.curItem + 1 } else tmp

/-- `write(fd, value[cur_item], item_length[cur_item] - item_pos[cur_item])`
    for the response at the head of the queue. -/
def writeItem (c : Conn) (tmp : Response) (rest : List Response) (i : Fin cmdArgsMax)
    (r : WriteResult) : PassEnd × Conn :=
  match r with
  | .error => (.disconnect, { c with client := { c.client with sendResponseQueue := tmp :: rest } })
  | .eagain => (.returned, { c with client := { c.client with sendResponseQueue := tmp :: rest } })
  | .accepted k =>
    let asked := loadChars c.world.heap (tmp.value i) (tmp.itemLength i - tmp.itemPos i)
    let ret := min k (tmp.itemLength i - tmp.itemPos i)
    let tmp := { tmp with itemPos := Function.update tmp.itemPos i (tmp.itemPos i + ret) }
    (.again, { c with
      client := { c.client with sendResponseQueue := tmp :: rest }
      world := c.world.log (.wrote c.me (asked.take ret)) })

/-- One pass of the loop of `send_response_handle`; the check before the
    loop and the code behind it both stop watching for writes. -/
def sendPass (c : Conn) (r : WriteResult) : Except Fault (PassEnd × Conn) :=
  match c.client.sendResponseQueue with
  | [] =>
    let loop := aeDeleteFileEvent c.world.loop c.client.fd aeWritable
    .ok (.returned, { c with world := { c.world with loop := loop } })
  | tmp :: rest => do
    let i ← responseSlot tmp.curItem
    let tmp := nextItem tmp i
    if tmp.curItem < tmp.argsNum then do
      let i ← responseSlot tmp.curItem
      .ok (writeItem c tmp rest i r)
    else
      .ok (.again, { c with
        client := responseDeleteHead c.client
        world := c.world.log (.finished c.me) })

/-! ## Section 6: The server -/

inductive Event where
  /-- `anetTcpAccept` returns `fd`; does `anetNonBlock` succeed? -/
  | connect (fd : Nat) (nonBlock : Bool)
  | recv (me : ClientId) (r : ReadResult)
  | send (me : ClientId) (r : WriteResult)
  deriving DecidableEq, Repr

/-- A `ClientStat` after `memset`, with its descriptor. -/
def newClient (fd : Nat) : ClientStat :=
  { fd := fd
    recvCmd := .zero
    curCmdItem := none
    recvCmdQueueHead := none
    recvCmdQueueTail := none
    recvPos := 0
    sendResponseQueue := []
    next := none
    pre := none }

/-- One connection of `server_accept_handle`. -/
def acceptPass (s : Server) (fd : Nat) (nonBlock : Bool) : Except Fault Server :=
  if ¬ nonBlock then .ok s
  else do
    let (tmp, clients) := s.clients.alloc (newClient fd)
    let s ← clientAdd { s with clients := clients } tmp
    let loop := (aeCreateFileEvent s.world.loop fd aeReadable .recvCmdHandle tmp).2
    let loop := (aeCreateFileEvent loop fd aeWritable .sendResponseHandle tmp).2
    .ok { s with world := { s.world with loop := loop } }

/-- Put back what a pass did to its client. -/
def settle (env : Env) (s : Server) (r : PassEnd × Conn) : Except Fault (PassEnd × Server) :=
  let s := { s.setClient r.2.me r.2.client with world := r.2.world }
  match r.1 with
  | .disconnect => do
    let s ← clientDelete env s r.2.me
    .ok (.disconnect, s)
  | e => .ok (e, s)

def recvStep (env : Env) (s : Server) (me : ClientId) (r : ReadResult) :
    Except Fault (PassEnd × Server) := do
  let (_, client) ← derefClient s (some me)
  let out ← recvPass env { me := me, client := client, world := s.world } r
  settle env s out

def sendStep (env : Env) (s : Server) (me : ClientId) (r : WriteResult) :
    Except Fault (PassEnd × Server) := do
  let (_, client) ← derefClient s (some me)
  let out ← sendPass { me := me, client := client, world := s.world } r
  settle env s out

/-- Does a client hold this descriptor? -/
def fdInUse (s : Server) (fd : Nat) : Bool :=
  s.clients.cells.any fun cell =>
    match cell with
    | none => false
    | some client => client.fd == fd

/-- The kernel does not hand out a descriptor that is in use, the accepting
    loop ends at 0, and a callback is only called for a client that exists. -/
def step (env : Env) (s : Server) (e : Event) : Except Fault Server :=
  match e with
  | .connect fd nonBlock =>
    if fd = 0 || fdInUse s fd then .ok s else acceptPass s fd nonBlock
  | .recv me r =>
    if (s.clients.get me).isNone then .ok s else (recvStep env s me r).map Prod.snd
  | .send me r =>
    if (s.clients.get me).isNone then .ok s else (sendStep env s me r).map Prod.snd

/-- `main`, up to `aeMain`. -/
def initServer : Server :=
  { clients := .empty
    clientQueue := none
    world :=
      { heap := ⟨[]⟩
        cmds := .empty
        dict := initDict 50
        loop := aeCreateEventLoop 1000
        trace := [] } }

/-! ## Section 7: The callbacks, whole -/

/-- `recv_cmd_handle`: passes until one leaves the loop. -/
def recvCmdHandle (env : Env) (me : ClientId) : List ReadResult → Server → Except Fault Server
  | [], s => .ok s
  | r :: rs, s => do
    let (e, s) ← recvStep env s me r
    match e with
    | .again => recvCmdHandle env me rs s
    | .returned | .disconnect => .ok s

/-- `send_response_handle`. -/
def sendResponseHandle (env : Env) (me : ClientId) : List WriteResult → Server → Except Fault Server
  | [], s => .ok s
  | r :: rs, s => do
    let (e, s) ← sendStep env s me r
    match e with
    | .again => sendResponseHandle env me rs s
    | .returned | .disconnect => .ok s

end BoAtom
