import BoAtom.Fault
import BoAtom.Ae.FileEvent
import BoAtom.Lib.Memory
import BoAtom.RedisDict.Dict

/-! # Z_my_work_mem/tcp_server.h

    The structures of the server and the macros on its queues.

    A `Cmd *` and a `ClientStat *` are indices into pools, so that aliasing
    and use after free are visible; an argument is a pointer into the byte
    heap.  The arrays of a `Cmd` and of a `Response` have `CMD_ARGS_MAX`
    entries and are indexed by `Fin`: every access of the source goes
    through `slot`, which faults outside of the array.  Left out are the
    fields nothing computes with (`ip`, `port`, `send_response`,
    `send_pos`). -/

namespace BoAtom

open Memory

/-! ## Section 1: Structures -/

abbrev cmdArgsMax : Nat := 512

abbrev clientRecvCmdLength : Nat := 64

abbrev CmdPtr : Type := Nat

/-- A `ClientStat *`. -/
abbrev ClientId : Type := Nat

structure Cmd where
  argsNum : Int
  value : Fin cmdArgsMax → Option Addr
  itemLength : Fin cmdArgsMax → Nat
  itemPos : Fin cmdArgsMax → Nat
  curItem : Nat
  next : Option CmdPtr

/-- A `char *` of a response: into a string literal or into the heap. -/
inductive CharPtr where
  | null
  | lit (s : Bytes)
  | heap (a : Addr)
  deriving DecidableEq, Repr

structure Response where
  argsNum : Nat
  value : Fin cmdArgsMax → CharPtr
  itemLength : Fin cmdArgsMax → Nat
  itemPos : Fin cmdArgsMax → Nat
  curItem : Nat

/-- `char recv_cmd[CLIENT_RECV_CMD_LENGTH]`. -/
structure RecvBuf where
  bytes : Bytes
  length_eq : bytes.length = clientRecvCmdLength
  deriving DecidableEq

namespace RecvBuf

def zero : RecvBuf := ⟨List.replicate clientRecvCmdLength 0, by simp⟩

/-- Copy `src` to offset `off`. -/
def write (b : RecvBuf) (off : Nat) (src : Bytes) : RecvBuf :=
  ⟨overlay b.bytes off src, by rw [length_overlay, b.length_eq]⟩

/-- The bytes from offset `i` up to offset `j`. -/
def slice (b : RecvBuf) (i j : Nat) : Bytes := (b.bytes.take j).drop i

theorem length_slice (b : RecvBuf) {i j : Nat} (hj : j ≤ clientRecvCmdLength) :
    (b.slice i j).length = j - i := by
  simp [slice, b.length_eq, Nat.min_eq_left hj]

theorem length_slice_le (b : RecvBuf) (i j : Nat) : (b.slice i j).length ≤ j - i := by
  unfold slice
  rw [List.length_drop, List.length_take]
  omega

/-- What is behind `pre` has been received, or is behind `total` too. -/
theorem slice_append_drop (b : RecvBuf) {pre total : Nat} (hpre : pre ≤ total) :
    b.bytes.drop pre = b.slice pre total ++ b.bytes.drop total := by
  have hsplit := List.take_append_drop (total - pre) (b.bytes.drop pre)
  rw [List.drop_drop, Nat.add_sub_cancel' hpre] at hsplit
  unfold slice
  rw [List.drop_take, hsplit]

end RecvBuf

/-- The response queue is the list its `next` pointers form. -/
structure ClientStat where
  fd : Nat
  recvCmd : RecvBuf
  curCmdItem : Option CmdPtr
  recvCmdQueueHead : Option CmdPtr
  recvCmdQueueTail : Option CmdPtr
  recvPos : Nat
  sendResponseQueue : List Response
  next : Option ClientId
  pre : Option ClientId

/-- The key or the value of a dict entry. -/
structure DictItem where
  item : Option Addr
  length : Nat
  deriving DecidableEq, Repr, Inhabited

/-- The callbacks the server registers. -/
inductive FileProc where
  | serverAcceptHandle
  | recvCmdHandle
  | sendResponseHandle
  deriving DecidableEq, Repr

/-- Which of the two command functions `ALL_cmd` calls. -/
inductive Handler where
  | SET_cmd
  | GET_cmd
  deriving DecidableEq, Repr

/-! ## Section 2: What happens

    The log of a run.  No function reads it: it names, for the statements
    about runs, what the source does at the places below. -/

/-- `ALL_cmd` takes the command `p` out of the queue: its items, how much of
    each had been received and was expected, the functions called with it,
    and the items of the response then inserted. -/
structure Execution where
  cmd : CmdPtr
  items : List Bytes
  received : List (Nat × Nat)
  calls : List Handler
  res : Option (List Bytes)
  deriving DecidableEq, Repr

inductive Happened where
  /-- `read` returns `bs`. -/
  | received (me : ClientId) (bs : Bytes)
  /-- `CmdInsert`, and whether it found head and tail NULL. -/
  | inserted (me : ClientId) (p : CmdPtr) (emptyBefore : Bool)
  /-- `_free_client_cur_cmd` runs `CmdDeleteHead` to delete `meant`. -/
  | dropped (me : ClientId) (meant head : Option CmdPtr)
  /-- `ALL_cmd` passes a command to its function. -/
  | executed (me : ClientId) (e : Execution)
  /-- `write` accepts `bs`. -/
  | wrote (me : ClientId) (bs : Bytes)
  /-- `ResponseDeleteHead` after the last item. -/
  | finished (me : ClientId)
  /-- `clientDelete`. -/
  | closed (me : ClientId)
  deriving DecidableEq, Repr

/-! ## Section 3: The state -/

/-- What the clients share: memory, the dict, the event loop. -/
structure World where
  heap : Heap
  cmds : Pool Cmd
  dict : Dict DictItem DictItem
  loop : AeEventLoop FileProc ClientId
  trace : List Happened

structure Server where
  clients : Pool ClientStat
  clientQueue : Option ClientId
  world : World

/-- What a callback works on: its `clientData`, and the world. -/
structure Conn where
  me : ClientId
  client : ClientStat
  world : World

/-- What the code is run with: the hash function of the dict, and the bytes
    found in a block after `free`. -/
structure Env where
  hash : Bytes → UInt32
  released : Addr → Bytes → Bytes

def World.log (w : World) (x : Happened) : World := { w with trace := w.trace ++ [x] }

/-! ## Section 4: Memory accesses -/

/-- An index into the arrays of a `Cmd`. -/
def slot (i : Int) : Except Fault (Fin cmdArgsMax) :=
  if h : 0 ≤ i ∧ i < cmdArgsMax then .ok ⟨i.toNat, by omega⟩ else .error (.cmdIndex i)

/-- The same for a `Response`. -/
def responseSlot (i : Nat) : Except Fault (Fin cmdArgsMax) :=
  if h : i < cmdArgsMax then .ok ⟨i, h⟩ else .error (.responseIndex i)

/-- `*p` for a `Cmd *`. -/
def derefCmd (w : World) (p : Option CmdPtr) : Except Fault (CmdPtr × Cmd) :=
  match p with
  | none => .error .nullDeref
  | some p =>
    match w.cmds.get p with
    | none => .error .nullDeref
    | some cmd => .ok (p, cmd)

theorem derefCmd_some {w : World} {p : CmdPtr} {cmd : Cmd} (h : w.cmds.get p = some cmd) :
    derefCmd w (some p) = .ok (p, cmd) := by
  simp [derefCmd, h]

theorem derefCmd_ok {w : World} {o : Option CmdPtr} {p : CmdPtr} {cmd : Cmd}
    (h : derefCmd w o = .ok (p, cmd)) : o = some p ∧ w.cmds.get p = some cmd := by
  rcases o with _ | q
  · cases h
  · simp only [derefCmd] at h
    rcases hget : w.cmds.get q with _ | cmd'
    · simp [hget] at h
    · simp only [hget, Except.ok.injEq, Prod.mk.injEq] at h
      obtain ⟨rfl, rfl⟩ := h
      exact ⟨rfl, hget⟩

def World.setCmd (w : World) (p : CmdPtr) (cmd : Cmd) : World :=
  { w with cmds := w.cmds.set p cmd }

/-- The first `n` bytes behind a pointer. -/
def loadItem (h : Heap) (p : Option Addr) (n : Nat) : Bytes :=
  match p with
  | none => readAs [] n
  | some a => h.load a n

def loadChars (h : Heap) (p : CharPtr) (n : Nat) : Bytes :=
  match p with
  | .null => readAs [] n
  | .lit s => readAs s n
  | .heap a => h.load a n

/-- `free(p)`. -/
def freeItem (env : Env) (w : World) (p : Option Addr) : Except Fault World :=
  match p with
  | none => .ok w
  | some a =>
    match w.heap.free env.released a with
    | none => .error .doubleFree
    | some h => .ok { w with heap := h }

/-- `memcpy(p + off, bs, |bs|)`. -/
def storeItem (w : World) (p : Option Addr) (off : Nat) (bs : Bytes) : Except Fault World :=
  match p with
  | none => .error .nullDeref
  | some a =>
    match w.heap.store a off bs with
    | none => .error .overrun
    | some h => .ok { w with heap := h }

/-! ## Section 5: The queue macros -/

/-- `ResponseInsert(client, res)`. -/
def responseInsert (client : ClientStat) (res : Option Response) : ClientStat :=
  match res with
  | none => client
  | some r => { client with sendResponseQueue := client.sendResponseQueue ++ [r] }

/-- `ResponseDeleteHead(client)`. -/
def responseDeleteHead (client : ClientStat) : ClientStat :=
  { client with sendResponseQueue := client.sendResponseQueue.tail }

def responseCount (client : ClientStat) : Nat := client.sendResponseQueue.length

/-- `CmdInsert(client, cmd)`; the branch for a queue in use does not move
    the tail. -/
def cmdInsert (c : Conn) (p : CmdPtr) : Except Fault Conn := do
  let (_, cmd) ← derefCmd c.world (some p)
  let emptyBefore := c.client.recvCmdQueueHead.isNone && c.client.recvCmdQueueTail.isNone
  let world := c.world.log (.inserted c.me p emptyBefore)
  if emptyBefore then
    .ok { c with
      client := { c.client with recvCmdQueueHead := some p, recvCmdQueueTail := some p }
      world := world.setCmd p { cmd with next := none } }
  else
    let (t, last) ← derefCmd world c.client.recvCmdQueueTail
    let world := world.setCmd t { last with next := some p }
    let (_, cmd) ← derefCmd world (some p)
    .ok { c with world := world.setCmd p { cmd with next := none } }

/-- `CmdDeleteHead(client)`. -/
def cmdDeleteHead (c : Conn) : Except Fault Conn :=
  if c.client.recvCmdQueueHead.isNone then .ok c
  else do
    let (p, cmd) ← derefCmd c.world c.client.recvCmdQueueHead
    .ok { c with
      client := { c.client with
        recvCmdQueueTail :=
          if c.client.recvCmdQueueHead = c.client.recvCmdQueueTail then none
          else c.client.recvCmdQueueTail
        recvCmdQueueHead := cmd.next }
      world := { c.world with cmds := c.world.cmds.release p } }

/-- `CmdComplete(client, cmd)`: only the last item is looked at. -/
def cmdComplete (cmd : Cmd) : Except Fault Bool :=
  if cmd.argsNum = 0 then .ok false
  else do
    let i ← slot (cmd.argsNum - 1)
    .ok (cmd.itemPos i ≥ cmd.itemLength i)

end BoAtom
