import BoAtom.Mem.Types

/-! # Z_my_work_mem/cmd.c

    The command functions over the dict, and `ALL_cmd`, which runs the
    complete commands of a client's queue.

    The bytes of an argument are compared with `memcmp` over the length the
    decoder recorded.  A `DictItem` is its pointer and length; its own
    block is allocated and freed together with the item and is not
    modelled.  `SET_cmd` frees `value[0]`, and `ALL_cmd` looks at it again
    afterwards: what is read there is `env.released`. -/

namespace BoAtom

open Memory CString

/-! ## Section 1: Literals and constant answers -/

/-- `"$3\r\nSET\r\n"`. -/
def strSET : Bytes := [36, 51, 13, 10, 83, 69, 84, 13, 10]

/-- `"$3\r\nset\r\n"`. -/
def strset : Bytes := [36, 51, 13, 10, 115, 101, 116, 13, 10]

/-- `"$3\r\nGET\r\n"`. -/
def strGET : Bytes := [36, 51, 13, 10, 71, 69, 84, 13, 10]

/-- `"$3\r\nget\r\n"`. -/
def strget : Bytes := [36, 51, 13, 10, 103, 101, 116, 13, 10]

/-- `"*1\r\n$2\r\nOK\r\n"`. -/
def setOkStr : Bytes := [42, 49, 13, 10, 36, 50, 13, 10, 79, 75, 13, 10]

/-- `"*1\r\nS3\r\nERR\r\n"`. -/
def setErrStr : Bytes := [42, 49, 13, 10, 83, 51, 13, 10, 69, 82, 82, 13, 10]

/-- `"*1\r\n"`. -/
def num1 : Bytes := [42, 49, 13, 10]

/-- A response whose only item is a string literal. -/
def literalResponse (s : Bytes) : Response :=
  { argsNum := 1
    value := fun i => if i = 0 then .lit s else .null
    itemLength := fun i => if i = 0 then s.length else 0
    itemPos := fun _ => 0
    curItem := 0 }

/-- `_get_ok_response`. -/
def getOkResponse : Response := literalResponse setOkStr

/-- `_get_err_response`. -/
def getErrResponse : Response := literalResponse setErrStr

def charPtr : Option Addr → CharPtr
  | none => .null
  | some a => .heap a

/-- The answer `GET_cmd` builds: `num_1`, and the stored item itself. -/
def valueResponse (v : DictItem) : Response :=
  { argsNum := 2
    value := fun i => if i = 0 then .lit num1 else if i = 1 then charPtr v.item else .null
    itemLength := fun i => if i = 0 then num1.length else if i = 1 then v.length else 0
    itemPos := fun _ => 0
    curItem := 0 }

/-! ## Section 2: The dict's type -/

/-- `myHashfunc`. -/
def myHashfunc (env : Env) (h : Heap) (item : DictItem) : UInt32 :=
  env.hash (loadItem h item.item item.length)

/-- `myKeyconpare`. -/
def myKeyconpare (h : Heap) (item1 item2 : DictItem) : Bool :=
  if item1.length ≠ item2.length then false
  else loadItem h item1.item item1.length == loadItem h item2.item item1.length

/-- `dicttype`. -/
def dicttype (env : Env) (h : Heap) : DictType DictItem :=
  { hashFunction := myHashfunc env h, keyCompare := myKeyconpare h }

/-- `myKeyfree` and `myValuefree`. -/
def myItemfree (env : Env) (w : World) (item : DictItem) : Except Fault World :=
  freeItem env w item.item

/-- `Dict = dictCreate(..); dictExpand(Dict, size)`. -/
def initDict (size : Nat) : Dict DictItem DictItem := (dictExpand dictCreate size).2

/-! ## Section 3: SET and GET -/

def setCmd (env : Env) (cmd : Cmd) (w : World) : Except Fault (Response × World) :=
  if cmd.argsNum ≠ 3 then .ok (getErrResponse, w)
  else do
    let itemKey : DictItem := ⟨cmd.value 1, cmd.itemLength 1⟩
    let itemValue : DictItem := ⟨cmd.value 2, cmd.itemLength 2⟩
    let w ← freeItem env w (cmd.value 0)
    let (r, d) ← dictAdd (dicttype env w.heap) w.dict itemKey itemValue
    match r with
    | .ok => .ok (getOkResponse, { w with dict := d })
    | .err => do
      let (_, old, d) ← dictReplace (dicttype env w.heap) d itemKey itemValue
      let w := { w with dict := d }
      -- `dictFreeVal` of the value that was there
      let w ← match old with
        | none => .ok w
        | some v => myItemfree env w v
      let w ← myItemfree env w itemKey
      .ok (getOkResponse, w)

def getCmd (env : Env) (cmd : Cmd) (w : World) : Except Fault (Response × World) :=
  if cmd.argsNum ≠ 2 ∧ cmd.argsNum ≠ 3 then .ok (getErrResponse, w)
  else do
    let itemKey : DictItem := ⟨cmd.value 1, cmd.itemLength 1⟩
    let w ← freeItem env w (cmd.value 0)
    let (entry, d) ← dictFind (dicttype env w.heap) w.dict itemKey
    let w ← myItemfree env { w with dict := d } itemKey
    match entry with
    | none => .ok (getErrResponse, w)
    | some ref =>
      match entryAt d ref with
      | none => .error .nullDeref
      | some e => .ok (valueResponse e.val, w)

/-! ## Section 4: ALL_cmd -/

/-- `memcmp(item, s, length) == 0` for a literal and an item of that
    length; one longer than the literal and its NUL differs before its end. -/
def sameAs (s item : Bytes) : Bool := item == (s ++ [0]).take item.length

def nameIs (h : Heap) (cmd : Cmd) (s : Bytes) : Bool :=
  sameAs s (loadItem h (cmd.value 0) (cmd.itemLength 0))

/-- The items of a command, and how much was received of how much. -/
def cmdItems (h : Heap) (cmd : Cmd) : List Bytes :=
  (List.range cmd.argsNum.toNat).map fun i =>
    if hi : i < cmdArgsMax then loadItem h (cmd.value ⟨i, hi⟩) (cmd.itemLength ⟨i, hi⟩) else []

def cmdReceived (cmd : Cmd) : List (Nat × Nat) :=
  (List.range cmd.argsNum.toNat).map fun i =>
    if hi : i < cmdArgsMax then (cmd.itemPos ⟨i, hi⟩, cmd.itemLength ⟨i, hi⟩) else (0, 0)

/-- Item `i` of a response, as it reads now. -/
def Response.item (h : Heap) (r : Response) (i : Nat) : Bytes :=
  if hi : i < cmdArgsMax then loadChars h (r.value ⟨i, hi⟩) (r.itemLength ⟨i, hi⟩) else []

def Response.items (h : Heap) (r : Response) : List Bytes :=
  (List.range r.argsNum).map (r.item h)

/-- The body of `if (CmdComplete(..) && tmp->args_num > 0 && cmd(client) != tmp)`. -/
def runCmd (env : Env) (c : Conn) (p : CmdPtr) (cmd : Cmd) : Except Fault Conn := do
  let items := cmdItems c.world.heap cmd
  let received := cmdReceived cmd
  let _ ← slot 0
  let isSet := nameIs c.world.heap cmd strSET || nameIs c.world.heap cmd strset
  let (res, w) ← if isSet then do
      let (r, w) ← setCmd env cmd c.world
      .ok (some r, w)
    else .ok (none, c.world)
  -- `value[0]` is compared again, also when `SET_cmd` has just freed it
  let isGet := nameIs w.heap cmd strGET || nameIs w.heap cmd strget
  let (res, w) ← if isGet then do
      let (r, w) ← getCmd env cmd w
      .ok (some r, w)
    else .ok (res, w)
  .ok { c with
    client := responseInsert c.client res
    world := w.log (.executed c.me
      { cmd := p
        items := items
        received := received
        calls := (if isSet then [.SET_cmd] else []) ++ (if isGet then [.GET_cmd] else [])
        res := res.map (Response.items w.heap) }) }

/-- `for (tmp = CmdHead(client); tmp; tmp = tmp->next)`. -/
def runLoop (env : Env) : Nat → Option CmdPtr → Conn → Except Fault Conn
  | _, none, c => .ok c
  | 0, some _, _ => .error .diverge
  | fuel + 1, some p, c => do
    let (p, cmd) ← derefCmd c.world (some p)
    let complete ← cmdComplete cmd
    let c ← if complete && decide (cmd.argsNum > 0) && decide (c.client.curCmdItem ≠ some p) then
        runCmd env c p cmd
      else .ok c
    runLoop env fuel cmd.next c

/-- `while (CmdHead(client) && CmdComplete(client, CmdHead(client)))`. -/
def deleteLoop : Nat → Conn → Except Fault Conn
  | 0, _ => .error .diverge
  | fuel + 1, c =>
    if c.client.recvCmdQueueHead.isNone then .ok c
    else do
      let (_, cmd) ← derefCmd c.world c.client.recvCmdQueueHead
      if ← cmdComplete cmd then do
        let c ← cmdDeleteHead c
        deleteLoop fuel c
      else .ok c

/-- `ALL_cmd`; a queue has at most as many commands as were ever allocated. -/
def allCmd (env : Env) (c : Conn) : Except Fault Conn := do
  let fuel := c.world.cmds.cells.length + 1
  let c ← runLoop env fuel c.client.recvCmdQueueHead c
  deleteLoop fuel c

end BoAtom
