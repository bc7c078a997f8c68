import BoAtom.Fault
import BoAtom.Lib.LinkedTree
import BoAtom.Lib.Loop

/-! # data_structure/red_black/jsw_rbtree.c

    The red-black tree with insertion and removal in one pass down.  Nodes
    are allocated in a pool, and a pointer is an address or NULL; `link[0]`
    and `link[1]` are the links in direction `false` and `true`.  Items are
    opaque: `cmp` and `dup` are the functions the tree was made with, and
    what is passed to `rel` is returned to the caller.

    The false root `head` is allocated for the time of a call.  Its datum,
    NULL in the code, is never looked at.  Of a condition with `&&` both
    sides are read.  Allocation succeeds. -/

namespace BoAtom

open Memory Loop RedBlack

variable {α : Type}

/-! ## Section 1: Data -/

abbrev JswRbnode (α : Type) := Cell α

abbrev RbPool (α : Type) := Pool (JswRbnode α)

structure JswRbtree where
  root : Option Nat
  size : UInt64
  deriving DecidableEq, Repr

def jswRbnew : JswRbtree := { root := none, size := 0 }

def loadNode (pool : RbPool α) : Option Nat → Except Fault (JswRbnode α)
  | none => .error .nullDeref
  | some a =>
    match pool.get a with
    | none => .error .nullDeref
    | some n => .ok n

/-- `q->field = value`. -/
def storeNode (pool : RbPool α) (q : Option Nat) (f : JswRbnode α → JswRbnode α) :
    Except Fault (RbPool α) :=
  match q with
  | none => .error .nullDeref
  | some a => (loadNode pool q).map fun n => pool.set a (f n)

/-! ## Section 2: Rotations -/

def isRed (pool : RbPool α) : Option Nat → Except Fault Bool
  | none => .ok false
  | some a => (loadNode pool (some a)).map Cell.red

def jswSingle (pool : RbPool α) (root : Option Nat) (dir : Bool) :
    Except Fault (Option Nat × RbPool α) := do
  let save := (← loadNode pool root).link (!dir)
  let inner := (← loadNode pool save).link dir
  let pool ← storeNode pool root fun n => n.setLink (!dir) inner
  let pool ← storeNode pool save fun n => n.setLink dir root
  let pool ← storeNode pool root fun n => n.paint true
  let pool ← storeNode pool save fun n => n.paint false
  return (save, pool)

def jswDouble (pool : RbPool α) (root : Option Nat) (dir : Bool) :
    Except Fault (Option Nat × RbPool α) := do
  let (save, pool) ← jswSingle pool ((← loadNode pool root).link (!dir)) (!dir)
  let pool ← storeNode pool root fun n => n.setLink (!dir) save
  jswSingle pool root dir

/-! ## Section 3: Searching -/

variable (cmp : α → α → Int) (dup : α → α)

/-- A turn of `while ( it != NULL )`; the loop leaves with the node found. -/
def findTurn (pool : RbPool α) (data : α) (it : Option Nat) :
    Except Fault (Turn (Option Nat) (Option Nat)) :=
  match it with
  | none => return .leaves none
  | some _ => do
    let n ← loadNode pool it
    if cmp n.data data = 0 then return .leaves it
    else return .goes (n.link (cmp n.data data < 0))

def jswRbfind2 (pool : RbPool α) (tree : JswRbtree) (data : α) : Except Fault (Option Nat) :=
  iterate (findTurn cmp pool data) (.error .diverge) (pool.cells.length + 1) tree.root

def jswRbfind (pool : RbPool α) (tree : JswRbtree) (data : α) : Except Fault (Option α) := do
  match ← jswRbfind2 cmp pool tree data with
  | none => return none
  | some a => return some (← loadNode pool (some a)).data

/-! ## Section 4: Insertion -/

/-- `new_node`, when `malloc` succeeds. -/
def newNode (data : α) : JswRbnode α :=
  { red := true, data := dup data, link := branch false none none }

/-- The helpers of `jsw_rbinsert`. -/
structure InsertState (α : Type) where
  pool : RbPool α
  g : Option Nat
  t : Option Nat
  p : Option Nat
  q : Option Nat
  dir : Bool
  last : Bool

/-- A new node at the first null link, or a colour flip. -/
def attachOrFlip (data : α) (st : InsertState α) : Except Fault (InsertState α) :=
  match st.q with
  | none => do
    let (a, pool) := st.pool.alloc (newNode dup data)
    let pool ← storeNode pool st.p fun n => n.setLink st.dir (some a)
    return { st with pool := pool, q := some a }
  | some _ => do
    let n ← loadNode st.pool st.q
    if (← isRed st.pool (n.link false)) && (← isRed st.pool (n.link true)) then
      let pool ← storeNode st.pool st.q fun n => n.paint true
      let pool ← storeNode pool (n.link false) fun n => n.paint false
      let pool ← storeNode pool (n.link true) fun n => n.paint false
      return { st with pool := pool }
    else return st

/-- `if ( is_red ( q ) && is_red ( p ) )`: rotations at `g`, below `t`. -/
def fixRedRed (st : InsertState α) : Except Fault (InsertState α) := do
  if (← isRed st.pool st.q) && (← isRed st.pool st.p) then
    let dir2 := decide ((← loadNode st.pool st.t).link true = st.g)
    let (save, pool) ←
      if st.q = (← loadNode st.pool st.p).link st.last then jswSingle st.pool st.g (!st.last)
      else jswDouble st.pool st.g (!st.last)
    let pool ← storeNode pool st.t fun n => n.setLink dir2 save
    return { st with pool := pool }
  else return st

/-- A turn of `for ( ; ; )`. -/
def insertTurn (data : α) (st : InsertState α) :
    Except Fault (Turn (InsertState α) (RbPool α)) := do
  let st ← attachOrFlip dup data st
  let st ← fixRedRed st
  let n ← loadNode st.pool st.q
  if cmp n.data data = 0 then return .leaves st.pool
  else
    let dir := decide (cmp n.data data < 0)
    return .goes
      { pool := st.pool
        t := if st.g = none then st.t else st.g
        g := st.p
        p := st.q
        q := n.link dir
        dir := dir
        last := st.dir }

/-- The search down from the false root, and the root it leaves. -/
def insertBelow [Inhabited α] (pool : RbPool α) (root : Option Nat) (data : α) :
    Except Fault (Option Nat × RbPool α) := do
  let (head, pool) := pool.alloc { red := false, data := default, link := branch true root none }
  let pool ← iterate (insertTurn cmp dup data) (.error .diverge) (2 * pool.cells.length + 2)
    { pool := pool, g := none, t := some head, p := none, q := root, dir := false, last := false }
  return ((← loadNode pool (some head)).link true, pool.release head)

/-- `jsw_rbinsert`; the result is what it returns.  The branches that return 0
    are those of a failed allocation. -/
def jswRbinsert [Inhabited α] (pool : RbPool α) (tree : JswRbtree) (data : α) :
    Except Fault (Int × RbPool α × JswRbtree) := do
  let (root, pool) ←
    if tree.root = none then
      let (a, pool) := pool.alloc (newNode dup data)
      pure (some a, pool)
    else insertBelow cmp dup pool tree.root data
  let pool ← storeNode pool root fun n => n.paint false
  return (1, pool, { root := root, size := tree.size + 1 })

/-! ## Section 5: Removal -/

/-- The helpers of `jsw_rberase`. -/
structure EraseState (α : Type) where
  pool : RbPool α
  g : Option Nat
  p : Option Nat
  q : Option Nat
  f : Option Nat
  dir : Bool

/-- `q->red = g->link[dir2]->red = 1` and the two colours below. -/
def recolour (pool : RbPool α) (g q : Option Nat) (dir2 : Bool) : Except Fault (RbPool α) := do
  let top := (← loadNode pool g).link dir2
  let pool ← storeNode pool top fun n => n.paint true
  let pool ← storeNode pool q fun n => n.paint true
  let pool ← storeNode pool ((← loadNode pool top).link false) fun n => n.paint false
  storeNode pool ((← loadNode pool top).link true) fun n => n.paint false

/-- `g->link[dir2] = jsw_double ( p, last )` or `jsw_single`, and the colours. -/
def borrowRed (pool : RbPool α) (g p q s : Option Nat) (last : Bool) : Except Fault (RbPool α) := do
  let dir2 := decide ((← loadNode pool g).link true = p)
  let n ← loadNode pool s
  let pool ←
    if ← isRed pool (n.link last) then do
      let (save, pool) ← jswDouble pool p last
      storeNode pool g fun n => n.setLink dir2 save
    else do
      if ← isRed pool (n.link (!last)) then
        let (save, pool) ← jswSingle pool p last
        storeNode pool g fun n => n.setLink dir2 save
      else pure pool
  recolour pool g q dir2

/-- Push the red node down; the result is the new `p`. -/
def pushRed (pool : RbPool α) (g p q : Option Nat) (dir last : Bool) :
    Except Fault (Option Nat × RbPool α) := do
  let n ← loadNode pool q
  if !(← isRed pool q) && !(← isRed pool (n.link dir)) then
    if ← isRed pool (n.link (!dir)) then
      let (save, pool) ← jswSingle pool q dir
      let pool ← storeNode pool p fun n => n.setLink last save
      return (save, pool)
    else
      let s := (← loadNode pool p).link (!last)
      if s = none then return (p, pool)
      else
        let m ← loadNode pool s
        if !(← isRed pool (m.link (!last))) && !(← isRed pool (m.link last)) then
          let pool ← storeNode pool p fun n => n.paint false
          let pool ← storeNode pool s fun n => n.paint true
          let pool ← storeNode pool q fun n => n.paint true
          return (p, pool)
        else return (p, ← borrowRed pool g p q s last)
  else return (p, pool)

/-- A turn of `while ( q->link[dir] != NULL )`. -/
def eraseTurn (data : α) (st : EraseState α) :
    Except Fault (Turn (EraseState α) (EraseState α)) := do
  let q := (← loadNode st.pool st.q).link st.dir
  if q = none then return .leaves st
  else
    let last := st.dir
    let n ← loadNode st.pool q
    let dir := decide (cmp n.data data < 0)
    let f := if cmp n.data data = 0 then q else st.f
    let (p, pool) ← pushRed st.pool st.p st.q q dir last
    return .goes { pool := pool, g := st.p, p := p, q := q, f := f, dir := dir }

/-- `p->link[p->link[1] == q] = q->link[q->link[0] == NULL]; free ( q )`. -/
def unlinkLast (pool : RbPool α) (p : Option Nat) (q : Nat) : Except Fault (RbPool α) := do
  let side := decide ((← loadNode pool p).link true = some q)
  let n ← loadNode pool (some q)
  let pool ← storeNode pool p fun m => m.setLink side (n.link (decide (n.link false = none)))
  return pool.release q

/-- Replace and remove the saved node; the result is what `rel` is called on. -/
def removeSaved (st : EraseState α) : Except Fault (List α × RbPool α) :=
  match st.f, st.q with
  | some f, some q => do
    let old := (← loadNode st.pool (some f)).data
    let n ← loadNode st.pool (some q)
    let pool ← storeNode st.pool (some f) fun m => { m with data := n.data }
    return ([old], ← unlinkLast pool st.p q)
  | some _, none => .error .nullDeref
  | none, _ => .ok ([], st.pool)

/-- The search down from the false root, what it releases and the root it
    leaves. -/
def eraseBelow [Inhabited α] (pool : RbPool α) (root : Option Nat) (data : α) :
    Except Fault (List α × Option Nat × RbPool α) := do
  let (head, pool) := pool.alloc { red := false, data := default, link := branch true root none }
  let st ← iterate (eraseTurn cmp data) (.error .diverge) (2 * pool.cells.length + 2)
    { pool := pool, g := none, p := none, q := some head, f := none, dir := true }
  let (released, pool) ← removeSaved st
  return (released, (← loadNode pool (some head)).link true, pool.release head)

/-- `jsw_rberase`; the result is what it returns and what it releases. -/
def jswRberase [Inhabited α] (pool : RbPool α) (tree : JswRbtree) (data : α) :
    Except Fault (Int × List α × RbPool α × JswRbtree) := do
  if tree.root = none then return (1, [], pool, tree)
  else
    let (released, root, pool) ← eraseBelow cmp pool tree.root data
    let pool ← if root = none then pure pool else storeNode pool root fun n => n.paint false
    return (1, released, pool, { root := root, size := tree.size - 1 })

def jswRbsize (tree : JswRbtree) : UInt64 := tree.size

/-! ## Section 6: Releasing a tree -/

/-- A turn of the loop of `jsw_rbdelete`; what it has released comes along. -/
def deleteTurn (st : RbPool α × Option Nat × List α) :
    Except Fault (Turn (RbPool α × Option Nat × List α) (RbPool α × List α)) :=
  match st.2.1 with
  | none => return .leaves (st.1, st.2.2)
  | some it => do
    let n ← loadNode st.1 (some it)
    match n.link false with
    | none => return .goes (st.1.release it, n.link true, st.2.2 ++ [n.data])
    | some save => do
      let m ← loadNode st.1 (some save)
      let pool ← storeNode st.1 (some it) fun n => n.setLink false (m.link true)
      let pool ← storeNode pool (some save) fun n => n.setLink true (some it)
      return .goes (pool, some save, st.2.2)

def jswRbdelete (pool : RbPool α) (tree : JswRbtree) : Except Fault (RbPool α × List α) :=
  iterate deleteTurn (.error .diverge) (2 * pool.cells.length + 1) (pool, tree.root, [])

/-! ## Section 7: Traversal -/

def heightLimit : Nat := 64

/-- The traversal; `path` is the stack below `top`, the last node first. -/
structure JswRbtrav where
  it : Option Nat
  path : List (Option Nat)
  deriving DecidableEq, Repr

/-- `trav->path[trav->top++] = trav->it; trav->it = trav->it->link[dir]`. -/
def pushPath (pool : RbPool α) (trav : JswRbtrav) (dir : Bool) : Except Fault JswRbtrav := do
  if trav.path.length < heightLimit then
    return { it := (← loadNode pool trav.it).link dir, path := trav.it :: trav.path }
  else .error .overrun

/-- A turn of `while ( trav->it->link[dir] != NULL )`. -/
def downTurn (pool : RbPool α) (dir : Bool) (trav : JswRbtrav) :
    Except Fault (Turn JswRbtrav JswRbtrav) := do
  if (← loadNode pool trav.it).link dir = none then return .leaves trav
  else return .goes (← pushPath pool trav dir)

def goDown (pool : RbPool α) (dir : Bool) (trav : JswRbtrav) : Except Fault JswRbtrav :=
  iterate (downTurn pool dir) (.error .diverge) (pool.cells.length + 1) trav

/-- `trav->it == NULL ? NULL : trav->it->data`. -/
def travData (pool : RbPool α) (trav : JswRbtrav) : Except Fault (Option α) :=
  match trav.it with
  | none => .ok none
  | some a => (loadNode pool (some a)).map fun n => some n.data

def travStart (pool : RbPool α) (tree : JswRbtree) (dir : Bool) :
    Except Fault (Option α × JswRbtrav) := do
  let trav : JswRbtrav := { it := tree.root, path := [] }
  let trav ← if trav.it = none then pure trav else goDown pool dir trav
  return (← travData pool trav, trav)

/-- The rounds of `do … while ( last == trav->it->link[dir] )`; the stack
    gets lower in each. -/
def goUp (pool : RbPool α) (dir : Bool) (it : Option Nat) : List (Option Nat) → Except Fault JswRbtrav
  | [] => .ok { it := none, path := [] }
  | up :: path => do
    if it = (← loadNode pool up).link dir then goUp pool dir up path
    else return { it := up, path := path }

def travMove (pool : RbPool α) (trav : JswRbtrav) (dir : Bool) : Except Fault (Option α × JswRbtrav) := do
  let n ← loadNode pool trav.it
  let trav ←
    if n.link dir = none then goUp pool dir trav.it trav.path
    else do
      let trav ← pushPath pool trav dir
      goDown pool (!dir) trav
  return (← travData pool trav, trav)

def jswRbtfirst (pool : RbPool α) (tree : JswRbtree) : Except Fault (Option α × JswRbtrav) :=
  travStart pool tree false

def jswRbtlast (pool : RbPool α) (tree : JswRbtree) : Except Fault (Option α × JswRbtrav) :=
  travStart pool tree true

def jswRbtnext (pool : RbPool α) (trav : JswRbtrav) : Except Fault (Option α × JswRbtrav) :=
  travMove pool trav true

def jswRbtprev (pool : RbPool α) (trav : JswRbtrav) : Except Fault (Option α × JswRbtrav) :=
  travMove pool trav false

end BoAtom
