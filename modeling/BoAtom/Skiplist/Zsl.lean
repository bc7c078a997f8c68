import BoAtom.Skiplist.Types

/-! # The functions of `skiplist.c`

    The searches differ in one condition only: `walk` is the inner `while`
    along one level, `descend` the `for` over the levels, and each function
    passes its own condition.  `update[]` and `rank[]` are the list of what
    `descend` stopped at, level 0 first. -/

namespace BoAtom

open Memory

namespace Zskiplist

variable {α : Type}

/-! ## Section 1: Creation -/

/-- `malloc` leaves `backward` and `level[]` undefined; the callers write
    both before anything reads them. -/
def zslCreateNode (level : Nat) (obj : Option α) : ZskiplistNode α :=
  { obj, backward := none, level := List.replicate level ⟨none, 0⟩ }

def zslCreate (cmp : Option α → Option α → Int) (freeObj : Bool) : Zskiplist α :=
  let (header, nodes) := Pool.empty.alloc (zslCreateNode zskiplistMaxLevel none)
  { nodes, header, tail := none, cmp, freeObj, freed := [], length := 0, level := 1 }

def zslFreeNode (z : Zskiplist α) (x : NodeId) : Except Fault (Zskiplist α) := do
  let n ← z.node x
  return { z with
    nodes := z.nodes.release x
    freed := if z.freeObj then z.freed ++ [n.obj] else z.freed }

/-- The results of `random()`, in order; the loop goes on while the low 16
    bits lie below `ZSKIPLIST_P * 0xFFFF`, which is 16383.75. -/
def zslRandomLevel (draws : List Nat) : Nat :=
  let level := 1 + (draws.takeWhile fun r => r % 2 ^ 16 ≤ 16383).length
  if level < zskiplistMaxLevel then level else zskiplistMaxLevel

/-! ## Section 2: Searching -/

/-- The `while` along level `i`: go on from `x` while there is a next node
    and `more` holds of the distance covered with it and of its object.  A
    walk over more nodes than there are in memory goes round in a circle. -/
def walk (z : Zskiplist α) (more : Nat → Option α → Bool) (i : Nat) :
    Nat → NodeId → Nat → Except Fault (NodeId × Nat)
  | 0, _, _ => .error .diverge
  | fuel + 1, x, traversed => do
    let l ← z.levelAt x i
    match l.forward with
    | none => return (x, traversed)
    | some y =>
      let n ← z.node y
      if more (traversed + l.span.toNat) n.obj then
        z.walk more i fuel y (traversed + l.span.toNat)
      else return (x, traversed)

/-- The `for` over the levels below `i`. -/
def descend (z : Zskiplist α) (more : Nat → Option α → Bool) :
    Nat → NodeId → Nat → Except Fault (List (NodeId × Nat))
  | 0, _, _ => return []
  | i + 1, x, traversed => do
    let p ← z.walk more i z.nodes.cells.length x traversed
    let below ← z.descend more i p.1 p.2
    return below ++ [p]

/-- All levels, from the header. -/
def search (z : Zskiplist α) (more : Nat → Option α → Bool) : Except Fault (List (NodeId × Nat)) :=
  z.descend more z.level z.header 0

/-- `x` and the distance covered when the `for` is over. -/
def reached (z : Zskiplist α) (path : List (NodeId × Nat)) : NodeId × Nat :=
  path.head?.getD (z.header, 0)

/-! ## Section 3: Insertion -/

/-- Element `i` of `update[]` or `rank[]`; one that was not written is
    outside of the array. -/
def entry {β : Type} (a : List β) (i : Nat) : Except Fault β :=
  match a[i]? with
  | none => .error .overrun
  | some b => .ok b

/-- A level that is used for the first time: the header spans the list. -/
def raiseLevel (z : Zskiplist α) (i : Nat) : Except Fault (Zskiplist α) := do
  let l ← z.levelAt z.header i
  z.setLevel z.header i { l with span := UInt32.ofNat z.length }

/-- `x` goes behind `update[i]` on level `i`. -/
def linkLevel (update : List NodeId) (rank : List UInt32) (x : NodeId) (z : Zskiplist α) (i : Nat) :
    Except Fault (Zskiplist α) := do
  let u ← entry update i
  let r ← entry rank i
  let r0 ← entry rank 0
  let l ← z.levelAt u i
  let z ← z.setLevel x i { forward := l.forward, span := l.span - (r0 - r) }
  z.setLevel u i { forward := some x, span := (r0 - r) + 1 }

/-- The new node is lower than level `i`, which passes over it. -/
def passLevel (update : List NodeId) (z : Zskiplist α) (i : Nat) : Except Fault (Zskiplist α) := do
  let u ← entry update i
  let l ← z.levelAt u i
  z.setLevel u i { l with span := l.span + 1 }

/-- The back pointer of the node after `x`, or the tail, becomes `b`. -/
def setBehind (z : Zskiplist α) (x : NodeId) (b : Option NodeId) : Except Fault (Zskiplist α) := do
  let l ← z.levelAt x 0
  match l.forward with
  | some y => z.setBackward y b
  | none => return { z with tail := b }

/-- The new node, on its levels and under the others. -/
def linkNode (z : Zskiplist α) (update : List NodeId) (rank : List UInt32) (level : Nat)
    (obj : Option α) : Except Fault (Zskiplist α × NodeId) := do
  let (x, nodes) := z.nodes.alloc (zslCreateNode level obj)
  let z := { z with nodes }
  let z ← (List.range level).foldlM (linkLevel update rank x) z
  -- increment span for untouched levels
  let z ← (List.range' level (z.level - level)).foldlM (passLevel update) z
  return (z, x)

/-- The back pointers on both sides of `x`, and the length. -/
def linkBackward (z : Zskiplist α) (u x : NodeId) : Except Fault (Zskiplist α) := do
  let z ← z.setBackward x (if u = z.header then none else some u)
  let z ← z.setBehind x (some x)
  return { z with length := z.length + 1 }

/-- The node is returned with the list; `rank[]` is `unsigned int`. -/
def zslInsert (z : Zskiplist α) (obj : Option α) (draws : List Nat) :
    Except Fault (Zskiplist α × NodeId) := do
  let path ← z.search fun _ o => z.cmp o obj < 0
  let level := zslRandomLevel draws
  let added := level - z.level
  let update := path.map Prod.fst ++ List.replicate added z.header
  let rank := path.map (fun p => UInt32.ofNat p.2) ++ List.replicate added 0
  let z ← (List.range' z.level added).foldlM raiseLevel z
  let z := { z with level := z.level + added }
  let (z, x) ← z.linkNode update rank level obj
  let u ← entry update 0
  let z ← z.linkBackward u x
  return (z, x)

/-! ## Section 4: Deletion -/

def unlinkLevel (update : List NodeId) (x : NodeId) (z : Zskiplist α) (i : Nat) :
    Except Fault (Zskiplist α) := do
  let u ← entry update i
  let l ← z.levelAt u i
  if l.forward = some x then
    let lx ← z.levelAt x i
    z.setLevel u i { forward := lx.forward, span := l.span + (lx.span - 1) }
  else z.setLevel u i { l with span := l.span - 1 }

/-- `while(zsl->level > 1 && zsl->header->level[zsl->level-1].forward == NULL)`. -/
def shrink (z : Zskiplist α) : Nat → Except Fault Nat
  | 0 => return 0
  | 1 => return 1
  | i + 2 => do
    let l ← z.levelAt z.header (i + 1 : Nat)
    if l.forward = none then z.shrink (i + 1) else return i + 2

def zslDeleteNode (z : Zskiplist α) (x : NodeId) (update : List NodeId) :
    Except Fault (Zskiplist α) := do
  let z ← (List.range z.level).foldlM (unlinkLevel update x) z
  let n ← z.node x
  let z ← z.setBehind x n.backward
  let level ← z.shrink z.level
  return { z with level, length := z.length - 1 }

/-- When the `for` is over, `i` is -1. -/
def zslDelete (z : Zskiplist α) (obj : Option α) : Except Fault (Zskiplist α × Int) := do
  let path ← z.search fun _ o => z.cmp o obj < 0
  let l ← z.levelAt (z.reached path).1 0
  match l.forward with
  | none => return (z, 0)
  | some x =>
    let l ← z.levelAt x (-1)
    match l.forward with
    | none => .error .nullDeref
    | some y =>
      let n ← z.node y
      if z.cmp n.obj obj = 0 then
        let z ← z.zslDeleteNode x (path.map Prod.fst)
        let z ← z.zslFreeNode x
        return (z, 1)
      else return (z, 0)

/-- Delete from `x` on while `more` holds of the number removed so far and of
    the object. -/
def deleteWhile (more : Nat → Option α → Bool) (update : List NodeId) :
    Nat → Zskiplist α → Option NodeId → Nat → Except Fault (Zskiplist α × Nat)
  | _, z, none, removed => return (z, removed)
  | 0, _, some _, _ => .error .diverge
  | fuel + 1, z, some x, removed => do
    let n ← z.node x
    if more removed n.obj then
      let l ← z.levelAt x 0
      let z ← z.zslDeleteNode x update
      let z ← z.zslFreeNode x
      deleteWhile more update fuel z l.forward (removed + 1)
    else return (z, removed)

/-- The nodes behind the place a search reached are deleted. -/
def deleteBehind (z : Zskiplist α) (path : List (NodeId × Nat)) (more : Nat → Option α → Bool) :
    Except Fault (Zskiplist α × Nat) := do
  let l ← z.levelAt (z.reached path).1 0
  deleteWhile more (path.map Prod.fst) z.nodes.cells.length z l.forward 0

def zslDeleteRange (z : Zskiplist α) (range : Zrangespec α) : Except Fault (Zskiplist α × Nat) := do
  let path ← z.search fun _ o =>
    if range.minex ≠ 0 then z.cmp o range.min ≤ 0 else z.cmp o range.min < 0
  z.deleteBehind path fun _ o =>
    if range.maxex ≠ 0 then z.cmp o range.max < 0 else z.cmp o range.max ≤ 0

/-- `start` and `end` are `unsigned int`, `traversed` is `unsigned long`. -/
def zslDeleteRangeByRank (z : Zskiplist α) (start stop : UInt32) :
    Except Fault (Zskiplist α × Nat) := do
  let path ← z.search fun traversed _ => traversed < start.toNat
  z.deleteBehind path fun removed _ => (z.reached path).2 + 1 + removed ≤ stop.toNat

/-! ## Section 5: Ranks -/

def getRankFrom (z : Zskiplist α) (o : Option α) : Nat → NodeId → Nat → Except Fault Nat
  | 0, _, _ => return 0
  | i + 1, x, rank => do
    let p ← z.walk (fun _ b => z.cmp b o ≤ 0) i z.nodes.cells.length x rank
    let n ← z.node p.1
    -- `x` might be equal to `zsl->header`
    if n.obj.isSome ∧ z.cmp n.obj o = 0 then return p.2
    else z.getRankFrom o i p.1 p.2

def zslGetRank (z : Zskiplist α) (o : Option α) : Except Fault Nat :=
  z.getRankFrom o z.level z.header 0

def getElementFrom (z : Zskiplist α) (rank : Nat) :
    Nat → NodeId → Nat → Except Fault (Option NodeId)
  | 0, _, _ => return none
  | i + 1, x, traversed => do
    let p ← z.walk (fun t _ => t ≤ rank) i z.nodes.cells.length x traversed
    if p.2 = rank then return some p.1 else z.getElementFrom rank i p.1 p.2

def zslGetElementByRank (z : Zskiplist α) (rank : Nat) : Except Fault (Option NodeId) :=
  z.getElementFrom rank z.level z.header 0

end Zskiplist

end BoAtom
