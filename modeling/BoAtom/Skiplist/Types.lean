import BoAtom.Fault
import BoAtom.Lib.Memory
import Mathlib.Data.List.Induction

/-! # Skiplist nodes

    `zskiplistNode` and `zskiplist` of `skiplist.h`, and what the functions
    of `skiplist.c` do to them: reading and writing one element of `level[]`,
    the other fields of a node, allocation and release.

    An object is a `void *`: `none` is NULL.  Nothing but `cmp` looks behind
    the pointer. -/

namespace BoAtom

open Memory

/-! ## Section 1: The structures -/

def zskiplistMaxLevel : Nat := 32

abbrev NodeId := Nat

/-- `struct zskiplistLevel`. -/
structure ZskiplistLevel where
  forward : Option NodeId
  span : UInt32
  deriving DecidableEq, Repr

/-- `zskiplistNode`; the height is the length of `level[]`. -/
structure ZskiplistNode (α : Type) where
  obj : Option α
  backward : Option NodeId
  level : List ZskiplistLevel

structure Zskiplist (α : Type) where
  /-- The nodes in memory. -/
  nodes : Pool (ZskiplistNode α)
  header : NodeId
  tail : Option NodeId
  cmp : Option α → Option α → Int
  /-- Whether a `free_obj` was given. -/
  freeObj : Bool
  /-- What `free_obj` has been called with. -/
  freed : List (Option α)
  length : Nat
  level : Nat

/-- `zrangespec`. -/
structure Zrangespec (α : Type) where
  min : Option α
  max : Option α
  minex : Int
  maxex : Int

namespace Zskiplist

variable {α : Type}

/-! ## Section 2: Access -/

def node (z : Zskiplist α) (x : NodeId) : Except Fault (ZskiplistNode α) :=
  match z.nodes.get x with
  | none => .error .nullDeref
  | some n => .ok n

/-- `x->level[i]`; the index is an `int`. -/
def levelAt (z : Zskiplist α) (x : NodeId) (i : Int) : Except Fault ZskiplistLevel :=
  (z.node x).bind fun n =>
    if i < 0 then .error (.levelIndex i)
    else match n.level[i.toNat]? with
      | none => .error (.levelIndex i)
      | some l => .ok l

/-- `x->level[i] = l`. -/
def setLevel (z : Zskiplist α) (x : NodeId) (i : Nat) (l : ZskiplistLevel) :
    Except Fault (Zskiplist α) :=
  (z.node x).bind fun n =>
    if i < n.level.length then
      .ok { z with nodes := z.nodes.set x { n with level := n.level.set i l } }
    else .error (.levelIndex i)

/-- `x->backward = y`. -/
def setBackward (z : Zskiplist α) (x : NodeId) (y : Option NodeId) : Except Fault (Zskiplist α) :=
  (z.node x).bind fun n => .ok { z with nodes := z.nodes.set x { n with backward := y } }

/-! ## Section 3: What memory holds -/

/-- Element `i` of `level[]` of a node. -/
def lev (z : Zskiplist α) (x : NodeId) (i : Nat) : Option ZskiplistLevel :=
  (z.nodes.get x).bind fun n => n.level[i]?

/-- The rest of a node: object, back pointer and height. -/
def shape (z : Zskiplist α) (x : NodeId) : Option (Option α × Option NodeId × Nat) :=
  (z.nodes.get x).map fun n => (n.obj, n.backward, n.level.length)

/-- The fields of the list itself that a change of one node leaves alone. -/
structure SameList (z z' : Zskiplist α) : Prop where
  header : z'.header = z.header
  cells : z'.nodes.cells.length = z.nodes.cells.length
  cmp : z'.cmp = z.cmp
  freeObj : z'.freeObj = z.freeObj
  freed : z'.freed = z.freed
  length : z'.length = z.length
  level : z'.level = z.level
  tail : z'.tail = z.tail

variable {z z' z'' : Zskiplist α} {x y : NodeId} {i j : Nat} {l : ZskiplistLevel}

theorem SameList.refl (z : Zskiplist α) : SameList z z := ⟨rfl, rfl, rfl, rfl, rfl, rfl, rfl, rfl⟩

theorem SameList.trans (h : SameList z z') (h' : SameList z' z'') : SameList z z'' :=
  ⟨h'.header.trans h.header, h'.cells.trans h.cells, h'.cmp.trans h.cmp, h'.freeObj.trans h.freeObj,
    h'.freed.trans h.freed, h'.length.trans h.length, h'.level.trans h.level, h'.tail.trans h.tail⟩

theorem levelAt_eq (h : z.lev x i = some l) : z.levelAt x i = .ok l := by
  unfold lev at h
  rcases hn : z.nodes.get x with _ | n
  · simp [hn] at h
  · rw [hn, Option.bind_some] at h
    simp [levelAt, node, hn, Except.bind, h]

theorem levelAt_neg (h : (z.nodes.get x).isSome) {k : Int} (hk : k < 0) :
    z.levelAt x k = .error (.levelIndex k) := by
  obtain ⟨n, hn⟩ := Option.isSome_iff_exists.mp h
  simp [levelAt, node, hn, Except.bind, hk]

theorem node_eq {b : Option NodeId} {o : Option α} {n : Nat} (h : z.shape x = some (o, b, n)) :
    ∃ nd, z.node x = .ok nd ∧ nd.obj = o ∧ nd.backward = b ∧ nd.level.length = n := by
  unfold shape at h
  rcases hn : z.nodes.get x with _ | nd
  · simp [hn] at h
  · rw [hn, Option.map_some, Option.some.injEq] at h
    refine ⟨nd, by simp [node, hn], ?_, ?_, ?_⟩
    · exact congrArg (fun t => t.1) h
    · exact congrArg (fun t => t.2.1) h
    · exact congrArg (fun t => t.2.2) h

theorem isSome_of_shape {t : Option α × Option NodeId × Nat} (h : z.shape x = some t) :
    (z.nodes.get x).isSome := by
  unfold shape at h
  rcases hn : z.nodes.get x with _ | nd
  · simp [hn] at h
  · rfl

/-- One element of `level[]` is written, and nothing else. -/
theorem setLevel_spec (l' : ZskiplistLevel) (h : z.lev x i = some l) :
    ∃ z', z.setLevel x i l' = .ok z' ∧ SameList z z' ∧ z'.shape = z.shape ∧
      ∀ y j, z'.lev y j = if y = x ∧ j = i then some l' else z.lev y j := by
  unfold lev at h
  rcases hn : z.nodes.get x with _ | n
  · simp [hn] at h
  rw [hn, Option.bind_some] at h
  have hlt : i < n.level.length := (List.getElem?_eq_some_iff.mp h).1
  refine ⟨{ z with nodes := z.nodes.set x { n with level := n.level.set i l' } }, ?_, ?_, ?_, ?_⟩
  · simp [setLevel, node, hn, Except.bind, hlt]
  · exact ⟨rfl, by simp [Pool.set], rfl, rfl, rfl, rfl, rfl, rfl⟩
  · funext y
    by_cases hy : y = x
    · subst hy
      simp [shape, Pool.get_set_self hn, hn]
    · simp [shape, Pool.get_set_ne hy]
  · intro y j
    by_cases hy : y = x
    · subst hy
      by_cases hj : j = i
      · subst hj
        simp [lev, Pool.get_set_self hn, hlt]
      · simp [lev, Pool.get_set_self hn, hn, hj, List.getElem?_set_ne (Ne.symm hj)]
    · simp [lev, Pool.get_set_ne hy, hy]

/-- The same, level by level. -/
theorem setLevel_at (l' : ZskiplistLevel) (h : z.lev x i = some l) :
    ∃ z', z.setLevel x i l' = .ok z' ∧ SameList z z' ∧ z'.shape = z.shape ∧
      ∀ y j, z'.lev y j = if j = i then (if y = x then some l' else z.lev y i) else z.lev y j := by
  obtain ⟨z', hset, hsame, hshape, hlev⟩ := setLevel_spec l' h
  refine ⟨z', hset, hsame, hshape, fun y j => ?_⟩
  rw [hlev]
  by_cases hj : j = i
  · subst hj
    by_cases hy : y = x <;> simp [hy]
  · simp [hj]

/-- A back pointer is written, and nothing else. -/
theorem setBackward_spec {b : Option NodeId} {o : Option α} {n : Nat} (b' : Option NodeId)
    (h : z.shape x = some (o, b, n)) :
    ∃ z', z.setBackward x b' = .ok z' ∧ SameList z z' ∧ z'.lev = z.lev ∧
      ∀ y, z'.shape y = if y = x then some (o, b', n) else z.shape y := by
  unfold shape at h
  rcases hn : z.nodes.get x with _ | nd
  · simp [hn] at h
  rw [hn, Option.map_some, Option.some.injEq, Prod.mk.injEq, Prod.mk.injEq] at h
  obtain ⟨ho, -, hheight⟩ := h
  refine ⟨{ z with nodes := z.nodes.set x { nd with backward := b' } }, ?_, ?_, ?_, ?_⟩
  · simp [setBackward, node, hn, Except.bind]
  · exact ⟨rfl, by simp [Pool.set], rfl, rfl, rfl, rfl, rfl, rfl⟩
  · funext y j
    by_cases hy : y = x
    · subst hy
      simp [lev, Pool.get_set_self hn, hn]
    · simp [lev, Pool.get_set_ne hy]
  · intro y
    by_cases hy : y = x
    · subst hy
      simp [shape, Pool.get_set_self hn, ho, hheight]
    · simp [shape, Pool.get_set_ne hy, hy]

/-- A fold over levels, each step of which writes on its own level only. -/
theorem fold_levels (f : Zskiplist α → Nat → Except Fault (Zskiplist α))
    (row : Nat → NodeId → Option ZskiplistLevel) {is : List Nat} (hnodup : is.Nodup)
    (hstep : ∀ i ∈ is, ∀ z', SameList z z' → z'.shape = z.shape → (∀ y, z'.lev y i = z.lev y i) →
      ∃ z'', f z' i = .ok z'' ∧ SameList z' z'' ∧ z''.shape = z'.shape ∧
        ∀ y j, z''.lev y j = if j = i then row i y else z'.lev y j) :
    ∃ z', is.foldlM f z = .ok z' ∧ SameList z z' ∧ z'.shape = z.shape ∧
      ∀ y j, z'.lev y j = if j ∈ is then row j y else z.lev y j := by
  induction is using List.reverseRec with
  | nil => exact ⟨z, rfl, SameList.refl z, rfl, fun y j => by simp⟩
  | append_singleton is i ih =>
    have hfresh : i ∉ is := by
      intro hmem
      exact (List.nodup_append.mp hnodup).2.2 i hmem i List.mem_cons_self rfl
    obtain ⟨z₁, hfold, hsame, hshape, hlev⟩ := ih (List.nodup_append.mp hnodup).1
      fun j hj => hstep j (List.mem_append_left _ hj)
    obtain ⟨z₂, hf, hsame', hshape', hlev'⟩ := hstep i (by simp) z₁ hsame hshape
      fun y => by rw [hlev, if_neg hfresh]
    refine ⟨z₂, ?_, hsame.trans hsame', hshape'.trans hshape, fun y j => ?_⟩
    · rw [List.foldlM_append, hfold]
      simp only [bind, Except.bind, List.foldlM_cons, List.foldlM_nil, hf]
      rfl
    · rw [hlev', hlev]
      by_cases hj : j = i
      · simp [hj]
      · simp [hj]

/-- A new node; the others stay where they are. -/
theorem alloc_spec (nd : ZskiplistNode α) :
    (∀ y, { z with nodes := (z.nodes.alloc nd).2 }.shape y =
      if y = z.nodes.cells.length then some (nd.obj, nd.backward, nd.level.length) else z.shape y) ∧
    ∀ y j, { z with nodes := (z.nodes.alloc nd).2 }.lev y j =
      if y = z.nodes.cells.length then nd.level[j]? else z.lev y j := by
  have hget : ∀ y, (z.nodes.alloc nd).2.get y =
      if y = z.nodes.cells.length then some nd else z.nodes.get y := by
    intro y
    by_cases hy : y = z.nodes.cells.length
    · subst hy
      rw [if_pos rfl]
      exact Pool.get_alloc_new z.nodes nd
    · rw [if_neg hy, Pool.get_alloc_ne hy]
  constructor
  · intro y
    unfold shape
    rw [hget]
    split <;> rfl
  · intro y j
    unfold lev
    rw [hget]
    split <;> rfl

theorem lt_of_shape {t : Option α × Option NodeId × Nat} (h : z.shape x = some t) :
    x < z.nodes.cells.length := by
  obtain ⟨n, hn⟩ := Option.isSome_iff_exists.mp (isSome_of_shape h)
  exact Pool.lt_of_get hn

end Zskiplist

end BoAtom
