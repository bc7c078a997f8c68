import BoAtom.Lib.Memory
import BoAtom.Lib.RedBlack
import Mathlib.Data.List.Perm.Subperm

/-! # Linked red-black trees

    The nodes of a tree as structures in a pool, each with a colour, a datum
    and two links.  The payload of the tree is the address of a node with
    its datum.

    `Holds R pool c t`: in the pool there is the whole tree that has `t` at
    the place `c`, without a node occurring twice, and `R` is what else there
    is.  The rules say what a function has to do at the place, and what it
    may leave to the frames; as `R` is the same before and after, a function
    that keeps to them neither loses a node nor touches one of another tree. -/

namespace RedBlack

open Memory RbTree

/-! ## Section 1: Nodes -/

structure Cell (α : Type) where
  red : Bool
  data : α
  link : Bool → Option Nat

variable {α : Type}

/-- The link in one direction is set. -/
def Cell.setLink (n : Cell α) (d : Bool) (q : Option Nat) : Cell α :=
  { n with link := branch d q (n.link (!d)) }

@[simp] theorem Cell.setLink_branch (red : Bool) (x : α) (d : Bool) (near far q : Option Nat) :
    Cell.setLink ⟨red, x, branch d near far⟩ d q = ⟨red, x, branch d q far⟩ := by
  show (⟨red, x, branch d q (branch d near far (!d))⟩ : Cell α) = _
  rw [branch_not]

@[simp] theorem Cell.setLink_branch_not (red : Bool) (x : α) (d : Bool) (near far q : Option Nat) :
    Cell.setLink ⟨red, x, branch d near far⟩ (!d) q = ⟨red, x, branch d near q⟩ := by
  show (⟨red, x, branch (!d) q (branch d near far (!!d))⟩ : Cell α) = _
  rw [Bool.not_not, branch_same, branch_swap]

def Cell.paint (n : Cell α) (red : Bool) : Cell α := { n with red := red }

/-! ## Section 2: Trees in a pool -/

/-- The pointer to the root. -/
def RbTree.ptr : RbTree (Nat × α) → Option Nat
  | nil => none
  | node _ x _ => some x.1

@[simp] theorem ptr_node (red : Bool) (x : Nat × α) (kid : Bool → RbTree (Nat × α)) :
    (node red x kid).ptr = some x.1 := rfl

@[simp] theorem ptr_nil : (nil : RbTree (Nat × α)).ptr = none := rfl

def RbTree.Rep (pool : Pool (Cell α)) : RbTree (Nat × α) → Prop
  | nil => True
  | node red x kid => pool.get x.1 = some ⟨red, x.2, fun b => (kid b).ptr⟩ ∧ ∀ b, Rep pool (kid b)

/-- The frames, of which the last link is the pointer `q`. -/
def RepFrames (pool : Pool (Cell α)) : List (Frame (Nat × α)) → Option Nat → Prop
  | [], _ => True
  | f :: c, q => pool.get f.x.1 = some ⟨f.red, f.x.2, branch f.dir q f.far.ptr⟩ ∧
      f.far.Rep pool ∧ RepFrames pool c (some f.x.1)

/-- The addresses of the frames. -/
def outside (c : List (Frame (Nat × α))) : List Nat := (before c ++ after c).map Prod.fst

def RbTree.addrs (t : RbTree (Nat × α)) : List Nat := t.inorder.map Prod.fst

/-- The data in order. -/
def RbTree.items (t : RbTree (Nat × α)) : List α := t.inorder.map Prod.snd

theorem items_plug {α : Type} (c : List (Frame (Nat × α))) (t : RbTree (Nat × α)) :
    (plug c t).items = (before c).map Prod.snd ++ t.items ++ (after c).map Prod.snd := by
  rw [RbTree.items, inorder_plug, List.map_append, List.map_append, RbTree.items]

/-- The addresses of the whole tree. -/
def within (c : List (Frame (Nat × α))) (t : RbTree (Nat × α)) : List Nat :=
  (before c ++ t.inorder ++ after c).map Prod.fst

structure Holds (R : Nat → Option (Cell α)) (pool : Pool (Cell α)) (c : List (Frame (Nat × α)))
    (t : RbTree (Nat × α)) : Prop where
  frames : RepFrames pool c t.ptr
  tree : t.Rep pool
  nodup : (within c t).Nodup
  rest : ∀ a, a ∉ within c t → pool.get a = R a
  apart : ∀ a ∈ within c t, R a = none

variable {R : Nat → Option (Cell α)}

variable {pool pool' : Pool (Cell α)} {c : List (Frame (Nat × α))} {f : Frame (Nat × α)}
  {t t' near far : RbTree (Nat × α)} {q : Option Nat} {red d : Bool} {x : Nat × α} {a : Nat}

theorem rep_branch : (node red x (branch d near far)).Rep pool ↔
    pool.get x.1 = some ⟨red, x.2, branch d near.ptr far.ptr⟩ ∧ near.Rep pool ∧ far.Rep pool := by
  have hlink : (fun b => (branch d near far b).ptr) = branch d near.ptr far.ptr := by
    funext b
    exact map_branch d near far RbTree.ptr b
  simp only [RbTree.Rep, hlink]
  exact and_congr_right fun _ => forall_branch d near far

theorem rep_node (d : Bool) {kid : Bool → RbTree (Nat × α)} : (node red x kid).Rep pool ↔
    pool.get x.1 = some ⟨red, x.2, branch d (kid d).ptr (kid (!d)).ptr⟩ ∧
      (kid d).Rep pool ∧ (kid (!d)).Rep pool := by
  conv_lhs => rw [← branch_eta d kid]
  exact rep_branch

theorem mem_addrs_branch : a ∈ (node red x (branch d near far)).addrs ↔
    a = x.1 ∨ a ∈ near.addrs ∨ a ∈ far.addrs := by
  rw [addrs, inorder_branch]
  cases d with
  | true =>
    simp only [side, if_true, List.map_append, List.map_cons, List.mem_append, List.mem_cons, addrs]
    tauto
  | false =>
    simp only [side, Bool.false_eq_true, if_false, List.map_append, List.map_cons, List.mem_append,
      List.mem_cons, addrs]
    tauto

theorem mem_within : a ∈ within c t ↔ a ∈ t.addrs ∨ a ∈ outside c := by
  simp only [within, outside, addrs, List.map_append, List.mem_append]
  tauto

/-- Only the nodes of the tree count. -/
theorem RbTree.Rep.congr : ∀ {t : RbTree (Nat × α)}, t.Rep pool →
    (∀ a ∈ t.addrs, pool'.get a = pool.get a) → t.Rep pool'
  | nil, _, _ => trivial
  | node red x kid, h, hsame => by
    have hmem : ∀ b, ∀ a ∈ (kid b).addrs, a ∈ (node red x kid).addrs := by
      intro b a ha
      rw [← branch_eta b kid]
      exact mem_addrs_branch.mpr (Or.inr (Or.inl ha))
    have hroot : x.1 ∈ (node red x kid).addrs := by
      rw [addrs, inorder]
      simp
    exact ⟨(hsame _ hroot).trans h.1, fun b => (h.2 b).congr fun a ha => hsame a (hmem b a ha)⟩

theorem outside_cons : a ∈ outside (f :: c) ↔ a = f.x.1 ∨ a ∈ f.far.addrs ∨ a ∈ outside c := by
  obtain ⟨d, red, x, far⟩ := f
  cases d with
  | true =>
    simp only [outside, before, after, if_true, List.map_append, List.map_cons, List.mem_append,
      List.mem_cons, List.map_nil, List.not_mem_nil, addrs]
    tauto
  | false =>
    simp only [outside, before, after, Bool.false_eq_true, if_false, List.map_append, List.map_cons,
      List.mem_append, List.mem_cons, List.map_nil, List.not_mem_nil, addrs]
    tauto

theorem RepFrames.congr : ∀ {c : List (Frame (Nat × α))} {q : Option Nat}, RepFrames pool c q →
    (∀ a ∈ outside c, pool'.get a = pool.get a) → RepFrames pool' c q
  | [], _, _, _ => trivial
  | f :: c, q, h, hsame => by
    obtain ⟨hget, hfar, hc⟩ := h
    refine ⟨(hsame _ (outside_cons.mpr (Or.inl rfl))).trans hget, hfar.congr fun a ha => ?_,
      hc.congr fun a ha => ?_⟩
    · exact hsame a (outside_cons.mpr (Or.inr (Or.inl ha)))
    · exact hsame a (outside_cons.mpr (Or.inr (Or.inr ha)))

/-- The node has an address of its own, and so have the two subtrees. -/
theorem nodup_branch : (node red x (branch d near far)).addrs.Nodup ↔
    (x.1 ∉ near.addrs ∧ x.1 ∉ far.addrs) ∧ (near.addrs.Nodup ∧ far.addrs.Nodup) ∧
      ∀ a ∈ near.addrs, a ∉ far.addrs := by
  have hside : (node red x (branch d near far)).addrs.Perm (x.1 :: (near.addrs ++ far.addrs)) := by
    rw [addrs, inorder_branch]
    cases d with
    | true =>
      simp only [side, if_true, List.map_append, List.map_cons, addrs]
      exact List.perm_middle.trans (List.perm_append_comm.cons _)
    | false =>
      simp only [side, Bool.false_eq_true, if_false, List.map_append, List.map_cons, addrs]
      exact List.perm_middle
  rw [hside.nodup_iff, List.nodup_cons, List.nodup_append, List.mem_append, not_or]
  refine and_congr_right fun _ => ?_
  rw [and_assoc]
  refine and_congr_right fun _ => and_congr_right fun _ => ?_
  exact ⟨fun h a ha hb => h a ha a hb rfl, fun h a ha b hb hab => h a ha (hab ▸ hb)⟩

/-- The datum of a node. -/
theorem RbTree.Rep.get_of_mem : ∀ {t : RbTree (Nat × α)}, t.Rep pool → ∀ {y : Nat × α}, y ∈ t.inorder →
    ∃ n, pool.get y.1 = some n ∧ n.data = y.2
  | nil, _, _, hy => by cases hy
  | node red x kid, h, y, hy => by
    rw [inorder, List.mem_append, List.mem_cons] at hy
    rcases hy with hy | rfl | hy
    · exact (h.2 false).get_of_mem hy
    · exact ⟨_, h.1, rfl⟩
    · exact (h.2 true).get_of_mem hy

theorem RbTree.Rep.live (h : t.Rep pool) : ∀ a ∈ t.addrs, ∃ n, pool.get a = some n := by
  intro a ha
  obtain ⟨y, hy, rfl⟩ := List.mem_map.mp ha
  obtain ⟨n, hn, -⟩ := h.get_of_mem hy
  exact ⟨n, hn⟩

theorem RepFrames.live : ∀ {c : List (Frame (Nat × α))} {q : Option Nat}, RepFrames pool c q →
    ∀ a ∈ outside c, ∃ n, pool.get a = some n
  | [], _, _, a, ha => by cases ha
  | f :: c, q, h, a, ha => by
    obtain ⟨hget, hfar, hc⟩ := h
    rcases outside_cons.mp ha with rfl | ha | ha
    · exact ⟨_, hget⟩
    · exact hfar.live a ha
    · exact hc.live a ha

/-! ## Section 3: Moving the place -/

theorem within_down (red : Bool) (x : Nat × α) (c : List (Frame (Nat × α))) (kid : Bool → RbTree (Nat × α))
    (d : Bool) :
    within (⟨d, red, x, kid (!d)⟩ :: c) (kid d) = within c (node red x kid) := by
  rw [within, within, inorder_node red x kid d]
  cases d with
  | true => simp [before, after, side]
  | false => simp [before, after, side]

/-- The place is moved to a child of the node it is at. -/
theorem holds_down {kid : Bool → RbTree (Nat × α)} (d : Bool) : Holds R pool c (node red x kid) ↔
    Holds R pool (⟨d, red, x, kid (!d)⟩ :: c) (kid d) := by
  have hin := within_down red x c kid d
  constructor
  · intro h
    have ht := (rep_node d).mp h.tree
    exact ⟨⟨ht.1, ht.2.2, h.frames⟩, ht.2.1, hin ▸ h.nodup, hin ▸ h.rest, hin ▸ h.apart⟩
  · intro h
    obtain ⟨hget, hfar, hf⟩ := h.frames
    exact ⟨hf, (rep_node d).mpr ⟨hget, h.tree, hfar⟩, hin ▸ h.nodup, hin ▸ h.rest, hin ▸ h.apart⟩

theorem holds_up : Holds R pool (f :: c) t ↔ Holds R pool c (f.around t) := by
  obtain ⟨d, red, x, far⟩ := f
  rw [Frame.around, holds_down d, branch_same, branch_not]

/-- The place is moved to the other child of the frame. -/
theorem holds_other : Holds R pool (⟨d, red, x, far⟩ :: c) t ↔ Holds R pool (⟨!d, red, x, t⟩ :: c) far := by
  rw [holds_up, holds_up, Frame.around, Frame.around]
  show _ ↔ Holds R pool c (node red x (branch (!d) far t))
  rw [branch_swap]

theorem holds_plug : ∀ {c c' : List (Frame (Nat × α))} {t : RbTree (Nat × α)},
    Holds R pool (c ++ c') t ↔ Holds R pool c' (plug c t)
  | [], _, _ => Iff.rfl
  | f :: c, c', t => by
    rw [List.cons_append, holds_up, holds_plug (c := c), plug]

/-- No node occurs twice at the place. -/
theorem Holds.tree_nodup (h : Holds R pool c t) : t.addrs.Nodup := by
  have hn := h.nodup
  rw [within, List.map_append, List.map_append, List.nodup_append, List.nodup_append] at hn
  exact hn.1.2.1

/-- The nodes of a tree are some of those in the pool. -/
theorem Holds.size_le (h : Holds R pool c t) : t.size ≤ pool.cells.length := by
  have hsub : t.addrs ⊆ List.range pool.cells.length := fun a ha => by
    obtain ⟨n, hn⟩ := h.tree.live a ha
    exact List.mem_range.mpr (Pool.lt_of_get hn)
  have hle := (h.tree_nodup.subperm hsub).length_le
  rw [List.length_range, addrs, List.length_map] at hle
  exact hle

/-- What is at the place is not outside of it. -/
theorem Holds.disjoint (h : Holds R pool c t) (ha : a ∈ t.addrs) : a ∉ outside c := by
  have hn := h.nodup
  rw [within, List.map_append, List.map_append, List.nodup_append, List.nodup_append] at hn
  obtain ⟨⟨-, -, hbt⟩, -, hall⟩ := hn
  intro ho
  rw [outside, List.map_append, List.mem_append] at ho
  rcases ho with ho | ho
  · exact hbt a ho a ha rfl
  · exact hall a (List.mem_append_right _ ha) a ho rfl

theorem mem_addrs_of_ptr (hptr : t.ptr = some a) : a ∈ t.addrs := by
  cases t with
  | nil => cases hptr
  | node r y kid =>
    rw [ptr_node] at hptr
    obtain rfl := Option.some.inj hptr
    rw [← branch_eta false kid, mem_addrs_branch]
    exact Or.inl rfl

/-- The other link of the frame does not lead to the place. -/
theorem Holds.far_ne (h : Holds R pool (f :: c) t) (hptr : t.ptr = some a) : f.far.ptr ≠ some a := by
  intro hfar
  exact h.disjoint (mem_addrs_of_ptr hptr) (outside_cons.mpr (Or.inr (Or.inl (mem_addrs_of_ptr hfar))))

/-- Which link of the frame leads to the place. -/
theorem Holds.dir_eq (h : Holds R pool (f :: c) t) (hptr : t.ptr = some a) {n : Cell α}
    (hn : pool.get f.x.1 = some n) : decide (n.link true = some a) = f.dir := by
  have hne := h.far_ne hptr
  rw [h.frames.1] at hn
  obtain rfl := Option.some.inj hn
  obtain ⟨d, red, x, far⟩ := f
  show decide (branch d t.ptr far.ptr true = some a) = d
  cases d with
  | true =>
    rw [decide_eq_true_iff]
    exact hptr
  | false =>
    rw [decide_eq_false_iff_not]
    exact hne

/-- The address of a frame is nowhere else. -/
theorem Holds.frame_apart (h : Holds R pool (f :: c) t) : f.x.1 ∉ f.far.addrs ∧ f.x.1 ∉ outside c := by
  have hup := holds_up.mp h
  obtain ⟨d, red, x, far⟩ := f
  have hroot : x.1 ∈ (node red x (branch d t far)).addrs := mem_addrs_branch.mpr (Or.inl rfl)
  exact ⟨(nodup_branch.mp hup.tree_nodup).1.2, hup.disjoint hroot⟩

/-! ## Section 4: Changes at the place -/

/-- **A change below a pointer.**  The nodes at the place are relinked, and
    the frames still point to the root. -/
theorem Holds.relinked (h : Holds R pool c t) (ht : t'.Rep pool') (hlist : t'.inorder = t.inorder)
    (hptr : t'.ptr = t.ptr) (hsame : ∀ a, a ∉ t.addrs → pool'.get a = pool.get a) :
    Holds R pool' c t' := by
  have hin : within c t' = within c t := by rw [within, hlist, within]
  refine ⟨?_, ht, hin ▸ h.nodup, fun a ha => ?_, hin ▸ h.apart⟩
  · rw [hptr]
    exact h.frames.congr fun a ha => hsame a fun hin => h.disjoint hin ha
  · rw [hin] at ha
    rw [hsame a fun hat => ha (mem_within.mpr (Or.inl hat)), h.rest a ha]

/-- **A new root** of the whole tree. -/
theorem Holds.rerooted (h : Holds R pool [] t) (ht : t'.Rep pool') (hlist : t'.inorder = t.inorder)
    (hsame : ∀ a, a ∉ t.addrs → pool'.get a = pool.get a) : Holds R pool' [] t' := by
  have hin : within [] t' = within [] t := by rw [within, hlist, within]
  refine ⟨trivial, ht, hin ▸ h.nodup, fun a ha => ?_, hin ▸ h.apart⟩
  rw [hin] at ha
  rw [hsame a fun hat => ha (mem_within.mpr (Or.inl hat)), h.rest a ha]

/-- **A new root at the place.**  The frame above is made to point to it. -/
theorem Holds.swung (h : Holds R pool (f :: c) t) (ht : t'.Rep pool') (hlist : t'.inorder = t.inorder)
    (hsame : ∀ a, a ∉ t.addrs → pool'.get a = pool.get a) :
    Holds R (pool'.set f.x.1 ⟨f.red, f.x.2, branch f.dir t'.ptr f.far.ptr⟩) (f :: c) t' := by
  obtain ⟨hget, hfar, hc⟩ := h.frames
  have hout : ∀ a ∈ outside (f :: c), pool'.get a = pool.get a := fun a ha =>
    hsame a fun hin => h.disjoint hin ha
  have hself : f.x.1 ∈ outside (f :: c) := outside_cons.mpr (Or.inl rfl)
  have hf : f.x.1 ∉ t.addrs := fun hin => h.disjoint hin hself
  have hne := h.frame_apart
  have hset : ∀ a, a ≠ f.x.1 → (pool'.set f.x.1 ⟨f.red, f.x.2, branch f.dir t'.ptr f.far.ptr⟩).get a =
      pool'.get a := fun a ha => Pool.get_set_ne ha
  have haddrs : t'.addrs = t.addrs := congrArg (List.map Prod.fst) hlist
  have hin : within (f :: c) t' = within (f :: c) t := by rw [within, hlist, within]
  refine ⟨⟨?_, ?_, ?_⟩, ?_, hin ▸ h.nodup, fun a ha => ?_, hin ▸ h.apart⟩
  · exact Pool.get_set_self ((hout _ hself).trans hget)
  · refine hfar.congr fun a ha => ?_
    rw [hset a fun he => hne.1 (he ▸ ha)]
    exact hout a (outside_cons.mpr (Or.inr (Or.inl ha)))
  · refine hc.congr fun a ha => ?_
    rw [hset a fun he => hne.2 (he ▸ ha)]
    exact hout a (outside_cons.mpr (Or.inr (Or.inr ha)))
  · exact ht.congr fun a ha => hset a fun he => hf (by rw [← haddrs, ← he]; exact ha)
  · rw [hin] at ha
    rw [hset a fun he => ha (mem_within.mpr (Or.inr (he ▸ hself))),
      hsame a fun hat => ha (mem_within.mpr (Or.inl hat)), h.rest a ha]

/-- A new address is none of those in use. -/
theorem Holds.fresh (h : Holds R pool c t) (n : Cell α) :
    (pool.alloc n).1 ∉ within c t ∧ R (pool.alloc n).1 = none := by
  have hnone : pool.get (pool.alloc n).1 = none := by
    rcases hg : pool.get (pool.alloc n).1 with _ | m
    · rfl
    · exact absurd (Pool.lt_of_get hg) (lt_irrefl _)
  have hout : (pool.alloc n).1 ∉ within c t := by
    intro ha
    obtain ⟨m, hm⟩ : ∃ m, pool.get (pool.alloc n).1 = some m := by
      rcases mem_within.mp ha with ha | ha
      · exact h.tree.live _ ha
      · exact h.frames.live _ ha
    rw [hnone] at hm
    cases hm
  exact ⟨hout, (h.rest _ hout).symm.trans hnone⟩

/-- Allocation, seen from the nodes there were. -/
theorem Holds.alloc_same (h : Holds R pool c t) (n : Cell α) (ha : a ∈ within c t) :
    (pool.alloc n).2.get a = pool.get a := by
  refine Pool.get_alloc_ne ?_
  rintro rfl
  exact (h.fresh n).1 ha

theorem within_leaf (c : List (Frame (Nat × α))) (red : Bool) (x : Nat × α) (kid : Bool → RbTree (Nat × α))
    (hk : ∀ b, kid b = nil) : (within c (node red x kid)).Perm (x.1 :: within c nil) := by
  have hlist : (before c ++ (node red x kid).inorder ++ after c).Perm
      (x :: (before c ++ (nil : RbTree (Nat × α)).inorder ++ after c)) := by
    have hnode : (node red x kid).inorder = [x] := by
      rw [RbTree.inorder, hk false, hk true]
      rfl
    rw [hnode]
    simp [inorder]
  exact hlist.map Prod.fst

/-- **A leaf.**  A new node is linked at an empty place. -/
theorem Holds.leaf (h : Holds R pool (f :: c) nil) (n : Cell α) (hn : n.link = branch false none none) :
    Holds R (((pool.alloc n).2).set f.x.1
        ⟨f.red, f.x.2, branch f.dir (some (pool.alloc n).1) f.far.ptr⟩) (f :: c)
      (node n.red ((pool.alloc n).1, n.data) (branch false nil nil)) := by
  obtain ⟨hf, hfar, hc⟩ := h.frames
  obtain ⟨hne1, hne2⟩ := h.frame_apart
  obtain ⟨hnew, hR⟩ := h.fresh n
  have hself : f.x.1 ∈ within (f :: c) nil := mem_within.mpr (Or.inr (outside_cons.mpr (Or.inl rfl)))
  have hfa : f.x.1 ≠ (pool.alloc n).1 := fun he => hnew (he ▸ hself)
  have hperm := within_leaf (f :: c) n.red ((pool.alloc n).1, n.data) (branch false nil nil)
    ((forall_branch (P := fun t => t = nil) false nil nil).mpr ⟨rfl, rfl⟩)
  have hmem : ∀ b, b ∈ within (f :: c) (node n.red ((pool.alloc n).1, n.data) (branch false nil nil)) ↔
      b = (pool.alloc n).1 ∨ b ∈ within (f :: c) nil := by
    intro b
    rw [hperm.mem_iff, List.mem_cons]
  have hold := fun b hb => h.alloc_same (a := b) n (mem_within.mpr (Or.inr hb))
  refine ⟨⟨?_, ?_, ?_⟩, ?_, ?_, fun b hb => ?_, fun b hb => ?_⟩
  · exact Pool.get_set_self ((h.alloc_same n hself).trans hf)
  · refine hfar.congr fun b hb => ?_
    have hbf : b ≠ f.x.1 := fun he => hne1 (he ▸ hb)
    rw [Pool.get_set_ne hbf, hold b (outside_cons.mpr (Or.inr (Or.inl hb)))]
  · refine hc.congr fun b hb => ?_
    have hbf : b ≠ f.x.1 := fun he => hne2 (he ▸ hb)
    rw [Pool.get_set_ne hbf, hold b (outside_cons.mpr (Or.inr (Or.inr hb)))]
  · refine rep_branch.mpr ⟨?_, trivial, trivial⟩
    rw [Pool.get_set_ne (Ne.symm hfa), Pool.get_alloc_new]
    obtain ⟨red, data, link⟩ := n
    obtain rfl : link = branch false none none := hn
    rfl
  · rw [hperm.nodup_iff, List.nodup_cons]
    exact ⟨hnew, h.nodup⟩
  · rw [hmem, not_or] at hb
    have hbf : b ≠ f.x.1 := fun he => hb.2 (he ▸ hself)
    rw [Pool.get_set_ne hbf, Pool.get_alloc_ne hb.1, h.rest b hb.2]
  · rcases (hmem b).mp hb with rfl | hb
    · exact hR
    · exact h.apart b hb

/-- **The first node.** -/
theorem Holds.first (h : Holds R pool [] nil) (n : Cell α) (hn : n.link = branch false none none) :
    Holds R (pool.alloc n).2 [] (node n.red ((pool.alloc n).1, n.data) (branch false nil nil)) := by
  obtain ⟨hnew, hR⟩ := h.fresh n
  have hin : within [] (node n.red ((pool.alloc n).1, n.data) (branch false nil nil)) =
      [(pool.alloc n).1] := rfl
  refine ⟨trivial, rep_branch.mpr ⟨?_, trivial, trivial⟩, ?_, fun b hb => ?_, fun b hb => ?_⟩
  · rw [Pool.get_alloc_new]
    obtain ⟨red, data, link⟩ := n
    obtain rfl : link = branch false none none := hn
    rfl
  · exact List.nodup_singleton _
  · rw [hin, List.mem_singleton] at hb
    rw [Pool.get_alloc_ne hb, h.rest b (by intro hb; cases hb)]
  · rw [hin, List.mem_singleton] at hb
    rw [hb]
    exact hR

/-- **A node above the root**, that is not one of the tree. -/
theorem Holds.under (h : Holds R pool [] t) (n : Cell α) (d : Bool) (hn : n.link = branch d t.ptr none) :
    Holds R (pool.alloc n).2 [⟨d, n.red, ((pool.alloc n).1, n.data), nil⟩] t := by
  obtain ⟨hnew, hR⟩ := h.fresh n
  have hperm : (within [⟨d, n.red, ((pool.alloc n).1, n.data), nil⟩] t).Perm
      ((pool.alloc n).1 :: within [] t) := by
    cases d with
    | true => simp [within, before, after, inorder]
    | false => simp [within, before, after, inorder]
  have hmem : ∀ b, b ∈ within [⟨d, n.red, ((pool.alloc n).1, n.data), nil⟩] t ↔
      b = (pool.alloc n).1 ∨ b ∈ within [] t := by
    intro b
    rw [hperm.mem_iff, List.mem_cons]
  refine ⟨⟨?_, trivial, trivial⟩, h.tree.congr fun b hb => ?_, ?_, fun b hb => ?_, fun b hb => ?_⟩
  · rw [Pool.get_alloc_new]
    obtain ⟨red, data, link⟩ := n
    obtain rfl : link = branch d t.ptr none := hn
    rfl
  · exact h.alloc_same n (mem_within.mpr (Or.inl hb))
  · rw [hperm.nodup_iff, List.nodup_cons]
    exact ⟨hnew, h.nodup⟩
  · rw [hmem, not_or] at hb
    rw [Pool.get_alloc_ne hb.1, h.rest b hb.2]
  · rcases (hmem b).mp hb with rfl | hb
    · exact hR
    · exact h.apart b hb

/-- It is released. -/
theorem Holds.bare {y : Nat × α} (h : Holds R pool [⟨d, red, y, nil⟩] t) :
    Holds R (pool.release y.1) [] t := by
  have hout : y.1 ∈ outside [(⟨d, red, y, nil⟩ : Frame (Nat × α))] := outside_cons.mpr (Or.inl rfl)
  have hmem : ∀ b, b ∈ within [⟨d, red, y, nil⟩] t ↔ b = y.1 ∨ b ∈ within [] t := by
    intro b
    rw [mem_within, mem_within, outside_cons]
    simp [outside, before, after, addrs, inorder, or_comm]
  have hnin : y.1 ∉ t.addrs := fun hin => h.disjoint hin hout
  refine ⟨trivial, h.tree.congr fun b hb => Pool.get_release_ne ?_, ?_, fun b hb => ?_, fun b hb => ?_⟩
  · rintro rfl
    exact hnin hb
  · have hn := h.tree_nodup
    simpa [within, before, after, addrs] using hn
  · by_cases hby : b = y.1
    · rw [hby, Pool.get_release_self, h.apart _ ((hmem _).mpr (Or.inl rfl))]
    · rw [Pool.get_release_ne hby, h.rest b fun hin => ((hmem b).mp hin).elim hby hb]
  · exact h.apart b ((hmem b).mpr (Or.inr hb))

/-- **A leaf is taken out.**  The frame above is cut off from it. -/
theorem Holds.unleaf (h : Holds R pool (f :: c) (node red x (branch d nil nil))) :
    Holds R ((pool.set f.x.1 ⟨f.red, f.x.2, branch f.dir none f.far.ptr⟩).release x.1) (f :: c) nil := by
  obtain ⟨hf, hfar, hc⟩ := h.frames
  obtain ⟨hne1, hne2⟩ := h.frame_apart
  have hself : f.x.1 ∈ outside (f :: c) := outside_cons.mpr (Or.inl rfl)
  have hx : x.1 ∈ (node red x (branch d nil nil)).addrs := mem_addrs_branch.mpr (Or.inl rfl)
  have hout : x.1 ∉ outside (f :: c) := h.disjoint hx
  have hkids : ∀ b, branch d nil nil b = (nil : RbTree (Nat × α)) :=
    (forall_branch (P := fun t => t = nil) d nil nil).mpr ⟨rfl, rfl⟩
  have hperm := within_leaf (f :: c) red x (branch d nil nil) hkids
  have hmem : ∀ b, b ∈ within (f :: c) (node red x (branch d nil nil)) ↔ b = x.1 ∨ b ∈ within (f :: c) nil := by
    intro b
    rw [hperm.mem_iff, List.mem_cons]
  have hsame : ∀ b, b ≠ f.x.1 → b ≠ x.1 →
      ((pool.set f.x.1 ⟨f.red, f.x.2, branch f.dir none f.far.ptr⟩).release x.1).get b = pool.get b :=
    fun b hbf hbx => (Pool.get_release_ne hbx).trans (Pool.get_set_ne hbf)
  have hapart : ∀ b ∈ outside (f :: c), b ≠ x.1 := fun b hb he => hout (he ▸ hb)
  refine ⟨⟨?_, ?_, ?_⟩, trivial, ?_, fun b hb => ?_, fun b hb => h.apart b ((hmem b).mpr (Or.inr hb))⟩
  · exact (Pool.get_release_ne (hapart _ hself)).trans (Pool.get_set_self hf)
  · refine hfar.congr fun b hb => hsame b (fun he => hne1 (he ▸ hb)) (hapart b ?_)
    exact outside_cons.mpr (Or.inr (Or.inl hb))
  · refine hc.congr fun b hb => hsame b (fun he => hne2 (he ▸ hb)) (hapart b ?_)
    exact outside_cons.mpr (Or.inr (Or.inr hb))
  · exact (List.nodup_cons.mp (hperm.nodup_iff.mp h.nodup)).2
  · by_cases hbx : b = x.1
    · rw [hbx, Pool.get_release_self, h.apart _ ((hmem _).mpr (Or.inl rfl))]
    · have hbf : b ≠ f.x.1 := fun he => hb (mem_within.mpr (Or.inr (he ▸ hself)))
      rw [hsame b hbf hbx]
      exact h.rest b fun hin => ((hmem b).mp hin).elim hbx hb

/-! ## Section 5: Data -/

/-- The datum at the address `a` is `v`. -/
def retag (a : Nat) (v : α) (x : Nat × α) : Nat × α := (x.1, if x.1 = a then v else x.2)

theorem map_retag {a : Nat} {v : α} {l : List (Nat × α)} (h : ∀ x ∈ l, x.1 ≠ a) : l.map (retag a v) = l := by
  conv_rhs => rw [← List.map_id l]
  exact List.map_congr_left fun x hx => by rw [retag, if_neg (h x hx)]; rfl

theorem ptr_map_retag (a : Nat) (v : α) (t : RbTree (Nat × α)) : (t.map (retag a v)).ptr = t.ptr := by
  cases t <;> rfl

section retag

variable {v : α} {n : Cell α}

theorem get_retag (hn : pool.get a = some n) {y : Nat × α} {link : Bool → Option Nat}
    (hy : pool.get y.1 = some ⟨red, y.2, link⟩) :
    (pool.set a { n with data := v }).get y.1 = some ⟨red, (retag a v y).2, link⟩ := by
  by_cases hya : y.1 = a
  · subst hya
    rw [Pool.get_set_self hn, retag, if_pos rfl]
    rw [hn] at hy
    obtain rfl := Option.some.inj hy
    rfl
  · rw [Pool.get_set_ne hya, hy, retag, if_neg hya]

theorem RbTree.Rep.retag (hn : pool.get a = some n) : ∀ {t : RbTree (Nat × α)}, t.Rep pool →
    (t.map (RedBlack.retag a v)).Rep (pool.set a { n with data := v })
  | nil, _ => trivial
  | node red x kid, h => by
    have hkids : (fun b => ((kid b).map (RedBlack.retag a v)).ptr) = fun b => (kid b).ptr := by
      funext b
      exact ptr_map_retag a v (kid b)
    refine ⟨?_, fun b => (h.2 b).retag hn⟩
    rw [hkids]
    exact get_retag hn h.1

theorem RepFrames.retag (hn : pool.get a = some n) : ∀ {c : List (Frame (Nat × α))} {q : Option Nat},
    RepFrames pool c q →
      RepFrames (pool.set a { n with data := v }) (c.map (Frame.map (RedBlack.retag a v))) q
  | [], _, _ => trivial
  | f :: c, q, h => by
    obtain ⟨hget, hfar, hc⟩ := h
    refine ⟨?_, hfar.retag hn, hc.retag hn⟩
    show Pool.get _ f.x.1 = some (⟨f.red, _, branch f.dir q (f.far.map (RedBlack.retag a v)).ptr⟩ : Cell α)
    rw [ptr_map_retag]
    exact get_retag hn hget

/-- **A datum is replaced** anywhere in the tree. -/
theorem Holds.retag (h : Holds R pool c t) (hn : pool.get a = some n) (hin : a ∈ within c t) :
    Holds R (pool.set a { n with data := v }) (c.map (Frame.map (RedBlack.retag a v)))
      (t.map (RedBlack.retag a v)) := by
  have hsame : within (c.map (Frame.map (RedBlack.retag a v))) (t.map (RedBlack.retag a v)) = within c t := by
    rw [within, before_map, after_map, inorder_map, ← List.map_append, ← List.map_append, List.map_map]
    rfl
  refine ⟨?_, h.tree.retag hn, ?_, fun b hb => ?_, ?_⟩
  · rw [ptr_map_retag]
    exact h.frames.retag hn
  · rw [hsame]
    exact h.nodup
  · rw [hsame] at hb
    have hba : b ≠ a := fun he => hb (he ▸ hin)
    rw [Pool.get_set_ne hba, h.rest b hb]
  · rw [hsame]
    exact h.apart

end retag

end RedBlack
