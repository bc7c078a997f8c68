import BoAtom.Lib.Comparison
import BoAtom.RedBlack.Rotations

/-! # Insertion into the red-black tree

    `jsw_rbinsert` splits nodes with two red children on its way down and
    rotates where that makes a red node with a red parent.  The rotation
    needs the grandparent `g` and the great-grandparent `t`, and these are
    not kept up to date by a rotation itself: after one, `t` or both of them
    point elsewhere.  What makes this right is that no rotation follows
    until they are exact again, since the nodes just split have no red
    children (`Helpers`). -/

namespace BoAtom

open Memory Loop RedBlack RbTree Comparison

variable {α : Type}

/-! ## Section 1: The set of items -/

variable (cmp : α → α → Int) (dup : α → α)

/-- Insertion into a sorted list without duplicates. -/
def insertItem (data : α) (l : List α) : List α :=
  if l.any (fun x => cmp x data = 0) then l
  else l.filter (fun x => cmp x data < 0) ++ dup data :: l.filter (fun x => 0 < cmp x data)

variable {cmp dup}

theorem insertItem_found {data x : α} {l : List α} (hx : x ∈ l) (heq : cmp x data = 0) :
    insertItem cmp dup data l = l := by
  rw [insertItem, if_pos]
  rw [List.any_eq_true]
  exact ⟨x, hx, by simpa using heq⟩

theorem insertItem_new {data : α} {l r : List α} (hl : ∀ x ∈ l, cmp x data < 0)
    (hr : ∀ x ∈ r, 0 < cmp x data) :
    insertItem cmp dup data (l ++ r) = l ++ dup data :: r := by
  have hnone : ¬ (l ++ r).any (fun x => cmp x data = 0) = true := by
    rw [List.any_eq_true]
    rintro ⟨x, hx, heq⟩
    rw [decide_eq_true_iff] at heq
    rcases List.mem_append.mp hx with hx | hx
    · have := hl x hx
      omega
    · have := hr x hx
      omega
  have hlow : (l ++ r).filter (fun x => cmp x data < 0) = l := by
    rw [List.filter_append, List.filter_eq_self.mpr fun x hx => by simpa using hl x hx,
      List.filter_eq_nil_iff.mpr fun x hx => by simpa using le_of_lt (hr x hx), List.append_nil]
  have hhigh : (l ++ r).filter (fun x => 0 < cmp x data) = r := by
    rw [List.filter_append, List.filter_eq_nil_iff.mpr fun x hx => by simpa using le_of_lt (hl x hx),
      List.filter_eq_self.mpr fun x hx => by simpa using hr x hx, List.nil_append]
  rw [insertItem, if_neg hnone, hlow, hhigh]

theorem insertItem_ne_nil (data : α) (l : List α) : insertItem cmp dup data l ≠ [] := by
  rw [insertItem]
  split
  · rename_i h
    rintro rfl
    cases h
  · simp

theorem sorted_insertItem (hc : TotalPreorder cmp) (hdup : ∀ x, cmp (dup x) x = 0) (data : α) {l : List α}
    (h : Sorted cmp l) : Sorted cmp (insertItem cmp dup data l) := by
  rw [insertItem]
  split
  · exact h
  · have hlow : ∀ x ∈ l.filter (fun x => cmp x data < 0), cmp x (dup data) < 0 := fun x hx => by
      have hlt : cmp x data < 0 := by simpa using (List.mem_filter.mp hx).2
      exact hc.lt_of_lt_of_le hlt (le_of_eq (hc.eq_comm.mp (hdup data)))
    have hhigh : ∀ x ∈ l.filter (fun x => 0 < cmp x data), cmp (dup data) x < 0 := fun x hx => by
      have hgt : 0 < cmp x data := by simpa using (List.mem_filter.mp hx).2
      exact hc.lt_of_le_of_lt (le_of_eq (hdup data)) ((hc.swap data x).mpr hgt)
    rw [Sorted, List.pairwise_append, List.pairwise_cons]
    refine ⟨h.filter _, ⟨hhigh, h.filter _⟩, fun x hx y hy => ?_⟩
    rcases List.mem_cons.mp hy with rfl | hy
    · exact hlow x hx
    · exact hc.lt_of_lt_of_le (hlow x hx) (le_of_lt (hhigh y hy))

/-! ## Section 2: The place the item belongs to -/

/-- Nothing outside of the place compares equal, and the place lies between
    the smaller and the larger items. -/
structure Between (cmp : α → α → Int) (data : α) (c : List (Frame (Nat × α))) : Prop where
  low : ∀ y ∈ before c, cmp y.2 data < 0
  high : ∀ y ∈ after c, 0 < cmp y.2 data

theorem between_nil (cmp : α → α → Int) (data : α) : Between cmp data [] :=
  ⟨fun y hy => (by cases hy), fun y hy => (by cases hy)⟩

variable {data : α} {c : List (Frame (Nat × α))} {t : RbTree (Nat × α)} {r : Bool} {x : Nat × α}
  {kid : Bool → RbTree (Nat × α)}

/-- The way down that `cmp` picks leads to it. -/
theorem Between.down (hc : TotalPreorder cmp) (h : Between cmp data c)
    (hs : Sorted cmp ((node r x kid).items)) (hne : cmp x.2 data ≠ 0) :
    Between cmp data (⟨decide (cmp x.2 data < 0), r, x, kid (!decide (cmp x.2 data < 0))⟩ :: c) := by
  rw [Sorted, items, inorder, List.map_append, List.map_cons, List.pairwise_append,
    List.pairwise_cons] at hs
  obtain ⟨-, ⟨hright, -⟩, hleft⟩ := hs
  by_cases hlt : cmp x.2 data < 0
  · rw [decide_eq_true hlt]
    refine ⟨fun y hy => ?_, fun y hy => h.high y ?_⟩
    · rw [before, if_pos rfl, List.mem_append, List.mem_append, List.mem_singleton] at hy
      rcases hy with hy | hy | rfl
      · exact h.low y hy
      · -- to the left of a smaller item
        have hyx : cmp y.2 x.2 < 0 := hleft _ (List.mem_map_of_mem hy) _ List.mem_cons_self
        exact hc.lt_of_le_of_lt (le_of_lt hyx) hlt
      · exact hlt
    · simpa [after] using hy
  · have hgt : 0 < cmp x.2 data := by omega
    rw [decide_eq_false hlt]
    refine ⟨fun y hy => h.low y ?_, fun y hy => ?_⟩
    · simpa [before] using hy
    · rw [after, if_neg Bool.false_ne_true, List.mem_append, List.mem_cons] at hy
      rcases hy with (rfl | hy) | hy
      · exact hgt
      · have hxy : cmp x.2 y.2 < 0 := hright _ (List.mem_map_of_mem hy)
        rw [← hc.swap] at hgt ⊢
        exact hc.lt_of_lt_of_le hgt (le_of_lt hxy)
      · exact h.high y hy

theorem Between.frame {f : Frame (Nat × α)} (h : Between cmp data (f :: c)) :
    decide (cmp f.x.2 data < 0) = f.dir := by
  cases hd : f.dir with
  | true =>
    rw [decide_eq_true_iff]
    exact h.low f.x (by simp [before, hd])
  | false =>
    rw [decide_eq_false_iff_not]
    have := h.high f.x (by simp [after, hd])
    omega

theorem Between.tail {f : Frame (Nat × α)} (h : Between cmp data (f :: c)) : Between cmp data c :=
  ⟨fun y hy => h.low y (by rw [before]; exact List.mem_append_left _ hy),
    fun y hy => h.high y (by rw [after]; exact List.mem_append_right _ hy)⟩

/-! ## Section 3: The parts of a turn -/

section parts

variable {R : Nat → Option (JswRbnode α)} {st : InsertState α} {F : List (Frame (Nat × α))} {f : Frame (Nat × α)} {y z : Nat × α}
  {far far' : RbTree (Nat × α)} {d r' : Bool}

/-- Neither an insertion nor a colour flip. -/
theorem attachOrFlip_keep (h : Holds R st.pool F (node r x kid)) (hq : st.q = some x.1)
    (hred : ((kid false).isRed && (kid true).isRed) = false) :
    attachOrFlip dup data st = .ok st := by
  obtain ⟨hget, hkids⟩ := h.tree
  rw [attachOrFlip, hq]
  simp only [loadNode_ok hget, ok_bind, isRed_ok (hkids false), isRed_ok (hkids true), hred,
    Bool.false_eq_true, if_false, pure_ok]

/-- The colours of a node and its children after a flip. -/
def flip (x : Nat × α) (kid : Bool → RbTree (Nat × α)) : RbTree (Nat × α) :=
  node true x fun b => (kid b).paint false

theorem inorder_flip (r : Bool) (x : Nat × α) (kid : Bool → RbTree (Nat × α)) :
    (flip x kid).inorder = (node r x kid).inorder := by
  simp only [flip, inorder, inorder_paint]

theorem good_flip {n : Nat} (h : Good n (node r x kid)) (hk : ∀ b, (kid b).isRed = true) :
    r = false ∧ Good n (flip x kid) := by
  cases r with
  | true =>
    have hleft := (h false).1
    rw [hk] at hleft
    cases hleft
  | false =>
    obtain ⟨m, rfl, h⟩ := h
    exact ⟨rfl, fun b => ⟨isRed_paint_false _, (h b).raise (hk b)⟩⟩

theorem attachOrFlip_flip (h : Holds R st.pool F (node r x kid)) (hq : st.q = some x.1)
    (hk : ∀ b, (kid b).isRed = true) :
    ∃ pool', attachOrFlip dup data st = .ok { st with pool := pool' } ∧
      Holds R pool' F (flip x kid) := by
  obtain ⟨hget, hkids⟩ := h.tree
  obtain ⟨pool₁, heq₁, h₁⟩ := paint_holds true h
  obtain ⟨pool₂, pool₃, heq₂, heq₃, -, h₃⟩ := paint_kids h₁ fun b hnil => by
    have hred := hk b
    rw [hnil] at hred
    cases hred
  refine ⟨pool₃, ?_, h₃⟩
  rw [attachOrFlip, hq]
  simp only [loadNode_ok hget, ok_bind, isRed_ok (hkids _), hk, Bool.and_self, if_true, heq₁, heq₂, heq₃,
    pure_ok]

/-- A new node below a frame. -/
theorem attachOrFlip_attach (dup : α → α) (data : α) (h : Holds R st.pool (f :: F) nil) (hq : st.q = none)
    (hp : st.p = some f.x.1) (hdir : st.dir = f.dir) :
    ∃ pool' a, attachOrFlip dup data st = .ok { st with pool := pool', q := some a } ∧
      Holds R pool' (f :: F) (node true (a, dup data) (branch false nil nil)) := by
  have hget := Pool.get_alloc_of_get (x := newNode dup data) h.frames.1
  refine ⟨_, _, ?_, h.leaf (newNode dup data) rfl⟩
  rw [attachOrFlip, hq]
  simp only [hp, hdir, storeNode_ok hget, Cell.setLink_branch, ok_bind, pure_ok]

/-- No red node with a red parent. -/
theorem fixRedRed_keep (h : Holds R st.pool F t) (hq : st.q = t.ptr)
    (hp : st.p = none ∨ ∃ f F', F = f :: F' ∧ st.p = some f.x.1 ∧ (t.isRed && f.red) = false) :
    fixRedRed st = .ok st := by
  rw [fixRedRed, hq]
  rcases hp with hp | ⟨f, F', rfl, hp, hred⟩
  · simp only [isRed_ok h.tree, ok_bind, hp, isRed_none, Bool.and_false, Bool.false_eq_true, if_false,
      pure_ok]
  · simp only [isRed_ok h.tree, ok_bind, hp, isRed_frame h, hred, Bool.false_eq_true, if_false, pure_ok]

/-- The node and its parent lie on the same side: a single rotation. -/
theorem fixRedRed_single (h : Holds R st.pool (⟨d, true, y, far⟩ :: ⟨d, r', z, far'⟩ :: f :: F) (node true x kid))
    (hq : st.q = some x.1) (hp : st.p = some y.1) (hg : st.g = some z.1) (ht : st.t = some f.x.1)
    (hlast : st.last = d) :
    ∃ pool', fixRedRed st = .ok { st with pool := pool' } ∧
      Holds R pool' (⟨d, false, y, node true z (branch d far far')⟩ :: f :: F) (node true x kid) := by
  have hup := holds_up.mp (holds_up.mp h)
  simp only [Frame.around] at hup
  -- seen from the direction of the rotation
  have hswap : node r' z (branch d (node true y (branch d (node true x kid) far)) far') =
      node r' z (branch (!d) far' (node true y (branch (!d) far (node true x kid)))) := by
    rw [branch_swap, branch_swap]
  have hback := hup
  rw [hswap] at hback
  obtain ⟨pool₁, pool₂, heq₁, heq₂, h₂⟩ := single_below hback
  rw [branch_swap, branch_swap] at h₂
  have hside : decide (branch f.dir (some z.1) f.far.ptr true = some z.1) = f.dir :=
    hup.dir_eq rfl hup.frames.1
  have hboth : ((node true x kid).isRed && true) = true := rfl
  refine ⟨pool₂, ?_, holds_up.mpr h₂⟩
  rw [fixRedRed, hq, hp, ht, hg, hlast]
  have hx := isRed_ok h.tree
  rw [ptr_node] at hx
  simp only [hx, ok_bind, isRed_frame h, hboth, if_true, loadNode_ok hup.frames.1, ptr_node, hside,
    loadNode_ok h.frames.1, branch_same, heq₁, heq₂, pure_ok]

/-- They lie on different sides: a double rotation. -/
theorem fixRedRed_double
    (h : Holds R st.pool (⟨!d, true, y, far⟩ :: ⟨d, r', z, far'⟩ :: f :: F) (node true x kid))
    (hq : st.q = some x.1) (hp : st.p = some y.1) (hg : st.g = some z.1) (ht : st.t = some f.x.1)
    (hlast : st.last = d) :
    ∃ pool', fixRedRed st = .ok { st with pool := pool' } ∧
      Holds R pool' (f :: F) (node false x (branch d (node true y (branch d far (kid d)))
        (node true z (branch d (kid (!d)) far')))) := by
  have hup := holds_up.mp (holds_up.mp h)
  simp only [Frame.around] at hup
  -- seen from the direction of the rotation
  have hswap : node r' z (branch d (node true y (branch (!d) (node true x kid) far)) far') =
      node r' z (branch (!d) far' (node true y (branch (!d)
        (node true x (branch (!d) (kid (!d)) (kid d))) far))) := by
    rw [branch_swap d far', branch_swap d (kid (!d)), branch_eta]
  have hback := hup
  rw [hswap] at hback
  obtain ⟨pool₁, pool₂, heq₁, heq₂, h₂⟩ := double_below hback
  simp only [branch_swap] at h₂
  have hside : decide (branch f.dir (some z.1) f.far.ptr true = some z.1) = f.dir :=
    hup.dir_eq rfl hup.frames.1
  have hboth : ((node true x kid).isRed && true) = true := rfl
  -- the link in the direction of the parent leads to the other child
  have hother : ¬ some x.1 = far.ptr := fun he => h.far_ne rfl he.symm
  refine ⟨pool₂, ?_, h₂⟩
  rw [fixRedRed, hq, hp, ht, hg, hlast]
  have hx := isRed_ok h.tree
  have hlink : branch (!d) (some x.1) far.ptr d = far.ptr := by
    rw [branch_swap, branch_same]
  rw [ptr_node] at hx
  simp only [hx, ok_bind, isRed_frame h, hboth, if_true, loadNode_ok hup.frames.1, ptr_node, hside,
    loadNode_ok h.frames.1, hlink, if_neg hother, heq₁, heq₂, pure_ok]

end parts

/-! ## Section 4: The helpers on the way down -/

/-- A black node without red children: nothing is done at it. -/
def Calm (t : RbTree (Nat × α)) : Prop := ∃ x kid, t = node false x kid ∧ ∀ b, (kid b).isRed = false

/-- The helpers are those of the place. -/
structure Exact (head : Nat) (st : InsertState α) (c : List (Frame (Nat × α))) : Prop where
  g : st.g = addrAt c 1
  great : st.t = some ((addrAt c 2).getD head)
  last : ∀ f, c.tail.head? = some f → st.last = f.dir

/-- How far the helpers are right at the start of a turn, and what this turn
    is known not to do; the number is a bound on the turns left. -/
inductive Helpers (cmp : α → α → Int) (data : α) (head : Nat) (st : InsertState α)
    (c : List (Frame (Nat × α))) : RbTree (Nat × α) → Nat → Prop where
  /-- All of them are right. -/
  | exact {t : RbTree (Nat × α)} (helpers : Exact head st c)
      (root : c = [] → t ≠ nil ∧ t.isRed = false)
      (sibling : ∀ f c', c = f :: c' → t.isRed = true → f.far.isRed = false)
      (uncle : ∀ f c', c = f :: c' → f.red = true → ∃ g c'', c' = g :: c'' ∧ g.far.isRed = false) :
      Helpers cmp data head st c t (2 * t.size + 1)
  /-- `t` may be wrong, but the node is one whose parent has been split. -/
  | calm {t : RbTree (Nat × α)} (g : st.g = addrAt c 1) (great : st.g = none → st.t = some head) (ht : Calm t) :
      Helpers cmp data head st c t (2 * t.size + 1)
  /-- After a double rotation `t` and `g` may be wrong, and the node is one
      that has been rotated down. -/
  | lowered {x : Nat × α} {kid : Bool → RbTree (Nat × α)} (parent : ∃ f c', c = f :: c' ∧ f.red = false) (hk : ∀ b, (kid b).isRed = false)
      (ht : Calm (kid (decide (cmp x.2 data < 0)))) :
      Helpers cmp data head st c (node true x kid) (2 * (kid (decide (cmp x.2 data < 0))).size + 2)

/-- The children of a node that has been split. -/
theorem calm_paint {n : Nat} (hg : Good n (node r x kid)) (hk : ∀ b, (kid b).isRed = true) (b : Bool) :
    Calm ((kid b).paint false) := by
  obtain ⟨rfl, -⟩ := good_flip hg hk
  obtain ⟨m, -, hg⟩ := hg
  obtain ⟨y, k, hkid⟩ := red_node (hk b)
  have hgk := hg b
  rw [hkid] at hgk ⊢
  exact ⟨y, k, rfl, fun b' => (hgk b').1⟩

/-- `last = dir; …; q = q->link[dir]`. -/
def advance (cmp : α → α → Int) (data : α) (st : InsertState α) (x : Nat × α)
    (kid : Bool → RbTree (Nat × α)) : InsertState α :=
  { pool := st.pool
    t := if st.g = none then st.t else st.g
    g := st.p
    p := st.q
    q := (kid (decide (cmp x.2 data < 0))).ptr
    dir := decide (cmp x.2 data < 0)
    last := st.dir }

/-- A turn: the tree is changed, then the item looked at. -/
theorem insertTurn_eq (st : InsertState α) : insertTurn cmp dup data st =
    ((attachOrFlip dup data st >>= fixRedRed) >>= fun st => do
      let n ← loadNode st.pool st.q
      if cmp n.data data = 0 then return .leaves st.pool
      else return (.goes
        { pool := st.pool
          t := if st.g = none then st.t else st.g
          g := st.p
          p := st.q
          q := n.link (decide (cmp n.data data < 0))
          dir := decide (cmp n.data data < 0)
          last := st.dir })) := by
  rw [insertTurn]
  rcases attachOrFlip dup data st with f | st' <;> rfl

/-- The helpers have moved down. -/
theorem Exact.advance {head : Nat} {st : InsertState α} (hp : st.p = addrAt c 0)
    (hdir : ∀ f c', c = f :: c' → st.dir = f.dir) (hg : st.g = addrAt c 1)
    (ht : st.g = none → st.t = some head) (f : Frame (Nat × α)) :
    Exact head (advance cmp data st x kid) (f :: c) := by
  refine ⟨hp, ?_, fun f' hf => ?_⟩
  · show (if st.g = none then st.t else st.g) = some ((addrAt c 1).getD head)
    rw [← hg]
    rcases hn : st.g with _ | a
    · rw [if_pos rfl, ht hn]
      rfl
    · rw [if_neg (by simp)]
      rfl
  · rcases c with _ | ⟨f₁, c'⟩
    · cases hf
    · obtain rfl : f₁ = f' := Option.some.inj hf
      exact hdir f₁ c' rfl

variable [Inhabited α]

/-- A node of the tree the search has come to. -/
structure AtNode (R : Nat → Option (JswRbnode α)) (cmp : α → α → Int) (data : α) (head : Nat) (l : List α) (st : InsertState α)
    (c : List (Frame (Nat × α))) (t : RbTree (Nat × α)) : Prop where
  holds : Holds R st.pool (c ++ [headFrame head]) t
  q : st.q = t.ptr
  good : ∃ n, Good n t ∧ Fits c n t.isRed
  items : (plug c t).items = l
  between : Between cmp data c

/-- The place at the start of a turn. -/
structure Descent (R : Nat → Option (JswRbnode α)) (cmp : α → α → Int) (data : α) (head : Nat) (l : List α) (st : InsertState α)
    (c : List (Frame (Nat × α))) (t : RbTree (Nat × α)) : Prop
    extends AtNode R cmp data head l st c t where
  p : st.p = addrAt c 0
  dir : ∀ f c', c = f :: c' → st.dir = f.dir

/-- What the search leaves below the false root. -/
def Done (R : Nat → Option (JswRbnode α)) (head : Nat) (l : List α) (pool : RbPool α) : Prop :=
  ∃ t : RbTree (Nat × α), Holds R pool [headFrame head] t ∧ (∃ n, Good n t) ∧ t.items = l

section turn

variable {R : Nat → Option (JswRbnode α)} {head : Nat} {l : List α} {st st₁ : InsertState α}

theorem Done.of_place {l' : List α} {pool : RbPool α} (h : Holds R pool (c ++ [headFrame head]) t) {n : Nat}
    (hg : Good n t) (hf : Fits c n t.isRed) (hl : (plug c t).items = l') : Done R head l' pool :=
  ⟨plug c t, holds_plug.mp h, good_plug hg hf, hl⟩

theorem AtNode.holds_done (h : AtNode R cmp data head l st c (node r x kid)) (hzero : cmp x.2 data = 0) :
    Done R head (insertItem cmp dup data l) st.pool := by
  obtain ⟨n, hg, hf⟩ := h.good
  refine Done.of_place h.holds hg hf ?_
  have hin : x.2 ∈ l := by
    rw [← h.items, items_plug, RbTree.items, inorder]
    simp
  rw [insertItem_found hin hzero, h.items]

/-- The end of a turn: the item is found, or the search goes on. -/
theorem insertTurn_end (hc : TotalPreorder cmp) (hl : Sorted cmp l)
    (heq : (attachOrFlip dup data st >>= fixRedRed) = .ok st₁)
    (h : AtNode R cmp data head l st₁ c (node r x kid)) :
    (cmp x.2 data = 0 ∧ insertTurn cmp dup data st = .ok (.leaves st₁.pool) ∧
      Done R head (insertItem cmp dup data l) st₁.pool) ∨
    (cmp x.2 data ≠ 0 ∧ Goes (insertTurn cmp dup data) st (advance cmp data st₁ x kid) ∧
      Descent R cmp data head l (advance cmp data st₁ x kid)
        (⟨decide (cmp x.2 data < 0), r, x, kid (!decide (cmp x.2 data < 0))⟩ :: c)
        (kid (decide (cmp x.2 data < 0)))) := by
  have hq : st₁.q = some x.1 := h.q
  have hdown := (holds_down (decide (cmp x.2 data < 0))).mp h.holds
  have hplug : plug (⟨decide (cmp x.2 data < 0), r, x, kid (!decide (cmp x.2 data < 0))⟩ :: c)
      (kid (decide (cmp x.2 data < 0))) = plug c (node r x kid) := by
    rw [plug, Frame.around, branch_eta]
  obtain ⟨n, hg, hf⟩ := h.good
  by_cases hzero : cmp x.2 data = 0
  · refine Or.inl ⟨hzero, ?_, h.holds_done hzero⟩
    rw [insertTurn_eq, heq, ok_bind, hq]
    simp only [loadNode_ok h.holds.tree.1, ok_bind, if_pos hzero, pure_ok]
  · refine Or.inr ⟨hzero, ?_, ⟨hdown, rfl, hf.down hg _, hplug ▸ h.items,
      h.between.down hc (sorted_place (h.items ▸ hl)) hzero⟩, hq, fun f c' hcons => ?_⟩
    · rw [Goes, insertTurn_eq, heq, ok_bind, hq]
      simp only [loadNode_ok h.holds.tree.1, ok_bind, if_neg hzero, pure_ok, advance, hq]
    · cases hcons
      rfl

/-- The frame that `t` points to. -/
theorem great_frame (c : List (Frame (Nat × α))) (head : Nat) :
    ∃ f F, c ++ [headFrame head] = f :: F ∧ f.x.1 = (addrAt c 0).getD head := by
  cases c with
  | nil => exact ⟨headFrame head, [], rfl, rfl⟩
  | cons f c => exact ⟨f, c ++ [headFrame head], rfl, rfl⟩

/-- A red node with a red parent, when the helpers are right and the sibling
    of the parent is not red. -/
theorem rotate_spec (st : InsertState α) {f g : Frame (Nat × α)} {c : List (Frame (Nat × α))}
    (h : Holds R st.pool (f :: g :: c ++ [headFrame head]) (node true x kid))
    (hq : st.q = some x.1) (hp : st.p = some f.x.1) (he : Exact head st (f :: g :: c))
    (hred : f.red = true) (huncle : g.far.isRed = false) {n : Nat} (hgood : Good n (node true x kid))
    (hfits : Fits (f :: g :: c) n false) (hb : Between cmp data (f :: g :: c)) :
    ∃ pool' c' t', fixRedRed st = .ok { st with pool := pool' } ∧
      Holds R pool' (c' ++ [headFrame head]) t' ∧ (∃ n, Good n t' ∧ Fits c' n t'.isRed) ∧
      (plug c' t').items = (plug (f :: g :: c) (node true x kid)).items ∧ Between cmp data c' ∧
      ((t' = node true x kid ∧ addrAt c' 0 = some f.x.1) ∨
        (t' = node false x (branch g.dir (node true f.x (branch g.dir f.far (kid g.dir)))
          (node true g.x (branch g.dir (kid (!g.dir)) g.far))) ∧ f.dir = !g.dir)) := by
  obtain ⟨df, rf, y, far⟩ := f
  obtain ⟨d, rg, z, far'⟩ := g
  obtain rfl : rf = true := hred
  obtain ⟨hfar, -, hfr, hparent⟩ := fits_red.mp hfits
  obtain rfl := hparent.parent_black
  obtain ⟨hfar', habove⟩ := fits_black.mp hparent
  obtain ⟨f', F, hF, hf'⟩ := great_frame c head
  have ht : st.t = some f'.x.1 := by
    rw [he.great, hf']
    rfl
  simp only [List.cons_append] at h
  rw [hF] at h
  by_cases hd : df = d
  · -- both on the same side
    subst hd
    obtain ⟨pool', heq, h'⟩ := fixRedRed_single h hq hp he.g ht (he.last _ rfl)
    obtain ⟨hbefore, hafter⟩ := before_single df false true true false y z far far' c
    refine ⟨pool', ⟨df, false, y, node true z (branch df far far')⟩ :: c, node true x kid, heq, ?_,
      ⟨n, hgood, fits_black.mpr ⟨good_red_branch.mpr ⟨⟨hfr, hfar⟩, huncle, hfar'⟩, habove⟩⟩, ?_,
      ⟨hbefore ▸ hb.low, hafter ▸ hb.high⟩, Or.inl ⟨rfl, rfl⟩⟩
    · rw [List.cons_append, hF]
      exact h'
    · rw [items_plug, items_plug, hbefore, hafter]
  · obtain rfl : df = !d := by
      cases df <;> cases d <;> simp_all
    obtain ⟨pool', heq, h'⟩ := fixRedRed_double h hq hp he.g ht (he.last _ rfl)
    obtain ⟨hk, hkg⟩ := (forall_kids (P := fun t : RbTree (Nat × α) => t.isRed = false ∧ Good n t) d kid).mp hgood
    refine ⟨pool', c, _, heq, hF ▸ h', ⟨n + 1, good_black_branch.mpr ⟨n, rfl,
      good_red_branch.mpr ⟨⟨hfr, hfar⟩, hk⟩, good_red_branch.mpr ⟨hkg, huncle, hfar'⟩⟩, habove⟩, ?_,
      hb.tail.tail, Or.inr ⟨rfl, rfl⟩⟩
    refine items_congr c ?_
    simp only [Frame.around, inorder_branch, inorder_node true x kid d]
    cases d with
    | true => simp [side]
    | false => simp [side]

/-- What a turn comes to. -/
def InsertEnds (R : Nat → Option (JswRbnode α)) (cmp : α → α → Int) (dup : α → α) (data : α) (head : Nat) (l : List α) (st : InsertState α)
    (m : Nat) : Prop :=
  (∃ st' m', Goes (insertTurn cmp dup data) st st' ∧
    (∃ c t, Descent R cmp data head l st' c t ∧ Helpers cmp data head st' c t m') ∧ m' < m) ∨
  ∃ pool', insertTurn cmp dup data st = .ok (.leaves pool') ∧ Done R head (insertItem cmp dup data l) pool'

/-- A turn at a node that has come to nothing but the comparison, or to more,
    with the helpers as they then are. -/
theorem turn_at (hc : TotalPreorder cmp) (hl : Sorted cmp l) {m : Nat}
    (heq : (attachOrFlip dup data st >>= fixRedRed) = .ok st₁)
    (h : AtNode R cmp data head l st₁ c (node r x kid))
    (hnext : cmp x.2 data ≠ 0 → ∃ m', m' < m ∧ Helpers cmp data head (advance cmp data st₁ x kid)
      (⟨decide (cmp x.2 data < 0), r, x, kid (!decide (cmp x.2 data < 0))⟩ :: c)
      (kid (decide (cmp x.2 data < 0))) m') :
    InsertEnds R cmp dup data head l st m := by
  rcases insertTurn_end hc hl heq h with ⟨-, hleave, hdone⟩ | ⟨hne, hgo, hdesc⟩
  · exact Or.inr ⟨_, hleave, hdone⟩
  · obtain ⟨m', hm, hh⟩ := hnext hne
    exact Or.inl ⟨_, m', hgo, ⟨_, _, hdesc, hh⟩, hm⟩

/-- The new node. -/
theorem turn_attach (hdup : ∀ x, cmp (dup x) x = 0) {f : Frame (Nat × α)} {m : Nat}
    (h : Descent R cmp data head l st (f :: c) nil)
    (he : Exact head st (f :: c))
    (huncle : f.red = true → ∃ g c'', c = g :: c'' ∧ g.far.isRed = false) :
    InsertEnds R cmp dup data head l st m := by
  obtain ⟨pool₁, a, heq₁, h₁⟩ := attachOrFlip_attach dup data h.holds h.q h.p (h.dir f c rfl)
  obtain ⟨n, hgood, hfits⟩ := h.good
  obtain rfl : n = 0 := hgood
  have hleaf : Good 0 (node true (a, dup data) (branch false nil nil)) :=
    good_red_branch.mpr ⟨⟨rfl, rfl⟩, rfl, rfl⟩
  -- the items with the new one
  have hitems : (plug (f :: c) (node true (a, dup data) (branch false nil nil))).items =
      insertItem cmp dup data l := by
    have hl := h.items
    rw [items_plug] at hl ⊢
    have hnil : (nil : RbTree (Nat × α)).items = [] := rfl
    rw [hnil, List.append_nil] at hl
    rw [← hl, insertItem_new]
    · simp [RbTree.items, inorder, branch]
    · intro y hy
      obtain ⟨z, hz, rfl⟩ := List.mem_map.mp hy
      exact h.between.low z hz
    · intro y hy
      obtain ⟨z, hz, rfl⟩ := List.mem_map.mp hy
      exact h.between.high z hz
  -- what is left to do once the colours are right
  have hleave : ∀ {st₂ : InsertState α} {t : RbTree (Nat × α)} {c' : List (Frame (Nat × α))},
      fixRedRed { st with pool := pool₁, q := some a } = .ok st₂ → st₂.q = some a →
      Holds R st₂.pool (c' ++ [headFrame head]) t → (a, dup data) ∈ t.inorder →
      (∃ n, Good n t ∧ Fits c' n t.isRed) → (plug c' t).items = insertItem cmp dup data l →
      InsertEnds R cmp dup data head l st m := by
    intro st₂ t c' hfix hq h₂ hin hg hl
    obtain ⟨k, hk, hkd⟩ := h₂.tree.get_of_mem hin
    have hzero : cmp k.data data = 0 := by
      rw [hkd]
      exact hdup data
    obtain ⟨n, hg, hf⟩ := hg
    refine Or.inr ⟨st₂.pool, ?_, Done.of_place h₂ hg hf hl⟩
    rw [insertTurn_eq, heq₁, ok_bind, hfix, ok_bind, hq]
    simp only [loadNode_ok hk, ok_bind, if_pos hzero, pure_ok]
  have hself : (a, dup data) ∈ (node true (a, dup data) (branch false nil nil)).inorder := by
    rw [inorder_branch]
    exact List.mem_cons_self
  cases hred : f.red with
  | false =>
    refine hleave (fixRedRed_keep h₁ rfl (Or.inr ⟨f, _, rfl, h.p, ?_⟩)) rfl h₁ hself ⟨0, hleaf, ?_⟩ hitems
    · rw [hred, Bool.and_false]
    · obtain ⟨d, rf, y, far⟩ := f
      obtain rfl : rf = false := hred
      exact hfits
  | true =>
    obtain ⟨g, c, rfl, hg⟩ := huncle hred
    obtain ⟨pool₂, c', t', hfix, h₂, hg₂, hl₂, -, hshape⟩ :=
      rotate_spec { st with pool := pool₁, q := some a } h₁ rfl h.p ⟨he.g, he.great, he.last⟩ hred hg
        hleaf hfits h.between
    refine hleave hfix rfl h₂ ?_ hg₂ (hl₂.trans hitems)
    rcases hshape with ⟨rfl, -⟩ | ⟨rfl, -⟩
    · exact hself
    · rw [inorder_branch]
      cases g.dir with
      | true => simp [side]
      | false => simp [side]

/-- Under a black parent, or with none, a node is not rotated. -/
theorem AtNode.keep {t : RbTree (Nat × α)} (h : AtNode R cmp data head l st c t) (hp : st.p = addrAt c 0) :
    fixRedRed st = .ok st := by
  rcases c with _ | ⟨f, c⟩
  · exact fixRedRed_keep h.holds h.q (Or.inl hp)
  · obtain ⟨n, -, hf⟩ := h.good
    refine fixRedRed_keep h.holds h.q (Or.inr ⟨f, _, rfl, hp, ?_⟩)
    obtain ⟨d, rf, y, far⟩ := f
    cases rf with
    | true => rw [(fits_red.mp hf).2.1, Bool.false_and]
    | false => exact Bool.and_false _

/-- The node that the search has come to in its old shape. -/
theorem turn_keep (hc : TotalPreorder cmp) (hl : Sorted cmp l) {m : Nat}
    (h : Descent R cmp data head l st c (node r x kid))
    (hred : ((kid false).isRed && (kid true).isRed) = false)
    (hnext : ∃ m', m' < m ∧ Helpers cmp data head (advance cmp data st x kid)
      (⟨decide (cmp x.2 data < 0), r, x, kid (!decide (cmp x.2 data < 0))⟩ :: c)
      (kid (decide (cmp x.2 data < 0))) m') :
    InsertEnds R cmp dup data head l st m := by
  refine turn_at hc hl ?_ h.toAtNode fun _ => hnext
  rw [attachOrFlip_keep h.holds h.q hred, ok_bind, h.toAtNode.keep h.p]

/-- A node with two red children is split, and no rotation follows. -/
theorem turn_split (hc : TotalPreorder cmp) (hl : Sorted cmp l)
    (h : Descent R cmp data head l st c (node r x kid)) (he : Exact head st c)
    (hk : ∀ b, (kid b).isRed = true)
    (hparent : ∀ f c', c = f :: c' → f.red = false) :
    InsertEnds R cmp dup data head l st (2 * (node r x kid).size + 1) := by
  obtain ⟨pool₁, heq₁, h₁⟩ : ∃ pool', attachOrFlip dup data st = .ok { st with pool := pool' } ∧ _ :=
    attachOrFlip_flip h.holds h.q hk
  obtain ⟨n, hgood, hfits⟩ := h.good
  have hcalm := calm_paint hgood hk
  obtain ⟨rfl, hflip⟩ := good_flip hgood hk
  have hat : AtNode R cmp data head l { st with pool := pool₁ } c (flip x kid) := by
    refine ⟨h₁, h.q, ⟨n, hflip, ?_⟩, (items_congr c (inorder_flip false x kid)).trans h.items, h.between⟩
    rcases c with _ | ⟨⟨d, rf, y, far⟩, c⟩
    · trivial
    · obtain rfl : rf = false := hparent _ c rfl
      exact hfits
  have hkeep : fixRedRed { st with pool := pool₁ } = .ok { st with pool := pool₁ } := by
    refine fixRedRed_keep h₁ h.q ?_
    rcases c with _ | ⟨f, c⟩
    · exact Or.inl h.p
    · exact Or.inr ⟨f, _, rfl, h.p, by rw [hparent f c rfl, Bool.and_false]⟩
  refine turn_at hc hl (by rw [heq₁, ok_bind, hkeep]) hat fun _ =>
    ⟨_, ?_, Helpers.calm h.p (fun hnone => ?_) (hcalm _)⟩
  · have := size_kid false x kid (decide (cmp x.2 data < 0))
    rw [size_paint]
    omega
  · -- at the root `t` is still the false root
    have hp : st.p = none := hnone
    rw [h.p] at hp
    rcases c with _ | ⟨f, c⟩
    · have hg : st.g = none := he.g
      show (if st.g = none then st.t else st.g) = some head
      rw [if_pos hg, he.great]
      rfl
    · cases hp

/-- A node with two red children is split below a red parent. -/
theorem turn_rotate (hc : TotalPreorder cmp) (hl : Sorted cmp l) {f g : Frame (Nat × α)}
    (h : Descent R cmp data head l st (f :: g :: c) (node r x kid)) (he : Exact head st (f :: g :: c))
    (hk : ∀ b, (kid b).isRed = true) (hred : f.red = true)
    (huncle : g.far.isRed = false) :
    InsertEnds R cmp dup data head l st (2 * (node r x kid).size + 1) := by
  obtain ⟨pool₁, heq₁, h₁⟩ : ∃ pool', attachOrFlip dup data st = .ok { st with pool := pool' } ∧ _ :=
    attachOrFlip_flip h.holds h.q hk
  obtain ⟨n, hgood, hfits⟩ := h.good
  have hcalm := calm_paint hgood hk
  have hsize := size_kid false x kid
  obtain ⟨rfl, hflip⟩ := good_flip hgood hk
  obtain ⟨pool₂, c', t', hfix, h₂, hgood₂, hl₂, hb₂, hshape⟩ := rotate_spec { st with pool := pool₁ } h₁ h.q
    h.p ⟨he.g, he.great, he.last⟩ hred huncle hflip hfits h.between
  have hturn : (attachOrFlip dup data st >>= fixRedRed) = .ok { st with pool := pool₂ } := by
    rw [heq₁, ok_bind, hfix]
  have hitems := hl₂.trans ((items_congr _ (inorder_flip false x kid)).trans h.items)
  rcases hshape with ⟨rfl, hp0⟩ | ⟨rfl, hside⟩
  · -- a single rotation: the node stays where it is
    refine turn_at hc hl hturn ⟨h₂, h.q, hgood₂, hitems, hb₂⟩ fun _ =>
      ⟨_, ?_, Helpers.calm (h.p.trans hp0.symm) (fun hnone => ?_) (hcalm _)⟩
    · have := hsize (decide (cmp x.2 data < 0))
      rw [size_paint]
      omega
    · have hp : st.p = none := hnone
      rw [h.p] at hp
      cases hp
  · -- a double rotation: parent and grandparent are its children now
    refine turn_at hc hl hturn ⟨h₂, h.q, hgood₂, hitems, hb₂⟩ fun _ => ?_
    obtain ⟨n₂, hg₂, -⟩ := hgood₂
    obtain ⟨m, -, hnear, hfar⟩ := good_black_branch.mp hg₂
    by_cases hd : decide (cmp x.2 data < 0) = g.dir
    · have hkid : ∀ near far : RbTree (Nat × α), branch g.dir near far (decide (cmp x.2 data < 0)) = near := by
        intro near far
        rw [hd, branch_same]
      have hdown : branch g.dir f.far ((kid g.dir).paint false) (decide (cmp f.x.2 data < 0)) =
          (kid g.dir).paint false := by
        rw [h.between.frame, hside, branch_not]
      rw [hkid]
      refine ⟨_, ?_, Helpers.lowered ⟨_, _, rfl, rfl⟩ (fun b => (good_red.mp hnear b).1) ?_⟩
      · have := hsize g.dir
        rw [hdown, size_paint]
        omega
      · rw [hdown]
        exact hcalm _
    · have hkid : ∀ near far : RbTree (Nat × α), branch g.dir near far (decide (cmp x.2 data < 0)) = far :=
        fun near far => if_neg hd
      have hdown : branch g.dir ((kid (!g.dir)).paint false) g.far (decide (cmp g.x.2 data < 0)) =
          (kid (!g.dir)).paint false := by
        rw [h.between.tail.frame, branch_same]
      rw [hkid]
      refine ⟨_, ?_, Helpers.lowered ⟨_, _, rfl, rfl⟩ (fun b => (good_red.mp hfar b).1) ?_⟩
      · have := hsize (!g.dir)
        rw [hdown, size_paint]
        omega
      · rw [hdown]
        exact hcalm _

/-- **One turn.** -/
theorem insert_turn (hc : TotalPreorder cmp) (hl : Sorted cmp l) (hdup : ∀ x, cmp (dup x) x = 0)
    {m : Nat} (h : Descent R cmp data head l st c t) (hh : Helpers cmp data head st c t m) :
    InsertEnds R cmp dup data head l st m := by
  cases hh with
  | exact he hroot hsibling huncle =>
    cases t with
    | nil =>
      rcases c with _ | ⟨f, c⟩
      · exact absurd rfl (hroot rfl).1
      · exact turn_attach hdup h he (huncle f c rfl)
    | node r x kid =>
      cases hred : (kid false).isRed && (kid true).isRed with
      | true =>
        have hk : ∀ b, (kid b).isRed = true := by
          rw [Bool.and_eq_true] at hred
          exact (forall_kids (P := fun t : RbTree (Nat × α) => t.isRed = true) false kid).mpr hred
        by_cases hparent : ∀ f c', c = f :: c' → f.red = false
        · exact turn_split hc hl h he hk hparent
        · simp only [not_forall, Bool.not_eq_false] at hparent
          obtain ⟨f, c', rfl, hf⟩ := hparent
          obtain ⟨g, c'', rfl, hg⟩ := huncle f c' rfl hf
          exact turn_rotate hc hl h he hk hf hg
      | false =>
        have hgreat : st.g = none → st.t = some head := fun hnone => by
          rw [he.great]
          have hg := he.g
          rw [hnone] at hg
          rcases c with _ | ⟨f, _ | ⟨g, c⟩⟩
          · rfl
          · rfl
          · cases hg
        refine turn_keep hc hl h hred ⟨_, ?_, Helpers.exact (Exact.advance h.p h.dir he.g hgreat _)
          (fun hnil => by cases hnil) (fun f c' hf hr => ?_) fun f c' hf hr => ?_⟩
        · have := size_kid r x kid (decide (cmp x.2 data < 0))
          omega
        · -- the other child is not red as well
          cases hf
          show (kid (!decide (cmp x.2 data < 0))).isRed = false
          cases hd : decide (cmp x.2 data < 0) with
          | true =>
            rw [hd] at hr
            rwa [hr, Bool.and_true] at hred
          | false =>
            rw [hd] at hr
            rwa [hr, Bool.true_and] at hred
        · cases hf
          rcases c with _ | ⟨g, c⟩
          · exact absurd hr (by simpa [RbTree.isRed] using (hroot rfl).2)
          · exact ⟨g, c, rfl, hsibling g c rfl hr⟩
  | calm hg hgreat ht =>
    obtain ⟨x, kid, rfl, hk⟩ := ht
    have hred : ((kid false).isRed && (kid true).isRed) = false := by
      rw [hk false, Bool.false_and]
    refine turn_keep hc hl h hred ⟨_, ?_, Helpers.exact (Exact.advance h.p h.dir hg hgreat _)
      (fun hnil => by cases hnil) (fun f c' _ hr => ?_) fun f c' hf hr => ?_⟩
    · have := size_kid false x kid (decide (cmp x.2 data < 0))
      omega
    · rw [hk] at hr
      cases hr
    · cases hf
      cases hr
  | @lowered x kid parent hk ht =>
    have hred : ((kid false).isRed && (kid true).isRed) = false := by
      rw [hk false, Bool.false_and]
    refine turn_keep hc hl h hred ⟨_, ?_, Helpers.calm h.p (fun hnone => ?_) ht⟩
    · omega
    · obtain ⟨f, c', rfl, -⟩ := parent
      have hp : st.p = none := hnone
      rw [h.p] at hp
      cases hp

/-- **The search** ends, with the item in the tree. -/
theorem insert_run (hc : TotalPreorder cmp) (hl : Sorted cmp l) (hdup : ∀ x, cmp (dup x) x = 0)
    {m : Nat} (h : Descent R cmp data head l st c t) (hh : Helpers cmp data head st c t m) (fuel : Nat)
    (hfuel : m < fuel) :
    ∃ pool', iterate (insertTurn cmp dup data) (.error .diverge) fuel st = .ok pool' ∧
      Done R head (insertItem cmp dup data l) pool' := by
  refine iterate_total (I := fun m st => ∃ c t, Descent R cmp data head l st c t ∧ Helpers cmp data head st c t m)
    (fun m st hI => ?_) fuel m st ⟨c, t, h, hh⟩ hfuel
  obtain ⟨c, t, h, hh⟩ := hI
  exact insert_turn hc hl hdup h hh

end turn

/-! ## Section 5: jsw_rbinsert -/

section insert

variable {R : Nat → Option (JswRbnode α)} {pool : RbPool α} {tree : JswRbtree}

theorem insertBelow_spec (hc : TotalPreorder cmp) (hdup : ∀ x, cmp (dup x) x = 0) {root : Option Nat}
    (h : IsRbTree R cmp pool root t) (hne : root ≠ none) (data : α) :
    ∃ pool' t', insertBelow cmp dup pool root data = .ok (t'.ptr, pool') ∧ Holds R pool' [] t' ∧
      (∃ n, Good n t') ∧ t'.items = insertItem cmp dup data t.items := by
  have hunder := h.holds.under { red := false, data := default, link := branch true root none } true
    (by rw [h.root])
  obtain ⟨n, hgood⟩ := h.good
  have hroot : t ≠ nil := by
    rintro rfl
    exact hne h.root
  have hstart : Descent R cmp data pool.cells.length t.items
      { pool := (pool.alloc { red := false, data := default, link := branch true root none }).2
        g := none
        t := some pool.cells.length
        p := none
        q := root
        dir := false
        last := false } [] t :=
    { holds := hunder
      q := h.root
      good := ⟨n, hgood, trivial⟩
      items := rfl
      between := between_nil cmp data
      p := rfl
      dir := fun f c' hf => by cases hf }
  obtain ⟨pool', hrun, t', hholds, hgood', hitems⟩ := insert_run hc h.sorted hdup hstart
    (.exact ⟨rfl, rfl, fun f hf => by cases hf⟩ (fun _ => ⟨hroot, h.black⟩) (fun f c' hf => by cases hf)
      fun f c' hf => by cases hf)
    (2 * (pool.alloc { red := false, data := default, link := branch true root none }).2.cells.length + 2)
    (by have := hunder.size_le; omega)
  refine ⟨pool'.release pool.cells.length, t', ?_, hholds.bare, hgood', hitems⟩
  have hhead : loadNode pool' (some pool.cells.length) = _ := loadNode_ok hholds.frames.1
  calc insertBelow cmp dup pool root data
    _ = (Except.ok pool' >>= fun pool' => do
          let n ← loadNode pool' (some pool.cells.length)
          return (n.link true, pool'.release pool.cells.length)) :=
        congrArg (fun r : Except Fault (RbPool α) => r >>= fun pool' => do
          let n ← loadNode pool' (some pool.cells.length)
          return (n.link true, pool'.release pool.cells.length)) hrun
    _ = .ok (t'.ptr, pool'.release pool.cells.length) := by
        rw [ok_bind, hhead]
        rfl

/-- **`jsw_rbinsert`** keeps a red-black tree, and adds the item unless there
    is an equal one.  The counter goes up in either case. -/
theorem jswRbinsert_spec (hc : TotalPreorder cmp) (hdup : ∀ x, cmp (dup x) x = 0)
    (h : IsRbTree R cmp pool tree.root t) (data : α) :
    ∃ pool' root t', jswRbinsert cmp dup pool tree data = .ok (1, pool', { root := root, size := tree.size + 1 }) ∧
      IsRbTree R cmp pool' root t' ∧ t'.items = insertItem cmp dup data t.items := by
  -- a tree that is not empty, before its root is painted
  obtain ⟨pool₁, t₁, heq₁, h₁, ⟨n, hgood⟩, hitems⟩ : ∃ pool₁ t₁,
      (if tree.root = none then
        (pure (some (pool.alloc (newNode dup data)).1, (pool.alloc (newNode dup data)).2) : Except Fault _)
      else insertBelow cmp dup pool tree.root data) = .ok (t₁.ptr, pool₁) ∧ Holds R pool₁ [] t₁ ∧
      (∃ n, Good n t₁) ∧ t₁.items = insertItem cmp dup data t.items := by
    by_cases hroot : tree.root = none
    · rw [if_pos hroot]
      obtain rfl : t = nil := by
        cases t with
        | nil => rfl
        | node r x kid => exact absurd (h.root.symm.trans hroot) (by simp)
      exact ⟨_, _, rfl, h.holds.first (newNode dup data) rfl,
        ⟨0, good_red_branch.mpr ⟨⟨rfl, rfl⟩, rfl, rfl⟩⟩, rfl⟩
    · rw [if_neg hroot]
      exact insertBelow_spec hc hdup h hroot data
  cases t₁ with
  | nil => exact absurd hitems.symm (insertItem_ne_nil data t.items)
  | node r x kid =>
    obtain ⟨pool₂, heq₂, h₂⟩ := paint_holds false h₁
    refine ⟨pool₂, some x.1, node false x kid, ?_, ⟨h₂, rfl, rfl, hgood.black, ?_⟩, hitems⟩
    · have hrun : jswRbinsert cmp dup pool tree data =
          ((if tree.root = none then
            (pure (some (pool.alloc (newNode dup data)).1, (pool.alloc (newNode dup data)).2) : Except Fault _)
          else insertBelow cmp dup pool tree.root data) >>= fun r => do
            let pool ← storeNode r.2 r.1 fun n => n.paint false
            return (1, pool, { root := r.1, size := tree.size + 1 })) := by
        unfold jswRbinsert
        by_cases hroot : tree.root = none
        · simp only [if_pos hroot]
        · simp only [if_neg hroot]
      rw [hrun, heq₁, ok_bind, ptr_node, heq₂]
      rfl
    · have hsorted := sorted_insertItem hc hdup data h.sorted
      rw [← hitems] at hsorted
      exact hsorted

end insert

end BoAtom
