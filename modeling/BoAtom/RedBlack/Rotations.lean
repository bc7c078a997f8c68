import BoAtom.RedBlack.Jsw

/-! # Rotations of jsw_rbtree.c

    What the primitives and the two rotations do to the tree in the pool. -/

namespace BoAtom

open Memory RedBlack RbTree

variable {α : Type} {pool pool' : RbPool α} {a b : Nat} {n m : JswRbnode α}

/-! ## Section 1: Sequencing -/

theorem ok_bind {β γ : Type} (x : β) (f : β → Except Fault γ) :
    ((Except.ok x : Except Fault β) >>= f) = f x := rfl

theorem pure_ok {β : Type} (x : β) : (pure x : Except Fault β) = .ok x := rfl

theorem loadNode_ok (h : pool.get a = some n) : loadNode pool (some a) = .ok n := by
  rw [loadNode, h]

theorem storeNode_ok (h : pool.get a = some n) (f : JswRbnode α → JswRbnode α) :
    storeNode pool (some a) f = .ok (pool.set a (f n)) := by
  simp only [storeNode, loadNode, h, Except.map]

theorem isRed_none (pool : RbPool α) : BoAtom.isRed pool none = .ok false := rfl

/-- The colour of a node in the tree. -/
theorem isRed_ok {t : RbTree (Nat × α)} (h : t.Rep pool) : BoAtom.isRed pool t.ptr = .ok t.isRed := by
  cases t with
  | nil => rfl
  | node red x kid =>
    simp only [RbTree.ptr, BoAtom.isRed, loadNode_ok h.1, Except.map]
    rfl

/-! ## Section 2: The tree after a rotation -/

variable {x y z : Nat × α} {r r' r'' d : Bool} {t₀ t₁ t₂ t₃ : RbTree (Nat × α)}

theorem inorder_single (d : Bool) (r r' s s' : Bool) (x y : Nat × α) (t₀ t₁ t₂ : RbTree (Nat × α)) :
    (node s y (branch d (node s' x (branch d t₀ t₁)) t₂)).inorder =
      (node r x (branch d t₀ (node r' y (branch d t₁ t₂)))).inorder := by
  simp only [inorder_branch]
  cases d with
  | true => simp [side]
  | false => simp [side]

/-- **A single rotation** brings the child on the other side up. -/
theorem jswSingle_spec (h : (node r x (branch d t₀ (node r' y (branch d t₁ t₂)))).Rep pool)
    (hnd : (node r x (branch d t₀ (node r' y (branch d t₁ t₂)))).addrs.Nodup) :
    ∃ pool', jswSingle pool (some x.1) d = .ok (some y.1, pool') ∧
      (node false y (branch d (node true x (branch d t₀ t₁)) t₂)).Rep pool' ∧
      ∀ a, a ≠ x.1 → a ≠ y.1 → pool'.get a = pool.get a := by
  obtain ⟨hx, h₀, hfar⟩ := rep_branch.mp h
  obtain ⟨hy, h₁, h₂⟩ := rep_branch.mp hfar
  obtain ⟨⟨hx0, hxf⟩, ⟨-, hfnd⟩, hdis⟩ := nodup_branch.mp hnd
  obtain ⟨⟨hy1, hy2⟩, -, -⟩ := nodup_branch.mp hfnd
  simp only [mem_addrs_branch, not_or] at hxf
  obtain ⟨hxy, hx1, hx2⟩ := hxf
  have hy0 : y.1 ∉ t₀.addrs := fun hin => hdis _ hin (mem_addrs_branch.mpr (Or.inl rfl))
  -- the four stores, one after the other
  have e₁ := Pool.get_set_self (x := (⟨r, x.2, branch d t₀.ptr t₁.ptr⟩ : JswRbnode α)) hx
  have e₂ := (Pool.get_set_ne (p := pool) (x := (⟨r, x.2, branch d t₀.ptr t₁.ptr⟩ : JswRbnode α))
    (Ne.symm hxy)).trans hy
  have e₃ := Pool.get_set_self (x := (⟨r', y.2, branch d (some x.1) t₂.ptr⟩ : JswRbnode α)) e₂
  have e₄ := (Pool.get_set_ne (x := (⟨r', y.2, branch d (some x.1) t₂.ptr⟩ : JswRbnode α)) hxy).trans e₁
  have e₅ := Pool.get_set_self (x := (⟨true, x.2, branch d t₀.ptr t₁.ptr⟩ : JswRbnode α)) e₄
  have e₆ := (Pool.get_set_ne (x := (⟨true, x.2, branch d t₀.ptr t₁.ptr⟩ : JswRbnode α))
    (Ne.symm hxy)).trans e₃
  have e₇ := Pool.get_set_self (x := (⟨false, y.2, branch d (some x.1) t₂.ptr⟩ : JswRbnode α)) e₆
  have e₈ := (Pool.get_set_ne (x := (⟨false, y.2, branch d (some x.1) t₂.ptr⟩ : JswRbnode α)) hxy).trans e₅
  have hother : ∀ a, a ≠ x.1 → a ≠ y.1 → _ = pool.get a := fun a hax hay =>
    (Pool.get_set_ne (x := (⟨false, y.2, branch d (some x.1) t₂.ptr⟩ : JswRbnode α)) hay).trans
      ((Pool.get_set_ne (x := (⟨true, x.2, branch d t₀.ptr t₁.ptr⟩ : JswRbnode α)) hax).trans
        ((Pool.get_set_ne (x := (⟨r', y.2, branch d (some x.1) t₂.ptr⟩ : JswRbnode α)) hay).trans
          (Pool.get_set_ne (x := (⟨r, x.2, branch d t₀.ptr t₁.ptr⟩ : JswRbnode α)) hax)))
  refine ⟨_, ?_, ?_, hother⟩
  · simp only [jswSingle, loadNode_ok hx, ok_bind, branch_not, ptr_node, loadNode_ok hy, branch_same,
      storeNode_ok hx, Cell.setLink_branch_not, storeNode_ok e₂, Cell.setLink_branch, storeNode_ok e₄,
      Cell.paint, storeNode_ok e₆, pure_ok]
  · refine rep_branch.mpr ⟨e₇, rep_branch.mpr ⟨e₈, ?_, ?_⟩, ?_⟩
    · exact h₀.congr fun a ha => hother a (fun he => hx0 (he ▸ ha)) (fun he => hy0 (he ▸ ha))
    · exact h₁.congr fun a ha => hother a (fun he => hx1 (he ▸ ha)) (fun he => hy1 (he ▸ ha))
    · exact h₂.congr fun a ha => hother a (fun he => hx2 (he ▸ ha)) (fun he => hy2 (he ▸ ha))

theorem inorder_double (d : Bool) (r r' r'' s s' s'' : Bool) (x y z : Nat × α)
    (t₀ t₁ t₂ t₃ : RbTree (Nat × α)) :
    (node s z (branch d (node s' x (branch d t₀ t₁)) (node s'' y (branch d t₂ t₃)))).inorder =
      (node r x (branch d t₀ (node r' y (branch d (node r'' z (branch d t₁ t₂)) t₃)))).inorder := by
  simp only [inorder_branch]
  cases d with
  | true => simp [side]
  | false => simp [side]

/-- **A double rotation** brings the grandchild on the inside up. -/
theorem jswDouble_spec
    (h : (node r x (branch d t₀ (node r' y (branch d (node r'' z (branch d t₁ t₂)) t₃)))).Rep pool)
    (hnd : (node r x (branch d t₀ (node r' y (branch d (node r'' z (branch d t₁ t₂)) t₃)))).addrs.Nodup) :
    ∃ pool', jswDouble pool (some x.1) d = .ok (some z.1, pool') ∧
      (node false z (branch d (node true x (branch d t₀ t₁)) (node true y (branch d t₂ t₃)))).Rep pool' ∧
      ∀ a, a ≠ x.1 → a ≠ y.1 → a ≠ z.1 → pool'.get a = pool.get a := by
  obtain ⟨hx, h₀, hfar⟩ := rep_branch.mp h
  obtain ⟨⟨hx0, hxf⟩, ⟨-, hfnd⟩, hdis⟩ := nodup_branch.mp hnd
  have hxy : x.1 ≠ y.1 := fun he => hxf (mem_addrs_branch.mpr (Or.inl he))
  have hxz : x.1 ≠ z.1 := fun he =>
    hxf (mem_addrs_branch.mpr (Or.inr (Or.inl (mem_addrs_branch.mpr (Or.inl he)))))
  -- the rotation of the child, seen from the other side
  have hswap : node r' y (branch d (node r'' z (branch d t₁ t₂)) t₃) =
      node r' y (branch (!d) t₃ (node r'' z (branch (!d) t₂ t₁))) := by
    rw [branch_swap, branch_swap]
  rw [hswap] at hfar hfnd
  obtain ⟨pool₁, heq₁, hrep₁, hsame₁⟩ := jswSingle_spec hfar hfnd
  rw [branch_swap, branch_swap] at hrep₁
  have hx₁ := (hsame₁ x.1 hxy hxz).trans hx
  rw [ptr_node] at hx₁
  have hlist := inorder_single (!d) r' r'' false true y z t₃ t₂ t₁
  rw [← hswap, branch_swap, branch_swap] at hlist
  have haddrs := congrArg (List.map Prod.fst) hlist
  change addrs _ = addrs _ at haddrs
  -- the root is linked to the grandchild
  have hget₂ := Pool.get_set_self (x := (⟨r, x.2, branch d t₀.ptr (some z.1)⟩ : JswRbnode α)) hx₁
  have hsame₂ : ∀ a, a ≠ x.1 → (Pool.set pool₁ x.1 ⟨r, x.2, branch d t₀.ptr (some z.1)⟩).get a =
      pool₁.get a := fun a ha => Pool.get_set_ne ha
  have hrep₂ : (node r x (branch d t₀ (node false z (branch d t₁ (node true y (branch d t₂ t₃)))))).Rep
      (Pool.set pool₁ x.1 ⟨r, x.2, branch d t₀.ptr (some z.1)⟩) := by
    refine rep_branch.mpr ⟨hget₂, h₀.congr fun a ha => ?_, hrep₁.congr fun a ha => ?_⟩
    · have hax : a ≠ x.1 := fun he => hx0 (he ▸ ha)
      have hout : a ∉ (node r' y (branch d (node r'' z (branch d t₁ t₂)) t₃)).addrs := hdis a ha
      simp only [mem_addrs_branch, not_or] at hout
      rw [hsame₂ a hax, hsame₁ a hout.1 hout.2.1.1]
    · rw [haddrs] at ha
      exact hsame₂ a fun he => hxf (he ▸ ha)
  have hnd₂ : (node r x (branch d t₀ (node false z (branch d t₁ (node true y (branch d t₂ t₃)))))).addrs.Nodup := by
    rw [nodup_branch, haddrs]
    exact nodup_branch.mp hnd
  obtain ⟨pool₃, heq₃, hrep₃, hsame₃⟩ := jswSingle_spec hrep₂ hnd₂
  refine ⟨pool₃, ?_, hrep₃, fun a hax hay haz => ?_⟩
  · rw [ptr_node] at hx
    simp only [jswDouble, loadNode_ok hx, ok_bind, branch_not, heq₁, storeNode_ok hx₁,
      Cell.setLink_branch_not, heq₃]
  · rw [hsame₃ a hax haz, hsame₂ a hax, hsame₁ a hay haz]

/-! ## Section 3: Below a frame -/

variable {R : Nat → Option (JswRbnode α)} {c : List (Frame (Nat × α))} {f : Frame (Nat × α)}
  {t t' : RbTree (Nat × α)} {kid : Bool → RbTree (Nat × α)}

/-- `p->link[dir] = save`, where `save` is the root of the tree at the place
    after its nodes have been relinked. -/
theorem swing_spec (h : Holds R pool (f :: c) t) (ht : t'.Rep pool') (hlist : t'.inorder = t.inorder)
    (hsame : ∀ a, a ∉ t.addrs → pool'.get a = pool.get a) :
    ∃ pool₁, storeNode pool' (some f.x.1) (fun n => n.setLink f.dir t'.ptr) = .ok pool₁ ∧
      Holds R pool₁ (f :: c) t' := by
  have hf : f.x.1 ∉ t.addrs := fun hin => h.disjoint hin (outside_cons.mpr (Or.inl rfl))
  have hget := (hsame f.x.1 hf).trans h.frames.1
  refine ⟨_, storeNode_ok hget _, ?_⟩
  rw [Cell.setLink_branch]
  exact h.swung ht hlist hsame

/-- `p->link[dir] = jsw_single ( … )`. -/
theorem single_below (h : Holds R pool (f :: c) (node r x (branch d t₀ (node r' y (branch d t₁ t₂))))) :
    ∃ pool₁ pool₂, jswSingle pool (some x.1) d = .ok (some y.1, pool₁) ∧
      storeNode pool₁ (some f.x.1) (fun n => n.setLink f.dir (some y.1)) = .ok pool₂ ∧
      Holds R pool₂ (f :: c) (node false y (branch d (node true x (branch d t₀ t₁)) t₂)) := by
  obtain ⟨pool₁, heq₁, hrep₁, hsame₁⟩ := jswSingle_spec h.tree h.tree_nodup
  obtain ⟨pool₂, heq₂, h₂⟩ := swing_spec h hrep₁ (inorder_single d r r' false true x y t₀ t₁ t₂) fun a ha => by
    simp only [mem_addrs_branch, not_or] at ha
    exact hsame₁ a ha.1 ha.2.2.1
  exact ⟨pool₁, pool₂, heq₁, heq₂, h₂⟩

/-- `p->link[dir] = jsw_double ( … )`. -/
theorem double_below (h : Holds R pool (f :: c)
      (node r x (branch d t₀ (node r' y (branch d (node r'' z (branch d t₁ t₂)) t₃))))) :
    ∃ pool₁ pool₂, jswDouble pool (some x.1) d = .ok (some z.1, pool₁) ∧
      storeNode pool₁ (some f.x.1) (fun n => n.setLink f.dir (some z.1)) = .ok pool₂ ∧
      Holds R pool₂ (f :: c)
        (node false z (branch d (node true x (branch d t₀ t₁)) (node true y (branch d t₂ t₃)))) := by
  obtain ⟨pool₁, heq₁, hrep₁, hsame₁⟩ := jswDouble_spec h.tree h.tree_nodup
  obtain ⟨pool₂, heq₂, h₂⟩ :=
    swing_spec h hrep₁ (inorder_double d r r' r'' false true true x y z t₀ t₁ t₂ t₃) fun a ha => by
      simp only [mem_addrs_branch, not_or] at ha
      exact hsame₁ a ha.1 ha.2.2.1 ha.2.2.2.1.1
  exact ⟨pool₁, pool₂, heq₁, heq₂, h₂⟩

/-- The node of a frame. -/
theorem isRed_frame (h : Holds R pool (f :: c) t) : BoAtom.isRed pool (some f.x.1) = .ok f.red := by
  simp only [BoAtom.isRed, loadNode_ok h.frames.1, Except.map]

/-- Painting the root of a tree that the frames point to. -/
theorem paint_holds {pool : RbPool α} (r' : Bool) (h : Holds R pool c (node r x kid)) :
    ∃ pool', storeNode pool (some x.1) (fun n => n.paint r') = .ok pool' ∧
      Holds R pool' c (node r' x kid) := by
  have hget := h.tree.1
  have hx : x.1 ∈ (node r x kid).addrs := by
    rw [← branch_eta false kid, mem_addrs_branch]
    exact Or.inl rfl
  have hnd := h.tree_nodup
  refine ⟨_, storeNode_ok hget _, h.relinked ⟨Pool.get_set_self hget, fun b => ?_⟩ rfl rfl fun a ha => ?_⟩
  · refine (h.tree.2 b).congr fun a ha => Pool.get_set_ne ?_
    rintro rfl
    rw [← branch_eta b kid, nodup_branch] at hnd
    exact hnd.1.1 ha
  · refine Pool.get_set_ne ?_
    rintro rfl
    exact ha hx

/-- Both children are painted black. -/
theorem paint_kids (h : Holds R pool c (node r x kid)) (hk : ∀ b, kid b ≠ nil) :
    ∃ pool₁ pool₂, storeNode pool (kid false).ptr (fun n => n.paint false) = .ok pool₁ ∧
      storeNode pool₁ (kid true).ptr (fun n => n.paint false) = .ok pool₂ ∧
      pool₁.get x.1 = pool.get x.1 ∧ Holds R pool₂ c (node r x fun b => (kid b).paint false) := by
  obtain ⟨rl, y, ky, hkl⟩ : ∃ rl y ky, kid false = node rl y ky := by
    cases hkid : kid false with
    | nil => exact absurd hkid (hk false)
    | node rl y ky => exact ⟨rl, y, ky, rfl⟩
  obtain ⟨rr, z, kz, hkr⟩ : ∃ rr z kz, kid true = node rr z kz := by
    cases hkid : kid true with
    | nil => exact absurd hkid (hk true)
    | node rr z kz => exact ⟨rr, z, kz, rfl⟩
  have hleft := (holds_down false).mp h
  rw [Bool.not_false, hkl, hkr] at hleft
  obtain ⟨pool₁, heq₁, h₁⟩ := paint_holds false hleft
  obtain ⟨pool₂, heq₂, h₂⟩ := paint_holds false ((holds_down true).mp (holds_up.mp h₁))
  refine ⟨pool₁, pool₂, hkl ▸ heq₁, hkr ▸ heq₂, h₁.frames.1.trans hleft.frames.1.symm, ?_⟩
  have hshape : (node r x fun b => (kid b).paint false) =
      node r x (branch true (node false z kz) (node false y ky)) := by
    congr 1
    funext b
    cases b with
    | true => exact congrArg _ hkr
    | false => exact congrArg _ hkl
  rw [hshape]
  exact holds_up.mp h₂

/-! ## Section 4: Places and items -/

/-- The false root above the tree. -/
def headFrame [Inhabited α] (head : Nat) : Frame (Nat × α) := ⟨true, false, (head, default), nil⟩

/-- The address of the `i`-th node above the place. -/
def addrAt (F : List (Frame (Nat × α))) (i : Nat) : Option Nat := (F[i]?).map fun f => f.x.1

/-- The frames after a single rotation have the same nodes on each side. -/
theorem before_single (d r₁ r₂ r₃ r₄ : Bool) (y z : Nat × α) (far far' : RbTree (Nat × α))
    (c : List (Frame (Nat × α))) :
    before (⟨d, r₁, y, node r₂ z (branch d far far')⟩ :: c) =
        before (⟨d, r₃, y, far⟩ :: ⟨d, r₄, z, far'⟩ :: c) ∧
      after (⟨d, r₁, y, node r₂ z (branch d far far')⟩ :: c) =
        after (⟨d, r₃, y, far⟩ :: ⟨d, r₄, z, far'⟩ :: c) := by
  simp only [before, after, inorder_branch]
  cases d with
  | true => simp [side]
  | false => simp [side]

theorem items_congr (c : List (Frame (Nat × α))) {t t' : RbTree (Nat × α)} (h : t'.inorder = t.inorder) :
    (plug c t').items = (plug c t).items := by
  rw [items_plug, items_plug, RbTree.items, RbTree.items, h]

/-- Sorted, and no two items compare equal. -/
def Sorted (cmp : α → α → Int) (l : List α) : Prop := l.Pairwise fun x y => cmp x y < 0

/-- The items below a place of a sorted tree are sorted. -/
theorem sorted_place {cmp : α → α → Int} {c : List (Frame (Nat × α))} {t : RbTree (Nat × α)}
    (h : Sorted cmp (plug c t).items) : Sorted cmp t.items := by
  rw [Sorted, items_plug, List.pairwise_append, List.pairwise_append] at h
  exact h.1.2.1

/-- A red-black tree `t` of sorted items below a root, and `R` beside it. -/
structure IsRbTree (R : Nat → Option (JswRbnode α)) (cmp : α → α → Int) (pool : RbPool α)
    (root : Option Nat) (t : RbTree (Nat × α)) : Prop where
  holds : Holds R pool [] t
  root : root = t.ptr
  black : t.isRed = false
  good : ∃ n, Good n t
  sorted : Sorted cmp t.items

end BoAtom
