import BoAtom.RedBlack.Insert

/-! # Removal from the red-black tree

    `jsw_rberase` pushes a red node down, so that the node it takes out of
    the tree in the end is red or the root.  That node is the one below
    which the search has ended; its item takes the place of the one found. -/

namespace BoAtom

open Memory Loop RedBlack RbTree Comparison

variable {α : Type}

/-! ## Section 1: Pushing the red node down -/

section push

variable {R : Nat → Option (JswRbnode α)} {pool : RbPool α} {F : List (Frame (Nat × α))}
  {f : Frame (Nat × α)} {x y z : Nat × α} {r d : Bool} {kid kid' : Bool → RbTree (Nat × α)}
  {near far : RbTree (Nat × α)}

/-- Nothing is pushed when the node or the next one is red. -/
theorem pushRed_keep (h : Holds R pool F (node r x kid)) (hred : (r || (kid d).isRed) = true)
    (g p : Option Nat) (last : Bool) : pushRed pool g p (some x.1) d last = .ok (p, pool) := by
  obtain ⟨hget, hkids⟩ := h.tree
  have hself : isRed pool (some x.1) = .ok r := isRed_ok h.tree
  have hand : (!r && !(kid d).isRed) = false := by
    cases r with
    | true => rfl
    | false => simpa using hred
  rw [pushRed]
  simp only [loadNode_ok hget, ok_bind, hself, isRed_ok (hkids d), hand, Bool.false_eq_true, if_false, pure_ok]

/-- The child on the other side is red: it is rotated above. -/
theorem pushRed_lower {inner outer : RbTree (Nat × α)}
    (h : Holds R pool (f :: F) (node false x (branch d near (node true y (branch d inner outer)))))
    (hnear : near.isRed = false) (g : Option Nat) :
    ∃ pool', pushRed pool g (some f.x.1) (some x.1) d f.dir = .ok (some y.1, pool') ∧
      Holds R pool' (⟨d, true, x, inner⟩ :: ⟨d, false, y, outer⟩ :: f :: F) near := by
  obtain ⟨hget, hn, hy⟩ := rep_branch.mp h.tree
  obtain ⟨pool₁, pool₂, heq₁, heq₂, h₂⟩ := single_below h
  have hself : isRed pool (some x.1) = .ok false := isRed_ok h.tree
  have hfar : isRed pool (some y.1) = .ok true := isRed_ok hy
  refine ⟨pool₂, ?_, holds_up.mpr (holds_up.mpr h₂)⟩
  rw [pushRed]
  simp only [loadNode_ok hget, ok_bind, hself, branch_same, isRed_ok hn, hnear, Bool.not_false,
    Bool.and_self, if_true, branch_not, ptr_node, hfar, heq₁, heq₂, pure_ok]

/-- What is done at a black node without red children depends on the
    sibling. -/
theorem pushRed_calm (h : Holds R pool (f :: F) (node false x kid)) (hk : ∀ b, (kid b).isRed = false)
    (g : Option Nat) :
    pushRed pool g (some f.x.1) (some x.1) d f.dir =
      if f.far.ptr = none then .ok (some f.x.1, pool)
      else do
        let m ← loadNode pool f.far.ptr
        if !(← isRed pool (m.link (!f.dir))) && !(← isRed pool (m.link f.dir)) then
          let pool ← storeNode pool (some f.x.1) fun n => n.paint false
          let pool ← storeNode pool f.far.ptr fun n => n.paint true
          let pool ← storeNode pool (some x.1) fun n => n.paint true
          return (some f.x.1, pool)
        else return (some f.x.1, ← borrowRed pool g (some f.x.1) (some x.1) f.far.ptr f.dir) := by
  obtain ⟨hget, hkids⟩ := h.tree
  have hself : isRed pool (some x.1) = .ok false := isRed_ok h.tree
  rw [pushRed]
  simp only [loadNode_ok hget, ok_bind, hself, isRed_ok (hkids _), hk, Bool.not_false, Bool.and_self,
    if_true, Bool.false_eq_true, if_false, loadNode_ok h.frames.1, branch_not, pure_ok]

/-- A sibling without red children: the colours are flipped. -/
theorem pushRed_flip {last rf rs : Bool} {p s : Nat × α}
    (h : Holds R pool (⟨last, rf, p, node rs s kid'⟩ :: F) (node false x kid))
    (hk : ∀ b, (kid b).isRed = false) (hs : ∀ b, (kid' b).isRed = false) (g : Option Nat) :
    ∃ pool', pushRed pool g (some p.1) (some x.1) d last = .ok (some p.1, pool') ∧
      Holds R pool' (⟨last, false, p, node true s kid'⟩ :: F) (node true x kid) := by
  obtain ⟨hget, hkids⟩ := (holds_other.mp h).tree
  obtain ⟨pool₁, heq₁, h₁⟩ := paint_holds false (holds_up.mp h)
  obtain ⟨pool₂, heq₂, h₂⟩ := paint_holds true (holds_other.mp (holds_up.mpr h₁ :
    Holds R pool₁ (⟨last, false, p, node rs s kid'⟩ :: F) (node false x kid)))
  obtain ⟨pool₃, heq₃, h₃⟩ := paint_holds true (holds_other.mpr h₂)
  refine ⟨pool₃, ?_, h₃⟩
  rw [pushRed_calm h hk g]
  simp only [ptr_node, reduceCtorEq, if_false, loadNode_ok hget, ok_bind, isRed_ok (hkids _), hs,
    Bool.not_false, Bool.and_self, if_true, heq₁, heq₂, heq₃, pure_ok]

/-- The node is painted red, and so is what now stands above its parent. -/
theorem recolour_spec {p : Nat × α} {u : RbTree (Nat × α)}
    (h : Holds R pool (f :: F) (node r z (branch d (node true p (branch d (node false x kid) near)) u)))
    (hu : u ≠ nil) :
    ∃ pool', recolour pool (some f.x.1) (some x.1) f.dir = .ok pool' ∧
      Holds R pool' (⟨d, false, p, near⟩ :: ⟨d, true, z, u.paint false⟩ :: f :: F) (node true x kid) := by
  obtain ⟨pool₁, heq₁, h₁⟩ := paint_holds true h
  obtain ⟨pool₂, heq₂, h₂⟩ := paint_holds true (holds_up.mpr (holds_up.mpr h₁ :
    Holds R pool₁ (⟨d, true, z, u⟩ :: f :: F) (node true p (branch d (node false x kid) near))) :
    Holds R pool₁ (⟨d, true, p, near⟩ :: ⟨d, true, z, u⟩ :: f :: F) (node false x kid))
  have h₂' := holds_up.mp (holds_up.mp h₂)
  obtain ⟨pool₃, pool₄, heq₃, heq₄, hsame, h₄⟩ := paint_kids h₂'
    ((forall_branch (P := fun t => t ≠ nil) d _ u).mpr ⟨(fun hnil => by cases hnil), hu⟩)
  have htop := h₂'.tree.1
  refine ⟨pool₄, ?_, ?_⟩
  · rw [recolour]
    simp only [loadNode_ok h.frames.1, ok_bind, branch_same, ptr_node, heq₁, heq₂, loadNode_ok htop, heq₃,
      loadNode_ok (hsame.trans htop), heq₄]
  · have hpaint : (fun b => (branch d (node true p (branch d (node true x kid) near)) u b).paint false) =
        branch d (node false p (branch d (node true x kid) near)) (u.paint false) := by
      funext b
      exact map_branch d _ u (RbTree.paint false) b
    have h₅ : Holds R pool₄ (f :: F) (node true z
        (branch d (node false p (branch d (node true x kid) near)) (u.paint false))) := hpaint ▸ h₄
    exact holds_up.mpr (holds_up.mpr h₅)

/-- The red child of the sibling is on the inside: a double rotation. -/
theorem borrowRed_double {last rf rs : Bool} {p s : Nat × α} {t₁ t₂ t₃ : RbTree (Nat × α)}
    (h : Holds R pool (⟨last, rf, p, node rs s (branch last (node true z (branch last t₁ t₂)) t₃)⟩ :: f :: F)
      (node false x kid)) :
    ∃ pool', borrowRed pool (some f.x.1) (some p.1) (some x.1) (some s.1) last = .ok pool' ∧
      Holds R pool' (⟨last, false, p, t₁⟩ :: ⟨last, true, z, node false s (branch last t₂ t₃)⟩ :: f :: F)
        (node true x kid) := by
  have hup := holds_up.mp h
  obtain ⟨hget, hz, -⟩ := rep_branch.mp (holds_other.mp h).tree
  have hred : isRed pool (some z.1) = .ok true := isRed_ok hz
  obtain ⟨pool₁, pool₂, heq₁, heq₂, h₂⟩ := double_below hup
  obtain ⟨pool₃, heq₃, h₃⟩ := recolour_spec h₂ (by simp)
  have hside : decide (branch f.dir (some p.1) f.far.ptr true = some p.1) = f.dir :=
    hup.dir_eq rfl hup.frames.1
  refine ⟨pool₃, ?_, h₃⟩
  rw [borrowRed]
  simp only [loadNode_ok hup.frames.1, Frame.around, ptr_node, ok_bind, hside, loadNode_ok hget, branch_same,
    hred, if_true, heq₁, heq₂, heq₃]

/-- It is on the outside: a single rotation. -/
theorem borrowRed_single {last rf rs : Bool} {p s : Nat × α}
    (h : Holds R pool (⟨last, rf, p, node rs s (branch last near far)⟩ :: f :: F) (node false x kid))
    (hnear : near.isRed = false) (hfar : far.isRed = true) :
    ∃ pool', borrowRed pool (some f.x.1) (some p.1) (some x.1) (some s.1) last = .ok pool' ∧
      Holds R pool' (⟨last, false, p, near⟩ :: ⟨last, true, s, far.paint false⟩ :: f :: F) (node true x kid) := by
  have hup := holds_up.mp h
  obtain ⟨hget, hn, hf⟩ := rep_branch.mp (holds_other.mp h).tree
  obtain ⟨pool₁, pool₂, heq₁, heq₂, h₂⟩ := single_below hup
  obtain ⟨pool₃, heq₃, h₃⟩ := recolour_spec h₂ (by
    rintro rfl
    cases hfar)
  have hside : decide (branch f.dir (some p.1) f.far.ptr true = some p.1) = f.dir :=
    hup.dir_eq rfl hup.frames.1
  refine ⟨pool₃, ?_, h₃⟩
  rw [borrowRed]
  simp only [loadNode_ok hup.frames.1, Frame.around, ptr_node, ok_bind, hside, loadNode_ok hget, branch_same,
    isRed_ok hn, hnear, Bool.false_eq_true, if_false, branch_not, isRed_ok hf, hfar, if_true, heq₁, heq₂, heq₃]

/-- **A sibling with a red child**: that child makes up for the node that
    turns red.  The lists beside the place are those before. -/
theorem pushRed_borrow {last rf : Bool} {p s : Nat × α} {m : Nat}
    (h : Holds R pool (⟨last, rf, p, node false s kid'⟩ :: f :: F) (node false x kid))
    (hk : ∀ b, (kid b).isRed = false) (hs : ¬ ∀ b, (kid' b).isRed = false) (hgood : ∀ b, Good m (kid' b)) :
    ∃ pool' z near far, pushRed pool (some f.x.1) (some p.1) (some x.1) d last = .ok (some p.1, pool') ∧
      Holds R pool' (⟨last, false, p, near⟩ :: ⟨last, true, z, far⟩ :: f :: F) (node true x kid) ∧
      (node true z (branch last near far)).inorder = (node false s kid').inorder ∧
      Good m near ∧ Good (m + 1) far ∧ far.isRed = false := by
  obtain ⟨hget, hkids⟩ := (holds_other.mp h).tree
  have hany : (!(kid' (!last)).isRed && !(kid' last).isRed) = false := by
    rw [forall_kids (P := fun t : RbTree (Nat × α) => t.isRed = false) last] at hs
    revert hs
    cases (kid' last).isRed <;> cases (kid' (!last)).isRed <;> decide
  have hpush : ∀ {pool'}, borrowRed pool (some f.x.1) (some p.1) (some x.1) (some s.1) last = .ok pool' →
      pushRed pool (some f.x.1) (some p.1) (some x.1) d last = .ok (some p.1, pool') := by
    intro pool' hborrow
    rw [pushRed_calm h hk]
    simp only [ptr_node, reduceCtorEq, if_false, loadNode_ok hget, ok_bind, isRed_ok (hkids _), hany,
      Bool.false_eq_true, hborrow, pure_ok]
  rw [← branch_eta last kid'] at h
  cases hnear : (kid' last).isRed with
  | true =>
    obtain ⟨z, k, hz⟩ := red_node hnear
    have hgz := hgood last
    rw [hz, ← branch_eta last k] at h hgz
    obtain ⟨⟨-, hg₁⟩, -, hg₂⟩ := good_red_branch.mp hgz
    obtain ⟨pool', heq, h'⟩ := borrowRed_double h
    refine ⟨pool', z, k last, node false s (branch last (k (!last)) (kid' (!last))), hpush heq, h', ?_, hg₁,
      good_black_branch.mpr ⟨m, rfl, hg₂, hgood _⟩, rfl⟩
    rw [inorder_branch, inorder_branch, inorder_node false s kid' last, hz, inorder_node true z k last]
    cases last with
    | true => simp [side]
    | false => simp [side]
  | false =>
    have hfar : (kid' (!last)).isRed = true := by
      rw [hnear, Bool.not_false, Bool.and_true] at hany
      simpa using hany
    obtain ⟨pool', heq, h'⟩ := borrowRed_single h hnear hfar
    refine ⟨pool', s, kid' last, (kid' (!last)).paint false, hpush heq, h', ?_, hgood _, (hgood _).raise hfar,
      isRed_paint_false _⟩
    rw [inorder_branch, inorder_paint, inorder_node false s kid' last]

end push

/-! ## Section 2: The node found -/

/-- What lies beside the place: smaller items on the left, larger ones on
    the right, and next to the place on the right the node `f`, if any. -/
def Found (cmp : α → α → Int) (data : α) (f : Option Nat) (c : List (Frame (Nat × α))) : Prop :=
  (∀ y ∈ before c, cmp y.2 data < 0) ∧
    ((f = none ∧ ∀ y ∈ after c, 0 < cmp y.2 data) ∨
      ∃ y rest, f = some y.1 ∧ after c = y :: rest ∧ cmp y.2 data = 0 ∧ ∀ z ∈ rest, 0 < cmp z.2 data)

section found

variable {cmp : α → α → Int} {data : α} {f : Option Nat} {c c' : List (Frame (Nat × α))} {r : Bool}
  {x : Nat × α} {kid : Bool → RbTree (Nat × α)}

theorem found_nil (cmp : α → α → Int) (data : α) : Found cmp data none [] :=
  ⟨fun y hy => (by cases hy), Or.inl ⟨rfl, fun y hy => (by cases hy)⟩⟩

theorem Found.congr (h : Found cmp data f c) (hb : before c' = before c) (ha : after c' = after c) :
    Found cmp data f c' := by
  rw [Found, hb, ha]
  exact h

/-- Between the items on the left and those on the right. -/
theorem sorted_parts (hs : Sorted cmp (plug c (node r x kid)).items) :
    (∀ y ∈ (kid false).inorder, cmp y.2 x.2 < 0) ∧ (∀ y ∈ (kid true).inorder, cmp x.2 y.2 < 0) ∧
      ∀ y ∈ after c, cmp x.2 y.2 < 0 := by
  rw [Sorted, items_plug, RbTree.items, inorder, List.pairwise_append, List.pairwise_append, List.map_append,
    List.map_cons, List.pairwise_append, List.pairwise_cons] at hs
  obtain ⟨⟨-, ⟨-, ⟨hright, -⟩, hleft⟩, -⟩, -, hall⟩ := hs
  refine ⟨fun y hy => ?_, fun y hy => ?_, fun y hy => ?_⟩
  · exact hleft _ (List.mem_map_of_mem hy) _ List.mem_cons_self
  · exact hright _ (List.mem_map_of_mem hy)
  · refine hall _ ?_ _ (List.mem_map_of_mem hy)
    simp

/-- The search goes on below the node `x`. -/
theorem Found.down (hc : TotalPreorder cmp) (h : Found cmp data f c)
    (hs : Sorted cmp (plug c (node r x kid)).items) :
    Found cmp data (if cmp x.2 data = 0 then some x.1 else f)
      (⟨decide (cmp x.2 data < 0), r, x, kid (!decide (cmp x.2 data < 0))⟩ :: c) := by
  obtain ⟨hleft, hright, hafter⟩ := sorted_parts hs
  obtain ⟨hlow, hhigh⟩ := h
  by_cases hlt : cmp x.2 data < 0
  · -- to the right
    rw [decide_eq_true hlt, if_neg (by omega)]
    refine ⟨fun y hy => ?_, hhigh⟩
    rw [before, if_pos rfl, List.mem_append, List.mem_append, List.mem_singleton] at hy
    rcases hy with hy | hy | rfl
    · exact hlow y hy
    · exact hc.lt_of_lt_of_le (hleft y hy) (le_of_lt hlt)
    · exact hlt
  · -- to the left: nothing was found so far, since what is found is next
    -- and larger items follow it
    have hge : cmp data x.2 ≤ 0 := hc.ge_of_not_lt hlt
    have hnone : f = none ∧ ∀ y ∈ after c, 0 < cmp y.2 data := by
      rcases hhigh with h | ⟨y, rest, -, hcons, hzero, -⟩
      · exact h
      · have hxy := hafter y (by rw [hcons]; exact List.mem_cons_self)
        have := hc.lt_of_le_of_lt hge hxy
        have := (hc.swap data y.2).mp this
        omega
    have habove : ∀ y ∈ (kid true).inorder ++ after c, 0 < cmp y.2 data := by
      intro y hy
      rcases List.mem_append.mp hy with hy | hy
      · exact (hc.swap data y.2).mp (hc.lt_of_le_of_lt hge (hright y hy))
      · exact hnone.2 y hy
    rw [decide_eq_false hlt]
    refine ⟨fun y hy => hlow y (by simpa [before] using hy), ?_⟩
    by_cases hzero : cmp x.2 data = 0
    · rw [if_pos hzero]
      exact Or.inr ⟨x, _, rfl, rfl, hzero, habove⟩
    · rw [if_neg hzero]
      refine Or.inl ⟨hnone.1, fun y hy => ?_⟩
      rcases List.mem_cons.mp hy with rfl | hy
      · omega
      · exact habove y hy

end found

/-! ## Section 3: The search -/

/-- What has been pushed: the node above the place is red or the next one
    is, except at the root. -/
def Pushed (c : List (Frame (Nat × α))) (t : RbTree (Nat × α)) : Prop :=
  (c = [] ∧ t ≠ nil) ∨
    ∃ f c', c = f :: c' ∧ (f.red = true ∨ t.isRed = true ∨ (c' = [] ∧ f.far.isRed = false))

variable [Inhabited α]

/-- The place at the start of a turn; `q` is the node above it. -/
structure EraseAt (R : Nat → Option (JswRbnode α)) (cmp : α → α → Int) (data : α) (head : Nat) (l : List α)
    (st : EraseState α) (c : List (Frame (Nat × α))) (t : RbTree (Nat × α)) : Prop where
  holds : Holds R st.pool (c ++ [headFrame head]) t
  q : st.q = addrAt (c ++ [headFrame head]) 0
  p : st.p = addrAt (c ++ [headFrame head]) 1
  dir : ∀ f, (c ++ [headFrame head])[0]? = some f → st.dir = f.dir
  good : ∃ n, Good n t ∧ Fits c n t.isRed
  pushed : Pushed c t
  items : (plug c t).items = l
  found : Found cmp data st.f c

section turn

variable {cmp : α → α → Int} {data : α} {R : Nat → Option (JswRbnode α)} {head : Nat} {l : List α}
  {st : EraseState α} {c c' : List (Frame (Nat × α))} {r : Bool} {x : Nat × α}
  {kid : Bool → RbTree (Nat × α)} {f : Frame (Nat × α)} {F : List (Frame (Nat × α))} {p : Option Nat}
  {pool : RbPool α}

/-- The helpers after a turn at the node `x`. -/
def descend (cmp : α → α → Int) (data : α) (st : EraseState α) (x : Nat × α) (p : Option Nat)
    (pool : RbPool α) : EraseState α :=
  { pool := pool
    g := st.p
    p := p
    q := some x.1
    f := if cmp x.2 data = 0 then some x.1 else st.f
    dir := decide (cmp x.2 data < 0) }

theorem eraseTurn_goes (h : EraseAt R cmp data head l st c (node r x kid))
    (hcons : c ++ [headFrame head] = f :: F)
    (hpush : pushRed st.pool st.p (some f.x.1) (some x.1) (decide (cmp x.2 data < 0)) f.dir = .ok (p, pool)) :
    Goes (eraseTurn cmp data) st (descend cmp data st x p pool) := by
  have hholds := h.holds
  have hq := h.q
  have hdir := h.dir
  rw [hcons] at hholds hq hdir
  have hq : st.q = some f.x.1 := hq
  have hdir : st.dir = f.dir := hdir f rfl
  rw [Goes, eraseTurn, hq]
  simp only [loadNode_ok hholds.frames.1, hdir, branch_same, ptr_node, ok_bind, reduceCtorEq, if_false,
    loadNode_ok hholds.tree.1, hpush, pure_ok, descend]

/-- The place after a turn: what is beside it is what was beside the child
    of `x`. -/
theorem EraseAt.next (hc : TotalPreorder cmp) (hl : Sorted cmp l)
    (h : EraseAt R cmp data head l st c (node r x kid))
    (hholds : Holds R pool (c' ++ [headFrame head]) (kid (decide (cmp x.2 data < 0))))
    (hq : addrAt (c' ++ [headFrame head]) 0 = some x.1) (hp : addrAt (c' ++ [headFrame head]) 1 = p)
    (hdir : ∀ f, (c' ++ [headFrame head])[0]? = some f → f.dir = decide (cmp x.2 data < 0))
    (hgood : ∃ n, Good n (kid (decide (cmp x.2 data < 0))) ∧ Fits c' n (kid (decide (cmp x.2 data < 0))).isRed)
    (hpushed : Pushed c' (kid (decide (cmp x.2 data < 0))))
    (hb : before c' = before (⟨decide (cmp x.2 data < 0), r, x, kid (!decide (cmp x.2 data < 0))⟩ :: c))
    (ha : after c' = after (⟨decide (cmp x.2 data < 0), r, x, kid (!decide (cmp x.2 data < 0))⟩ :: c)) :
    EraseAt R cmp data head l (descend cmp data st x p pool) c' (kid (decide (cmp x.2 data < 0))) where
  holds := hholds
  q := hq.symm
  p := hp.symm
  dir := fun f hf => (hdir f hf).symm
  good := hgood
  pushed := hpushed
  items := by
    rw [items_plug, hb, ha, ← items_plug, plug, Frame.around, branch_eta]
    exact h.items
  found := (h.found.down hc (h.items ▸ hl)).congr hb ha

/-- Where the red node is already. -/
theorem erase_keep (hc : TotalPreorder cmp) (hl : Sorted cmp l)
    (h : EraseAt R cmp data head l st c (node r x kid))
    (hred : (r || (kid (decide (cmp x.2 data < 0))).isRed) = true) :
    ∃ st' c', Goes (eraseTurn cmp data) st st' ∧
      EraseAt R cmp data head l st' c' (kid (decide (cmp x.2 data < 0))) := by
  obtain ⟨f, F, hcons, -⟩ := great_frame c head
  obtain ⟨n, hg, hf⟩ := h.good
  refine ⟨_, _, eraseTurn_goes h hcons (pushRed_keep (hcons ▸ h.holds) hred _ _ _),
    h.next hc hl ((holds_down _).mp h.holds) rfl ?_ ?_ (hf.down hg _) (Or.inr ⟨_, _, rfl, ?_⟩) rfl rfl⟩
  · rw [List.cons_append, hcons]
    rfl
  · rintro f' hf'
    obtain rfl := Option.some.inj hf'
    rfl
  · rw [Bool.or_eq_true] at hred
    exact hred.imp_right Or.inl

/-- Where a red node comes up from the other side. -/
theorem erase_lower (hc : TotalPreorder cmp) (hl : Sorted cmp l)
    (h : EraseAt R cmp data head l st c (node false x kid))
    (hnear : (kid (decide (cmp x.2 data < 0))).isRed = false)
    (hfar : (kid (!decide (cmp x.2 data < 0))).isRed = true) :
    ∃ st' c', Goes (eraseTurn cmp data) st st' ∧
      EraseAt R cmp data head l st' c' (kid (decide (cmp x.2 data < 0))) := by
  obtain ⟨f, F, hcons, -⟩ := great_frame c head
  obtain ⟨n, hg, hf⟩ := h.good
  obtain ⟨m, rfl, hkids⟩ := good_black.mp hg
  obtain ⟨y, k, hy⟩ := red_node hfar
  have hgy := hkids (!decide (cmp x.2 data < 0))
  rw [hy, ← branch_eta (decide (cmp x.2 data < 0)) k, good_red_branch] at hgy
  obtain ⟨⟨hr₁, hg₁⟩, hr₂, hg₂⟩ := hgy
  have hshape : node false x kid = node false x (branch (decide (cmp x.2 data < 0))
      (kid (decide (cmp x.2 data < 0))) (node true y (branch (decide (cmp x.2 data < 0))
        (k (decide (cmp x.2 data < 0))) (k (!decide (cmp x.2 data < 0)))))) := by
    rw [branch_eta, ← hy, branch_eta]
  have hholds := h.holds
  rw [hcons, hshape] at hholds
  obtain ⟨pool', hpush, h'⟩ := pushRed_lower hholds hnear st.p
  rw [← hcons] at h'
  have hbefore := before_single (decide (cmp x.2 data < 0)) false true true false x y
    (k (decide (cmp x.2 data < 0))) (k (!decide (cmp x.2 data < 0))) c
  rw [branch_eta, ← hy] at hbefore
  refine ⟨_, ⟨_, true, x, _⟩ :: ⟨_, false, y, _⟩ :: c, eraseTurn_goes h hcons hpush,
    h.next hc hl h' rfl rfl ?_ ⟨m, hkids _, ?_⟩ (Or.inr ⟨_, _, rfl, Or.inl rfl⟩) hbefore.1.symm hbefore.2.symm⟩
  · rintro f' hf'
    obtain rfl := Option.some.inj hf'
    rfl
  · exact ⟨hg₁, hnear, hr₁, hg₂, hf⟩

/-- At the root there is no sibling. -/
theorem erase_root (hc : TotalPreorder cmp) (hl : Sorted cmp l)
    (h : EraseAt R cmp data head l st [] (node false x kid)) (hk : ∀ b, (kid b).isRed = false) :
    ∃ st' c', Goes (eraseTurn cmp data) st st' ∧
      EraseAt R cmp data head l st' c' (kid (decide (cmp x.2 data < 0))) := by
  obtain ⟨n, hg, hf⟩ := h.good
  refine ⟨_, _, eraseTurn_goes h rfl ((pushRed_calm h.holds hk _).trans (if_pos rfl)),
    h.next hc hl ((holds_down _).mp h.holds) rfl rfl ?_ (hf.down hg _)
      (Or.inr ⟨_, _, rfl, Or.inr (Or.inr ⟨rfl, hk _⟩)⟩) rfl rfl⟩
  rintro f' hf'
  obtain rfl := Option.some.inj hf'
  rfl

/-- Elsewhere the colour comes from the parent and the sibling. -/
theorem erase_sibling (hc : TotalPreorder cmp) (hl : Sorted cmp l)
    (h : EraseAt R cmp data head l st (f :: c) (node false x kid)) (hk : ∀ b, (kid b).isRed = false) :
    ∃ st' c', Goes (eraseTurn cmp data) st st' ∧
      EraseAt R cmp data head l st' c' (kid (decide (cmp x.2 data < 0))) := by
  obtain ⟨n, hg, hf⟩ := h.good
  obtain ⟨m, rfl, hkids⟩ := good_black.mp hg
  obtain ⟨last, rf, p, far⟩ := f
  -- the sibling is black, and the place above may turn red
  have hfar : Good (m + 1) far := hf.good_far
  obtain ⟨hblack, habove⟩ : far.isRed = false ∧ Fits c (m + 1) true := by
    rcases h.pushed with ⟨hnil, -⟩ | ⟨f', c', hcons, hpushed⟩
    · cases hnil
    · cases hcons
      rcases hpushed with hred | hred | ⟨rfl, hblack⟩
      · obtain rfl : rf = true := hred
        exact ⟨hf.2.2.1, hf.2.2.2⟩
      · cases hred
      · exact ⟨hblack, trivial⟩
  obtain ⟨s, ks, rfl, hgs⟩ := hfar.black_node hblack
  have hfirst : ∀ (f' : Frame (Nat × α)) F', f'.dir = decide (cmp x.2 data < 0) →
      ∀ f'', (f' :: F')[0]? = some f'' → f''.dir = decide (cmp x.2 data < 0) := by
    rintro f' F' hdir f'' hf''
    obtain rfl := Option.some.inj hf''
    exact hdir
  by_cases hs : ∀ b, (ks b).isRed = false
  · obtain ⟨pool', hpush, h'⟩ := pushRed_flip h.holds hk hs st.p
    have h' := (holds_down (decide (cmp x.2 data < 0))).mp h'
    refine ⟨_, ⟨_, true, x, _⟩ :: ⟨last, false, p, node true s ks⟩ :: c, eraseTurn_goes h rfl hpush,
      h.next hc hl h' rfl rfl (hfirst _ _ rfl) ⟨m, hkids _, ?_⟩ (Or.inr ⟨_, _, rfl, Or.inl rfl⟩) rfl rfl⟩
    exact ⟨hkids _, hk _, hk _, fun b => ⟨hs b, hgs b⟩, habove.black⟩
  · obtain ⟨g, G, hcons, -⟩ := great_frame c head
    have hholds := h.holds
    rw [List.cons_append, hcons] at hholds
    have hp : st.p = some g.x.1 := by
      rw [h.p, List.cons_append, hcons]
      rfl
    obtain ⟨pool', z, near, far, hpush, h', hlist, hgn, hgf, hbf⟩ :=
      pushRed_borrow (d := decide (cmp x.2 data < 0)) hholds hk hs hgs
    have h' := (holds_down (decide (cmp x.2 data < 0))).mp h'
    rw [← hp] at hpush
    rw [← hcons] at h'
    obtain ⟨hb, ha⟩ := before_single last rf true false true p z near far c
    refine ⟨_, ⟨_, true, x, _⟩ :: ⟨last, false, p, near⟩ :: ⟨last, true, z, far⟩ :: c, eraseTurn_goes h rfl hpush,
      h.next hc hl h' rfl rfl (hfirst _ _ rfl) ⟨m, hkids _, ?_⟩ (Or.inr ⟨_, _, rfl, Or.inl rfl⟩) ?_ ?_⟩
    · exact ⟨hkids _, hk _, hk _, hgn, hgf, rfl, hbf, habove⟩
    · rw [before, ← hb, before, before, before, hlist]
    · rw [after, ← ha, after, after, after, hlist]

/-- **One turn** goes down to a child, with the tree as it should be. -/
theorem erase_turn (hc : TotalPreorder cmp) (hl : Sorted cmp l)
    (h : EraseAt R cmp data head l st c (node r x kid)) :
    ∃ st' c', Goes (eraseTurn cmp data) st st' ∧
      EraseAt R cmp data head l st' c' (kid (decide (cmp x.2 data < 0))) := by
  cases hred : r || (kid (decide (cmp x.2 data < 0))).isRed with
  | true => exact erase_keep hc hl h hred
  | false =>
    rw [Bool.or_eq_false_iff] at hred
    obtain ⟨rfl, hnear⟩ := hred
    cases hfar : (kid (!decide (cmp x.2 data < 0))).isRed with
    | true => exact erase_lower hc hl h hnear hfar
    | false =>
      have hk : ∀ b, (kid b).isRed = false :=
        (forall_kids (P := fun t : RbTree (Nat × α) => t.isRed = false) _ kid).mpr ⟨hnear, hfar⟩
      rcases c with _ | ⟨f, c⟩
      · exact erase_root hc hl h hk
      · exact erase_sibling hc hl h hk

/-- **The search** ends at an empty place. -/
theorem erase_run (hc : TotalPreorder cmp) (hl : Sorted cmp l) {t : RbTree (Nat × α)}
    (h : EraseAt R cmp data head l st c t) (fuel : Nat) (hfuel : t.size < fuel) :
    ∃ st', iterate (eraseTurn cmp data) (.error .diverge) fuel st = .ok st' ∧
      ∃ c', EraseAt R cmp data head l st' c' nil := by
  refine iterate_total (I := fun m st => ∃ c t, EraseAt R cmp data head l st c t ∧ t.size = m)
    (fun m st hI => ?_) fuel t.size st ⟨c, t, h, rfl⟩ hfuel
  obtain ⟨c, t, h, rfl⟩ := hI
  cases t with
  | nil =>
    obtain ⟨f, F, hcons, -⟩ := great_frame c head
    have hholds := h.holds
    have hq := h.q
    have hdir := h.dir
    rw [hcons] at hholds hq hdir
    have hq : st.q = some f.x.1 := hq
    have hdir : st.dir = f.dir := hdir f rfl
    refine Or.inr ⟨st, ?_, c, h⟩
    rw [eraseTurn, hq]
    simp only [loadNode_ok hholds.frames.1, hdir, branch_same, ptr_nil, ok_bind, if_true, pure_ok]
  | node r x kid =>
    obtain ⟨st', c', hgo, h'⟩ := erase_turn hc hl h
    exact Or.inl ⟨st', _, hgo, ⟨c', _, h', rfl⟩, size_kid r x kid _⟩

end turn

/-! ## Section 4: The node taken out -/

/-- Removal from a sorted list. -/
def removeItem (cmp : α → α → Int) (data : α) (l : List α) : List α := l.filter fun x => cmp x data ≠ 0

/-- What `rel` is called on. -/
def removedItems (cmp : α → α → Int) (data : α) (l : List α) : List α := l.filter fun x => cmp x data = 0

section remove

variable {cmp : α → α → Int} {data : α} {R : Nat → Option (JswRbnode α)} {head : Nat} {l : List α}
  {st : EraseState α} {c : List (Frame (Nat × α))} {f : Frame (Nat × α)}

/-- The node above the empty place has no child on the other side. -/
theorem EraseAt.far_nil (h : EraseAt R cmp data head l st (f :: c) nil) : f.far = nil := by
  obtain ⟨n, hg, hf⟩ := h.good
  obtain rfl : n = 0 := hg
  have hgood := hf.good_far
  have hblack : f.far.isRed = false := by
    rcases h.pushed with ⟨hnil, -⟩ | ⟨f', c', hcons, hpushed⟩
    · cases hnil
    · cases hcons
      rcases hpushed with hred | hred | ⟨-, hblack⟩
      · obtain ⟨d, rf, x, far⟩ := f
        obtain rfl : rf = true := hred
        exact hf.2.2.1
      · cases hred
      · exact hblack
  cases hfar : f.far with
  | nil => rfl
  | node r x kid =>
    rw [hfar] at hgood hblack
    obtain rfl : r = false := hblack
    obtain ⟨m, hm, -⟩ := hgood
    cases hm

/-- Without the node the tree is still good. -/
theorem EraseAt.good_without (h : EraseAt R cmp data head l st (f :: c) nil) :
    ∃ m, Good m (plug c (nil : RbTree (Nat × α))) := by
  obtain ⟨n, hg, hf⟩ := h.good
  obtain rfl : n = 0 := hg
  refine good_plug (n := 0) rfl ?_
  rcases h.pushed with ⟨hnil, -⟩ | ⟨f', c', hcons, hpushed⟩
  · cases hnil
  · cases hcons
    rcases hpushed with hred | hred | ⟨rfl, -⟩
    · obtain ⟨d, rf, x, far⟩ := f
      obtain rfl : rf = true := hred
      exact hf.2.2.2.black
    · cases hred
    · trivial

omit [Inhabited α] in
theorem remove_missing (h : ∀ x ∈ l, cmp x data ≠ 0) :
    removeItem cmp data l = l ∧ removedItems cmp data l = [] :=
  ⟨List.filter_eq_self.mpr fun x hx => by simpa using h x hx,
    List.filter_eq_nil_iff.mpr fun x hx => by simpa using h x hx⟩

omit [Inhabited α] in
theorem remove_found {l r : List α} {y : α} (hl : ∀ x ∈ l, cmp x data ≠ 0) (hy : cmp y data = 0)
    (hr : ∀ x ∈ r, cmp x data ≠ 0) :
    removeItem cmp data (l ++ y :: r) = l ++ r ∧ removedItems cmp data (l ++ y :: r) = [y] := by
  obtain ⟨hl₁, hl₂⟩ := remove_missing hl
  obtain ⟨hr₁, hr₂⟩ := remove_missing hr
  rw [removeItem, List.filter_append, List.filter_cons_of_neg (by simpa using hy), removedItems,
    List.filter_append, List.filter_cons_of_pos (by simpa using hy)]
  exact ⟨congrArg₂ _ hl₁ hr₁, by rw [removedItems] at hl₂ hr₂; rw [hl₂, hr₂]; rfl⟩

/-- What is left below the false root. -/
structure Removed (R : Nat → Option (JswRbnode α)) (cmp : α → α → Int) (data : α) (head : Nat) (l : List α)
    (released : List α) (pool : RbPool α) (t : RbTree (Nat × α)) : Prop where
  holds : Holds R pool [headFrame head] t
  good : ∃ n, Good n t
  items : t.items = removeItem cmp data l
  released : released = removedItems cmp data l

theorem removeSaved_none (h : EraseAt R cmp data head l st c nil) (hf : st.f = none) :
    ∃ pool' released t', removeSaved st = .ok (released, pool') ∧
      Removed R cmp data head l released pool' t' := by
  obtain ⟨hlow, hhigh⟩ := h.found
  rcases hhigh with ⟨-, hhigh⟩ | ⟨y, rest, hsome, -⟩
  · have hne : ∀ x ∈ l, cmp x data ≠ 0 := by
      rw [← h.items, items_plug]
      intro x hx
      simp only [List.mem_append, List.mem_map] at hx
      rcases hx with (⟨z, hz, rfl⟩ | hx) | ⟨z, hz, rfl⟩
      · exact ne_of_lt (hlow z hz)
      · cases hx
      · exact ne_of_gt (hhigh z hz)
    obtain ⟨n, hg, hfits⟩ := h.good
    obtain ⟨hkeep, hnone⟩ := remove_missing hne
    refine ⟨st.pool, [], plug c nil, by rw [removeSaved, hf], holds_plug.mp h.holds, good_plug hg hfits, ?_, ?_⟩
    · rw [hkeep, h.items]
    · rw [hnone]
  · rw [hf] at hsome
    cases hsome

/-- The tree without the last node, whose item stands for that of `y`. -/
theorem EraseAt.items_without (h : EraseAt R cmp data head l st (f :: c) nil) {y : Nat × α}
    {rest : List (Nat × α)} (hafter : after (f :: c) = y :: rest) :
    ((plug c (nil : RbTree (Nat × α))).map (retag y.1 f.x.2)).items =
      (before (f :: c)).map Prod.snd ++ rest.map Prod.snd := by
  have hnd := (holds_plug.mp h.holds).tree_nodup
  rw [addrs, inorder_plug, hafter] at hnd
  have hne : ∀ z ∈ before (f :: c) ++ rest, z.1 ≠ y.1 := by
    have hperm : (before (f :: c) ++ (nil : RbTree (Nat × α)).inorder ++ y :: rest).Perm
        (y :: (before (f :: c) ++ rest)) := by
      rw [RbTree.inorder, List.append_nil]
      exact List.perm_middle
    rw [(hperm.map Prod.fst).nodup_iff, List.map_cons, List.nodup_cons] at hnd
    rintro z hz he
    exact hnd.1 (List.mem_map.mpr ⟨z, hz, he⟩)
  have hlist : (plug c (nil : RbTree (Nat × α))).inorder = before c ++ after c := by
    rw [inorder_plug, RbTree.inorder, List.append_nil]
  rw [RbTree.items, inorder_map, hlist]
  have hfar := h.far_nil
  obtain ⟨d, rf, x, far⟩ := f
  obtain rfl : far = nil := hfar
  cases d with
  | true =>
    -- the last node precedes the one found
    have hafter : after c = y :: rest := hafter
    have hbefore : before (⟨true, rf, x, nil⟩ :: c) = before c ++ [x] := rfl
    rw [hbefore] at hne ⊢
    rw [hafter, List.map_append, List.map_cons, map_retag fun z hz => hne z (by simp [hz]),
      map_retag fun z hz => hne z (by simp [hz])]
    simp [retag]
  | false =>
    -- it is the one found
    have hafter : x :: after c = y :: rest := hafter
    obtain ⟨rfl, hrest⟩ := List.cons.inj hafter
    have hbefore : before (⟨false, rf, x, nil⟩ :: c) = before c := List.append_nil _
    rw [hbefore] at hne ⊢
    rw [hrest, map_retag hne, List.map_append]

omit [Inhabited α] in
/-- A leaf below the frame `g`. -/
theorem unlinkLast_spec {pool : RbPool α} {g : Frame (Nat × α)} {G F : List (Frame (Nat × α))}
    (hfar : f.far = nil) (hcons : F = g :: G) (h : Holds R pool (f :: F) nil) :
    ∃ pool', unlinkLast pool (some g.x.1) f.x.1 = .ok pool' ∧ Holds R pool' F nil := by
  subst hcons
  obtain ⟨d, rf, x, far⟩ := f
  obtain rfl : far = nil := hfar
  have hlast := h.frames.1
  have hup := holds_up.mp h
  have hside := hup.dir_eq (a := x.1) rfl hup.frames.1
  refine ⟨_, ?_, Holds.unleaf (d := d) hup⟩
  rw [unlinkLast]
  simp only [loadNode_ok hup.frames.1, ok_bind, hside, loadNode_ok hlast, ptr_nil, branch_self, decide_true,
    storeNode_ok hup.frames.1, Cell.setLink_branch, pure_ok]

/-- **The node found** gets the item of the last node, which is taken out. -/
theorem removeSaved_some (h : EraseAt R cmp data head l st (f :: c) nil) {a : Nat} (hf : st.f = some a) :
    ∃ pool' released t', removeSaved st = .ok (released, pool') ∧
      Removed R cmp data head l released pool' t' := by
  obtain ⟨hlow, hhigh⟩ := h.found
  rcases hhigh with ⟨hnone, -⟩ | ⟨y, rest, hsome, hafter, hzero, hhigh⟩
  · rw [hf] at hnone
    cases hnone
  · obtain rfl : a = y.1 := Option.some.inj (hf.symm.trans hsome)
    have hitems := h.items_without hafter
    have hfar := h.far_nil
    obtain ⟨g, G, hcons, -⟩ := great_frame c head
    have hq : st.q = some f.x.1 := h.q
    have hp : st.p = some g.x.1 := by
      rw [h.p, List.cons_append, hcons]
      rfl
    have hl : (plug (f :: c) nil).inorder = before (f :: c) ++ y :: rest := by
      rw [inorder_plug, RbTree.inorder, List.append_nil, hafter]
    -- the item is replaced
    have hplug := holds_plug.mp h.holds
    obtain ⟨m, hm, hdata⟩ := hplug.tree.get_of_mem (y := y) (by rw [hl]; simp)
    have hretag := Holds.retag (v := f.x.2) h.holds hm (mem_within.mpr (Or.inr (by
      rw [outside, List.cons_append, ← List.cons_append, before_append, after_append, hafter]
      simp)))
    have hy : y.1 ≠ head := by
      rintro rfl
      refine hplug.disjoint (a := y.1) (List.mem_map_of_mem (by rw [hl]; simp)) ?_
      exact outside_cons.mpr (Or.inl rfl)
    have hhead : (headFrame head : Frame (Nat × α)).map (retag y.1 f.x.2) = headFrame head := by
      show (⟨true, false, retag y.1 f.x.2 (head, default), nil⟩ : Frame (Nat × α)) = _
      rw [retag, if_neg (Ne.symm hy)]
      rfl
    rw [List.cons_append, List.map_cons] at hretag
    have hfar' : (f.map (retag y.1 f.x.2)).far = nil := by
      show f.far.map _ = nil
      rw [hfar]
      rfl
    have hcons' : (c ++ [headFrame head]).map (Frame.map (retag y.1 f.x.2)) =
        g.map (retag y.1 f.x.2) :: G.map (Frame.map (retag y.1 f.x.2)) := by
      rw [hcons, List.map_cons]
    obtain ⟨pool', hunlink, hcut⟩ := unlinkLast_spec hfar' hcons' hretag
    rw [List.map_append, List.map_cons, List.map_nil, hhead] at hcut
    obtain ⟨n, hgood⟩ := h.good_without
    have hne : ∀ {l : List (Nat × α)} {P : α → Prop}, (∀ z ∈ l, P z.2) → ∀ v ∈ l.map Prod.snd, P v := by
      intro l P hall v hv
      obtain ⟨z, hz, rfl⟩ := List.mem_map.mp hv
      exact hall z hz
    obtain ⟨hleft, hgone⟩ := remove_found (hne fun z hz => ne_of_lt (hlow z hz)) hzero
      (hne fun z hz => ne_of_gt (hhigh z hz))
    have hitem : (before (f :: c)).map Prod.snd ++ y.2 :: rest.map Prod.snd = l := by
      rw [← h.items, RbTree.items, hl, List.map_append, List.map_cons]
    refine ⟨pool', [m.data], (plug c nil).map (retag y.1 f.x.2), ?_, ?_, ⟨n, good_map _ hgood⟩, ?_, ?_⟩
    · rw [removeSaved, hf, hq]
      simp only [loadNode_ok hm, ok_bind, loadNode_ok h.holds.frames.1, storeNode_ok hm, hp]
      have hunlink : unlinkLast _ (some g.x.1) f.x.1 = .ok pool' := hunlink
      rw [hunlink]
      rfl
    · rw [plug_map]
      exact holds_plug.mp hcut
    · rw [hitems, ← hitem, hleft]
    · rw [hdata, ← hitem, hgone]

theorem removeSaved_spec (h : EraseAt R cmp data head l st c nil) :
    ∃ pool' released t', removeSaved st = .ok (released, pool') ∧
      Removed R cmp data head l released pool' t' := by
  cases hf : st.f with
  | none => exact removeSaved_none h hf
  | some a =>
    rcases h.pushed with ⟨-, hnil⟩ | ⟨f, c', rfl, -⟩
    · exact absurd rfl hnil
    · exact removeSaved_some h hf

end remove

/-! ## Section 5: jsw_rberase -/

section erase

variable {cmp : α → α → Int} {R : Nat → Option (JswRbnode α)} {pool : RbPool α} {tree : JswRbtree}
  {t : RbTree (Nat × α)}

omit [Inhabited α] in
theorem sorted_removeItem (data : α) {l : List α} (h : Sorted cmp l) : Sorted cmp (removeItem cmp data l) :=
  h.filter _

theorem eraseBelow_spec (hc : TotalPreorder cmp) {root : Option Nat} (h : IsRbTree R cmp pool root t)
    (hne : root ≠ none) (data : α) :
    ∃ pool' t', eraseBelow cmp pool root data = .ok (removedItems cmp data t.items, t'.ptr, pool') ∧
      Holds R pool' [] t' ∧ (∃ n, Good n t') ∧ t'.items = removeItem cmp data t.items := by
  have hunder := h.holds.under { red := false, data := default, link := branch true root none } true
    (by rw [h.root])
  obtain ⟨n, hgood⟩ := h.good
  have hroot : t ≠ nil := by
    rintro rfl
    exact hne h.root
  have hstart : EraseAt R cmp data pool.cells.length t.items
      { pool := (pool.alloc { red := false, data := default, link := branch true root none }).2
        g := none
        p := none
        q := some pool.cells.length
        f := none
        dir := true } [] t :=
    { holds := hunder
      q := rfl
      p := rfl
      dir := fun f hf => by
        obtain rfl := Option.some.inj hf
        rfl
      good := ⟨n, hgood, trivial⟩
      pushed := Or.inl ⟨rfl, hroot⟩
      items := rfl
      found := found_nil cmp data }
  obtain ⟨st, hrun, c, hend⟩ := erase_run hc h.sorted hstart
    (2 * (pool.alloc { red := false, data := default, link := branch true root none }).2.cells.length + 2)
    (by have := hunder.size_le; omega)
  obtain ⟨pool', released, t', hremove, hholds, hgood', hitems, rfl⟩ := removeSaved_spec hend
  refine ⟨pool'.release pool.cells.length, t', ?_, hholds.bare, hgood', hitems⟩
  have hhead : loadNode pool' (some pool.cells.length) = _ := loadNode_ok hholds.frames.1
  calc eraseBelow cmp pool root data
    _ = (Except.ok st >>= fun st => do
          let r ← removeSaved st
          let n ← loadNode r.2 (some pool.cells.length)
          return (r.1, n.link true, r.2.release pool.cells.length)) :=
        congrArg (fun r : Except Fault (EraseState α) => r >>= fun st => do
          let r ← removeSaved st
          let n ← loadNode r.2 (some pool.cells.length)
          return (r.1, n.link true, r.2.release pool.cells.length)) hrun
    _ = .ok (removedItems cmp data t.items, t'.ptr, pool'.release pool.cells.length) := by
        rw [ok_bind, hremove, ok_bind, hhead]
        rfl

/-- **`jsw_rberase`** keeps a red-black tree, and releases the item that is
    equal, if there is one.  The counter of a tree that is not empty goes
    down in either case. -/
theorem jswRberase_spec (hc : TotalPreorder cmp) (h : IsRbTree R cmp pool tree.root t) (data : α) :
    ∃ pool' root t', jswRberase cmp pool tree data =
        .ok (1, removedItems cmp data t.items, pool',
          { root := root, size := if tree.root = none then tree.size else tree.size - 1 }) ∧
      IsRbTree R cmp pool' root t' ∧ t'.items = removeItem cmp data t.items := by
  by_cases hroot : tree.root = none
  · obtain rfl : t = nil := by
      cases t with
      | nil => rfl
      | node r x kid => exact absurd (h.root.symm.trans hroot) (by simp)
    refine ⟨pool, tree.root, nil, ?_, h, rfl⟩
    rw [jswRberase, if_pos hroot, if_pos hroot]
    rfl
  · obtain ⟨pool₁, t₁, heq₁, h₁, ⟨m, hgood₁⟩, hitems⟩ := eraseBelow_spec hc h hroot data
    -- the root is painted
    obtain ⟨pool₂, hpaint, h₂⟩ : ∃ pool₂,
        (if t₁.ptr = none then pure pool₁ else storeNode pool₁ t₁.ptr fun n => n.paint false) = .ok pool₂ ∧
        Holds R pool₂ [] (t₁.paint false) := by
      cases t₁ with
      | nil => exact ⟨_, rfl, h₁⟩
      | node r x kid => exact paint_holds false h₁
    have hptr : (t₁.paint false).ptr = t₁.ptr := by
      cases t₁ <;> rfl
    have hitems' : (t₁.paint false).items = removeItem cmp data t.items := by
      rw [RbTree.items, inorder_paint, ← hitems, RbTree.items]
    refine ⟨pool₂, t₁.ptr, t₁.paint false, ?_, ⟨h₂, hptr.symm, isRed_paint_false t₁, hgood₁.black, ?_⟩, hitems'⟩
    · rw [jswRberase, if_neg hroot, if_neg hroot, heq₁, ok_bind]
      by_cases hnil : t₁.ptr = none
      · rw [if_pos hnil] at hpaint
        obtain rfl : pool₁ = pool₂ := Except.ok.inj hpaint
        simp only [if_pos hnil, pure_ok, ok_bind]
      · rw [if_neg hnil] at hpaint
        simp only [if_neg hnil, hpaint, pure_ok, ok_bind]
    · rw [hitems']
      exact sorted_removeItem data h.sorted

end erase

end BoAtom
