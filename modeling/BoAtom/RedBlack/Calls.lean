import BoAtom.Lib.Machine
import BoAtom.RedBlack.Erase
import Mathlib.Data.Set.Card

/-! # Calls of the red-black tree

    `rbStep` is a call of the interface on a tree, `setStep` the same call on
    a set of items of which no two compare equal.  The main results hold of
    every sequence of calls on a new tree:

    * the answers are those of the set (`rb_calls_refine_set`);
    * the tree is balanced, and nothing else has been left in memory
      (`rb_calls_balanced`);
    * what `dup` has made is passed to `rel` once, if the tree is deleted in
      the end (`rb_calls_release_once`);
    * `jsw_rbsize` counts calls, not items (`rb_calls_size`). -/

namespace BoAtom

open Memory Loop RedBlack RbTree Comparison

variable {α : Type} {cmp : α → α → Int} {dup : α → α} {R : Nat → Option (JswRbnode α)} {pool : RbPool α}
  {tree : JswRbtree} {t : RbTree (Nat × α)}

/-! ## Section 1: Searching -/

/-- What the search from a root comes to. -/
def FindsIn (cmp : α → α → Int) (data : α) (pool : RbPool α) (l : List α) (o : Option Nat) : Prop :=
  (o = none ∧ ∀ x ∈ l, cmp x data ≠ 0) ∨
    ∃ a n, o = some a ∧ pool.get a = some n ∧ n.data ∈ l ∧ cmp n.data data = 0

/-- A place on the way down to the item. -/
structure FindAt (R : Nat → Option (JswRbnode α)) (cmp : α → α → Int) (data : α) (pool : RbPool α)
    (l : List α) (c : List (Frame (Nat × α))) (t : RbTree (Nat × α)) : Prop where
  holds : Holds R pool c t
  items : (plug c t).items = l
  between : Between cmp data c

theorem find_turn (hc : TotalPreorder cmp) {data : α} {l : List α} (hl : Sorted cmp l)
    {c : List (Frame (Nat × α))} (h : FindAt R cmp data pool l c t) :
    (∃ c' t', Goes (findTurn cmp pool data) t.ptr t'.ptr ∧ FindAt R cmp data pool l c' t' ∧ t'.size < t.size) ∨
    ∃ o, findTurn cmp pool data t.ptr = .ok (.leaves o) ∧ FindsIn cmp data pool l o := by
  cases t with
  | nil =>
    refine Or.inr ⟨none, rfl, Or.inl ⟨rfl, ?_⟩⟩
    rw [← h.items, items_plug]
    intro x hx
    simp only [List.mem_append, List.mem_map] at hx
    rcases hx with (⟨y, hy, rfl⟩ | hx) | ⟨y, hy, rfl⟩
    · exact ne_of_lt (h.between.low y hy)
    · cases hx
    · exact ne_of_gt (h.between.high y hy)
  | node r x kid =>
    have hget := h.holds.tree.1
    by_cases hzero : cmp x.2 data = 0
    · refine Or.inr ⟨some x.1, ?_, Or.inr ⟨x.1, _, rfl, hget, ?_, hzero⟩⟩
      · simp only [findTurn, ptr_node, loadNode_ok hget, ok_bind, if_pos hzero, pure_ok]
      · rw [← h.items, items_plug, RbTree.items, inorder]
        simp
    · refine Or.inl ⟨_, kid (decide (cmp x.2 data < 0)), ?_, ⟨(holds_down _).mp h.holds, ?_,
        h.between.down hc (sorted_place (h.items ▸ hl)) hzero⟩, size_kid r x kid _⟩
      · simp only [Goes, findTurn, ptr_node, loadNode_ok hget, ok_bind, if_neg hzero, pure_ok]
      · rw [plug, Frame.around, branch_eta]
        exact h.items

/-- No two items are equal to one thing. -/
theorem Sorted.unique (hc : TotalPreorder cmp) {data : α} {l : List α} (h : Sorted cmp l) :
    ∀ x ∈ l, ∀ y ∈ l, cmp x data = 0 → cmp y data = 0 → x = y := by
  have hsymm : Std.Symm fun x y => cmp x data = 0 → cmp y data = 0 → x = y :=
    ⟨fun x y hxy hy hx => (hxy hx hy).symm⟩
  have hpair : l.Pairwise fun x y => cmp x data = 0 → cmp y data = 0 → x = y := by
    refine h.imp fun {x y} hlt hx hy => ?_
    -- equal to the same, hence to one another
    have hyx : cmp y x ≤ 0 := hc.trans _ _ _ (le_of_eq hy) (le_of_eq (hc.eq_comm.mp hx))
    have hgt := (hc.swap x y).mp hlt
    omega
  intro x hx y hy
  exact List.Pairwise.forall_of_forall (fun x _ _ _ => rfl) hpair hx hy

theorem Sorted.nodup (hc : TotalPreorder cmp) {l : List α} (h : Sorted cmp l) : l.Nodup := by
  refine h.imp fun {x y} hlt heq => ?_
  rw [heq, hc.refl] at hlt
  omega

theorem find_run (hc : TotalPreorder cmp) (h : IsRbTree R cmp pool tree.root t) (data : α) :
    ∃ o, jswRbfind2 cmp pool tree data = .ok o ∧ FindsIn cmp data pool t.items o := by
  rw [jswRbfind2, h.root]
  refine iterate_total (I := fun m it => ∃ c t', it = t'.ptr ∧ FindAt R cmp data pool t.items c t' ∧ t'.size = m)
    (fun m it hI => ?_) _ t.size _ ⟨[], t, rfl, ⟨h.holds, rfl, between_nil cmp data⟩, rfl⟩ ?_
  · obtain ⟨c, t', rfl, hat, rfl⟩ := hI
    rcases find_turn hc h.sorted hat with ⟨c', t'', hgo, hat', hlt⟩ | hleave
    · exact Or.inl ⟨_, _, hgo, ⟨c', t'', rfl, hat', rfl⟩, hlt⟩
    · exact Or.inr hleave
  · have := h.holds.size_le
    omega

/-- **`jsw_rbfind`** finds the item that is equal. -/
theorem jswRbfind_spec (hc : TotalPreorder cmp) (h : IsRbTree R cmp pool tree.root t) (data : α) :
    ∃ o, jswRbfind cmp pool tree data = .ok o ∧ ∀ x, o = some x ↔ x ∈ t.items ∧ cmp x data = 0 := by
  obtain ⟨it, hrun, hfinds⟩ := find_run hc h data
  rcases hfinds with ⟨rfl, hnone⟩ | ⟨a, n, rfl, hget, hin, hzero⟩
  · refine ⟨none, ?_, fun x => ⟨(fun hx => by cases hx), fun hx => absurd hx.2 (hnone x hx.1)⟩⟩
    rw [jswRbfind, hrun]
    rfl
  · refine ⟨some n.data, ?_, fun x => ⟨fun hx => ?_, fun hx => ?_⟩⟩
    · rw [jswRbfind, hrun, ok_bind]
      simp only [loadNode_ok hget, ok_bind, pure_ok]
    · obtain rfl := Option.some.inj hx
      exact ⟨hin, hzero⟩
    · rw [h.sorted.unique hc _ hin _ hx.1 hzero hx.2]

/-! ## Section 2: Releasing the tree -/

/-- The nodes that the path to the right from the root does not pass. -/
def offSpine {β : Type} : RbTree β → Nat
  | nil => 0
  | node _ _ kid => (kid false).size + offSpine (kid true)

theorem offSpine_le {β : Type} : ∀ t : RbTree β, offSpine t ≤ t.size
  | nil => le_refl _
  | node r x kid => by
    have := offSpine_le (kid true)
    rw [size] at this ⊢
    rw [offSpine, size, inorder, List.length_append, List.length_cons]
    omega

variable {x y : Nat × α} {r r' : Bool} {t₀ t₁ t₂ : RbTree (Nat × α)}

/-- `save = it->link[0]; it->link[0] = save->link[1]; save->link[1] = it`. -/
theorem rotateAway_spec
    (h : Holds R pool [] (node r x (branch false (node r' y (branch false t₀ t₁)) t₂))) :
    ∃ pool₁ pool₂, storeNode pool (some x.1) (fun n => n.setLink false t₁.ptr) = .ok pool₁ ∧
      storeNode pool₁ (some y.1) (fun n => n.setLink true (some x.1)) = .ok pool₂ ∧
      Holds R pool₂ [] (node r' y (branch false t₀ (node r x (branch false t₁ t₂)))) := by
  obtain ⟨hx, hnear, h₂⟩ := rep_branch.mp h.tree
  obtain ⟨hy, h₀, h₁⟩ := rep_branch.mp hnear
  obtain ⟨⟨hxn, hx2⟩, ⟨hnnd, -⟩, hdis⟩ := nodup_branch.mp h.tree_nodup
  obtain ⟨⟨hy0, hy1⟩, -, -⟩ := nodup_branch.mp hnnd
  simp only [mem_addrs_branch, not_or] at hxn
  obtain ⟨hxy, hx0, hx1⟩ := hxn
  have hy2 : y.1 ∉ t₂.addrs := fun hin => hdis _ (mem_addrs_branch.mpr (Or.inl rfl)) hin
  have e₁ := Pool.get_set_self (x := (⟨r, x.2, branch false t₁.ptr t₂.ptr⟩ : JswRbnode α)) hx
  have e₂ := (Pool.get_set_ne (p := pool) (x := (⟨r, x.2, branch false t₁.ptr t₂.ptr⟩ : JswRbnode α))
    (Ne.symm hxy)).trans hy
  have e₃ := Pool.get_set_self (x := (⟨r', y.2, branch false t₀.ptr (some x.1)⟩ : JswRbnode α)) e₂
  have e₄ := (Pool.get_set_ne (x := (⟨r', y.2, branch false t₀.ptr (some x.1)⟩ : JswRbnode α)) hxy).trans e₁
  have hother : ∀ a, a ≠ x.1 → a ≠ y.1 → _ = pool.get a := fun a hax hay =>
    (Pool.get_set_ne (x := (⟨r', y.2, branch false t₀.ptr (some x.1)⟩ : JswRbnode α)) hay).trans
      (Pool.get_set_ne (x := (⟨r, x.2, branch false t₁.ptr t₂.ptr⟩ : JswRbnode α)) hax)
  refine ⟨_, _, storeNode_ok hx _, ?_, h.rerooted (rep_branch.mpr ⟨e₃, ?_, rep_branch.mpr ⟨e₄, ?_, ?_⟩⟩) ?_ ?_⟩
  · rw [Cell.setLink_branch, storeNode_ok e₂, ← Bool.not_false, Cell.setLink_branch_not]
  · exact h₀.congr fun a ha => hother a (fun he => hx0 (he ▸ ha)) (fun he => hy0 (he ▸ ha))
  · exact h₁.congr fun a ha => hother a (fun he => hx1 (he ▸ ha)) (fun he => hy1 (he ▸ ha))
  · exact h₂.congr fun a ha => hother a (fun he => hx2 (he ▸ ha)) (fun he => hy2 (he ▸ ha))
  · simp [inorder_branch, side]
  · intro a ha
    simp only [mem_addrs_branch, not_or] at ha
    exact hother a ha.1 ha.2.1.1

/-- The loop of `jsw_rbdelete`: a tree that is left, after what has been
    released. -/
def Deleting (R : Nat → Option (JswRbnode α)) (l : List α) (m : Nat)
    (st : RbPool α × Option Nat × List α) : Prop :=
  ∃ t : RbTree (Nat × α), Holds R st.1 [] t ∧ st.2.1 = t.ptr ∧ st.2.2 ++ t.items = l ∧ m = t.size + offSpine t

theorem delete_turn {l : List α} (m : Nat) (st : RbPool α × Option Nat × List α) (h : Deleting R l m st) :
    (∃ st' m', Goes deleteTurn st st' ∧ Deleting R l m' st' ∧ m' < m) ∨
    ∃ out, deleteTurn st = .ok (.leaves out) ∧ Holds R out.1 [] nil ∧ out.2 = l := by
  obtain ⟨pool, it, released⟩ := st
  obtain ⟨t, hholds, hit, hl, rfl⟩ := h
  obtain rfl : it = t.ptr := hit
  rcases t with _ | ⟨r, x, kid⟩
  · refine Or.inr ⟨_, rfl, hholds, ?_⟩
    rw [← hl]
    exact (List.append_nil _).symm
  · have hget := hholds.tree.1
    rcases hleft : kid false with _ | ⟨r', y, kid'⟩
    · -- no left links: the node is released
      have hdown := (holds_down true).mp hholds
      rw [Bool.not_true, hleft] at hdown
      refine Or.inl ⟨(pool.release x.1, (kid true).ptr, released ++ [x.2]), _, ?_,
        ⟨kid true, hdown.bare, rfl, ?_, rfl⟩, ?_⟩
      · simp only [Goes, deleteTurn, ptr_node, loadNode_ok hget, ok_bind, hleft, ptr_nil, pure_ok]
      · rw [← hl, RbTree.items, RbTree.items, inorder, hleft]
        simp [inorder]
      · have := size_kid r x kid true
        rw [offSpine, hleft]
        omega
    · -- the left link is rotated away
      have hshape : node r x kid =
          node r x (branch false (node r' y (branch false (kid' false) (kid' true))) (kid true)) := by
        have hk := branch_eta false kid
        have hk' := branch_eta false kid'
        rw [Bool.not_false] at hk hk'
        rw [hk', ← hleft, hk]
      rw [hshape] at hholds
      obtain ⟨pool₁, pool₂, heq₁, heq₂, h₂⟩ := rotateAway_spec hholds
      have hnear := (rep_branch.mp (rep_branch.mp hholds.tree).2.1).1
      have hlink : branch false (kid' false).ptr (kid' true).ptr true = (kid' true).ptr := branch_not false _ _
      refine Or.inl ⟨(pool₂, some y.1, released), _, ?_, ⟨_, h₂, rfl, ?_, rfl⟩, ?_⟩
      · simp only [Goes, deleteTurn, ptr_node, loadNode_ok hget, ok_bind, hleft, loadNode_ok hnear, hlink]
        rw [heq₁, ok_bind, heq₂]
        rfl
      · rw [← hl, hshape]
        simp [RbTree.items, inorder_branch, side]
      · rw [hshape]
        simp [offSpine, size, inorder_branch, side, branch]
        omega

/-- **`jsw_rbdelete`** releases the items in order, and every node. -/
theorem jswRbdelete_spec (h : Holds R pool [] t) (hroot : tree.root = t.ptr) :
    ∃ pool', jswRbdelete pool tree = .ok (pool', t.items) ∧ ∀ a, pool'.get a = R a := by
  obtain ⟨⟨pool', released⟩, hrun, hempty, hall⟩ := iterate_total (delete_turn (R := R) (l := t.items))
    (2 * pool.cells.length + 1) (t.size + offSpine t) (pool, tree.root, []) ⟨t, h, hroot, rfl, rfl⟩ (by
      have := h.size_le
      have := offSpine_le t
      omega)
  obtain rfl : released = t.items := hall
  exact ⟨pool', hrun, fun a => hempty.rest a (by simp [within, before, after, inorder])⟩

/-! ## Section 3: Calls -/

inductive RbCall (α : Type) where
  | find (data : α)
  | insert (data : α)
  | erase (data : α)

inductive RbAnswer (α : Type) where
  | found (item : Option α)
  | inserted (ret : Int)
  /-- With what `rel` was called on. -/
  | erased (ret : Int) (released : List α)

/-- A run: the tree, the answers and what `rel` has been called on. -/
structure RbRun (α : Type) where
  pool : RbPool α
  tree : JswRbtree
  answers : List (RbAnswer α)
  released : List α

def RbRun.start : RbRun α := { pool := Pool.empty, tree := jswRbnew, answers := [], released := [] }

def rbStep [Inhabited α] (cmp : α → α → Int) (dup : α → α) (s : RbRun α) : RbCall α → Except Fault (RbRun α)
  | .find data => do
    let item ← jswRbfind cmp s.pool s.tree data
    return { s with answers := s.answers ++ [.found item] }
  | .insert data => do
    let (ret, pool, tree) ← jswRbinsert cmp dup s.pool s.tree data
    return { s with pool := pool, tree := tree, answers := s.answers ++ [.inserted ret] }
  | .erase data => do
    let (ret, released, pool, tree) ← jswRberase cmp s.pool s.tree data
    return { pool := pool, tree := tree, answers := s.answers ++ [.erased ret released],
             released := s.released ++ released }

/-! ## Section 4: The set -/

inductive SetAnswer (α : Type) where
  /-- The items that are equal. -/
  | found (items : Set α)
  | inserted
  | erased (items : Set α)

/-- The set; what `dup` has made; the insertions of something that was there,
    and the removals of something that was not, from a set not empty. -/
structure SetRun (α : Type) where
  items : Set α
  answers : List (SetAnswer α)
  made : List α
  duplicates : Nat
  misses : Nat

def SetRun.start : SetRun α := { items := ∅, answers := [], made := [], duplicates := 0, misses := 0 }

/-- The items equal to `data`. -/
def equalItems (cmp : α → α → Int) (data : α) (items : Set α) : Set α := {x ∈ items | cmp x data = 0}

open Classical in
noncomputable def setStep (cmp : α → α → Int) (dup : α → α) (s : SetRun α) : RbCall α → SetRun α
  | .find data => { s with answers := s.answers ++ [.found (equalItems cmp data s.items)] }
  | .insert data =>
    let s : SetRun α := { s with answers := s.answers ++ [.inserted] }
    if (equalItems cmp data s.items).Nonempty then { s with duplicates := s.duplicates + 1 }
    else { s with items := s.items ∪ {dup data}, made := s.made ++ [dup data] }
  | .erase data =>
    let s : SetRun α := { s with answers := s.answers ++ [.erased (equalItems cmp data s.items)] }
    if (equalItems cmp data s.items).Nonempty then { s with items := s.items \ equalItems cmp data s.items }
    else if s.items.Nonempty then { s with misses := s.misses + 1 }
    else s

/-- An answer is the one of the set. -/
inductive RbAnswered : RbAnswer α → SetAnswer α → Prop
  | found {item : Option α} {items : Set α} (h : ∀ x, item = some x ↔ x ∈ items) :
    RbAnswered (.found item) (.found items)
  | inserted : RbAnswered (.inserted 1) .inserted
  | erased {released : List α} {items : Set α} (h : ∀ x, x ∈ released ↔ x ∈ items)
    (hone : released.length ≤ 1) : RbAnswered (.erased 1 released) (.erased items)

/-! ## Section 5: A call follows the set -/

/-- The tree holds the set, and nothing but the tree is in memory. -/
structure RbFollows (cmp : α → α → Int) (s : RbRun α) (a : SetRun α) (t : RbTree (Nat × α)) : Prop where
  tree : IsRbTree (fun _ => none) cmp s.pool s.tree.root t
  items : ∀ x, x ∈ a.items ↔ x ∈ t.items
  answers : List.Forall₂ RbAnswered s.answers a.answers
  released : a.made.Perm (s.released ++ t.items)
  size : s.tree.size = UInt64.ofNat t.items.length + UInt64.ofNat a.duplicates - UInt64.ofNat a.misses

theorem rbFollows_start (cmp : α → α → Int) : RbFollows cmp RbRun.start SetRun.start nil where
  tree :=
    { holds := ⟨trivial, trivial, List.nodup_nil, fun a _ => Pool.get_empty a, fun _ _ => rfl⟩
      root := rfl
      black := rfl
      good := ⟨0, rfl⟩
      sorted := List.Pairwise.nil }
  items := fun x => by simp [SetRun.start, RbTree.items, inorder]
  answers := .nil
  released := .refl _
  size := by simp [RbRun.start, jswRbnew, SetRun.start, RbTree.items, inorder]

theorem forall₂_snoc {β γ : Type} {P : β → γ → Prop} {l : List β} {l' : List γ} {b : β} {c : γ}
    (h : List.Forall₂ P l l') (hbc : P b c) : List.Forall₂ P (l ++ [b]) (l' ++ [c]) := by
  induction h with
  | nil => exact .cons hbc .nil
  | cons hab _ ih => exact .cons hab ih

theorem perm_insertItem (dup : α → α) {data : α} {l : List α} (hno : ¬ ∃ y ∈ l, cmp y data = 0) :
    (insertItem cmp dup data l).Perm (l ++ [dup data]) := by
  have hany : ¬ l.any (fun y => cmp y data = 0) = true := by
    simpa using hno
  have hhigh : l.filter (fun x => 0 < cmp x data) = l.filter (fun x => !decide (cmp x data < 0)) := by
    refine List.filter_congr fun x hx => ?_
    have hne : cmp x data ≠ 0 := fun hz => hno ⟨x, hx, hz⟩
    rw [← decide_not, decide_eq_decide]
    omega
  rw [insertItem, if_neg hany, hhigh]
  refine (List.perm_middle.trans ((List.filter_append_perm _ l).cons _)).trans ?_
  exact (List.perm_append_singleton _ _).symm

theorem perm_removeItem (cmp : α → α → Int) (data : α) (l : List α) :
    l.Perm (removedItems cmp data l ++ removeItem cmp data l) := by
  refine ((List.filter_append_perm (fun x => decide (cmp x data = 0)) l).symm).trans ?_
  rw [removedItems, removeItem]
  simp

/-- At most one item is equal. -/
theorem length_removedItems (hc : TotalPreorder cmp) (data : α) {l : List α} (h : Sorted cmp l) :
    (removedItems cmp data l).length ≤ 1 := by
  have hs : Sorted cmp (removedItems cmp data l) := h.filter _
  have hall : ∀ x ∈ removedItems cmp data l, x ∈ l ∧ cmp x data = 0 := fun x hx => by
    simpa [removedItems] using hx
  rcases hr : removedItems cmp data l with _ | ⟨x, _ | ⟨y, r⟩⟩
  · exact Nat.zero_le _
  · exact le_refl _
  · rw [hr] at hs hall
    have hlt : cmp x y < 0 := (List.pairwise_cons.mp hs).1 y List.mem_cons_self
    obtain ⟨hx, hxz⟩ := hall x List.mem_cons_self
    obtain ⟨hy, hyz⟩ := hall y (List.mem_cons_of_mem _ List.mem_cons_self)
    rw [h.unique hc x hx y hy hxz hyz, hc.refl] at hlt
    omega

section follows

variable [Inhabited α] {s : RbRun α} {a : SetRun α}

omit [Inhabited α] in
theorem RbFollows.mem_equalItems (h : RbFollows cmp s a t) (data x : α) :
    x ∈ equalItems cmp data a.items ↔ x ∈ t.items ∧ cmp x data = 0 := by
  rw [equalItems, Set.mem_ofPred_eq, h.items]

omit [Inhabited α] in
theorem RbFollows.some_equal (h : RbFollows cmp s a t) (data : α) :
    (equalItems cmp data a.items).Nonempty ↔ ∃ x ∈ t.items, cmp x data = 0 :=
  exists_congr fun x => h.mem_equalItems data x

theorem follows_find_item (hc : TotalPreorder cmp) (h : RbFollows cmp s a t) (data : α) :
    ∃ s', rbStep cmp dup s (.find data) = .ok s' ∧ ∃ t', RbFollows cmp s' (setStep cmp dup a (.find data)) t' := by
  obtain ⟨item, hrun, hitem⟩ := jswRbfind_spec hc h.tree data
  refine ⟨{ s with answers := s.answers ++ [.found item] }, by rw [rbStep, hrun]; rfl, t,
    { h with answers := forall₂_snoc h.answers (.found fun x => ?_) }⟩
  rw [hitem x, h.mem_equalItems]

theorem follows_insert_item (hc : TotalPreorder cmp) (hdup : ∀ x, cmp (dup x) x = 0)
    (h : RbFollows cmp s a t) (data : α) :
    ∃ s', rbStep cmp dup s (.insert data) = .ok s' ∧
      ∃ t', RbFollows cmp s' (setStep cmp dup a (.insert data)) t' := by
  obtain ⟨pool', root, t', hrun, htree, hitems⟩ := jswRbinsert_spec hc hdup h.tree data
  refine ⟨_, by rw [rbStep, hrun]; rfl, t', ?_⟩
  have hanswers := forall₂_snoc h.answers RbAnswered.inserted
  rw [setStep]
  by_cases hfound : (equalItems cmp data a.items).Nonempty
  · obtain ⟨x, hx, hzero⟩ := (h.some_equal data).mp hfound
    rw [insertItem_found hx hzero] at hitems
    rw [if_pos hfound]
    refine ⟨htree, fun x => by rw [hitems]; exact h.items x, hanswers, hitems ▸ h.released, ?_⟩
    show s.tree.size + 1 = _ + UInt64.ofNat (a.duplicates + 1) - _
    rw [h.size, hitems, UInt64.ofNat_add]
    grind
  · -- the item made is the one that is new in the tree
    have hperm := perm_insertItem dup (mt (h.some_equal data).mpr hfound)
    rw [← hitems] at hperm
    rw [if_neg hfound]
    refine ⟨htree, fun x => ?_, hanswers, ?_, ?_⟩
    · rw [hperm.mem_iff, List.mem_append, List.mem_singleton, ← h.items]
      exact Iff.rfl
    · refine (h.released.append_right [dup data]).trans ?_
      rw [List.append_assoc]
      exact hperm.symm.append_left _
    · show s.tree.size + 1 = _
      rw [h.size, hperm.length_eq, List.length_append, List.length_singleton, UInt64.ofNat_add]
      grind

theorem follows_erase_item (hc : TotalPreorder cmp) (h : RbFollows cmp s a t) (data : α) :
    ∃ s', rbStep cmp dup s (.erase data) = .ok s' ∧
      ∃ t', RbFollows cmp s' (setStep cmp dup a (.erase data)) t' := by
  obtain ⟨pool', root, t', hrun, htree, hitems⟩ := jswRberase_spec hc h.tree data
  have hperm := perm_removeItem cmp data t.items
  have hone := length_removedItems hc data h.tree.sorted
  refine ⟨_, by rw [rbStep, hrun]; rfl, t', ?_⟩
  have hreply : RbAnswered (.erased 1 (removedItems cmp data t.items)) (.erased (equalItems cmp data a.items)) :=
    .erased (fun x => by rw [h.mem_equalItems, removedItems, List.mem_filter, decide_eq_true_iff]) hone
  have hanswers := forall₂_snoc h.answers hreply
  have hreleased : a.made.Perm (s.released ++ removedItems cmp data t.items ++ t'.items) := by
    rw [hitems, List.append_assoc]
    exact h.released.trans (hperm.append_left _)
  have hlen := hperm.length_eq
  rw [List.length_append, ← hitems] at hlen
  have hempty : s.tree.root = none ↔ ¬ a.items.Nonempty := by
    rw [h.tree.root, Set.not_nonempty_iff_eq_empty, Set.eq_empty_iff_forall_notMem]
    simp only [h.items]
    cases t with
    | nil => simp [RbTree.items, inorder]
    | node r x kid =>
      have hin : x.2 ∈ (node r x kid).items := by
        rw [RbTree.items, inorder]
        simp
      exact ⟨(fun hp => by cases hp), fun hno => absurd hin (hno x.2)⟩
  rw [setStep]
  by_cases hfound : (equalItems cmp data a.items).Nonempty
  · obtain ⟨x, hx, hzero⟩ := (h.some_equal data).mp hfound
    have hroot : s.tree.root ≠ none := fun hn => hempty.mp hn ⟨x, (h.items x).mpr hx⟩
    have hlen₁ : (removedItems cmp data t.items).length = 1 := by
      have hin : x ∈ removedItems cmp data t.items := List.mem_filter.mpr ⟨hx, by simpa using hzero⟩
      have := List.length_pos_of_mem hin
      omega
    rw [if_pos hfound, if_neg hroot]
    refine ⟨htree, fun x => ?_, hanswers, hreleased, ?_⟩
    · rw [hitems, removeItem, List.mem_filter, ← h.items]
      show x ∈ a.items ∧ x ∉ equalItems cmp data a.items ↔ _
      rw [equalItems, Set.mem_ofPred_eq, decide_eq_true_iff]
      tauto
    · show s.tree.size - 1 = _
      rw [h.size, hlen, hlen₁, UInt64.ofNat_add]
      grind
  · have hno : ∀ x ∈ t.items, cmp x data ≠ 0 := fun x hx hz => hfound ((h.some_equal data).mpr ⟨x, hx, hz⟩)
    obtain ⟨hsame, hnone⟩ := remove_missing hno
    have hitem : ∀ x, x ∈ a.items ↔ x ∈ t'.items := fun x => by rw [hitems, hsame]; exact h.items x
    have hsize : t'.items.length = t.items.length := by rw [hitems, hsame]
    rw [if_neg hfound]
    by_cases hroot : s.tree.root = none
    · rw [if_neg (hempty.mp hroot), if_pos hroot]
      exact ⟨htree, hitem, hanswers, hreleased, by rw [hsize]; exact h.size⟩
    · rw [if_pos (not_not.mp (mt hempty.mpr hroot)), if_neg hroot]
      refine ⟨htree, hitem, hanswers, hreleased, ?_⟩
      show s.tree.size - 1 = _ - UInt64.ofNat (a.misses + 1)
      rw [h.size, hsize, UInt64.ofNat_add]
      grind

/-- One call. -/
theorem follows_step (hc : TotalPreorder cmp) (hdup : ∀ x, cmp (dup x) x = 0) (c : RbCall α)
    (h : ∃ t, RbFollows cmp s a t) :
    ∃ s', rbStep cmp dup s c = .ok s' ∧ ∃ t', RbFollows cmp s' (setStep cmp dup a c) t' := by
  obtain ⟨t, h⟩ := h
  cases c with
  | find data => exact follows_find_item hc h data
  | insert data => exact follows_insert_item hc hdup h data
  | erase data => exact follows_erase_item hc h data

/-- **Any calls** on a new tree. -/
theorem follows_run (hc : TotalPreorder cmp) (hdup : ∀ x, cmp (dup x) x = 0) (calls : List (RbCall α)) :
    ∃ s, Machine.run (rbStep cmp dup) RbRun.start calls = .ok s ∧
      ∃ t, RbFollows cmp s (calls.foldl (setStep cmp dup) SetRun.start) t :=
  Machine.run_refines (R := fun s a => ∃ t, RbFollows cmp s a t)
    (fun _ _ c h => follows_step hc hdup c h) ⟨nil, rbFollows_start cmp⟩

end follows

/-! ## Section 6: Main results -/

section results

variable [Inhabited α]

/-- **A set.**  Whatever calls are made on a new tree, none faults, and the
    answers are those of the set: a search finds the item that is equal, and
    a removal releases it. -/
theorem rb_calls_refine_set (hc : TotalPreorder cmp) (hdup : ∀ x, cmp (dup x) x = 0)
    (calls : List (RbCall α)) :
    ∃ s, Machine.run (rbStep cmp dup) RbRun.start calls = .ok s ∧
      List.Forall₂ RbAnswered s.answers (calls.foldl (setStep cmp dup) SetRun.start).answers := by
  obtain ⟨s, hrun, t, h⟩ := follows_run hc hdup calls
  exact ⟨s, hrun, h.answers⟩

theorem int_totalPreorder : TotalPreorder fun a b : Int => a - b :=
  ⟨fun a b => by constructor <;> intro h <;> omega, fun a b c hab hbc => by omega⟩

theorem rb_calls_refine_set_int :
    ∃ s, Machine.run (rbStep (fun a b : Int => a - b) id) RbRun.start
        [.insert 3, .insert 5, .insert 3, .erase 4, .find 5, .erase 3] = .ok s ∧
      List.Forall₂ RbAnswered s.answers
        ([RbCall.insert 3, .insert 5, .insert 3, .erase 4, .find 5, .erase 3].foldl
          (setStep (fun a b : Int => a - b) id) SetRun.start).answers :=
  rb_calls_refine_set int_totalPreorder (fun x => sub_self x) _

/-- **Balance.**  After any calls the nodes in memory are those of one
    red-black tree of sorted items, with a black root; so its height is at
    most twice the logarithm of their number. -/
theorem rb_calls_balanced (hc : TotalPreorder cmp) (hdup : ∀ x, cmp (dup x) x = 0)
    (calls : List (RbCall α)) :
    ∃ s t n, Machine.run (rbStep cmp dup) RbRun.start calls = .ok s ∧
      t.Rep s.pool ∧ s.tree.root = t.ptr ∧ t.addrs.Nodup ∧
      (∀ a, a ∈ t.addrs ↔ ∃ m, s.pool.get a = some m) ∧
      Good n t ∧ t.isRed = false ∧ Sorted cmp t.items ∧
      t.height ≤ 2 * Nat.log 2 (t.size + 1) := by
  obtain ⟨s, hrun, t, h⟩ := follows_run hc hdup calls
  obtain ⟨n, hgood⟩ := h.tree.good
  refine ⟨s, t, n, hrun, h.tree.holds.tree, h.tree.root, h.tree.holds.tree_nodup, fun a => ⟨?_, ?_⟩, hgood,
    h.tree.black, h.tree.sorted, hgood.height_le h.tree.black⟩
  · exact h.tree.holds.tree.live a
  · rintro ⟨m, hm⟩
    by_contra hout
    have hnone := h.tree.holds.rest a fun hin => (mem_within.mp hin).elim hout fun ho => by cases ho
    rw [hm] at hnone
    cases hnone

theorem rb_calls_balanced_int :
    ∃ (s : RbRun Int) (t : RbTree (Nat × Int)) (n : Nat),
      Machine.run (rbStep (fun a b : Int => a - b) id) RbRun.start [.insert 3, .insert 5, .insert 4] = .ok s ∧
        Good n t ∧ t.height ≤ 2 * Nat.log 2 (t.size + 1) := by
  obtain ⟨s, t, n, hrun, -, -, -, -, hgood, -, -, hh⟩ :=
    rb_calls_balanced int_totalPreorder (fun x => sub_self x) [.insert 3, .insert 5, .insert 4]
  exact ⟨s, t, n, hrun, hgood, hh⟩

/-- **Every item once.**  After any calls and `jsw_rbdelete`, what `rel` has
    been called on is what `dup` had made, each as often; the items of the
    last call come in order, and no node is left. -/
theorem rb_calls_release_once (hc : TotalPreorder cmp) (hdup : ∀ x, cmp (dup x) x = 0)
    (calls : List (RbCall α)) :
    ∃ s pool' last, Machine.run (rbStep cmp dup) RbRun.start calls = .ok s ∧
      jswRbdelete s.pool s.tree = .ok (pool', last) ∧
      (calls.foldl (setStep cmp dup) SetRun.start).made.Perm (s.released ++ last) ∧
      Sorted cmp last ∧ ∀ a, pool'.get a = none := by
  obtain ⟨s, hrun, t, h⟩ := follows_run hc hdup calls
  obtain ⟨pool', hdelete, hnone⟩ := jswRbdelete_spec h.tree.holds h.tree.root
  exact ⟨s, pool', t.items, hrun, hdelete, h.released, h.tree.sorted, hnone⟩

theorem rb_calls_release_once_int :
    ∃ (s : RbRun Int) (pool' : RbPool Int) (last : List Int),
      Machine.run (rbStep (fun a b : Int => a - b) id) RbRun.start [.insert 3, .insert 5, .erase 3] = .ok s ∧
        jswRbdelete s.pool s.tree = .ok (pool', last) ∧ Sorted (fun a b : Int => a - b) last := by
  obtain ⟨s, pool', last, hrun, hdelete, -, hs, -⟩ :=
    rb_calls_release_once int_totalPreorder (fun x => sub_self x) [.insert 3, .insert 5, .erase 3]
  exact ⟨s, pool', last, hrun, hdelete, hs⟩

/-- **The counter.**  `jsw_rbsize` is the number of items, plus the
    insertions of something that was there, minus the removals of something
    that was not; so it is right when there have been as many of the one as
    of the other. -/
theorem rb_calls_size (hc : TotalPreorder cmp) (hdup : ∀ x, cmp (dup x) x = 0) (calls : List (RbCall α)) :
    ∃ s, Machine.run (rbStep cmp dup) RbRun.start calls = .ok s ∧
      jswRbsize s.tree = UInt64.ofNat (calls.foldl (setStep cmp dup) SetRun.start).items.ncard +
        UInt64.ofNat (calls.foldl (setStep cmp dup) SetRun.start).duplicates -
        UInt64.ofNat (calls.foldl (setStep cmp dup) SetRun.start).misses ∧
      (jswRbsize s.tree = UInt64.ofNat (calls.foldl (setStep cmp dup) SetRun.start).items.ncard ↔
        UInt64.ofNat (calls.foldl (setStep cmp dup) SetRun.start).duplicates =
          UInt64.ofNat (calls.foldl (setStep cmp dup) SetRun.start).misses) := by
  classical
  obtain ⟨s, hrun, t, h⟩ := follows_run hc hdup calls
  have hcard : (calls.foldl (setStep cmp dup) SetRun.start).items.ncard = t.items.length := by
    have hset : (calls.foldl (setStep cmp dup) SetRun.start).items = ↑t.items.toFinset := by
      ext x
      rw [h.items, Finset.mem_coe, List.mem_toFinset]
    rw [hset, Set.ncard_coe_finset, List.toFinset_card_of_nodup (h.tree.sorted.nodup hc)]
  refine ⟨s, hrun, ?_, ?_⟩
  · rw [hcard, jswRbsize, h.size]
  · rw [hcard, jswRbsize, h.size]
    constructor
    · intro heq
      grind
    · intro heq
      grind

theorem rb_calls_size_int :
    ∃ s, Machine.run (rbStep (fun a b : Int => a - b) id) RbRun.start [.insert 3, .insert 3] = .ok s ∧
      (jswRbsize s.tree = UInt64.ofNat
          ([RbCall.insert 3, .insert 3].foldl (setStep (fun a b : Int => a - b) id) SetRun.start).items.ncard ↔
        UInt64.ofNat
            ([RbCall.insert 3, .insert 3].foldl (setStep (fun a b : Int => a - b) id) SetRun.start).duplicates =
          UInt64.ofNat
            ([RbCall.insert 3, .insert 3].foldl (setStep (fun a b : Int => a - b) id) SetRun.start).misses) := by
  obtain ⟨s, hrun, -, hiff⟩ := rb_calls_size int_totalPreorder (fun x => sub_self x) [.insert 3, .insert 3]
  exact ⟨s, hrun, hiff⟩

end results

end BoAtom
