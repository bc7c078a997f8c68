import BoAtom.RedBlack.Calls

/-! # Traversal of the red-black tree

    A traversal stands at a node, with the nodes above it on its stack; it is
    a cursor in the list of the items.  The stack has `HEIGHT_LIMIT` entries,
    enough for every red-black tree of less than 2^33 - 1 items. -/

namespace BoAtom

open Memory Loop RedBlack RbTree

variable {α : Type} {R : Nat → Option (JswRbnode α)} {pool : RbPool α} {t : RbTree (Nat × α)}
  {c : List (Frame (Nat × α))} {r d : Bool} {x : Nat × α} {kid : Bool → RbTree (Nat × α)}

/-! ## Section 1: Where a traversal stands -/

/-- The items outside of the place in direction `d`. -/
def beyond (d : Bool) (c : List (Frame (Nat × α))) : Nat := if d then (after c).length else (before c).length

theorem beyond_cons (d : Bool) (f : Frame (Nat × α)) (c : List (Frame (Nat × α))) :
    beyond d (f :: c) = (if f.dir = d then 0 else f.far.size + 1) + beyond d c := by
  obtain ⟨fd, rf, y, far⟩ := f
  cases d <;> cases fd <;> simp [beyond, before, after, size] <;> omega

/-- The stack of a place. -/
def pathOf (c : List (Frame (Nat × α))) : List (Option Nat) := c.map fun f => some f.x.1

/-- The traversal is at the root of the tree at the place. -/
structure TravAt (t : RbTree (Nat × α)) (trav : JswRbtrav) (c : List (Frame (Nat × α)))
    (t' : RbTree (Nat × α)) : Prop where
  whole : plug c t' = t
  it : trav.it = t'.ptr
  path : trav.path = pathOf c

/-- The traversal is at a node that has `k` items in direction `d`. -/
def CursorAt (t : RbTree (Nat × α)) (trav : JswRbtrav) (d : Bool) (k : Nat) : Prop :=
  ∃ c r x kid, TravAt t trav c (node r x kid) ∧ k = (kid d).size + beyond d c

theorem size_plug (d : Bool) (c : List (Frame (Nat × α))) (t : RbTree (Nat × α)) :
    (plug c t).size = beyond d c + t.size + beyond (!d) c := by
  rw [size, inorder_plug, List.length_append, List.length_append]
  cases d with
  | true => exact (Nat.add_comm _ _).trans ((congrArg _ (Nat.add_comm _ _)).trans (Nat.add_assoc _ _ _).symm)
  | false => rfl

theorem size_sides (r : Bool) (x : Nat × α) (kid : Bool → RbTree (Nat × α)) (d : Bool) :
    (node r x kid).size = (kid d).size + 1 + (kid (!d)).size := by
  rw [size, inorder_node r x kid d, size, size]
  cases d with
  | true =>
    simp [side]
    omega
  | false =>
    simp [side]
    omega

/-- The items on the two sides, and the one it is at. -/
theorem CursorAt.other {trav : JswRbtrav} {k : Nat} (h : CursorAt t trav d k) :
    ∃ k', CursorAt t trav (!d) k' ∧ k + 1 + k' = t.size := by
  obtain ⟨c, r, x, kid, hat, rfl⟩ := h
  refine ⟨_, ⟨c, r, x, kid, hat, rfl⟩, ?_⟩
  rw [← hat.whole, size_plug d, size_sides r x kid d]
  omega

/-! ## Section 2: Going down and up -/

theorem holds_place (h : Holds R pool [] t) {t' : RbTree (Nat × α)} (hp : plug c t' = t) : Holds R pool c t' := by
  rw [← hp, ← holds_plug, List.append_nil] at h
  exact h

/-- There is room for the node on the stack. -/
theorem pushPath_spec (h : Holds R pool [] t) (hheight : t.height ≤ heightLimit) {trav : JswRbtrav}
    (hat : TravAt t trav c (node r x kid)) (d : Bool) :
    ∃ trav', pushPath pool trav d = .ok trav' ∧ TravAt t trav' (⟨d, r, x, kid (!d)⟩ :: c) (kid d) := by
  have hget := (holds_place h hat.whole).tree.1
  have hroom : trav.path.length < heightLimit := by
    have hle := height_plug c (node r x kid)
    rw [hat.whole, height] at hle
    rw [hat.path, pathOf, List.length_map]
    omega
  refine ⟨{ it := (kid d).ptr, path := trav.it :: trav.path }, ?_, ⟨?_, rfl, ?_⟩⟩
  · rw [pushPath, if_pos hroom]
    simp only [hat.it, ptr_node, loadNode_ok hget, ok_bind, pure_ok]
  · rw [plug, Frame.around, branch_eta]
    exact hat.whole
  · rw [hat.path, hat.it]
    rfl

/-- `while ( trav->it->link[dir] != NULL )` ends where nothing is left in the
    direction, below the place it began at. -/
theorem goDown_spec (h : Holds R pool [] t) (hheight : t.height ≤ heightLimit) {trav : JswRbtrav}
    (hat : TravAt t trav c (node r x kid)) (d : Bool) :
    ∃ trav', goDown pool d trav = .ok trav' ∧ CursorAt t trav' d (beyond d c) := by
  refine iterate_total
    (I := fun m trav => ∃ c' r x kid, TravAt t trav c' (node r x kid) ∧ beyond d c' = beyond d c ∧
      m = (node r x kid).size)
    (fun m trav hI => ?_) (pool.cells.length + 1) _ trav ⟨c, r, x, kid, hat, rfl, rfl⟩ ?_
  · obtain ⟨c', r, x, kid, hat, hbeyond, rfl⟩ := hI
    have hget := (holds_place h hat.whole).tree.1
    rcases hkid : kid d with _ | ⟨r', y, kid'⟩
    · refine Or.inr ⟨trav, ?_, c', r, x, kid, hat, ?_⟩
      · simp only [downTurn, hat.it, ptr_node, loadNode_ok hget, ok_bind, hkid, ptr_nil, if_true, pure_ok]
      · rw [hkid, hbeyond]
        simp [size, inorder]
    · obtain ⟨trav', hpush, hat'⟩ := pushPath_spec h hheight hat d
      rw [hkid] at hat'
      refine Or.inl ⟨trav', _, ?_, ⟨_, r', y, kid', hat', ?_, rfl⟩, ?_⟩
      · simp only [Goes, downTurn, hat.it, ptr_node, loadNode_ok hget, ok_bind, hkid, reduceCtorEq, if_false,
          hpush, pure_ok]
      · rw [beyond_cons, if_pos rfl, Nat.zero_add, hbeyond]
      · rw [← hkid]
        exact size_kid r x kid d
  · have := (holds_place h hat.whole).size_le
    omega

/-- `do … while ( last == trav->it->link[dir] )` ends at the next node in the
    direction, if there is one. -/
theorem goUp_spec (h : Holds R pool [] t) (d : Bool) : ∀ (c : List (Frame (Nat × α))) (t' : RbTree (Nat × α))
    (a : Nat), plug c t' = t → t'.ptr = some a →
    ∃ trav', goUp pool d (some a) (pathOf c) = .ok trav' ∧
      ((beyond d c = 0 ∧ trav' = { it := none, path := [] }) ∨ ∃ k, beyond d c = k + 1 ∧ CursorAt t trav' d k)
  | [], t', _, _, _ => ⟨_, rfl, Or.inl ⟨by cases d <;> rfl, rfl⟩⟩
  | f :: c, t', a, hp, ha => by
    have hholds := holds_place h hp
    have hget := hholds.frames.1
    rw [beyond_cons]
    by_cases hdir : f.dir = d
    · -- the node was the child in the direction
      obtain ⟨trav', hrun, hends⟩ := goUp_spec h d c (f.around t') f.x.1 hp rfl
      refine ⟨trav', ?_, ?_⟩
      · show goUp pool d (some a) (some f.x.1 :: pathOf c) = _
        rw [goUp]
        simp only [loadNode_ok hget, ok_bind, hdir, branch_same, ha, if_true]
        exact hrun
      · rw [if_pos hdir, Nat.zero_add]
        exact hends
    · have hnot : d = !f.dir := by
        revert hdir
        cases f.dir <;> cases d <;> decide
      have hlink : branch f.dir t'.ptr f.far.ptr d = f.far.ptr := by rw [hnot, branch_not]
      have hfar : branch f.dir t' f.far d = f.far := by rw [hnot, branch_not]
      refine ⟨{ it := some f.x.1, path := pathOf c }, ?_, Or.inr ⟨f.far.size + beyond d c, ?_,
        c, f.red, f.x, branch f.dir t' f.far, ⟨hp, rfl, rfl⟩, by rw [hfar]⟩⟩
      · show goUp pool d (some a) (some f.x.1 :: pathOf c) = _
        rw [goUp]
        simp only [loadNode_ok hget, ok_bind, hlink, if_neg (Ne.symm (hholds.far_ne ha)), pure_ok]
      · rw [if_neg hdir]
        omega

/-! ## Section 3: The cursor -/

/-- The item a traversal that is `k` items from the end in direction `d` is
    at. -/
theorem CursorAt.travData (h : Holds R pool [] t) {trav : JswRbtrav} {k : Nat} (hat : CursorAt t trav false k) :
    travData pool trav = .ok t.items[k]? := by
  obtain ⟨c, r, x, kid, hat, rfl⟩ := hat
  have hget := (holds_place h hat.whole).tree.1
  have hitem : t.items[(kid false).size + beyond false c]? = some x.2 := by
    rw [← hat.whole, RbTree.items, inorder_plug, inorder, List.getElem?_map]
    have hlen : (before c ++ (kid false).inorder).length = (kid false).size + beyond false c := by
      rw [List.length_append, size, Nat.add_comm]
      rfl
    rw [← hlen, ← List.append_assoc, List.append_assoc (before c ++ (kid false).inorder),
      List.getElem?_append_right (le_refl _), Nat.sub_self]
    rfl
  rw [hitem, BoAtom.travData, hat.it]
  simp only [ptr_node, loadNode_ok hget, Except.map]

/-- `move` on a tree that stands. -/
theorem travMove_spec (h : Holds R pool [] t) (hheight : t.height ≤ heightLimit) {trav : JswRbtrav} {k : Nat}
    (hat : CursorAt t trav d k) :
    ∃ trav', travMove pool trav d = (travData pool trav').map (fun item => (item, trav')) ∧
      ((k = 0 ∧ trav'.it = none) ∨ ∃ k', k = k' + 1 ∧ CursorAt t trav' d k') := by
  obtain ⟨c, r, x, kid, hat, rfl⟩ := hat
  have hholds := holds_place h hat.whole
  have hget := hholds.tree.1
  rcases hkid : kid d with _ | ⟨r', y, kid'⟩
  · obtain ⟨trav', hup, hends⟩ := goUp_spec h d c _ x.1 hat.whole (ptr_node r x kid)
    have hsize : (nil : RbTree (Nat × α)).size = 0 := rfl
    refine ⟨trav', ?_, ?_⟩
    · rw [travMove, hat.it, hat.path]
      simp only [ptr_node, loadNode_ok hget, ok_bind, hkid, ptr_nil, if_true, hup]
      cases travData pool trav' <;> rfl
    · rw [hsize, Nat.zero_add]
      rcases hends with ⟨hzero, rfl⟩ | hends
      · exact Or.inl ⟨hzero, rfl⟩
      · exact Or.inr hends
  · obtain ⟨trav₁, hpush, hat₁⟩ := pushPath_spec h hheight hat d
    rw [hkid] at hat₁
    obtain ⟨trav', hdown, hat'⟩ := goDown_spec h hheight hat₁ (!d)
    refine ⟨trav', ?_, Or.inr ?_⟩
    · rw [travMove, hat.it]
      simp only [ptr_node, loadNode_ok hget, ok_bind, hkid, reduceCtorEq, if_false, hpush, hdown]
      cases travData pool trav' <;> rfl
    · -- one more on the other side, so one less on this one
      obtain ⟨k', hat'', hsum⟩ := hat'.other
      rw [Bool.not_not] at hat''
      refine ⟨k', ?_, hat''⟩
      have hside : ¬ d = !d := by simp
      rw [beyond_cons, if_neg hside] at hsum
      have hsum : (kid (!d)).size + 1 + beyond (!d) c + 1 + k' = t.size := hsum
      have hn := hat.whole
      have hk := size_sides r x kid d
      have hp := size_plug d c (node r x kid)
      rw [hn] at hp
      rw [← hkid]
      omega

theorem travStart_spec (h : Holds R pool [] t) (hheight : t.height ≤ heightLimit) {tree : JswRbtree}
    (hroot : tree.root = t.ptr) (d : Bool) :
    ∃ trav, travStart pool tree d = (travData pool trav).map (fun item => (item, trav)) ∧
      ((t = nil ∧ trav.it = none) ∨ CursorAt t trav d 0) := by
  rcases t with _ | ⟨r, x, kid⟩
  · refine ⟨{ it := none, path := [] }, ?_, Or.inl ⟨rfl, rfl⟩⟩
    rw [travStart, hroot]
    rfl
  · have hat : TravAt (node r x kid) { it := tree.root, path := [] } [] (node r x kid) := ⟨rfl, hroot, rfl⟩
    obtain ⟨trav, hdown, hat'⟩ := goDown_spec h hheight hat d
    have hzero : beyond d ([] : List (Frame (Nat × α))) = 0 := by
      cases d <;> rfl
    refine ⟨trav, ?_, Or.inr (hzero ▸ hat')⟩
    have hne : tree.root ≠ none := by
      rw [hroot]
      simp
    rw [travStart]
    simp only [if_neg hne, hdown, ok_bind]
    cases travData pool trav <;> rfl

/-! ## Section 4: Moves -/

/-- A traversal and the items it has returned. -/
structure TravRun (α : Type) where
  trav : JswRbtrav
  items : List (Option α)

/-- `jsw_rbtnext` or `jsw_rbtprev`. -/
def travStep (pool : RbPool α) (s : TravRun α) (dir : Bool) : Except Fault (TravRun α) := do
  let (item, trav) ← if dir then jswRbtnext pool s.trav else jswRbtprev pool s.trav
  return { trav := trav, items := s.items ++ [item] }

/-- A cursor in a list. -/
structure Cursor (α : Type) where
  index : Option Nat
  items : List (Option α)

/-- At the first or the last item. -/
def Cursor.start (l : List α) (last : Bool) : Cursor α :=
  { index := if l = [] then none else some (if last then l.length - 1 else 0), items := [] }

def moveIndex (n : Nat) (dir : Bool) (k : Nat) : Option Nat :=
  if dir then (if k + 1 < n then some (k + 1) else none) else (if k = 0 then none else some (k - 1))

def cursorStep (l : List α) (s : Cursor α) (dir : Bool) : Cursor α :=
  { index := s.index.bind (moveIndex l.length dir)
    items := s.items ++ [(s.index.bind (moveIndex l.length dir)).bind fun k => l[k]?] }

/-- Where a traversal is, as an index. -/
def AtIndex (t : RbTree (Nat × α)) (trav : JswRbtrav) (i : Option Nat) : Prop :=
  (i = none ∧ trav.it = none) ∨ ∃ k, i = some k ∧ CursorAt t trav false k

theorem AtIndex.travData (h : Holds R pool [] t) {trav : JswRbtrav} {i : Option Nat} (hat : AtIndex t trav i) :
    travData pool trav = .ok (i.bind fun k => t.items[k]?) := by
  rcases hat with ⟨rfl, hit⟩ | ⟨k, rfl, hat⟩
  · rw [BoAtom.travData, hit]
    rfl
  · exact CursorAt.travData h hat

theorem length_items (t : RbTree (Nat × α)) : t.items.length = t.size := by
  rw [RbTree.items, List.length_map, size]

/-- A move is one of the cursor. -/
theorem atIndex_move (h : Holds R pool [] t) (hheight : t.height ≤ heightLimit) {trav : JswRbtrav} {k : Nat}
    (hat : CursorAt t trav false k) (dir : Bool) :
    ∃ trav', travMove pool trav dir = .ok ((moveIndex t.items.length dir k).bind fun k => t.items[k]?, trav') ∧
      AtIndex t trav' (moveIndex t.items.length dir k) := by
  obtain ⟨k', hother, hsum⟩ := hat.other
  rw [length_items]
  obtain ⟨trav', hmove, hat'⟩ : ∃ trav', travMove pool trav dir =
      (travData pool trav').map (fun item => (item, trav')) ∧ AtIndex t trav' (moveIndex t.size dir k) := by
    cases dir with
    | true =>
      obtain ⟨trav', hmove, hends⟩ := travMove_spec h hheight hother
      refine ⟨trav', hmove, ?_⟩
      rw [moveIndex, if_pos rfl]
      rcases hends with ⟨rfl, hit⟩ | ⟨k'', rfl, hat'⟩
      · rw [if_neg (by omega)]
        exact Or.inl ⟨rfl, hit⟩
      · obtain ⟨i, hati, hsum'⟩ := hat'.other
        obtain rfl : i = k + 1 := by omega
        rw [if_pos (by omega)]
        exact Or.inr ⟨_, rfl, hati⟩
    | false =>
      obtain ⟨trav', hmove, hends⟩ := travMove_spec h hheight hat
      refine ⟨trav', hmove, ?_⟩
      rw [moveIndex, if_neg Bool.false_ne_true]
      rcases hends with ⟨rfl, hit⟩ | ⟨k'', rfl, hat'⟩
      · exact Or.inl ⟨if_pos rfl, hit⟩
      · exact Or.inr ⟨k'', if_neg (by omega), hat'⟩
  refine ⟨trav', ?_, hat'⟩
  rw [hmove, hat'.travData h]
  rfl

theorem travStep_ok {s : TravRun α} {dir : Bool} {item : Option α} {trav' : JswRbtrav}
    (h : travMove pool s.trav dir = .ok (item, trav')) :
    travStep pool s dir = .ok { trav := trav', items := s.items ++ [item] } := by
  cases dir with
  | true =>
    have h : jswRbtnext pool s.trav = .ok (item, trav') := h
    rw [travStep, if_pos rfl, h]
    rfl
  | false =>
    have h : jswRbtprev pool s.trav = .ok (item, trav') := h
    rw [travStep, if_neg Bool.false_ne_true, h]
    rfl

/-- **A cursor.**  On a red-black tree of less than `2 ^ 33 - 1` items the
    traversal starts and moves like a cursor in the list of the items, as
    long as it is not moved after NULL. -/
theorem traversal_follows {cmp : α → α → Int} {tree : JswRbtree} (h : IsRbTree R cmp pool tree.root t)
    (hsize : t.items.length + 1 < 2 ^ 33) (last : Bool) (moves : List Bool)
    (hstop : ∀ pre dir post, moves = pre ++ dir :: post →
      (pre.foldl (cursorStep t.items) (Cursor.start t.items last)).index ≠ none) :
    ∃ trav s, travStart pool tree last =
        .ok ((Cursor.start t.items last).index.bind fun k => t.items[k]?, trav) ∧
      Machine.run (travStep pool) { trav := trav, items := [] } moves = .ok s ∧
      s.items = (moves.foldl (cursorStep t.items) (Cursor.start t.items last)).items := by
  obtain ⟨n, hgood⟩ := h.good
  have hheight : t.height ≤ heightLimit := by
    have hle := hgood.height_le h.black
    have hlog : Nat.log 2 (t.size + 1) < 33 := Nat.log_lt_of_lt_pow (by omega) (by rwa [length_items] at hsize)
    rw [heightLimit]
    omega
  obtain ⟨trav, hstart, hends⟩ := travStart_spec h.holds hheight h.root last
  have hat : AtIndex t trav (Cursor.start t.items last).index := by
    rw [Cursor.start]
    rcases hends with ⟨rfl, hit⟩ | hat
    · exact Or.inl ⟨rfl, hit⟩
    · obtain ⟨k, hother, hsum⟩ := hat.other
      have hne : t.items ≠ [] := List.ne_nil_of_length_pos (by rw [length_items]; omega)
      refine Or.inr ⟨_, if_neg hne, ?_⟩
      cases last with
      | true =>
        obtain rfl : k = t.items.length - 1 := by rw [length_items]; omega
        exact hother
      | false => exact hat
  obtain ⟨s, hrun, -, hitems⟩ := Machine.run_refines_while
    (R := fun (s : TravRun α) (c : Cursor α) => AtIndex t s.trav c.index ∧ s.items = c.items)
    (P := fun c _ => c.index ≠ none)
    (fun s c dir hR hne => by
      obtain ⟨hidx, hitems⟩ := hR
      rcases hidx with ⟨hnone, -⟩ | ⟨k, hk, hcur⟩
      · exact absurd hnone hne
      · obtain ⟨trav', hmove, hat'⟩ := atIndex_move h.holds hheight hcur dir
        refine ⟨_, travStep_ok hmove, ?_⟩
        rw [cursorStep, hk, hitems]
        exact ⟨hat', rfl⟩)
    (s := { trav := trav, items := [] }) ⟨hat, rfl⟩ hstop
  exact ⟨trav, s, by rw [hstart, hat.travData h.holds]; rfl, hrun, hitems⟩

/-! ## Section 5: After any calls -/

/-- `jsw_rbtlast` or `jsw_rbtfirst`. -/
def travOpen (s : RbRun α) (last : Bool) : Except Fault (Option α × JswRbtrav) :=
  if last then jswRbtlast s.pool s.tree else jswRbtfirst s.pool s.tree

/-- **Traversal.**  After any calls on a new tree, a traversal from either
    end, moved back and forth, returns the items of the set as a cursor in
    their sorted list does, until it has returned NULL; the stack is not
    overrun while there are less than `2 ^ 33 - 1` items. -/
theorem rb_traversal_is_cursor [Inhabited α] {cmp : α → α → Int} {dup : α → α}
    (hc : Comparison.TotalPreorder cmp) (hdup : ∀ x, cmp (dup x) x = 0) (calls : List (RbCall α)) :
    ∃ s l, Machine.run (rbStep cmp dup) RbRun.start calls = .ok s ∧ Sorted cmp l ∧
      (∀ x, x ∈ l ↔ x ∈ (calls.foldl (setStep cmp dup) SetRun.start).items) ∧
      ∀ last moves, l.length + 1 < 2 ^ 33 →
        (∀ pre dir post, moves = pre ++ dir :: post →
          (pre.foldl (cursorStep l) (Cursor.start l last)).index ≠ none) →
        ∃ trav r, travOpen s last = .ok ((Cursor.start l last).index.bind fun k => l[k]?, trav) ∧
          Machine.run (travStep s.pool) { trav := trav, items := [] } moves = .ok r ∧
          r.items = (moves.foldl (cursorStep l) (Cursor.start l last)).items := by
  obtain ⟨s, hrun, t, h⟩ := follows_run hc hdup calls
  refine ⟨s, t.items, hrun, h.tree.sorted, fun x => (h.items x).symm, fun last moves hsize hstop => ?_⟩
  obtain ⟨trav, r, hopen, hmoves, hitems⟩ := traversal_follows h.tree hsize last moves hstop
  refine ⟨trav, r, ?_, hmoves, hitems⟩
  rw [← hopen]
  cases last <;> rfl

theorem rb_traversal_is_cursor_int :
    ∃ (s : RbRun Int) (l : List Int),
      Machine.run (rbStep (fun a b : Int => a - b) id) RbRun.start [.insert 5, .insert 3] = .ok s ∧
        Sorted (fun a b : Int => a - b) l ∧
        ∀ last moves, l.length + 1 < 2 ^ 33 →
          (∀ pre dir post, moves = pre ++ dir :: post →
            (pre.foldl (cursorStep l) (Cursor.start l last)).index ≠ none) →
          ∃ trav r, travOpen s last = .ok ((Cursor.start l last).index.bind fun k => l[k]?, trav) ∧
            Machine.run (travStep s.pool) { trav := trav, items := [] } moves = .ok r ∧
            r.items = (moves.foldl (cursorStep l) (Cursor.start l last)).items := by
  obtain ⟨s, l, hrun, hs, -, htrav⟩ :=
    rb_traversal_is_cursor int_totalPreorder (fun x => sub_self x) [.insert 5, .insert 3]
  exact ⟨s, l, hrun, hs, htrav⟩

/-- Forth to the end, and back from it. -/
example : ([true, true, false].foldl (cursorStep [3, 5, 8]) (Cursor.start [3, 5, 8] false)).items =
    [some 5, some 8, some 5] := by
  decide

end BoAtom
