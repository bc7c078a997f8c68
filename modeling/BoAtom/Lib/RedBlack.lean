import Mathlib.Data.List.Nodup
import Mathlib.Data.Nat.Log
import Mathlib.Tactic.Linarith

/-! # Red-black trees

    Binary trees with a colour at each node.  The children of a node are a
    function of the direction, `false` to the left and `true` to the right,
    so that a statement about one direction is one about its mirror image.

    `Good n t`: no red node has a red child, and every path down passes `n`
    black nodes.  A tree is worked on at a place inside of it: a list of
    `Frame`s from the place up, the tree below it, and `Fits`, what the
    frames ask of that tree. -/

namespace RedBlack

variable {β γ : Type}

/-! ## Section 1: Trees -/

inductive RbTree (β : Type) where
  | nil
  | node (red : Bool) (x : β) (kid : Bool → RbTree β)

/-- `near` in direction `d`, `far` in the other one. -/
def branch {δ : Type} (d : Bool) (near far : δ) (b : Bool) : δ := if b = d then near else far

section branch

variable {δ ε : Type} (d : Bool) (near far : δ)

@[simp] theorem branch_same : branch d near far d = near := if_pos rfl

@[simp] theorem branch_not : branch d near far (!d) = far := if_neg (by cases d <;> decide)

@[simp] theorem branch_self (b : Bool) : branch d near near b = near := ite_self near

theorem branch_swap : branch (!d) near far = branch d far near := by
  funext b
  cases d <;> cases b <;> rfl

/-- Any function of the direction is one. -/
theorem branch_eta (k : Bool → δ) : branch d (k d) (k (!d)) = k := by
  funext b
  cases d <;> cases b <;> rfl

theorem map_branch (f : δ → ε) (b : Bool) :
    f (branch d near far b) = branch d (f near) (f far) b := by
  unfold branch
  split <;> rfl

theorem forall_branch {P : δ → Prop} : (∀ b, P (branch d near far b)) ↔ P near ∧ P far := by
  constructor
  · intro h
    have hnear := h d
    have hfar := h (!d)
    rw [branch_same] at hnear
    rw [branch_not] at hfar
    exact ⟨hnear, hfar⟩
  · rintro ⟨hnear, hfar⟩ b
    unfold branch
    split
    · exact hnear
    · exact hfar

theorem forall_kids {P : δ → Prop} (d : Bool) (k : Bool → δ) : (∀ b, P (k b)) ↔ P (k d) ∧ P (k (!d)) := by
  conv_lhs => rw [← branch_eta d k]
  exact forall_branch d (k d) (k (!d))

end branch

namespace RbTree

def isRed : RbTree β → Bool
  | nil => false
  | node red _ _ => red

def inorder : RbTree β → List β
  | nil => []
  | node _ x kid => inorder (kid false) ++ x :: inorder (kid true)

def map (f : β → γ) : RbTree β → RbTree γ
  | nil => nil
  | node red x kid => node red (f x) fun b => map f (kid b)

/-- What stands on one side of a node, and the node. -/
def side (d : Bool) (x : β) (near far : List β) : List β :=
  if d then far ++ x :: near else near ++ x :: far

theorem inorder_branch (red : Bool) (x : β) (d : Bool) (near far : RbTree β) :
    (node red x (branch d near far)).inorder = side d x near.inorder far.inorder := by
  cases d <;> rfl

theorem inorder_node (red : Bool) (x : β) (kid : Bool → RbTree β) (d : Bool) :
    (node red x kid).inorder = side d x (kid d).inorder (kid (!d)).inorder := by
  cases d <;> rfl

theorem inorder_map (f : β → γ) : ∀ t : RbTree β, (t.map f).inorder = t.inorder.map f
  | nil => rfl
  | node red x kid => by
    simp only [map, inorder, inorder_map f (kid false), inorder_map f (kid true), List.map_append,
      List.map_cons]

/-- No red node has a red child, and every path passes `n` black nodes. -/
def Good : Nat → RbTree β → Prop
  | n, nil => n = 0
  | n, node true _ kid => ∀ b, (kid b).isRed = false ∧ Good n (kid b)
  | n, node false _ kid => ∃ m, n = m + 1 ∧ ∀ b, Good m (kid b)

theorem good_nil {n : Nat} : Good n (nil : RbTree β) ↔ n = 0 := Iff.rfl

theorem good_red {n : Nat} {x : β} {kid : Bool → RbTree β} :
    Good n (node true x kid) ↔ ∀ b, (kid b).isRed = false ∧ Good n (kid b) := Iff.rfl

theorem good_black {n : Nat} {x : β} {kid : Bool → RbTree β} :
    Good n (node false x kid) ↔ ∃ m, n = m + 1 ∧ ∀ b, Good m (kid b) := Iff.rfl

theorem good_red_branch {n : Nat} {x : β} {d : Bool} {near far : RbTree β} :
    Good n (node true x (branch d near far)) ↔
      (near.isRed = false ∧ Good n near) ∧ far.isRed = false ∧ Good n far := by
  rw [good_red]
  exact forall_branch (P := fun t => t.isRed = false ∧ Good n t) d near far

theorem good_black_branch {n : Nat} {x : β} {d : Bool} {near far : RbTree β} :
    Good n (node false x (branch d near far)) ↔ ∃ m, n = m + 1 ∧ Good m near ∧ Good m far := by
  rw [good_black]
  exact exists_congr fun m => and_congr_right fun _ => forall_branch d near far

theorem isRed_map (f : β → γ) (t : RbTree β) : (t.map f).isRed = t.isRed := by
  cases t <;> rfl

theorem good_map (f : β → γ) : ∀ {t : RbTree β} {n : Nat}, Good n t → Good n (t.map f)
  | nil, _, h => h
  | node true x kid, _, h => fun b => ⟨by rw [isRed_map]; exact (h b).1, good_map f (h b).2⟩
  | node false x kid, _, h => by
    obtain ⟨m, rfl, h⟩ := h
    exact ⟨m, rfl, fun b => good_map f (h b)⟩

def size (t : RbTree β) : Nat := t.inorder.length

def height : RbTree β → Nat
  | nil => 0
  | node _ _ kid => max (height (kid false)) (height (kid true)) + 1

theorem red_node : ∀ {t : RbTree β}, t.isRed = true → ∃ x kid, t = node true x kid
  | node true x kid, _ => ⟨x, kid, rfl⟩

/-- The colour of the root is set. -/
def paint (red : Bool) : RbTree β → RbTree β
  | nil => nil
  | node _ x kid => node red x kid

@[simp] theorem inorder_paint (red : Bool) (t : RbTree β) : (t.paint red).inorder = t.inorder := by
  cases t <;> rfl

theorem size_kid (r : Bool) (x : β) (kid : Bool → RbTree (β)) (d : Bool) :
    (kid d).size < (node r x kid).size := by
  rw [size, size, inorder]
  cases d with
  | true =>
    rw [List.length_append, List.length_cons]
    omega
  | false =>
    rw [List.length_append, List.length_cons]
    omega

theorem size_paint (red : Bool) (t : RbTree (β)) : (t.paint red).size = t.size := by
  rw [size, inorder_paint, size]

theorem isRed_paint_false (t : RbTree β) : (t.paint false).isRed = false := by
  cases t <;> rfl

/-- A red tree painted black has one more black node on every path. -/
theorem Good.raise {n : Nat} {t : RbTree β} (h : Good n t) (hred : t.isRed = true) :
    Good (n + 1) (t.paint false) := by
  obtain ⟨x, kid, rfl⟩ := red_node hred
  exact ⟨n, rfl, fun b => (h b).2⟩

theorem Good.black_node : ∀ {t : RbTree β} {n : Nat}, Good (n + 1) t → t.isRed = false →
    ∃ x kid, t = node false x kid ∧ ∀ b, Good n (kid b)
  | node false x kid, n, h, _ => by
    obtain ⟨m, hm, h⟩ := h
    obtain rfl : n = m := Nat.succ.inj hm
    exact ⟨x, kid, rfl, h⟩

theorem Good.black {n : Nat} {t : RbTree β} (h : Good n t) : ∃ m, Good m (t.paint false) := by
  cases t with
  | nil => exact ⟨n, h⟩
  | node red x kid =>
    cases red with
    | true => exact ⟨n + 1, n, rfl, fun b => (h b).2⟩
    | false => exact ⟨n, h⟩

/-! ## Section 2: Heights -/

/-- Black nodes alone fill a tree with `2 ^ n - 1` nodes; red ones at most
    double its height. -/
theorem Good.bounds : ∀ {t : RbTree β} {n : Nat}, Good n t →
    2 ^ n ≤ t.size + 1 ∧ t.height ≤ 2 * n + (if t.isRed then 1 else 0)
  | nil, n, h => by
    rw [good_nil] at h
    subst h
    exact ⟨le_refl _, Nat.zero_le _⟩
  | node true x kid, n, h => by
    obtain ⟨hl, hgl⟩ := h false
    obtain ⟨hr, hgr⟩ := h true
    obtain ⟨sl, bl⟩ := hgl.bounds
    obtain ⟨sr, br⟩ := hgr.bounds
    rw [hl] at bl
    rw [hr] at br
    rw [size] at sl sr
    rw [size, inorder, height, List.length_append, List.length_cons]
    constructor
    · omega
    · show max (kid false).height (kid true).height + 1 ≤ 2 * n + 1
      have hbl : (kid false).height ≤ 2 * n + 0 := bl
      have hbr : (kid true).height ≤ 2 * n + 0 := br
      omega
  | node false x kid, n, h => by
    obtain ⟨m, rfl, h⟩ := h
    obtain ⟨sl, bl⟩ := (h false).bounds
    obtain ⟨sr, br⟩ := (h true).bounds
    have hl : (kid false).height ≤ 2 * m + 1 := bl.trans (Nat.add_le_add_left (by split <;> decide) _)
    have hr : (kid true).height ≤ 2 * m + 1 := br.trans (Nat.add_le_add_left (by split <;> decide) _)
    rw [size] at sl sr
    rw [size, inorder, height, List.length_append, List.length_cons, pow_succ]
    constructor
    · omega
    · show max (kid false).height (kid true).height + 1 ≤ 2 * (m + 1) + 0
      omega

/-- **The height is logarithmic.** -/
theorem Good.height_le {t : RbTree β} {n : Nat} (h : Good n t) (hroot : t.isRed = false) :
    t.height ≤ 2 * Nat.log 2 (t.size + 1) := by
  obtain ⟨hs, hb⟩ := h.bounds
  rw [hroot] at hb
  simp only [Bool.false_eq_true, if_false, Nat.add_zero] at hb
  have := Nat.le_log_of_pow_le (by decide) hs
  omega

end RbTree

open RbTree

/-! ## Section 3: Places in a tree -/

/-- A node above the place: the direction the place lies in, and the
    subtree on the other side. -/
structure Frame (β : Type) where
  dir : Bool
  red : Bool
  x : β
  far : RbTree β

/-- The node of a frame with `t` below it. -/
def Frame.around (f : Frame β) (t : RbTree β) : RbTree β := node f.red f.x (branch f.dir t f.far)

/-- The whole tree; the frames go from the place up. -/
def plug : List (Frame β) → RbTree β → RbTree β
  | [], t => t
  | f :: c, t => plug c (f.around t)

/-- What stands in front of the place, in order. -/
def before : List (Frame β) → List β
  | [] => []
  | f :: c => before c ++ if f.dir then f.far.inorder ++ [f.x] else []

def after : List (Frame β) → List β
  | [] => []
  | f :: c => (if f.dir then [] else f.x :: f.far.inorder) ++ after c

theorem inorder_plug : ∀ (c : List (Frame β)) (t : RbTree β),
    (plug c t).inorder = before c ++ t.inorder ++ after c
  | [], t => by rw [plug, before, after, List.nil_append, List.append_nil]
  | ⟨dir, red, x, far⟩ :: c, t => by
    rw [plug, inorder_plug c, Frame.around, inorder_branch]
    cases dir with
    | true => simp [side, before, after]
    | false => simp [side, before, after]

theorem before_append (c c' : List (Frame β)) : before (c ++ c') = before c' ++ before c := by
  induction c with
  | nil => rw [List.nil_append, before, List.append_nil]
  | cons f c ih => rw [List.cons_append, before, before, ih, List.append_assoc]

theorem after_append (c c' : List (Frame β)) : after (c ++ c') = after c ++ after c' := by
  induction c with
  | nil => rfl
  | cons f c ih => rw [List.cons_append, after, after, ih, List.append_assoc]

/-- What the frames ask of a tree of black height `n` at the place, red if
    `r`, for the whole to be good. -/
def Fits : List (Frame β) → Nat → Bool → Prop
  | [], _, _ => True
  | ⟨_, true, _, far⟩ :: c, n, r => Good n far ∧ r = false ∧ far.isRed = false ∧ Fits c n true
  | ⟨_, false, _, far⟩ :: c, n, _ => Good n far ∧ Fits c (n + 1) false

/-- Every frame lies on a path. -/
theorem height_plug : ∀ (c : List (Frame β)) (t : RbTree β), c.length + t.height ≤ (plug c t).height
  | [], t => by rw [List.length_nil, Nat.zero_add, plug]
  | f :: c, t => by
    have hc := height_plug c (f.around t)
    have hf : t.height + 1 ≤ (f.around t).height := by
      obtain ⟨d, red, x, far⟩ := f
      rw [Frame.around, height]
      cases d with
      | true => exact Nat.succ_le_succ (le_max_right _ _)
      | false => exact Nat.succ_le_succ (le_max_left _ _)
    rw [List.length_cons, plug]
    omega

variable {c : List (Frame β)} {n : Nat} {r : Bool} {d : Bool} {x : β} {t far : RbTree β}

theorem fits_red : Fits (⟨d, true, x, far⟩ :: c) n r ↔
    Good n far ∧ r = false ∧ far.isRed = false ∧ Fits c n true := Iff.rfl

theorem fits_black : Fits (⟨d, false, x, far⟩ :: c) n r ↔ Good n far ∧ Fits c (n + 1) false := Iff.rfl

/-- A black tree fits where another one did. -/
theorem Fits.black (h : Fits c n r) : Fits c n false := by
  rcases c with _ | ⟨⟨d, red, x, far⟩, c⟩
  · trivial
  · cases red with
    | true => exact ⟨h.1, rfl, h.2.2⟩
    | false => exact h

/-- Where a red tree fits any one of its height does. -/
theorem Fits.any (h : Fits c n true) (r : Bool) : Fits c n r := by
  cases r with
  | true => exact h
  | false => exact h.black

theorem Fits.parent_black (h : Fits (⟨d, r, x, far⟩ :: c) n true) : r = false := by
  cases r with
  | true => exact absurd h.2.1 (by decide)
  | false => rfl

theorem Fits.good_far {f : Frame β} (h : Fits (f :: c) n r) : Good n f.far := by
  obtain ⟨d, red, x, far⟩ := f
  cases red with
  | true => exact h.1
  | false => exact h.1

theorem good_plug : ∀ {c : List (Frame β)} {n : Nat} {t : RbTree β}, Good n t → Fits c n t.isRed →
    ∃ m, Good m (plug c t)
  | [], n, _, h, _ => ⟨n, h⟩
  | ⟨d, true, x, far⟩ :: c, n, t, h, hf => by
    obtain ⟨hfar, hr, hfr, hf⟩ := hf
    exact good_plug (c := c) (good_red_branch.mpr ⟨⟨hr, h⟩, hfr, hfar⟩) hf
  | ⟨d, false, x, far⟩ :: c, n, t, h, hf => by
    obtain ⟨hfar, hf⟩ := hf
    exact good_plug (c := c) (good_black_branch.mpr ⟨n, rfl, h, hfar⟩) hf

/-- One step down. -/
theorem Fits.down {kid : Bool → RbTree β} (h : Good n (node r x kid)) (hf : Fits c n r) (d : Bool) :
    ∃ m, Good m (kid d) ∧ Fits (⟨d, r, x, kid (!d)⟩ :: c) m (kid d).isRed := by
  cases r with
  | true => exact ⟨n, (h d).2, (h (!d)).2, (h d).1, (h (!d)).1, hf⟩
  | false =>
    obtain ⟨m, rfl, h⟩ := h
    exact ⟨m, h d, h (!d), hf⟩

/-! ## Section 4: Payloads -/

def Frame.map (f : β → γ) (g : Frame β) : Frame γ := ⟨g.dir, g.red, f g.x, g.far.map f⟩

theorem plug_map (f : β → γ) : ∀ (c : List (Frame β)) (t : RbTree β),
    (plug c t).map f = plug (c.map (Frame.map f)) (t.map f)
  | [], _ => rfl
  | g :: c, t => by
    rw [plug, plug_map f c, List.map_cons, plug]
    congr 1
    simp only [Frame.around, RbTree.map, Frame.map]
    congr 1
    funext b
    exact map_branch g.dir t g.far (RbTree.map f) b

theorem before_map (f : β → γ) (c : List (Frame β)) : before (c.map (Frame.map f)) = (before c).map f := by
  induction c with
  | nil => rfl
  | cons g c ih =>
    rw [List.map_cons, before, before, ih, Frame.map]
    cases g.dir with
    | true => simp [inorder_map]
    | false => simp

theorem after_map (f : β → γ) (c : List (Frame β)) : after (c.map (Frame.map f)) = (after c).map f := by
  induction c with
  | nil => rfl
  | cons g c ih =>
    rw [List.map_cons, after, after, ih, Frame.map]
    cases g.dir with
    | true => simp
    | false => simp [inorder_map]

end RedBlack
