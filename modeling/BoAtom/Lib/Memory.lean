import BoAtom.Lib.CString

/-! # Memory

    Three kinds of storage of a C program:

    * `overlay`: `memcpy` into a fixed array of bytes;
    * `Heap`: `malloc`ed byte blocks, with `free`, bounded writes and reads
      of blocks that may already have been released;
    * `Pool`: `malloc`ed structures of one type.

    Both allocators hand out a new address every time, so a released block
    is told from a live one by its flag.  What a released block reads as is
    a parameter. -/

namespace Memory

/-! ## Section 1: Byte arrays -/

/-- Copy `src` over the bytes of `b` from offset `off` on. -/
def overlay : Bytes → Nat → Bytes → Bytes
  | [], _, _ => []
  | b, 0, [] => b
  | _ :: b, 0, x :: src => x :: overlay b 0 src
  | c :: b, off + 1, src => c :: overlay b off src

@[simp] theorem length_overlay (b : Bytes) (off : Nat) (src : Bytes) :
    (overlay b off src).length = b.length := by
  induction b generalizing off src with
  | nil => simp [overlay]
  | cons c b ih => cases off <;> cases src <;> simp [overlay, ih]

/-- A copy that fits replaces exactly its own bytes. -/
theorem overlay_eq {b : Bytes} {off : Nat} {src : Bytes} (h : off + src.length ≤ b.length) :
    overlay b off src = b.take off ++ src ++ b.drop (off + src.length) := by
  induction b generalizing off src with
  | nil =>
    simp only [List.length_nil] at h
    have : src = [] := List.eq_nil_of_length_eq_zero (by omega)
    simp [overlay, this]
  | cons c b ih =>
    cases off with
    | zero =>
      cases src with
      | nil => simp [overlay]
      | cons x src =>
        have := @ih 0 src (by simp at h ⊢; omega)
        simp [overlay, this]
    | succ off =>
      have := @ih off src (by simp at h ⊢; omega)
      simp [overlay, this, Nat.succ_add]

theorem take_overlay {b : Bytes} {off : Nat} {src : Bytes} (h : off + src.length ≤ b.length) :
    (overlay b off src).take (off + src.length) = b.take off ++ src := by
  rw [overlay_eq h]
  exact List.take_left' (by simp; omega)

/-- A copy over the middle part of a run of memory. -/
theorem overlay_middle (a : Bytes) {b src : Bytes} (c : Bytes) (h : src.length = b.length) :
    overlay (a ++ b ++ c) a.length src = a ++ src ++ c := by
  have hfits : a.length + src.length ≤ (a ++ b ++ c).length := by
    simp only [List.length_append]
    omega
  rw [overlay_eq hfits, h, ← List.length_append, List.drop_left, List.append_assoc a b c, List.take_left]

/-- A copy into the first part of a run of memory leaves the rest alone. -/
theorem overlay_append {a : Bytes} {off : Nat} {src : Bytes} (h : off + src.length ≤ a.length)
    (x : Bytes) : overlay (a ++ x) off src = overlay a off src ++ x := by
  rw [overlay_eq h, overlay_eq (by rw [List.length_append]; omega),
    List.take_append_of_le_length (by omega), List.drop_append_of_le_length h,
    List.append_assoc _ _ x]

theorem overlay_take {a : Bytes} {off n : Nat} {src : Bytes} (h : off + src.length ≤ n)
    (hn : n ≤ a.length) : (overlay a off src).take n = overlay (a.take n) off src := by
  have hfits : off + src.length ≤ (a.take n).length := by
    rw [List.length_take]
    omega
  have happ := overlay_append hfits (a.drop n)
  rw [List.take_append_drop] at happ
  rw [happ, List.take_left']
  rw [length_overlay, List.length_take, Nat.min_eq_left hn]

/-- Byte by byte. -/
theorem getElem?_overlay (b : Bytes) (off : Nat) (src : Bytes) (i : Nat) :
    (overlay b off src)[i]? =
      if off ≤ i ∧ i < off + src.length ∧ i < b.length then src[i - off]? else b[i]? := by
  induction b generalizing off src i with
  | nil => simp [overlay]
  | cons c b ih =>
    rcases off with _ | off
    · rcases src with _ | ⟨x, src⟩
      · simp [overlay]
      · rcases i with _ | i
        · simp [overlay]
        · simp [overlay, ih]
    · rcases i with _ | i
      · simp [overlay]
      · simp [overlay, ih, Nat.succ_add]

/-- `n` bytes of memory of which `bs` is known; the others read as 0. -/
def readAs (bs : Bytes) (n : Nat) : Bytes := bs.take n ++ List.replicate (n - bs.length) 0

@[simp] theorem length_readAs (bs : Bytes) (n : Nat) : (readAs bs n).length = n := by
  simp [readAs]; omega

@[simp] theorem readAs_length (bs : Bytes) : readAs bs bs.length = bs := by simp [readAs]

theorem readAs_of_le {bs : Bytes} {n : Nat} (h : n ≤ bs.length) : readAs bs n = bs.take n := by
  simp [readAs, Nat.sub_eq_zero_of_le h]

/-! ## Section 2: Byte blocks -/

abbrev Addr := Nat

/-- A block of `size` bytes of which `bytes` have been written so far. -/
structure Block where
  size : Nat
  bytes : Bytes
  live : Bool
  deriving DecidableEq, Repr

structure Heap where
  blocks : List Block
  deriving DecidableEq, Repr

namespace Heap

/-- The block at `a` is live and holds `bs`, written from its start. -/
def Holds (h : Heap) (a : Addr) (n : Nat) (bs : Bytes) : Prop :=
  h.blocks[a]? = some ⟨n, bs, true⟩

/-- `malloc(n)`: the new block and its address. -/
def malloc (h : Heap) (n : Nat) : Addr × Heap :=
  (h.blocks.length, ⟨h.blocks ++ [⟨n, [], true⟩]⟩)

/-- `free(a)`; `none` when the block is not allocated.  `released` gives
    the bytes found in the block from now on. -/
def free (released : Addr → Bytes → Bytes) (h : Heap) (a : Addr) : Option Heap :=
  match h.blocks[a]? with
  | none => none
  | some b =>
    if b.live then some ⟨h.blocks.set a { b with bytes := released a b.bytes, live := false }⟩
    else none

/-- Copy `bs` to offset `off` of the block; `none` outside of it. -/
def store (h : Heap) (a : Addr) (off : Nat) (bs : Bytes) : Option Heap :=
  match h.blocks[a]? with
  | none => none
  | some b =>
    if b.live ∧ off ≤ b.bytes.length ∧ off + bs.length ≤ b.size then
      some ⟨h.blocks.set a
        { b with bytes := b.bytes.take off ++ bs ++ b.bytes.drop (off + bs.length) }⟩
    else none

/-- The first `n` bytes at `a`, whether the block is live or not. -/
def load (h : Heap) (a : Addr) (n : Nat) : Bytes :=
  match h.blocks[a]? with
  | none => readAs [] n
  | some b => readAs b.bytes n

variable {h h' : Heap} {a a' : Addr} {n off : Nat} {bs : Bytes} {released : Addr → Bytes → Bytes}

theorem Holds.lt (hh : h.Holds a n bs) : a < h.blocks.length := by
  unfold Holds at hh
  exact (List.getElem?_eq_some_iff.mp hh).1

theorem load_of_holds (hh : h.Holds a n bs) : h.load a bs.length = bs := by
  unfold Holds at hh
  rw [load, hh]
  exact readAs_length bs

@[simp] theorem length_load : (h.load a n).length = n := by
  unfold load
  split <;> exact length_readAs _ _

theorem malloc_holds (h : Heap) (n : Nat) : (h.malloc n).2.Holds (h.malloc n).1 n [] := by
  simp [malloc, Holds]

theorem free_eq (hh : h.Holds a n bs) : h.free released a =
    some ⟨h.blocks.set a ⟨n, released a bs, false⟩⟩ := by
  unfold Holds at hh
  simp [free, hh]

theorem store_eq (hh : h.Holds a n bs) (cs : Bytes) (hfit : bs.length + cs.length ≤ n) :
    h.store a bs.length cs = some ⟨h.blocks.set a ⟨n, bs ++ cs, true⟩⟩ := by
  unfold Holds at hh
  have hdrop : bs.drop (bs.length + cs.length) = [] := List.drop_eq_nil_of_le (by omega)
  simp [store, hh, hfit, hdrop]

theorem set_holds (ha : a < h.blocks.length) :
    (Heap.mk (h.blocks.set a ⟨n, bs, true⟩)).Holds a n bs := by
  simp [Holds, ha]

theorem set_other {b : Block} (hne : a' ≠ a) :
    (Heap.mk (h.blocks.set a b)).blocks[a']? = h.blocks[a']? := by
  simp [List.getElem?_set_ne hne.symm]

end Heap

/-! ## Section 3: Structures -/

/-- Allocated structures; a pointer is an index, `none` a released one. -/
structure Pool (α : Type) where
  cells : List (Option α)

namespace Pool

variable {α : Type}

def empty : Pool α := ⟨[]⟩

/-- Dereference. -/
def get (p : Pool α) (i : Nat) : Option α := (p.cells[i]?).join

def alloc (p : Pool α) (x : α) : Nat × Pool α := (p.cells.length, ⟨p.cells ++ [some x]⟩)

def set (p : Pool α) (i : Nat) (x : α) : Pool α := ⟨p.cells.set i (some x)⟩

def release (p : Pool α) (i : Nat) : Pool α := ⟨p.cells.set i none⟩

variable {p : Pool α} {i j : Nat} {x y : α}

theorem lt_of_get (h : p.get i = some x) : i < p.cells.length := by
  unfold get at h
  rcases hc : p.cells[i]? with _ | c
  · simp [hc] at h
  · exact (List.getElem?_eq_some_iff.mp hc).1

@[simp] theorem get_empty (i : Nat) : (empty : Pool α).get i = none := by simp [empty, get]

@[simp] theorem get_alloc_new (p : Pool α) (x : α) : (p.alloc x).2.get (p.alloc x).1 = some x := by
  simp [alloc, get]

theorem get_replicate {n : Nat} (hi : i < n) : (Pool.mk (List.replicate n (some x))).get i = some x := by
  rw [get, List.getElem?_replicate_of_lt hi]
  rfl

theorem get_alloc_old (hi : i < p.cells.length) : (p.alloc x).2.get i = p.get i := by
  simp [alloc, get, List.getElem?_append_left hi]

theorem get_alloc_ne (hi : i ≠ p.cells.length) : (p.alloc x).2.get i = p.get i := by
  rcases Nat.lt_or_gt_of_ne hi with hlt | hgt
  · exact get_alloc_old hlt
  · have hnew : (p.alloc x).2.cells.length ≤ i := by simp [alloc]; omega
    unfold get
    rw [List.getElem?_eq_none hnew, List.getElem?_eq_none hgt.le]

theorem get_alloc_of_get (h : p.get i = some y) : (p.alloc x).2.get i = some y := by
  rw [get_alloc_old (lt_of_get h), h]

theorem get_set_self (h : p.get i = some y) : (p.set i x).get i = some x := by
  simp [set, get, lt_of_get h]

@[simp] theorem get_set_ne (h : j ≠ i) : (p.set i x).get j = p.get j := by
  simp [set, get, List.getElem?_set_ne h.symm]

@[simp] theorem get_release_ne (h : j ≠ i) : (p.release i).get j = p.get j := by
  simp [release, get, List.getElem?_set_ne h.symm]

@[simp] theorem get_release_self (p : Pool α) (i : Nat) : (p.release i).get i = none := by
  unfold release get
  by_cases h : i < p.cells.length
  · simp [h]
  · simp [h]

end Pool

end Memory
