import BoAtom.Lib.History
import BoAtom.Lib.Machine
import BoAtom.Lib.Memory
import Mathlib.Data.List.Nodup

/-! # Linked queues

    Structures in a pool, linked by a `next` field, with a pointer to the
    first of them and one to the last.

    * `Chain`: what the `next` pointers run through;
    * `Fifo`: a chain to NULL, without repetition, and its tail;
    * the rules for inserting behind the last structure, for inserting into
      the empty queue and for deleting in front;
    * `Keeps`: two operations that keep such a queue in a state, and the rule
      for sequences of their calls. -/

namespace LinkedQueue

open Memory Machine History

variable {ν : Type} (next : ν → Option Nat)

/-! ## Section 1: Chains -/

/-- From `q` the `next` pointers run through `l` and end in `after`. -/
def Chain (cells : Pool ν) : Option Nat → List Nat → Option Nat → Prop
  | q, [], after => q = after
  | q, p :: l, after => q = some p ∧ ∃ x, cells.get p = some x ∧ Chain cells (next x) l after

variable {next} {cells cells' : Pool ν} {q after : Option Nat} {l m : List Nat} {p t : Nat} {x y : ν}

@[simp] theorem chain_nil : Chain next cells q [] after ↔ q = after := Iff.rfl

@[simp] theorem chain_cons : Chain next cells q (p :: l) after ↔
    q = some p ∧ ∃ x, cells.get p = some x ∧ Chain next cells (next x) l after := Iff.rfl

theorem chain_append : Chain next cells q (l ++ m) after ↔
    ∃ mid, Chain next cells q l mid ∧ Chain next cells mid m after := by
  induction l generalizing q with
  | nil => simp
  | cons p l ih =>
    simp only [List.cons_append, chain_cons, ih]
    constructor
    · rintro ⟨hq, x, hx, mid, hl, hm⟩
      exact ⟨mid, ⟨hq, x, hx, hl⟩, hm⟩
    · rintro ⟨mid, ⟨hq, x, hx, hl⟩, hm⟩
      exact ⟨hq, x, hx, mid, hl, hm⟩

/-- Only the structures of the chain count. -/
theorem Chain.congr (h : Chain next cells q l after) (hsame : ∀ p ∈ l, cells'.get p = cells.get p) :
    Chain next cells' q l after := by
  induction l generalizing q with
  | nil => exact h
  | cons p l ih =>
    obtain ⟨hq, x, hx, hl⟩ := h
    exact ⟨hq, x, (hsame p List.mem_cons_self).trans hx,
      ih hl fun p' hp' => hsame p' (List.mem_cons_of_mem _ hp')⟩

theorem Chain.live (h : Chain next cells q l after) (hp : p ∈ l) : ∃ x, cells.get p = some x := by
  induction l generalizing q with
  | nil => simp at hp
  | cons p' l ih =>
    obtain ⟨-, x, hx, hl⟩ := h
    rcases List.mem_cons.mp hp with rfl | hp
    · exact ⟨x, hx⟩
    · exact ih hl hp

/-- The pointers run through one list only. -/
theorem Chain.unique (h : Chain next cells q l none) (h' : Chain next cells q m none) : l = m := by
  induction l generalizing q m with
  | nil =>
    obtain rfl : q = none := h
    rcases m with _ | ⟨p, m⟩
    · rfl
    · simp at h'
  | cons p l ih =>
    obtain ⟨rfl, x, hx, hl⟩ := h
    rcases m with _ | ⟨p', m⟩
    · simp at h'
    · obtain ⟨hp, x', hx', hm⟩ := h'
      obtain rfl := Option.some.inj hp
      obtain rfl := Option.some.inj (hx.symm.trans hx')
      rw [ih hl hm]

theorem Chain.set_ne (h : Chain next cells q l after) (hp : p ∉ l) : Chain next (cells.set p x) q l after := by
  refine h.congr fun p' hp' => Pool.get_set_ne ?_
  rintro rfl
  exact hp hp'

/-- The last `next` of a chain is redirected. -/
theorem Chain.set_last (h : Chain next cells q (l ++ [t]) after) (ht : t ∉ l) :
    Chain next (cells.set t x) q (l ++ [t]) (next x) := by
  obtain ⟨mid, hl, hmid, y, hy, -⟩ := chain_append.mp h
  exact chain_append.mpr ⟨mid, hl.set_ne ht, hmid, x, Pool.get_set_self hy, rfl⟩

/-! ## Section 2: Queues -/

/-- The structures from `head` on are exactly `l`, and `tail` is the last
    of them. -/
structure Fifo (next : ν → Option Nat) (cells : Pool ν) (head tail : Option Nat) (l : List Nat) : Prop where
  chain : Chain next cells head l none
  tail : tail = l.getLast?
  nodup : l.Nodup

variable {head tail : Option Nat}

theorem fifo_nil (next : ν → Option Nat) (cells : Pool ν) : Fifo next cells none none [] :=
  ⟨rfl, rfl, List.nodup_nil⟩

theorem Fifo.head_eq (h : Fifo next cells head tail l) : head = l.head? := by
  rcases l with _ | ⟨p, l⟩
  · exact h.chain
  · exact h.chain.1

theorem Fifo.head_none (h : Fifo next cells head tail l) : head = none ↔ l = [] := by
  rw [h.head_eq, List.head?_eq_none_iff]

theorem Fifo.tail_none (h : Fifo next cells head tail l) : tail = none ↔ l = [] := by
  rw [h.tail, List.getLast?_eq_none_iff]

/-- Insertion into the empty queue. -/
theorem fifo_singleton (hp : cells.get p = some y) (hx : next x = none) :
    Fifo next (cells.set p x) (some p) (some p) [p] :=
  ⟨⟨rfl, x, Pool.get_set_self hp, hx⟩, rfl, List.nodup_singleton p⟩

/-- The structure `p` is linked behind the last one: the chain gets longer
    by it, whatever becomes of the tail. -/
theorem Fifo.chain_push (h : Fifo next cells head (some t) l) (hp : cells.get p = some y) (hnew : p ∉ l)
    {last : ν} (hlast : next last = some p) (hx : next x = none) :
    Chain next ((cells.set t last).set p x) head (l ++ [p]) none := by
  obtain ⟨l, rfl⟩ := List.getLast?_eq_some_iff.mp h.tail.symm
  have hnodup : (l ++ [t]).Nodup := h.nodup
  have ht : t ∉ l := fun ht => (List.nodup_append.mp hnodup).2.2 t ht t (by simp) rfl
  have hpt : p ≠ t := by
    rintro rfl
    exact hnew (by simp)
  have hold : Chain next (cells.set t last) head (l ++ [t]) (some p) := hlast ▸ h.chain.set_last ht
  have hget : (cells.set t last).get p = some y := (Pool.get_set_ne hpt).trans hp
  exact chain_append.mpr ⟨some p, hold.set_ne hnew, rfl, x, Pool.get_set_self hget, hx⟩

/-- Insertion behind the last structure, with the tail moved. -/
theorem Fifo.push (h : Fifo next cells head (some t) l) (hp : cells.get p = some y) (hnew : p ∉ l)
    {last : ν} (hlast : next last = some p) (hx : next x = none) :
    Fifo next ((cells.set t last).set p x) head (some p) (l ++ [p]) :=
  ⟨h.chain_push hp hnew hlast hx, List.getLast?_concat.symm,
    List.nodup_append.mpr ⟨h.nodup, List.nodup_singleton p, fun a ha b hb => by
      rintro rfl
      exact hnew (List.mem_singleton.mp hb ▸ ha)⟩⟩

/-- Deletion in front: the tail becomes NULL with the last structure. -/
theorem Fifo.pop (h : Fifo next cells (some p) tail l) (hp : cells.get p = some x) :
    Fifo next (cells.release p) (next x) (if some p = tail then none else tail) l.tail := by
  obtain ⟨m, rfl⟩ : ∃ m, l = p :: m := List.head?_eq_some_iff.mp h.head_eq.symm
  obtain ⟨hpm, hm⟩ := List.nodup_cons.mp h.nodup
  obtain ⟨-, x', hx', hchain⟩ := h.chain
  obtain rfl := Option.some.inj (hp.symm.trans hx')
  refine ⟨hchain.congr fun p' hp' => Pool.get_release_ne ?_, ?_, hm⟩
  · rintro rfl
    exact hpm hp'
  · rw [h.tail]
    rcases List.eq_nil_or_concat m with rfl | ⟨m, z, rfl⟩
    · simp
    · -- the last structure stands behind `p` and is another one
      have hz : p ≠ z := by
        rintro rfl
        exact hpm (by simp)
      simp [List.getLast?_cons, hz]

/-! ## Section 3: Sequences of calls -/

inductive QueueCall where
  | insert (p : Nat)
  | deleteHead
  deriving DecidableEq, Repr

def QueueCall.inserted : QueueCall → Option Nat
  | .insert p => some p
  | .deleteHead => none

/-- What is to be in the queue after a call. -/
def QueueCall.apply (l : List Nat) : QueueCall → List Nat
  | .insert p => l ++ [p]
  | .deleteHead => l.tail

/-- The structures the calls insert. -/
def insertions (calls : List QueueCall) : List Nat := calls.filterMap QueueCall.inserted

/-- Those of them not deleted yet, in the order of insertion. -/
def held (calls : List QueueCall) : List Nat := calls.foldl QueueCall.apply []

/-- Where a state has a queue. -/
structure Place (σ ν : Type) where
  next : ν → Option Nat
  cells : σ → Pool ν
  head : σ → Option Nat
  tail : σ → Option Nat

variable {σ φ : Type}

namespace Place

def Holds (q : Place σ ν) (s : σ) (l : List Nat) : Prop := Fifo q.next (q.cells s) (q.head s) (q.tail s) l

/-- The queue is exactly `l`, and NULL pointers tell that it is empty. -/
structure Exact (q : Place σ ν) (s : σ) (l : List Nat) : Prop where
  holds : q.Holds s l
  head_none : q.head s = none ↔ l = []
  tail_none : q.tail s = none ↔ l = []

/-- After each of the calls the queue is what is held then. -/
def IsFifo (q : Place σ ν) (step : σ → QueueCall → Except φ σ) (start : σ) (calls : List QueueCall) : Prop :=
  ∀ before later, calls = before ++ later → ∃ s, run step start before = .ok s ∧ q.Exact s (held before)

/-- The queue is empty, and the structures to be inserted are different and
    allocated. -/
structure Fresh (q : Place σ ν) (start : σ) (calls : List QueueCall) : Prop where
  head : q.head start = none
  tail : q.tail start = none
  nodup : (insertions calls).Nodup
  live : ∀ p ∈ insertions calls, ∃ x, (q.cells start).get p = some x

/-- The operations work on a queue, provided that an insertion finds it with
    `P`, and touch no structure that is not in it. -/
structure Keeps (q : Place σ ν) (step : σ → QueueCall → Except φ σ) (P : List Nat → Prop) : Prop where
  insert : ∀ {s l p x}, q.Holds s l → P l → p ∉ l → (q.cells s).get p = some x →
    ∃ s', step s (.insert p) = .ok s' ∧ q.Holds s' (l ++ [p]) ∧
      ∀ i ∉ l, i ≠ p → (q.cells s').get i = (q.cells s).get i
  deleteHead : ∀ {s l}, q.Holds s l → ∃ s', step s .deleteHead = .ok s' ∧ q.Holds s' l.tail ∧
    ∀ i ∉ l, (q.cells s').get i = (q.cells s).get i

end Place

/-- Every insertion finds what is held then with `P`. -/
def InsertsWhen (P : List Nat → Prop) (calls : List QueueCall) : Prop :=
  Each (fun before call => ∀ p, call = .insert p → P (held before)) calls

variable {calls : List QueueCall} {call : QueueCall} {place : Place σ ν} {step : σ → QueueCall → Except φ σ}
  {start s : σ} {P : List Nat → Prop}

@[simp] theorem held_nil : held [] = [] := rfl

@[simp] theorem held_snoc (calls : List QueueCall) (call : QueueCall) :
    held (calls ++ [call]) = call.apply (held calls) := by
  simp [held]

theorem insertions_snoc_insert (calls : List QueueCall) (p : Nat) :
    insertions (calls ++ [.insert p]) = insertions calls ++ [p] := by
  simp [insertions, QueueCall.inserted]

theorem insertions_snoc_deleteHead (calls : List QueueCall) :
    insertions (calls ++ [.deleteHead]) = insertions calls := by
  simp [insertions, QueueCall.inserted]

theorem mem_insertions (h : p ∈ held calls) : p ∈ insertions calls := by
  induction calls using List.reverseRecOn with
  | nil => simp at h
  | append_singleton calls call ih =>
    rw [held_snoc] at h
    cases call with
    | insert p' =>
      rw [insertions_snoc_insert]
      rcases List.mem_append.mp h with h | h
      · exact List.mem_append_left _ (ih h)
      · exact List.mem_append_right _ h
    | deleteHead =>
      rw [insertions_snoc_deleteHead]
      exact ih (List.mem_of_mem_tail h)

theorem not_mem_insertions (h : (insertions (calls ++ [.insert p])).Nodup) : p ∉ insertions calls := by
  intro hp
  rw [insertions_snoc_insert, List.nodup_append] at h
  exact h.2.2 p hp p (by simp) rfl

/-- What is inserted next is not in the queue. -/
theorem not_mem_held (h : (insertions (calls ++ [.insert p])).Nodup) : p ∉ held calls :=
  fun hp => not_mem_insertions h (mem_insertions hp)

theorem Place.Holds.exact (h : place.Holds s l) : place.Exact s l := ⟨h, h.head_none, h.tail_none⟩

theorem Place.Fresh.front {later : List QueueCall} (h : place.Fresh start (calls ++ later)) :
    place.Fresh start calls := by
  obtain ⟨hhead, htail, hnodup, hlive⟩ := h
  rw [insertions, List.filterMap_append] at hnodup hlive
  exact ⟨hhead, htail, (List.nodup_append.mp hnodup).1, fun p hp => hlive p (List.mem_append_left _ hp)⟩

/-- A run of calls, with what it leaves alone. -/
theorem Place.Keeps.runs (h : place.Keeps step P) (hwhen : InsertsWhen P calls) (hfresh : place.Fresh start calls) :
    ∃ s, run step start calls = .ok s ∧ place.Holds s (held calls) ∧
      ∀ i ∉ insertions calls, (place.cells s).get i = (place.cells start).get i := by
  -- by induction on the calls: the structures still to be inserted are as they were
  refine hwhen.induction (I := fun calls => place.Fresh start calls → ∃ s, run step start calls = .ok s ∧
    place.Holds s (held calls) ∧ ∀ i ∉ insertions calls, (place.cells s).get i = (place.cells start).get i) ?_ ?_ hfresh
  · intro hfresh
    refine ⟨start, rfl, ?_, fun _ _ => rfl⟩
    rw [Place.Holds, hfresh.head, hfresh.tail]
    exact fifo_nil _ _
  · intro before call ih hcall hfresh
    obtain ⟨s, hrun, hholds, hsame⟩ := ih hfresh.front
    rw [held_snoc]
    cases call with
    | insert p =>
      have hnew := not_mem_held hfresh.nodup
      have hp := not_mem_insertions hfresh.nodup
      obtain ⟨x, hx⟩ := hfresh.live p (by rw [insertions_snoc_insert]; simp)
      obtain ⟨s', hstep, hholds', hsame'⟩ := h.insert hholds (hcall p rfl) hnew ((hsame p hp).trans hx)
      refine ⟨s', run_snoc_eq_ok.mpr ⟨s, hrun, hstep⟩, hholds', fun i hi => ?_⟩
      rw [insertions_snoc_insert, List.mem_append, not_or, List.mem_singleton] at hi
      exact (hsame' i (fun hmem => hi.1 (mem_insertions hmem)) hi.2).trans (hsame i hi.1)
    | deleteHead =>
      obtain ⟨s', hstep, hholds', hsame'⟩ := h.deleteHead hholds
      refine ⟨s', run_snoc_eq_ok.mpr ⟨s, hrun, hstep⟩, hholds', fun i hi => ?_⟩
      rw [insertions_snoc_deleteHead] at hi
      exact (hsame' i fun hmem => hi (mem_insertions hmem)).trans (hsame i hi)

/-- **The rule**: operations that keep a queue are first in, first out over
    every sequence of calls. -/
theorem Place.Keeps.isFifo (h : place.Keeps step P) (hwhen : InsertsWhen P calls)
    (hfresh : place.Fresh start calls) : place.IsFifo step start calls := by
  rintro before later rfl
  obtain ⟨s, hrun, hholds, -⟩ := h.runs hwhen.front hfresh.front
  exact ⟨s, hrun, hholds.exact⟩

end LinkedQueue
