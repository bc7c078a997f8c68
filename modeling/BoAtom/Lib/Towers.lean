import Mathlib.Data.List.DropRight

/-! # Towers

    A list whose elements have heights.  The elements higher than `i` form
    the chain at level `i`, and level 0 is meant to be the whole list.

    * `Low`: no element of a list is on level `i`;
    * `hop`: from a place in the list, the next element on level `i` and its
      distance;
    * `foot`: the list up to its last element on level `i`.

    The lemmas say how both change when lists are appended. -/

namespace Towers

variable {ι : Type} (height : ι → Nat)

/-! ## Section 1: Hops -/

/-- No element of `l` is on level `i`. -/
def Low (i : Nat) (l : List ι) : Prop := ∀ e ∈ l, height e ≤ i

/-- The next element on level `i` and its distance; the number of elements
    where there is none. -/
def hop (i : Nat) : List ι → Option ι × Nat
  | [] => (none, 0)
  | e :: l => if i < height e then (some e, 1) else ((hop i l).1, (hop i l).2 + 1)

/-- The list up to its last element on level `i`. -/
def foot (i : Nat) (l : List ι) : List ι := l.rdropWhile fun e => decide (height e ≤ i)

variable {height} {i j : Nat} {l m : List ι} {e f : ι}

@[simp] theorem low_nil : Low height i ([] : List ι) := by simp [Low]

@[simp] theorem low_cons : Low height i (e :: l) ↔ height e ≤ i ∧ Low height i l := by simp [Low]

@[simp] theorem low_append : Low height i (l ++ m) ↔ Low height i l ∧ Low height i m := by
  simp [Low, or_imp, forall_and]

theorem Low.mono (h : Low height i l) (hij : i ≤ j) : Low height j l :=
  fun e he => (h e he).trans hij

@[simp] theorem hop_nil : hop height i [] = (none, 0) := rfl

theorem hop_cons_high (h : i < height e) : hop height i (e :: l) = (some e, 1) := by
  simp [hop, h]

theorem hop_append_low (h : Low height i l) (m : List ι) :
    hop height i (l ++ m) = ((hop height i m).1, l.length + (hop height i m).2) := by
  induction l with
  | nil => simp
  | cons e l ih =>
    have he : ¬ i < height e := Nat.not_lt.mpr (h e List.mem_cons_self)
    have hl : Low height i l := (low_cons.mp h).2
    rw [List.cons_append, hop, if_neg he, ih hl, List.length_cons]
    simp only [Prod.mk.injEq, true_and]
    omega

/-- What lies behind an element on the level does not matter. -/
theorem hop_append_high (h : ¬ Low height i l) (m : List ι) :
    hop height i (l ++ m) = hop height i l := by
  induction l with
  | nil => simp at h
  | cons e l ih =>
    by_cases he : i < height e
    · rw [List.cons_append, hop_cons_high he, hop_cons_high he]
    · have hl : ¬ Low height i l := fun hl => h (low_cons.mpr ⟨Nat.le_of_not_lt he, hl⟩)
      rw [List.cons_append, hop, hop, if_neg he, if_neg he, ih hl]

theorem hop_low (h : Low height i l) : hop height i l = (none, l.length) := by
  have happend := hop_append_low h []
  simpa using happend

theorem hop_none_iff : (hop height i l).1 = none ↔ Low height i l := by
  constructor
  · intro h
    induction l with
    | nil => exact low_nil
    | cons e l ih =>
      by_cases he : i < height e
      · simp [hop_cons_high he] at h
      · rw [hop, if_neg he] at h
        exact low_cons.mpr ⟨Nat.le_of_not_lt he, ih h⟩
  · intro h
    rw [hop_low h]

/-- Where a hop lands. -/
theorem hop_some (h : (hop height i l).1 = some f) :
    ∃ low rest, l = low ++ f :: rest ∧ Low height i low ∧ i < height f ∧
      (hop height i l).2 = low.length + 1 := by
  induction l with
  | nil => simp at h
  | cons e l ih =>
    by_cases he : i < height e
    · rw [hop_cons_high he] at h ⊢
      cases h
      exact ⟨[], l, rfl, low_nil, he, rfl⟩
    · rw [hop, if_neg he] at h
      obtain ⟨low, rest, hl, hlow, hf, hdist⟩ := ih h
      have hcons : Low height i (e :: low) := low_cons.mpr ⟨Nat.le_of_not_lt he, hlow⟩
      refine ⟨e :: low, rest, by rw [hl, List.cons_append], hcons, hf, ?_⟩
      rw [hop, if_neg he, List.length_cons]
      simp [hdist]

theorem hop_le_length : (hop height i l).2 ≤ l.length := by
  induction l with
  | nil => simp
  | cons e l ih =>
    rw [hop, List.length_cons]
    split
    · simp
    · simp only
      omega

/-! ## Section 2: Feet -/

@[simp] theorem foot_nil : foot height i ([] : List ι) = [] := List.rdropWhile_nil _

theorem foot_concat_high (h : i < height e) : foot height i (l ++ [e]) = l ++ [e] := by
  unfold foot
  rw [List.rdropWhile_concat_neg _ _ _ (by simpa using h)]

theorem foot_append_low (h : Low height i m) : foot height i (l ++ m) = foot height i l := by
  induction m using List.reverseRec with
  | nil => rw [List.append_nil]
  | append_singleton m e ih =>
    obtain ⟨hm, he⟩ := low_append.mp h
    have he : height e ≤ i := (low_cons.mp he).1
    unfold foot at ih ⊢
    rw [← List.append_assoc, List.rdropWhile_concat_pos _ _ _ (by simpa using he), ih hm]

theorem foot_append_high (h : ¬ Low height i m) : foot height i (l ++ m) = l ++ foot height i m := by
  induction m using List.reverseRec with
  | nil => simp at h
  | append_singleton m e ih =>
    by_cases he : i < height e
    · rw [← List.append_assoc, foot_concat_high he, foot_concat_high he, List.append_assoc]
    · have hlow : Low height i [e] := by simpa using he
      have hm : ¬ Low height i m := fun hm => h (low_append.mpr ⟨hm, hlow⟩)
      rw [← List.append_assoc, foot_append_low hlow, foot_append_low hlow, ih hm]

/-- A list is cut behind its foot. -/
theorem foot_split (height : ι → Nat) (i : Nat) (l : List ι) :
    ∃ low, l = foot height i l ++ low ∧ Low height i low := by
  refine ⟨l.rtakeWhile fun e => decide (height e ≤ i),
    List.rdropWhile_append_rtakeWhile.symm, fun e he => ?_⟩
  simpa using List.mem_rtakeWhile_imp he

/-- So is a longer one: only low elements stand between the foot and the rest. -/
theorem foot_cut (height : ι → Nat) (i : Nat) (l rest : List ι) :
    ∃ low, l ++ rest = foot height i l ++ (low ++ rest) ∧ l = foot height i l ++ low ∧
      Low height i low := by
  obtain ⟨low, hl, hlow⟩ := foot_split height i l
  exact ⟨low, by rw [← List.append_assoc, ← hl], hl, hlow⟩

theorem foot_append_ne (h : ¬ Low height i m) : foot height i (l ++ m) ≠ l := by
  intro heq
  rw [foot_append_high h] at heq
  obtain ⟨low, hm, hlow⟩ := foot_split height i m
  rw [List.append_right_eq_self.mp heq, List.nil_append] at hm
  exact h (hm ▸ hlow)

/-- The foot is the list itself, unless its last element is too low. -/
theorem foot_eq_self (h : ∀ e, l.getLast? = some e → i < height e) : foot height i l = l := by
  induction l using List.reverseRec with
  | nil => exact foot_nil
  | append_singleton l e _ => exact foot_concat_high (h e List.getLast?_concat)

/-- Its last element is on the level. -/
theorem foot_last (h : (foot height i l).getLast? = some e) : i < height e := by
  induction l using List.reverseRec with
  | nil => simp at h
  | append_singleton l f ih =>
    by_cases hf : i < height f
    · rw [foot_concat_high hf, List.getLast?_concat, Option.some.injEq] at h
      exact h ▸ hf
    · rw [foot_append_low (by simpa using hf)] at h
      exact ih h

end Towers
