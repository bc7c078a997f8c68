import Mathlib.Data.List.Basic

/-! # Comparison functions

    A comparison function in the manner of C: negative, zero or positive.
    `TotalPreorder` is what a sorted structure asks of it.  The last two
    lemmas find the sides of a cut in a sorted list from the two elements
    next to the cut. -/

namespace Comparison

variable {α : Type} {cmp : α → α → Int}

/-- The signs of `cmp` come from a total preorder. -/
structure TotalPreorder (cmp : α → α → Int) : Prop where
  swap : ∀ a b, cmp a b < 0 ↔ 0 < cmp b a
  trans : ∀ a b c, cmp a b ≤ 0 → cmp b c ≤ 0 → cmp a c ≤ 0

theorem TotalPreorder.refl (h : TotalPreorder cmp) (a : α) : cmp a a = 0 := by
  have := h.swap a a
  omega

theorem TotalPreorder.ge_of_not_lt (h : TotalPreorder cmp) {a b : α} (hn : ¬ cmp a b < 0) :
    cmp b a ≤ 0 := by
  have := h.swap a b
  omega

theorem TotalPreorder.eq_comm (h : TotalPreorder cmp) {a b : α} : cmp a b = 0 ↔ cmp b a = 0 := by
  have := h.swap a b
  have := h.swap b a
  omega

theorem TotalPreorder.lt_of_le_of_lt (h : TotalPreorder cmp) {a b c : α} (hab : cmp a b ≤ 0)
    (hbc : cmp b c < 0) : cmp a c < 0 := by
  by_contra hn
  have hca := h.ge_of_not_lt hn
  have hcb := h.trans c a b hca hab
  have := h.swap b c
  omega

theorem TotalPreorder.lt_of_lt_of_le (h : TotalPreorder cmp) {a b c : α} (hab : cmp a b < 0)
    (hbc : cmp b c ≤ 0) : cmp a c < 0 := by
  by_contra hn
  have hca := h.ge_of_not_lt hn
  have hba := h.trans b c a hbc hca
  have := h.swap a b
  omega

/-! ## Cuts in a sorted list -/

variable {ι : Type} {r : ι → ι → Prop} {P : ι → Prop} {l : List ι}

/-- What holds of the last element and is passed on to smaller ones. -/
theorem forall_of_last (hs : l.Pairwise r) (hP : ∀ a b, r a b → P b → P a)
    (hlast : ∀ e, l.getLast? = some e → P e) : ∀ a ∈ l, P a := by
  intro a ha
  obtain ⟨c, d, rfl⟩ := List.append_of_mem ha
  rcases hd : d.getLast? with _ | e
  · apply hlast
    rw [List.getLast?_append, List.getLast?_cons, hd]
    rfl
  · have he : P e := by
      apply hlast
      rw [List.getLast?_append, List.getLast?_cons, hd]
      rfl
    have hle := (List.pairwise_append.mp hs).2.1
    exact hP a e ((List.pairwise_cons.mp hle).1 e (List.mem_of_getLast? hd)) he

/-- What fails for the first element and is passed on to smaller ones. -/
theorem forall_not_of_head (hs : l.Pairwise r) (hP : ∀ a b, r a b → P b → P a)
    (hhead : ∀ f, l.head? = some f → ¬ P f) : ∀ a ∈ l, ¬ P a := by
  intro a ha hPa
  cases l with
  | nil => simp at ha
  | cons f l =>
    rcases List.mem_cons.mp ha with rfl | ha
    · exact hhead a rfl hPa
    · exact hhead f rfl (hP f a ((List.pairwise_cons.mp hs).1 a ha) hPa)

end Comparison
