import Mathlib.Data.List.Induction

/-! # Histories

    A list of entries, oldest first, in which every entry is judged by the
    entries before it.  What holds of all entries of a history is checked
    entry by entry when the history grows. -/

namespace History

variable {α : Type}

/-- `P` holds of every entry, given the entries before it. -/
def Each (P : List α → α → Prop) (log : List α) : Prop :=
  ∀ before x later, log = before ++ x :: later → P before x

variable {P : List α → α → Prop} {log ext : List α} {x : α}

theorem each_nil : Each P [] := by
  intro before x later h
  simp at h

theorem each_snoc : Each P (log ++ [x]) ↔ Each P log ∧ P log x := by
  constructor
  · intro h
    refine ⟨fun before y later hsplit => h before y (later ++ [x]) ?_, h log x [] rfl⟩
    rw [hsplit]
    simp
  · rintro ⟨h, hx⟩ before y later hsplit
    rcases List.eq_nil_or_concat later with rfl | ⟨later, z, rfl⟩
    · obtain ⟨rfl, hlast⟩ := List.append_inj' hsplit rfl
      cases hlast
      exact hx
    · have hsplit' : log ++ [x] = (before ++ y :: later) ++ [z] := by
        rw [hsplit]
        simp
      exact h before y later (List.append_inj' hsplit' rfl).1

/-- The entries up to one of them form a history too. -/
theorem Each.front (h : Each P (log ++ ext)) : Each P log := by
  intro before x later hsplit
  refine h before x (later ++ ext) ?_
  rw [hsplit, List.append_assoc, List.cons_append]

theorem each_of_getElem (h : ∀ i (hi : i < log.length), P (log.take i) log[i]) : Each P log := by
  rintro before x later rfl
  have hx := h before.length (by simp)
  simpa using hx

/-- Entries that are fine wherever they stand. -/
theorem Each.append (h : Each P log) (hext : ∀ x ∈ ext, ∀ before, P before x) :
    Each P (log ++ ext) := by
  induction ext using List.reverseRec with
  | nil => rwa [List.append_nil]
  | append_singleton ext x ih =>
    rw [← List.append_assoc, each_snoc]
    exact ⟨ih fun y hy => hext y (List.mem_append_left _ hy), hext x (by simp) _⟩

/-- What holds at first and is kept by every entry that meets its condition
    holds at the end. -/
theorem Each.induction {I : List α → Prop} (h : Each P log) (hnil : I [])
    (hsnoc : ∀ before x, I before → P before x → I (before ++ [x])) : I log := by
  induction log using List.reverseRec with
  | nil => exact hnil
  | append_singleton log x ih =>
    obtain ⟨hlog, hx⟩ := each_snoc.mp h
    exact hsnoc log x (ih hlog) hx

end History
