import BoAtom.Lib.Machine
import Mathlib.Logic.Relation

/-! # Loops

    A loop is its body: one turn goes on with a new state, leaves with a
    result, or faults.  `Comes` is what the loop comes to, however many
    turns that takes; it is defined by induction, so a loop that comes to
    something ends.  `iterate` runs a loop with a bound on its turns.

    The rules: a measure that every turn lowers ends the loop
    (`iterate_comes`, `iterate_total`), what every turn keeps holds at the
    end (`Comes.ends`) and two bodies that stay related have related results
    (`iterate_simulates`). -/

namespace Loop

open Machine Relation

variable {σ τ α β φ : Type}

/-! ## Section 1: Bodies -/

/-- What one turn comes to. -/
inductive Turn (σ α : Type) where
  | goes (s : σ)
  | leaves (a : α)

/-- A turn that leaves does so with `P`. -/
def Turn.Leaves (P : α → Prop) : Turn σ α → Prop
  | .goes _ => True
  | .leaves a => P a

/-- The loop goes on from `s` to `s'`. -/
def Goes (body : σ → Except φ (Turn σ α)) (s s' : σ) : Prop := body s = .ok (.goes s')

/-- What the loop comes to from a state. -/
inductive Comes (body : σ → Except φ (Turn σ α)) : σ → Except φ α → Prop where
  | fault {s : σ} {f : φ} (h : body s = .error f) : Comes body s (.error f)
  | leaves {s : σ} {a : α} (h : body s = .ok (.leaves a)) : Comes body s (.ok a)
  | goes {s s' : σ} {out : Except φ α} (h : Goes body s s') (hrest : Comes body s' out) :
      Comes body s out

/-- At most `n` turns; `stuck` where they are not enough. -/
def iterate (body : σ → Except φ (Turn σ α)) (stuck : Except φ α) : Nat → σ → Except φ α
  | 0, _ => stuck
  | n + 1, s => (body s).bind fun
    | .goes s => iterate body stuck n s
    | .leaves a => .ok a

section rules

variable {body : σ → Except φ (Turn σ α)} {s s' : σ} {out out' : Except φ α}
  {stuck : Except φ α}

theorem iterate_goes {n : Nat} (h : Goes body s s') :
    iterate body stuck (n + 1) s = iterate body stuck n s' := by
  unfold Goes at h
  simp only [iterate, h, Except.bind]

/-- What the loop comes to, it comes to from every state on the way. -/
theorem Comes.next (h : Comes body s out) (hg : Goes body s s') : Comes body s' out := by
  cases h with
  | fault hf => cases hg.symm.trans hf
  | leaves hl => cases hg.symm.trans hl
  | goes hg' hrest =>
    cases hg.symm.trans hg'
    exact hrest

theorem Comes.along (h : Comes body s out) (hg : ReflTransGen (Goes body) s s') :
    Comes body s' out := by
  induction hg with
  | refl => exact h
  | tail _ hg ih => exact ih.next hg

theorem Comes.after (hg : ReflTransGen (Goes body) s s') (h : Comes body s' out) :
    Comes body s out := by
  induction hg using ReflTransGen.head_induction_on with
  | refl => exact h
  | head hg _ ih => exact .goes hg ih

theorem Comes.of_fault {f : φ} (h : Comes body s out) (hf : body s = .error f) :
    out = .error f := by
  cases h with
  | fault hf' =>
    cases hf.symm.trans hf'
    rfl
  | leaves hl => cases hf.symm.trans hl
  | goes hg => cases hf.symm.trans hg

theorem Comes.of_leaves {a : α} (h : Comes body s out) (hl : body s = .ok (.leaves a)) :
    out = .ok a := by
  cases h with
  | fault hf => cases hl.symm.trans hf
  | leaves hl' =>
    cases hl.symm.trans hl'
    rfl
  | goes hg => cases hl.symm.trans hg

/-! ## Section 2: Ends of loops -/

/-- **A measure.**  A loop whose every turn lowers `m` comes to an end
    within as many turns. -/
theorem iterate_comes {m : σ → Nat} (hdec : ∀ s s', Goes body s s' → m s' < m s)
    (stuck : Except φ α) : ∀ (n : Nat) (s : σ), m s < n → Comes body s (iterate body stuck n s) := by
  intro n
  induction n with
  | zero => intro s h; omega
  | succ n ih =>
    intro s hlt
    rcases hb : body s with f | (s' | a)
    · have hstop : iterate body stuck (n + 1) s = .error f := by
        simp only [iterate, hb, Except.bind]
      rw [hstop]
      exact .fault hb
    · rw [iterate_goes hb]
      apply Comes.goes hb
      apply ih
      have := hdec s s' hb
      omega
    · have hstop : iterate body stuck (n + 1) s = .ok a := by
        simp only [iterate, hb, Except.bind]
      rw [hstop]
      exact .leaves hb

/-- **Total correctness.**  Every turn keeps `I` at a lower rank, or leaves
    with `P`. -/
theorem iterate_total {I : Nat → σ → Prop} {P : α → Prop}
    (hturn : ∀ m s, I m s → (∃ s' m', Goes body s s' ∧ I m' s' ∧ m' < m) ∨
      ∃ a, body s = .ok (.leaves a) ∧ P a) :
    ∀ (n m : Nat) (s : σ), I m s → m < n → ∃ a, iterate body stuck n s = .ok a ∧ P a := by
  intro n
  induction n with
  | zero => intro m s _ h; omega
  | succ n ih =>
    intro m s hI hlt
    rcases hturn m s hI with ⟨s', m', hg, hI', hm⟩ | ⟨a, hl, hP⟩
    · rw [iterate_goes hg]
      exact ih m' s' hI' (by omega)
    · exact ⟨a, by simp only [iterate, hl, Except.bind], hP⟩

/-- **An invariant.**  What every turn keeps holds where the loop ends. -/
theorem Comes.ends {I : σ → Prop} {F : φ → Prop} {P : α → Prop}
    (hgoes : ∀ s s', I s → Goes body s s' → I s')
    (hend : ∀ s, I s → Ends F (Turn.Leaves P) (body s))
    (h : Comes body s out) (hI : I s) : Ends F P out := by
  induction h with
  | fault hf =>
    have he := hend _ hI
    rw [hf] at he
    exact he
  | leaves hl =>
    have he := hend _ hI
    rw [hl] at he
    exact he
  | goes hg _ ih => exact ih (hgoes _ _ hI hg)

/-- What every turn keeps holds wherever the loop gets to. -/
theorem goes_invariant {I : σ → Prop} (hgoes : ∀ s s', I s → Goes body s s' → I s')
    (h : ReflTransGen (Goes body) s s') (hI : I s) : I s' := by
  induction h with
  | refl => exact hI
  | tail _ hg ih => exact hgoes _ _ ih hg

/-- Does `P` hold wherever the loop gets to within `n` turns, and does it
    end by then? -/
def everywhere (body : σ → Except φ (Turn σ α)) (P : σ → Bool) : Nat → σ → Bool
  | 0, _ => false
  | n + 1, s =>
    P s && match body s with
      | .ok (.goes s') => everywhere body P n s'
      | _ => true

theorem everywhere_sound {P : σ → Bool} : ∀ {n : Nat} {s : σ}, everywhere body P n s = true →
    ReflTransGen (Goes body) s s' → P s' = true := by
  intro n
  induction n with
  | zero =>
    intro s h
    cases h
  | succ n ih =>
    intro s h hreach
    rw [everywhere, Bool.and_eq_true] at h
    rcases hreach.cases_head with rfl | ⟨s₁, hg, hrest⟩
    · exact h.1
    · have hnext := h.2
      rw [show body s = _ from hg] at hnext
      exact ih hnext hrest

end rules

/-! ## Section 3: Two loops -/

/-- Two turns that go on, or leave, together. -/
def TurnSim (R : σ → τ → Prop) (S : α → β → Prop) : Turn σ α → Turn τ β → Prop
  | .goes s, .goes t => R s t
  | .leaves a, .leaves b => S a b
  | _, _ => False

theorem TurnSim.mono {R R' : σ → τ → Prop} {S S' : α → β → Prop} (hR : ∀ s t, R s t → R' s t)
    (hS : ∀ a b, S a b → S' a b) {x : Turn σ α} {y : Turn τ β} (h : TurnSim R S x y) :
    TurnSim R' S' x y := by
  rcases x with s | a
  · rcases y with t | b
    · exact hR s t h
    · exact False.elim h
  · rcases y with t | b
    · exact False.elim h
    · exact hS a b h

/-- **Two bodies in step.** -/
theorem iterate_simulates {own : φ → Prop} {body : σ → Except φ (Turn σ α)}
    {body' : τ → Except φ (Turn τ β)} {R : σ → τ → Prop} {S : α → β → Prop}
    (hturn : ∀ s t, R s t → Simulates own (TurnSim R S) (body s) (body' t)) (f : φ) :
    ∀ (n : Nat) (s : σ) (t : τ), R s t →
      Simulates own S (iterate body (.error f) n s) (iterate body' (.error f) n t) := by
  intro n
  induction n with
  | zero =>
    intro s t _
    exact Simulates.error f
  | succ n ih =>
    intro s t hst
    apply (hturn s t hst).bind
    intro x y hxy
    rcases x with s' | a
    · rcases y with t' | b
      · exact ih s' t' hxy
      · exact False.elim hxy
    · rcases y with t' | b
      · exact False.elim hxy
      · exact hxy

/-- The same, however many turns the loops take.  What is shown of the next
    states may use that the first loop gets there. -/
theorem Comes.simulates {own : φ → Prop} {body : σ → Except φ (Turn σ α)}
    {body' : τ → Except φ (Turn τ β)} {R : σ → τ → Prop} {S : α → β → Prop}
    (hturn : ∀ s t, R s t →
      Simulates own (TurnSim (fun s' t' => Goes body s s' → R s' t') S) (body s) (body' t))
    {s : σ} {t : τ} {out : Except φ α} {out' : Except φ β} (h : Comes body s out)
    (h' : Comes body' t out') (hst : R s t) : Simulates own S out out' := by
  induction h generalizing t with
  | @fault s f hf =>
    have hsim := hturn s t hst
    rw [hf] at hsim
    rcases hsim.error_left with hown | hf'
    · cases out' with
      | ok b => exact hown
      | error g => exact Or.inl hown
    · rw [h'.of_fault hf']
      exact Simulates.error f
  | @leaves s a hl =>
    have hsim := hturn s t hst
    rw [hl] at hsim
    obtain ⟨y, hy, hab⟩ := hsim.ok_left
    rcases y with t' | b
    · exact False.elim hab
    · rw [h'.of_leaves hy]
      exact hab
  | @goes s s' out hg _ ih =>
    have hsim := hturn s t hst
    rw [show body s = _ from hg] at hsim
    obtain ⟨y, hy, hst'⟩ := hsim.ok_left
    rcases y with t' | b
    · exact ih (h'.next hy) (hst' hg)
    · exact False.elim hst'

end Loop
