import Mathlib.Algebra.BigOperators.Group.List.Basic
import Mathlib.Logic.Basic
import Mathlib.Order.Basic

/-! # Machines that may abort

    A deterministic step function `σ → ε → Except φ σ`: a state, an event,
    and either the next state or the fault the program stops with.  The
    file collects what every development over such a machine uses:

    * `run`: the fold of `step` over a list of events;
    * `Along`: a condition on the state before each event of a run;
    * the invariant rules for both;
    * `Ends`: what holds of a result, and which faults may come instead;
    * `Simulates`: a fallible computation follows another one, up to a
      set of faults that only the first may raise;
    * `Runs`: the runs of a step that is a relation. -/

namespace Machine

variable {σ ε φ : Type}

/-! ## Section 1: Runs -/

/-- Run the events in order; the first fault ends the run. -/
def run (step : σ → ε → Except φ σ) : σ → List ε → Except φ σ
  | s, [] => .ok s
  | s, e :: es => (step s e).bind fun s' => run step s' es

/-- `P` holds of the state and the event before each step of the run. -/
def Along (step : σ → ε → Except φ σ) (P : σ → ε → Prop) : σ → List ε → Prop
  | _, [] => True
  | s, e :: es => P s e ∧ ∀ s', step s e = .ok s' → Along step P s' es

variable {step : σ → ε → Except φ σ}

@[simp] theorem run_nil (s : σ) : run step s [] = .ok s := rfl

theorem run_cons_ok {s s' : σ} {e : ε} {es : List ε} (h : step s e = .ok s') :
    run step s (e :: es) = run step s' es := by
  simp [run, h, Except.bind]

theorem run_cons_error {s : σ} {e : ε} {es : List ε} {f : φ} (h : step s e = .error f) :
    run step s (e :: es) = .error f := by
  simp [run, h, Except.bind]

theorem run_cons_eq_ok {s s'' : σ} {e : ε} {es : List ε} :
    run step s (e :: es) = .ok s'' ↔ ∃ s', step s e = .ok s' ∧ run step s' es = .ok s'' := by
  cases h : step s e with
  | error f => simp [run_cons_error h]
  | ok s' => simp [run_cons_ok h]

theorem run_append_ok {s s' : σ} {es : List ε} (fs : List ε) (h : run step s es = .ok s') :
    run step s (es ++ fs) = run step s' fs := by
  induction es generalizing s with
  | nil =>
    simp only [run_nil, Except.ok.injEq] at h
    subst h; rfl
  | cons e es ih =>
    obtain ⟨t, ht, hrest⟩ := run_cons_eq_ok.mp h
    rw [List.cons_append, run_cons_ok ht]
    exact ih hrest

/-- The events made of the first results of a list. -/
theorem run_take_succ {ρ : Type} {s s' : σ} {event : ρ → ε} {r : ρ} (rs : List ρ) (n : Nat)
    (h : step s (event r) = .ok s') :
    run step s (((r :: rs).take (n + 1)).map event) = run step s' ((rs.take n).map event) := by
  rw [List.take_succ_cons, List.map_cons, run_cons_ok h]

/-- A run ends with its last step. -/
theorem run_snoc_eq_ok {s s'' : σ} {e : ε} {es : List ε} :
    run step s (es ++ [e]) = .ok s'' ↔ ∃ s', run step s es = .ok s' ∧ step s' e = .ok s'' := by
  induction es generalizing s with
  | nil => simp only [List.nil_append, run_cons_eq_ok, run_nil, Except.ok.injEq, exists_eq_right, exists_eq_left']
  | cons e' es ih =>
    rw [List.cons_append, run_cons_eq_ok]
    constructor
    · rintro ⟨t, ht, hrest⟩
      obtain ⟨s', hs', hlast⟩ := ih.mp hrest
      exact ⟨s', run_cons_eq_ok.mpr ⟨t, ht, hs'⟩, hlast⟩
    · rintro ⟨s', hs', hlast⟩
      obtain ⟨t, ht, hrest⟩ := run_cons_eq_ok.mp hs'
      exact ⟨t, ht, ih.mpr ⟨s', hrest, hlast⟩⟩

/-- The condition can be checked along a run when it can be checked of a
    step. -/
instance decidableAlong {P : σ → ε → Prop} [∀ s e, Decidable (P s e)] :
    ∀ (s : σ) (es : List ε), Decidable (Along step P s es)
  | _, [] => isTrue trivial
  | s, e :: es =>
    match hs : step s e with
    | .ok s' =>
      have := decidableAlong (P := P) s' es
      decidable_of_iff (P s e ∧ Along step P s' es) (by simp [Along, hs])
    | .error _ => decidable_of_iff (P s e) (by simp [Along, hs])

/-! ## Section 2: Invariant rules -/

/-- An invariant of the step is an invariant of the run. -/
theorem run_invariant {I : σ → Prop}
    (hstep : ∀ s e s', I s → step s e = .ok s' → I s') :
    ∀ {es : List ε} {s s' : σ}, I s → run step s es = .ok s' → I s' := by
  intro es
  induction es with
  | nil =>
    intro s s' hI h
    simp only [run_nil, Except.ok.injEq] at h
    exact h ▸ hI
  | cons e es ih =>
    intro s s'' hI h
    obtain ⟨s', hs, hrest⟩ := run_cons_eq_ok.mp h
    exact ih (hstep s e s' hI hs) hrest

/-- The same for runs whose steps all meet the condition `P`. -/
theorem along_invariant {I : σ → Prop} {P : σ → ε → Prop}
    (hstep : ∀ s e s', I s → P s e → step s e = .ok s' → I s') :
    ∀ {es : List ε} {s s' : σ}, I s → Along step P s es → run step s es = .ok s' → I s' := by
  intro es
  induction es with
  | nil =>
    intro s s' hI _ h
    simp only [run_nil, Except.ok.injEq] at h
    exact h ▸ hI
  | cons e es ih =>
    intro s s'' hI hP h
    obtain ⟨s', hs, hrest⟩ := run_cons_eq_ok.mp h
    exact ih (hstep s e s' hI hP.1 hs) (hP.2 s' hs) hrest

/-- The run reaches the event `e` and stops there with the fault `f`. -/
def StopsAt (step : σ → ε → Except φ σ) (s : σ) (es : List ε) (e : ε) (f : φ) : Prop :=
  ∃ before after s', es = before ++ e :: after ∧ run step s before = .ok s' ∧ step s' e = .error f

/-- A run that does not return stops at an event, and up to there the
    invariant and the condition `P` hold. -/
theorem along_error {I : σ → Prop} {P : σ → ε → Prop}
    (hstep : ∀ s e s', I s → P s e → step s e = .ok s' → I s') :
    ∀ {es : List ε} {s : σ} {f : φ}, I s → Along step P s es → run step s es = .error f →
      ∃ before e after s', es = before ++ e :: after ∧ run step s before = .ok s' ∧ I s' ∧ P s' e ∧
        step s' e = .error f := by
  intro es
  induction es with
  | nil => intro s f _ _ h; simp at h
  | cons e es ih =>
    intro s f hI hP h
    cases hs : step s e with
    | error g =>
      rw [run_cons_error hs] at h
      cases h
      exact ⟨[], e, es, s, rfl, rfl, hI, hP.1, hs⟩
    | ok s' =>
      rw [run_cons_ok hs] at h
      obtain ⟨before, e', after, t, rfl, hbefore, hrest⟩ := ih (hstep s e s' hI hP.1 hs) (hP.2 s' hs) h
      exact ⟨e :: before, e', after, t, rfl, (run_cons_ok hs).trans hbefore, hrest⟩

/-- A run that keeps an invariant under which no step raises a fault in `F`
    does not raise one. -/
theorem along_no_fault {I : σ → Prop} {P : σ → ε → Prop} {F : φ → Prop}
    (hstep : ∀ s e s', I s → P s e → step s e = .ok s' → I s')
    (hsafe : ∀ s e f, I s → P s e → step s e = .error f → ¬ F f)
    {es : List ε} {s : σ} {f : φ} (hI : I s) (hP : Along step P s es)
    (h : run step s es = .error f) : ¬ F f := by
  obtain ⟨_, e, _, s', -, -, hI', hP', hs⟩ := along_error hstep hI hP h
  exact hsafe s' e f hI' hP' hs

theorem along_true (s : σ) (es : List ε) : Along step (fun _ _ => True) s es := by
  induction es generalizing s with
  | nil => trivial
  | cons e es ih => exact ⟨trivial, fun s' _ => ih s'⟩

theorem along_mono {P Q : σ → ε → Prop} (hPQ : ∀ s e, P s e → Q s e) :
    ∀ {es : List ε} {s : σ}, Along step P s es → Along step Q s es := by
  intro es
  induction es with
  | nil => exact fun _ => trivial
  | cons e es ih => exact fun h => ⟨hPQ _ _ h.1, fun s' hs => ih (h.2 s' hs)⟩

/-- A condition on the events alone. -/
theorem along_of_forall {P : ε → Prop} {es : List ε} (h : ∀ e ∈ es, P e) (s : σ) :
    Along step (fun _ e => P e) s es := by
  induction es generalizing s with
  | nil => trivial
  | cons e es ih =>
    refine ⟨h e List.mem_cons_self, fun s' _ => ih (fun e' he' => h e' (List.mem_cons_of_mem _ he')) s'⟩

/-- A machine whose every step follows a step of an abstract one, taken under
    a condition `P`, follows it over runs, and does not fault. -/
theorem run_refines_while {τ : Type} {R : σ → τ → Prop} {P : τ → ε → Prop} {astep : τ → ε → τ}
    (hstep : ∀ s t e, R s t → P t e → ∃ s', step s e = .ok s' ∧ R s' (astep t e)) :
    ∀ {es : List ε} {s : σ} {t : τ}, R s t → (∀ pre e post, es = pre ++ e :: post → P (pre.foldl astep t) e) →
      ∃ s', run step s es = .ok s' ∧ R s' (es.foldl astep t) := by
  intro es
  induction es with
  | nil => exact fun h _ => ⟨_, rfl, h⟩
  | cons e es ih =>
    intro s t h hP
    obtain ⟨s', hs, h'⟩ := hstep s t e h (hP [] e es rfl)
    obtain ⟨s'', hrun, h''⟩ := ih h' fun pre e' post heq => hP (e :: pre) e' post (by rw [heq]; rfl)
    exact ⟨s'', by rw [run_cons_ok hs, hrun], h''⟩

theorem run_refines {τ : Type} {R : σ → τ → Prop} {astep : τ → ε → τ}
    (hstep : ∀ s t e, R s t → ∃ s', step s e = .ok s' ∧ R s' (astep t e)) {es : List ε} {s : σ} {t : τ}
    (h : R s t) : ∃ s', run step s es = .ok s' ∧ R s' (es.foldl astep t) :=
  run_refines_while (P := fun _ _ => True) (fun s t e h _ => hstep s t e h) h fun _ _ _ _ => trivial

/-! ## Section 3: Results of fallible computations -/

section results

variable {α β : Type} {F : φ → Prop}

/-- `x` returns something with `P`, or stops with a fault in `F`. -/
def Ends (F : φ → Prop) (P : α → Prop) : Except φ α → Prop
  | .ok a => P a
  | .error f => F f

theorem Ends.bind {P : α → Prop} {Q : β → Prop} {x : Except φ α} {k : α → Except φ β}
    (h : Ends F P x) (hk : ∀ a, x = .ok a → P a → Ends F Q (k a)) : Ends F Q (x.bind k) := by
  match x, h with
  | .ok a, h => exact hk a rfl h
  | .error f, h => exact h

theorem Ends.mono {P Q : α → Prop} {x : Except φ α} (h : Ends F P x) (hPQ : ∀ a, P a → Q a) :
    Ends F Q x := by
  match x, h with
  | .ok a, h => exact hPQ a h
  | .error f, h => exact h

theorem Ends.map {P : β → Prop} {x : Except φ α} (f : α → β) (h : Ends F (fun a => P (f a)) x) :
    Ends F P (x.map f) := by
  match x, h with
  | .ok _, h => exact h
  | .error _, h => exact h

/-- A result is there when something computed from it is. -/
theorem ok_of_map {x : Except φ α} {f : α → β} {b : β} (h : x.map f = .ok b) :
    ∃ a, x = .ok a ∧ f a = b := by
  cases x with
  | ok a => exact ⟨a, rfl, Except.ok.inj h⟩
  | error e => simp [Except.map] at h

/-- And when a sequence that begins with it has a result. -/
theorem ok_of_bind {x : Except φ α} {k : α → Except φ β} {b : β} (h : x.bind k = .ok b) :
    ∃ a, x = .ok a ∧ k a = .ok b := by
  cases x with
  | ok a => exact ⟨a, rfl, h⟩
  | error e => cases h

end results

/-! ## Section 4: Simulation of fallible computations -/

section simulation

variable {α β γ δ : Type} {own : φ → Prop}

/-- `x` follows `y`: both succeed with related results or both stop with
    the same fault, unless `x` stops with one of the faults in `own`, which
    `y` does not have. -/
def Simulates (own : φ → Prop) (R : α → β → Prop) : Except φ α → Except φ β → Prop
  | .ok a, .ok b => R a b
  | .ok _, .error _ => False
  | .error f, .ok _ => own f
  | .error f, .error g => own f ∨ f = g

theorem Simulates.ok {R : α → β → Prop} {a : α} {b : β} (h : R a b) :
    Simulates own R (.ok a) (.ok b) := h

theorem Simulates.error {R : α → β → Prop} (f : φ) :
    Simulates own R (.error f : Except φ α) (.error f : Except φ β) := Or.inr rfl

/-- The rule for sequences; the continuations may use what was computed. -/
theorem Simulates.bind_eq {R : α → β → Prop} {S : γ → δ → Prop} {x : Except φ α} {y : Except φ β}
    {f : α → Except φ γ} {g : β → Except φ δ} (h : Simulates own R x y)
    (hfg : ∀ a b, x = .ok a → y = .ok b → R a b → Simulates own S (f a) (g b)) :
    Simulates own S (x.bind f) (y.bind g) := by
  match x, y, h with
  | .ok a, .ok b, h => exact hfg a b rfl rfl h
  | .error e, .error e', h => exact h
  | .error e, .ok b, h =>
    -- the faults in `own` end `x` whatever `y` goes on to do
    show Simulates own S (.error e) (g b)
    cases g b with
    | ok d => exact h
    | error e' => exact Or.inl h

theorem Simulates.bind {R : α → β → Prop} {S : γ → δ → Prop} {x : Except φ α} {y : Except φ β}
    {f : α → Except φ γ} {g : β → Except φ δ} (h : Simulates own R x y)
    (hfg : ∀ a b, R a b → Simulates own S (f a) (g b)) :
    Simulates own S (x.bind f) (y.bind g) :=
  h.bind_eq fun a b _ _ hab => hfg a b hab

theorem Simulates.mono {R S : α → β → Prop} {x : Except φ α} {y : Except φ β}
    (h : Simulates own R x y) (hRS : ∀ a b, R a b → S a b) : Simulates own S x y := by
  match x, y, h with
  | .ok a, .ok b, h => exact hRS a b h
  | .error _, .error _, h => exact h
  | .error _, .ok _, h => exact h

/-- What the first computation returns is matched by the second one. -/
theorem Simulates.ok_left {R : α → β → Prop} {a : α} {y : Except φ β}
    (h : Simulates own R (.ok a) y) : ∃ b, y = .ok b ∧ R a b := by
  cases y with
  | ok b => exact ⟨b, rfl, h⟩
  | error f => exact h.elim

/-- A result of the second computation is reached by the first one, or it
    stops with one of its own faults. -/
theorem Simulates.ok_right {R : α → β → Prop} {x : Except φ α} {b : β}
    (h : Simulates own R x (.ok b)) :
    (∃ a, x = .ok a ∧ R a b) ∨ ∃ f, x = .error f ∧ own f := by
  cases x with
  | ok a => exact Or.inl ⟨a, rfl, h⟩
  | error f => exact Or.inr ⟨f, rfl, h⟩

/-- A fault of the first computation is its own or one of the second. -/
theorem Simulates.error_left {R : α → β → Prop} {f : φ} {y : Except φ β}
    (h : Simulates own R (.error f) y) : own f ∨ y = .error f := by
  cases y with
  | ok b => exact Or.inl h
  | error g => exact h.imp_right (fun e => by rw [e])

end simulation

/-! ## Section 5: Runs of a relation -/

section relation

variable {next : σ → ε → σ → Prop} {s s' s'' : σ} {e : ε} {es fs : List ε}

/-- The labels of a run whose steps are a relation. -/
inductive Runs (next : σ → ε → σ → Prop) : σ → List ε → σ → Prop where
  | nil (s : σ) : Runs next s [] s
  | cons {s s' s'' : σ} {e : ε} {es : List ε} (h : next s e s') (hrest : Runs next s' es s'') :
      Runs next s (e :: es) s''

theorem Runs.single (h : next s e s') : Runs next s [e] s' := .cons h (.nil s')

theorem Runs.append (h : Runs next s es s') (h' : Runs next s' fs s'') : Runs next s (es ++ fs) s'' := by
  induction h with
  | nil => exact h'
  | cons hstep _ ih => exact .cons hstep (ih h')

/-- **A balance.**  What each step takes from one side it adds to the other. -/
theorem Runs.balance {M : Type} [AddCommMonoid M] {holds : σ → M} {gives takes : ε → M}
    (hstep : ∀ s e s', next s e s' → holds s' + takes e = holds s + gives e) (h : Runs next s es s') :
    holds s' + (es.map takes).sum = holds s + (es.map gives).sum := by
  induction h with
  | nil => rfl
  | @cons s t s' e es hnext _ ih =>
    simp only [List.map_cons, List.sum_cons]
    calc holds s' + (takes e + (es.map takes).sum)
        = holds s' + (es.map takes).sum + takes e := by rw [add_comm (takes e), add_assoc]
      _ = holds t + takes e + (es.map gives).sum := by rw [ih, add_right_comm]
      _ = holds s + (gives e + (es.map gives).sum) := by rw [hstep s e t hnext, add_assoc]

end relation

end Machine
