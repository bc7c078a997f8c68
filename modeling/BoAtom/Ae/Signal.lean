import Mathlib.Tactic.IntervalCases
import BoAtom.Ae.FileEvent
import BoAtom.Fault
import BoAtom.Lib.History
import BoAtom.Lib.Machine

/-! # ae/ae.c, signal events

    The table of signal events of an event loop, and the actions the kernel
    has for the signals of the process.  `aeCreateSignalEvent` saves the
    action it replaces in the slot of the signal, each time it is called;
    `aeDeleteSignalEvent` installs what the slot holds.

    A signal that is created again while it is registered has the handler of
    the loop for its saved action from then on (`Stands`), and no deletion
    gets the first action back. -/

namespace BoAtom

open Machine History

/-! ## Section 1: The two calls -/

def aeSignum : Int := 64

/-- A `struct sigaction`: the one that `aeCreateSignalEvent` installs, with
    `_aeSignalPreProc`, or another. -/
inductive SigAction (A : Type) where
  | preProc
  | other (a : A)
  deriving DecidableEq, Repr

structure AeSignalEvent (P D A : Type) where
  sigProc : Option P
  clientData : Option D
  /-- Not set before the first call: the table is `malloc`ed. -/
  oact : SigAction A
  deriving DecidableEq, Repr

/-- `sigevents`, and the actions of the process. -/
structure Signals (P D A : Type) where
  sigevents : Int → AeSignalEvent P D A
  actions : Int → SigAction A

variable {P D A : Type}

def Signals.update (s : Signals P D A) (sig : Int) (se : AeSignalEvent P D A) : Signals P D A :=
  { s with sigevents := fun i => if i = sig then se else s.sigevents i }

def Signals.install (s : Signals P D A) (sig : Int) (act : SigAction A) : Signals P D A :=
  { s with actions := fun i => if i = sig then act else s.actions i }

/-- `sigaction`: the action before.  The kernel has signals whose action
    cannot be changed, such as `SIGKILL`. -/
def sigaction (refuses : Int → Bool) (s : Signals P D A) (sig : Int) (act : SigAction A) :
    Option (SigAction A × Signals P D A) :=
  if refuses sig then none else some (s.actions sig, s.install sig act)

def aeCreateSignalEvent (refuses : Int → Bool) (s : Signals P D A) (sig : Int) (proc : Option P)
    (clientData : Option D) : AeStatus × Signals P D A :=
  if sig ≤ 0 ∨ sig ≥ aeSignum then (.err, s)
  else
    let s := s.update sig { s.sigevents sig with sigProc := proc, clientData := clientData }
    match sigaction refuses s sig .preProc with
    | none => (.err, s)
    | some (oact, s) => (.ok, s.update sig { s.sigevents sig with oact := oact })

/-- `sig` is not checked here. -/
def aeDeleteSignalEvent (refuses : Int → Bool) (s : Signals P D A) (sig : Int) :
    Except Fault (AeStatus × Signals P D A) :=
  if sig < 0 ∨ sig ≥ aeSignum then .error .overrun
  else
    let s := s.update sig { s.sigevents sig with sigProc := none, clientData := none }
    match sigaction refuses s sig (s.sigevents sig).oact with
    | none => .ok (.err, s)
    | some (_, s) => .ok (.ok, s)

inductive SignalCall (P D : Type) where
  | create (sig : Int) (proc : Option P) (clientData : Option D)
  | delete (sig : Int)
  deriving DecidableEq, Repr

def SignalCall.sig : SignalCall P D → Int
  | .create sig _ _ => sig
  | .delete sig => sig

def signalStep (refuses : Int → Bool) (s : Signals P D A) : SignalCall P D → Except Fault (Signals P D A)
  | .create sig proc clientData => .ok (aeCreateSignalEvent refuses s sig proc clientData).2
  | .delete sig => (aeDeleteSignalEvent refuses s sig).map Prod.snd

/-! ## Section 2: One call -/

variable {refuses : Int → Bool} {s s' start : Signals P D A} {sig sig' : Int} {c : SignalCall P D}
  {calls : List (SignalCall P D)}

@[simp] theorem sigevents_update (s : Signals P D A) (sig : Int) (se : AeSignalEvent P D A) :
    (s.update sig se).sigevents sig = se := if_pos rfl

@[simp] theorem sigevents_update_ne (se : AeSignalEvent P D A) (hne : sig' ≠ sig) :
    (s.update sig se).sigevents sig' = s.sigevents sig' := if_neg hne

@[simp] theorem actions_update (s : Signals P D A) (sig : Int) (se : AeSignalEvent P D A) :
    (s.update sig se).actions = s.actions := rfl

@[simp] theorem sigevents_install (s : Signals P D A) (sig : Int) (act : SigAction A) :
    (s.install sig act).sigevents = s.sigevents := rfl

@[simp] theorem actions_install (s : Signals P D A) (sig : Int) (act : SigAction A) :
    (s.install sig act).actions sig = act := if_pos rfl

@[simp] theorem actions_install_ne (act : SigAction A) (hne : sig' ≠ sig) :
    (s.install sig act).actions sig' = s.actions sig' := if_neg hne

/-- A call has no effect on other signals. -/
theorem signalStep_other (hstep : signalStep refuses s c = .ok s') (hne : sig ≠ c.sig) :
    s'.sigevents sig = s.sigevents sig ∧ s'.actions sig = s.actions sig := by
  cases c with
  | create i proc clientData =>
    rw [SignalCall.sig] at hne
    obtain rfl := Except.ok.inj hstep
    rw [aeCreateSignalEvent]
    by_cases hrange : i ≤ 0 ∨ i ≥ aeSignum
    · rw [if_pos hrange]
      exact ⟨rfl, rfl⟩
    · rw [if_neg hrange]
      cases hrefuses : refuses i <;> simp [sigaction, hrefuses, hne]
  | delete i =>
    rw [SignalCall.sig] at hne
    obtain ⟨r, hr, rfl⟩ := ok_of_map hstep
    rw [aeDeleteSignalEvent] at hr
    by_cases hrange : i < 0 ∨ i ≥ aeSignum
    · rw [if_pos hrange] at hr
      cases hr
    · rw [if_neg hrange] at hr
      cases hrefuses : refuses i <;> simp only [sigaction, hrefuses] at hr <;> obtain rfl := Except.ok.inj hr <;>
        simp [hne]

theorem aeCreateSignalEvent_eq (hlo : 0 < sig) (hhi : sig < aeSignum) (hr : refuses sig = false)
    (proc : Option P) (clientData : Option D) :
    aeCreateSignalEvent refuses s sig proc clientData =
      (.ok, (s.update sig ⟨proc, clientData, s.actions sig⟩).install sig .preProc) := by
  have hrange : ¬ (sig ≤ 0 ∨ sig ≥ aeSignum) := by omega
  rw [aeCreateSignalEvent, if_neg hrange]
  simp only [sigaction, hr, Bool.false_eq_true, if_false, sigevents_install, sigevents_update, actions_update]
  congr 1
  simp only [Signals.install, Signals.update, Signals.mk.injEq, and_true]
  funext i
  split <;> rfl

theorem aeDeleteSignalEvent_eq (hlo : 0 < sig) (hhi : sig < aeSignum) (hr : refuses sig = false) :
    aeDeleteSignalEvent refuses s sig =
      .ok (.ok, (s.update sig ⟨none, none, (s.sigevents sig).oact⟩).install sig (s.sigevents sig).oact) := by
  have hrange : ¬ (sig < 0 ∨ sig ≥ aeSignum) := by omega
  rw [aeDeleteSignalEvent, if_neg hrange]
  simp only [sigaction, hr, Bool.false_eq_true, if_false, sigevents_update]

/-- The kernel keeps the action of a signal that it refuses to change. -/
theorem signalStep_refused (hstep : signalStep refuses s c = .ok s') (hr : refuses sig = true) :
    s'.actions sig = s.actions sig := by
  by_cases hne : sig = c.sig
  · cases c with
    | create i proc clientData =>
      obtain rfl : sig = i := hne
      obtain rfl := Except.ok.inj hstep
      rw [aeCreateSignalEvent]
      split
      · rfl
      · simp only [sigaction, hr, if_true]
        rfl
    | delete i =>
      obtain rfl : sig = i := hne
      obtain ⟨r, hres, rfl⟩ := ok_of_map hstep
      rw [aeDeleteSignalEvent] at hres
      split at hres
      · cases hres
      · simp only [sigaction, hr, if_true] at hres
        obtain rfl := Except.ok.inj hres
        rfl
  · exact (signalStep_other hstep hne).2

theorem signalStep_ok (refuses : Int → Bool) (s : Signals P D A) (hlo : 0 < c.sig) (hhi : c.sig < aeSignum) :
    ∃ s', signalStep refuses s c = .ok s' := by
  cases c with
  | create i proc clientData => exact ⟨_, rfl⟩
  | delete i =>
    have hrange : ¬ (i < 0 ∨ i ≥ aeSignum) := by
      simp only [SignalCall.sig] at hlo hhi
      omega
    rw [signalStep, aeDeleteSignalEvent, if_neg hrange]
    cases hr : refuses i <;> simp only [sigaction, hr] <;> exact ⟨_, rfl⟩

/-! ## Section 3: Sequences of calls -/

/-- What the calls so far make of a signal. -/
inductive Registration where
  /-- Not created yet. -/
  | never
  /-- Deleted. -/
  | off
  /-- Created. -/
  | once
  /-- Created while it was registered, now or at any time before. -/
  | again
  deriving DecidableEq, Repr

def Registration.after (r : Registration) : SignalCall P D → Registration
  | .create .. =>
    match r with
    | .never => .once
    | .off => .once
    | .once => .again
    | .again => .again
  | .delete _ =>
    match r with
    | .never => .never
    | .off => .off
    | .once => .off
    | .again => .again

def registration (sig : Int) (calls : List (SignalCall P D)) : Registration :=
  calls.foldl (fun r c => if c.sig = sig then r.after c else r) .never

/-- A call of the program: the signal is in range, and is deleted only after
    it has been created. -/
structure Allowed (before : List (SignalCall P D)) (c : SignalCall P D) : Prop where
  pos : 0 < c.sig
  lt : c.sig < aeSignum
  created : ∀ sig, c = .delete sig → ∃ proc clientData, .create sig proc clientData ∈ before

/-- The action of a signal and the saved one, where `first` is the action
    before its first creation. -/
inductive Stands (first : SigAction A) : Registration → SigAction A → SigAction A → Prop
  | never {oact : SigAction A} : Stands first .never first oact
  | off : Stands first .off first first
  | once : Stands first .once .preProc first
  | again : Stands first .again .preProc .preProc

theorem Stands.off_eq {first act oact : SigAction A} (h : Stands first .off act oact) : act = first := by
  cases h
  rfl

theorem Stands.again_eq {first act oact : SigAction A} (h : Stands first .again act oact) : act = .preProc := by
  cases h
  rfl

theorem registration_snoc (sig : Int) (calls : List (SignalCall P D)) (c : SignalCall P D) :
    registration sig (calls ++ [c]) =
      if c.sig = sig then (registration sig calls).after c else registration sig calls := by
  rw [registration, List.foldl_append]
  rfl

/-- A signal that has been created does not count as never created. -/
theorem registration_ne_never {proc : Option P} {clientData : Option D}
    (h : .create sig proc clientData ∈ calls) : registration sig calls ≠ .never := by
  induction calls using List.reverseRecOn with
  | nil => simp at h
  | append_singleton calls c ih =>
    rw [registration_snoc]
    rcases List.mem_append.mp h with h | h
    · split
      · -- no call leads back to `never`
        have hr := ih h
        revert hr
        cases c <;> cases registration sig calls <;> simp [Registration.after]
      · exact ih h
    · obtain rfl := List.mem_singleton.mp h
      rw [if_pos (show (SignalCall.create sig proc clientData).sig = sig from rfl)]
      cases registration sig calls <;> simp [Registration.after]

/-- One call, for the signal it is about. -/
theorem Stands.step {first : SigAction A} {r : Registration}
    (h : Stands first r (s.actions sig) (s.sigevents sig).oact) (hstep : signalStep refuses s c = .ok s')
    (hsig : c.sig = sig) (hlo : 0 < sig) (hhi : sig < aeSignum) (hr : refuses sig = false)
    (hnever : ∀ i, c = .delete i → r ≠ .never) :
    Stands first (r.after c) (s'.actions sig) (s'.sigevents sig).oact := by
  cases c with
  | create i proc clientData =>
    obtain rfl : i = sig := hsig
    have hres := Except.ok.inj hstep
    rw [aeCreateSignalEvent_eq hlo hhi hr] at hres
    rw [← hres, actions_install, sigevents_install, sigevents_update]
    generalize s.actions i = act at h
    generalize (s.sigevents i).oact = oact at h
    -- the action is saved, whatever it is
    cases h with
    | never => exact .once
    | off => exact .once
    | once => exact .again
    | again => exact .again
  | delete i =>
    obtain rfl : i = sig := hsig
    rw [signalStep, aeDeleteSignalEvent_eq hlo hhi hr] at hstep
    have hres := Except.ok.inj hstep
    dsimp only at hres
    rw [← hres, actions_install, sigevents_install, sigevents_update]
    have hne := hnever i rfl
    generalize s.actions i = act at h
    generalize (s.sigevents i).oact = oact at h ⊢
    cases h with
    | never => exact absurd rfl hne
    | off => exact .off
    | once => exact .off
    | again => exact .again

theorem stands_run (hcalls : Each Allowed calls) (hr : refuses sig = false)
    (hrun : run (signalStep refuses) start calls = .ok s) :
    Stands (start.actions sig) (registration sig calls) (s.actions sig) (s.sigevents sig).oact := by
  refine hcalls.induction (I := fun calls => ∀ s, run (signalStep refuses) start calls = .ok s →
    Stands (start.actions sig) (registration sig calls) (s.actions sig) (s.sigevents sig).oact) ?_ ?_ s hrun
  · intro s hs
    obtain rfl := Except.ok.inj hs
    exact .never
  · intro before c ih hc s' hs'
    obtain ⟨s, hs, hstep⟩ := run_snoc_eq_ok.mp hs'
    have hbefore := ih s hs
    rw [registration_snoc]
    by_cases hsig : c.sig = sig
    · rw [if_pos hsig]
      apply hbefore.step hstep hsig (hsig ▸ hc.pos) (hsig ▸ hc.lt) hr
      rintro i rfl
      obtain ⟨proc, clientData, hmem⟩ := hc.created i rfl
      rw [← hsig]
      exact registration_ne_never hmem
    · -- a call for another signal
      rw [if_neg hsig]
      obtain ⟨hevent, hact⟩ := signalStep_other hstep (Ne.symm hsig)
      rw [hevent, hact]
      exact hbefore

theorem refused_run (hr : refuses sig = true) (hrun : run (signalStep refuses) start calls = .ok s) :
    s.actions sig = start.actions sig :=
  run_invariant (I := fun s => s.actions sig = start.actions sig)
    (fun _ _ _ hs hstep => (signalStep_refused hstep hr).trans hs) rfl hrun

theorem run_ok (refuses : Int → Bool) (start : Signals P D A) (hcalls : Each Allowed calls) :
    ∃ s, run (signalStep refuses) start calls = .ok s := by
  refine hcalls.induction (I := fun calls => ∃ s, run (signalStep refuses) start calls = .ok s) ⟨start, rfl⟩ ?_
  rintro before c ⟨s, hs⟩ hc
  obtain ⟨s', hstep⟩ := signalStep_ok refuses s hc.pos hc.lt
  exact ⟨s', run_snoc_eq_ok.mpr ⟨s, hs, hstep⟩⟩

/-! ## Section 4: What deletion undoes -/

/-- A deletion puts the signal back to its first action, and no call has an
    effect on another signal. -/
structure Faithful (start s s' : Signals P D A) (c : SignalCall P D) : Prop where
  restored : ∀ sig, c = .delete sig → s'.actions sig = start.actions sig
  others : ∀ sig, sig ≠ c.sig →
    s'.actions sig = s.actions sig ∧ (s'.sigevents sig).sigProc = (s.sigevents sig).sigProc

/-- That is so of every call of the sequence. -/
def Undone (refuses : Int → Bool) (start : Signals P D A) (calls : List (SignalCall P D)) : Prop :=
  Each (fun before c => ∀ s s', run (signalStep refuses) start before = .ok s →
    signalStep refuses s c = .ok s' → Faithful start s s' c) calls

/-- No signal is deleted that was created while it was registered, unless
    its action cannot be changed or was that of the loop from the start. -/
def DeletedIfOnce (refuses : Int → Bool) (start : Signals P D A) (calls : List (SignalCall P D)) : Prop :=
  Each (fun before c => ∀ sig, c = .delete sig → registration sig before = .again →
    refuses sig = true ∨ start.actions sig = .preProc) calls

/-- **Registration is undone** just when no signal is deleted that was
    created twice in a row. -/
theorem signals_undone_iff (refuses : Int → Bool) (start : Signals P D A) (hcalls : Each Allowed calls) :
    Undone refuses start calls ↔ DeletedIfOnce refuses start calls := by
  -- the calls up to one of them are allowed too
  have hfront : ∀ before c after, calls = before ++ c :: after → Each Allowed before := by
    rintro before c after rfl
    exact hcalls.front
  constructor
  · rintro hundone before c after hsplit sig rfl hagain
    by_cases hr : refuses sig = true
    · exact Or.inl hr
    obtain ⟨s, hs⟩ := run_ok refuses start (hfront _ _ _ hsplit)
    have hc := hcalls _ _ _ hsplit
    obtain ⟨s', hstep⟩ := signalStep_ok refuses s hc.pos hc.lt
    have hstands := stands_run (hfront _ _ _ hsplit) (Bool.eq_false_iff.mpr hr) hs
    have hrestored := (hundone _ _ _ hsplit s s' hs hstep).restored sig rfl
    have hkept := hstands.step hstep rfl hc.pos hc.lt (Bool.eq_false_iff.mpr hr) (by rw [hagain]; simp)
    -- the action that is put back is the handler of the loop
    rw [hagain, Registration.after, hrestored] at hkept
    exact Or.inr hkept.again_eq
  · intro honce before c after hsplit s s' hs hstep
    have hc := hcalls _ _ _ hsplit
    refine ⟨?_, ?_⟩
    · rintro sig rfl
      by_cases hr : refuses sig = true
      · rw [signalStep_refused hstep hr, refused_run hr hs]
      have hstands := stands_run (hfront _ _ _ hsplit) (Bool.eq_false_iff.mpr hr) hs
      have hnever : registration sig before ≠ .never := by
        obtain ⟨proc, clientData, hmem⟩ := hc.created sig rfl
        exact registration_ne_never hmem
      have hkept := hstands.step hstep rfl hc.pos hc.lt (Bool.eq_false_iff.mpr hr) fun _ _ => hnever
      have hagain := honce _ _ _ hsplit sig rfl
      rcases hreg : registration sig before with _ | _ | _ | _
      · exact absurd hreg hnever
      · rw [hreg] at hkept
        exact hkept.off_eq
      · rw [hreg] at hkept
        exact hkept.off_eq
      · rw [hreg] at hkept
        exact hkept.again_eq.trans ((hagain hreg).resolve_left hr).symm
    · intro sig hne
      obtain ⟨hevent, hact⟩ := signalStep_other hstep hne
      exact ⟨hact, by rw [hevent]⟩

/-- The kernel refuses `SIGKILL` and `SIGSTOP`. -/
def refusesKillStop (sig : Int) : Bool := sig == 9 || sig == 19

/-- Nothing is registered, and every signal has one and the same action. -/
def freshSignals : Signals Nat Nat Nat where
  sigevents _ := ⟨none, none, .other 1⟩
  actions _ := .other 0

theorem allowed_create {before : List (SignalCall P D)} {proc : Option P} {clientData : Option D} (hlo : 0 < sig)
    (hhi : sig < aeSignum) : Allowed before (.create sig proc clientData) where
  pos := hlo
  lt := hhi
  created i h := by cases h

theorem allowed_delete {before : List (SignalCall P D)} {proc : Option P} {clientData : Option D} (hlo : 0 < sig)
    (hhi : sig < aeSignum) (h : .create sig proc clientData ∈ before) : Allowed before (.delete sig) where
  pos := hlo
  lt := hhi
  created i heq := by
    cases heq
    exact ⟨proc, clientData, h⟩

/-- `SIGINT` is created and deleted twice, and `SIGTERM` once around it. -/
def twoSignals : List (SignalCall Nat Nat) :=
  [.create 2 (some 5) none, .create 15 (some 7) none, .delete 2, .create 2 (some 6) none, .delete 2, .delete 15]

theorem allowed_twoSignals : Each Allowed twoSignals := by
  apply each_of_getElem
  intro i hi
  have hlt : i < 6 := hi
  interval_cases i
  · exact allowed_create (by decide) (by decide)
  · exact allowed_create (by decide) (by decide)
  · exact allowed_delete (by decide) (by decide) (show .create 2 (some 5) none ∈ twoSignals.take 2 by decide)
  · exact allowed_create (by decide) (by decide)
  · exact allowed_delete (by decide) (by decide) (show .create 2 (some 6) none ∈ twoSignals.take 4 by decide)
  · exact allowed_delete (by decide) (by decide) (show .create 15 (some 7) none ∈ twoSignals.take 5 by decide)

/-- Both signals have their first action again after each deletion. -/
theorem signals_undone_iff_two : Undone refusesKillStop freshSignals twoSignals := by
  apply (signals_undone_iff refusesKillStop freshSignals allowed_twoSignals).mpr
  apply each_of_getElem
  intro i hi sig hdelete hagain
  have hlt : i < 6 := hi
  -- only the deletions are left
  interval_cases i <;> cases hdelete
  all_goals exact absurd hagain (by decide)

/-- `SIGINT` is created, created again with another procedure, and deleted:
    the handler of the loop stays installed. -/
theorem recreated_signal_not_undone :
    Each Allowed ([.create 2 (some 5) none, .create 2 (some 6) none, .delete 2] : List (SignalCall Nat Nat)) ∧
      ¬ Undone refusesKillStop freshSignals [.create 2 (some 5) none, .create 2 (some 6) none, .delete 2] := by
  constructor
  · have hcreated : Each Allowed ([] ++ [.create 2 (some 5) none] ++ [.create 2 (some 6) none] :
        List (SignalCall Nat Nat)) :=
      each_snoc.mpr ⟨each_snoc.mpr ⟨each_nil, allowed_create (by decide) (by decide)⟩,
        allowed_create (by decide) (by decide)⟩
    exact each_snoc.mpr ⟨hcreated, allowed_delete (by decide) (by decide) List.mem_cons_self⟩
  · intro hundone
    have hlast := hundone [.create 2 (some 5) none, .create 2 (some 6) none] (.delete 2) [] rfl _ _ rfl rfl
    exact absurd (hlast.restored 2 rfl) (by decide)

end BoAtom
