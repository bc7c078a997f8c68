import BoAtom.Ae.Signal
import BoAtom.Lib.CString

/-! # ae/ae.c, dispatch of signals

    The handler `_aeSignalPreProc` writes the number of a signal to the pipe
    of the event loop, and the file event `_aeSignalProc` reads the pipe byte
    by byte and calls the procedures.

    It reads until `read` gives nothing, and how an empty pipe is read
    depends on the descriptor: `pipe` makes it blocking, and nothing in
    `aeCreateEventLoop` changes that.  So all pending signals are served in
    order (`aeSignalProc_dispatches`), and then the loop waits for the next
    one (`aeSignalProc_never_drains`). -/

namespace BoAtom

/-! ## Section 1: The pipe -/

/-- `signalFd`: the bytes that are in the pipe, and whether `read` returns
    when there are none. -/
structure SignalPipe where
  bytes : Bytes
  nonblock : Bool
  deriving DecidableEq, Repr

/-- `pipe(eventLoop->signalFd)` in `aeCreateEventLoop`. -/
def aePipe : SignalPipe := ⟨[], false⟩

/-- `_aeSignalPreProc` of the loop `gSignalLoop`. -/
def aeSignalPreProc (pipe : SignalPipe) (sig : Int) : SignalPipe :=
  { pipe with bytes := pipe.bytes ++ [(Int8.ofInt sig).toUInt8] }

/-! ## Section 2: `_aeSignalProc` -/

inductive DispatchEnd where
  | returned
  /-- In `read`, until a byte or a signal comes. -/
  | waits
  deriving DecidableEq, Repr

/-- A call of a procedure: which, and with what. -/
structure ProcCall (P D : Type) where
  proc : P
  sig : Int
  clientData : Option D
  deriving DecidableEq, Repr

/-- What a procedure does to the table of signals. -/
abbrev Procs (P D A : Type) := ProcCall P D → Signals P D A → Signals P D A

variable {P D A : Type}

/-- The loop of `_aeSignalProc`: the calls it makes, what is left in the
    pipe, and how it ends. -/
def aeSignalProcFrom (procs : Procs P D A) (nonblock : Bool) :
    Bytes → Signals P D A → List (ProcCall P D) × SignalPipe × DispatchEnd
  | [], _ => ([], ⟨[], nonblock⟩, if nonblock then .returned else .waits)
  | b :: bytes, s =>
    let signum := b.toInt8.toInt
    if 0 < signum ∧ signum < aeSignum then
      match (s.sigevents signum).sigProc with
      | none => aeSignalProcFrom procs nonblock bytes s
      | some proc =>
        let call := ⟨proc, signum, (s.sigevents signum).clientData⟩
        let (calls, rest) := aeSignalProcFrom procs nonblock bytes (procs call s)
        (call :: calls, rest)
    else aeSignalProcFrom procs nonblock bytes s

def aeSignalProc (procs : Procs P D A) (pipe : SignalPipe) (s : Signals P D A) :
    List (ProcCall P D) × SignalPipe × DispatchEnd :=
  aeSignalProcFrom procs pipe.nonblock pipe.bytes s

/-! ## Section 3: Dispatch and return -/

/-- The calls that are due: one for each signal that is in range and
    registered when its turn comes. -/
inductive Due (procs : Procs P D A) : Bytes → Signals P D A → List (ProcCall P D) → Prop where
  | done {s : Signals P D A} : Due procs [] s []
  | call {b : UInt8} {bytes : Bytes} {s : Signals P D A} {calls : List (ProcCall P D)} {proc : P}
      (hlo : 0 < b.toInt8.toInt) (hhi : b.toInt8.toInt < aeSignum)
      (hproc : (s.sigevents b.toInt8.toInt).sigProc = some proc)
      (hrest : Due procs bytes (procs ⟨proc, b.toInt8.toInt, (s.sigevents b.toInt8.toInt).clientData⟩ s) calls) :
      Due procs (b :: bytes) s (⟨proc, b.toInt8.toInt, (s.sigevents b.toInt8.toInt).clientData⟩ :: calls)
  | skip {b : UInt8} {bytes : Bytes} {s : Signals P D A} {calls : List (ProcCall P D)}
      (hskip : 0 < b.toInt8.toInt → b.toInt8.toInt < aeSignum → (s.sigevents b.toInt8.toInt).sigProc = none)
      (hrest : Due procs bytes s calls) : Due procs (b :: bytes) s calls

variable {procs : Procs P D A} {pipe : SignalPipe} {s : Signals P D A} {nonblock : Bool} {bytes : Bytes}

theorem aeSignalProcFrom_spec : Due procs bytes s (aeSignalProcFrom procs nonblock bytes s).1 ∧
    (aeSignalProcFrom procs nonblock bytes s).2 = (⟨[], nonblock⟩, if nonblock then .returned else .waits) := by
  induction bytes generalizing s with
  | nil => exact ⟨.done, rfl⟩
  | cons b bytes ih =>
    rw [aeSignalProcFrom]
    by_cases hrange : 0 < b.toInt8.toInt ∧ b.toInt8.toInt < aeSignum
    · rw [if_pos hrange]
      rcases hproc : (s.sigevents b.toInt8.toInt).sigProc with _ | proc
      · -- unregistered, maybe by a procedure called before
        exact ⟨.skip (fun _ _ => hproc) ih.1, ih.2⟩
      · exact ⟨.call hrange.1 hrange.2 hproc ih.1, ih.2⟩
    · rw [if_neg hrange]
      exact ⟨.skip (fun hlo hhi => absurd ⟨hlo, hhi⟩ hrange) ih.1, ih.2⟩

/-- **Dispatch**: the calls that are due are made, in order, and the pipe is
    left empty. -/
theorem aeSignalProc_dispatches (procs : Procs P D A) (pipe : SignalPipe) (s : Signals P D A) :
    Due procs pipe.bytes s (aeSignalProc procs pipe s).1 ∧ (aeSignalProc procs pipe s).2.1.bytes = [] :=
  ⟨aeSignalProcFrom_spec.1, by rw [aeSignalProc, aeSignalProcFrom_spec.2]⟩

/-- The calls that are due are made, and the function returns with the pipe
    empty. -/
structure Drains (procs : Procs P D A) (pipe : SignalPipe) (s : Signals P D A) : Prop where
  calls : Due procs pipe.bytes s (aeSignalProc procs pipe s).1
  empty : (aeSignalProc procs pipe s).2.1.bytes = []
  returns : (aeSignalProc procs pipe s).2.2 = .returned

/-- All that the function lacks is a descriptor that does not block. -/
theorem drains_iff_nonblock : Drains procs pipe s ↔ pipe.nonblock = true := by
  have hend : (aeSignalProc procs pipe s).2.2 = if pipe.nonblock then .returned else .waits := by
    rw [aeSignalProc, aeSignalProcFrom_spec.2]
  constructor
  · intro h
    have hreturns := h.returns
    rw [hend] at hreturns
    by_contra hblock
    rw [if_neg hblock] at hreturns
    cases hreturns
  · intro hnonblock
    obtain ⟨hcalls, hempty⟩ := aeSignalProc_dispatches procs pipe s
    exact ⟨hcalls, hempty, by rw [hend, if_pos hnonblock]⟩

/-- The handler does not change the mode of the pipe. -/
theorem nonblock_preProc (pipe : SignalPipe) (sigs : List Int) :
    (sigs.foldl aeSignalPreProc pipe).nonblock = pipe.nonblock := by
  induction sigs generalizing pipe with
  | nil => rfl
  | cons sig sigs ih =>
    rw [List.foldl_cons, ih]
    rfl

/-- **Dispatch does not return**: whatever signals are pending in the pipe
    of a new event loop, `_aeSignalProc` waits for one more. -/
theorem aeSignalProc_never_drains (procs : Procs P D A) (sigs : List Int) (s : Signals P D A) :
    ¬ Drains procs (sigs.foldl aeSignalPreProc aePipe) s := by
  rw [drains_iff_nonblock, nonblock_preProc]
  exact Bool.false_ne_true

/-- `SIGINT` with procedure 7. -/
def sigintOnly : Signals Nat Nat Nat :=
  freshSignals.update 2 ⟨some 7, none, .other 0⟩

/-- One pending `SIGINT`: its procedure is called, and the function waits. -/
theorem aeSignalProc_waits :
    aeSignalProc (fun _ s => s) (aeSignalPreProc aePipe 2) sigintOnly = ([⟨7, 2, none⟩], ⟨[], false⟩, .waits) ∧
      ¬ Drains (fun _ s => s) (aeSignalPreProc aePipe 2) sigintOnly := by
  refine ⟨by decide, ?_⟩
  rw [drains_iff_nonblock]
  exact Bool.false_ne_true

end BoAtom
