import Mathlib.Logic.Basic

/-! # ae/ae.c, file events

    The table of file events of an event loop: one entry a descriptor, with
    the mask the descriptor is watched for and the procedures to call.  The
    calls into the kernel (`aeApiAddEvent`, `aeApiDelEvent`) are taken to
    succeed, but for `aeCreateFileEventApi`; `maxfd`, which only bounds the
    kernel's scan, is left out. -/

namespace BoAtom

/-- `AE_READABLE` and `AE_WRITABLE`. -/
structure AeMask where
  readable : Bool
  writable : Bool
  deriving DecidableEq, Repr

/-- `AE_NONE`. -/
def aeNone : AeMask := ⟨false, false⟩

def aeReadable : AeMask := ⟨true, false⟩

def aeWritable : AeMask := ⟨false, true⟩

structure AeFileEvent (P D : Type) where
  mask : AeMask
  rfileProc : Option P
  wfileProc : Option P
  clientData : Option D
  deriving DecidableEq, Repr

structure AeEventLoop (P D : Type) where
  setsize : Nat
  events : Nat → AeFileEvent P D

/-- `AE_OK` and `AE_ERR`. -/
inductive AeStatus where
  | ok
  | err
  deriving DecidableEq, Repr

variable {P D : Type}

def aeCreateEventLoop (setsize : Nat) : AeEventLoop P D :=
  { setsize := setsize, events := fun _ => ⟨aeNone, none, none, none⟩ }

def AeEventLoop.update (loop : AeEventLoop P D) (fd : Nat) (fe : AeFileEvent P D) :
    AeEventLoop P D :=
  { loop with events := fun i => if i = fd then fe else loop.events i }

def aeCreateFileEvent (loop : AeEventLoop P D) (fd : Nat) (mask : AeMask) (proc : P)
    (clientData : D) : AeStatus × AeEventLoop P D :=
  if fd ≥ loop.setsize then (.err, loop)
  else
    let fe := loop.events fd
    (.ok, loop.update fd
      { mask := ⟨fe.mask.readable || mask.readable, fe.mask.writable || mask.writable⟩
        rfileProc := if mask.readable then some proc else fe.rfileProc
        wfileProc := if mask.writable then some proc else fe.wfileProc
        clientData := some clientData })

/-- The same where `aeApiAddEvent` may fail. -/
def aeCreateFileEventApi (added : Bool) (loop : AeEventLoop P D) (fd : Nat) (mask : AeMask) (proc : P)
    (clientData : D) : AeStatus × AeEventLoop P D :=
  if fd ≥ loop.setsize then (.err, loop)
  else if ¬ added then (.err, loop)
  else aeCreateFileEvent loop fd mask proc clientData

theorem aeCreateFileEventApi_true (loop : AeEventLoop P D) (fd : Nat) (mask : AeMask) (proc : P)
    (clientData : D) :
    aeCreateFileEventApi true loop fd mask proc clientData = aeCreateFileEvent loop fd mask proc clientData := by
  unfold aeCreateFileEventApi aeCreateFileEvent
  split <;> rfl

def aeDeleteFileEvent (loop : AeEventLoop P D) (fd : Nat) (mask : AeMask) : AeEventLoop P D :=
  if fd ≥ loop.setsize then loop
  else
    let fe := loop.events fd
    if fe.mask = aeNone then loop
    else loop.update fd { fe with
      mask := ⟨fe.mask.readable && !mask.readable, fe.mask.writable && !mask.writable⟩ }

end BoAtom
