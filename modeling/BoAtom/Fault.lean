import Mathlib.Logic.Basic

/-! # Faults

    How a run of the C code can leave the behaviour the language defines.
    Each function of the model returns `Except Fault`; nothing catches a
    fault. -/

namespace BoAtom

inductive Fault where
  /-- Index `i` into `value[]`, `item_length[]` or `item_pos[]` of a `Cmd`,
      outside of `0 ≤ i < CMD_ARGS_MAX`. -/
  | cmdIndex (i : Int)
  /-- The same for a `Response`. -/
  | responseIndex (i : Int)
  /-- Index `i` into `level[]` of a skiplist node, at or above its height. -/
  | levelIndex (i : Int)
  /-- A NULL or released structure is dereferenced. -/
  | nullDeref
  /-- `free` of a block that is not allocated. -/
  | doubleFree
  /-- A copy or an access outside of an array. -/
  | overrun
  /-- A failed `assert`. -/
  | assertion
  /-- A loop runs longer than the bound the model gives it. -/
  | diverge
  deriving DecidableEq, Repr

end BoAtom
