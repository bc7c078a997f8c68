import BoAtom.Lib.Memory

/-! # Whole blocks

    A function that takes in a byte sequence block by block.

    * `feedBlocks`: the first `n` blocks, as a loop takes them;
    * `absorbed`: every whole block of the sequence;
    * `rest`: the bytes behind the last whole block. -/

namespace Blocks

variable {S : Type} {w : Nat} {block : S → Bytes → S} {s : S} {a b bs : Bytes}

def feedBlocks (w : Nat) (block : S → Bytes → S) : Nat → S → Bytes → S
  | 0, s, _ => s
  | n + 1, s, bs => feedBlocks w block n (block s (bs.take w)) (bs.drop w)

def absorbed (w : Nat) (block : S → Bytes → S) (s : S) (bs : Bytes) : S :=
  feedBlocks w block (bs.length / w) s bs

def rest (w : Nat) (bs : Bytes) : Bytes := bs.drop (bs.length / w * w)

/-! ## Section 1: The state -/

theorem absorbed_short (h : bs.length < w) : absorbed w block s bs = s := by
  rw [absorbed, Nat.div_eq_of_lt h]
  rfl

/-- One block, and what comes behind it. -/
theorem absorbed_block_append (hw : 0 < w) (ha : a.length = w) :
    absorbed w block s (a ++ b) = absorbed w block (block s a) b := by
  have hcount : (a ++ b).length / w = b.length / w + 1 := by
    rw [List.length_append, ha, Nat.add_comm, Nat.add_div_right _ hw]
  rw [absorbed, hcount, feedBlocks, List.take_left' ha, List.drop_left' ha]
  rfl

theorem absorbed_block (hw : 0 < w) (ha : a.length = w) : absorbed w block s a = block s a := by
  have h : absorbed w block s (a ++ []) = absorbed w block (block s a) [] := absorbed_block_append hw ha
  rw [List.append_nil] at h
  exact h.trans (absorbed_short hw)

/-- Whole blocks are taken in first. -/
theorem absorbed_append (hw : 0 < w) {n : Nat} (ha : a.length = n * w) :
    absorbed w block s (a ++ b) = absorbed w block (absorbed w block s a) b := by
  -- on the number of blocks of `a`: the first one goes into the state
  induction n generalizing a s with
  | zero =>
    have hnil : a = [] := List.eq_nil_of_length_eq_zero (by simpa using ha)
    have hempty : absorbed w block s [] = s := absorbed_short hw
    rw [hnil, List.nil_append, hempty]
  | succ n ih =>
    have hle : w ≤ a.length := by
      rw [ha, Nat.succ_mul]
      exact Nat.le_add_left ..
    have hfirst : (a.take w).length = w := List.length_take_of_le hle
    have hothers : (a.drop w).length = n * w := by
      rw [List.length_drop, ha, Nat.succ_mul, Nat.add_sub_cancel]
    have hsplit : a = a.take w ++ a.drop w := (List.take_append_drop w a).symm
    rw [hsplit, List.append_assoc, absorbed_block_append hw hfirst, ih hothers,
      absorbed_block_append hw hfirst]

/-! ## Section 2: What is left over -/

theorem length_rest (w : Nat) (bs : Bytes) : (rest w bs).length = bs.length % w := by
  rw [rest, List.length_drop, Nat.mod_eq_sub_div_mul]

theorem length_rest_lt (hw : 0 < w) (bs : Bytes) : (rest w bs).length < w := by
  rw [length_rest]
  exact Nat.mod_lt _ hw

theorem rest_short (h : bs.length < w) : rest w bs = bs := by
  rw [rest, Nat.div_eq_of_lt h, Nat.zero_mul, List.drop_zero]

theorem rest_append (hw : 0 < w) {n : Nat} (ha : a.length = n * w) : rest w (a ++ b) = rest w b := by
  have hlen : (a ++ b).length / w * w = a.length + b.length / w * w := by
    rw [List.length_append, ha, Nat.mul_comm n w, Nat.mul_add_div hw, Nat.add_mul, Nat.mul_comm w n]
  rw [rest, hlen, List.drop_append, List.drop_eq_nil_of_le (Nat.le_add_right ..), List.nil_append,
    Nat.add_sub_cancel_left]
  rfl

/-- The whole blocks of `bs`, then its rest. -/
theorem split_rest (w : Nat) (bs : Bytes) : ∃ front, front.length = bs.length / w * w ∧ bs = front ++ rest w bs := by
  refine ⟨bs.take (bs.length / w * w), ?_, (List.take_append_drop _ _).symm⟩
  exact List.length_take_of_le (Nat.div_mul_le_self _ _)

/-- More bytes: only the rest of the old ones still counts. -/
theorem absorbed_more (hw : 0 < w) (a b : Bytes) :
    absorbed w block s (a ++ b) = absorbed w block (absorbed w block s a) (rest w a ++ b) := by
  obtain ⟨front, hlen, hsplit⟩ := split_rest w a
  -- the rest of `a` is shorter than a block and changes nothing
  have hold : absorbed w block s a = absorbed w block s front := by
    rw [hsplit, absorbed_append hw hlen, absorbed_short (length_rest_lt hw a)]
  rw [hold, ← absorbed_append hw hlen, ← List.append_assoc, ← hsplit]

theorem rest_more (hw : 0 < w) (a b : Bytes) : rest w (a ++ b) = rest w (rest w a ++ b) := by
  obtain ⟨front, hlen, hsplit⟩ := split_rest w a
  rw [← rest_append (b := rest w a ++ b) hw hlen, ← List.append_assoc, ← hsplit]

end Blocks
