import BoAtom.Lib.CString

/-! # `readn` and `writen`

    Both functions of `netTool.c` are one loop around `select` and a
    transfer; they differ in what a transfer moves.  An `Attempt` is one
    pass through the loop, as the kernel answers it. -/

namespace BoAtom

/-! ## Section 1: The loop -/

inductive Attempt (β : Type) where
  /-- `select` returns 0. -/
  | timeout
  /-- `select` fails with `EINTR`. -/
  | interrupted
  | selectFailed
  /-- The transfer fails with `EAGAIN` or `EINTR`. -/
  | again
  | failed
  /-- The transfer goes through, with what the other side has to offer. -/
  | moved (x : β)
  deriving DecidableEq, Repr

/-- The loop: `sum` is what has been moved so far, `move` what one transfer
    moves then.  The result is missing while the function has not returned. -/
def transfer {β : Type} (size : Nat) (move : β → Bytes → Bytes) :
    List (Attempt β) → Bytes → Option Int × Bytes
  | [], sum => (none, sum)
  | .timeout :: _, sum => (some (-1), sum)
  | .selectFailed :: _, sum => (some (-1), sum)
  | .failed :: _, sum => (some (-1), sum)
  | .interrupted :: as, sum => transfer size move as sum
  | .again :: as, sum => transfer size move as sum
  | .moved x :: as, sum =>
    let ret := move x sum
    if ret = [] then (some (-1), sum)
    else if size ≤ (sum ++ ret).length then (some 0, sum ++ ret)
    else transfer size move as (sum ++ ret)

/-- `write(fd, buf + sum, size - sum)`; the socket takes `n` bytes at most. -/
def writen (buf : Bytes) (size : Nat) (as : List (Attempt Nat)) : Option Int × Bytes :=
  transfer size (fun n sum => ((buf.drop sum.length).take (size - sum.length)).take n) as []

/-- `read(fd, buf + sum, size - sum)`; nothing at hand is the end of the file. -/
def readn (size : Nat) (as : List (Attempt Bytes)) : Option Int × Bytes :=
  transfer size (fun bs sum => bs.take (size - sum.length)) as []

/-! ## Section 2: Transfers that go through -/

variable {β : Type} {n : Nat} {as : List (Attempt β)} {weight : β → Nat}

/-- The attempts move `n` bytes, where `x` stands for `weight x` of them. -/
inductive Completes (weight : β → Nat) : Nat → List (Attempt β) → Prop where
  | last {n : Nat} {x : β} {as : List (Attempt β)} (hpos : 0 < n) (hle : n ≤ weight x) :
      Completes weight n (.moved x :: as)
  | part {n : Nat} {x : β} {as : List (Attempt β)} (hpos : 0 < weight x) (hlt : weight x < n)
      (hrest : Completes weight (n - weight x) as) : Completes weight n (.moved x :: as)
  | interrupted {n : Nat} {as : List (Attempt β)} (hrest : Completes weight n as) :
      Completes weight n (.interrupted :: as)
  | again {n : Nat} {as : List (Attempt β)} (hrest : Completes weight n as) :
      Completes weight n (.again :: as)

theorem Completes.pos (h : Completes weight n as) : 0 < n := by
  induction h with
  | last hpos => exact hpos
  | part hpos hlt => exact hpos.trans hlt
  | interrupted _ ih => exact ih
  | again _ ih => exact ih

/-! What one transfer moves, said of all of them. -/

section Moves

variable {size : Nat} {move : β → Bytes → Bytes} {sum buf : Bytes}

/-- A transfer that keeps to the bytes asked for: they are all there just
    when 0 is returned. -/
theorem transfer_length (hmove : ∀ x sum, (move x sum).length ≤ size - sum.length) (hlt : sum.length < size) :
    (transfer size move as sum).2.length ≤ size ∧
      ((transfer size move as sum).1 = some 0 ↔ (transfer size move as sum).2.length = size) := by
  have hshort : ∀ ret : Option Int, ret ≠ some 0 →
      sum.length ≤ size ∧ (ret = some 0 ↔ sum.length = size) := by
    intro ret hret
    exact ⟨hlt.le, fun h => absurd h hret, fun h => absurd h hlt.ne⟩
  induction as generalizing sum with
  | nil => exact hshort none (by decide)
  | cons a as ih =>
    cases a with
    | timeout => exact hshort (some (-1)) (by decide)
    | selectFailed => exact hshort (some (-1)) (by decide)
    | failed => exact hshort (some (-1)) (by decide)
    | interrupted => exact ih hlt hshort
    | again => exact ih hlt hshort
    | moved x =>
      rw [transfer]
      by_cases hnil : move x sum = []
      · rw [if_pos hnil]
        exact hshort (some (-1)) (by decide)
      rw [if_neg hnil]
      have hle := hmove x sum
      have hlength : (sum ++ move x sum).length = sum.length + (move x sum).length := List.length_append
      by_cases hfull : size ≤ (sum ++ move x sum).length
      · rw [if_pos hfull]
        have hsize : (sum ++ move x sum).length = size := by omega
        exact ⟨hsize.le, fun _ => hsize, fun _ => rfl⟩
      · rw [if_neg hfull]
        have hlt' := Nat.lt_of_not_le hfull
        exact ih hlt' fun ret hret => ⟨hlt'.le, fun h => absurd h hret, fun h => absurd h hlt'.ne⟩

/-- A transfer that moves the next bytes of `buf` each time. -/
theorem prefix_transfer (hmove : ∀ x sum, sum <+: buf → sum ++ move x sum <+: buf) (hsum : sum <+: buf) :
    (transfer size move as sum).2 <+: buf := by
  induction as generalizing sum with
  | nil => exact hsum
  | cons a as ih =>
    cases a with
    | timeout => exact hsum
    | selectFailed => exact hsum
    | failed => exact hsum
    | interrupted => exact ih hsum
    | again => exact ih hsum
    | moved x =>
      rw [transfer]
      split
      · exact hsum
      split
      · exact hmove x sum hsum
      · exact ih (hmove x sum hsum)

/-- A transfer that is cut short by the bytes asked for alone goes through
    just when its attempts move them. -/
theorem transfer_completes_iff (hmove : ∀ x sum, (move x sum).length = min (weight x) (size - sum.length))
    (hlt : sum.length < size) :
    (transfer size move as sum).1 = some 0 ↔ Completes weight (size - sum.length) as := by
  induction as generalizing sum with
  | nil => constructor <;> intro h <;> cases h
  | cons a as ih =>
    cases a with
    | timeout => constructor <;> intro h <;> cases h
    | selectFailed => constructor <;> intro h <;> cases h
    | failed => constructor <;> intro h <;> cases h
    | interrupted =>
      rw [transfer, ih hlt]
      constructor
      · exact .interrupted
      · intro h
        cases h with
        | interrupted hrest => exact hrest
    | again =>
      rw [transfer, ih hlt]
      constructor
      · exact .again
      · intro h
        cases h with
        | again hrest => exact hrest
    | moved x =>
      -- the attempts that complete `size - sum.length` bytes are those that complete what `x` leaves
      have hlen := hmove x sum
      have hlength : (sum ++ move x sum).length = sum.length + (move x sum).length := List.length_append
      rw [transfer]
      by_cases hnil : move x sum = []
      · -- nothing is moved: the other side is closed
        rw [if_pos hnil]
        rw [hnil, List.length_nil] at hlen
        constructor
        · intro h
          cases h
        · intro h
          cases h <;> omega
      rw [if_neg hnil]
      have hpos := List.length_pos_iff.mpr hnil
      by_cases hfull : size ≤ (sum ++ move x sum).length
      · rw [if_pos hfull]
        exact ⟨fun _ => .last (by omega) (by omega), fun _ => rfl⟩
      · rw [if_neg hfull, ih (by omega), hlength, hlen, Nat.min_eq_left (by omega), ← Nat.sub_sub]
        constructor
        · exact .part (by omega) (by omega)
        · intro h
          cases h with
          | last _ hle => omega
          | part _ _ hrest => exact hrest

/-- Neither `EINTR` nor `EAGAIN`. -/
def Attempt.decides : Attempt β → Bool
  | .interrupted => false
  | .again => false
  | _ => true

/-- An attempt that is interrupted makes no difference. -/
theorem transfer_filter : transfer size move (as.filter Attempt.decides) sum = transfer size move as sum := by
  induction as generalizing sum with
  | nil => rfl
  | cons a as ih =>
    cases a with
    | timeout => rfl
    | selectFailed => rfl
    | failed => rfl
    | interrupted => exact ih
    | again => exact ih
    | moved x =>
      rw [List.filter_cons_of_pos rfl, transfer, transfer, ih]

end Moves

/-! `writen`, and `read` of a stream in the same way: `n` bytes at most are
    moved at once. -/

theorem length_piece {buf sum : Bytes} {size : Nat} (hsize : size ≤ buf.length) (n : Nat) :
    (((buf.drop sum.length).take (size - sum.length)).take n).length = min n (size - sum.length) := by
  rw [List.length_take, List.length_take, List.length_drop]
  omega

theorem prefix_append_piece {buf sum : Bytes} (size n : Nat) (hsum : sum <+: buf) :
    sum ++ ((buf.drop sum.length).take (size - sum.length)).take n <+: buf := by
  obtain ⟨t, rfl⟩ := hsum
  rw [List.drop_left, List.prefix_append_right_inj, List.take_take]
  exact List.take_prefix ..

/-- All of the buffer goes out, and nothing else. -/
theorem writen_completes {buf : Bytes} {size : Nat} {as : List (Attempt Nat)} (h : Completes id size as)
    (hsize : size ≤ buf.length) : writen buf size as = (some 0, buf.take size) := by
  have hpos : ([] : Bytes).length < size := h.pos
  have hzero : (writen buf size as).1 = some 0 :=
    (transfer_completes_iff (fun n sum => length_piece hsize n) hpos).mpr h
  have hlength := (transfer_length (fun n sum => (length_piece hsize n).le.trans (Nat.min_le_right ..)) hpos).2.mp hzero
  have hprefix : (writen buf size as).2 <+: buf :=
    prefix_transfer (fun n sum => prefix_append_piece size n) List.nil_prefix
  have hall : (writen buf size as).2 = buf.take size := by
    rw [List.prefix_iff_eq_take.mp hprefix]
    exact congrArg buf.take hlength
  rw [← hzero, ← hall]

/-- What the other side has to offer, in order. -/
def offered : List (Attempt Bytes) → Bytes
  | [] => []
  | .moved bs :: as => bs ++ offered as
  | _ :: as => offered as

theorem readn_from {sum : Bytes} {size : Nat} {as : List (Attempt Bytes)} (h : Completes List.length n as)
    (hn : sum.length + n = size) :
    transfer size (fun bs sum => bs.take (size - sum.length)) as sum =
      (some 0, sum ++ (offered as).take n) := by
  -- along the attempts: `n` bytes are missing, `sum` has the others
  induction h generalizing sum with
  | @last n x as hpos hle =>
    have hmove : x.take (size - sum.length) = x.take n := by
      rw [← hn, Nat.add_sub_cancel_left]
    have hlen : (x.take n).length = n := by
      rw [List.length_take]
      omega
    have hne : x.take n ≠ [] := by
      intro hnil
      rw [hnil, List.length_nil] at hlen
      omega
    have hfull : size ≤ (sum ++ x.take n).length := by
      rw [List.length_append, hlen]
      omega
    simp only [transfer, hmove, hne, hfull, if_true, if_false, offered]
    rw [List.take_append_of_le_length hle]
  | @part n x as hpos hlt hrest ih =>
    have hmove : x.take (size - sum.length) = x := List.take_of_length_le (by omega)
    have hne : x ≠ [] := by
      intro hnil
      rw [hnil, List.length_nil] at hpos
      omega
    have hmore : ¬ size ≤ (sum ++ x).length := by
      rw [List.length_append]
      omega
    simp only [transfer, hmove, hne, hmore, if_false, offered]
    rw [ih (by rw [List.length_append]; omega), List.append_assoc, List.take_append,
      List.take_of_length_le hlt.le]
  | interrupted _ ih => exact ih hn
  | again _ ih => exact ih hn

/-- The first `size` bytes on offer are read. -/
theorem readn_completes {size : Nat} {as : List (Attempt Bytes)} (h : Completes List.length size as) :
    readn size as = (some 0, (offered as).take size) := by
  have hstart : ([] : Bytes).length + size = size := Nat.zero_add size
  have hread := readn_from h hstart
  rwa [List.nil_append] at hread

end BoAtom
