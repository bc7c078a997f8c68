import BoAtom.NetTool.Transfer

/-! # Messages over a stream

    `writen` on one side of a stream and `readn` on the other.  Of the bytes
    that are left of the stream, each `read` has some at hand; what it takes
    is gone (`onStream`), and so a `readn` of the stream is `writen` with the
    stream for its buffer (`readn_onStream`).

    The stream that back-to-back calls of `writen` leave is cut up again by
    calls of `readn` with the sizes of the messages (`recvAll_messages`). -/

namespace BoAtom

/-! ## Section 1: Reading a stream -/

/-- `read` has `n` bytes at hand in an attempt that is `.moved n`. -/
def Attempt.amount : Attempt Nat → Nat
  | .moved n => n
  | _ => 0

def Attempt.map {β γ : Type} (f : β → γ) : Attempt β → Attempt γ
  | .timeout => .timeout
  | .interrupted => .interrupted
  | .selectFailed => .selectFailed
  | .again => .again
  | .failed => .failed
  | .moved x => .moved (f x)

/-- The attempts of a `readn` of `left` bytes, as the stream answers them. -/
def onStream : Nat → Bytes → List (Attempt Nat) → List (Attempt Bytes)
  | _, _, [] => []
  | left, stream, a :: as =>
    let taken := (stream.take a.amount).take left
    a.map stream.take :: onStream (left - taken.length) (stream.drop taken.length) as

variable {stream msg : Bytes} {size : Nat} {as : List (Attempt Nat)}

theorem onStream_from {sum : Bytes} (hsum : sum <+: stream) :
    transfer size (fun bs sum => bs.take (size - sum.length))
        (onStream (size - sum.length) (stream.drop sum.length) as) sum =
      transfer size (fun n sum => ((stream.drop sum.length).take (size - sum.length)).take n) as sum := by
  induction as generalizing sum with
  | nil => rfl
  | cons a as ih =>
    -- an attempt that moves nothing leaves the stream as it is
    have hidle : a.amount = 0 → onStream (size - sum.length) (stream.drop sum.length) (a :: as) =
        a.map (stream.drop sum.length).take :: onStream (size - sum.length) (stream.drop sum.length) as := by
      intro hzero
      rw [onStream, hzero, List.take_zero, List.take_nil, List.length_nil, Nat.sub_zero, List.drop_zero]
    cases a with
    | timeout => rfl
    | selectFailed => rfl
    | failed => rfl
    | interrupted =>
      rw [hidle rfl]
      exact ih hsum
    | again =>
      rw [hidle rfl]
      exact ih hsum
    | moved n =>
      have hpiece : ((stream.drop sum.length).take n).take (size - sum.length) =
          ((stream.drop sum.length).take (size - sum.length)).take n := by
        rw [List.take_take, List.take_take, Nat.min_comm]
      have hnext := prefix_append_piece size n hsum
      have hrest := ih hnext
      rw [List.length_append, ← Nat.sub_sub, ← List.drop_drop] at hrest
      rw [onStream, Attempt.map, transfer, transfer, Attempt.amount, hpiece]
      by_cases hnil : ((stream.drop sum.length).take (size - sum.length)).take n = []
      · rw [if_pos hnil, if_pos hnil]
      · rw [if_neg hnil, if_neg hnil, hrest]

/-- Reading `size` bytes of a stream moves what writing them would. -/
theorem readn_onStream (stream : Bytes) (size : Nat) (as : List (Attempt Nat)) :
    readn size (onStream size stream as) = writen stream size as :=
  onStream_from List.nil_prefix

/-! ## Section 2: One call -/

theorem prefix_writen (buf : Bytes) (size : Nat) (as : List (Attempt Nat)) : (writen buf size as).2 <+: buf :=
  prefix_transfer (fun n _ => prefix_append_piece size n) List.nil_prefix

theorem writen_length (buf : Bytes) (hpos : 0 < size) :
    (writen buf size as).2.length ≤ size ∧
      ((writen buf size as).1 = some 0 ↔ (writen buf size as).2.length = size) := by
  apply transfer_length _ hpos
  intro n sum
  rw [List.length_take, List.length_take]
  omega

/-- What holds of a call of `writen`, whatever happens to its attempts. -/
structure WritesExactly (msg : Bytes) (as : List (Attempt Nat)) : Prop where
  accepted_part : (writen msg msg.length as).2 <+: msg
  zero_iff_all : (writen msg msg.length as).1 = some 0 ↔ (writen msg msg.length as).2 = msg
  zero_iff_completes : (writen msg msg.length as).1 = some 0 ↔ Completes id msg.length as
  uninterrupted : writen msg msg.length (as.filter Attempt.decides) = writen msg msg.length as

theorem writesExactly (hmsg : msg ≠ []) : WritesExactly msg as where
  accepted_part := prefix_writen ..
  zero_iff_all := by
    rw [(writen_length msg (List.length_pos_iff.mpr hmsg)).2]
    constructor
    · exact (prefix_writen msg msg.length as).eq_of_length
    · exact congrArg List.length
  zero_iff_completes :=
    transfer_completes_iff (fun n _ => length_piece (Nat.le_refl _) n) (List.length_pos_iff.mpr hmsg)
  uninterrupted := transfer_filter

/-- What holds of a call of `readn`. -/
structure ReadsExactly (stream : Bytes) (size : Nat) (as : List (Attempt Nat)) : Prop where
  next_bytes : (readn size (onStream size stream as)).2 <+: stream
  no_more : (readn size (onStream size stream as)).2.length ≤ size
  zero_iff_all : (readn size (onStream size stream as)).1 = some 0 ↔
    (readn size (onStream size stream as)).2.length = size
  zero_iff_completes : (readn size (onStream size stream as)).1 = some 0 ↔
    Completes List.length size (onStream size stream as)
  uninterrupted : readn size (onStream size stream (as.filter Attempt.decides)) =
    readn size (onStream size stream as)

theorem readsExactly (hpos : 0 < size) : ReadsExactly stream size as where
  next_bytes := by
    rw [readn_onStream]
    exact prefix_writen ..
  no_more := by
    rw [readn_onStream]
    exact (writen_length stream hpos).1
  zero_iff_all := by
    rw [readn_onStream]
    exact (writen_length stream hpos).2
  zero_iff_completes := by
    apply transfer_completes_iff _ hpos
    intro bs sum
    rw [List.length_take, Nat.min_comm]
  uninterrupted := by
    rw [readn_onStream, readn_onStream]
    exact transfer_filter

/-! ## Section 3: Back-to-back calls -/

/-- A message, with what happens while it is written and while as many bytes
    are read. -/
structure Passage where
  msg : Bytes
  writes : List (Attempt Nat)
  reads : List (Attempt Nat)

/-- What `writen` returns, and the bytes it puts into the stream. -/
def Passage.sent (c : Passage) : Option Int × Bytes := writen c.msg c.msg.length c.writes

/-- Calls of `readn`, one after the other. -/
def recvAll : Bytes → List Passage → List (Option Int × Bytes)
  | _, [] => []
  | stream, c :: calls =>
    let got := readn c.msg.length (onStream c.msg.length stream c.reads)
    got :: recvAll (stream.drop got.2.length) calls

/-- Each message that is written comes back in the call that asks for its
    size, also when more follows. -/
theorem recvAll_messages {calls : List Passage} (hmsg : ∀ c ∈ calls, c.msg ≠ [])
    (hsent : ∀ c ∈ calls, c.sent.1 = some 0) (rest : Bytes)
    (hrecv : ∀ got ∈ recvAll ((calls.map fun c => c.sent.2).flatten ++ rest) calls, got.1 = some 0) :
    recvAll ((calls.map fun c => c.sent.2).flatten ++ rest) calls = calls.map fun c => (some 0, c.msg) := by
  induction calls with
  | nil => rfl
  | cons c calls ih =>
    have hall : c.sent.2 = c.msg :=
      (writesExactly (hmsg c List.mem_cons_self)).zero_iff_all.mp (hsent c List.mem_cons_self)
    have hpos := List.length_pos_iff.mpr (hmsg c List.mem_cons_self)
    rw [List.map_cons, List.flatten_cons, hall, List.append_assoc, recvAll] at hrecv ⊢
    obtain ⟨hhead, htail⟩ := List.forall_mem_cons.mp hrecv
    generalize htail_stream : (calls.map fun c => c.sent.2).flatten ++ rest = behind at hrecv hhead htail ⊢
    have hread : ReadsExactly (c.msg ++ behind) c.msg.length c.reads := readsExactly hpos
    have hlength := hread.zero_iff_all.mp hhead
    have hgot : readn c.msg.length (onStream c.msg.length (c.msg ++ behind) c.reads) = (some 0, c.msg) := by
      have hprefix := List.prefix_iff_eq_take.mp hread.next_bytes
      rw [hlength, List.take_left] at hprefix
      exact Prod.ext hhead hprefix
    rw [hgot, List.drop_left] at htail ⊢
    subst htail_stream
    rw [ih (fun c hc => hmsg c (List.mem_cons_of_mem _ hc)) (fun c hc => hsent c (List.mem_cons_of_mem _ hc)) htail,
      List.map_cons]

/-- **Exact transfer**: `writen` returns 0 just when the whole message is
    accepted, and what is accepted is always a first part of it; `readn`
    returns 0 just when it has as many bytes as asked for, and takes the next
    bytes of the stream and no others; interruptions make no difference to
    either; and messages written back to back are read one by one. -/
theorem transfer_exact :
    (∀ msg : Bytes, msg ≠ [] → ∀ as, WritesExactly msg as) ∧
      (∀ (stream : Bytes) (size : Nat), 0 < size → ∀ as, ReadsExactly stream size as) ∧
      ∀ (calls : List Passage) (rest : Bytes), (∀ c ∈ calls, c.msg ≠ []) → (∀ c ∈ calls, c.sent.1 = some 0) →
        (∀ got ∈ recvAll ((calls.map fun c => c.sent.2).flatten ++ rest) calls, got.1 = some 0) →
        recvAll ((calls.map fun c => c.sent.2).flatten ++ rest) calls = calls.map fun c => (some 0, c.msg) :=
  ⟨fun _ hmsg _ => writesExactly hmsg, fun _ _ hpos _ => readsExactly hpos,
    fun _ rest hmsg hsent hrecv => recvAll_messages hmsg hsent rest hrecv⟩

/-- Two messages, each in two parts, and one more byte. -/
def twoMessages : List Passage :=
  [⟨[1, 2, 3], [.moved 1, .again, .moved 2], [.moved 2, .interrupted, .moved 9]⟩,
    ⟨[4, 5], [.interrupted, .moved 1, .moved 1], [.again, .moved 1, .moved 1]⟩]

theorem transfer_exact_two :
    WritesExactly [1, 2, 3] [.moved 1, .again, .moved 2] ∧
      ReadsExactly [1, 2, 3, 4, 5, 6] 3 [.moved 2, .interrupted, .moved 9] ∧
      recvAll [1, 2, 3, 4, 5, 6] twoMessages = [(some 0, [1, 2, 3]), (some 0, [4, 5])] :=
  ⟨transfer_exact.1 [1, 2, 3] (by decide) _, transfer_exact.2.1 _ 3 (by decide) _,
    transfer_exact.2.2 twoMessages [6] (by decide) (by decide) (by decide)⟩

end BoAtom
