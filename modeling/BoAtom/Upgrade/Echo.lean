import BoAtom.Upgrade.Frames

/-! # What a frame echoes

    The acknowledgement of a frame is read into the buffer the next frame is
    built in.  `buildFrame` stores to every byte of the two headers but
    `Rev1`, `Rev2` and `Rev3`, `ip_include` and `reserve`: `ip_include` lies
    where an acknowledgement of success has its zero state, `reserve` lies
    behind the acknowledgement, and the ten bytes of the `Rev` fields go out
    again as the peer has sent them (`frame_eq_iff`). -/

namespace BoAtom.Upgrade

open Memory Layout

variable {host : Endian} {st_size k : Nat} {bs buf buf' : Bytes} {files : List FileRead}
  {peer peer' : List Exchange} {acks acks' : List Bytes}

/-! ## Section 1: Acknowledged frames -/

/-- The peer takes each frame and acknowledges it with success; `acks` are
    the acknowledgements. -/
inductive Answered : List FileRead → List Exchange → List Bytes → Prop where
  | unread {peer : List Exchange} : Answered [] peer []
  | failed {files : List FileRead} {peer : List Exchange} : Answered (.failed :: files) peer []
  | eof {files : List FileRead} {peer : List Exchange} : Answered (.data [] :: files) peer []
  | frame {rest : Bytes} {files : List FileRead} {x : Exchange} {peer : List Exchange}
      {acks : List Bytes} (hne : rest ≠ [])
      (hwrites : Completes id (payloadAt + (rest.take blockSize).length) x.writes)
      (hreads : Completes List.length ackSize x.reads)
      (hstate : ntohl ((offered x.reads).drop frameHead.size) = appNetTcpStateSuccess)
      (hrest : Answered files peer acks) :
      Answered (.data rest :: files) (x :: peer) ((offered x.reads).take ackSize :: acks)

/-- `Rev1`, `Rev2` and `Rev3`. -/
def revFields (b : Bytes) : Bytes := field b frameHead.Rev1 10

/-- The buffer before a frame is built: the fields without a store are zero,
    but for `Rev1`, `Rev2` and `Rev3`. -/
structure Blank (buf : Bytes) : Prop where
  length : buf.length = sndBufsize
  ip_include : field buf fileHead.ip_include 4 = List.replicate 4 0
  reserve : field buf fileHead.reserve 16 = List.replicate 16 0

/-! ## Section 2: One frame -/

/-- The frame that goes out. -/
def frameOf (host : Endian) (st_size k : Nat) (bs buf : Bytes) : Bytes :=
  (buildFrame host st_size k bs buf).take (payloadAt + bs.length)

theorem getElem?_field (b : Bytes) (off n i : Nat) :
    (field b off n)[i]? = if i < n then b[off + i]? else none := by
  rw [field, List.getElem?_take, List.getElem?_drop]

/-- A field that no store touches. -/
theorem field_buildFrame_apart (hbuf : buf.length = sndBufsize) (hbs : bs.length ≤ blockSize) {off n : Nat}
    (hapart : ∀ s ∈ stores host st_size k bs, off + n ≤ s.1 ∨ s.1 + s.2.length ≤ off) :
    field (buildFrame host st_size k bs buf) off n = field buf off n := by
  rw [buildFrame_eq hbuf hbs]
  apply field_writeAll_apart _ hapart
  intro s hs
  rw [hbuf]
  exact stores_fit hbs hs

theorem revFields_buildFrame (hbuf : buf.length = sndBufsize) (hbs : bs.length ≤ blockSize) :
    revFields (buildFrame host st_size k bs buf) = revFields buf := by
  apply field_buildFrame_apart hbuf hbs
  simp [stores, buildMsgHeader2, payloadAt, frameHead, fileHead]

theorem reserve_buildFrame (hbuf : buf.length = sndBufsize) (hbs : bs.length ≤ blockSize) :
    field (buildFrame host st_size k bs buf) fileHead.reserve 16 = field buf fileHead.reserve 16 := by
  apply field_buildFrame_apart hbuf hbs
  simp [stores, buildMsgHeader2, payloadAt, frameHead, fileHead]

/-- Each byte in front of the end of the payload is stored to, or belongs to
    one of the fields left out. -/
theorem stored_or_left (host : Endian) (st_size k : Nat) {i : Nat} (hi : i < payloadAt + bs.length) :
    (∃ s ∈ stores host st_size k bs, s.1 ≤ i ∧ i < s.1 + s.2.length) ∨ (22 ≤ i ∧ i < 32) ∨
      (32 ≤ i ∧ i < 36) ∨ (52 ≤ i ∧ i < 68) := by
  have hpay : payloadAt = 68 := rfl
  rw [hpay] at hi
  simp only [stores, buildMsgHeader2, List.mem_cons, List.not_mem_nil, or_false, exists_eq_or_imp,
    exists_eq_left, or_assoc, payloadAt, frameHead, fileHead, List.length_cons, List.length_nil,
    length_htons, length_htonl, length_bytes16, length_bytes32, List.cons_append, List.nil_append]
  omega

/-- **Two frames with the same payload** are the same where the buffers they
    are built in have the same `Rev` fields, and only there. -/
theorem frame_eq_iff (hbuf : Blank buf) (hbuf' : Blank buf') (hbs : bs.length ≤ blockSize) :
    frameOf host st_size k bs buf = frameOf host st_size k bs buf' ↔ revFields buf = revFields buf' := by
  constructor
  · intro heq
    have hrev : ∀ b, b.length = sndBufsize → revFields (frameOf host st_size k bs b) = revFields b := by
      intro b hb
      rw [revFields, frameOf, field_take (by simp [payloadAt, frameHead, fileHead]; omega)]
      exact revFields_buildFrame hb hbs
    rw [← hrev buf hbuf.length, heq, hrev buf' hbuf'.length]
  · intro heq
    have hlen : buf.length = buf'.length := by rw [hbuf.length, hbuf'.length]
    -- byte by byte, from fields that agree
    have hfield : ∀ off n i, field buf off n = field buf' off n → off ≤ i → i < off + n →
        buf[i]? = buf'[i]? := by
      intro off n i hsame hle hlt
      have hbyte := congrArg (fun l => l[i - off]?) hsame
      simp only [getElem?_field, if_pos (show i - off < n by omega)] at hbyte
      rwa [Nat.add_sub_of_le hle] at hbyte
    apply List.ext_getElem?
    intro i
    rw [frameOf, frameOf, List.getElem?_take, List.getElem?_take]
    by_cases hi : i < payloadAt + bs.length
    · rw [if_pos hi, if_pos hi, buildFrame_eq hbuf.length hbs, buildFrame_eq hbuf'.length hbs]
      apply writeAll_agree hlen
      rcases stored_or_left host st_size k hi with hs | hrev | hip | hres
      · exact Or.inl hs
      · exact Or.inr (hfield frameHead.Rev1 10 i heq hrev.1 hrev.2)
      · have hsame := hbuf.ip_include.trans hbuf'.ip_include.symm
        exact Or.inr (hfield fileHead.ip_include 4 i hsame hip.1 hip.2)
      · have hsame := hbuf.reserve.trans hbuf'.reserve.symm
        exact Or.inr (hfield fileHead.reserve 16 i hsame hres.1 hres.2)
    · rw [if_neg hi, if_neg hi]

/-! ## Section 3: One acknowledgement -/

/-- Four bytes that make up zero. -/
theorem zeros_of_ntohl (h : ntohl bs = 0) (hlen : 4 ≤ bs.length) : bs.take 4 = List.replicate 4 0 := by
  obtain ⟨a, b, c, d, hfour⟩ : ∃ a b c d, bs.take 4 = [a, b, c, d] := by
    rcases bs with _ | ⟨a, _ | ⟨b, _ | ⟨c, _ | ⟨d, r⟩⟩⟩⟩
    case cons.cons.cons.cons => exact ⟨a, b, c, d, rfl⟩
    all_goals simp at hlen
  have hzero := congrArg UInt32.toNat h
  rw [ntohl, word32, hfour] at hzero
  simp only [fromDigits, List.foldl_cons, List.foldl_nil, UInt32.toNat_ofNat'] at hzero
  have ha := a.toNat_lt
  have hb := b.toNat_lt
  have hc := c.toNat_lt
  have hd := d.toNat_lt
  have hall : a.toNat = 0 ∧ b.toNat = 0 ∧ c.toNat = 0 ∧ d.toNat = 0 := by
    simp at hzero
    omega
  rw [hfour, UInt8.toNat_inj.mp (show a.toNat = (0 : UInt8).toNat from hall.1),
    UInt8.toNat_inj.mp (show b.toNat = (0 : UInt8).toNat from hall.2.1),
    UInt8.toNat_inj.mp (show c.toNat = (0 : UInt8).toNat from hall.2.2.1),
    UInt8.toNat_inj.mp (show d.toNat = (0 : UInt8).toNat from hall.2.2.2)]
  rfl

/-- The buffer when a successful acknowledgement has been read into it. -/
theorem blank_overlay (host : Endian) (st_size k : Nat) (hbuf : Blank buf) (hbs : bs.length ≤ blockSize) {ack : Bytes}
    (hlen : ack.length = ackSize) (hstate : ntohl (ack.drop frameHead.size) = appNetTcpStateSuccess) :
    Blank (overlay (buildFrame host st_size k bs buf) 0 ack) ∧
      revFields (overlay (buildFrame host st_size k bs buf) 0 ack) = revFields ack := by
  have hframe : (buildFrame host st_size k bs buf).length = sndBufsize := length_buildFrame hbuf.length
  have hfits : 0 + ack.length ≤ (buildFrame host st_size k bs buf).length := by
    rw [hlen, hframe]
    decide
  -- what lies in the acknowledgement
  have hin : ∀ off n, off + n ≤ ackSize →
      field (overlay (buildFrame host st_size k bs buf) 0 ack) off n = field ack off n := by
    intro off n hle
    rw [overlay_eq hfits, List.take_zero, List.nil_append, field, field,
      List.drop_append_of_le_length (by omega), List.take_append_of_le_length (by rw [List.length_drop]; omega)]
  refine ⟨⟨?_, ?_, ?_⟩, hin _ _ (by decide)⟩
  · rw [length_overlay, hframe]
  · rw [hin _ _ (by decide), field]
    apply zeros_of_ntohl hstate
    rw [List.length_drop, hlen]
    decide
  · rw [field_overlay_apart hfits (Or.inr (by rw [hlen]; decide)), reserve_buildFrame hbuf.length hbs]
    exact hbuf.reserve

/-! ## Section 4: The whole file -/

/-- Both loops build the next frame, or neither does. -/
theorem Answered.same_length (h : Answered files peer acks) (h' : Answered files peer' acks') :
    acks.length = acks'.length := by
  induction h generalizing peer' acks' with
  | unread => cases h'; rfl
  | failed => cases h'; rfl
  | eof =>
    cases h' with
    | eof => rfl
    | frame hne => exact absurd rfl hne
  | frame hne _ _ _ _ ih =>
    cases h' with
    | eof => exact absurd rfl hne
    | frame _ _ _ _ hrest => rw [List.length_cons, List.length_cons, ih hrest]

/-- The frames from the block `k` on are the same where the buffers and the
    acknowledgements agree, the last one apart. -/
theorem sendLoop_echo (h : Answered files peer acks) (h' : Answered files peer' acks') (hbuf : Blank buf)
    (hbuf' : Blank buf') :
    (sendLoop host st_size files peer k buf).2 = (sendLoop host st_size files peer' k buf').2 ↔
      (acks ≠ [] → revFields buf = revFields buf') ∧
        acks.dropLast.map revFields = acks'.dropLast.map revFields := by
  induction h generalizing peer' acks' k buf buf' with
  | unread => cases h'; simp [sendLoop]
  | failed => cases h'; simp [sendLoop]
  | eof =>
    cases h' with
    | eof => simp [sendLoop]
    | frame hne => exact absurd rfl hne
  | @frame rest files x peer acks hne hwrites hreads hstate hrest ih =>
    cases h' with
    | eof => exact absurd rfl hne
    | @frame _ _ x' peer' acks' _ hwrites' hreads' hstate' hrest' =>
      have hbs : (rest.take blockSize).length ≤ blockSize := List.length_take_le ..
      have hack : ∀ y : Exchange, Completes List.length ackSize y.reads →
          ntohl ((offered y.reads).drop frameHead.size) = appNetTcpStateSuccess →
          ((offered y.reads).take ackSize).length = ackSize ∧
            ntohl (((offered y.reads).take ackSize).drop frameHead.size) = appNetTcpStateSuccess := by
        intro y hy hzero
        have hlen := length_offered hy
        refine ⟨by rw [List.length_take, Nat.min_eq_left hlen], ?_⟩
        rw [← hzero, List.drop_take, ntohl, ntohl, word32, word32, List.take_take]
        rfl
      obtain ⟨hlen, hzero⟩ := hack x hreads hstate
      obtain ⟨hlen', hzero'⟩ := hack x' hreads' hstate'
      obtain ⟨hblank, hrev⟩ := blank_overlay host st_size k hbuf hbs hlen hzero
      obtain ⟨hblank', hrev'⟩ := blank_overlay host st_size k hbuf' hbs hlen' hzero'
      rw [sendLoop_frame hne hbuf.length hwrites hreads hstate,
        sendLoop_frame hne hbuf'.length hwrites' hreads' hstate']
      dsimp only
      rw [List.cons.injEq, ← frameOf, ← frameOf, frame_eq_iff hbuf hbuf' hbs, ih hrest' hblank hblank',
        hrev, hrev']
      have hsame := hrest.same_length hrest'
      rcases acks with _ | ⟨b, acks⟩
      · rw [List.length_nil] at hsame
        rw [List.eq_nil_of_length_eq_zero hsame.symm]
        simp
      · rcases acks' with _ | ⟨b', acks'⟩
        · simp at hsame
        · simp only [ne_eq, reduceCtorEq, not_false_eq_true, forall_const, List.dropLast_cons_cons,
            List.map_cons, List.cons.injEq]

theorem blank_zeroed : Blank (List.replicate sndBufsize 0) := by
  have hzero : ∀ off n, off + n ≤ sndBufsize →
      field (List.replicate sndBufsize 0) off n = List.replicate n 0 := by
    intro off n hle
    rw [field, List.drop_replicate, List.take_replicate, Nat.min_eq_left (by omega)]
  exact ⟨List.length_replicate, hzero _ _ (by decide), hzero _ _ (by decide)⟩

/-- **Two runs over the same file**, with every frame acknowledged: the
    frames are the same just when the peers agree on the `Rev` fields of all
    acknowledgements but the last. -/
theorem sendFile_same_iff (h : Answered files peer acks) (h' : Answered files peer' acks') :
    (sendFile host (some st_size) files peer).2 = (sendFile host (some st_size) files peer').2 ↔
      acks.dropLast.map revFields = acks'.dropLast.map revFields := by
  rw [sendFile, sendFile, sendLoop_echo h h' blank_zeroed blank_zeroed]
  simp only [implies_true, true_and]

/-- The acknowledgement of success with `v` in the `Rev` fields and `u` in front
    of them. -/
def ackWith (u v : UInt8) : Bytes :=
  List.replicate frameHead.Rev1 u ++ List.replicate 10 v ++ List.replicate 4 0

/-- A peer that takes a frame of `len` bytes and answers `ackWith u v`. -/
def answer (len : Nat) (u v : UInt8) : Exchange where
  writes := [.moved len]
  reads := [.moved (ackWith u v)]

/-- A file of 1213 zero bytes, as it is read. -/
def twoBlocks : List FileRead := [.data (List.replicate (blockSize + 1) 0), .data [0], .data []]

theorem answered_twoBlocks (u v w : UInt8) :
    Answered twoBlocks [answer sndBufsize u v, answer (payloadAt + 1) u w] [ackWith u v, ackWith u w] := by
  have hstate : ∀ w, ntohl ((ackWith u w).drop frameHead.size) = appNetTcpStateSuccess := by
    intro w
    rfl
  have hreads : ∀ w len, Completes List.length ackSize (answer len u w).reads := by
    intro w len
    exact .last (by decide) (Nat.le_refl _)
  have hlen : ((List.replicate (blockSize + 1) (0 : UInt8)).take blockSize).length = blockSize := by
    rw [List.length_take, List.length_replicate]
    rfl
  apply Answered.frame
  · simp
  · rw [hlen]
    exact .last (by decide) (by decide)
  · exact hreads v _
  · exact hstate v
  apply Answered.frame
  · simp
  · exact .last (by decide) (by decide)
  · exact hreads w _
  · exact hstate w
  · exact .eof

/-- Two peers that differ in front of the `Rev` fields, and in the last
    acknowledgement. -/
theorem sendFile_same_iff_alike :
    ackWith 0 3 ≠ ackWith 7 3 ∧
      (sendFile .little (some 1213) twoBlocks [answer sndBufsize 0 3, answer (payloadAt + 1) 0 0]).2 =
        (sendFile .little (some 1213) twoBlocks [answer sndBufsize 7 3, answer (payloadAt + 1) 7 9]).2 :=
  ⟨by decide, (sendFile_same_iff (answered_twoBlocks 0 3 0) (answered_twoBlocks 7 3 9)).mpr (by decide)⟩

/-- The second frame carries what the first acknowledgement has in its `Rev`
    fields. -/
theorem sendFile_echoes :
    Answered twoBlocks [answer sndBufsize 0 0, answer (payloadAt + 1) 0 0] [ackWith 0 0, ackWith 0 0] ∧
      Answered twoBlocks [answer sndBufsize 0 1, answer (payloadAt + 1) 0 0] [ackWith 0 1, ackWith 0 0] ∧
      (sendFile .little (some 1213) twoBlocks [answer sndBufsize 0 0, answer (payloadAt + 1) 0 0]).2 ≠
        (sendFile .little (some 1213) twoBlocks [answer sndBufsize 0 1, answer (payloadAt + 1) 0 0]).2 := by
  have hzeros := answered_twoBlocks 0 0 0
  have hones := answered_twoBlocks 0 1 0
  refine ⟨hzeros, hones, ?_⟩
  intro hsame
  rw [sendFile, sendFile, sendLoop_echo hzeros hones blank_zeroed blank_zeroed] at hsame
  exact absurd hsame.2 (by decide)

end BoAtom.Upgrade
