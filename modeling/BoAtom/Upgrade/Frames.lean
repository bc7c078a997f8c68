import Mathlib
import BoAtom.Upgrade.SendFile

/-! # The frames of a file

    One frame carries its number, the number of frames, the size of the file
    and the checksum of its payload (`Carries`); over the whole file the
    payloads lose nothing (`sendFile_frames`). -/

namespace BoAtom.Upgrade

open Memory Layout

variable {host : Endian} {st_size k : Nat} {bs buf f file : Bytes} {files : List FileRead}
  {peer : List Exchange}

/-! ## Section 1: One frame -/

/-- All the stores `buildFrame` makes. -/
def stores (host : Endian) (st_size cur_frame : Nat) (bs : Bytes) : List (Nat × Bytes) :=
  (payloadAt, bs) ::
    (buildMsgHeader2 host netSys sysNuclearUpdate dataTypeCmd (.ofNat (payloadAt + bs.length)) 1 ++
      [(fileHead.cur_frame, htonl (.ofNat cur_frame)),
       (fileHead.file_len, htonl (.ofNat st_size)),
       (fileHead.crc, htonl (crc32 bs)),
       (fileHead.total_frame, htonl (.ofNat (totalFrame st_size)))])

@[simp] theorem length_htons (v : UInt16) : (htons v).length = 2 := length_bytes16 .big v

@[simp] theorem length_htonl (v : UInt32) : (htonl v).length = 4 := length_bytes32 .big v

theorem stores_apart : (stores host st_size k bs).Pairwise Layout.Apart := by
  simp [stores, buildMsgHeader2, Layout.Apart, payloadAt, frameHead, fileHead]

theorem stores_fit (hbs : bs.length ≤ blockSize) {s : Nat × Bytes} (hs : s ∈ stores host st_size k bs) :
    s.1 + s.2.length ≤ sndBufsize := by
  have hbs' : bs.length ≤ 1212 := hbs
  revert s
  simp [stores, buildMsgHeader2, payloadAt, frameHead, fileHead, sndBufsize]
  omega

theorem buildFrame_eq (hbuf : buf.length = sndBufsize) (hbs : bs.length ≤ blockSize) :
    buildFrame host st_size k bs buf = writeAll buf (stores host st_size k bs) := by
  -- what has been stored when the checksum is taken
  let front := (stores host st_size k bs).take 14
  have hsub : front.Sublist (stores host st_size k bs) := List.take_sublist ..
  have hpayload : field (writeAll buf front) payloadAt bs.length = bs := by
    apply field_writeAll (s := (payloadAt, bs)) _ (stores_apart.sublist hsub) List.mem_cons_self
    intro s hs
    rw [hbuf]
    exact stores_fit hbs (hsub.subset hs)
  simp only [front, stores, buildMsgHeader2, writeAll, List.cons_append, List.nil_append,
    List.take_succ_cons, List.take_zero, List.foldl_cons, List.foldl_nil] at hpayload
  simp only [buildFrame, stores, buildMsgHeader2, writeAll, List.cons_append, List.nil_append,
    List.foldl_cons, List.foldl_nil]
  rw [hpayload]

theorem field_buildFrame (hbuf : buf.length = sndBufsize) (hbs : bs.length ≤ blockSize)
    {s : Nat × Bytes} (hs : s ∈ stores host st_size k bs) :
    field (buildFrame host st_size k bs buf) s.1 s.2.length = s.2 := by
  rw [buildFrame_eq hbuf hbs]
  apply field_writeAll _ stores_apart hs
  intro t ht
  rw [hbuf]
  exact stores_fit hbs ht

theorem length_buildFrame (hbuf : buf.length = sndBufsize) :
    (buildFrame host st_size k bs buf).length = sndBufsize := by
  simp only [buildFrame, length_overlay, length_writeAll, hbuf]

/-- **Frame `k`** of a file of `st_size` bytes. -/
structure Carries (host : Endian) (st_size k : Nat) (f : Bytes) : Prop where
  cur_frame : (ntohl (field f fileHead.cur_frame 4)).toNat = k
  total_frame : (ntohl (field f fileHead.total_frame 4)).toNat = totalFrame st_size
  file_len : (ntohl (field f fileHead.file_len 4)).toNat = st_size
  pktlen : (word32 host (field f frameHead.Pktlen 4)).toNat = f.length
  crc : ntohl (field f fileHead.crc 4) = crc32 (f.drop payloadAt)
  payload : f.drop payloadAt ≠ []

theorem ntohl_htonl (v : UInt32) : ntohl (htonl v) = v := by
  have hword := word32_bytes32 .big v []
  rwa [List.append_nil] at hword

/-- A field of the buffer that goes out is a field of the frame. -/
theorem field_take {off n m : Nat} (h : off + n ≤ m) : field (buf.take m) off n = field buf off n := by
  rw [field, field, List.drop_take, List.take_take, Nat.min_eq_left (by omega)]

theorem drop_frame (hbuf : buf.length = sndBufsize) (hbs : bs.length ≤ blockSize) :
    ((buildFrame host st_size k bs buf).take (payloadAt + bs.length)).drop payloadAt = bs := by
  have hfield : field (buildFrame host st_size k bs buf) payloadAt bs.length = bs :=
    field_buildFrame hbuf hbs (s := (payloadAt, bs)) List.mem_cons_self
  rwa [List.drop_take, Nat.add_sub_cancel_left]

/-- What is stored before the payload is in the frame. -/
theorem field_frame (hbuf : buf.length = sndBufsize) (hbs : bs.length ≤ blockSize) {s : Nat × Bytes}
    (hs : s ∈ stores host st_size k bs) (hhead : s.1 + s.2.length ≤ payloadAt) :
    field ((buildFrame host st_size k bs buf).take (payloadAt + bs.length)) s.1 s.2.length = s.2 := by
  rw [field_take (hhead.trans (Nat.le_add_right ..))]
  exact field_buildFrame hbuf hbs hs

theorem length_frame (hbuf : buf.length = sndBufsize) (hbs : bs.length ≤ blockSize) :
    ((buildFrame host st_size k bs buf).take (payloadAt + bs.length)).length = payloadAt + bs.length := by
  have hbs' : bs.length ≤ 1212 := hbs
  rw [List.length_take, length_buildFrame hbuf, Nat.min_eq_left]
  simp only [payloadAt, frameHead, fileHead, sndBufsize]
  omega

theorem totalFrame_lt {n : Nat} (h : st_size < n) : totalFrame st_size < n + 1 := by
  have hle : (st_size + 1211) / 1212 ≤ st_size := by omega
  exact Nat.lt_succ_of_lt (Nat.lt_of_le_of_lt hle h)

theorem frame_carries (hbuf : buf.length = sndBufsize) (hbs : bs.length ≤ blockSize) (hne : bs ≠ [])
    (hk : k < 2 ^ 32) (hsize : st_size < 2 ^ 31) :
    Carries host st_size k ((buildFrame host st_size k bs buf).take (payloadAt + bs.length)) := by
  have hpayload := @drop_frame host st_size k bs buf hbuf hbs
  -- a 32-bit field in network order gives back what was stored
  have hword : ∀ off v, (off, htonl v) ∈ stores host st_size k bs → off + 4 ≤ payloadAt →
      ntohl (field ((buildFrame host st_size k bs buf).take (payloadAt + bs.length)) off 4) = v := by
    intro off v hs hhead
    have hfield := field_frame hbuf hbs hs (by rwa [length_htonl])
    rw [length_htonl] at hfield
    rw [hfield, ntohl_htonl]
  have htotal := totalFrame_lt hsize
  exact
    { cur_frame := by
        rw [hword fileHead.cur_frame (.ofNat k) (by simp [stores]) (by decide)]
        exact UInt32.toNat_ofNat_of_lt' hk
      total_frame := by
        rw [hword fileHead.total_frame (.ofNat (totalFrame st_size)) (by simp [stores]) (by decide)]
        exact UInt32.toNat_ofNat_of_lt' (htotal.trans (by decide))
      file_len := by
        rw [hword fileHead.file_len (.ofNat st_size) (by simp [stores]) (by decide)]
        exact UInt32.toNat_ofNat_of_lt' (hsize.trans (by decide))
      pktlen := by
        have hstored : (frameHead.Pktlen, bytes32 host (.ofNat (payloadAt + bs.length))) ∈
            stores host st_size k bs := by simp [stores, buildMsgHeader2]
        have hfield := field_frame hbuf hbs hstored
          (by rw [length_bytes32]; exact Nat.le_of_ble_eq_true rfl)
        rw [length_bytes32] at hfield
        have hbytes := word32_bytes32 host (.ofNat (payloadAt + bs.length)) []
        rw [List.append_nil] at hbytes
        rw [hfield, hbytes, length_frame hbuf hbs]
        apply UInt32.toNat_ofNat_of_lt'
        exact Nat.lt_of_le_of_lt (Nat.add_le_add_left hbs payloadAt) (by decide)
      crc := by
        rw [hword fileHead.crc (crc32 bs) (by simp [stores]) (by decide), hpayload]
      payload := by rwa [hpayload] }

/-! ## Section 2: The file and the peer -/

/-- The reads return full blocks until the end of the file. -/
inductive FullBlocks : Bytes → List FileRead → Prop where
  | eof {files : List FileRead} : FullBlocks [] (.data [] :: files)
  | block {file : Bytes} {files : List FileRead} (hne : file ≠ [])
      (hrest : FullBlocks (file.drop blockSize) files) :
      FullBlocks file (.data (file.take blockSize) :: files)

/-- The peer takes every frame of the file and acknowledges it with success;
    the rest of an acknowledgement is its own. -/
inductive Acknowledged : Bytes → List Exchange → Prop where
  | eof {peer : List Exchange} : Acknowledged [] peer
  | frame {file : Bytes} {x : Exchange} {peer : List Exchange} (hne : file ≠ [])
      (hwrites : Completes id (payloadAt + (file.take blockSize).length) x.writes)
      (hreads : Completes List.length ackSize x.reads)
      (hstate : ntohl ((offered x.reads).drop frameHead.size) = appNetTcpStateSuccess)
      (hrest : Acknowledged (file.drop blockSize) peer) : Acknowledged file (x :: peer)

/-- The frames of what follows the first block. -/
theorem totalFrame_drop (hne : file ≠ []) :
    totalFrame file.length = totalFrame (file.drop blockSize).length + 1 := by
  have hpos : 0 < file.length := List.length_pos_iff.mpr hne
  have htotal : ∀ n, totalFrame n = (n + 1212 - 1) / 1212 := fun n => rfl
  have hblock : blockSize = 1212 := rfl
  rw [List.length_drop, htotal, htotal, hblock]
  omega

theorem length_offered {n : Nat} {as : List (Attempt Bytes)} (h : Completes List.length n as) :
    n ≤ (offered as).length := by
  induction h with
  | last _ hle =>
    rw [offered, List.length_append]
    omega
  | part _ hlt _ ih =>
    rw [offered, List.length_append]
    omega
  | interrupted _ ih => exact ih
  | again _ ih => exact ih

/-- The state of an acknowledgement, where `send_file` looks for it. -/
theorem state_overlay (hbuf : buf.length = sndBufsize) {ack : Bytes} (hack : ackSize ≤ ack.length) :
    ntohl ((overlay buf 0 (ack.take ackSize)).drop frameHead.size) = ntohl (ack.drop frameHead.size) := by
  have hfour : ∀ bs : Bytes, 4 ≤ bs.length → ∀ r, ntohl (bs.take 4 ++ r) = ntohl bs := by
    intro bs hlen r
    unfold ntohl word32
    rw [List.take_left' (by rw [List.length_take]; omega)]
  have hlen : (ack.take ackSize).length = ackSize := by
    rw [List.length_take, Nat.min_eq_left hack]
  have hsize : ackSize = frameHead.size + 4 := rfl
  rw [overlay_eq (by rw [hlen, hbuf]; decide), List.take_zero, List.nil_append, List.drop_append_of_le_length
    (by rw [hlen]; decide), List.drop_take, hsize, Nat.add_sub_cancel_left]
  apply hfour
  rw [List.length_drop]
  omega

theorem take_block_ne_nil {rest : Bytes} (hne : rest ≠ []) : rest.take blockSize ≠ [] := by
  rw [Ne, List.take_eq_nil_iff]
  rintro (hzero | hnil)
  · exact absurd hzero (by decide)
  · exact hne hnil

/-- A frame that is taken and acknowledged with success: the loop goes on with
    the next block, in the buffer the acknowledgement was read into. -/
theorem sendLoop_frame {rest : Bytes} {x : Exchange} (hne : rest ≠ []) (hbuf : buf.length = sndBufsize)
    (hwrites : Completes id (payloadAt + (rest.take blockSize).length) x.writes)
    (hreads : Completes List.length ackSize x.reads)
    (hstate : ntohl ((offered x.reads).drop frameHead.size) = appNetTcpStateSuccess) :
    sendLoop host st_size (.data rest :: files) (x :: peer) k buf =
      let buf' := buildFrame host st_size k (rest.take blockSize) buf
      let next := sendLoop host st_size files peer (k + 1)
        (overlay buf' 0 ((offered x.reads).take ackSize))
      (next.1, buf'.take (payloadAt + (rest.take blockSize).length) :: next.2) := by
  have hblock := take_block_ne_nil hne
  have hlen : (buildFrame host st_size k (rest.take blockSize) buf).length = sndBufsize :=
    length_buildFrame hbuf
  have hfits : payloadAt + (rest.take blockSize).length ≤
      (buildFrame host st_size k (rest.take blockSize) buf).length := by
    rw [hlen]
    exact Nat.add_le_add_left (List.length_take_le ..) payloadAt
  have hsent := writen_completes hwrites hfits
  have hread := readn_completes hreads
  have hack := state_overlay hlen (length_offered hreads)
  have hnonneg : ¬ (0 : Int) < 0 := Int.lt_irrefl 0
  simp only [sendLoop, hblock, if_false, hsent, hnonneg, hread, hack, hstate, ne_eq, not_true_eq_false]

/-! ## Section 3: The whole file -/

/-- The loop, from the block `k` on. -/
theorem sendLoop_frames (host : Endian) (hfile : FullBlocks file files) (hpeer : Acknowledged file peer)
    (hbuf : buf.length = sndBufsize) (hk : k + totalFrame file.length ≤ 2 ^ 32) (hsize : st_size < 2 ^ 31) :
    ∃ frames, sendLoop host st_size files peer k buf = (some 0, frames) ∧
      frames.length = totalFrame file.length ∧
      (∀ i (h : i < frames.length), Carries host st_size (k + i) frames[i]) ∧
      (frames.map (List.drop payloadAt)).flatten = file := by
  induction hfile generalizing peer k buf with
  | eof => exact ⟨[], rfl, rfl, fun i h => absurd h (Nat.not_lt_zero i), rfl⟩
  | @block file files hne _ ih =>
    cases hpeer with
    | eof => exact absurd rfl hne
    | @frame _ x peer _ hwrites hreads hstate hrest =>
      have hcount := totalFrame_drop hne
      have hbs : (file.take blockSize).length ≤ blockSize := List.length_take_le ..
      have hblock := take_block_ne_nil hne
      have hfull : (file.take blockSize).take blockSize = file.take blockSize := by
        rw [List.take_take, Nat.min_self]
      have hlen : (overlay (buildFrame host st_size k (file.take blockSize) buf) 0
          ((offered x.reads).take ackSize)).length = sndBufsize := by
        rw [length_overlay, length_buildFrame hbuf]
      obtain ⟨frames, hrun, hframes, hcarry, hcat⟩ := ih hrest (k := k + 1) hlen (by omega)
      refine ⟨(buildFrame host st_size k (file.take blockSize) buf).take
        (payloadAt + (file.take blockSize).length) :: frames, ?_, ?_, ?_, ?_⟩
      · rw [sendLoop_frame hblock hbuf (by rw [hfull]; exact hwrites) hreads hstate]
        dsimp only
        rw [hfull, hrun]
      · rw [List.length_cons, hframes, hcount]
      · intro i hi
        cases i with
        | zero =>
          rw [List.getElem_cons_zero]
          exact frame_carries hbuf hbs hblock (by omega) hsize
        | succ i =>
          rw [List.getElem_cons_succ, ← Nat.add_assoc, Nat.add_right_comm]
          exact hcarry i _
      · rw [List.map_cons, List.flatten_cons, hcat, drop_frame hbuf hbs, List.take_append_drop]

/-- **Framing**: a file whose blocks are all read, and whose frames are all
    acknowledged, goes out as `⌈size / 1212⌉` frames, numbered from 1; each
    frame has the number of frames, the size of the file, its own length and
    the checksum of its payload, and the payloads together are the file. -/
theorem sendFile_frames (host : Endian) (file : Bytes) (files : List FileRead) (peer : List Exchange)
    (hsize : file.length < 2 ^ 31) (hfile : FullBlocks file files)
    (hpeer : Acknowledged file peer) :
    ∃ frames, sendFile host (some file.length) files peer = (some 0, frames) ∧
      frames.length = file.length ⌈/⌉ 1212 ∧
      (∀ k (h : k < frames.length),
        (ntohl (field frames[k] fileHead.cur_frame 4)).toNat = k + 1 ∧
        (ntohl (field frames[k] fileHead.total_frame 4)).toNat = frames.length ∧
        (ntohl (field frames[k] fileHead.file_len 4)).toNat = file.length ∧
        (word32 host (field frames[k] frameHead.Pktlen 4)).toNat = frames[k].length ∧
        ntohl (field frames[k] fileHead.crc 4) = crc32 (frames[k].drop payloadAt) ∧
        frames[k].drop payloadAt ≠ []) ∧
      (frames.map (List.drop payloadAt)).flatten = file := by
  have hbound := totalFrame_lt hsize
  have hbuf : (List.replicate sndBufsize (0 : UInt8)).length = sndBufsize := List.length_replicate
  obtain ⟨frames, hrun, hlen, hcarry, hcat⟩ :=
    sendLoop_frames host hfile hpeer hbuf (k := 1) (by omega) hsize
  refine ⟨frames, hrun, hlen, ?_, hcat⟩
  intro k hk
  have hframe := hcarry k hk
  rw [Nat.add_comm 1 k] at hframe
  exact ⟨hframe.cur_frame, hframe.total_frame.trans hlen.symm, hframe.file_len, hframe.pktlen,
    hframe.crc, hframe.payload⟩

/-- Two blocks and 6 bytes. -/
def longFile : Bytes := (List.range 2430).map UInt8.ofNat

/-- The three blocks as they are read. -/
def longReads : List FileRead :=
  [.data (longFile.take blockSize), .data ((longFile.drop blockSize).take blockSize),
    .data (((longFile.drop blockSize).drop blockSize).take blockSize), .data []]

/-- A peer that answers every frame with an acknowledgement of success. -/
def acknowledging (writes : List (Attempt Nat)) : Exchange :=
  ⟨writes, [.moved (List.replicate 20 0), .interrupted, .moved (List.replicate 20 0)]⟩

theorem length_longFile : longFile.length = 2430 := by
  rw [longFile, List.length_map, List.length_range]

theorem drop_longFile_ne_nil {n : Nat} (hn : n < 2430) : longFile.drop n ≠ [] := by
  apply List.ne_nil_of_length_pos
  rw [List.length_drop, length_longFile]
  omega

theorem longFile_ne_nil : longFile ≠ [] := drop_longFile_ne_nil (n := 0) (by decide)

theorem drop_longFile_end : ((longFile.drop blockSize).drop blockSize).drop blockSize = [] := by
  rw [List.drop_drop, List.drop_drop, List.drop_eq_nil_of_le (by rw [length_longFile]; decide)]

theorem fullBlocks_longFile : FullBlocks longFile longReads := by
  have hend : FullBlocks (((longFile.drop blockSize).drop blockSize).drop blockSize) [.data []] := by
    rw [drop_longFile_end]
    exact .eof
  apply FullBlocks.block longFile_ne_nil
  apply FullBlocks.block (drop_longFile_ne_nil (by decide))
  apply FullBlocks.block _ hend
  rw [List.drop_drop]
  exact drop_longFile_ne_nil (by decide)

/-- Three frames, the second of them written in three steps. -/
theorem sendFile_frames_long :
    ∃ frames, sendFile .little (some longFile.length) longReads
        [acknowledging [.moved 1280], acknowledging [.moved 1000, .again, .moved 200, .moved 80],
          acknowledging [.moved 74]] = (some 0, frames) ∧
      frames.length = longFile.length ⌈/⌉ 1212 ∧
      (∀ k (h : k < frames.length),
        (ntohl (field frames[k] fileHead.cur_frame 4)).toNat = k + 1 ∧
        (ntohl (field frames[k] fileHead.total_frame 4)).toNat = frames.length ∧
        (ntohl (field frames[k] fileHead.file_len 4)).toNat = longFile.length ∧
        (word32 .little (field frames[k] frameHead.Pktlen 4)).toNat = frames[k].length ∧
        ntohl (field frames[k] fileHead.crc 4) = crc32 (frames[k].drop payloadAt) ∧
        frames[k].drop payloadAt ≠ []) ∧
      (frames.map (List.drop payloadAt)).flatten = longFile := by
  have hreads : ∀ writes, Completes List.length ackSize (acknowledging writes).reads := fun _ =>
    .part (by decide) (by decide) (.interrupted (.last (by decide) (by decide)))
  have hstate : ∀ writes, ntohl ((offered (acknowledging writes).reads).drop frameHead.size) =
      appNetTcpStateSuccess := fun _ => rfl
  have hfull : (longFile.take blockSize).length = 1212 := by
    rw [List.length_take, length_longFile]
    rfl
  have hnext : ((longFile.drop blockSize).take blockSize).length = 1212 := by
    rw [List.length_take, List.length_drop, length_longFile]
    rfl
  have hrest : (((longFile.drop blockSize).drop blockSize).take blockSize).length = 6 := by
    rw [List.length_take, List.length_drop, List.length_drop, length_longFile]
    rfl
  have hend : Acknowledged (((longFile.drop blockSize).drop blockSize).drop blockSize) [] := by
    rw [drop_longFile_end]
    exact .eof
  apply sendFile_frames .little longFile
  · rw [length_longFile]
    decide
  · exact fullBlocks_longFile
  · apply Acknowledged.frame longFile_ne_nil _ (hreads _) (hstate _)
    · apply Acknowledged.frame (drop_longFile_ne_nil (by decide)) _ (hreads _) (hstate _)
      · apply Acknowledged.frame _ _ (hreads _) (hstate _) hend
        · rw [List.drop_drop]
          exact drop_longFile_ne_nil (by decide)
        · rw [hrest]
          exact .last (by decide) (by decide)
      · rw [hnext]
        exact .part (by decide) (by decide) (.again (.part (by decide) (by decide)
          (.last (by decide) (by decide))))
    · rw [hfull]
      exact .last (by decide) (by decide)

end BoAtom.Upgrade
