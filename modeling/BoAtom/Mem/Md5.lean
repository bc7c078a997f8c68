import BoAtom.Md5.Digest

/-! # Z_my_work_mem/test_client/md5.c

    The client's own MD5.  It is written another way than `md5/`: other forms
    of `F`, `G` and `I`, constants as complements, a buffer that keeps old
    bytes, and padding that goes through `md5_append` itself.

    Both give the same digest of the same bytes, however each of them gets
    the bytes (`digests_agree`). -/

namespace BoAtom.ClientMd5

open Memory Layout Blocks
open Md5 (Regs Row X zeros bitsLow bitsHigh padding makeString)

/-! ## Section 1: md5_process -/

def tMask : UInt32 := ~~~0

def F (x y z : UInt32) : UInt32 := (x &&& y) ||| (~~~x &&& z)

def G (x y z : UInt32) : UInt32 := (x &&& z) ||| (y &&& ~~~z)

def H (x y z : UInt32) : UInt32 := x ^^^ y ^^^ z

def I (x y z : UInt32) : UInt32 := y ^^^ (x ||| ~~~z)

def rotateLeft (x n : UInt32) : UInt32 := (x <<< n) ||| (x >>> (32 - n))

/-- `SET(a, b, c, d, k, s, Ti)`, the registers in the order of the next line. -/
def SET (f : UInt32 → UInt32 → UInt32 → UInt32) (data : Bytes) (abcd : Regs) (row : Row) : Regs :=
  let t := abcd.A + f abcd.B abcd.C abcd.D + X data row.1 + row.2.2
  let a := rotateLeft t row.2.1 + abcd.B
  ⟨abcd.D, a, abcd.B, abcd.C⟩

def rounds1 : List Row :=
  [(0, 7, tMask ^^^ 0x28955b87), (1, 12, tMask ^^^ 0x173848a9), (2, 17, 0x242070db),
    (3, 22, tMask ^^^ 0x3e423111), (4, 7, tMask ^^^ 0x0a83f050), (5, 12, 0x4787c62a),
    (6, 17, tMask ^^^ 0x57cfb9ec), (7, 22, tMask ^^^ 0x02b96afe), (8, 7, 0x698098d8),
    (9, 12, tMask ^^^ 0x74bb0850), (10, 17, tMask ^^^ 0x0000a44e),
    (11, 22, tMask ^^^ 0x76a32841), (12, 7, 0x6b901122), (13, 12, tMask ^^^ 0x02678e6c),
    (14, 17, tMask ^^^ 0x5986bc71), (15, 22, 0x49b40821)]

def rounds2 : List Row :=
  [(1, 5, tMask ^^^ 0x09e1da9d), (6, 9, tMask ^^^ 0x3fbf4cbf), (11, 14, 0x265e5a51),
    (0, 20, tMask ^^^ 0x16493855), (5, 5, tMask ^^^ 0x29d0efa2), (10, 9, 0x02441453),
    (15, 14, tMask ^^^ 0x275e197e), (4, 20, tMask ^^^ 0x182c0437), (9, 5, 0x21e1cde6),
    (14, 9, tMask ^^^ 0x3cc8f829), (3, 14, tMask ^^^ 0x0b2af278), (8, 20, 0x455a14ed),
    (13, 5, tMask ^^^ 0x561c16fa), (2, 9, tMask ^^^ 0x03105c07), (7, 14, 0x676f02d9),
    (12, 20, tMask ^^^ 0x72d5b375)]

def rounds3 : List Row :=
  [(5, 4, tMask ^^^ 0x0005c6bd), (8, 11, tMask ^^^ 0x788e097e), (11, 16, 0x6d9d6122),
    (14, 23, tMask ^^^ 0x021ac7f3), (1, 4, tMask ^^^ 0x5b4115bb), (4, 11, 0x4bdecfa9),
    (7, 16, tMask ^^^ 0x0944b49f), (10, 23, tMask ^^^ 0x4140438f), (13, 4, 0x289b7ec6),
    (0, 11, tMask ^^^ 0x155ed805), (3, 16, tMask ^^^ 0x2b10cf7a), (6, 23, 0x04881d05),
    (9, 4, tMask ^^^ 0x262b2fc6), (12, 11, tMask ^^^ 0x1924661a), (15, 16, 0x1fa27cf8),
    (2, 23, tMask ^^^ 0x3b53a99a)]

def rounds4 : List Row :=
  [(0, 6, tMask ^^^ 0x0bd6ddbb), (7, 10, 0x432aff97), (14, 15, tMask ^^^ 0x546bdc58),
    (5, 21, tMask ^^^ 0x036c5fc6), (12, 6, 0x655b59c3), (3, 10, tMask ^^^ 0x70f3336d),
    (10, 15, tMask ^^^ 0x00100b82), (1, 21, tMask ^^^ 0x7a7ba22e), (8, 6, 0x6fa87e4f),
    (15, 10, tMask ^^^ 0x01d3191f), (6, 15, tMask ^^^ 0x5cfebceb), (13, 21, 0x4e0811a1),
    (4, 6, tMask ^^^ 0x08ac817d), (11, 10, tMask ^^^ 0x42c50dca), (2, 15, 0x2ad7d2bb),
    (9, 21, tMask ^^^ 0x14792c6e)]

def md5Process (abcd : Regs) (data : Bytes) : Regs :=
  let x := rounds1.foldl (SET F data) abcd
  let x := rounds2.foldl (SET G data) x
  let x := rounds3.foldl (SET H data) x
  let x := rounds4.foldl (SET I data) x
  ⟨abcd.A + x.A, abcd.B + x.B, abcd.C + x.C, abcd.D + x.D⟩

/-! ## Section 2: md5_init, md5_append, md5_finish -/

structure Md5State where
  count0 : UInt32
  count1 : UInt32
  abcd : Regs
  buf : Bytes
  size : buf.length = 64
  deriving DecidableEq, Repr

def initRegs : Regs := ⟨0x67452301, tMask ^^^ 0x10325476, tMask ^^^ 0x67452301, 0x10325476⟩

/-- The buffer stays as it was. -/
def md5Init (pms : Md5State) : Md5State := { pms with count0 := 0, count1 := 0, abcd := initRegs }

/-- What one call may be given: `nbytes << 3` is an `int`. -/
abbrev Chunk := { data : Bytes // data.length < 2 ^ 28 }

/-- `memcpy(pms->buf + off, p, n)`. -/
def store (pms : Md5State) (off : Nat) (p : Bytes) : Md5State :=
  { pms with buf := overlay pms.buf off p, size := (length_overlay ..).trans pms.size }

/-- The full blocks, then a final partial one. -/
def md5Blocks (pms : Md5State) (p : Bytes) : Md5State :=
  let n := p.length / 64
  let pms := { pms with abcd := feedBlocks 64 md5Process n pms.abcd p }
  let left := p.drop (n * 64)
  if left.length ≠ 0 then store pms 0 left else pms

/-- Update the message length. -/
def md5Count (pms : Md5State) (nbytes : Nat) : Md5State :=
  let nbits := UInt32.ofNat (nbytes <<< 3)
  let count1 := pms.count1 + UInt32.ofNat (nbytes >>> 29)
  let count0 := pms.count0 + nbits
  let count1 := if count0 < nbits then count1 + 1 else count1
  { pms with count0 := count0, count1 := count1 }

/-- An initial partial block first. -/
def md5Data (pms : Md5State) (offset : Nat) (p : Bytes) : Md5State :=
  let nbytes := p.length
  if offset ≠ 0 then
    -- as much as the block still takes
    let copy := if offset + nbytes > 64 then 64 - offset else nbytes
    let pms := store pms offset (p.take copy)
    if offset + copy < 64 then pms
    else md5Blocks { pms with abcd := md5Process pms.abcd pms.buf } (p.drop copy)
  else md5Blocks pms p

def md5Append (pms : Md5State) (data : Chunk) : Md5State :=
  let nbytes := data.val.length
  let offset := ((pms.count0 >>> 3) &&& 63).toNat
  if nbytes = 0 then pms else md5Data (md5Count pms nbytes) offset data.val

/-- `w >> ((i & 3) << 3)`, as a byte. -/
def byteOf (w : UInt32) (i : Nat) : UInt8 := (w >>> UInt32.ofNat ((i &&& 3) <<< 3)).toUInt8

def pad : Bytes := 0x80 :: zeros 63

theorem length_lengthData (pms : Md5State) :
    ((List.range 8).map fun i => byteOf (if i >>> 2 = 0 then pms.count0 else pms.count1) i).length < 2 ^ 28 := by
  simp

/-- The length, saved before the padding is appended. -/
def lengthData (pms : Md5State) : Chunk :=
  ⟨(List.range 8).map fun i => byteOf (if i >>> 2 = 0 then pms.count0 else pms.count1) i, length_lengthData pms⟩

theorem length_pad_take (n : Nat) : (pad.take n).length < 2 ^ 28 := by
  have hpad : pad.length = 64 := by decide
  rw [List.length_take, hpad]
  omega

def md5Finish (pms : Md5State) : Bytes :=
  let data := lengthData pms
  let npad := (((55 : UInt32) - (pms.count0 >>> 3)) &&& 63).toNat + 1
  -- up to 56 bytes modulo 64, then the length saved above
  let pms := md5Append pms ⟨pad.take npad, length_pad_take npad⟩
  let pms := md5Append pms data
  (List.range 16).map fun i => byteOf ([pms.abcd.A, pms.abcd.B, pms.abcd.C, pms.abcd.D].getD (i >>> 2) 0) i

/-! ## Section 3: The same rounds -/

/-- Choosing by the bits of `x`, in the two ways it is written. -/
theorem choose_eq (x y z : UInt32) : (x &&& y) ||| (~~~x &&& z) = ((y ^^^ z) &&& x) ^^^ z := by
  apply UInt32.toBitVec_inj.mp
  apply BitVec.eq_of_getLsbD_eq
  intro i hi
  simp only [UInt32.toBitVec_or, UInt32.toBitVec_and, UInt32.toBitVec_xor, UInt32.toBitVec_not,
    BitVec.getLsbD_or, BitVec.getLsbD_and, BitVec.getLsbD_xor, BitVec.getLsbD_not, hi]
  cases x.toBitVec.getLsbD i <;> cases y.toBitVec.getLsbD i <;> cases z.toBitVec.getLsbD i <;> rfl

theorem F_eq : F = Md5.F := by
  funext b c d
  exact choose_eq b c d

theorem G_eq : G = Md5.G := by
  funext b c d
  -- here `d` chooses
  have hchoose := choose_eq d b c
  rw [UInt32.and_comm d b, UInt32.and_comm (~~~d) c] at hchoose
  exact hchoose

theorem I_eq : I = Md5.I := by
  funext b c d
  rw [I, Md5.I, UInt32.xor_comm, UInt32.or_comm]

theorem rotateLeft_eq (x n : UInt32) : rotateLeft x n = Md5.rotate x n := by
  have hmask : x &&& 0xffffffff = x := UInt32.and_neg_one
  rw [rotateLeft, Md5.rotate, hmask]

theorem SET_eq (f : UInt32 → UInt32 → UInt32 → UInt32) (data : Bytes) : SET f data = Md5.R f data := by
  funext abcd row
  have hsum : abcd.A + f abcd.B abcd.C abcd.D + X data row.1 + row.2.2 =
      abcd.A + (X data row.1 + row.2.2 + f abcd.B abcd.C abcd.D) := by ac_rfl
  simp only [SET, Md5.R, rotateLeft_eq, hsum]

/-- The constants are the same numbers. -/
theorem rounds_eq : rounds1 = Md5.rows0 ∧ rounds2 = Md5.rows1 ∧ rounds3 = Md5.rows2 ∧ rounds4 = Md5.rows3 := by
  decide

theorem md5Process_eq : md5Process = Md5.md5BlockDataOrder := by
  -- the same tables, and functions equal bit by bit
  obtain ⟨h1, h2, h3, h4⟩ := rounds_eq
  have hH : H = Md5.H := rfl
  funext abcd data
  simp only [md5Process, Md5.md5BlockDataOrder, SET_eq, F_eq, G_eq, hH, I_eq, h1, h2, h3, h4]

/-! ## Section 4: The state after a message -/

/-- The state after `msg`.  Behind the waiting bytes the buffer holds
    anything. -/
structure Fed (pms : Md5State) (msg : Bytes) : Prop where
  count0 : pms.count0 = bitsLow msg.length
  count1 : pms.count1 = bitsHigh msg.length
  abcd : pms.abcd = absorbed 64 md5Process initRegs msg
  buf : pms.buf.take (msg.length % 64) = rest 64 msg

variable {pms : Md5State} {msg p r : Bytes}

theorem fed_init (pms : Md5State) : Fed (md5Init pms) [] where
  count0 := rfl
  count1 := rfl
  abcd := rfl
  buf := rfl

theorem offset_eq (n : Nat) : ((bitsLow n >>> 3) &&& 63).toNat = n % 64 := by
  rw [UInt32.toNat_and, UInt32.toNat_shiftRight, Nat.shiftRight_eq_div_pow, bitsLow, UInt32.toNat_ofNat']
  have hmask := Nat.and_two_pow_sub_one_eq_mod (8 * n % 2 ^ 32 / 2 ^ 3) 6
  change 8 * n % 2 ^ 32 / 2 ^ 3 &&& (2 ^ 6 - 1) = n % 64
  rw [hmask]
  omega

theorem npad_eq (n : Nat) : (((55 : UInt32) - (bitsLow n >>> 3)) &&& 63).toNat = (64 + 55 - n % 64) % 64 := by
  have hshift : (bitsLow n >>> 3).toNat = 8 * n % 2 ^ 32 / 2 ^ 3 := by
    rw [UInt32.toNat_shiftRight, Nat.shiftRight_eq_div_pow, bitsLow, UInt32.toNat_ofNat']
    rfl
  have hmask := Nat.and_two_pow_sub_one_eq_mod ((55 : UInt32) - (bitsLow n >>> 3)).toNat 6
  rw [UInt32.toNat_and]
  change _ &&& (2 ^ 6 - 1) = _
  rw [hmask, UInt32.toNat_sub, hshift]
  change (2 ^ 32 - 8 * n % 2 ^ 32 / 2 ^ 3 + 55) % 2 ^ 32 % 2 ^ 6 = (64 + 55 - n % 64) % 64
  omega

theorem count_eq {old len : Nat} :
    bitsLow old + UInt32.ofNat (len <<< 3) = bitsLow (old + len) ∧
      (if bitsLow old + UInt32.ofNat (len <<< 3) < UInt32.ofNat (len <<< 3)
        then bitsHigh old + UInt32.ofNat (len >>> 29) + 1 else bitsHigh old + UInt32.ofNat (len >>> 29)) =
        bitsHigh (old + len) := by
  have hlow : bitsLow old + UInt32.ofNat (len <<< 3) = bitsLow (old + len) := by
    apply UInt32.toNat_inj.mp
    simp only [bitsLow, UInt32.toNat_add, UInt32.toNat_ofNat', Nat.shiftLeft_eq]
    omega
  refine ⟨hlow, ?_⟩
  apply UInt32.toNat_inj.mp
  rw [hlow, Nat.shiftRight_eq_div_pow, Nat.shiftLeft_eq]
  simp only [bitsLow, bitsHigh, UInt32.lt_iff_toNat_lt, UInt32.toNat_ofNat']
  split
  · simp only [UInt32.toNat_add, UInt32.toNat_ofNat', UInt32.toNat_one]
    omega
  · simp only [UInt32.toNat_add, UInt32.toNat_ofNat']
    omega

theorem md5Count_eq {old : Nat} (len : Nat) (h0 : pms.count0 = bitsLow old) (h1 : pms.count1 = bitsHigh old) :
    md5Count pms len = { pms with count0 := bitsLow (old + len), count1 := bitsHigh (old + len) } := by
  obtain ⟨hlow, hhigh⟩ := @count_eq old len
  simp only [md5Count, h0, h1]
  congr 1

/-- `bs` has been taken in, with no byte waiting before. -/
structure Took (s : Regs) (pms pms' : Md5State) (bs : Bytes) : Prop where
  count0 : pms'.count0 = pms.count0
  count1 : pms'.count1 = pms.count1
  abcd : pms'.abcd = absorbed 64 md5Process s bs
  buf : pms'.buf.take (bs.length % 64) = rest 64 bs

theorem md5Blocks_took (pms : Md5State) (p : Bytes) : Took pms.abcd pms (md5Blocks pms p) p := by
  have hlen := length_rest 64 p
  have hlt := length_rest_lt (w := 64) (by decide) p
  have hblocks : md5Blocks pms p =
      if (rest 64 p).length ≠ 0 then store { pms with abcd := absorbed 64 md5Process pms.abcd p } 0 (rest 64 p)
      else { pms with abcd := absorbed 64 md5Process pms.abcd p } := rfl
  rw [hblocks]
  split
  · refine ⟨rfl, rfl, rfl, ?_⟩
    have hfits : 0 + (rest 64 p).length ≤ pms.buf.length := by
      rw [pms.size]
      omega
    have htake := take_overlay hfits
    rw [Nat.zero_add, hlen, List.take_zero, List.nil_append] at htake
    exact htake
  case isFalse hempty =>
    have hzero : (rest 64 p).length = 0 := not_not.mp hempty
    refine ⟨rfl, rfl, rfl, ?_⟩
    rw [← hlen, hzero, List.take_zero, List.eq_nil_of_length_eq_zero hzero]

/-- The bytes `r` are waiting when `p` comes in. -/
theorem md5Data_took (hr : r.length < 64) (hbuf : pms.buf.take r.length = r) (p : Bytes) :
    Took pms.abcd pms (md5Data pms r.length p) (r ++ p) := by
  unfold md5Data
  by_cases hempty : r.length = 0
  · rw [if_neg (not_not_intro hempty), List.eq_nil_of_length_eq_zero hempty, List.nil_append]
    exact md5Blocks_took pms p
  simp only [if_pos hempty]
  by_cases hfull : 64 ≤ r.length + p.length
  · -- `r` and the start of `p` are one block
    have hcopy : (if r.length + p.length > 64 then 64 - r.length else p.length) = 64 - r.length := by
      split <;> omega
    have hstart : (p.take (64 - r.length)).length = 64 - r.length := by
      apply List.length_take_of_le
      omega
    have hsum : r.length + (64 - r.length) = 64 := by omega
    have hstored : overlay pms.buf r.length (p.take (64 - r.length)) = r ++ p.take (64 - r.length) := by
      have hfits : r.length + (p.take (64 - r.length)).length ≤ pms.buf.length := by
        rw [hstart, hsum, pms.size]
      have htake := take_overlay hfits
      rw [hstart, hsum, hbuf, List.take_of_length_le (by rw [length_overlay, pms.size])] at htake
      exact htake
    have hblock : (r ++ p.take (64 - r.length)).length = 64 := by
      rw [List.length_append, hstart, hsum]
    have hsplit : r ++ p = (r ++ p.take (64 - r.length)) ++ p.drop (64 - r.length) := by
      rw [List.append_assoc, List.take_append_drop]
    rw [hcopy, if_neg (by omega)]
    have htook := md5Blocks_took { store pms r.length (p.take (64 - r.length)) with
      abcd := md5Process pms.abcd (overlay pms.buf r.length (p.take (64 - r.length))) } (p.drop (64 - r.length))
    have hlen : (r ++ p).length % 64 = (p.drop (64 - r.length)).length % 64 := by
      rw [hsplit, List.length_append, hblock, Nat.add_mod_left]
    refine ⟨htook.count0, htook.count1, ?_, ?_⟩
    · rw [hsplit, absorbed_block_append (by decide) hblock, ← hstored]
      exact htook.abcd
    · rw [hlen, hsplit, rest_append (n := 1) (by decide) (by rw [hblock])]
      exact htook.buf
  -- the block is not full yet; what is behind the bytes stays as it was
  · have hcopy : (if r.length + p.length > 64 then 64 - r.length else p.length) = p.length := by
      split <;> omega
    have hfits : (r ++ p).length < 64 := by
      rw [List.length_append]
      omega
    rw [hcopy, if_pos (by omega), List.take_length]
    refine ⟨rfl, rfl, (absorbed_short hfits).symm, ?_⟩
    have hroom : r.length + p.length ≤ pms.buf.length := by
      rw [pms.size]
      omega
    have htake := take_overlay hroom
    rw [hbuf] at htake
    rw [Nat.mod_eq_of_lt hfits, rest_short hfits, List.length_append]
    exact htake

/-- One call. -/
theorem Fed.md5Append (h : Fed pms msg) (data : Chunk) : Fed (md5Append pms data) (msg ++ data.val) := by
  obtain ⟨p, hp⟩ := data
  have hlen := length_rest 64 msg
  have hlt := length_rest_lt (w := 64) (by decide) msg
  simp only [ClientMd5.md5Append, h.count0, offset_eq]
  split
  case isTrue hempty =>
    rw [List.eq_nil_of_length_eq_zero hempty, List.append_nil]
    exact h
  case isFalse =>
    have hbuf : pms.buf.take (rest 64 msg).length = rest 64 msg := by
      rw [hlen]
      exact h.buf
    rw [md5Count_eq p.length h.count0 h.count1, ← hlen]
    generalize hcounted : { pms with
      count0 := bitsLow (msg.length + p.length), count1 := bitsHigh (msg.length + p.length) } = counted
    have hheld : counted.buf.take (rest 64 msg).length = rest 64 msg := by
      rw [← hcounted]
      exact hbuf
    have htook := md5Data_took hlt hheld p
    refine ⟨?_, ?_, ?_, ?_⟩
    · rw [htook.count0, ← hcounted, List.length_append]
    · rw [htook.count1, ← hcounted, List.length_append]
    · rw [htook.abcd, ← hcounted, absorbed_more (by decide) msg, ← h.abcd]
    -- the rest of the message is what waited and what came
    · have hmod : (msg ++ p).length % 64 = (rest 64 msg ++ p).length % 64 := by
        rw [List.length_append, List.length_append, hlen, Nat.mod_add_mod]
      rw [hmod, rest_more (by decide)]
      exact htook.buf

theorem Fed.appends (h : Fed pms msg) (chunks : List Chunk) :
    Fed (chunks.foldl ClientMd5.md5Append pms) (msg ++ (chunks.map Subtype.val).flatten) := by
  induction chunks generalizing pms msg with
  | nil =>
    rw [List.map_nil, List.flatten_nil, List.append_nil]
    exact h
  | cons data chunks ih =>
    rw [List.map_cons, List.flatten_cons, ← List.append_assoc]
    exact ih (h.md5Append data)

/-! ## Section 5: The digest -/

theorem byteOf_eq (w : UInt32) : [byteOf w 0, byteOf w 1, byteOf w 2, byteOf w 3] = bytes32 .little w := by
  have h0 : byteOf w 0 = UInt8.ofNat w.toNat := by
    apply UInt8.toNat_inj.mp
    simp [byteOf]
  have h1 : byteOf w 1 = UInt8.ofNat (w.toNat / 2 ^ 8) := by
    apply UInt8.toNat_inj.mp
    simp [byteOf, UInt32.toNat_shiftRight, Nat.shiftRight_eq_div_pow]
  have h2 : byteOf w 2 = UInt8.ofNat (w.toNat / 2 ^ 16) := by
    apply UInt8.toNat_inj.mp
    simp [byteOf, UInt32.toNat_shiftRight, Nat.shiftRight_eq_div_pow]
  have h3 : byteOf w 3 = UInt8.ofNat (w.toNat / 2 ^ 24) := by
    apply UInt8.toNat_inj.mp
    simp [byteOf, UInt32.toNat_shiftRight, Nat.shiftRight_eq_div_pow]
  rw [h0, h1, h2, h3]
  rfl

theorem lengthData_eq (pms : Md5State) :
    (lengthData pms).val = bytes32 .little pms.count0 ++ bytes32 .little pms.count1 := by
  rw [← byteOf_eq, ← byteOf_eq]
  rfl

theorem pad_take (n : Nat) (h : n < 64) : pad.take (n + 1) = [0x80] ++ zeros n := by
  rw [pad, List.take_succ_cons, zeros, List.take_replicate, Nat.min_eq_left (Nat.le_of_lt_succ h)]
  rfl

/-- The padding goes through `md5_append`. -/
theorem Fed.md5Finish (h : Fed pms msg) :
    md5Finish pms = makeString (absorbed 64 md5Process initRegs (msg ++ padding msg.length)) := by
  have hpad := h.md5Append
    ⟨pad.take ((((55 : UInt32) - (pms.count0 >>> 3)) &&& 63).toNat + 1), length_pad_take _⟩
  have hdone := hpad.md5Append (lengthData pms)
  have hmsg : msg ++ pad.take ((((55 : UInt32) - (pms.count0 >>> 3)) &&& 63).toNat + 1) ++ (lengthData pms).val =
      msg ++ padding msg.length := by
    rw [lengthData_eq, h.count0, h.count1, npad_eq, pad_take _ (Nat.mod_lt _ (by decide)), padding,
      List.append_assoc]
    rfl
  rw [hmsg] at hdone
  rw [← hdone.abcd, makeString, ← byteOf_eq, ← byteOf_eq, ← byteOf_eq, ← byteOf_eq]
  rfl

theorem md5Finish_chunks (pms : Md5State) (chunks : List Chunk) :
    md5Finish (chunks.foldl md5Append (md5Init pms)) = Md5.md5Digest (chunks.map Subtype.val).flatten := by
  have hinit : initRegs = Md5.initData := by decide
  have hfed := (fed_init pms).appends chunks
  rw [List.nil_append] at hfed
  rw [hfed.md5Finish, md5Process_eq, hinit]
  rfl

/-- `ketama_md5_digest`; `pms` is the local `md5state` as it is found. -/
def ketamaMd5Digest (pms : Md5State) (inString : Chunk) : Bytes :=
  md5Finish (md5Append (md5Init pms) inString)

theorem ketamaMd5Digest_eq (pms : Md5State) (inString : Chunk) :
    ketamaMd5Digest pms inString = Md5.md5Digest inString.val := by
  have hone := md5Finish_chunks pms [inString]
  rw [List.map_singleton, List.flatten_singleton] at hone
  exact hone

/-- The client's digest and the one of `md5/`. -/
theorem digests_agree (pms : Md5State) (chunks : List Chunk) (pieces : List Bytes)
    (hsame : (chunks.map Subtype.val).flatten = pieces.flatten) :
    md5Finish (chunks.foldl md5Append (md5Init pms)) =
      (Md5.md5Final (pieces.foldl Md5.md5Update Md5.md5Init)).1 := by
  rw [md5Finish_chunks, hsame, Md5.md5Final_pieces]

/-- `"ab"` then `"c"`, and `"a"` then `"bc"`. -/
theorem digests_agree_abc :
    md5Finish ([⟨[97, 98], by decide⟩, ⟨[99], by decide⟩].foldl md5Append
        (md5Init ⟨0, 0, ⟨0, 0, 0, 0⟩, zeros 64, rfl⟩)) =
      (Md5.md5Final ([[97], [98, 99]].foldl Md5.md5Update Md5.md5Init)).1 :=
  digests_agree ⟨0, 0, ⟨0, 0, 0, 0⟩, zeros 64, rfl⟩ [⟨[97, 98], by decide⟩, ⟨[99], by decide⟩] [[97], [98, 99]] rfl

end BoAtom.ClientMd5
