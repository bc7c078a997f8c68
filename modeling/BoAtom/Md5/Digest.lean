import BoAtom.Md5.Md32Common
import BoAtom.Upgrade.AddHead

/-! # md5/md5_dgst.c

    `MD5_Init`, `MD5_Update`, `MD5_Final`: `md32_common.h` with the rounds of
    MD5 for `HASH_BLOCK_DATA_ORDER`.

    The tool that signs an upgrade file feeds the file as `read` returns it,
    in pieces of any length; the digest is that of the whole file
    (`md5_of_pieces`). -/

namespace BoAtom.Md5

open Memory Layout Blocks

/-! ## Section 1: The rounds -/

structure Regs where
  A : UInt32
  B : UInt32
  C : UInt32
  D : UInt32
  deriving DecidableEq, Repr

def F (b c d : UInt32) : UInt32 := ((c ^^^ d) &&& b) ^^^ d

def G (b c d : UInt32) : UInt32 := ((b ^^^ c) &&& d) ^^^ c

def H (b c d : UInt32) : UInt32 := b ^^^ c ^^^ d

def I (b c d : UInt32) : UInt32 := (~~~d ||| b) ^^^ c

def rotate (a n : UInt32) : UInt32 := (a <<< n) ||| ((a &&& 0xffffffff) >>> (32 - n))

/-- `HOST_c2l`: the `k`-th word of a block. -/
def X (data : Bytes) (k : Nat) : UInt32 := word32 .little (data.drop (4 * k))

/-- `k`, `s` and `t` of one line of a round. -/
abbrev Row := Nat × UInt32 × UInt32

/-- `R0` to `R3`.  The next line names the registers one place further on. -/
def R (f : UInt32 → UInt32 → UInt32 → UInt32) (data : Bytes) (regs : Regs) (row : Row) : Regs :=
  let a := regs.A + (X data row.1 + row.2.2 + f regs.B regs.C regs.D)
  let a := rotate a row.2.1
  let a := a + regs.B
  ⟨regs.D, a, regs.B, regs.C⟩

def rows0 : List Row :=
  [(0, 7, 0xd76aa478), (1, 12, 0xe8c7b756), (2, 17, 0x242070db), (3, 22, 0xc1bdceee),
    (4, 7, 0xf57c0faf), (5, 12, 0x4787c62a), (6, 17, 0xa8304613), (7, 22, 0xfd469501),
    (8, 7, 0x698098d8), (9, 12, 0x8b44f7af), (10, 17, 0xffff5bb1), (11, 22, 0x895cd7be),
    (12, 7, 0x6b901122), (13, 12, 0xfd987193), (14, 17, 0xa679438e), (15, 22, 0x49b40821)]

def rows1 : List Row :=
  [(1, 5, 0xf61e2562), (6, 9, 0xc040b340), (11, 14, 0x265e5a51), (0, 20, 0xe9b6c7aa),
    (5, 5, 0xd62f105d), (10, 9, 0x02441453), (15, 14, 0xd8a1e681), (4, 20, 0xe7d3fbc8),
    (9, 5, 0x21e1cde6), (14, 9, 0xc33707d6), (3, 14, 0xf4d50d87), (8, 20, 0x455a14ed),
    (13, 5, 0xa9e3e905), (2, 9, 0xfcefa3f8), (7, 14, 0x676f02d9), (12, 20, 0x8d2a4c8a)]

def rows2 : List Row :=
  [(5, 4, 0xfffa3942), (8, 11, 0x8771f681), (11, 16, 0x6d9d6122), (14, 23, 0xfde5380c),
    (1, 4, 0xa4beea44), (4, 11, 0x4bdecfa9), (7, 16, 0xf6bb4b60), (10, 23, 0xbebfbc70),
    (13, 4, 0x289b7ec6), (0, 11, 0xeaa127fa), (3, 16, 0xd4ef3085), (6, 23, 0x04881d05),
    (9, 4, 0xd9d4d039), (12, 11, 0xe6db99e5), (15, 16, 0x1fa27cf8), (2, 23, 0xc4ac5665)]

def rows3 : List Row :=
  [(0, 6, 0xf4292244), (7, 10, 0x432aff97), (14, 15, 0xab9423a7), (5, 21, 0xfc93a039),
    (12, 6, 0x655b59c3), (3, 10, 0x8f0ccc92), (10, 15, 0xffeff47d), (1, 21, 0x85845dd1),
    (8, 6, 0x6fa87e4f), (15, 10, 0xfe2ce6e0), (6, 15, 0xa3014314), (13, 21, 0x4e0811a1),
    (4, 6, 0xf7537e82), (11, 10, 0xbd3af235), (2, 15, 0x2ad7d2bb), (9, 21, 0xeb86d391)]

/-- One pass through the loop of `md5_block_data_order`. -/
def md5BlockDataOrder (regs : Regs) (data : Bytes) : Regs :=
  let x := rows0.foldl (R F data) regs
  let x := rows1.foldl (R G data) x
  let x := rows2.foldl (R H data) x
  let x := rows3.foldl (R I data) x
  ⟨regs.A + x.A, regs.B + x.B, regs.C + x.C, regs.D + x.D⟩

/-! ## Section 2: The interface -/

def initData : Regs := ⟨0x67452301, 0xefcdab89, 0x98badcfe, 0x10325476⟩

def md5Init : HashCtx Regs := ⟨initData, 0, 0, zeros hashCblock, 0⟩

def md5Update : HashCtx Regs → Bytes → HashCtx Regs := hashUpdate md5BlockDataOrder

/-- `HASH_MAKE_STRING`. -/
def makeString (regs : Regs) : Bytes :=
  bytes32 .little regs.A ++ bytes32 .little regs.B ++ bytes32 .little regs.C ++ bytes32 .little regs.D

def md5Final : HashCtx Regs → Bytes × HashCtx Regs := hashFinal md5BlockDataOrder makeString

/-! ## Section 3: The digest -/

/-- The digest of a message: its blocks, padded. -/
def md5Digest (msg : Bytes) : Bytes :=
  makeString (absorbed hashCblock md5BlockDataOrder initData (msg ++ padding msg.length))

@[simp] theorem length_makeString (regs : Regs) : (makeString regs).length = 16 := by
  simp [makeString]

theorem md5Init_fed : md5Init = fed md5BlockDataOrder initData [] := rfl

/-- Padding completes the last block. -/
theorem length_padded (msg : Bytes) : (msg ++ padding msg.length).length % hashCblock = 0 := by
  simp only [padding, List.length_append, List.length_singleton, length_zeros, length_bytes32]
  unfold hashCblock
  omega

/-- The context holds nothing but the bytes. -/
theorem md5Updates_fed (pieces : List Bytes) :
    pieces.foldl md5Update md5Init = fed md5BlockDataOrder initData pieces.flatten := by
  rw [md5Init_fed]
  exact hashUpdates_fed [] pieces

theorem md5Final_pieces (pieces : List Bytes) :
    (md5Final (pieces.foldl md5Update md5Init)).1 = md5Digest pieces.flatten := by
  rw [md5Updates_fed]
  exact hashFinal_fed makeString pieces.flatten

/-- However the message was cut, the digest is that of its bytes, and so is
    every later digest. -/
theorem md5_of_pieces (pieces : List Bytes) :
    (md5Final (pieces.foldl md5Update md5Init)).1 = md5Digest pieces.flatten ∧
      (md5Digest pieces.flatten).length = 16 ∧
      (pieces.flatten ++ padding pieces.flatten.length).length % hashCblock = 0 ∧
      pieces.foldl md5Update md5Init = md5Update md5Init pieces.flatten := by
  have honce : md5Update md5Init pieces.flatten = fed md5BlockDataOrder initData pieces.flatten := by
    rw [md5Init_fed]
    exact hashUpdate_fed [] pieces.flatten
  exact ⟨md5Final_pieces pieces, length_makeString _, length_padded _, (md5Updates_fed pieces).trans honce.symm⟩

/-- MD5 of the empty message. -/
example : (md5Final md5Init).1 =
    [0xd4, 0x1d, 0x8c, 0xd9, 0x8f, 0x00, 0xb2, 0x04, 0xe9, 0x80, 0x09, 0x98, 0xec, 0xf8, 0x42, 0x7e] := by
  decide +kernel

/-! ## Section 4: The upgrade file -/

/-- The MD5 that `add_hisiHead` is linked with. -/
def md5 : Upgrade.Md5 where
  Ctx := HashCtx Regs
  init := md5Init
  update := md5Update
  final ctx := (md5Final ctx).1
  digest := md5Digest
  length_digest _ := length_makeString _
  final_updates := md5Final_pieces

variable {hdversion content : Bytes} {ops : Upgrade.FileOps} {fs fs' : Upgrade.Files}

/-- A tool that gets through puts the digest of the content in front of it. -/
theorem addHisiHead_md5 (hlen : hdversion.length < 32) (hfile : fs.file = some content) {ret : Int}
    (hret : Upgrade.addHisiHead md5 hdversion ops fs = some (ret, fs')) (hruns : ¬ ops.Stops)
    (hall : Upgrade.CopiesAll ops.copies content) :
    fs'.file = ops.placed content (Upgrade.header hdversion (md5Digest content) ++ content) := by
  obtain ⟨hstops, -⟩ | ⟨-, -, read, out, hread, hshort, hout, hplaced⟩ := Upgrade.addHisiHead_spec hlen hfile hret
  · exact absurd hstops hruns
  · have hcopied : out = content := hout.mpr hall
    have hwhole : read = content := by
      apply hread.eq_of_length_le
      rwa [hcopied] at hshort
    rw [hplaced, hcopied, hwhole]
    rfl

end BoAtom.Md5
