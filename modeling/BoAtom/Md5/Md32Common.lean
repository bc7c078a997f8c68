import BoAtom.Lib.Blocks
import BoAtom.Lib.Layout

/-! # md5/md32_common.h

    `HASH_UPDATE` and `HASH_FINAL`, for any `HASH_BLOCK_DATA_ORDER` and any
    `HASH_MAKE_STRING`.

    The context after a message is a function of the message alone, however
    the message was cut (`fed`): the chaining value after its whole blocks,
    its length in bits over two words, and its last bytes in a buffer that
    is zero behind them. -/

namespace BoAtom.Md5

open Memory Layout Blocks

/-! ## Section 1: The context -/

def hashCblock : Nat := 64

/-- `chain` is the part of the context that `HASH_BLOCK_DATA_ORDER` works on. -/
structure HashCtx (S : Type) where
  chain : S
  Nl : UInt32
  Nh : UInt32
  data : Bytes
  num : Nat
  deriving DecidableEq, Repr

variable {S : Type} (block : S → Bytes → S) (makeString : S → Bytes)

def zeros (n : Nat) : Bytes := List.replicate n 0

/-- The whole blocks of `data`, then the rest into the buffer. -/
def hashBlocks (ctx : HashCtx S) (data : Bytes) : HashCtx S :=
  let n := data.length / hashCblock
  let ctx := { ctx with chain := feedBlocks hashCblock block n ctx.chain data }
  let data := data.drop (n * hashCblock)
  if data.length ≠ 0 then { ctx with num := data.length, data := overlay ctx.data 0 data } else ctx

/-- The bytes left from the last call come first. -/
def hashData (ctx : HashCtx S) (data : Bytes) : HashCtx S :=
  let len := data.length
  let n := ctx.num
  if n ≠ 0 then
    -- the first block is complete now
    if hashCblock ≤ len ∨ hashCblock ≤ len + n then
      let p := overlay ctx.data n (data.take (hashCblock - n))
      hashBlocks block
        { ctx with chain := block ctx.chain p, num := 0, data := overlay p 0 (zeros hashCblock) }
        (data.drop (hashCblock - n))
    else { ctx with data := overlay ctx.data n data, num := n + len }
  else hashBlocks block ctx data

/-- `Nl` and `Nh` count the bits. -/
def hashCount (ctx : HashCtx S) (len : Nat) : HashCtx S :=
  let l := ctx.Nl + (UInt32.ofNat len <<< 3)
  -- the low word has wrapped
  let Nh := if l < ctx.Nl then ctx.Nh + 1 else ctx.Nh
  { ctx with Nh := Nh + UInt32.ofNat (len >>> 29), Nl := l }

def hashUpdate (ctx : HashCtx S) (data : Bytes) : HashCtx S :=
  if data.length = 0 then ctx else hashData block (hashCount ctx data.length) data

/-- The digest, and the context it leaves. -/
def hashFinal (ctx : HashCtx S) : Bytes × HashCtx S :=
  let p := overlay ctx.data ctx.num [0x80]
  let n := ctx.num + 1
  -- no room for the length in this block
  let full := n > hashCblock - 8
  let p := if full then overlay p n (zeros (hashCblock - n)) else p
  let chain := if full then block ctx.chain p else ctx.chain
  let n := if full then 0 else n
  let p := overlay p n (zeros (hashCblock - 8 - n))
  let p := overlay p (hashCblock - 8) (bytes32 .little ctx.Nl)
  let p := overlay p (hashCblock - 4) (bytes32 .little ctx.Nh)
  let chain := block chain p
  (makeString chain, { ctx with chain := chain, num := 0, data := overlay p 0 (zeros hashCblock) })

/-! ## Section 2: The context after a message -/

/-- The length in bits, over two words. -/
def bitsLow (len : Nat) : UInt32 := UInt32.ofNat (8 * len)

def bitsHigh (len : Nat) : UInt32 := UInt32.ofNat (8 * len / 2 ^ 32)

/-- The buffer: what is left of `bs`, then zeros. -/
def buffered (bs : Bytes) : Bytes :=
  rest hashCblock bs ++ zeros (hashCblock - bs.length % hashCblock)

/-- The context with `bs` taken in from the chaining value `s` on. -/
def taken (s : S) (ctx : HashCtx S) (bs : Bytes) : HashCtx S :=
  { ctx with
    chain := absorbed hashCblock block s bs
    data := buffered bs
    num := bs.length % hashCblock }

def fed (iv : S) (msg : Bytes) : HashCtx S :=
  taken block iv ⟨iv, bitsLow msg.length, bitsHigh msg.length, [], 0⟩ msg

/-- The padding of a message of `len` bytes: one bit, zeros, the length. -/
def padding (len : Nat) : Bytes :=
  [0x80] ++ zeros ((hashCblock + 55 - len % hashCblock) % hashCblock) ++
    (bytes32 .little (bitsLow len) ++ bytes32 .little (bitsHigh len))

@[simp] theorem length_zeros (n : Nat) : (zeros n).length = n := List.length_replicate

theorem zeros_add (m n : Nat) : zeros (m + n) = zeros m ++ zeros n := List.replicate_add ..

/-- A copy to the start of a zeroed stretch behind `a`. -/
theorem overlay_zeros (a : Bytes) {src : Bytes} {n : Nat} (h : src.length ≤ n) :
    overlay (a ++ zeros n) a.length src = a ++ src ++ zeros (n - src.length) := by
  have hsplit : zeros n = zeros src.length ++ zeros (n - src.length) := by
    rw [← zeros_add]
    congr 1
    omega
  rw [hsplit, ← List.append_assoc, overlay_middle a _ (length_zeros _).symm]

/-- A copy over a whole array. -/
theorem overlay_whole {b src : Bytes} (h : src.length = b.length) : overlay b 0 src = src := by
  have hmid := overlay_middle [] [] h
  simpa using hmid

theorem hashCount_fed (ctx : HashCtx S) {old : Nat} (len : Nat) (hl : ctx.Nl = bitsLow old)
    (hh : ctx.Nh = bitsHigh old) :
    hashCount ctx len = { ctx with Nl := bitsLow (old + len), Nh := bitsHigh (old + len) } := by
  have hshift : (UInt32.ofNat len <<< 3).toNat = len * 8 % 2 ^ 32 := by
    rw [UInt32.toNat_shiftLeft, UInt32.toNat_ofNat', Nat.shiftLeft_eq]
    change len % 2 ^ 32 * 2 ^ 3 % 2 ^ 32 = len * 8 % 2 ^ 32
    omega
  -- both words as numbers modulo 2 ^ 32; the carry is what `omega` finds
  have hlow : ctx.Nl + (UInt32.ofNat len <<< 3) = bitsLow (old + len) := by
    apply UInt32.toNat_inj.mp
    rw [UInt32.toNat_add, hshift, hl, bitsLow, bitsLow, UInt32.toNat_ofNat', UInt32.toNat_ofNat']
    omega
  have hhigh : (if bitsLow (old + len) < ctx.Nl then ctx.Nh + 1 else ctx.Nh) + UInt32.ofNat (len >>> 29) =
      bitsHigh (old + len) := by
    apply UInt32.toNat_inj.mp
    rw [hl, hh, Nat.shiftRight_eq_div_pow]
    simp only [bitsLow, bitsHigh, UInt32.lt_iff_toNat_lt, UInt32.toNat_ofNat']
    split
    · simp only [UInt32.toNat_add, UInt32.toNat_ofNat', UInt32.toNat_one]
      omega
    · simp only [UInt32.toNat_add, UInt32.toNat_ofNat']
      omega
  simp only [hashCount]
  rw [hlow, hhigh]

/-! ## Section 3: HASH_UPDATE -/

section

variable {block : S → Bytes → S} {iv s : S} {ctx : HashCtx S} {msg r d : Bytes}

theorem buffered_short (h : r.length < hashCblock) :
    buffered r = r ++ zeros (hashCblock - r.length) := by
  rw [buffered, rest_short h, Nat.mod_eq_of_lt h]

theorem taken_more (msg d : Bytes) :
    taken block iv ctx (msg ++ d) =
      taken block (absorbed hashCblock block iv msg) ctx (rest hashCblock msg ++ d) := by
  have hlen : (msg ++ d).length % hashCblock = (rest hashCblock msg ++ d).length % hashCblock := by
    rw [List.length_append, List.length_append, length_rest, Nat.mod_add_mod]
  simp only [taken, buffered]
  rw [absorbed_more (by decide), rest_more (by decide), hlen]

theorem hashBlocks_taken (hdata : ctx.data = zeros hashCblock) (hnum : ctx.num = 0) (d : Bytes) :
    hashBlocks block ctx d = taken block ctx.chain ctx d := by
  have hlen := length_rest hashCblock d
  simp only [hashBlocks]
  change (if (rest hashCblock d).length ≠ 0 then
    { ctx with
      chain := absorbed hashCblock block ctx.chain d
      num := (rest hashCblock d).length
      data := overlay ctx.data 0 (rest hashCblock d) }
    else { ctx with chain := absorbed hashCblock block ctx.chain d }) = _
  by_cases hrest : (rest hashCblock d).length = 0
  · have hnil := List.eq_nil_of_length_eq_zero hrest
    rw [if_neg (not_not_intro hrest)]
    simp only [taken, buffered]
    rw [hnil, ← hlen, hrest, List.nil_append, Nat.sub_zero, ← hdata, ← hnum]
  · have hle := Nat.le_of_lt (length_rest_lt (w := hashCblock) (by decide) d)
    have hcopy := overlay_zeros [] hle
    simp only [List.nil_append, List.length_nil] at hcopy
    rw [if_pos hrest, hdata, hcopy, hlen]
    rfl

/-- The bytes `r` are waiting when `d` comes in. -/
theorem hashData_taken (hr : r.length < hashCblock) (hdata : ctx.data = r ++ zeros (hashCblock - r.length))
    (hnum : ctx.num = r.length) (d : Bytes) :
    hashData block ctx d = taken block ctx.chain ctx (r ++ d) := by
  unfold hashData
  simp only [hnum]
  by_cases hempty : r.length = 0
  · have hnil := List.eq_nil_of_length_eq_zero hempty
    -- nothing waits
    rw [if_neg (not_not_intro hempty), hashBlocks_taken (by rw [hdata, hnil]; rfl) (by rw [hnum, hempty]), hnil,
      List.nil_append]
  rw [if_pos hempty]
  by_cases hfull : hashCblock ≤ d.length ∨ hashCblock ≤ d.length + r.length
  · -- the first block is `r` and the start of `d`
    have hstart : (d.take (hashCblock - r.length)).length = hashCblock - r.length := by
      apply List.length_take_of_le
      omega
    have hcopy : overlay ctx.data r.length (d.take (hashCblock - r.length)) =
        r ++ d.take (hashCblock - r.length) := by
      rw [hdata, overlay_zeros r (Nat.le_of_eq hstart), hstart, Nat.sub_self]
      exact List.append_nil _
    have hblock : (r ++ d.take (hashCblock - r.length)).length = hashCblock := by
      rw [List.length_append, hstart]
      omega
    have hsplit : r ++ d = (r ++ d.take (hashCblock - r.length)) ++ d.drop (hashCblock - r.length) := by
      rw [List.append_assoc, List.take_append_drop]
    have hrest : rest hashCblock (r ++ d.take (hashCblock - r.length)) = [] := by
      apply List.eq_nil_of_length_eq_zero
      rw [length_rest, hblock, Nat.mod_self]
    rw [if_pos hfull, hcopy, overlay_whole (by rw [length_zeros, hblock]),
      hashBlocks_taken rfl rfl, hsplit, taken_more, hrest, List.nil_append, absorbed_block (by decide) hblock]
    rfl
  -- all of it waits for more
  · have hfits : (r ++ d).length < hashCblock := by
      rw [List.length_append]
      omega
    rw [if_neg hfull, hdata, overlay_zeros r (by omega)]
    simp only [taken]
    rw [absorbed_short hfits, buffered_short hfits, Nat.mod_eq_of_lt hfits, List.length_append, Nat.sub_sub]

/-- One call. -/
theorem hashUpdate_fed (msg d : Bytes) :
    hashUpdate block (fed block iv msg) d = fed block iv (msg ++ d) := by
  unfold hashUpdate
  by_cases hempty : d.length = 0
  · rw [if_pos hempty, List.eq_nil_of_length_eq_zero hempty, List.append_nil]
  have hlen := length_rest hashCblock msg
  have hcount := hashCount_fed (fed block iv msg) d.length rfl rfl
  rw [if_neg hempty, hcount,
    hashData_taken (r := rest hashCblock msg) (length_rest_lt (by decide) msg) (by rw [hlen]; rfl) hlen.symm]
  simp only [fed]
  rw [taken_more msg d, List.length_append]
  rfl

/-- Any number of calls. -/
theorem hashUpdates_fed (msg : Bytes) (chunks : List Bytes) :
    chunks.foldl (hashUpdate block) (fed block iv msg) = fed block iv (msg ++ chunks.flatten) := by
  -- each call lengthens the message by its bytes
  induction chunks generalizing msg with
  | nil => rw [List.foldl_nil, List.flatten_nil, List.append_nil]
  | cons d chunks ih => rw [List.foldl_cons, hashUpdate_fed, ih, List.flatten_cons, List.append_assoc]

/-! ## Section 4: HASH_FINAL -/

/-- The length goes over the last eight bytes of the last block. -/
theorem overlay_length (p : Bytes) {lo hi : Bytes} (hp : p.length = hashCblock - 8) (hlo : lo.length = 4)
    (hhi : hi.length = 4) (tail : Bytes) (htail : tail.length = 8) :
    overlay (overlay (p ++ tail) (hashCblock - 8) lo) (hashCblock - 4) hi = p ++ (lo ++ hi) := by
  have hsplit : tail = tail.take 4 ++ tail.drop 4 := (List.take_append_drop 4 tail).symm
  have hfirst : (tail.take 4).length = 4 := by
    rw [List.length_take]
    omega
  have hsecond : (tail.drop 4).length = 4 := by
    rw [List.length_drop]
    omega
  have hlow := overlay_middle p (b := tail.take 4) (tail.drop 4) (hlo.trans hfirst.symm)
  have hhigh := overlay_middle (p ++ lo) (b := tail.drop 4) [] (hhi.trans hsecond.symm)
  rw [List.append_nil, List.append_nil, List.length_append, hp, hlo] at hhigh
  rw [hsplit, ← List.append_assoc, ← hp, hlow, ← List.append_assoc]
  exact hhigh

/-- What is waiting, the mark and the length fill the last block, or the last two. -/
theorem hashFinal_waiting (hr : r.length < hashCblock)
    (hdata : ctx.data = r ++ zeros (hashCblock - r.length)) (hnum : ctx.num = r.length) :
    (hashFinal block makeString ctx).1 = makeString (absorbed hashCblock block ctx.chain
      (r ++ ([0x80] ++ zeros ((hashCblock + 55 - r.length) % hashCblock) ++
        (bytes32 .little ctx.Nl ++ bytes32 .little ctx.Nh)))) := by
  have hmarked : (r ++ [0x80]).length = r.length + 1 := by simp
  have hone : overlay ctx.data r.length [0x80] = r ++ [0x80] ++ zeros (hashCblock - (r.length + 1)) := by
    rw [hdata, overlay_zeros r (Nat.le_sub_of_add_le' hr), List.length_singleton, Nat.sub_sub]
  have hlo := length_bytes32 .little ctx.Nl
  have hhi := length_bytes32 .little ctx.Nh
  unfold hashFinal
  simp only [hnum, hone]
  by_cases hfull : r.length + 1 > hashCblock - 8
  · -- the mark ends this block, and the length goes into one of its own
    have hclear : overlay (r ++ [0x80] ++ zeros (hashCblock - (r.length + 1))) (r.length + 1)
        (zeros (hashCblock - (r.length + 1))) = r ++ [0x80] ++ zeros (hashCblock - (r.length + 1)) := by
      rw [← hmarked, overlay_zeros (r ++ [0x80]) (Nat.le_of_eq (length_zeros _)), length_zeros, Nat.sub_self]
      exact List.append_nil _
    generalize hp : r ++ [0x80] ++ zeros (hashCblock - (r.length + 1)) = p at hclear
    have hblock : p.length = hashCblock := by
      rw [← hp, List.length_append, hmarked, length_zeros]
      omega
    have hwipe : overlay p 0 (zeros (hashCblock - 8 - 0)) = zeros (hashCblock - 8) ++ p.drop (hashCblock - 8) := by
      rw [overlay_eq (by rw [length_zeros, hblock]; decide), length_zeros]
      rfl
    have hlength := overlay_length (zeros (hashCblock - 8)) (length_zeros _) hlo hhi
      (p.drop (hashCblock - 8)) (by rw [List.length_drop, hblock]; decide)
    have hzeros : (hashCblock + 55 - r.length) % hashCblock =
        (hashCblock - (r.length + 1)) + (hashCblock - 8) := by
      unfold hashCblock at *
      omega
    have hsplit : r ++ ([0x80] ++ zeros ((hashCblock + 55 - r.length) % hashCblock) ++
        (bytes32 .little ctx.Nl ++ bytes32 .little ctx.Nh)) =
        p ++ (zeros (hashCblock - 8) ++ (bytes32 .little ctx.Nl ++ bytes32 .little ctx.Nh)) := by
      rw [← hp, hzeros, zeros_add]
      simp only [List.append_assoc]
    simp only [if_pos hfull]
    rw [hclear, hwipe, hlength, hsplit, absorbed_block_append (by decide) hblock, absorbed_block (by decide)]
    rw [List.length_append, List.length_append, length_zeros, hlo, hhi]
    rfl
  -- mark, zeros and length end the block that is being filled
  · have hroom : hashCblock - 8 - (r.length + 1) ≤ hashCblock - (r.length + 1) := by omega
    have hclear : overlay (r ++ [0x80] ++ zeros (hashCblock - (r.length + 1))) (r.length + 1)
        (zeros (hashCblock - 8 - (r.length + 1))) =
        r ++ [0x80] ++ zeros (hashCblock - 8 - (r.length + 1)) ++ zeros 8 := by
      have height : hashCblock - (r.length + 1) - (hashCblock - 8 - (r.length + 1)) = 8 := by
        unfold hashCblock at *
        omega
      have hcopy := overlay_zeros (r ++ [0x80]) ((length_zeros _).trans_le hroom)
      rw [hmarked, length_zeros, height] at hcopy
      exact hcopy
    have hfront : (r ++ [0x80] ++ zeros (hashCblock - 8 - (r.length + 1))).length = hashCblock - 8 := by
      rw [List.length_append, hmarked, length_zeros]
      omega
    have hzeros : (hashCblock + 55 - r.length) % hashCblock = hashCblock - 8 - (r.length + 1) := by
      unfold hashCblock at *
      omega
    have hsplit : r ++ ([0x80] ++ zeros ((hashCblock + 55 - r.length) % hashCblock) ++
        (bytes32 .little ctx.Nl ++ bytes32 .little ctx.Nh)) =
        r ++ [0x80] ++ zeros (hashCblock - 8 - (r.length + 1)) ++
          (bytes32 .little ctx.Nl ++ bytes32 .little ctx.Nh) := by
      rw [hzeros]
      simp only [List.append_assoc]
    have hlength := overlay_length _ hfront hlo hhi _ (length_zeros 8)
    simp only [if_neg hfull]
    rw [hclear, hlength, hsplit, absorbed_block (by decide)]
    simp only [List.length_append, hlo, hhi] at hfront ⊢
    rw [hfront]
    rfl

theorem hashFinal_fed (msg : Bytes) :
    (hashFinal block makeString (fed block iv msg)).1 =
      makeString (absorbed hashCblock block iv (msg ++ padding msg.length)) := by
  have hlen := length_rest hashCblock msg
  have hdata : (fed block iv msg).data =
      rest hashCblock msg ++ zeros (hashCblock - (rest hashCblock msg).length) := by
    rw [hlen]
    rfl
  have hnum : (fed block iv msg).num = (rest hashCblock msg).length := hlen.symm
  rw [hashFinal_waiting makeString (length_rest_lt (by decide) msg) hdata hnum, padding, ← hlen,
    absorbed_more (by decide) msg]
  rfl

end

end BoAtom.Md5
