import BoAtom.Lib.Crc
import BoAtom.Upgrade.Crc32

/-! # The checksum is CRC-32

    The table of `crc32` holds eight steps of the shift register for each
    byte, so a pass through its loop is the register fed with the eight bits
    of a byte, the lowest first.  What the register detects, `crc32`
    detects. -/

namespace BoAtom.Upgrade

open Crc

variable {a b buf : Bytes}

/-! ## Section 1: Bit by bit -/

def crc32Poly : BitVec 32 := 0xEDB88320

/-- The bits of a byte, the lowest first. -/
def byteBits (p : UInt8) : List Bool := (List.range 8).map p.toBitVec.getLsbD

def bits (buf : Bytes) : List Bool := buf.flatMap byteBits

/-- CRC-32, bit by bit. -/
def crc32Bitwise (buf : Bytes) : BitVec 32 :=
  feedAll crc32Poly 0xFFFFFFFF (bits buf) ^^^ 0xFFFFFFFF

@[simp] theorem length_byteBits (p : UInt8) : (byteBits p).length = 8 := by simp [byteBits]

theorem word_byteBits (p : UInt8) : word 32 (byteBits p) = p.toUInt32.toBitVec := by
  apply BitVec.eq_of_getLsbD_eq
  intro i hi
  rw [getLsbD_word, UInt8.toBitVec_toUInt32, BitVec.getLsbD_setWidth, byteBits]
  by_cases hbit : i < 8
  · rw [List.getD_eq_getElem _ _ (by simpa using hbit)]
    simp
  · rw [List.getD_eq_default _ _ (by simpa using hbit), BitVec.getLsbD_of_ge _ i (Nat.le_of_not_lt hbit)]

/-! ## Section 2: The table -/

/-- Each entry is right. -/
theorem crc32Tab_eq :
    crc32Tab.map UInt32.toBitVec = (List.range 256).map fun i => steps crc32Poly 8 (BitVec.ofNat 32 i) := by
  decide +kernel

theorem crc32Tab_entry {i : Nat} (hi : i < 256) :
    (crc32Tab.getD i 0).toBitVec = steps crc32Poly 8 (BitVec.ofNat 32 i) := by
  have hlen : i < crc32Tab.length := by rwa [length_crc32Tab]
  have hget := congrArg (fun l => l[i]?) crc32Tab_eq
  simp only [List.getElem?_map, List.getElem?_eq_getElem hlen,
    List.getElem?_range hi, Option.map_some, Option.some.injEq] at hget
  rw [List.getD_eq_getElem _ _ hlen]
  exact hget

/-- One pass through the loop takes in one byte. -/
theorem crcStep_eq (crc : UInt32) (p : UInt8) :
    (crcStep crc p).toBitVec = feedAll crc32Poly crc.toBitVec (byteBits p) := by
  let x := (crc ^^^ p.toUInt32).toBitVec
  have hindex : BitVec.ofNat 32 (crcIndex crc p) = lowBits 8 x := by
    rw [crcIndex, lowBits]
    show BitVec.ofNat 32 ((crc ^^^ p.toUInt32) &&& 0xff).toBitVec.toNat = _
    rw [BitVec.ofNat_toNat, BitVec.setWidth_eq]
    rfl
  have hshift : x >>> 8 = (crc >>> 8).toBitVec := by
    have hsmall : p.toUInt32.toBitVec >>> 8 = 0#32 := by
      apply BitVec.eq_of_getLsbD_eq
      intro i hi
      rw [BitVec.getLsbD_ushiftRight, UInt8.toBitVec_toUInt32, BitVec.getLsbD_setWidth,
        BitVec.getLsbD_of_ge _ (8 + i) (by omega)]
      simp
    show (crc.toBitVec ^^^ p.toUInt32.toBitVec) >>> 8 = _
    rw [BitVec.ushiftRight_xor_distrib, hsmall, BitVec.xor_zero]
    rfl
  have htab := crc32Tab_entry (length_crc32Tab ▸ crcIndex_lt crc p)
  have hbyte : (byteBits p).length ≤ 32 := by simp
  calc (crcStep crc p).toBitVec
      = (crc32Tab.getD (crcIndex crc p) 0).toBitVec ^^^ (crc >>> 8).toBitVec := UInt32.toBitVec_xor ..
    _ = steps crc32Poly 8 (lowBits 8 x) ^^^ (x >>> 8) := by rw [htab, hindex, hshift]
    _ = steps crc32Poly 8 x := steps_split.symm
    _ = feedAll crc32Poly crc.toBitVec (byteBits p) := by
      rw [feedAll_word hbyte, length_byteBits, word_byteBits]
      rfl

theorem foldl_crcStep (crc : UInt32) (buf : Bytes) :
    (buf.foldl crcStep crc).toBitVec = feedAll crc32Poly crc.toBitVec (bits buf) := by
  induction buf generalizing crc with
  | nil => rfl
  | cons p buf ih =>
    rw [List.foldl_cons, ih, crcStep_eq, bits, bits, List.flatMap_cons, feedAll_append]

/-- The table-driven checksum, bit by bit. -/
theorem crc32_toBitVec (buf : Bytes) : (crc32 buf).toBitVec = crc32Bitwise buf := by
  have hfold := foldl_crcStep (~~~0) buf
  show (buf.foldl crcStep (~~~0)).toBitVec ^^^ 0xFFFFFFFF = _
  rw [hfold]
  rfl

/-! ## Section 3: What it detects -/

theorem length_bits (buf : Bytes) : (bits buf).length = 8 * buf.length := by
  induction buf with
  | nil => rfl
  | cons p buf ih =>
    rw [bits, List.flatMap_cons, List.length_append, length_byteBits, List.length_cons]
    rw [bits] at ih
    omega

theorem byteBits_inj {p q : UInt8} (h : byteBits p = byteBits q) : p = q := by
  have hword := congrArg (word 32) h
  rw [word_byteBits, word_byteBits] at hword
  exact UInt8.toUInt32_inj.mp (UInt32.toBitVec_inj.mp hword)

theorem bits_inj (h : bits a = bits b) : a = b := by
  induction a generalizing b with
  | nil =>
    have hlen := congrArg List.length h
    rw [length_bits, length_bits, List.length_nil] at hlen
    exact (List.eq_nil_of_length_eq_zero (by omega)).symm
  | cons p a ih =>
    rcases b with _ | ⟨q, b⟩
    · have hlen := congrArg List.length h
      rw [length_bits, length_bits, List.length_nil, List.length_cons] at hlen
      omega
    · rw [bits, bits, List.flatMap_cons, List.flatMap_cons] at h
      obtain ⟨hp, hrest⟩ := List.append_inj h (by simp)
      rw [byteBits_inj hp, ih hrest]

/-- **`crc32` is CRC-32**, and two payloads of one length that differ within
    one window of 32 bits only get different checksums. -/
theorem crc32_is_crc32 :
    (∀ buf, (crc32 buf).toBitVec = crc32Bitwise buf) ∧
    ∀ a b : Bytes, a.length = b.length → a ≠ b →
      (∃ s, ∀ i, i < s ∨ s + 32 ≤ i → (bits a)[i]? = (bits b)[i]?) → crc32 a ≠ crc32 b := by
  refine ⟨crc32_toBitVec, ?_⟩
  intro a b hlen hne ⟨s, hsame⟩ heq
  have hbits : bits a ≠ bits b := fun h => hne (bits_inj h)
  have hlen' : (bits a).length = (bits b).length := by rw [length_bits, length_bits, hlen]
  have hpoly : crc32Poly.getLsbD (32 - 1) = true := by decide
  -- equal checksums are equal registers
  have hword := congrArg UInt32.toBitVec heq
  rw [crc32_toBitVec, crc32_toBitVec, crc32Bitwise, crc32Bitwise, BitVec.xor_left_inj] at hword
  exact feedAll_burst hpoly hlen' hbits hsame hword

/-- One flipped bit in the second byte. -/
theorem crc32_is_crc32_flip :
    (crc32 [1, 2, 3]).toBitVec = crc32Bitwise [1, 2, 3] ∧ crc32 [1, 2, 3] ≠ crc32 [1, 6, 3] := by
  refine ⟨crc32_is_crc32.1 _, crc32_is_crc32.2 _ _ rfl (by decide) ⟨8, ?_⟩⟩
  intro i hi
  rcases hi with hi | hi
  · have : i ∈ List.range 8 := List.mem_range.mpr hi
    revert this
    revert i
    decide
  · rw [List.getElem?_eq_none, List.getElem?_eq_none]
    · rw [length_bits]
      simp
      omega
    · rw [length_bits]
      simp
      omega

end BoAtom.Upgrade
