import Mathlib.Data.Nat.Bitwise
import Mathlib.Data.List.Perm.Basic

/-! # Cursors counted from the high bit

    A cursor over the residues modulo a power of two that is incremented
    from its high bits down, by reversing it, adding one and reversing it
    again.  The `place` of a number is its value with the bits reversed.

    Numbers with the same low `n` bits have their places in one block of
    length `2 ^ (w - n)`, and the increment takes a cursor to the start of
    the next block, for any `n`: so the modulus may change between two
    increments, and the places passed are still passed. -/

namespace ReverseCursor

variable {w : Nat}

/-! ## Section 1: Places -/

def place (v : BitVec w) : Nat := v.reverse.toNat

/-- The low `n` bits set. -/
def mask (w n : Nat) : BitVec w := BitVec.ofNat w (2 ^ n - 1)

/-- The increment under the mask of `n` bits. -/
def next (n : Nat) (v : BitVec w) : BitVec w := ((v ||| ~~~mask w n).reverse + 1).reverse

theorem place_lt (v : BitVec w) : place v < 2 ^ w := v.reverse.isLt

@[simp] theorem getLsbD_mask (n i : Nat) : (mask w n).getLsbD i = (decide (i < w) && decide (i < n)) := by
  rw [mask, BitVec.getLsbD_ofNat, Nat.testBit_two_pow_sub_one]

theorem testBit_place (v : BitVec w) {i : Nat} (hi : i < w) :
    (place v).testBit i = v.getLsbD (w - 1 - i) := by
  rw [place, BitVec.testBit_toNat, BitVec.getLsbD_reverse, BitVec.getMsbD_eq_getLsbD]
  simp [hi]

@[simp] theorem place_zero : place (0 : BitVec w) = 0 := by
  apply Nat.eq_of_testBit_eq
  intro i
  rcases Nat.lt_or_ge i w with hi | hi
  · rw [testBit_place _ hi]
    simp
  · rw [Nat.testBit_lt_two_pow (lt_of_lt_of_le (place_lt _) (Nat.pow_le_pow_right (by decide) hi))]
    simp

theorem place_injective {u v : BitVec w} (h : place u = place v) : u = v := by
  have hrev : u.reverse = v.reverse := BitVec.eq_of_toNat_eq h
  rw [← BitVec.reverse_reverse_eq (x := u), hrev, BitVec.reverse_reverse_eq]

/-- The block of a place is given by the low bits. -/
theorem block_eq_iff {n : Nat} (hn : n ≤ w) (u v : BitVec w) :
    place u / 2 ^ (w - n) = place v / 2 ^ (w - n) ↔ u.toNat % 2 ^ n = v.toNat % 2 ^ n := by
  have hbit : ∀ (x : BitVec w) i, i < n →
      (place x / 2 ^ (w - n)).testBit i = x.getLsbD (n - 1 - i) := by
    intro x i hi
    rw [Nat.testBit_div_two_pow, testBit_place x (by omega)]
    congr 1
    omega
  constructor
  · intro h
    apply Nat.eq_of_testBit_eq
    intro i
    rw [Nat.testBit_mod_two_pow, Nat.testBit_mod_two_pow]
    by_cases hi : i < n
    · have := congrArg (fun x => x.testBit (n - 1 - i)) h
      simp only [hbit _ (n - 1 - i) (by omega)] at this
      rw [show n - 1 - (n - 1 - i) = i by omega] at this
      simp only [hi, decide_true, Bool.true_and, BitVec.testBit_toNat, this]
    · simp [hi]
  · intro h
    apply Nat.eq_of_testBit_eq
    intro i
    by_cases hi : i < n
    · rw [hbit u i hi, hbit v i hi]
      have := congrArg (fun x => x.testBit (n - 1 - i)) h
      simpa [Nat.testBit_mod_two_pow, show n - 1 - i < n by omega, BitVec.testBit_toNat] using this
    · -- no bits beyond the width
      have hlt : ∀ x : BitVec w, (place x / 2 ^ (w - n)).testBit i = false := by
        intro x
        rw [Nat.testBit_div_two_pow]
        apply Nat.testBit_lt_two_pow
        exact lt_of_lt_of_le (place_lt x) (Nat.pow_le_pow_right (by decide) (by omega))
      rw [hlt, hlt]

/-! ## Section 2: The increment -/

/-- **The increment goes to the start of the next block**, the last one
    being followed by zero. -/
theorem place_next {n : Nat} (hn : n ≤ w) (v : BitVec w) :
    place (next n v) = (place v / 2 ^ (w - n) + 1) * 2 ^ (w - n) % 2 ^ w := by
  have hones : (v ||| ~~~mask w n).reverse.toNat =
      2 ^ (w - n) * (place v / 2 ^ (w - n)) + (2 ^ (w - n) - 1) := by
    have hlt : 2 ^ (w - n) - 1 < 2 ^ (w - n) := by
      have := Nat.two_pow_pos (w - n)
      omega
    apply Nat.eq_of_testBit_eq
    intro i
    rw [Nat.testBit_two_pow_mul_add _ hlt, Nat.testBit_two_pow_sub_one, Nat.testBit_div_two_pow,
      BitVec.testBit_toNat]
    rcases Nat.lt_or_ge i w with hi | hi
    · have hsplit : (v ||| ~~~mask w n).reverse.getLsbD i =
          (v.getLsbD (w - 1 - i) || !decide (w - 1 - i < n)) := by
        rw [BitVec.getLsbD_reverse, BitVec.getMsbD_eq_getLsbD, BitVec.getLsbD_or, BitVec.getLsbD_not,
          getLsbD_mask]
        simp only [hi, show w - 1 - i < w by omega, decide_true, Bool.true_and]
      rw [hsplit]
      by_cases hlow : i < w - n
      · simp [hlow, show ¬ w - 1 - i < n by omega]
      · rw [if_neg hlow, show i - (w - n) + (w - n) = i by omega, testBit_place v hi]
        simp [show w - 1 - i < n by omega]
    · rw [if_neg (by omega), show i - (w - n) + (w - n) = i by omega, BitVec.getLsbD_of_ge _ _ hi,
        Nat.testBit_lt_two_pow (lt_of_lt_of_le (place_lt v) (Nat.pow_le_pow_right (by decide) hi))]
  have hpos := Nat.two_pow_pos (w - n)
  rw [place, next, BitVec.reverse_reverse_eq, BitVec.toNat_add, hones]
  rcases Nat.eq_zero_or_pos w with rfl | hw
  · simp [Nat.mod_one]
  · have hone : (1 : BitVec w).toNat = 1 := by
      rw [show (1 : BitVec w) = BitVec.ofNat w 1 from rfl, BitVec.toNat_ofNat]
      exact Nat.mod_eq_of_lt (Nat.one_lt_two_pow (by omega))
    rw [hone]
    congr 1
    calc 2 ^ (w - n) * (place v / 2 ^ (w - n)) + (2 ^ (w - n) - 1) + 1
        = 2 ^ (w - n) * (place v / 2 ^ (w - n)) + 2 ^ (w - n) := by omega
      _ = (place v / 2 ^ (w - n) + 1) * 2 ^ (w - n) := by rw [Nat.succ_mul, Nat.mul_comm]

/-- The next cursor has low bits only. -/
theorem next_lt {n : Nat} (hn : n ≤ w) (v : BitVec w) : (next n v).toNat < 2 ^ n := by
  apply Nat.lt_pow_two_of_testBit
  intro i hi
  rw [BitVec.testBit_toNat]
  rcases Nat.lt_or_ge i w with hw | hw
  · have hplace := testBit_place (next n v) (show w - 1 - i < w by omega)
    rw [show w - 1 - (w - 1 - i) = i by omega] at hplace
    rw [← hplace, place_next hn, Nat.testBit_mod_two_pow, Nat.mul_comm, Nat.testBit_two_pow_mul]
    simp only [Bool.and_eq_false_iff, decide_eq_false_iff_not]
    right
    left
    omega
  · exact BitVec.getLsbD_of_ge _ _ hw

/-- **What is behind the cursor.**  A number behind the next cursor was
    behind the cursor, or it has the low bits of the cursor. -/
theorem behind_next {n : Nat} (hn : n ≤ w) (v h : BitVec w)
    (hlt : place h < place (next n v) ∨ next n v = 0) :
    place h < place v ∨ h.toNat % 2 ^ n = v.toNat % 2 ^ n := by
  rcases Nat.lt_or_ge (place h) (place v) with hback | hahead
  · exact Or.inl hback
  refine Or.inr ((block_eq_iff hn h v).mp ?_)
  have hpos := Nat.two_pow_pos (w - n)
  have hle : place v / 2 ^ (w - n) ≤ place h / 2 ^ (w - n) := Nat.div_le_div_right hahead
  have hpow : 2 ^ n * 2 ^ (w - n) = 2 ^ w := by rw [← pow_add]; congr 1; omega
  -- the places of the block of `v` end where the next cursor is
  have hend : place h < (place v / 2 ^ (w - n) + 1) * 2 ^ (w - n) := by
    have hnext := place_next hn v
    rcases hlt with hlt | hzero
    · rw [hnext] at hlt
      exact lt_of_lt_of_le hlt (Nat.mod_le _ _)
    · rw [hzero, place_zero] at hnext
      have hdvd : 2 ^ w ∣ (place v / 2 ^ (w - n) + 1) * 2 ^ (w - n) :=
        Nat.dvd_of_mod_eq_zero hnext.symm
      exact lt_of_lt_of_le (place_lt h) (Nat.le_of_dvd (Nat.mul_pos (Nat.succ_pos _) hpos) hdvd)
  have hlt' : place h / 2 ^ (w - n) < place v / 2 ^ (w - n) + 1 :=
    (Nat.div_lt_iff_lt_mul hpos).mpr hend
  omega

/-! ## Section 3: Expansions -/

/-- The plain increment of the bits that the mask of `n` bits leaves out. -/
def expandNext (n : Nat) (v : BitVec w) : BitVec w :=
  (((v ||| mask w n) + 1) &&& ~~~mask w n) ||| (v &&& mask w n)

theorem toNat_and_mask {n : Nat} (hn : n ≤ w) (v : BitVec w) :
    (v &&& mask w n).toNat = v.toNat % 2 ^ n := by
  apply Nat.eq_of_testBit_eq
  intro i
  rw [BitVec.testBit_toNat, BitVec.getLsbD_and, getLsbD_mask, Nat.testBit_mod_two_pow,
    BitVec.testBit_toNat]
  by_cases hi : i < n
  · simp [hi, show i < w by omega]
  · simp [hi]

theorem toNat_or_mask {n : Nat} (hn : n ≤ w) (v : BitVec w) :
    (v ||| mask w n).toNat = 2 ^ n * (v.toNat / 2 ^ n) + (2 ^ n - 1) := by
  have hlt : 2 ^ n - 1 < 2 ^ n := by
    have := Nat.two_pow_pos n
    omega
  apply Nat.eq_of_testBit_eq
  intro i
  rw [Nat.testBit_two_pow_mul_add _ hlt, BitVec.testBit_toNat, BitVec.getLsbD_or, getLsbD_mask,
    Nat.testBit_two_pow_sub_one, Nat.testBit_div_two_pow, BitVec.testBit_toNat]
  by_cases hi : i < n
  · simp [hi, show i < w by omega]
  · simp [hi, show i - n + n = i by omega]

/-- Numbers without low bits are kept by the complement of the mask. -/
theorem toNat_and_not_mask {n : Nat} {v : BitVec w} (h : v.toNat % 2 ^ n = 0) :
    (v &&& ~~~mask w n).toNat = v.toNat := by
  apply Nat.eq_of_testBit_eq
  intro i
  rw [BitVec.testBit_toNat, BitVec.getLsbD_and, BitVec.getLsbD_not, getLsbD_mask, BitVec.testBit_toNat]
  by_cases hi : i < n
  · have hbit := congrArg (fun x => x.testBit i) h
    simp only [Nat.testBit_mod_two_pow, hi, decide_true, Bool.true_and, BitVec.testBit_toNat,
      Nat.zero_testBit] at hbit
    rw [hbit]
    rfl
  · by_cases hw : i < w
    · simp [hi, hw]
    · rw [BitVec.getLsbD_of_ge _ _ (by omega)]
      rfl

/-- The increment of the expansion as a number. -/
theorem toNat_expandNext {n : Nat} (hn : n ≤ w) (v : BitVec w) :
    (expandNext n v).toNat =
      2 ^ n * ((v.toNat / 2 ^ n + 1) % 2 ^ (w - n)) + v.toNat % 2 ^ n := by
  have hpos := Nat.two_pow_pos n
  have hpow : 2 ^ n * 2 ^ (w - n) = 2 ^ w := by rw [← pow_add]; congr 1; omega
  have hadd : ((v ||| mask w n) + 1).toNat = 2 ^ n * ((v.toNat / 2 ^ n + 1) % 2 ^ (w - n)) := by
    rcases Nat.eq_zero_or_pos w with rfl | hw
    · have hv : ((v ||| mask 0 n) + 1).toNat < 2 ^ 0 := BitVec.isLt _
      have : n = 0 := by omega
      subst this
      rw [pow_zero] at hv
      rw [Nat.sub_self, pow_zero, Nat.mod_one, Nat.mul_zero]
      omega
    have hone : (1 : BitVec w).toNat = 1 := by
      rw [show (1 : BitVec w) = BitVec.ofNat w 1 from rfl, BitVec.toNat_ofNat]
      exact Nat.mod_eq_of_lt (Nat.one_lt_two_pow (by omega))
    rw [BitVec.toNat_add, hone, toNat_or_mask hn, ← Nat.mul_mod_mul_left, hpow]
    congr 1
    rw [Nat.mul_add]
    omega
  rw [expandNext, BitVec.toNat_or, toNat_and_mask hn,
    toNat_and_not_mask (by rw [hadd, Nat.mul_mod_right]), hadd,
    Nat.two_pow_add_eq_or_of_lt (Nat.mod_lt _ hpos)]

theorem expandNext_mod {n : Nat} (hn : n ≤ w) (v : BitVec w) :
    (expandNext n v).toNat % 2 ^ n = v.toNat % 2 ^ n := by
  rw [toNat_expandNext hn, Nat.mul_add_mod, Nat.mod_mod]

theorem expandNext_div {n : Nat} (hn : n ≤ w) (v : BitVec w) :
    (expandNext n v).toNat / 2 ^ n = (v.toNat / 2 ^ n + 1) % 2 ^ (w - n) := by
  have hpos := Nat.two_pow_pos n
  rw [toNat_expandNext hn, Nat.mul_add_div hpos, Nat.div_eq_of_lt (Nat.mod_lt _ hpos), Nat.add_zero]

/-- The bits between two masks. -/
theorem toNat_and_between {n m : Nat} (hn : n ≤ m) (hm : m ≤ w) (v : BitVec w) :
    (v &&& (mask w n ^^^ mask w m)).toNat = 2 ^ n * (v.toNat / 2 ^ n % 2 ^ (m - n)) := by
  apply Nat.eq_of_testBit_eq
  intro i
  rw [BitVec.testBit_toNat, BitVec.getLsbD_and, BitVec.getLsbD_xor, getLsbD_mask, getLsbD_mask,
    Nat.testBit_two_pow_mul, Nat.testBit_mod_two_pow, Nat.testBit_div_two_pow, BitVec.testBit_toNat]
  by_cases hi : i < n
  · simp [hi, show i < m by omega]
  · by_cases him : i < m
    · simp [hi, him, show i < w by omega, show i - n < m - n by omega, show i - n + n = i by omega]
      omega
    · simp [hi, him, show ¬ i - n < m - n by omega]

/-- The increment under a mask looks at the low bits only. -/
theorem next_congr {n : Nat} (hn : n ≤ w) {u v : BitVec w}
    (h : u.toNat % 2 ^ n = v.toNat % 2 ^ n) : next n u = next n v := by
  apply place_injective
  rw [place_next hn, place_next hn, (block_eq_iff hn u v).mpr h]

/-- A number whose bits are all set, up to its highest one. -/
def AllOnes (c : Nat) : Prop := c &&& (c + 1) = 0

instance : DecidablePred AllOnes := fun c => inferInstanceAs (Decidable (c &&& (c + 1) = 0))

theorem AllOnes.exists_pow {c : Nat} (h : AllOnes c) : ∃ j, c = 2 ^ j - 1 := by
  have hand : (c + 1) &&& (c + 1 - 1) = 0 := by
    rw [Nat.add_sub_cancel, Nat.and_comm]
    exact h
  have hpow := (Nat.and_sub_one_eq_zero_iff_isPowerOfTwo (Nat.succ_ne_zero c)).mp hand
  obtain ⟨j, hj⟩ := hpow
  exact ⟨j, by omega⟩

/-- The place of a block within the block of fewer bits. -/
theorem block_split {n j : Nat} (hle : n + j ≤ w) (v : BitVec w) :
    place v / 2 ^ (w - (n + j)) / 2 ^ j = place v / 2 ^ (w - n) := by
  rw [Nat.div_div_eq_div_mul, ← pow_add]
  congr 2
  omega

/-- Bits that are all ones are the last of their block: **a number that is
    not behind the cursor has them too**. -/
theorem ones_le {n m : Nat} (hn : n ≤ m) (hm : m ≤ w) {v h : BitVec w}
    (hlow : h.toNat % 2 ^ n = v.toNat % 2 ^ n) (hahead : place v ≤ place h)
    (hones : AllOnes (v.toNat / 2 ^ n % 2 ^ (m - n))) :
    v.toNat / 2 ^ n % 2 ^ (m - n) ≤ h.toNat / 2 ^ n % 2 ^ (m - n) := by
  obtain ⟨j, hj⟩ := hones.exists_pow
  have hpos := Nat.two_pow_pos j
  have hlt : v.toNat / 2 ^ n % 2 ^ (m - n) < 2 ^ (m - n) := Nat.mod_lt _ (Nat.two_pow_pos _)
  have hjm : j ≤ m - n := by
    by_contra hgt
    have hpow : 2 ^ (m - n + 1) ≤ 2 ^ j := Nat.pow_le_pow_right (by decide) (by omega)
    have := Nat.two_pow_pos (m - n)
    rw [pow_succ] at hpow
    omega
  -- the bits above the low ones, in the place: the last of the block
  have hlast : place v / 2 ^ (w - (n + j)) % 2 ^ j = 2 ^ j - 1 := by
    apply Nat.eq_of_testBit_eq
    intro i
    rw [Nat.testBit_mod_two_pow, Nat.testBit_two_pow_sub_one, Nat.testBit_div_two_pow]
    by_cases hi : i < j
    · have hbit : (v.toNat / 2 ^ n % 2 ^ (m - n)).testBit (j - 1 - i) = true := by
        rw [hj, Nat.testBit_two_pow_sub_one]
        simp
        omega
      rw [Nat.testBit_mod_two_pow, Nat.testBit_div_two_pow, BitVec.testBit_toNat] at hbit
      rw [testBit_place v (by omega),
        show w - 1 - (i + (w - (n + j))) = j - 1 - i + n by omega]
      simp only [Bool.and_eq_true] at hbit
      simp [hi, hbit.2]
    · simp [hi]
  have hblock : place h / 2 ^ (w - n) = place v / 2 ^ (w - n) := (block_eq_iff (by omega) h v).mpr hlow
  have hle : place v / 2 ^ (w - (n + j)) ≤ place h / 2 ^ (w - (n + j)) := Nat.div_le_div_right hahead
  have hsame : place h / 2 ^ (w - (n + j)) = place v / 2 ^ (w - (n + j)) := by
    have hv := Nat.div_add_mod (place v / 2 ^ (w - (n + j))) (2 ^ j)
    have hh := Nat.div_add_mod (place h / 2 ^ (w - (n + j))) (2 ^ j)
    have hmod := Nat.mod_lt (place h / 2 ^ (w - (n + j))) hpos
    rw [block_split (by omega)] at hv hh
    rw [hblock] at hh
    omega
  have hbits := (block_eq_iff (by omega) h v).mp hsame
  -- so the number has the ones of the cursor
  have hmidh : h.toNat / 2 ^ n % 2 ^ j = v.toNat / 2 ^ n % 2 ^ j := by
    rw [← Nat.mod_mul_right_div_self, ← Nat.mod_mul_right_div_self, ← pow_add, hbits]
  have hsplit : ∀ x : Nat, x % 2 ^ (m - n) % 2 ^ j = x % 2 ^ j := fun x =>
    Nat.mod_mod_of_dvd _ (pow_dvd_pow 2 hjm)
  have hsmall : v.toNat / 2 ^ n % 2 ^ (m - n) < 2 ^ j := by omega
  calc v.toNat / 2 ^ n % 2 ^ (m - n) = v.toNat / 2 ^ n % 2 ^ (m - n) % 2 ^ j :=
        (Nat.mod_eq_of_lt hsmall).symm
    _ = h.toNat / 2 ^ n % 2 ^ (m - n) % 2 ^ j := by rw [hsplit, hsplit, hmidh]
    _ ≤ h.toNat / 2 ^ n % 2 ^ (m - n) := Nat.mod_le _ _

end ReverseCursor
