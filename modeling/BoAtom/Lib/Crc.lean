import Mathlib.Data.BitVec
import Mathlib.Data.List.GetD

/-! # Cyclic redundancy checks

    The shift register of a reflected CRC of any width: `step` shifts out
    the low bit and adds the polynomial if it was set, `feed` adds a bit of
    the message first, `feedAll` takes the message bit by bit.

    * The register is linear, and one to one if the polynomial has its top
      bit set.
    * A word of up to `w` bits may be added at once (`feedAll_word`), which
      is what a table of words rests on (`steps_split`).
    * Messages that differ within one window of `w` bits leave different
      registers (`feedAll_burst`). -/

namespace Crc

variable {w : Nat} (poly : BitVec w)

/-! ## Section 1: The register -/

def step (x : BitVec w) : BitVec w :=
  if x.getLsbD 0 then (x >>> 1) ^^^ poly else x >>> 1

/-- `n` steps without a message. -/
def steps : Nat → BitVec w → BitVec w
  | 0, x => x
  | n + 1, x => steps n (step poly x)

/-- A bit of the message, as a word. -/
def bit (w : Nat) (b : Bool) : BitVec w := (BitVec.ofBool b).setWidth w

def feed (x : BitVec w) (b : Bool) : BitVec w := step poly (x ^^^ bit w b)

def feedAll (x : BitVec w) (bits : List Bool) : BitVec w := bits.foldl (feed poly) x

/-- A message as a word, the first bit lowest. -/
def word (w : Nat) : List Bool → BitVec w
  | [] => 0
  | b :: bits => bit w b ^^^ (word w bits <<< 1)

variable {poly} {x y : BitVec w} {a b : Bool} {as bs bits : List Bool} {m n : Nat}

theorem getLsbD_bit (i : Nat) : (bit w b).getLsbD i = (decide (i < w) && (decide (i = 0) && b)) := by
  cases b <;> simp [bit, BitVec.getLsbD_setWidth]

@[simp] theorem bit_false : bit w false = 0 := by
  simp [bit]

theorem bit_xor : bit w (a ^^ b) = bit w a ^^^ bit w b := by
  apply BitVec.eq_of_getLsbD_eq
  intro i hi
  rw [BitVec.getLsbD_xor, getLsbD_bit, getLsbD_bit, getLsbD_bit]
  cases decide (i < w) <;> cases decide (i = 0) <;> simp

/-! ## Section 2: Linearity -/

theorem step_xor : step poly (x ^^^ y) = step poly x ^^^ step poly y := by
  unfold step
  rw [BitVec.getLsbD_xor, BitVec.ushiftRight_xor_distrib]
  have hcancel : ∀ u v : BitVec w, u ^^^ poly ^^^ (v ^^^ poly) = u ^^^ v := by
    intro u v
    rw [BitVec.xor_comm v poly, BitVec.xor_assoc, ← BitVec.xor_assoc poly, BitVec.xor_self,
      BitVec.zero_xor]
  cases x.getLsbD 0 <;> cases y.getLsbD 0
  · simp
  · simp [BitVec.xor_assoc]
  · simp [BitVec.xor_assoc, BitVec.xor_comm poly]
  · simp [hcancel]

@[simp] theorem step_zero : step poly 0 = 0 := by
  simp [step]

theorem steps_xor : steps poly n (x ^^^ y) = steps poly n x ^^^ steps poly n y := by
  induction n generalizing x y with
  | zero => rfl
  | succ n ih => rw [steps, steps, steps, step_xor, ih]

@[simp] theorem steps_zero : steps poly n 0 = 0 := by
  induction n with
  | zero => rfl
  | succ n ih => rw [steps, step_zero, ih]

/-- Two messages of one length: their registers differ by that of the
    difference. -/
theorem feedAll_xor (hlen : as.length = bs.length) :
    feedAll poly (x ^^^ y) (List.zipWith xor as bs) = feedAll poly x as ^^^ feedAll poly y bs := by
  induction as generalizing x y bs with
  | nil =>
    obtain rfl := List.eq_nil_of_length_eq_zero hlen.symm
    rfl
  | cons a as ih =>
    rcases bs with _ | ⟨b, bs⟩
    · simp at hlen
    · have hfeed : feed poly (x ^^^ y) (a ^^ b) = feed poly x a ^^^ feed poly y b := by
        unfold feed
        rw [← step_xor, bit_xor]
        congr 1
        ac_rfl
      simp only [List.zipWith_cons_cons, feedAll, List.foldl_cons]
      rw [hfeed]
      exact ih (by simpa using hlen)

theorem feedAll_append : feedAll poly x (as ++ bs) = feedAll poly (feedAll poly x as) bs :=
  List.foldl_append

theorem feedAll_zeros : feedAll poly x (List.replicate n false) = steps poly n x := by
  induction n generalizing x with
  | zero => rfl
  | succ n ih =>
    rw [List.replicate_succ, feedAll, List.foldl_cons]
    have hfeed : feed poly x false = step poly x := by simp [feed]
    rw [hfeed]
    exact ih

/-! ## Section 3: Words -/

/-- As long as the bits shifted out are clear, nothing is added. -/
theorem steps_low (h : ∀ i < n, x.getLsbD i = false) : steps poly n x = x >>> n := by
  induction n generalizing x with
  | zero => simp [steps]
  | succ n ih =>
    have hstep : step poly x = x >>> 1 := by
      simp [step, h 0 (Nat.zero_lt_succ n)]
    rw [steps, hstep, ih]
    · rw [← BitVec.shiftRight_add, Nat.add_comm]
    · intro i hi
      rw [BitVec.getLsbD_ushiftRight]
      exact h (1 + i) (by omega)

/-- The low `n` bits of a word. -/
def lowBits (n : Nat) (x : BitVec w) : BitVec w := x &&& BitVec.ofNat w (2 ^ n - 1)

theorem getLsbD_lowBits (i : Nat) : (lowBits n x).getLsbD i = (x.getLsbD i && decide (i < n)) := by
  rw [lowBits, BitVec.getLsbD_and, BitVec.getLsbD_ofNat, Nat.testBit_two_pow_sub_one]
  by_cases hi : i < w
  · simp [hi]
  · simp [BitVec.getLsbD_of_ge x i (Nat.le_of_not_lt hi)]

/-- **The table rule**: `n` steps are those of the low `n` bits, and a shift
    of the rest. -/
theorem steps_split : steps poly n x = steps poly n (lowBits n x) ^^^ (x >>> n) := by
  have hhigh : ∀ i < n, (lowBits n x ^^^ x).getLsbD i = false := by
    intro i hi
    rw [BitVec.getLsbD_xor, getLsbD_lowBits]
    simp [hi]
  have hshift : (lowBits n x ^^^ x) >>> n = x >>> n := by
    apply BitVec.eq_of_getLsbD_eq
    intro i hi
    rw [BitVec.getLsbD_ushiftRight, BitVec.getLsbD_ushiftRight, BitVec.getLsbD_xor, getLsbD_lowBits]
    simp [show ¬ n + i < n by omega]
  have hx : x = lowBits n x ^^^ (lowBits n x ^^^ x) := by
    rw [← BitVec.xor_assoc, BitVec.xor_self, BitVec.zero_xor]
  calc steps poly n x = steps poly n (lowBits n x ^^^ (lowBits n x ^^^ x)) := by rw [← hx]
    _ = steps poly n (lowBits n x) ^^^ (x >>> n) := by rw [steps_xor, steps_low hhigh, hshift]

theorem getLsbD_word (i : Nat) : (word w bits).getLsbD i = (decide (i < w) && bits.getD i false) := by
  induction bits generalizing i with
  | nil => simp [word]
  | cons b bits ih =>
    rw [word, BitVec.getLsbD_xor, getLsbD_bit, BitVec.getLsbD_shiftLeft]
    rcases i with _ | i
    · by_cases hw : 0 < w <;> simp [hw]
    · rw [Nat.add_sub_cancel, ih]
      by_cases hi : i + 1 < w
      · simp [hi, show i < w by omega]
      · simp [hi]

/-- A message that fits into the register may be added as a word. -/
theorem feedAll_word (h : bits.length ≤ w) :
    feedAll poly x bits = steps poly bits.length (x ^^^ word w bits) := by
  induction bits generalizing x with
  | nil => simp [feedAll, steps, word]
  | cons b bits ih =>
    rw [List.length_cons] at h
    have hlow : step poly (word w bits <<< 1) = word w bits := by
      have hzero : (word w bits <<< 1).getLsbD 0 = false := by simp
      rw [step, hzero, if_neg Bool.false_ne_true]
      apply BitVec.eq_of_getLsbD_eq
      intro i hi
      rw [BitVec.getLsbD_ushiftRight, BitVec.getLsbD_shiftLeft]
      -- the top bit is not in use yet
      by_cases htop : 1 + i < w
      · simp [htop]
      · have hout : bits.length ≤ i := by omega
        have hclear : (word w bits).getLsbD i = false := by
          rw [getLsbD_word, List.getD_eq_default _ _ hout, Bool.and_false]
        simp [htop, hclear]
    have hfeed : feed poly x b ^^^ word w bits = step poly (x ^^^ word w (b :: bits)) := by
      rw [feed, word, ← BitVec.xor_assoc, @step_xor _ _ (x ^^^ bit w b), hlow]
    rw [feedAll, List.foldl_cons, List.length_cons, steps, ← hfeed]
    exact ih (Nat.le_of_succ_le h)

/-! ## Section 4: Bursts -/

/-- The low bit comes out at the top. -/
theorem step_eq_zero (hpoly : poly.getLsbD (w - 1) = true) (h : step poly x = 0) : x = 0 := by
  have hw : 0 < w := by
    by_contra hzero
    rw [BitVec.getLsbD_of_ge poly (w - 1) (by omega)] at hpoly
    exact absurd hpoly Bool.false_ne_true
  have hlow : x.getLsbD 0 = false := by
    by_contra hset
    rw [Bool.not_eq_false] at hset
    rw [step, if_pos hset] at h
    have htop := congrArg (fun v => v.getLsbD (w - 1)) h
    simp only [BitVec.getLsbD_xor, BitVec.getLsbD_ushiftRight, hpoly,
      BitVec.getLsbD_of_ge x (1 + (w - 1)) (by omega)] at htop
    simp at htop
  rw [step, hlow, if_neg Bool.false_ne_true] at h
  apply BitVec.eq_of_getLsbD_eq
  intro i hi
  rcases i with _ | i
  · rw [hlow]
    simp
  · have hbit := congrArg (fun v => v.getLsbD i) h
    simp only [BitVec.getLsbD_ushiftRight] at hbit
    rw [Nat.add_comm, hbit]
    simp

theorem steps_eq_zero (hpoly : poly.getLsbD (w - 1) = true) (h : steps poly n x = 0) : x = 0 := by
  induction n generalizing x with
  | zero => exact h
  | succ n ih => exact step_eq_zero hpoly (ih h)

/-- A short message that leaves an empty register empty has no bit set. -/
theorem not_mem_of_feedAll_zero (hpoly : poly.getLsbD (w - 1) = true) (hlen : bits.length ≤ w)
    (h : feedAll poly 0 bits = 0) : true ∉ bits := by
  have hzero : (0 : BitVec w) ^^^ word w bits = word w bits := BitVec.zero_xor
  rw [feedAll_word hlen, hzero] at h
  have hword := steps_eq_zero hpoly h
  intro hmem
  obtain ⟨i, hi, hset⟩ := List.mem_iff_getElem.mp hmem
  have hbit := congrArg (fun v => v.getLsbD i) hword
  simp only [getLsbD_word] at hbit
  rw [List.getD_eq_getElem _ _ hi, hset] at hbit
  simp [show i < w by omega] at hbit

theorem eq_replicate_of_not_mem (h : true ∉ bits) : bits = List.replicate bits.length false := by
  rw [List.eq_replicate_iff]
  refine ⟨rfl, fun b hb => ?_⟩
  cases b
  · rfl
  · exact absurd hb h

/-- **Bursts are detected.**  Two messages of one length that differ, but
    only within `w` bits from `s` on. -/
theorem feedAll_burst (hpoly : poly.getLsbD (w - 1) = true) (hlen : as.length = bs.length) (hne : as ≠ bs)
    {s : Nat} (hsame : ∀ i, i < s ∨ s + w ≤ i → as[i]? = bs[i]?) :
    feedAll poly x as ≠ feedAll poly x bs := by
  intro heq
  let d := List.zipWith xor as bs
  have hd : d.length = as.length := by simp [d, hlen]
  have hdiff : feedAll poly 0 d = 0 := by
    have hxor : feedAll poly (x ^^^ x) d = feedAll poly x as ^^^ feedAll poly x bs := feedAll_xor hlen
    rwa [BitVec.xor_self, heq, BitVec.xor_self] at hxor
  -- the difference is clear in front of the window and behind it
  have hclear : ∀ i, i < s ∨ s + w ≤ i → ∀ b, d[i]? = some b → b = false := by
    intro i hi b hb
    rw [List.getElem?_zipWith_eq_some] at hb
    obtain ⟨a, a', ha, ha', rfl⟩ := hb
    rw [hsame i hi, ha'] at ha
    cases ha
    exact Bool.xor_self a
  have hfront : true ∉ d.take s := by
    intro hmem
    obtain ⟨i, hi⟩ := List.mem_iff_getElem?.mp hmem
    rw [List.getElem?_take] at hi
    split at hi
    · exact Bool.noConfusion (hclear i (Or.inl ‹_›) _ hi)
    · cases hi
  have hback : true ∉ (d.drop s).drop w := by
    intro hmem
    obtain ⟨i, hi⟩ := List.mem_iff_getElem?.mp hmem
    rw [List.drop_drop, List.getElem?_drop] at hi
    exact Bool.noConfusion (hclear _ (Or.inr (by omega)) _ hi)
  have hsplit : d = d.take s ++ ((d.drop s).take w ++ (d.drop s).drop w) := by
    rw [List.take_append_drop, List.take_append_drop]
  -- so the window alone leaves the register empty
  have hwindow : feedAll poly 0 ((d.drop s).take w) = 0 := by
    rw [hsplit, feedAll_append, feedAll_append, eq_replicate_of_not_mem hfront, feedAll_zeros,
      steps_zero, eq_replicate_of_not_mem hback, feedAll_zeros] at hdiff
    exact steps_eq_zero hpoly hdiff
  have hmid := not_mem_of_feedAll_zero hpoly (List.length_take_le ..) hwindow
  have hall : true ∉ d := by
    rw [hsplit, List.mem_append, List.mem_append]
    rintro (hmem | hmem | hmem)
    · exact hfront hmem
    · exact hmid hmem
    · exact hback hmem
  apply hne
  apply List.ext_getElem hlen
  intro i hi hi'
  have hget : d[i]? = some (as[i] ^^ bs[i]) := by
    rw [List.getElem?_zipWith_eq_some]
    exact ⟨_, _, List.getElem?_eq_getElem hi, List.getElem?_eq_getElem hi', rfl⟩
  rcases hbit : as[i] ^^ bs[i] with _ | _
  · simpa using hbit
  · rw [hbit] at hget
    exact absurd (List.mem_of_getElem? hget) hall

end Crc
