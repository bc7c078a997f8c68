import Mathlib.Data.List.Basic
import Mathlib.Tactic.IntervalCases

/-! # C strings

    Byte sequences read the way the C library reads them: up to the first
    NUL.  `strstr` is specialised to the needle CR LF; `atoi` is the
    library's `(int) strtol(s, NULL, 10)`, with the saturation of `strtol`
    at the range of a 64-bit `long` and the truncation of the cast. -/

/-- A run of memory. -/
abbrev Bytes := List UInt8

namespace CString

abbrev CR : UInt8 := 13
abbrev LF : UInt8 := 10

/-! ## Section 1: Length and search -/

/-- The string stored at the start of `s`. -/
def chars (s : Bytes) : Bytes := s.takeWhile (· ≠ 0)

def strlen (s : Bytes) : Nat := (chars s).length

theorem chars_append_nul {l : Bytes} (h : 0 ∉ l) (r : Bytes) : chars (l ++ 0 :: r) = l := by
  induction l with
  | nil => simp [chars]
  | cons b l ih =>
    have hb : b ≠ 0 := fun e => h (by simp [e])
    have hl : 0 ∉ l := fun e => h (List.mem_cons_of_mem _ e)
    have := ih hl
    unfold chars at this ⊢
    rw [List.cons_append, List.takeWhile_cons_of_pos (by simpa using hb), this]

theorem strlen_append_nul {l : Bytes} (h : 0 ∉ l) (r : Bytes) : strlen (l ++ 0 :: r) = l.length := by
  rw [strlen, chars_append_nul h]

/-- Offset of the first CR LF before the first NUL, `none` for a NULL result. -/
def strstrCrlf : Bytes → Option Nat
  | [] => none
  | b :: s =>
    if b = 0 then none
    else if b = CR ∧ s.head? = some LF then some 0
    else (strstrCrlf s).map (· + 1)

/-- More memory behind a hit does not move it. -/
theorem strstrCrlf_append {s : Bytes} {q : Nat} (h : strstrCrlf s = some q) (x : Bytes) :
    strstrCrlf (s ++ x) = some q := by
  induction s generalizing q with
  | nil => simp [strstrCrlf] at h
  | cons b s ih =>
    rw [strstrCrlf] at h
    split at h
    · simp at h
    next hb =>
      split at h
      · next hcr =>
        obtain ⟨rfl, hlf⟩ := hcr
        have : (s ++ x).head? = some LF := by
          cases s with
          | nil => simp at hlf
          | cons c s => simpa using hlf
        simp only [Option.some.injEq] at h
        rw [List.cons_append, strstrCrlf, if_neg hb, if_pos ⟨rfl, this⟩, h]
      · next hcr =>
        obtain ⟨p, hp, rfl⟩ := Option.map_eq_some_iff.mp h
        have hhead : ¬ (b = CR ∧ (s ++ x).head? = some LF) := by
          cases s with
          | nil => simp [strstrCrlf] at hp
          | cons c s => simpa using hcr
        rw [List.cons_append, strstrCrlf, if_neg hb, if_neg hhead, ih hp]
        rfl

/-- A hit inside `s` is found in `s` alone. -/
theorem strstrCrlf_of_append {s x : Bytes} {q : Nat} (h : strstrCrlf (s ++ x) = some q)
    (hq : q + 2 ≤ s.length) : strstrCrlf s = some q := by
  induction s generalizing q with
  | nil => simp at hq
  | cons b s ih =>
    rw [List.cons_append, strstrCrlf] at h
    rw [strstrCrlf]
    split at h
    · simp at h
    next hb =>
      rw [if_neg hb]
      cases s with
      | nil => simp at hq
      | cons c s =>
        split at h
        · next hcr =>
          rw [if_pos (by simpa using hcr)]
          exact h
        · next hcr =>
          obtain ⟨p, hp, rfl⟩ := Option.map_eq_some_iff.mp h
          rw [if_neg (by simpa using hcr), ih hp (by simp at hq ⊢; omega)]
          rfl

/-- A hit splits the memory into the line, CR LF and the rest. -/
theorem strstrCrlf_eq_some {s : Bytes} {q : Nat} (h : strstrCrlf s = some q) :
    s = s.take q ++ CR :: LF :: s.drop (q + 2) ∧ q + 2 ≤ s.length ∧ 0 ∉ s.take q := by
  induction s generalizing q with
  | nil => simp [strstrCrlf] at h
  | cons b s ih =>
    rw [strstrCrlf] at h
    split at h
    · simp at h
    next hb =>
      split at h
      · next hcr =>
        obtain ⟨rfl, hlf⟩ := hcr
        simp only [Option.some.injEq] at h
        subst h
        cases s with
        | nil => simp at hlf
        | cons c s => simp at hlf; simp [hlf]
      · obtain ⟨p, hp, rfl⟩ := Option.map_eq_some_iff.mp h
        obtain ⟨hs, hlen, hnul⟩ := ih hp
        refine ⟨?_, by simp; omega, ?_⟩
        · rw [List.take_succ_cons, show p + 1 + 2 = (p + 2) + 1 from rfl, List.drop_succ_cons,
            List.cons_append, ← hs]
        · rw [List.take_succ_cons, List.mem_cons]
          rintro (h0 | h0)
          · exact hb h0.symm
          · exact hnul h0

/-- No CR LF starts at the last byte of `s` when `x` does not begin with LF. -/
theorem not_crlf_append {b : UInt8} {s x : Bytes} (h : ¬ (b = CR ∧ s.head? = some LF))
    (hx : x.head? ≠ some LF) : ¬ (b = CR ∧ (s ++ x).head? = some LF) := by
  cases s with
  | nil => exact fun hb => hx hb.2
  | cons c s => exact h

/-- The search stops at a NUL. -/
theorem strstrCrlf_stops {s : Bytes} (h : strstrCrlf s = none) (x : Bytes) :
    strstrCrlf (s ++ 0 :: x) = none := by
  induction s with
  | nil => rfl
  | cons b s ih =>
    rw [strstrCrlf] at h
    rw [List.cons_append, strstrCrlf]
    by_cases hb : b = 0
    · rw [if_pos hb]
    rw [if_neg hb] at h ⊢
    by_cases hcr : b = CR ∧ s.head? = some LF
    · rw [if_pos hcr] at h
      cases h
    rw [if_neg hcr, Option.map_eq_none_iff] at h
    have hcr' : ¬ (b = CR ∧ (s ++ 0 :: x).head? = some LF) := not_crlf_append hcr (by simp [LF])
    rw [if_neg hcr', ih h]
    rfl

/-- And so nothing is found behind a NUL. -/
theorem strstrCrlf_append_of_nul {s : Bytes} (h0 : 0 ∈ s) (h : strstrCrlf s = none) (x : Bytes) :
    strstrCrlf (s ++ x) = none := by
  obtain ⟨l, r, rfl⟩ := List.append_of_mem h0
  have hl : strstrCrlf l = none := by
    rcases hl : strstrCrlf l with _ | q
    · rfl
    · rw [strstrCrlf_append hl] at h
      cases h
  rw [List.append_assoc, List.cons_append]
  exact strstrCrlf_stops hl _

/-- Where no NUL is in the way, a CR LF behind is found. -/
theorem strstrCrlf_reaches {s : Bytes} (h0 : 0 ∉ s) (h : strstrCrlf s = none) (x : Bytes) :
    ∃ q, strstrCrlf (s ++ CR :: LF :: x) = some q := by
  induction s with
  | nil => exact ⟨0, rfl⟩
  | cons b s ih =>
    have hb : b ≠ 0 := fun e => h0 (by simp [e])
    rw [strstrCrlf, if_neg hb] at h
    rw [List.cons_append, strstrCrlf, if_neg hb]
    by_cases hcr : b = CR ∧ s.head? = some LF
    · rw [if_pos hcr] at h
      cases h
    rw [if_neg hcr, Option.map_eq_none_iff] at h
    have hcr' : ¬ (b = CR ∧ (s ++ CR :: LF :: x).head? = some LF) :=
      not_crlf_append hcr (by simp [CR, LF])
    obtain ⟨q, hq⟩ := ih (fun e => h0 (List.mem_cons_of_mem _ e)) h
    rw [if_neg hcr', hq]
    exact ⟨q + 1, rfl⟩

/-- A line without NUL and CR is found by its terminator. -/
theorem strstrCrlf_line {l : Bytes} (h0 : 0 ∉ l) (hcr : CR ∉ l) (r : Bytes) :
    strstrCrlf (l ++ CR :: LF :: r) = some l.length := by
  induction l with
  | nil => rfl
  | cons b l ih =>
    have hb0 : b ≠ 0 := fun e => h0 (by simp [e])
    have hbcr : b ≠ CR := fun e => hcr (by simp [e])
    have := ih (fun e => h0 (List.mem_cons_of_mem _ e)) (fun e => hcr (List.mem_cons_of_mem _ e))
    simp [strstrCrlf, hb0, hbcr, this]

/-- A piece of a line, its CR included, holds no CR LF. -/
theorem strstrCrlf_line_piece {l : Bytes} (h0 : 0 ∉ l) (hcr : CR ∉ l) {p : Bytes}
    (hp : p <+: l ++ [CR]) : strstrCrlf p = none := by
  induction l generalizing p with
  | nil =>
    rcases p with _ | ⟨b, p⟩
    · rfl
    · obtain ⟨t, ht⟩ := hp
      simp only [List.nil_append, List.cons_append, List.cons.injEq, List.append_eq_nil_iff] at ht
      obtain ⟨rfl, rfl, rfl⟩ := ht
      decide
  | cons c l ih =>
    rcases p with _ | ⟨b, p⟩
    · rfl
    · obtain ⟨rfl, hp'⟩ := List.cons_prefix_cons.mp hp
      have hb0 : b ≠ 0 := fun e => h0 (by simp [e])
      have hbcr : b ≠ CR := fun e => hcr (by simp [e])
      have := ih (fun e => h0 (List.mem_cons_of_mem _ e)) (fun e => hcr (List.mem_cons_of_mem _ e)) hp'
      simp [strstrCrlf, hb0, hbcr, this]

/-! ## Section 2: Numbers -/

/-- `isspace` in the C locale. -/
def isspace (b : UInt8) : Bool := b == 32 || (9 ≤ b && b ≤ 13)

def isdigit (b : UInt8) : Bool := 48 ≤ b && b ≤ 57

/-- The digits at the start of `s`, read after a number of value `acc`. -/
def digits (acc : Nat) : Bytes → Nat
  | [] => acc
  | b :: s => if isdigit b then digits (10 * acc + (b.toNat - 48)) s else acc

/-- An optional sign and digits. -/
def signed : Bytes → Int
  | [] => 0
  | b :: s =>
    if b = 45 then - (digits 0 s : Int)
    else if b = 43 then digits 0 s
    else digits 0 (b :: s)

/-- `strtol(s, NULL, 10)` with a 64-bit `long`. -/
def strtol (s : Bytes) : Int :=
  max (-(2 ^ 63)) (min (2 ^ 63 - 1) (signed (s.dropWhile isspace)))

/-- Conversion to a 32-bit `int`. -/
def wrap32 (n : Int) : Int := n.bmod (2 ^ 32)

def atoi (s : Bytes) : Int := wrap32 (strtol s)

theorem wrap32_of_range {n : Int} (hlo : -(2 ^ 31) ≤ n) (hhi : n < 2 ^ 31) : wrap32 n = n := by
  unfold wrap32
  apply Int.bmod_eq_of_le_mul_two <;> norm_num <;> omega

theorem digits_append_nul (acc : Nat) (l r : Bytes) : digits acc (l ++ 0 :: r) = digits acc l := by
  induction l generalizing acc with
  | nil => simp [digits, show isdigit 0 = false from rfl]
  | cons b l ih => simp only [List.cons_append, digits, ih]

theorem signed_append_nul (l r : Bytes) : signed (l ++ 0 :: r) = signed l := by
  cases l with
  | nil => simp [signed, digits, show isdigit 0 = false from rfl]
  | cons b l =>
    simp only [List.cons_append, signed, digits_append_nul]
    rw [← List.cons_append, digits_append_nul]

theorem dropWhile_isspace_append_nul (l r : Bytes) :
    (l ++ 0 :: r).dropWhile isspace = l.dropWhile isspace ++ 0 :: r := by
  induction l with
  | nil => simp [show isspace 0 = false from rfl]
  | cons b l ih => by_cases hb : isspace b <;> simp [hb, ih]

/-- `atoi` reads no further than the terminating NUL. -/
theorem atoi_append_nul (l r : Bytes) : atoi (l ++ 0 :: r) = atoi l := by
  unfold atoi strtol
  rw [dropWhile_isspace_append_nul, signed_append_nul]

/-! ## Section 3: Canonical numerals -/

/-- What `"%d"` prints for a natural number. -/
def decimal (n : Nat) : Bytes := (Nat.toDigits 10 n).map fun c => UInt8.ofNat c.toNat

theorem digitChar_byte {d : Nat} (h : d < 10) :
    UInt8.ofNat (Nat.digitChar d).toNat = UInt8.ofNat (48 + d) := by
  interval_cases d <;> rfl

theorem decimal_of_lt {n : Nat} (h : n < 10) : decimal n = [UInt8.ofNat (48 + n)] := by
  rw [decimal, Nat.toDigits_of_lt_base h, List.map_singleton, digitChar_byte h]

theorem decimal_of_ge {n : Nat} (h : 10 ≤ n) :
    decimal n = decimal (n / 10) ++ [UInt8.ofNat (48 + n % 10)] := by
  rw [decimal, Nat.toDigits_of_base_le (by omega) h, List.map_append, List.map_singleton,
    digitChar_byte (Nat.mod_lt _ (by omega)), ← decimal]

theorem decimal_ne_nil (n : Nat) : decimal n ≠ [] := by
  rw [decimal, ne_eq, List.map_eq_nil_iff]
  exact Nat.toDigits_ne_nil

theorem isdigit_ofNat {d : Nat} (h : d < 10) : isdigit (UInt8.ofNat (48 + d)) = true := by
  interval_cases d <;> decide

theorem isdigit_of_mem_decimal {n : Nat} {b : UInt8} (h : b ∈ decimal n) : isdigit b = true := by
  induction n using Nat.strongRecOn with
  | _ n ih =>
    rcases Nat.lt_or_ge n 10 with hn | hn
    · rw [decimal_of_lt hn, List.mem_singleton] at h
      rw [h]; exact isdigit_ofNat hn
    · rw [decimal_of_ge hn, List.mem_append, List.mem_singleton] at h
      rcases h with h | rfl
      · exact ih (n / 10) (by omega) h
      · exact isdigit_ofNat (Nat.mod_lt _ (by omega))

theorem not_mem_decimal_of_not_isdigit {n : Nat} {b : UInt8} (h : isdigit b = false) :
    b ∉ decimal n := by
  intro hb
  rw [isdigit_of_mem_decimal hb] at h
  exact absurd h (by decide)

theorem nul_not_mem_decimal (n : Nat) : 0 ∉ decimal n := not_mem_decimal_of_not_isdigit (by decide)

theorem cr_not_mem_decimal (n : Nat) : CR ∉ decimal n := not_mem_decimal_of_not_isdigit (by decide)

/-- Reading a canonical numeral continues with its value. -/
theorem digits_decimal_append (n : Nat) (r : Bytes) :
    ∃ k, ∀ acc, digits acc (decimal n ++ r) = digits (10 ^ k * acc + n) r := by
  induction n using Nat.strongRecOn generalizing r with
  | _ n ih =>
    have hlast : ∀ acc, digits acc (UInt8.ofNat (48 + n % 10) :: r) = digits (10 * acc + n % 10) r := by
      intro acc
      have hlt : n % 10 < 10 := Nat.mod_lt _ (by omega)
      have hval : (UInt8.ofNat (48 + n % 10)).toNat - 48 = n % 10 := by
        simp only [UInt8.toNat_ofNat']
        omega
      rw [digits, if_pos (isdigit_ofNat hlt), hval]
    rcases Nat.lt_or_ge n 10 with hn | hn
    · refine ⟨1, fun acc => ?_⟩
      have := hlast acc
      rw [Nat.mod_eq_of_lt hn] at this
      rw [decimal_of_lt hn, List.singleton_append, this, pow_one]
    · obtain ⟨k, hk⟩ := ih (n / 10) (by omega) (UInt8.ofNat (48 + n % 10) :: r)
      refine ⟨k + 1, fun acc => ?_⟩
      have hval : 10 * (10 ^ k * acc + n / 10) + n % 10 = 10 ^ (k + 1) * acc + n := by
        rw [Nat.mul_add, pow_succ, Nat.mul_comm (10 ^ k) 10, Nat.mul_assoc]
        omega
      rw [decimal_of_ge hn, List.append_assoc, List.singleton_append, hk, hlast, hval]

/-- `atoi` of a canonical numeral that an `int` can hold. -/
theorem atoi_decimal {n : Nat} (hn : n < 2 ^ 31) : atoi (decimal n) = n := by
  obtain ⟨b, s, hbs⟩ := List.exists_cons_of_ne_nil (decimal_ne_nil n)
  have hb : isdigit b = true := isdigit_of_mem_decimal (n := n) (by simp [hbs])
  have hspace : isspace b = false := by
    unfold isdigit at hb; unfold isspace
    simp only [Bool.and_eq_true, decide_eq_true_eq, UInt8.le_iff_toNat_le] at hb
    have h48 : (48 : UInt8).toNat = 48 := rfl
    have h13 : (13 : UInt8).toNat = 13 := rfl
    have h32 : (32 : UInt8).toNat = 32 := rfl
    simp only [Bool.or_eq_false_iff, Bool.and_eq_false_iff, decide_eq_false_iff_not,
      UInt8.le_iff_toNat_le, beq_eq_false_iff_ne, ne_eq, ← UInt8.toNat_inj]
    omega
  have hsign : b ≠ 45 ∧ b ≠ 43 := by
    constructor <;> rintro rfl <;> simp [isdigit] at hb
  obtain ⟨k, hk⟩ := digits_decimal_append n []
  have hval : signed (decimal n) = n := by
    have := hk 0
    simp only [List.append_nil, digits, Nat.mul_zero, Nat.zero_add] at this
    rw [hbs, signed, if_neg hsign.1, if_neg hsign.2, ← hbs, this]
  have hdrop : (decimal n).dropWhile isspace = decimal n := by
    rw [hbs, List.dropWhile_cons_of_neg (by simp [hspace])]
  unfold atoi strtol
  rw [hdrop, hval, min_eq_right (by omega), max_eq_right (by omega)]
  exact wrap32_of_range (by omega) (by exact_mod_cast hn)

end CString
