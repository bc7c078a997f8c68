import BoAtom.Lib.ReverseCursor
import BoAtom.RedisDict.LoadFactor

/-! # dictScan of redis_dict/dict.c

    One call of the stateless iterator: the bucket of the smaller table the
    cursor names, and while a rehash runs the buckets of the larger table
    that expand it.  The cursor is an `unsigned long`, incremented with its
    bits reversed.

    The callback only sees the entries, so a call returns them in order.
    The `do` loop over the larger table is bounded by the number of its
    buckets, which is enough (`scanLarger_spec`).

    The increment of the expansion is a plain one, not a reversed one: the
    call starts at the bits the cursor has beyond the smaller mask and only
    goes up from there.  `Covers` says when that skips nothing. -/

namespace BoAtom

variable {K V C : Type}

/-! ## Section 1: The functions -/

/-- `while ((s >>= 1) > 0)` of `rev`. -/
def revLoop : Nat → Nat → BitVec 64 → BitVec 64 → BitVec 64
  | 0, _, _, v => v
  | fuel + 1, s, mask, v =>
    let s := s >>> 1
    if s > 0 then
      let mask := mask ^^^ (mask <<< s)
      revLoop fuel s mask (((v >>> s) &&& mask) ||| ((v <<< s) &&& ~~~mask))
    else v

/-- `rev`; seven rounds bring `s` from 64 to 0. -/
def rev (v : BitVec 64) : BitVec 64 := revLoop 7 64 (~~~0) v

/-- The entries `fn` is called with at a cursor. -/
def emitAt (ht : Dictht K V) (idx : BitVec 64) : Except Fault (List (DictEntry K V)) :=
  match ht.table[idx.toNat]? with
  | none => .error .overrun
  | some b => .ok b

/-- `do { ... } while (v & (m0 ^ m1))` over the larger table. -/
def scanLarger (t1 : Dictht K V) (m0 m1 : BitVec 64) :
    Nat → BitVec 64 → Except Fault (List (DictEntry K V) × BitVec 64)
  | 0, _ => .error .diverge
  | fuel + 1, v =>
    (emitAt t1 (v &&& m1)).bind fun b =>
      -- increment the bits not covered by the smaller mask
      let v := (((v ||| m0) + 1) &&& ~~~m0) ||| (v &&& m0)
      if v &&& (m0 ^^^ m1) ≠ 0 then (scanLarger t1 m0 m1 fuel v).map fun r => (b ++ r.1, r.2)
      else .ok (b, v)

/-- Set the bits the smaller mask leaves out and increment the reversed cursor. -/
def scanNext (m0 v : BitVec 64) : BitVec 64 := rev (rev (v ||| ~~~m0) + 1)

/-- The tables of a running rehash, the smaller one first. -/
def scanTables (d : Dict K V) : Dictht K V × Dictht K V :=
  if d.ht0.size > d.ht1.size then (d.ht1, d.ht0) else (d.ht0, d.ht1)

def dictScan (d : Dict K V) (v : BitVec 64) : Except Fault (List (DictEntry K V) × BitVec 64) :=
  if dictSize d = 0 then .ok ([], 0)
  else if ¬ dictIsRehashing d then
    let m0 := BitVec.ofNat 64 d.ht0.sizemask
    (emitAt d.ht0 (v &&& m0)).map fun es => (es, scanNext m0 v)
  else
    let t0 := (scanTables d).1
    let t1 := (scanTables d).2
    let m0 := BitVec.ofNat 64 t0.sizemask
    let m1 := BitVec.ofNat 64 t1.sizemask
    (emitAt t0 (v &&& m0)).bind fun es =>
      (scanLarger t1 m0 m1 t1.size v).map fun r => (es ++ r.1, scanNext m0 r.2)

/-! ## Section 2: Reversing the bits -/

/-- One round: neighbouring groups of `s` bits change places. -/
def swapRound (s : Nat) (mask v : BitVec 64) : BitVec 64 :=
  ((v >>> s) &&& mask) ||| ((v <<< s) &&& ~~~mask)

theorem rev_rounds (v : BitVec 64) : rev v =
    swapRound 1 0x5555555555555555#64 (swapRound 2 0x3333333333333333#64
      (swapRound 4 0x0f0f0f0f0f0f0f0f#64 (swapRound 8 0x00ff00ff00ff00ff#64
        (swapRound 16 0x0000ffff0000ffff#64 (swapRound 32 0x00000000ffffffff#64 v))))) := by
  simp only [rev, revLoop]
  rfl

/-- The bit at `i` comes from the place that differs in the bit `s`. -/
theorem getLsbD_swapRound (s : Nat) (mask : BitVec 64)
    (hmask : ∀ i < 64, mask.getLsbD i = decide (i &&& s = 0))
    (hlow : ∀ i < 64, i &&& s = 0 → i ^^^ s = i + s)
    (hhigh : ∀ i < 64, i &&& s ≠ 0 → s ≤ i ∧ i ^^^ s = i - s)
    (hlt : ∀ i < 64, i ^^^ s < 64) (v : BitVec 64) {i : Nat} (hi : i < 64) :
    i ^^^ s < 64 ∧ (swapRound s mask v).getLsbD i = v.getLsbD (i ^^^ s) := by
  refine ⟨hlt i hi, ?_⟩
  rw [swapRound, BitVec.getLsbD_or, BitVec.getLsbD_and, BitVec.getLsbD_and, BitVec.getLsbD_not,
    BitVec.getLsbD_ushiftRight, BitVec.getLsbD_shiftLeft, hmask i hi]
  by_cases h : i &&& s = 0
  · rw [hlow i hi h, Nat.add_comm s i]
    simp [h]
  · obtain ⟨hle, hx⟩ := hhigh i hi h
    rw [hx]
    simp [h, hi, Nat.not_lt.mpr hle]

/-- **`rev` reverses.**  The rounds together take the bit at `i` from `63 - i`. -/
theorem rev_eq_reverse (v : BitVec 64) : rev v = v.reverse := by
  apply BitVec.eq_of_getLsbD_eq
  intro i hi
  have hall : ∀ i < 64, i ^^^ 1 ^^^ 2 ^^^ 4 ^^^ 8 ^^^ 16 ^^^ 32 = 63 - i := by decide
  have h1 := getLsbD_swapRound 1 0x5555555555555555#64 (by decide) (by decide) (by decide) (by decide)
  have h2 := getLsbD_swapRound 2 0x3333333333333333#64 (by decide) (by decide) (by decide) (by decide)
  have h4 := getLsbD_swapRound 4 0x0f0f0f0f0f0f0f0f#64 (by decide) (by decide) (by decide) (by decide)
  have h8 := getLsbD_swapRound 8 0x00ff00ff00ff00ff#64 (by decide) (by decide) (by decide) (by decide)
  have h16 := getLsbD_swapRound 16 0x0000ffff0000ffff#64 (by decide) (by decide) (by decide) (by decide)
  have h32 := getLsbD_swapRound 32 0x00000000ffffffff#64 (by decide) (by decide) (by decide) (by decide)
  -- the places on the way, from the outermost round inwards
  have p1 := (h1 0 hi).1
  have p2 := (h2 0 p1).1
  have p4 := (h4 0 p2).1
  have p8 := (h8 0 p4).1
  have p16 := (h16 0 p8).1
  rw [rev_rounds, BitVec.getLsbD_reverse, BitVec.getMsbD_eq_getLsbD, (h1 _ hi).2, (h2 _ p1).2,
    (h4 _ p2).2, (h8 _ p4).2, (h16 _ p8).2, (h32 _ p16).2, hall i hi]
  simp [hi]

theorem scanNext_eq (n : Nat) (v : BitVec 64) :
    scanNext (ReverseCursor.mask 64 n) v = ReverseCursor.next n v := by
  rw [scanNext, rev_eq_reverse, rev_eq_reverse, ReverseCursor.next]

/-! ## Section 3: Buckets by the low bits of the hash -/

open ReverseCursor in
/-- The table takes the low `n` bits of the hash for the index; `n` is the
    logarithm of its size, or the width of the cursor. -/
structure Dictht.Bits (type : DictType K) (ht : Dictht K V) (n : Nat) : Prop where
  le : n ≤ 64
  mask : BitVec.ofNat 64 ht.sizemask = mask 64 n
  length : 2 ^ n ≤ ht.table.length
  index : ∀ key, dictIndex type ht key = (type.hashFunction key).toNat % 2 ^ n

variable {type : DictType K} {kc : K → C}

theorem Dictht.Wf.bits {ht : Dictht K V} (h : ht.Wf type) :
    ∃ k, ht.size = 2 ^ k ∧ ht.Bits type (min k 64) := by
  obtain ⟨k, hk⟩ := h.pow
  have hsize : ht.size = 2 ^ k := by rw [h.size, hk]
  refine ⟨k, hsize, Nat.min_le_right _ _, ?_, ?_, fun key => ?_⟩
  · rw [h.mask, hsize]
    apply BitVec.eq_of_getLsbD_eq
    intro i hi
    rw [ReverseCursor.getLsbD_mask, BitVec.getLsbD_ofNat, Nat.testBit_two_pow_sub_one]
    simp [hi]
  · rw [hk]
    exact Nat.pow_le_pow_right (by decide) (Nat.min_le_left _ _)
  · rw [dictIndex, h.mask, hsize, Nat.and_two_pow_sub_one_eq_mod]
    rcases Nat.le_total k 64 with hle | hle
    · rw [Nat.min_eq_left hle]
    · -- a hash has no more bits than that
      have hlt : (type.hashFunction key).toNat < 2 ^ 64 :=
        lt_trans (type.hashFunction key).toNat_lt (by decide)
      rw [Nat.min_eq_right hle, Nat.mod_eq_of_lt hlt,
        Nat.mod_eq_of_lt (lt_of_lt_of_le hlt (Nat.pow_le_pow_right (by decide) hle))]

/-- The elements of a list of lists that belong to one index. -/
theorem flatten_filter_index {α : Type} {t : List (List α)} {f : α → Nat} {i : Nat} {b : List α}
    (hf : ∀ j c, t[j]? = some c → ∀ x ∈ c, f x = j) (hb : t[i]? = some b) :
    t.flatten.filter (fun x => decide (f x = i)) = b := by
  obtain ⟨hi, rfl⟩ := List.getElem?_eq_some_iff.mp hb
  have hsplit : t.flatten = (t.take i).flatten ++ (t[i] ++ (t.drop (i + 1)).flatten) := by
    conv_lhs => rw [← List.take_append_drop i t, List.drop_eq_getElem_cons hi]
    rw [List.flatten_append, List.flatten_cons]
  have hout : ∀ l : List (List α), (∀ c ∈ l, ∀ x ∈ c, f x ≠ i) →
      l.flatten.filter (fun x => decide (f x = i)) = [] := by
    intro l hl
    rw [List.filter_eq_nil_iff]
    intro x hx
    obtain ⟨c, hc, hxc⟩ := List.mem_flatten.mp hx
    simpa using hl c hc x hxc
  rw [hsplit, List.filter_append, List.filter_append, hout, hout,
    List.filter_eq_self.mpr (fun x hx => by simpa using hf i _ hb x hx), List.nil_append,
    List.append_nil]
  · intro c hc x hx
    obtain ⟨j, hj⟩ := List.getElem?_of_mem hc
    rw [List.getElem?_drop] at hj
    rw [hf _ c hj x hx]
    omega
  · intro c hc x hx
    obtain ⟨j, hj⟩ := List.getElem?_of_mem hc
    rw [List.getElem?_take] at hj
    split at hj
    · next hlt =>
      rw [hf _ c hj x hx]
      omega
    · cases hj

def hashOf (type : DictType K) (e : DictEntry K V) : Nat := (type.hashFunction e.key).toNat

/-- The entries at a cursor are those with its low bits. -/
theorem emitAt_spec {ht : Dictht K V} (h : ht.Wf type) {n : Nat} (hbits : ht.Bits type n)
    (v : BitVec 64) :
    emitAt ht (v &&& ReverseCursor.mask 64 n) =
      .ok (ht.entries.filter fun e => decide (hashOf type e % 2 ^ n = v.toNat % 2 ^ n)) := by
  have hlt : v.toNat % 2 ^ n < ht.table.length :=
    lt_of_lt_of_le (Nat.mod_lt _ (Nat.two_pow_pos n)) hbits.length
  have hb := List.getElem?_eq_getElem hlt
  have hplace : ∀ j c, ht.table[j]? = some c → ∀ e ∈ c, hashOf type e % 2 ^ n = j := by
    intro j c hc e he
    rw [hashOf, ← hbits.index]
    exact h.place j c hc e he
  rw [emitAt, ReverseCursor.toNat_and_mask hbits.le, hb, Dictht.entries,
    flatten_filter_index hplace hb]

/-! ## Section 4: One call -/

/-- The bits of a number from `n0` up to `n1`. -/
def between (n0 n1 x : Nat) : Nat := x / 2 ^ n0 % 2 ^ (n1 - n0)

theorem between_lt (n0 n1 x : Nat) : between n0 n1 x < 2 ^ (n1 - n0) :=
  Nat.mod_lt _ (Nat.two_pow_pos _)

theorem mod_eq_iff_between {n0 n1 : Nat} (hle : n0 ≤ n1) (x y : Nat) :
    x % 2 ^ n1 = y % 2 ^ n1 ↔ x % 2 ^ n0 = y % 2 ^ n0 ∧ between n0 n1 x = between n0 n1 y := by
  have hsplit : ∀ z, z % 2 ^ n1 = z % 2 ^ n0 + 2 ^ n0 * between n0 n1 z := by
    intro z
    rw [between, ← Nat.mod_mul, ← pow_add, Nat.add_sub_cancel' hle]
  have hpos := Nat.two_pow_pos n0
  constructor
  · intro h
    rw [hsplit, hsplit] at h
    have hmod := congrArg (· % 2 ^ n0) h
    have hdiv := congrArg (· / 2 ^ n0) h
    simp only [Nat.add_mul_mod_self_left, Nat.mod_mod, Nat.add_mul_div_left _ _ hpos,
      Nat.div_eq_of_lt (Nat.mod_lt _ hpos), Nat.zero_add] at hmod hdiv
    exact ⟨hmod, hdiv⟩
  · rintro ⟨hmod, hdiv⟩
    rw [hsplit, hsplit, hmod, hdiv]

/-- What the loop over the larger table emits from a cursor on: the entries
    with its low bits whose further bits are not below those of the cursor. -/
def fromCursor (type : DictType K) (n0 n1 : Nat) (v : BitVec 64) (e : DictEntry K V) : Bool :=
  decide (hashOf type e % 2 ^ n0 = v.toNat % 2 ^ n0 ∧
    between n0 n1 v.toNat ≤ between n0 n1 (hashOf type e))

/-- The bucket at the cursor, and what is left above it. -/
theorem filter_fromCursor {n0 n1 : Nat} (hle : n0 ≤ n1) (v : BitVec 64)
    (es : List (DictEntry K V)) :
    (es.filter (fromCursor type n0 n1 v)).Perm
      ((es.filter fun e => decide (hashOf type e % 2 ^ n1 = v.toNat % 2 ^ n1)) ++
        es.filter fun e => decide (hashOf type e % 2 ^ n0 = v.toNat % 2 ^ n0 ∧
          between n0 n1 v.toNat + 1 ≤ between n0 n1 (hashOf type e))) := by
  have hsplit := List.filter_append_perm
    (fun e => decide (between n0 n1 (hashOf type e) = between n0 n1 v.toNat))
    (es.filter (fromCursor type n0 n1 v))
  rw [List.filter_filter, List.filter_filter] at hsplit
  refine hsplit.symm.trans (List.Perm.append (List.Perm.of_eq ?_) (List.Perm.of_eq ?_))
  · apply List.filter_congr
    intro e _
    rw [fromCursor, ← Bool.decide_and, decide_eq_decide, mod_eq_iff_between hle]
    constructor
    · rintro ⟨hmid, hlow, -⟩
      exact ⟨hlow, hmid⟩
    · rintro ⟨hlow, hmid⟩
      exact ⟨hmid, hlow, hmid.ge⟩
  · apply List.filter_congr
    intro e _
    rw [fromCursor, ← decide_not, ← Bool.decide_and, decide_eq_decide]
    omega

open ReverseCursor in
/-- **The loop over the larger table** ends, and emits the expansions of the
    cursor that it has not passed. -/
theorem scanLarger_spec {t1 : Dictht K V} (h : t1.Wf type) {n0 n1 : Nat} (hle : n0 ≤ n1)
    (hbits : t1.Bits type n1) : ∀ (fuel : Nat) (v : BitVec 64),
      2 ^ (n1 - n0) ≤ fuel + between n0 n1 v.toNat →
      ∃ es v', scanLarger t1 (mask 64 n0) (mask 64 n1) fuel v = .ok (es, v') ∧
        v'.toNat % 2 ^ n0 = v.toNat % 2 ^ n0 ∧
        es.Perm (t1.entries.filter (fromCursor type n0 n1 v)) := by
  have hn0 : n0 ≤ 64 := le_trans hle hbits.le
  intro fuel
  induction fuel with
  | zero =>
    intro v hfuel
    have := between_lt n0 n1 v.toNat
    omega
  | succ fuel ih =>
    intro v hfuel
    have hmod := expandNext_mod hn0 v
    have hmid : between n0 n1 (expandNext n0 v).toNat = (between n0 n1 v.toNat + 1) % 2 ^ (n1 - n0) := by
      rw [between, expandNext_div hn0, Nat.mod_mod_of_dvd _ (pow_dvd_pow 2 (by have := hbits.le; omega)),
        between, Nat.mod_add_mod]
    have hcond : (expandNext n0 v &&& (mask 64 n0 ^^^ mask 64 n1) ≠ 0) ↔
        between n0 n1 (expandNext n0 v).toNat ≠ 0 := by
      rw [ne_eq, ← BitVec.toNat_inj, toNat_and_between hle hbits.le]
      simp [between]
    have hsplit : (t1.entries.filter (fromCursor type n0 n1 v)).Perm _ :=
      filter_fromCursor hle v t1.entries
    have hlt := between_lt n0 n1 v.toNat
    unfold scanLarger
    rw [emitAt_spec h hbits]
    simp only [Except.bind]
    split
    · next hgo =>
      have hgo' := hcond.mp hgo
      -- the further bits went up by one
      have hup : between n0 n1 (expandNext n0 v).toNat = between n0 n1 v.toNat + 1 := by
        rw [hmid]
        apply Nat.mod_eq_of_lt
        rcases Nat.lt_or_ge (between n0 n1 v.toNat + 1) (2 ^ (n1 - n0)) with hlt' | hge
        · exact hlt'
        · rw [hmid, show between n0 n1 v.toNat + 1 = 2 ^ (n1 - n0) by omega, Nat.mod_self] at hgo'
          exact absurd rfl hgo'
      obtain ⟨es, v', heq, hv', hperm⟩ := ih (expandNext n0 v) (by omega)
      have hrest : scanLarger t1 (mask 64 n0) (mask 64 n1) fuel
          ((v ||| mask 64 n0) + 1 &&& ~~~mask 64 n0 ||| v &&& mask 64 n0) = .ok (es, v') := heq
      refine ⟨_ ++ es, v', by rw [hrest]; rfl, hv'.trans hmod, (hperm.append_left _).trans ?_⟩
      refine (List.Perm.of_eq ?_).trans hsplit.symm
      congr 1
      apply List.filter_congr
      intro e _
      rw [fromCursor, hmod, hup]
    · next hstop =>
      have hzero : between n0 n1 (expandNext n0 v).toNat = 0 := by
        by_contra hne
        exact hstop (hcond.mpr hne)
      -- the bits were all set: nothing lies above the bucket just emitted
      have htop : between n0 n1 v.toNat + 1 = 2 ^ (n1 - n0) := by
        by_contra hne
        rw [hmid, Nat.mod_eq_of_lt (by omega)] at hzero
        omega
      refine ⟨_, _, rfl, hmod, (List.Perm.of_eq ?_).trans hsplit.symm⟩
      have hnil : (t1.entries.filter fun e => decide (hashOf type e % 2 ^ n0 = v.toNat % 2 ^ n0 ∧
          between n0 n1 v.toNat + 1 ≤ between n0 n1 (hashOf type e))) = [] := by
        rw [List.filter_eq_nil_iff]
        intro e _
        have := between_lt n0 n1 (hashOf type e)
        simp only [decide_eq_true_eq, not_and]
        omega
      rw [hnil, List.append_nil]

/-- The table a call goes by: the smaller one. -/
def scanTable (d : Dict K V) : Dictht K V := if dictIsRehashing d then (scanTables d).1 else d.ht0

/-- The bits of the cursor that count. -/
def scanBits (d : Dict K V) : Nat := min (Nat.log2 (scanTable d).size) 64

/-- Nothing of the larger table is skipped: the bits the cursor has between
    the two masks are all ones, or none. -/
def Covers (d : Dict K V) (v : BitVec 64) : Prop :=
  dictIsRehashing d →
    ReverseCursor.AllOnes (v.toNat % (scanTables d).2.size / (scanTables d).1.size)

instance (d : Dict K V) (v : BitVec 64) : Decidable (Covers d v) :=
  inferInstanceAs (Decidable (_ → _))

/-- The hash of an entry as a cursor. -/
def hashBits (type : DictType K) (e : DictEntry K V) : BitVec 64 := BitVec.ofNat 64 (hashOf type e)

theorem toNat_hashBits (e : DictEntry K V) : (hashBits type e).toNat = hashOf type e := by
  rw [hashBits, BitVec.toNat_ofNat]
  apply Nat.mod_eq_of_lt
  exact lt_trans (type.hashFunction e.key).toNat_lt (by decide)

/-- The tables of a rehash, in the order of their sizes. -/
theorem scanTables_spec {d : Dict K V} (h : d.Wf type kc) (hre : dictIsRehashing d) :
    (scanTables d).1.Wf type ∧ (scanTables d).2.Wf type ∧
      (scanTables d).1.size ≤ (scanTables d).2.size ∧
      d.entries.Perm ((scanTables d).1.entries ++ (scanTables d).2.entries) := by
  unfold scanTables
  split
  · next hgt => exact ⟨h.ht1_wf hre, h.ht0, le_of_lt hgt, List.perm_append_comm⟩
  · next hle => exact ⟨h.ht0, h.ht1_wf hre, not_lt.mp hle, List.Perm.refl _⟩

theorem between_sizes {k0 k1 : Nat} (hle : k0 ≤ k1) {x : Nat} (hx : x < 2 ^ 64) :
    x % 2 ^ k1 / 2 ^ k0 = between (min k0 64) (min k1 64) x := by
  have hk1 : x % 2 ^ k1 = x % 2 ^ (min k1 64) := by
    rcases Nat.le_total k1 64 with h | h
    · rw [Nat.min_eq_left h]
    · rw [Nat.min_eq_right h, Nat.mod_eq_of_lt hx,
        Nat.mod_eq_of_lt (lt_of_lt_of_le hx (Nat.pow_le_pow_right (by decide) h))]
  rw [hk1]
  rcases Nat.le_total k0 64 with h | h
  · rw [Nat.min_eq_left h, between, ← Nat.mod_mul_right_div_self, ← pow_add,
      Nat.add_sub_cancel' (by omega)]
  · have hsmall : x % 2 ^ (min k1 64) < 2 ^ k0 :=
      lt_of_le_of_lt (Nat.mod_le _ _) (lt_of_lt_of_le hx (Nat.pow_le_pow_right (by decide) h))
    rw [Nat.div_eq_of_lt hsmall, between, Nat.min_eq_right h, Nat.min_eq_right (by omega), Nat.sub_self,
      pow_zero, Nat.mod_one]

open ReverseCursor in
/-- **One call.**  It moves the cursor to the next block of the smaller
    table, emits only entries of the dict and, when it covers the larger
    table, every entry of the block from the cursor on; from a cursor within
    the smaller table these are the entries of the block, each once. -/
theorem dictScan_spec {d : Dict K V} (h : d.Wf type kc) (hne : dictSize d ≠ 0) (v : BitVec 64) :
    ∃ es, dictScan d v = .ok (es, next (scanBits d) v) ∧
      (∀ e ∈ es, e ∈ d.entries) ∧
      (Covers d v → ∀ e ∈ d.entries, hashOf type e % 2 ^ scanBits d = v.toNat % 2 ^ scanBits d →
        place v ≤ place (hashBits type e) → e ∈ es) ∧
      (v.toNat < 2 ^ scanBits d → es.Perm (d.entries.filter fun e =>
        decide (hashOf type e % 2 ^ scanBits d = v.toNat % 2 ^ scanBits d))) := by
  unfold dictScan
  rw [if_neg hne]
  by_cases hre : dictIsRehashing d
  · obtain ⟨hwf0, hwf1, hsize, hperm⟩ := scanTables_spec h hre
    obtain ⟨k0, hk0, hbits0⟩ := hwf0.bits
    obtain ⟨k1, hk1, hbits1⟩ := hwf1.bits
    have hkle : k0 ≤ k1 := by
      rw [hk0, hk1] at hsize
      exact (Nat.pow_le_pow_iff_right (by decide)).mp hsize
    have hn : scanBits d = min k0 64 := by
      rw [scanBits, scanTable, if_pos hre, hk0, Nat.log2_two_pow]
    have hle : min k0 64 ≤ min k1 64 := by omega
    have hfuel : 2 ^ (min k1 64 - min k0 64) ≤ (scanTables d).2.size + between (min k0 64) (min k1 64) v.toNat := by
      have : 2 ^ (min k1 64 - min k0 64) ≤ 2 ^ k1 := Nat.pow_le_pow_right (by decide) (by omega)
      omega
    obtain ⟨es, v', heq, hv', hes⟩ := scanLarger_spec hwf1 hle hbits1 _ v hfuel
    have hnext : scanNext (mask 64 (min k0 64)) v' = next (min k0 64) v := by
      rw [scanNext_eq, next_congr hbits0.le hv']
    have hmem : ∀ {e}, e ∈ d.entries ↔ e ∈ (scanTables d).1.entries ∨ e ∈ (scanTables d).2.entries := by
      intro e
      rw [hperm.mem_iff, List.mem_append]
    rw [if_neg (by simpa using hre), hn]
    simp only [hbits0.mask, hbits1.mask, emitAt_spec hwf0 hbits0, Except.bind, heq, Except.map, hnext]
    refine ⟨_, rfl, fun e he => ?_, fun hcov e he hlow hahead => ?_, fun hsmall => ?_⟩
    · rcases List.mem_append.mp he with he | he
      · exact hmem.mpr (Or.inl (List.mem_filter.mp he).1)
      · exact hmem.mpr (Or.inr (List.mem_filter.mp (hes.mem_iff.mp he)).1)
    · rcases hmem.mp he with he | he
      · exact List.mem_append_left _ (List.mem_filter.mpr ⟨he, by simpa using hlow⟩)
      · refine List.mem_append_right _ (hes.mem_iff.mpr (List.mem_filter.mpr ⟨he, ?_⟩))
        -- the further bits of the entry are not below those of the cursor
        have hones : AllOnes (between (min k0 64) (min k1 64) v.toNat) := by
          have := hcov hre
          rwa [hk0, hk1, between_sizes hkle v.isLt] at this
        rw [fromCursor, decide_eq_true_eq]
        refine ⟨hlow, ?_⟩
        have := ones_le hle hbits1.le (v := v) (h := hashBits type e) (by rw [toNat_hashBits, hlow])
          hahead hones
        rwa [toNat_hashBits] at this
    · have hzero : between (min k0 64) (min k1 64) v.toNat = 0 := by
        rw [between, Nat.div_eq_of_lt hsmall, Nat.zero_mod]
      refine (hes.append_left _).trans (List.Perm.trans ?_ (hperm.filter _).symm)
      rw [List.filter_append]
      refine List.Perm.append_left _ (List.Perm.of_eq (List.filter_congr fun e _ => ?_))
      rw [fromCursor, hzero, decide_eq_decide]
      exact ⟨fun h => h.1, fun h => ⟨h, Nat.zero_le _⟩⟩
  · obtain ⟨k0, hk0, hbits0⟩ := h.ht0.bits
    have hn : scanBits d = min k0 64 := by
      rw [scanBits, scanTable, if_neg hre, hk0, Nat.log2_two_pow]
    have hent : d.entries = d.ht0.entries := by
      rw [Dict.entries, h.ht1_nil hre, List.append_nil]
    rw [if_pos (by simpa using hre), hn, hent]
    simp only [hbits0.mask, emitAt_spec h.ht0 hbits0, Except.map, scanNext_eq]
    refine ⟨_, rfl, fun e he => (List.mem_filter.mp he).1, fun _ e he hlow _ => ?_,
      fun _ => List.Perm.refl _⟩
    exact List.mem_filter.mpr ⟨he, by simpa using hlow⟩

/-! ## Section 5: A scan among other calls -/

/-- The calls on a dict, with one scan going on between them. -/
inductive ScanEvent (K V : Type) where
  | call (c : DictCall K V)
  | scan

structure ScanRun (K V : Type) where
  run : DictRun K V
  cursor : BitVec 64
  emitted : List (DictEntry K V)
  /-- The last call returned 0. -/
  done : Bool
  deriving DecidableEq

def ScanRun.start : ScanRun K V :=
  { run := DictRun.start, cursor := 0, emitted := [], done := false }

/-- The caller of `dictScan` passes the cursor back until it is 0. -/
def scanStep (type : DictType K) [DecidableEq K] [Inhabited V] (s : ScanRun K V) :
    ScanEvent K V → Except Fault (ScanRun K V)
  | .call c => (dictStep type s.run c).map fun r => { s with run := r }
  | .scan =>
    if s.done then .ok s
    else
      (dictScan s.run.dict s.cursor).map fun (r : List (DictEntry K V) × BitVec 64) =>
        { s with cursor := r.2, emitted := s.emitted ++ r.1, done := decide (r.2 = 0) }

/-- A key with this content is in the dict at each call of the scan, and the
    call covers both tables. -/
def ScanRun.Covered (kc : K → C) (c : C) (s : ScanRun K V) (ev : ScanEvent K V) : Prop :=
  ev = .scan → s.done = false →
    (∃ e ∈ s.run.dict.entries, kc e.key = c) ∧ Covers s.run.dict s.cursor

/-- A key with this content is in the dict at each call of the scan, and
    between them, while the cursor is not 0, no table is shrunk or given up. -/
def ScanRun.Growing (kc : K → C) (c : C) (s : ScanRun K V) : ScanEvent K V → Prop
  | .call call => s.cursor ≠ 0 → Dict.Grows s.run call ∧ call ≠ .empty
  | .scan => s.done = false → ∃ e ∈ s.run.dict.entries, kc e.key = c

/-- The integers of the code hold what the call or the scan works with. -/
def ScanRun.Fits (type : DictType K) [DecidableEq K] [Inhabited V] (s : ScanRun K V) : ScanEvent K V → Prop
  | .call call => s.run.Fits type call
  | .scan => s.run.dict.Bounded

instance (kc : K → C) [DecidableEq C] (c : C) :
    ∀ (s : ScanRun K V) (ev : ScanEvent K V), Decidable (ScanRun.Covered kc c s ev)
  | _, .call _ => isTrue fun h => by cases h
  | s, .scan =>
    decidable_of_iff (s.done = false →
        (∃ e ∈ s.run.dict.entries, kc e.key = c) ∧ Covers s.run.dict s.cursor)
      ⟨fun h _ => h, fun h => h rfl⟩

instance DictCall.decidableNeEmpty : ∀ c : DictCall K V, Decidable (c ≠ .empty)
  | .empty => isFalse fun h => h rfl
  | .add _ _ | .replace _ _ | .replaceRaw _ _ | .find _ | .fetch _ | .delete _ | .deleteNoFree _
  | .resize | .expand _ | .rehash _ | .rehashMs _ _ => isTrue fun h => by cases h

instance ScanRun.decidableGrowing (kc : K → C) [DecidableEq C] (c : C) :
    ∀ (s : ScanRun K V) (ev : ScanEvent K V), Decidable (ScanRun.Growing kc c s ev)
  | s, .call call => inferInstanceAs (Decidable (s.cursor ≠ 0 → Dict.Grows s.run call ∧ call ≠ .empty))
  | s, .scan => inferInstanceAs (Decidable (s.done = false → ∃ e ∈ s.run.dict.entries, kc e.key = c))

instance ScanRun.decidableFits (type : DictType K) [DecidableEq K] [Inhabited V] :
    ∀ (s : ScanRun K V) (ev : ScanEvent K V), Decidable (ScanRun.Fits type s ev)
  | s, .call call => inferInstanceAs (Decidable (s.run.Fits type call))
  | s, .scan => inferInstanceAs (Decidable s.run.dict.Bounded)

/-- The keys behind the cursor have been emitted. -/
structure ScanRun.Passed (type : DictType K) (kc : K → C) (key : K) (s : ScanRun K V) : Prop where
  follows : ∃ a : MapRun K V C, DictRun.Follows type kc s.run a
  behind : (ReverseCursor.place (BitVec.ofNat 64 (type.hashFunction key).toNat) <
    ReverseCursor.place s.cursor ∨ s.done) → ∃ e ∈ s.emitted, kc e.key = kc key

/-- A present key makes the dict one with a table. -/
theorem Dict.Ready.wf_of_mem {d : Dict K V} (h : d.Ready type kc) {e : DictEntry K V}
    (he : e ∈ d.entries) : d.Wf type kc ∧ dictSize d ≠ 0 := by
  have hsize : dictSize d ≠ 0 := by
    rw [dictSize_eq h]
    exact fun hnil => by rw [List.eq_nil_of_length_eq_zero hnil] at he; simp at he
  rcases h with rfl | hwf
  · simp [Dict.entries, dictCreate] at he
  · exact ⟨hwf, hsize⟩

variable [DecidableEq K] [Inhabited V] [DecidableEq C]

theorem passed_call (hr : type.Reads kc) {key : K} {s : ScanRun K V}
    (h : s.Passed type kc key) (c : DictCall K V) :
    ∃ s', scanStep type s (.call c) = .ok s' ∧ s'.Passed type kc key := by
  obtain ⟨a, ha⟩ := h.follows
  obtain ⟨r, heq, ha'⟩ := step_follows hr ha c
  exact ⟨{ s with run := r }, by rw [scanStep, heq]; rfl, ⟨_, ha'⟩, h.behind⟩

open ReverseCursor in
/-- **One call of the scan passes a block**: of the keys behind the new
    cursor, those not behind the old one were in the dict and are emitted. -/
theorem passed_scan (hr : type.Reads kc) {key : K} {s : ScanRun K V} (h : s.Passed type kc key)
    (hdone : s.done = false) (hin : ∃ e ∈ s.run.dict.entries, kc e.key = kc key)
    (hcov : Covers s.run.dict s.cursor) :
    ∃ s', scanStep type s .scan = .ok s' ∧ s'.Passed type kc key ∧
      s'.cursor = next (scanBits s.run.dict) s.cursor ∧ s'.run = s.run := by
  obtain ⟨a, ha⟩ := h.follows
  obtain ⟨e, he, hkey⟩ := hin
  obtain ⟨hwf, hne⟩ := ha.ready.wf_of_mem he
  obtain ⟨es, heq, -, hall, -⟩ := dictScan_spec hwf hne s.cursor
  have hhash : hashBits type e = BitVec.ofNat 64 (type.hashFunction key).toNat := by
    rw [hashBits, hashOf, hr.hash _ _ hkey]
  refine ⟨{ s with
      cursor := next (scanBits s.run.dict) s.cursor, emitted := s.emitted ++ es
      done := decide (next (scanBits s.run.dict) s.cursor = 0) },
    by rw [scanStep, if_neg (by simp [hdone]), heq]; rfl, ⟨⟨a, ha⟩, fun hb => ?_⟩, rfl, rfl⟩
  have hb' : place (hashBits type e) < place (next (scanBits s.run.dict) s.cursor) ∨
      next (scanBits s.run.dict) s.cursor = 0 := by
    rw [hhash]
    exact hb.imp_right fun hz => by simpa using hz
  rcases Nat.lt_or_ge (place (hashBits type e)) (place s.cursor) with hback | hahead
  · obtain ⟨f, hf, hfkey⟩ := h.behind (Or.inl (hhash ▸ hback))
    exact ⟨f, List.mem_append_left _ hf, hfkey⟩
  · rcases behind_next (Nat.min_le_right _ _) s.cursor (hashBits type e) hb' with hback | hlow
    · omega
    · rw [toNat_hashBits] at hlow
      exact ⟨e, List.mem_append_right _ (hall hcov e he hlow hahead), hkey⟩

omit [DecidableEq K] [Inhabited V] in
theorem passed_start (key : K) : (ScanRun.start : ScanRun K V).Passed type kc key :=
  ⟨⟨_, follows_start⟩, fun h => by
    have hzero : ReverseCursor.place (ScanRun.start : ScanRun K V).cursor = 0 :=
      ReverseCursor.place_zero
    rcases h with h | h
    · omega
    · simp [ScanRun.start] at h⟩

/-- **What stays is returned.**  Whatever happens to the dict between the
    calls of a scan, a key that is there at each of them is emitted by the
    time the cursor is 0 again, provided that no call skips a part of the
    larger table; below 2^31 buckets (`ScanRun.Fits`) that is the dict of the
    code. -/
theorem scan_returns_present (hr : type.Reads kc) (key : K) {events : List (ScanEvent K V)}
    (hcov : Machine.Along (scanStep type) (ScanRun.Covered kc (kc key)) ScanRun.start events) :
    ∃ s, Machine.run (scanStep type) ScanRun.start events = .ok s ∧
      (s.done = true → ∃ e ∈ s.emitted, kc e.key = kc key) := by
  suffices hrun : ∀ (events : List (ScanEvent K V)) (s : ScanRun K V), s.Passed type kc key →
      Machine.Along (scanStep type) (ScanRun.Covered kc (kc key)) s events →
      ∃ s', Machine.run (scanStep type) s events = .ok s' ∧ s'.Passed type kc key by
    obtain ⟨s, heq, h⟩ := hrun events _ (passed_start key) hcov
    exact ⟨s, heq, fun hd => h.behind (Or.inr hd)⟩
  intro events
  induction events with
  | nil => exact fun s h _ => ⟨s, rfl, h⟩
  | cons ev events ih =>
    intro s h hal
    have hstep : ∃ s', scanStep type s ev = .ok s' ∧ s'.Passed type kc key := by
      cases ev with
      | call c => exact passed_call hr h c
      | scan =>
        rcases hdone : s.done with _ | _
        · obtain ⟨hin, hc⟩ := hal.1 rfl hdone
          obtain ⟨s', heq, h', -⟩ := passed_scan hr h hdone hin hc
          exact ⟨s', heq, h'⟩
        · exact ⟨s, by rw [scanStep, if_pos hdone], h⟩
    obtain ⟨s', heq, h'⟩ := hstep
    obtain ⟨s'', hrest, h''⟩ := ih s' h' (hal.2 s' heq)
    exact ⟨s'', by rw [Machine.run_cons_ok heq, hrest], h''⟩

/-- Two calls see the bucket of key 1 and that of key 2 of the four; the dict
    grows between them. -/
theorem scan_returns_present_nat :
    ∃ s : ScanRun Nat Nat, Machine.run (scanStep natType) ScanRun.start
        [.call (.add 1 10), .call (.add 2 20), .scan, .scan, .call (.expand 8), .scan, .call (.find 1), .scan] =
          .ok s ∧ (s.done = true → ∃ e ∈ s.emitted, e.key = 1) :=
  scan_returns_present natType_reads 1 (by decide +kernel)

/-- Shrinking from 16 buckets to 4 after one call, so that the cursor is 8,
    the bits 10 above the smaller mask: the call goes on to 11 and never
    comes to 01, where this entry is. -/
example : dictScan ({ ht0 := { table := (List.replicate 16 []).set 4 [⟨4, 0⟩], size := 16, sizemask := 15, used := 1 }
                      ht1 := { table := List.replicate 4 [], size := 4, sizemask := 3, used := 0 }
                      rehashidx := some 0
                      iterators := 0 } : Dict Nat Nat) 8 = .ok ([], 2) := by rfl

/-! ## Section 6: Tables that are not shrunk -/

/-- No table in use has fewer than `m` buckets. -/
structure Dict.AtLeast (m : Nat) (d : Dict K V) : Prop where
  ht0 : m ≤ d.ht0.size
  ht1 : d.rehashidx ≠ none → m ≤ d.ht1.size

section sizes

variable {m : Nat} {d d' : Dict K V}

omit [DecidableEq K] [Inhabited V] [DecidableEq C] in
theorem Dict.AtLeast.target (h : d.AtLeast m) : m ≤ d.target := by
  rcases hidx : d.rehashidx with _ | idx
  · rw [Dict.target_idle hidx]
    exact h.ht0
  · rw [Dict.target_at hidx]
    exact h.ht1 (by simp [hidx])

omit [DecidableEq K] [Inhabited V] [DecidableEq C] in
/-- The table in use is the old one as long as it is there, then the new one. -/
theorem Dict.AtLeast.rehashed (h : d.AtLeast m) (htarget : d'.target = d.target)
    (hsize : d'.rehashidx ≠ none → d'.ht0.size = d.ht0.size) : d'.AtLeast m := by
  have htop := h.target
  rcases hidx : d'.rehashidx with _ | idx
  · rw [Dict.target_idle hidx] at htarget
    exact ⟨htarget ▸ htop, fun hne => absurd hidx hne⟩
  · rw [Dict.target_at hidx] at htarget
    have hsame := hsize (by simp [hidx])
    exact ⟨hsame ▸ h.ht0, fun _ => htarget ▸ htop⟩

omit [DecidableEq K] [Inhabited V] [DecidableEq C] in
theorem dictRehash_atLeast (hwf : d.Wf type kc) (h : d.AtLeast m) {n : Nat} {r : Int}
    (heq : dictRehash type d n = .ok (r, d')) : d'.AtLeast m := by
  rcases Nat.eq_zero_or_pos n with rfl | hn
  · rcases hidx : d.rehashidx with _ | idx <;> rw [dictRehash, hidx] at heq
    · cases heq
      exact h
    · have hloop : rehashLoop type 0 (0 * 10) idx d = .ok (rehashEnd d) := rfl
      have hend : d' = (rehashEnd d).2 := (congrArg Prod.snd (Except.ok.inj (hloop.symm.trans heq))).symm
      rw [hend]
      exact h.rehashed (rehashEnd_moved hidx).1 rehashEnd_size
  · obtain ⟨r₂, d₂, heq₂, htarget, -, -, hsize⟩ := dictRehash_moved hwf hn
    rw [heq] at heq₂
    obtain ⟨rfl, rfl⟩ := Prod.mk.inj (Except.ok.inj heq₂)
    exact h.rehashed htarget hsize

omit [DecidableEq K] [Inhabited V] [DecidableEq C] in
theorem dictRehashStep_atLeast (hwf : d.Wf type kc) (h : d.AtLeast m)
    (heq : dictRehashStep type d = .ok d') : d'.AtLeast m := by
  unfold dictRehashStep at heq
  split at heq
  · obtain ⟨⟨r, e⟩, hre, rfl⟩ := Machine.ok_of_map heq
    exact dictRehash_atLeast hwf h hre
  · cases heq
    exact h

omit [DecidableEq K] [Inhabited V] [DecidableEq C] in
/-- An expansion makes a table of the size asked for at least. -/
theorem dictExpand_atLeast (h : d.AtLeast m) {size : Nat} (hsize : m ≤ size) :
    (dictExpand d size).2.AtLeast m := by
  obtain ⟨p, hp, hle⟩ := dictNextPower_spec size
  have hnew : m ≤ dictNextPower size := by omega
  unfold dictExpand
  simp only
  split
  · exact h
  split
  · exact h
  split
  · exact ⟨hnew, h.ht1⟩
  · exact ⟨h.ht0, fun _ => hnew⟩

omit [DecidableEq K] [Inhabited V] [DecidableEq C] in
theorem dictExpandIfNeeded_atLeast (h : d.AtLeast m) : (dictExpandIfNeeded d).2.AtLeast m := by
  have hlow := h.ht0
  unfold dictExpandIfNeeded
  split
  · exact h
  split
  · next hzero => exact dictExpand_atLeast h (by omega)
  split
  · next hfull => exact dictExpand_atLeast h (by omega)
  · exact h

omit [DecidableEq K] [Inhabited V] [DecidableEq C] in
theorem atLeast_keeps (m : Nat) :
    Dict.Keeps type kc (Dict.AtLeast m : Dict K V → Prop) (Dict.AtLeast m) where
  first h := dictExpand_atLeast h (le_trans h.ht0 (Nat.zero_le _))
  rehash hwf h heq := dictRehash_atLeast hwf h heq
  step hwf h heq := ⟨dictRehashStep_atLeast hwf h heq, fun _ => dictRehashStep_atLeast hwf h heq⟩
  expand _ h _ := dictExpandIfNeeded_atLeast h
  link h hs _ := ⟨hs.ht0 ▸ h.ht0, fun hne => hs.ht1 ▸ h.ht1 (hs.rehashidx ▸ hne)⟩
  shape h hs _ := ⟨hs.ht0 ▸ h.ht0, fun hne => hs.ht1 ▸ h.ht1 (hs.rehashidx ▸ hne)⟩

omit [DecidableEq C] in
theorem step_atLeast (hr : type.Reads kc) {s s' : DictRun K V} (h : s.dict.Ready type kc)
    (hlow : s.dict.AtLeast m) {c : DictCall K V} (hgrow : Dict.Grows s c) (hne : c ≠ .empty)
    (heq : dictStep type s c = .ok s') : s'.dict.AtLeast m := by
  refine (atLeast_keeps m).call hr h hlow (fun hc => ?_) (fun size hc => ?_) (fun hc => absurd hc hne) heq
  · rw [hc] at hgrow
    exact hgrow.elim
  · rw [hc] at hgrow
    exact dictExpand_atLeast hlow (le_trans hlow.ht0 hgrow)

end sizes

/-- The cursor is within every table it will meet. -/
def ScanRun.Within (s : ScanRun K V) : Prop :=
  s.cursor = 0 ∨ ∃ m, s.run.dict.AtLeast m ∧ s.cursor.toNat < m

omit [DecidableEq K] [Inhabited V] [DecidableEq C] in
/-- A cursor within the smaller table covers the larger one. -/
theorem covers_of_within {s : ScanRun K V} (h : s.Within) :
    Covers s.run.dict s.cursor := by
  intro hre
  have hzero : s.cursor.toNat % (scanTables s.run.dict).2.size / (scanTables s.run.dict).1.size = 0 := by
    rcases h with hcur | ⟨m, hlow, hcur⟩
    · simp [hcur]
    · apply Nat.div_eq_of_lt
      have hne : s.run.dict.rehashidx ≠ none := Option.ne_none_iff_isSome.mpr hre
      have hsmall : m ≤ (scanTables s.run.dict).1.size := by
        unfold scanTables
        split
        · exact hlow.ht1 hne
        · exact hlow.ht0
      exact lt_of_le_of_lt (Nat.mod_le _ _) (lt_of_lt_of_le hcur hsmall)
  rw [hzero]
  decide

omit [DecidableEq K] [Inhabited V] [DecidableEq C] in
/-- The table a call goes by is the smallest in use. -/
theorem scanTable_spec {d : Dict K V} (h : d.Wf type kc) :
    (scanTable d).Wf type ∧ d.AtLeast (scanTable d).size := by
  unfold scanTable
  split
  · next hre =>
    refine ⟨(scanTables_spec h hre).1, ?_⟩
    unfold scanTables
    split
    · next hgt => exact ⟨le_of_lt hgt, fun _ => le_refl _⟩
    · next hle => exact ⟨le_refl _, fun _ => not_lt.mp hle⟩
  · next hidle =>
    exact ⟨h.ht0, le_refl _, fun hne => absurd (Dict.Wf.idle_none hidle) hne⟩

omit [DecidableEq K] [Inhabited V] [DecidableEq C] in
/-- The next cursor is within the table the call went by. -/
theorem within_scan {s s' : ScanRun K V} (hwf : s.run.dict.Wf type kc)
    (hcur : s'.cursor = ReverseCursor.next (scanBits s.run.dict) s.cursor) (hrun : s'.run = s.run) :
    s'.Within := by
  obtain ⟨hwf', hlow⟩ := scanTable_spec hwf
  refine Or.inr ⟨(scanTable s.run.dict).size, hrun ▸ hlow, ?_⟩
  obtain ⟨k, hk, -⟩ := hwf'.bits
  have hlt := ReverseCursor.next_lt (Nat.min_le_right (Nat.log2 (scanTable s.run.dict).size) 64) s.cursor
  rw [hcur]
  refine lt_of_lt_of_le hlt ?_
  rw [hk, Nat.log2_two_pow]
  exact Nat.pow_le_pow_right (by decide) (Nat.min_le_left _ _)

/-- **A dict that only grows is scanned whole.**  Whatever is added, found,
    replaced, deleted, expanded and rehashed between the calls of a scan, a
    key that is there at each of them is emitted by the time the cursor is 0
    again, as long as the tables stay below 2^31 buckets.  What came before
    the scan does not matter, a rehash into a smaller table may be under way. -/
theorem growing_scan_returns_present (hr : type.Reads kc) (key : K)
    {events : List (ScanEvent K V)}
    (hgrow : Machine.Along (scanStep type) (fun s ev => s.Growing kc (kc key) ev ∧ s.Fits type ev)
      ScanRun.start events) :
    ∃ s, Machine.run (scanStep type) ScanRun.start events = .ok s ∧
      (s.done = true → ∃ e ∈ s.emitted, kc e.key = kc key) := by
  suffices hrun : ∀ (events : List (ScanEvent K V)) (s : ScanRun K V), s.Passed type kc key →
      s.Within →
      Machine.Along (scanStep type) (fun s ev => s.Growing kc (kc key) ev ∧ s.Fits type ev) s events →
      ∃ s', Machine.run (scanStep type) s events = .ok s' ∧ s'.Passed type kc key by
    obtain ⟨s, heq, h⟩ := hrun events _ (passed_start key) (Or.inl rfl) hgrow
    exact ⟨s, heq, fun hd => h.behind (Or.inr hd)⟩
  intro events
  induction events with
  | nil => exact fun s h _ _ => ⟨s, rfl, h⟩
  | cons ev events ih =>
    intro s h hin hal
    obtain ⟨hev, -⟩ := hal.1
    have hstep : ∃ s', scanStep type s ev = .ok s' ∧ s'.Passed type kc key ∧ s'.Within := by
      cases ev with
      | call c =>
        obtain ⟨s', heq, h'⟩ := passed_call hr h c
        refine ⟨s', heq, h', ?_⟩
        obtain ⟨r, hr', rfl⟩ := Machine.ok_of_map heq
        obtain ⟨a, ha⟩ := h.follows
        rcases eq_or_ne s.cursor 0 with hzero | hne
        · -- between two scans
          exact Or.inl hzero
        · obtain ⟨m, hlow, hcur⟩ := hin.resolve_left hne
          obtain ⟨hg, hnot⟩ := hev hne
          exact Or.inr ⟨m, step_atLeast hr ha.ready hlow hg hnot hr', hcur⟩
      | scan =>
        rcases hdone : s.done with _ | _
        · obtain ⟨e, he, hkey⟩ := hev hdone
          obtain ⟨a, ha⟩ := h.follows
          have hwf := (ha.ready.wf_of_mem he).1
          obtain ⟨s', heq, h', hcur, hrun'⟩ :=
            passed_scan hr h hdone ⟨e, he, hkey⟩ (covers_of_within hin)
          exact ⟨s', heq, h', within_scan hwf hcur hrun'⟩
        · exact ⟨s, by rw [scanStep, if_pos hdone], h, hin⟩
    obtain ⟨s', heq, h', hin'⟩ := hstep
    obtain ⟨s'', hrest, h''⟩ := ih s' h' hin' (hal.2 s' heq)
    exact ⟨s'', by rw [Machine.run_cons_ok heq, hrest], h''⟩

/-- A rehash from sixteen buckets to four is under way when the scan begins,
    and ends; the fourth key begins one from four to eight. -/
def shrunkScan : List (ScanEvent Nat Nat) :=
  [.call (.add 1 10), .call (.add 14 20), .call (.expand 16), .call (.rehash 10), .call .resize, .scan,
    .call (.add 3 30), .scan, .call (.add 5 50), .call (.find 14), .call (.add 6 60), .scan,
    .call (.delete 6), .scan, .scan, .call .empty]

theorem growing_scan_returns_present_nat :
    ∃ s : ScanRun Nat Nat, Machine.run (scanStep natType) ScanRun.start shrunkScan = .ok s ∧
      s.done = true ∧ ∃ e ∈ s.emitted, e.key = 1 := by
  have hgrow : Machine.Along (scanStep natType) (fun s ev => s.Growing id 1 ev ∧ s.Fits natType ev)
      ScanRun.start shrunkScan := by decide +kernel
  obtain ⟨s, hrun, h⟩ := growing_scan_returns_present natType_reads 1 hgrow
  -- the last call of the scan returned 0
  have hdone : (Machine.run (scanStep natType) ScanRun.start shrunkScan).map ScanRun.done = .ok true := rfl
  rw [hrun] at hdone
  have hdone : s.done = true := Except.ok.inj hdone
  exact ⟨s, hrun, hdone, h hdone⟩

/-! ## Section 7: A dict that nobody changes -/

/-- Call `dictScan` until the cursor is 0 again. -/
def scanWhole (d : Dict K V) : Nat → BitVec 64 → Except Fault (List (DictEntry K V))
  | 0, _ => .error .diverge
  | calls + 1, v =>
    (dictScan d v).bind fun r =>
      if r.2 = 0 then .ok r.1 else (scanWhole d calls r.2).map (r.1 ++ ·)

open ReverseCursor in
omit [DecidableEq K] [Inhabited V] [DecidableEq C] in
/-- From block `k` on: the calls left are the blocks left, and they emit the
    entries of those blocks. -/
theorem scanWhole_from {d : Dict K V} (h : d.Wf type kc) (hne : dictSize d ≠ 0) :
    ∀ (left k : Nat) (v : BitVec 64), left + k + 1 = 2 ^ scanBits d → v.toNat < 2 ^ scanBits d →
      place v = k * 2 ^ (64 - scanBits d) →
      (∃ es, scanWhole d (left + 1) v = .ok es ∧ es.Perm (d.entries.filter fun e =>
        decide (k ≤ place (hashBits type e) / 2 ^ (64 - scanBits d)))) ∧
      ∀ calls, calls ≤ left → scanWhole d calls v = .error .diverge := by
  have hn : scanBits d ≤ 64 := Nat.min_le_right _ _
  have hpos := Nat.two_pow_pos (64 - scanBits d)
  have hpow : 2 ^ scanBits d * 2 ^ (64 - scanBits d) = 2 ^ 64 := by
    rw [← pow_add, Nat.add_sub_cancel' hn]
  -- the entries of one block, and the blocks after it
  have hblock : ∀ (e : DictEntry K V) (v : BitVec 64) k, place v = k * 2 ^ (64 - scanBits d) →
      (hashOf type e % 2 ^ scanBits d = v.toNat % 2 ^ scanBits d ↔
        place (hashBits type e) / 2 ^ (64 - scanBits d) = k) := by
    intro e v k hv
    have hk : place v / 2 ^ (64 - scanBits d) = k := by rw [hv, Nat.mul_div_cancel _ hpos]
    rw [← toNat_hashBits, ← block_eq_iff hn, hk]
  have hbound : ∀ e : DictEntry K V,
      place (hashBits type e) / 2 ^ (64 - scanBits d) < 2 ^ scanBits d := by
    intro e
    rw [Nat.div_lt_iff_lt_mul hpos, hpow]
    exact place_lt _
  have hcall : ∀ (v : BitVec 64) k, v.toNat < 2 ^ scanBits d → place v = k * 2 ^ (64 - scanBits d) →
      ∃ es, dictScan d v = .ok (es, next (scanBits d) v) ∧ es.Perm (d.entries.filter fun e =>
        decide (place (hashBits type e) / 2 ^ (64 - scanBits d) = k)) := by
    intro v k hlt hv
    obtain ⟨es, heq, -, -, hperm⟩ := dictScan_spec h hne v
    refine ⟨es, heq, (hperm hlt).trans (List.Perm.of_eq (List.filter_congr fun e _ => ?_))⟩
    rw [decide_eq_decide]
    exact hblock e v k hv
  have hnext : ∀ (v : BitVec 64) k, place v = k * 2 ^ (64 - scanBits d) →
      place (next (scanBits d) v) = (k + 1) * 2 ^ (64 - scanBits d) % 2 ^ 64 := by
    intro v k hv
    rw [place_next hn, hv, Nat.mul_div_cancel _ hpos]
  intro left
  induction left with
  | zero =>
    intro k v hk hlt hv
    obtain ⟨es, heq, hperm⟩ := hcall v k hlt hv
    have hzero : next (scanBits d) v = 0 := by
      apply place_injective
      rw [hnext v k hv, show k + 1 = 2 ^ scanBits d by omega, hpow, Nat.mod_self]
      exact place_zero.symm
    refine ⟨⟨es, ?_, hperm.trans (List.Perm.of_eq (List.filter_congr fun e _ => ?_))⟩,
      fun calls hc => by rw [Nat.le_zero.mp hc]; rfl⟩
    · rw [scanWhole, heq]
      simp only [Except.bind, hzero, if_true]
    · rw [decide_eq_decide]
      have := hbound e
      omega
  | succ left ih =>
    intro k v hk hlt hv
    obtain ⟨es, heq, hperm⟩ := hcall v k hlt hv
    have hplace : place (next (scanBits d) v) = (k + 1) * 2 ^ (64 - scanBits d) := by
      rw [hnext v k hv, Nat.mod_eq_of_lt]
      rw [← hpow]
      exact Nat.mul_lt_mul_of_pos_right (by omega) hpos
    have hgo : next (scanBits d) v ≠ 0 := by
      intro hz
      rw [hz] at hplace
      have hz' : (0 : Nat) = (k + 1) * 2 ^ (64 - scanBits d) := place_zero.symm.trans hplace
      have hgt : 0 < (k + 1) * 2 ^ (64 - scanBits d) := Nat.mul_pos (Nat.succ_pos k) hpos
      omega
    obtain ⟨⟨fs, hrest, hfs⟩, hfew⟩ := ih (k + 1) _ (by omega) (next_lt hn v) hplace
    refine ⟨⟨es ++ fs, ?_, ?_⟩, fun calls hc => ?_⟩
    · rw [scanWhole, heq]
      simp only [Except.bind, if_neg hgo, hrest, Except.map]
    · have hsplit := List.filter_append_perm
        (fun e => decide (place (hashBits type e) / 2 ^ (64 - scanBits d) = k))
        (d.entries.filter fun e => decide (k ≤ place (hashBits type e) / 2 ^ (64 - scanBits d)))
      rw [List.filter_filter, List.filter_filter] at hsplit
      refine (hperm.append hfs).trans (List.Perm.trans (List.Perm.of_eq ?_) hsplit)
      congr 1
      · apply List.filter_congr
        intro e _
        rw [← Bool.decide_and, decide_eq_decide]
        omega
      · apply List.filter_congr
        intro e _
        rw [← decide_not, ← Bool.decide_and, decide_eq_decide]
        omega
    · rcases calls with _ | calls
      · rfl
      · rw [scanWhole, heq]
        simp only [Except.bind, if_neg hgo, hfew calls (by omega), Except.map]

omit [DecidableEq K] [Inhabited V] [DecidableEq C] in
/-- **A dict at rest is scanned once.**  A scan of a dict that is not empty
    and that nobody changes returns to 0 after as many calls as the smaller
    table has buckets and no sooner, also in the middle of a rehash, and
    emits every entry once. -/
theorem scan_at_rest {d : Dict K V} (h : d.Wf type kc) (hne : dictSize d ≠ 0) :
    (∃ es, scanWhole d (2 ^ scanBits d) 0 = .ok es ∧ es.Perm d.entries) ∧
      ∀ calls, calls < 2 ^ scanBits d → scanWhole d calls 0 = .error .diverge := by
  have hpos := Nat.two_pow_pos (scanBits d)
  obtain ⟨⟨es, heq, hperm⟩, hfew⟩ := scanWhole_from h hne (2 ^ scanBits d - 1) 0 0
    (by omega) hpos (by rw [Nat.zero_mul]; exact ReverseCursor.place_zero)
  rw [Nat.sub_add_cancel hpos] at heq
  refine ⟨⟨es, heq, hperm.trans (List.Perm.of_eq ?_)⟩, fun calls hc => hfew calls (by omega)⟩
  rw [List.filter_eq_self]
  simp

theorem scan_at_rest_twoTables :
    (∃ es, scanWhole twoTables (2 ^ scanBits twoTables) 0 = .ok es ∧ es.Perm twoTables.entries) ∧
      ∀ calls, calls < 2 ^ scanBits twoTables → scanWhole twoTables calls 0 = .error .diverge :=
  scan_at_rest twoTables_wf (by decide)

end BoAtom
