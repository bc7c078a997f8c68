import BoAtom.Lib.Memory

/-! # Records in a buffer

    A C structure over a byte buffer: its fields are stretches of the
    buffer, written one after the other.

    * `Endian`, `bytes16`, `bytes32`, `word32`: integers in memory;
    * `field`: a stretch of a buffer;
    * `writeAll`: stores, in order; stores that do not overlap are all still
      there in the end. -/

namespace Layout

open Memory

/-! ## Section 1: Integers -/

inductive Endian where
  | little
  | big
  deriving DecidableEq, Repr

def bytes16 (e : Endian) (v : UInt16) : Bytes :=
  let hi := UInt8.ofNat (v.toNat / 2 ^ 8)
  let lo := UInt8.ofNat v.toNat
  match e with
  | .big => [hi, lo]
  | .little => [lo, hi]

def bytes32 (e : Endian) (v : UInt32) : Bytes :=
  let big := [UInt8.ofNat (v.toNat / 2 ^ 24), UInt8.ofNat (v.toNat / 2 ^ 16),
    UInt8.ofNat (v.toNat / 2 ^ 8), UInt8.ofNat v.toNat]
  match e with
  | .big => big
  | .little => big.reverse

/-- The number a sequence of digits stands for, the first one the highest. -/
def fromDigits (bs : Bytes) : Nat := bs.foldl (fun n b => n * 2 ^ 8 + b.toNat) 0

/-- The integer in the first four bytes. -/
def word32 (e : Endian) (bs : Bytes) : UInt32 :=
  match e with
  | .big => UInt32.ofNat (fromDigits (bs.take 4))
  | .little => UInt32.ofNat (fromDigits (bs.take 4).reverse)

@[simp] theorem length_bytes16 (e : Endian) (v : UInt16) : (bytes16 e v).length = 2 := by
  cases e <;> rfl

@[simp] theorem length_bytes32 (e : Endian) (v : UInt32) : (bytes32 e v).length = 4 := by
  cases e <;> rfl

theorem fromDigits_four (v : UInt32) :
    fromDigits [UInt8.ofNat (v.toNat / 2 ^ 24), UInt8.ofNat (v.toNat / 2 ^ 16),
      UInt8.ofNat (v.toNat / 2 ^ 8), UInt8.ofNat v.toNat] = v.toNat := by
  have hlt := v.toNat_lt
  simp only [fromDigits, List.foldl_cons, List.foldl_nil, UInt8.toNat_ofNat']
  omega

theorem word32_bytes32 (e : Endian) (v : UInt32) (r : Bytes) : word32 e (bytes32 e v ++ r) = v := by
  unfold word32
  rw [List.take_left' (length_bytes32 e v)]
  cases e with
  | big =>
    simp only [bytes32]
    rw [fromDigits_four, UInt32.ofNat_toNat]
  | little =>
    simp only [bytes32, List.reverse_reverse]
    rw [fromDigits_four, UInt32.ofNat_toNat]

/-! ## Section 2: Fields -/

/-- The `n` bytes at offset `off`. -/
def field (b : Bytes) (off n : Nat) : Bytes := (b.drop off).take n

/-- The stores `(offset, bytes)`, in order. -/
def writeAll (b : Bytes) (stores : List (Nat × Bytes)) : Bytes :=
  stores.foldl (fun b s => overlay b s.1 s.2) b

/-- Two stores do not overlap. -/
def Apart (s t : Nat × Bytes) : Prop := s.1 + s.2.length ≤ t.1 ∨ t.1 + t.2.length ≤ s.1

variable {b src : Bytes} {off off' n : Nat} {stores : List (Nat × Bytes)} {s : Nat × Bytes}

@[simp] theorem length_writeAll (b : Bytes) (stores : List (Nat × Bytes)) :
    (writeAll b stores).length = b.length := by
  induction stores generalizing b with
  | nil => rfl
  | cons s stores ih =>
    rw [writeAll, List.foldl_cons]
    exact (ih _).trans (length_overlay b s.1 s.2)

theorem field_overlay_self (h : off + src.length ≤ b.length) :
    field (overlay b off src) off src.length = src := by
  unfold field
  rw [overlay_eq h, List.append_assoc]
  have hoff : (b.take off).length = off := by
    rw [List.length_take]
    omega
  rw [List.drop_left' hoff, List.take_left' rfl]

theorem field_overlay_apart (h : off + src.length ≤ b.length)
    (hapart : off' + n ≤ off ∨ off + src.length ≤ off') :
    field (overlay b off src) off' n = field b off' n := by
  have hoff : (b.take off).length = off := by
    rw [List.length_take]
    omega
  unfold field
  rw [overlay_eq h, List.append_assoc]
  rcases hapart with hbefore | hbehind
  · -- the field ends before the store
    have hle : off' ≤ (b.take off).length := by omega
    rw [List.drop_append_of_le_length hle, List.take_append_of_le_length (by rw [List.length_drop]; omega),
      List.drop_take, List.take_take, Nat.min_eq_left (by omega)]
  · -- it begins behind it
    obtain ⟨k, rfl⟩ : ∃ k, off' = off + src.length + k := ⟨off' - (off + src.length), by omega⟩
    rw [Nat.add_assoc, ← List.drop_drop, List.drop_left' hoff, ← List.drop_drop, List.drop_left' rfl,
      List.drop_drop, Nat.add_assoc]

theorem field_writeAll_apart (hfit : ∀ s ∈ stores, s.1 + s.2.length ≤ b.length)
    (hapart : ∀ s ∈ stores, off + n ≤ s.1 ∨ s.1 + s.2.length ≤ off) :
    field (writeAll b stores) off n = field b off n := by
  induction stores generalizing b with
  | nil => rfl
  | cons s stores ih =>
    have hs := hfit s List.mem_cons_self
    have hrest := ih (b := overlay b s.1 s.2)
      (fun t ht => by rw [length_overlay]; exact hfit t (List.mem_cons_of_mem _ ht))
      fun t ht => hapart t (List.mem_cons_of_mem _ ht)
    rw [writeAll, List.foldl_cons]
    exact hrest.trans (field_overlay_apart hs (hapart s List.mem_cons_self))

/-- Stores that do not overlap are all there in the end. -/
theorem field_writeAll (hfit : ∀ s ∈ stores, s.1 + s.2.length ≤ b.length)
    (hapart : stores.Pairwise Apart) (hs : s ∈ stores) :
    field (writeAll b stores) s.1 s.2.length = s.2 := by
  induction stores generalizing b with
  | nil => simp at hs
  | cons t stores ih =>
    obtain ⟨hhead, htail⟩ := List.pairwise_cons.mp hapart
    have hfit' : ∀ r ∈ stores, r.1 + r.2.length ≤ (overlay b t.1 t.2).length := by
      intro r hr
      rw [length_overlay]
      exact hfit r (List.mem_cons_of_mem _ hr)
    rw [writeAll, List.foldl_cons]
    rcases List.mem_cons.mp hs with rfl | hs
    · have hkept := field_writeAll_apart hfit' fun r hr => hhead r hr
      exact hkept.trans (field_overlay_self (hfit s List.mem_cons_self))
    · exact ih hfit' htail hs

/-- What two buffers look like after the same stores: a byte that is not
    stored to is what it was. -/
theorem writeAll_agree {b b' : Bytes} (hlen : b.length = b'.length) {i : Nat}
    (h : (∃ s ∈ stores, s.1 ≤ i ∧ i < s.1 + s.2.length) ∨ b[i]? = b'[i]?) :
    (writeAll b stores)[i]? = (writeAll b' stores)[i]? := by
  induction stores generalizing b b' with
  | nil => simpa [writeAll] using h
  | cons s stores ih =>
    rw [writeAll, writeAll, List.foldl_cons, List.foldl_cons]
    apply ih (by rw [length_overlay, length_overlay, hlen])
    rcases h with ⟨t, ht, hin⟩ | hsame
    · rcases List.mem_cons.mp ht with rfl | ht
      · right
        rw [getElem?_overlay, getElem?_overlay, hlen]
        by_cases hi : i < b'.length
        · rw [if_pos ⟨hin.1, hin.2, hi⟩, if_pos ⟨hin.1, hin.2, hi⟩]
        · -- behind the end of both
          rw [if_neg fun hc => hi hc.2.2, if_neg fun hc => hi hc.2.2, List.getElem?_eq_none (by omega),
            List.getElem?_eq_none (by omega)]
      · exact Or.inl ⟨t, ht, hin⟩
    · right
      rw [getElem?_overlay, getElem?_overlay, hlen, hsame]

end Layout
