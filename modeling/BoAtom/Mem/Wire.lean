import BoAtom.Mem.Rounds

/-! # The wire format

    What a client sends: `'*'`, the number of items, and the items, each
    `'$'`, its length, and its bytes, all in CR LF lines.  The second half
    says what the two scans of the decoder make of a line in `recv_cmd`. -/

namespace BoAtom

open Memory CString

/-! ## Section 1: Requests as bytes -/

/-- `"$%d\r\n%s\r\n"`. -/
def encodeItem (payload : Bytes) : Bytes :=
  dollar :: decimal payload.length ++ CR :: LF :: (payload ++ [CR, LF])

/-- `"*%d\r\n"` and the items. -/
def encodeRequest (args : List Bytes) : Bytes :=
  star :: decimal args.length ++ CR :: LF :: (args.map encodeItem).flatten

def encode (reqs : List (List Bytes)) : Bytes := (reqs.map encodeRequest).flatten

/-- Between 1 and `CMD_ARGS_MAX` arguments, each of a size an `int` can
    hold. -/
structure ValidRequest (args : List Bytes) : Prop where
  ne_nil : args ≠ []
  length_le : args.length ≤ cmdArgsMax
  size_lt : ∀ a ∈ args, (encodeItem a).length < 2 ^ 31

@[simp] theorem encode_nil : encode [] = [] := rfl

@[simp] theorem encode_cons (args : List Bytes) (reqs : List (List Bytes)) :
    encode (args :: reqs) = encodeRequest args ++ encode reqs := rfl

theorem length_encodeItem (a : Bytes) :
    (encodeItem a).length = (decimal a.length).length + a.length + 5 := by
  simp [encodeItem]
  omega

/-- The line of a header or an item: a mark and a numeral. -/
def markLine (mark : UInt8) (n : Nat) : Bytes := mark :: decimal n

theorem encodeItem_line (a : Bytes) :
    encodeItem a = markLine dollar a.length ++ CR :: LF :: (a ++ [CR, LF]) := rfl

theorem encodeRequest_line (args : List Bytes) :
    encodeRequest args = markLine star args.length ++ CR :: LF :: (args.map encodeItem).flatten := rfl

theorem nul_not_mem_markLine {mark : UInt8} (h : mark ≠ 0) (n : Nat) : 0 ∉ markLine mark n := by
  simp [markLine, h.symm, nul_not_mem_decimal]

theorem cr_not_mem_markLine {mark : UInt8} (h : mark ≠ CR) (n : Nat) : CR ∉ markLine mark n := by
  simp [markLine, h.symm, cr_not_mem_decimal]

theorem length_decimal_le {k n : Nat} (hk : 0 < k) (hn : n < 10 ^ k) : (decimal n).length ≤ k := by
  induction k generalizing n with
  | zero => omega
  | succ k ih =>
    by_cases hlt : n < 10
    · rw [decimal_of_lt hlt]
      exact hk
    · have hdiv : n / 10 < 10 ^ k := by
        apply Nat.div_lt_of_lt_mul
        rw [pow_succ] at hn
        omega
      have hpos : 0 < k := by
        by_contra h0
        have : k = 0 := by omega
        subst this
        simp at hn
        omega
      rw [decimal_of_ge (Nat.not_lt.mp hlt), List.length_append, List.length_singleton]
      exact Nat.succ_le_succ (ih hpos hdiv)

/-- Every line of a valid request fits in the buffer. -/
theorem length_markLine_le {n : Nat} (mark : UInt8) (hn : n < 2 ^ 31) : (markLine mark n).length ≤ 11 := by
  have := length_decimal_le (k := 10) (n := n) (by omega) (by omega)
  simp [markLine]
  omega

/-! ## Section 2: What the code computes from a line -/

/-- `atoi(pre)` behind the `'*'`. -/
def lineCount (line : Bytes) : Int := atoi line.tail

/-- `atoi(pre) + 1 + strlen(pre) + 2 + 2` behind the `'$'`. -/
def lineSize (line : Bytes) : Int := wrap32 (atoi line.tail + (1 + line.tail.length + 2 + 2))

theorem lineCount_markLine (mark : UInt8) {n : Nat} (hn : n < 2 ^ 31) :
    lineCount (markLine mark n) = n := atoi_decimal hn

theorem lineSize_markLine (mark : UInt8) {a : Bytes} (h : (encodeItem a).length < 2 ^ 31) :
    lineSize (markLine mark a.length) = (encodeItem a).length := by
  have hlen := length_encodeItem a
  have hn : a.length < 2 ^ 31 := by omega
  unfold lineSize
  rw [show (markLine mark a.length).tail = decimal a.length from rfl, atoi_decimal hn,
    wrap32_of_range (by omega) (by omega), hlen]
  push_cast
  omega

/-! ## Section 3: Lines in the buffer -/

variable {buf : RecvBuf} {total pre q : Nat} {b : UInt8}

/-- The text of a line, with the NUL the code puts at its end. -/
theorem text_of_line (hb : buf.bytes[pre]? = some b) (hcr : b ≠ CR)
    (hq : strstrCrlf (buf.bytes.drop pre) = some q) :
    ∃ r, (buf.write (pre + q) [0]).bytes.drop (pre + 1) =
      ((buf.bytes.drop pre).take q).tail ++ 0 :: r ∧ 0 ∉ ((buf.bytes.drop pre).take q).tail := by
  obtain ⟨hsplit, hlen, hnul⟩ := strstrCrlf_eq_some hq
  have hpos : 0 < q := by
    rcases Nat.eq_zero_or_pos q with h0 | h0
    · subst h0
      have hget : (buf.bytes.drop pre)[0]? = some b := by rw [List.getElem?_drop]; exact hb
      rw [hsplit] at hget
      simp only [List.take_zero, List.nil_append, List.getElem?_cons_zero, Option.some.injEq] at hget
      exact absurd hget.symm hcr
    · exact h0
  rw [List.length_drop] at hlen
  refine ⟨buf.bytes.drop (pre + q + 1), ?_, fun h => hnul (List.mem_of_mem_tail h)⟩
  show (overlay buf.bytes (pre + q) [0]).drop (pre + 1) = _
  rw [overlay_eq (by simp only [List.length_singleton]; omega), List.append_assoc,
    List.drop_append_of_le_length (by rw [List.length_take]; omega), List.singleton_append]
  congr 1
  rw [← List.drop_one, List.drop_take, List.drop_take, List.drop_drop]
  congr 1
  omega

theorem scanItem_eq (hpre : pre < total) (hb : buf.bytes[pre]? = some dollar)
    (hq : strstrCrlf (buf.bytes.drop pre) = some q) :
    scanItem buf total pre =
      if lineSize ((buf.bytes.drop pre).take q) ≤ 5 then .short
      else .size (lineSize ((buf.bytes.drop pre).take q)).toNat := by
  obtain ⟨r, htext, hnul⟩ := text_of_line hb (by decide) hq
  unfold scanItem
  rw [if_neg (Nat.not_le.mpr hpre), if_neg (not_not.mpr hb), hq]
  simp only [htext, atoi_append_nul, strlen_append_nul hnul, lineSize]
  rfl

theorem scanItem_partLine (hpre : pre < total) (hb : buf.bytes[pre]? = some dollar)
    (hq : strstrCrlf (buf.bytes.drop pre) = none) : scanItem buf total pre = .partLine := by
  unfold scanItem
  rw [if_neg (Nat.not_le.mpr hpre), if_neg (not_not.mpr hb), hq]

/-- What an accepted item line was. -/
theorem scanItem_size_line {num : Nat} (h : scanItem buf total pre = .size num) :
    pre < total ∧ buf.bytes[pre]? = some dollar ∧
      ∃ q, strstrCrlf (buf.bytes.drop pre) = some q ∧
        5 < lineSize ((buf.bytes.drop pre).take q) ∧
        (num : Int) = lineSize ((buf.bytes.drop pre).take q) := by
  have hpre := (scanItem_size h).1
  by_cases hb : buf.bytes[pre]? = some dollar
  swap
  · unfold scanItem at h
    rw [if_neg (Nat.not_le.mpr hpre), if_pos hb] at h
    simp at h
  rcases hq : strstrCrlf (buf.bytes.drop pre) with _ | q
  · rw [scanItem_partLine hpre hb hq] at h
    simp at h
  · rw [scanItem_eq hpre hb hq] at h
    refine ⟨hpre, hb, q, rfl, ?_⟩
    split at h
    · simp at h
    · simp only [ItemScan.size.injEq] at h
      omega

/-- What a header line was. -/
theorem scanHeader_eq (hpre : pre < total) {i : Nat}
    (hi : skipToStar (buf.slice pre total) = some i)
    (hq : strstrCrlf (buf.bytes.drop (pre + i)) = some q) :
    buf.bytes[pre + i]? = some star ∧
    scanHeader buf total pre =
      if lineCount ((buf.bytes.drop (pre + i)).take q) = 0 then .zero (pre + i + q)
      else .count (lineCount ((buf.bytes.drop (pre + i)).take q)) (pre + i + q) := by
  have hstar := Dec.getElem_of_skipToStar hi
  obtain ⟨r, htext, hnul⟩ := text_of_line hstar (by decide) hq
  refine ⟨hstar, ?_⟩
  unfold scanHeader
  rw [if_pos hpre, hi]
  simp only [hq, hstar, ne_eq, not_true_eq_false, if_false, htext, atoi_append_nul, lineCount]
  rfl

theorem scanHeader_partLine (hpre : pre < total) {i : Nat}
    (hi : skipToStar (buf.slice pre total) = some i)
    (hq : strstrCrlf (buf.bytes.drop (pre + i)) = none) :
    scanHeader buf total pre = .partLine (pre + i) := by
  unfold scanHeader
  rw [if_pos hpre, hi]
  simp only [hq]

/-- An unfinished line begins among the received bytes. -/
theorem scanHeader_partLine_lt {pre' : Nat} (hpre : pre < total)
    (h : scanHeader buf total pre = .partLine pre') : pre' < total := by
  unfold scanHeader at h
  rw [if_pos hpre] at h
  rcases hskip : skipToStar (buf.slice pre total) with _ | k
  · simp [hskip] at h
  have hk : k < (buf.slice pre total).length :=
    (List.getElem?_eq_some_iff.mp (Dec.skipToStar_spec hskip)).1
  have hle := buf.length_slice_le pre total
  simp only [hskip] at h
  rcases hend : strstrCrlf (buf.bytes.drop (pre + k)) with _ | q
  · simp only [hend, HeaderScan.partLine.injEq] at h
    omega
  · simp only [hend] at h
    split at h
    · cases h
    · split at h <;> cases h

/-- Any result but `empty` comes from bytes at `pre`. -/
theorem scanItem_lt {scan : ItemScan} (h : scanItem buf total pre = scan) (hne : scan ≠ .empty) :
    pre < total := by
  by_contra hge
  apply hne
  rw [← h]
  unfold scanItem
  rw [if_pos (Nat.le_of_not_lt hge)]

theorem scanItem_partLine_lt (h : scanItem buf total pre = .partLine) : pre < total :=
  scanItem_lt h (by simp)

theorem scanHeader_count_line {num : Int} {stop : Nat} (hpre : pre < total)
    (h : scanHeader buf total pre = .count num stop) :
    ∃ i q, skipToStar (buf.slice pre total) = some i ∧ buf.bytes[pre + i]? = some star ∧
      strstrCrlf (buf.bytes.drop (pre + i)) = some q ∧ stop = pre + i + q ∧
      num = lineCount ((buf.bytes.drop (pre + i)).take q) ∧ num ≠ 0 := by
  rcases hi : skipToStar (buf.slice pre total) with _ | i
  · unfold scanHeader at h
    rw [if_pos hpre, hi] at h
    simp at h
  rcases hq : strstrCrlf (buf.bytes.drop (pre + i)) with _ | q
  · rw [scanHeader_partLine hpre hi hq] at h
    simp at h
  · obtain ⟨hstar, heq⟩ := scanHeader_eq hpre hi hq
    rw [heq] at h
    split at h
    · simp at h
    · next hne =>
      simp only [HeaderScan.count.injEq] at h
      exact ⟨i, q, rfl, hstar, hq, h.2.symm, h.1.symm, h.1 ▸ hne⟩

/-- A `SET` and a `GET`. -/
def twoRequests : List (List Bytes) := [[[83, 69, 84], [107], [118]], [[71, 69, 84], [107]]]

theorem validRequest_twoRequests : ∀ args ∈ twoRequests, ValidRequest args := by
  intro args hargs
  rcases List.mem_cons.mp hargs with rfl | hargs
  · exact ⟨by simp, by decide, by decide⟩
  · rw [List.mem_singleton.mp hargs]
    exact ⟨by simp, by decide, by decide⟩

end BoAtom
