import BoAtom.Mem.Wire

/-! # Decoding well-formed requests

    The peer sends the encodings of a list of requests.  `Tracked` ties a
    point of the decoder's loops to what it still has to come, `Between`
    the state between two reads.  Each move keeps the first, each way out
    ends in the second, and the commands handed over are the requests.

    One thing can go wrong: `strstr` does not stop at the received bytes.
    `Harmless` says that a read in which it runs on does no harm: what it
    finds ends an item line, and gives the item the size it has. -/

namespace BoAtom.Dec

open CString Machine Memory

/-! ## Section 1: Searches -/

/-- Where the decoder calls `strstr` at a point, if it does. -/
def searchAt (total : Nat) (p : Point) : Option Nat :=
  match p.2.cur with
  | none => if p.1 < total then (skipToStar (p.2.buf.slice p.1 total)).map (p.1 + ·) else none
  | some dc =>
    if p.1 < total ∧ (dc.items.length : Int) < dc.argc ∧ p.2.buf.bytes[p.1]? = some dollar then
      some p.1
    else none

/-- The size a line at the start of `s` gives its item. -/
def sizeOfLine (s : Bytes) : Option Int := (strstrCrlf s).map fun q => lineSize (s.take q)

/-- What `strstr` finds at a point has been received; or it ends an item
    line, and the size is that of the line the peer sends. -/
def HitOk (later : Bytes) (total : Nat) (p : Point) : Prop :=
  ∀ start q, searchAt total p = some start → strstrCrlf (p.2.buf.bytes.drop start) = some q →
    start + q + 2 ≤ total ∨ p.2.cur.isSome ∧
      sizeOfLine (p.2.buf.bytes.drop start) = sizeOfLine (p.2.buf.slice start total ++ later)

/-- Does the next read go into the buffer? -/
def intoBuffer (d : Dec) : Bool :=
  match d.cur with
  | none => true
  | some dc => dc.part.isNone

/-- Reading `xs`, before `later`, does no harm. -/
def Harmless (later : Bytes) (d : Dec) (xs : Bytes) : Prop :=
  d.intoBuffer = true → ∀ p, Moves (d.pos + xs.length) (0, d.read xs) p →
    HitOk later (d.pos + xs.length) p

/-- How much the next pass asks `read` for. -/
def asked (d : Dec) : Nat :=
  match d.cur.bind DecCmd.part with
  | none => clientRecvCmdLength - d.pos
  | some (n, bs) => n - bs.length

/-! ## Section 2: What is still to come -/

/-- `items` of a request have been received, `rest` and `reqs` follow. -/
structure InRequest (items rest : List Bytes) (reqs : List (List Bytes)) : Prop where
  pos : 0 < items.length + rest.length
  le : items.length + rest.length ≤ cmdArgsMax
  size_lt : ∀ a ∈ rest, (encodeItem a).length < 2 ^ 31
  valid : ∀ r ∈ reqs, ValidRequest r

def encodedItems (reqs : List (List Bytes)) : List (List Bytes) := reqs.map (List.map encodeItem)

/-- The bytes ahead of a decoder, and the commands it is to hand over. -/
inductive Ahead : Option DecCmd → Bytes → List (List Bytes) → Prop where
  | idle {reqs : List (List Bytes)} (hvalid : ∀ r ∈ reqs, ValidRequest r) :
      Ahead none (encode reqs) (encodedItems reqs)
  | inside {items rest : List Bytes} {reqs : List (List Bytes)} (hin : InRequest items rest reqs) :
      Ahead (some ⟨(items.length + rest.length : Nat), items, none⟩)
        ((rest.map encodeItem).flatten ++ encode reqs)
        ((items ++ rest.map encodeItem) :: encodedItems reqs)

/-- Where the loops stand in the stream. -/
structure Tracked (base : List (List Bytes)) (later : Bytes) (total : Nat) (p : Point) : Prop where
  pre_le : p.1 ≤ total
  pos : p.2.pos = total
  ahead : ∃ todo, p.2.handed ++ todo = base ∧
    Ahead p.2.cur (p.2.buf.slice p.1 total ++ later) todo

/-- Where the decoder stands between two reads. -/
inductive Between (base : List (List Bytes)) (later : Bytes) (d : Dec) : Prop where
  /-- At the start of a line, or inside of it. -/
  | line {todo : List (List Bytes)} (hbase : d.handed ++ todo = base)
      (hahead : Ahead d.cur (d.buf.slice 0 d.pos ++ later) todo) (hopen : d.Open)
      (hpos : d.pos = 0 ∨ ∃ line r, d.buf.slice 0 d.pos ++ later = line ++ CR :: LF :: r ∧
        d.pos < line.length + 2 ∧ line.length ≤ 11)
  /-- Inside of an item whose size is known. -/
  | payload {items rest : List Bytes} {a bs : Bytes} {reqs : List (List Bytes)}
      (hbase : d.handed ++ (items ++ encodeItem a :: rest.map encodeItem) :: encodedItems reqs = base)
      (hin : InRequest items (a :: rest) reqs)
      (hcur : d.cur = some ⟨(items.length + (a :: rest).length : Nat), items,
        some ((encodeItem a).length, bs)⟩)
      (hahead : bs ++ later = encodeItem a ++ ((rest.map encodeItem).flatten ++ encode reqs))
      (hlt : bs.length < (encodeItem a).length) (hpos : d.pos = 0)

/-! ## Section 3: One line -/

variable {buf : RecvBuf} {base : List (List Bytes)} {later line r : Bytes} {total pre : Nat} {d d' : Dec}
  {p p' : Point}

theorem slice_drop (k : Nat) : (buf.slice pre total).drop k = buf.slice (pre + k) total := by
  simp [RecvBuf.slice, List.drop_drop]

theorem slice_take (k : Nat) (hk : pre + k ≤ total) :
    (buf.slice pre total).take k = buf.slice pre (pre + k) := by
  unfold RecvBuf.slice
  rw [List.drop_take, List.drop_take, List.take_take]
  congr 1
  omega

/-- The NUL at the end of a header line lies before what follows it. -/
theorem slice_write_before {stop : Nat} (hstop : stop < pre) (hlt : stop < clientRecvCmdLength) :
    (buf.write stop [0]).slice pre total = buf.slice pre total := by
  have hlen := buf.length_eq
  have hdrop : (overlay buf.bytes stop [0]).drop pre = buf.bytes.drop pre := by
    rw [overlay_eq (by simp only [List.length_singleton]; omega), List.drop_append, List.drop_drop,
      List.drop_of_length_le (by simp; omega), List.nil_append]
    congr 1
    simp
    omega
  unfold RecvBuf.slice RecvBuf.write
  rw [List.drop_take, List.drop_take, hdrop]

/-- A line that has been received as a whole is found; in one that has not,
    nothing is found among the received bytes. -/
theorem line_received (hpre : pre ≤ total) (htotal : total ≤ clientRecvCmdLength) (h0 : 0 ∉ line)
    (hcr : CR ∉ line) (h : buf.slice pre total ++ later = line ++ CR :: LF :: r) :
    (pre + line.length + 2 ≤ total → strstrCrlf (buf.bytes.drop pre) = some line.length ∧
      (buf.bytes.drop pre).take line.length = line) ∧
    (total < pre + line.length + 2 → ∀ q, strstrCrlf (buf.bytes.drop pre) = some q →
      total < pre + q + 2) := by
  have hlen : (buf.slice pre total).length = total - pre := buf.length_slice htotal
  have hdrop : buf.bytes.drop pre = buf.slice pre total ++ buf.bytes.drop total :=
    buf.slice_append_drop hpre
  have hbegins : buf.slice pre total <+: line ++ CR :: LF :: r := ⟨later, h⟩
  constructor
  · intro hle
    have hline : line ++ [CR, LF] <+: buf.slice pre total := by
      apply List.prefix_of_prefix_length_le _ hbegins
      · simp only [List.length_append, List.length_cons, List.length_nil]
        omega
      · exact ⟨r, by simp⟩
    obtain ⟨t, ht⟩ := hline
    rw [hdrop, ← ht, List.append_assoc, List.append_assoc]
    exact ⟨strstrCrlf_line h0 hcr _, List.take_left' rfl⟩
  · intro hlt q hq
    by_contra hge
    have hpiece : buf.slice pre total <+: line ++ [CR] := by
      apply List.prefix_of_prefix_length_le hbegins
      · exact ⟨LF :: r, by simp⟩
      · simp only [List.length_append, List.length_singleton]
        omega
    rw [hdrop] at hq
    have hin := strstrCrlf_of_append hq (by omega)
    rw [strstrCrlf_line_piece h0 hcr hpiece] at hin
    simp at hin

/-- `memmove` to the front keeps what is left of the line. -/
theorem keepFrom_slice (hpos : d.pos = total) (hpre : pre ≤ total) (htotal : total ≤ clientRecvCmdLength) :
    (d.keepFrom total pre).pos = total - pre ∧
    (d.keepFrom total pre).buf.slice 0 (total - pre) = d.buf.slice pre total ∧
    (d.keepFrom total pre).cur = d.cur ∧ (d.keepFrom total pre).handed = d.handed := by
  unfold keepFrom
  by_cases h0 : pre ≠ 0
  · rw [if_pos h0]
    refine ⟨rfl, ?_, rfl, rfl⟩
    have hlen : (d.buf.slice pre total).length = total - pre := d.buf.length_slice htotal
    have hfits : 0 + (d.buf.slice pre total).length ≤ d.buf.bytes.length := by
      rw [hlen, d.buf.length_eq]
      omega
    have htake := take_overlay hfits
    rw [Nat.zero_add, hlen, List.take_zero, List.nil_append] at htake
    exact htake
  · rw [if_neg h0]
    obtain rfl : pre = 0 := not_not.mp h0
    exact ⟨hpos, rfl, rfl, rfl⟩

/-- What is behind a received line. -/
theorem behind_line {s l r' : Bytes} (h : s ++ later = l ++ r') (hle : l.length ≤ s.length) :
    s.drop l.length ++ later = r' := by
  have hdrop := congrArg (List.drop l.length) h
  rwa [List.drop_append_of_le_length hle, List.drop_left] at hdrop

/-! ## Section 4: One point -/

/-- A header is due: the next request starts here. -/
theorem Tracked.header (h : Tracked base later total (pre, d)) (htotal : total ≤ clientRecvCmdLength)
    (hcur : d.cur = none) (hpre : pre < total) :
    ∃ args reqs, ValidRequest args ∧ (∀ r ∈ reqs, ValidRequest r) ∧
      d.handed ++ args.map encodeItem :: encodedItems reqs = base ∧
      skipToStar (d.buf.slice pre total) = some 0 ∧
      d.buf.slice pre total ++ later = markLine star args.length ++
        CR :: LF :: ((args.map encodeItem).flatten ++ encode reqs) := by
  obtain ⟨todo, hbase, hahead⟩ := h.ahead
  have hlen : (d.buf.slice pre total).length = total - pre := d.buf.length_slice htotal
  rw [hcur] at hahead
  generalize hbytes : d.buf.slice pre total ++ later = bytes at hahead
  cases hahead with
  | @idle reqs hvalid =>
    rcases reqs with _ | ⟨args, reqs⟩
    · -- there is something left to decode
      have hnil := congrArg List.length hbytes
      simp only [List.length_append, hlen, encode_nil, List.length_nil] at hnil
      omega
    · refine ⟨args, reqs, hvalid args List.mem_cons_self,
        fun r hr => hvalid r (List.mem_cons_of_mem _ hr), hbase, ?_, ?_⟩
      · rcases hs : d.buf.slice pre total with _ | ⟨b, s⟩
        · rw [hs] at hlen
          simp only [List.length_nil] at hlen
          omega
        · rw [hs, encode_cons, encodeRequest] at hbytes
          have hb : b = star := (List.cons.inj hbytes).1
          rw [skipToStar, if_pos hb]
      · rw [encode_cons, encodeRequest_line, List.append_assoc]
        rfl

/-- An item is due. -/
theorem Tracked.item {dc : DecCmd} (h : Tracked base later total (pre, d)) (hcur : d.cur = some dc)
    (hmore : (dc.items.length : Int) < dc.argc) :
    ∃ items a rest reqs, dc = ⟨(items.length + (a :: rest).length : Nat), items, none⟩ ∧
      InRequest items (a :: rest) reqs ∧
      d.handed ++ (items ++ encodeItem a :: rest.map encodeItem) :: encodedItems reqs = base ∧
      d.buf.slice pre total ++ later =
        encodeItem a ++ ((rest.map encodeItem).flatten ++ encode reqs) := by
  obtain ⟨todo, hbase, hahead⟩ := h.ahead
  rw [hcur] at hahead
  generalize hbytes : d.buf.slice pre total ++ later = bytes at hahead
  cases hahead with
  | @inside items rest reqs hin =>
    rcases rest with _ | ⟨a, rest⟩
    · simp at hmore
    · exact ⟨items, a, rest, reqs, rfl, hin, hbase, by simp⟩

/-- The header line the decoder finds is the one that was sent. -/
theorem headerLine_scan
    (htotal : total ≤ clientRecvCmdLength) (hok : HitOk later total (pre, d)) (hcur : d.cur = none)
    (hpre : pre < total) {args : List Bytes} {r : Bytes} (hvalid : ValidRequest args)
    (hstar : skipToStar (d.buf.slice pre total) = some 0)
    (hbytes : d.buf.slice pre total ++ later = markLine star args.length ++ CR :: LF :: r) :
    (scanHeader d.buf total pre = .partLine pre ∧ total < pre + (markLine star args.length).length + 2) ∨
    (scanHeader d.buf total pre = .count args.length (pre + (markLine star args.length).length) ∧
      pre + (markLine star args.length).length + 2 ≤ total) := by
  have hn : args.length < 2 ^ 31 := lt_of_le_of_lt hvalid.length_le (by decide)
  have hne : args.length ≠ 0 := by simpa using hvalid.ne_nil
  obtain ⟨hwhole, hpiece⟩ := line_received hpre.le htotal
    (nul_not_mem_markLine (by decide) args.length) (cr_not_mem_markLine (by decide) args.length) hbytes
  by_cases hle : pre + (markLine star args.length).length + 2 ≤ total
  · right
    obtain ⟨hq, hline⟩ := hwhole hle
    obtain ⟨-, hscan⟩ := scanHeader_eq hpre hstar (q := (markLine star args.length).length)
      (by rw [Nat.add_zero]; exact hq)
    rw [Nat.add_zero, hline, lineCount_markLine star hn, if_neg (by exact_mod_cast hne)] at hscan
    exact ⟨hscan, hle⟩
  · left
    have hlt := Nat.lt_of_not_le hle
    refine ⟨?_, hlt⟩
    rcases hq : strstrCrlf (d.buf.bytes.drop pre) with _ | q
    · have hscan := scanHeader_partLine hpre hstar (by rw [Nat.add_zero]; exact hq)
      rwa [Nat.add_zero] at hscan
    · -- a hit in the bytes behind would be no harm to an item line only
      have hsearch : searchAt total (pre, d) = some pre := by
        simp [searchAt, hcur, hpre, hstar]
      rcases hok pre q hsearch hq with hin | ⟨hsome, -⟩
      · have := hpiece hlt q hq
        omega
      · simp [hcur] at hsome

/-- The size the decoder computes is that of the item. -/
theorem itemLine_scan {dc : DecCmd} (htotal : total ≤ clientRecvCmdLength)
    (hok : HitOk later total (pre, d)) (hcur : d.cur = some dc)
    (hmore : (dc.items.length : Int) < dc.argc) (hpre : pre < total) {a r : Bytes}
    (hsize : (encodeItem a).length < 2 ^ 31)
    (hbytes : d.buf.slice pre total ++ later = encodeItem a ++ r) :
    (scanItem d.buf total pre = .partLine ∧
      total < pre + (markLine dollar a.length).length + 2) ∨
    scanItem d.buf total pre = .size (encodeItem a).length := by
  have hlen : (d.buf.slice pre total).length = total - pre := d.buf.length_slice htotal
  have hbytes' : d.buf.slice pre total ++ later =
      markLine dollar a.length ++ CR :: LF :: (a ++ [CR, LF] ++ r) := by
    rw [hbytes, encodeItem_line, List.append_assoc]
    rfl
  have hdollar : d.buf.bytes[pre]? = some dollar := by
    have hget : (d.buf.slice pre total ++ later)[0]? = some dollar := by rw [hbytes']; rfl
    rw [List.getElem?_append_left (by omega)] at hget
    unfold RecvBuf.slice at hget
    rw [List.getElem?_drop, List.getElem?_take_of_lt (by omega)] at hget
    exact hget
  have h5 : ¬ lineSize (markLine dollar a.length) ≤ 5 := by
    rw [lineSize_markLine dollar hsize, length_encodeItem]
    have := List.length_pos_iff.mpr (decimal_ne_nil a.length)
    push_cast
    omega
  -- `strstr` starts at the `$`; what it finds may lie behind the received bytes
  have hsearch : searchAt total (pre, d) = some pre := by
    simp [searchAt, hcur, hpre, hmore, hdollar]
  obtain ⟨hwhole, hpiece⟩ := line_received hpre.le htotal
    (nul_not_mem_markLine (by decide) a.length) (cr_not_mem_markLine (by decide) a.length) hbytes'
  have hsent : sizeOfLine (d.buf.slice pre total ++ later) = some ((encodeItem a).length : Int) := by
    unfold sizeOfLine
    rw [hbytes', strstrCrlf_line (nul_not_mem_markLine (by decide) _)
      (cr_not_mem_markLine (by decide) _), Option.map_some, List.take_left' rfl,
      lineSize_markLine dollar hsize]
  rcases hq : strstrCrlf (d.buf.bytes.drop pre) with _ | q
  · -- not found, so the line cannot have been received whole
    left
    refine ⟨scanItem_partLine hpre hdollar hq, Nat.lt_of_not_le fun hle => ?_⟩
    rw [(hwhole hle).1] at hq
    simp at hq
  right
  have hline : lineSize ((d.buf.bytes.drop pre).take q) = ((encodeItem a).length : Int) := by
    by_cases hle : pre + (markLine dollar a.length).length + 2 ≤ total
    · obtain ⟨hq', htake⟩ := hwhole hle
      rw [hq, Option.some.injEq] at hq'
      rw [hq', htake, lineSize_markLine dollar hsize]
    · -- found in stale bytes: `HitOk` lets it stand only if the size read is the one sent
      rcases hok pre q hsearch hq with hin | ⟨-, hsame⟩
      · have := hpiece (Nat.lt_of_not_le hle) q hq
        omega
      · have hfound : sizeOfLine (d.buf.bytes.drop pre) =
            some (lineSize ((d.buf.bytes.drop pre).take q)) := by simp [sizeOfLine, hq]
        rw [hfound, hsent, Option.some.injEq] at hsame
        exact hsame
  rw [lineSize_markLine dollar hsize] at h5
  rw [scanItem_eq hpre hdollar hq, hline, if_neg h5, Int.toNat_natCast]

/-! ## Section 5: One move -/

theorem Tracked.move (h : Tracked base later total p) (htotal : total ≤ clientRecvCmdLength)
    (hok : HitOk later total p) (hm : Move total p p') : Tracked base later total p' := by
  cases hm with
  | @header pre stop num d hcur hpre hscan =>
    obtain ⟨args, reqs, hvalid, hreqs, hbase, hstar, hbytes⟩ := h.header htotal hcur hpre
    -- the header read is the header sent, and the first item is now ahead
    rcases headerLine_scan htotal hok hcur hpre hvalid hstar hbytes with ⟨hpart, -⟩ | ⟨hcount, hle⟩
    · rw [hscan] at hpart
      simp at hpart
    · rw [hscan, HeaderScan.count.injEq] at hcount
      obtain ⟨rfl, rfl⟩ := hcount
      refine ⟨hle, h.pos, args.map encodeItem :: encodedItems reqs, hbase, ?_⟩
      have hlen : (d.buf.slice pre total).length = total - pre := d.buf.length_slice htotal
      have hbytes' : d.buf.slice pre total ++ later = (markLine star args.length ++ [CR, LF]) ++
          ((args.map encodeItem).flatten ++ encode reqs) := by
        rw [hbytes]
        simp
      have hrest := behind_line hbytes' (by simp; omega)
      rw [slice_drop] at hrest
      show Ahead (some (.start _)) ((d.buf.write _ [0]).slice _ total ++ later) _
      rw [slice_write_before (by omega) (by omega)]
      have hadd : pre + (markLine star args.length ++ [CR, LF]).length =
          pre + (markLine star args.length).length + 2 := by simp; omega
      rw [hadd] at hrest
      rw [hrest]
      have hin : InRequest [] args reqs :=
        ⟨by simpa using List.length_pos_iff.mpr hvalid.ne_nil, by simpa using hvalid.length_le,
          hvalid.size_lt, hreqs⟩
      have hahead := Ahead.inside hin
      simp only [List.length_nil, Nat.zero_add, List.nil_append] at hahead
      exact hahead
  | @item pre num d dc hcur hmore hlt hscan hfit =>
    obtain ⟨items, a, rest, reqs, rfl, hin, hbase, hbytes⟩ := h.item hcur hmore
    have hpre := (scanItem_size hscan).1
    have hsize := hin.size_lt a List.mem_cons_self
    -- the item read is the item sent; the rest of its request is ahead
    rcases itemLine_scan htotal hok hcur hmore hpre hsize hbytes with ⟨hpart, -⟩ | hnum
    · rw [hscan] at hpart
      simp at hpart
    · rw [hscan, ItemScan.size.injEq] at hnum
      subst hnum
      refine ⟨hfit, h.pos, (items ++ encodeItem a :: rest.map encodeItem) :: encodedItems reqs, hbase, ?_⟩
      have hlen : (d.buf.slice pre total).length = total - pre := d.buf.length_slice htotal
      have hitem : d.buf.slice pre (pre + (encodeItem a).length) = encodeItem a := by
        rw [← slice_take _ hfit]
        have htake := congrArg (List.take (encodeItem a).length) hbytes
        rwa [List.take_append_of_le_length (by omega), List.take_left' rfl] at htake
      have hrest := behind_line hbytes (by omega)
      rw [slice_drop] at hrest
      show Ahead (some _) (d.buf.slice _ total ++ later) _
      rw [hrest, hitem]
      have hin' : InRequest (items ++ [encodeItem a]) rest reqs :=
        ⟨by simp, by simpa [Nat.add_assoc, Nat.add_comm 1] using hin.le,
          fun b hb => hin.size_lt b (List.mem_cons_of_mem _ hb), hin.valid⟩
      have hahead := Ahead.inside hin'
      have hcount : (items ++ [encodeItem a]).length + rest.length =
          items.length + (a :: rest).length := by simp; omega
      rw [hcount, List.append_assoc, List.singleton_append] at hahead
      exact hahead
  | @complete pre d dc hcur hfull hpos =>
    obtain ⟨hle, hposn, todo, hbase, hahead⟩ := h
    simp only [hcur] at hahead
    generalize hbytes : d.buf.slice pre total ++ later = bytes at hahead
    cases hahead with
    | @inside items rest reqs hin =>
      -- as many items were read as the header announced, so none of the request is left
      have hnil : rest = [] := by
        apply List.eq_nil_of_length_eq_zero
        have hfull' : ((items.length + rest.length : Nat) : Int) ≤ items.length := hfull
        omega
      subst hnil
      refine ⟨hle, hposn, encodedItems reqs, ?_, ?_⟩
      · rw [← hbase]
        simp
      · show Ahead none (d.buf.slice pre total ++ later) _
        rw [hbytes]
        exact .idle hin.valid

theorem Tracked.moves (h : Tracked base later total p) (htotal : total ≤ clientRecvCmdLength)
    (hok : ∀ p', Moves total p p' → HitOk later total p') (hm : Moves total p p') :
    Tracked base later total p' := by
  induction hm with
  | refl => exact h
  | tail hm hmove ih => exact ih.move htotal (hok _ hm) hmove

/-- When nothing is to come, every line has been received as a whole. -/
theorem Tracked.hitOk (h : Tracked base [] total p) (htotal : total ≤ clientRecvCmdLength) :
    HitOk [] total p := by
  obtain ⟨pre, d⟩ := p
  -- with nothing to come later the line has been received whole
  have hwhole : ∀ (mark : UInt8) (n : Nat) (r : Bytes), mark ≠ 0 → mark ≠ CR →
      d.buf.slice pre total ++ [] = markLine mark n ++ CR :: LF :: r →
      ∀ q, strstrCrlf (d.buf.bytes.drop pre) = some q → pre + q + 2 ≤ total := by
    intro mark n r h0 hcr hbytes q hq
    have hlen := congrArg List.length hbytes
    rw [List.append_nil, d.buf.length_slice htotal, List.length_append, List.length_cons,
      List.length_cons] at hlen
    have hin : pre + (markLine mark n).length + 2 ≤ total := by omega
    rw [((line_received h.pre_le htotal (nul_not_mem_markLine h0 n) (cr_not_mem_markLine hcr n)
      hbytes).1 hin).1, Option.some.injEq] at hq
    omega
  intro start q hsearch hq
  left
  unfold searchAt at hsearch
  rcases hcur : d.cur with _ | dc
  · simp only [hcur] at hsearch
    split at hsearch
    · next hpre =>
      obtain ⟨args, reqs, -, -, -, hstar, hbytes⟩ := h.header htotal hcur hpre
      rw [hstar, Option.map_some, Option.some.injEq, Nat.add_zero] at hsearch
      subst hsearch
      exact hwhole star _ _ (by decide) (by decide) hbytes q hq
    · simp at hsearch
  · simp only [hcur] at hsearch
    split at hsearch
    · next hitem =>
      obtain ⟨items, a, rest, reqs, rfl, -, -, hbytes⟩ := h.item hcur hitem.2.1
      rw [Option.some.injEq] at hsearch
      subst hsearch
      rw [encodeItem_line, List.append_assoc] at hbytes
      exact hwhole dollar _ _ (by decide) (by decide) hbytes q hq
    · simp at hsearch

theorem Tracked.moves_last (h : Tracked base [] total p) (htotal : total ≤ clientRecvCmdLength)
    (hm : Moves total p p') : Tracked base [] total p' := by
  induction hm with
  | refl => exact h
  | tail _ hmove ih => exact ih.move htotal (ih.hitOk htotal) hmove

/-- Nor does a read with nothing but 0 behind it: `strstr` stops there. -/
theorem harmless_of_zeros {xs : Bytes}
    (hzeros : ∀ b ∈ (d.read xs).buf.bytes.drop (d.pos + xs.length), b = 0) : Harmless later d xs := by
  intro _ p hm
  -- the only bytes the loops write are 0 themselves
  have hp : ∀ i b, d.pos + xs.length ≤ i → p.2.buf.bytes[i]? = some b → b = 0 := by
    apply hm.invariant (I := fun p => ∀ i b, d.pos + xs.length ≤ i → p.2.buf.bytes[i]? = some b → b = 0)
    · intro q q' hq hmove
      cases hmove with
      | header hcur hpre hscan =>
        intro i b hi hb
        simp only [RecvBuf.write, getElem?_overlay] at hb
        split at hb
        · next hin =>
          obtain rfl : b = 0 := by
            simpa using List.mem_of_getElem? hb
          rfl
        · exact hq i b hi hb
      | item | complete => exact hq
    · intro i b hi hb
      apply hzeros b
      apply List.mem_of_getElem? (i := i - (d.pos + xs.length))
      rw [List.getElem?_drop, Nat.add_sub_cancel' hi]
      exact hb
  intro start q _ hq
  left
  obtain ⟨hsplit, hlen, -⟩ := strstrCrlf_eq_some hq
  by_contra hlt
  have hlf : p.2.buf.bytes[start + (q + 1)]? = some LF := by
    have htake : ((p.2.buf.bytes.drop start).take q).length = q := by
      rw [List.length_take]
      omega
    rw [← List.getElem?_drop, hsplit, List.getElem?_append_right (by omega), htake, Nat.add_sub_cancel_left]
    rfl
  exact absurd (hp _ _ (by omega) hlf) (by decide)

/-! ## Section 6: The ways out -/

/-- The end of the received bytes, between two lines. -/
theorem Tracked.stop_between (h : Tracked base later total (pre, d)) (hpre : total ≤ pre)
    (hopen : d.Open) : Between base later { d with pos := 0 } := by
  obtain ⟨todo, hbase, hahead⟩ := h.ahead
  refine .line hbase ?_ hopen (Or.inl rfl)
  have hnil : ∀ i, i ≤ pre → d.buf.slice pre i = [] := by
    intro i hi
    unfold RecvBuf.slice
    rw [List.drop_of_length_le]
    rw [List.length_take]
    omega
  have hzero : d.buf.slice 0 0 = [] := rfl
  show Ahead d.cur (d.buf.slice 0 0 ++ later) todo
  rw [hzero]
  rw [hnil total hpre] at hahead
  exact hahead

/-- The end of the received bytes, inside of a line. -/
theorem Tracked.stop_inside (h : Tracked base later total (pre, d))
    (htotal : total ≤ clientRecvCmdLength) (hopen : d.Open) {line r : Bytes}
    (hbytes : d.buf.slice pre total ++ later = line ++ CR :: LF :: r)
    (hlt : total < pre + line.length + 2) (hle : line.length ≤ 11) :
    Between base later (d.keepFrom total pre) := by
  obtain ⟨hpre, hpos, todo, hbase, hahead⟩ := h
  obtain ⟨hpos', hslice, hcur, hhanded⟩ := keepFrom_slice hpos hpre htotal
  have hahead' : Ahead (d.keepFrom total pre).cur
      ((d.keepFrom total pre).buf.slice 0 (d.keepFrom total pre).pos ++ later) todo := by
    rw [hcur, hpos', hslice]
    exact hahead
  refine .line ?_ hahead' ?_ (Or.inr ⟨line, r, ?_, ?_, hle⟩)
  · rw [hhanded]
    exact hbase
  · intro dc hdc
    rw [hcur] at hdc
    exact hopen dc hdc
  · rw [hpos', hslice]
    exact hbytes
  · rw [hpos']
    omega

theorem Tracked.stop {code : Int} (h : Tracked base later total p) (htotal : total ≤ clientRecvCmdLength)
    (hok : HitOk later total p) (hs : Stop total p code d') : code = 0 ∧ Between base later d' := by
  have hopen : ∀ {dc : DecCmd} {d : Dec}, d.cur = some dc → (dc.items.length : Int) < dc.argc →
      d.Open := by
    intro dc d hcur hmore dc' hdc'
    rw [hcur, Option.some.injEq] at hdc'
    exact hdc' ▸ hmore
  have hnone : ∀ {d : Dec}, d.cur = none → d.Open := by
    intro d hcur dc hdc
    rw [hcur] at hdc
    simp at hdc
  cases hs with
  | @done pre d hcur hpre => exact ⟨rfl, h.stop_between hpre (hnone hcur)⟩
  | @skipped pre d hcur hpre hscan =>
    obtain ⟨args, reqs, hvalid, -, -, hstar, hbytes⟩ := h.header htotal hcur hpre
    rcases headerLine_scan htotal hok hcur hpre hvalid hstar hbytes with ⟨hscan', -⟩ | ⟨hscan', -⟩ <;>
      rw [hscan] at hscan' <;> simp at hscan'
  | @headerLine pre pre' d hcur hpre hscan =>
    obtain ⟨args, reqs, hvalid, -, -, hstar, hbytes⟩ := h.header htotal hcur hpre
    rcases headerLine_scan htotal hok hcur hpre hvalid hstar hbytes with ⟨hscan', hlt⟩ | ⟨hscan', -⟩
    · rw [hscan, HeaderScan.partLine.injEq] at hscan'
      subst hscan'
      have hn : args.length < 2 ^ 31 := lt_of_le_of_lt hvalid.length_le (by decide)
      exact ⟨rfl, h.stop_inside htotal (hnone hcur) hbytes hlt (length_markLine_le star hn)⟩
    · rw [hscan] at hscan'
      simp at hscan'
  | @zero pre stop d hcur hpre hscan =>
    obtain ⟨args, reqs, hvalid, -, -, hstar, hbytes⟩ := h.header htotal hcur hpre
    rcases headerLine_scan htotal hok hcur hpre hvalid hstar hbytes with ⟨hscan', -⟩ | ⟨hscan', -⟩ <;>
      rw [hscan] at hscan' <;> simp at hscan'
  | @empty pre d dc hcur hmore hscan =>
    -- with bytes left the scan would have found the item
    have hpre : total ≤ pre := by
      by_contra hlt
      have hlt' := Nat.lt_of_not_le hlt
      obtain ⟨items, a, rest, reqs, rfl, hin, -, hbytes⟩ := h.item hcur hmore
      rcases itemLine_scan htotal hok hcur hmore hlt' (hin.size_lt a List.mem_cons_self) hbytes with
        ⟨hscan', -⟩ | hscan' <;> rw [hscan] at hscan' <;> simp at hscan'
    exact ⟨rfl, h.stop_between hpre (hopen hcur hmore)⟩
  | @itemLine pre d dc hcur hmore hscan =>
    obtain ⟨items, a, rest, reqs, rfl, hin, -, hbytes⟩ := h.item hcur hmore
    have hsize := hin.size_lt a List.mem_cons_self
    have hpre : pre < total := scanItem_lt hscan (by simp)
    rcases itemLine_scan htotal hok hcur hmore hpre hsize hbytes with ⟨-, hlt⟩ | hscan'
    · have hline : d.buf.slice pre total ++ later = markLine dollar a.length ++ CR :: LF ::
          (a ++ [CR, LF] ++ ((rest.map encodeItem).flatten ++ encode reqs)) := by
        rw [hbytes, encodeItem_line, List.append_assoc]
        rfl
      refine ⟨rfl, h.stop_inside htotal (hopen hcur hmore) hline hlt ?_⟩
      have := length_encodeItem a
      exact length_markLine_le dollar (by omega)
    · rw [hscan] at hscan'
      simp at hscan'
  -- what was sent begins with `$` and is longer than 5 bytes: no rejection
  | @noDollar pre d dc hcur hmore hscan | @short pre d dc hcur hmore hscan =>
    obtain ⟨items, a, rest, reqs, rfl, hin, -, hbytes⟩ := h.item hcur hmore
    have hpre : pre < total := scanItem_lt hscan (by simp)
    rcases itemLine_scan htotal hok hcur hmore hpre (hin.size_lt a List.mem_cons_self) hbytes with
      ⟨hscan', -⟩ | hscan' <;> rw [hscan] at hscan' <;> simp at hscan'
  | @part pre num d dc hcur hmore hlt hscan hfit =>
    obtain ⟨items, a, rest, reqs, rfl, hin, hbase, hbytes⟩ := h.item hcur hmore
    have hpre := (scanItem_size hscan).1
    rcases itemLine_scan htotal hok hcur hmore hpre (hin.size_lt a List.mem_cons_self) hbytes with
      ⟨hscan', -⟩ | hscan'
    · rw [hscan] at hscan'
      simp at hscan'
    · rw [hscan, ItemScan.size.injEq] at hscan'
      subst hscan'
      refine ⟨rfl, .payload hbase hin rfl hbytes ?_ rfl⟩
      rw [d.buf.length_slice htotal]
      omega

theorem Tracked.not_faulty {f : Fault} (h : Tracked base later total p) : ¬ Faulty total p f := by
  intro hf
  cases hf with
  | @item pre num d dc hcur hmore hge hscan =>
    obtain ⟨items, a, rest, reqs, rfl, hin, -, -⟩ := h.item hcur hmore
    have := hin.le
    simp only [List.length_cons] at this hge
    omega
  | @complete pre d dc hcur hfull hneg =>
    obtain ⟨-, -, todo, -, hahead⟩ := h
    simp only [hcur] at hahead
    generalize d.buf.slice pre total ++ later = bytes at hahead
    cases hahead with
    | inside hin => exact absurd hneg (by simp only [not_lt]; exact Int.natCast_nonneg _)

/-! ## Section 7: One pass -/

theorem Between.room {dc : DecCmd} (h : Between base later d) (hcur : d.cur = some dc) :
    dc.items.length < cmdArgsMax := by
  cases h with
  | line hbase hahead hopen hpos =>
    have hmore := hopen dc hcur
    rw [hcur] at hahead
    generalize d.buf.slice 0 d.pos ++ later = bytes at hahead
    cases hahead with
    | @inside items rest reqs hin =>
      have hle := hin.le
      have hmore' : (items.length : Int) < (items.length + rest.length : Nat) := hmore
      show items.length < cmdArgsMax
      omega
  | @payload items rest a bs reqs hbase hin hcur' hahead hlt hpos =>
    rw [hcur, Option.some.injEq] at hcur'
    subst hcur'
    have hle := hin.le
    simp only [List.length_cons] at hle
    show items.length < cmdArgsMax
    omega

/-- There is room for more bytes. -/
theorem Between.asked_pos (h : Between base later d) : 0 < d.asked := by
  cases h with
  | line hbase hahead hopen hpos =>
    have hpart : d.cur.bind DecCmd.part = none := by
      generalize d.buf.slice 0 d.pos ++ later = bytes at hahead
      generalize d.cur = cur at hahead
      cases hahead <;> rfl
    unfold asked
    rw [hpart]
    show 0 < clientRecvCmdLength - d.pos
    rcases hpos with h0 | ⟨line, r, -, hlt, hle⟩ <;> simp only [clientRecvCmdLength] <;> omega
  | payload hbase hin hcur hahead hlt hpos =>
    unfold asked
    rw [hcur]
    exact Nat.sub_pos_of_lt hlt

theorem Between.pass_eagain (h : Between base later d) : d.pass .eagain = .ok (.returned, d) := by
  unfold pass
  rcases hcur : d.cur with _ | dc
  · rfl
  · simp only
    rw [if_neg (Nat.not_le.mpr (h.room hcur))]
    rcases dc.part with _ | ⟨n, bs⟩ <;> rfl

/-- The point at which the loops start. -/
theorem tracked_start {xs : Bytes} {todo : List (List Bytes)} (hbase : d.handed ++ todo = base)
    (hahead : Ahead d.cur (d.buf.slice 0 d.pos ++ (xs ++ later)) todo)
    (htotal : d.pos + xs.length ≤ clientRecvCmdLength) :
    Tracked base later (d.pos + xs.length) (0, d.read xs) := by
  have hslice : (d.read xs).buf.slice 0 (d.pos + xs.length) = d.buf.slice 0 d.pos ++ xs :=
    take_overlay (by rw [d.buf.length_eq]; exact htotal)
  refine ⟨Nat.zero_le _, rfl, todo, hbase, ?_⟩
  show Ahead d.cur ((d.read xs).buf.slice 0 _ ++ later) todo
  rw [hslice, List.append_assoc]
  exact hahead

/-- The last read of a stream does no harm. -/
theorem Between.harmless_last {xs : Bytes} (h : Between base xs d) (hle : xs.length ≤ d.asked)
    (hne : xs ≠ []) : Harmless [] d xs := by
  intro hinto p hm
  have hxs := List.length_pos_iff.mpr hne
  cases h with
  | @payload items rest a bs reqs hbase hin hcur hahead hlt hpos => simp [intoBuffer, hcur] at hinto
  | @line todo hbase hahead hopen hpos =>
    have hpart : d.cur.bind DecCmd.part = none := by
      generalize d.buf.slice 0 d.pos ++ xs = bytes at hahead
      generalize d.cur = cur at hahead
      cases hahead <;> rfl
    unfold asked at hle
    rw [hpart] at hle
    have htotal : d.pos + xs.length ≤ clientRecvCmdLength := by
      simp only at hle
      omega
    have hahead' : Ahead d.cur (d.buf.slice 0 d.pos ++ (xs ++ [])) todo := by
      rw [List.append_nil]
      exact hahead
    have hstart := tracked_start hbase hahead' htotal
    exact (hstart.moves_last htotal hm).hitOk htotal

/-- A read into the buffer. -/
theorem pass_intoBuffer {xs : Bytes} {todo : List (List Bytes)} {r : ReadResult}
    (hbase : d.handed ++ todo = base)
    (hahead : Ahead d.cur (d.buf.slice 0 d.pos ++ (xs ++ later)) todo) (hopen : d.Open)
    (hr : r.bound (clientRecvCmdLength - d.pos) = .data xs)
    (hok : ∀ p, Moves (d.pos + xs.length) (0, d.read xs) p → HitOk later (d.pos + xs.length) p) :
    ∃ d', d.recvHeader r = .ok (.again, d') ∧ Between base later d' ∧ d'.got = d.got ++ xs := by
  obtain ⟨hpos, htotal⟩ := recvHeader_total hr
  have htracked := tracked_start hbase hahead htotal
  have hopen' : (d.read xs).Open := hopen
  have ho := check_outcome hpos htotal hopen'
  rw [recvHeader_data hr]
  show ∃ d', (check (d.read xs) (d.pos + xs.length)).bind _ = _ ∧ _
  generalize check (d.read xs) (d.pos + xs.length) = out at ho
  cases ho with
  | fault hmoves hfault => exact absurd hfault (htracked.moves htotal hok hmoves).not_faulty
  | @stop p' code d' hmoves hstop =>
    obtain ⟨rfl, hbetween⟩ := (htracked.moves htotal hok hmoves).stop htotal (hok p' hmoves) hstop
    exact ⟨d', rfl, hbetween, moves_stop_got hmoves hstop⟩

/-- A read into the item. -/
theorem pass_intoItem {items rest : List Bytes} {a bs xs : Bytes} {reqs : List (List Bytes)}
    {r : ReadResult}
    (hbase : d.handed ++ (items ++ encodeItem a :: rest.map encodeItem) :: encodedItems reqs = base)
    (hin : InRequest items (a :: rest) reqs)
    (hahead : bs ++ (xs ++ later) = encodeItem a ++ ((rest.map encodeItem).flatten ++ encode reqs))
    (hpos : d.pos = 0)
    (hr : r.bound ((encodeItem a).length - bs.length) = .data xs) :
    ∃ d', recvItem ⟨(items.length + (a :: rest).length : Nat), items, some ((encodeItem a).length, bs)⟩
        (encodeItem a).length bs r d = .ok (.again, d') ∧
      Between base later d' ∧ d'.got = d.got ++ xs := by
  obtain ⟨hne, hle⟩ := bound_data hr
  have hxs := List.length_pos_iff.mpr hne
  rw [← List.append_assoc] at hahead
  unfold recvItem
  rw [hr]
  simp only [DecCmd.extend]
  by_cases hfull : (encodeItem a).length ≤ bs.length + xs.length
  swap
  · -- the item goes on
    rw [if_neg hfull, if_neg hfull]
    have hmore : ¬ ((items.length : Nat) : Int) ≥ (items.length + (a :: rest).length : Nat) := by
      simp only [List.length_cons]
      omega
    simp only [completeIfFull, hmore, if_false, Except.bind]
    refine ⟨_, rfl, .payload hbase hin rfl hahead ?_ hpos, rfl⟩
    rw [List.length_append]
    omega
  -- the item is there, and what was read behind it is where the next one begins
  rw [if_pos hfull, if_pos hfull]
  obtain ⟨hitem, hlater⟩ := List.append_inj hahead (by rw [List.length_append]; omega)
  rw [hitem]
  have hcount : (items ++ [encodeItem a]).length + rest.length = items.length + (a :: rest).length := by
    simp only [List.length_append, List.length_cons, List.length_nil]
    omega
  have hzero : d.buf.slice 0 0 = [] := rfl
  rcases rest with _ | ⟨b, rest⟩
  · -- it was the last one
    have hdone : ((items ++ [encodeItem a]).length : Int) ≥ (items.length + [a].length : Nat) := by
      rw [← hcount]
      exact le_refl _
    have hneg : ¬ ((items.length + [a].length : Nat) : Int) < 0 := by omega
    simp only [completeIfFull, hdone, if_true, complete, hneg, if_false, Except.bind]
    have hbase' : (d.handed ++ [items ++ [encodeItem a]]) ++ encodedItems reqs = base := by
      rw [← hbase]
      simp
    refine ⟨_, rfl, .line hbase' ?_ ?_ (Or.inl rfl), rfl⟩
    · show Ahead none (d.buf.slice 0 0 ++ later) _
      rw [hzero, hlater]
      exact .idle hin.valid
    · intro dc hdc
      simp at hdc
  · have hmore : ¬ ((items ++ [encodeItem a]).length : Int) ≥ (items.length + (a :: b :: rest).length : Nat) := by
      rw [← hcount]
      simp only [List.length_cons]
      omega
    simp only [completeIfFull, hmore, if_false, Except.bind]
    have hin' : InRequest (items ++ [encodeItem a]) (b :: rest) reqs :=
      ⟨by simp, by rw [hcount]; exact hin.le, fun x hx => hin.size_lt x (List.mem_cons_of_mem _ hx),
        hin.valid⟩
    have hahead' := Ahead.inside hin'
    rw [hcount, List.append_assoc, List.singleton_append, ← hlater] at hahead'
    refine ⟨_, rfl, .line hbase ?_ ?_ (Or.inl rfl), rfl⟩
    · show Ahead (some _) (d.buf.slice 0 0 ++ later) _
      rw [hzero]
      exact hahead'
    · intro dc hdc
      simp only [Option.some.injEq] at hdc
      subst hdc
      exact Int.lt_of_not_ge hmore

/-- **A read of well-formed requests.** -/
theorem Between.pass {xs : Bytes} {r : ReadResult} (h : Between base (xs ++ later) d)
    (hr : r.bound d.asked = .data xs) (hok : Harmless later d xs) :
    ∃ d', d.pass r = .ok (.again, d') ∧ Between base later d' ∧ d'.got = d.got ++ xs := by
  have hroom : ∀ dc, d.cur = some dc → ¬ dc.items.length ≥ cmdArgsMax :=
    fun dc hcur => Nat.not_le.mpr (h.room hcur)
  -- between two pieces the decoder is at a line, in the buffer, or inside of an item's block
  cases h with
  | @line todo hbase hahead hopen hpos =>
    have hpart : d.cur.bind DecCmd.part = none := by
      generalize d.buf.slice 0 d.pos ++ (xs ++ later) = bytes at hahead
      generalize d.cur = cur at hahead
      cases hahead <;> rfl
    have hasked : d.asked = clientRecvCmdLength - d.pos := by
      unfold asked
      rw [hpart]
    rw [hasked] at hr
    have hinto : d.intoBuffer = true ∧ d.pass r = d.recvHeader r := by
      unfold intoBuffer Dec.pass
      rcases hcur : d.cur with _ | dc
      · exact ⟨rfl, rfl⟩
      · rw [hcur] at hpart
        have hnone : dc.part = none := hpart
        refine ⟨by simp only [hnone, Option.isNone_none], ?_⟩
        simp only [hnone, if_neg (hroom dc hcur)]
    rw [hinto.2]
    exact pass_intoBuffer hbase hahead hopen hr (hok hinto.1)
  | @payload items rest a bs reqs hbase hin hcur hahead hlt hpos =>
    have hasked : d.asked = (encodeItem a).length - bs.length := by
      unfold asked
      rw [hcur]
      rfl
    rw [hasked] at hr
    have hpass : d.pass r = Dec.recvItem ⟨(items.length + (a :: rest).length : Nat), items,
        some ((encodeItem a).length, bs)⟩ (encodeItem a).length bs r d := by
      unfold Dec.pass
      rw [hcur]
      simp only [if_neg (hroom _ hcur)]
    rw [hpass]
    exact pass_intoItem hbase hin hahead hpos hr

/-- Everything has been read: everything has been handed over. -/
theorem Between.finished (h : Between base [] d) : d.cur = none ∧ d.pos = 0 ∧ d.handed = base := by
  cases h with
  | @payload items rest a bs reqs hbase hin hcur hahead hlt hpos =>
    have hlen := congrArg List.length hahead
    simp only [List.append_nil, List.length_append] at hlen
    omega
  | @line todo hbase hahead hopen hpos =>
    rw [List.append_nil] at hahead
    have hzero : d.pos = 0 := by
      rcases hpos with h0 | ⟨line, r, hbytes, hlt, -⟩
      · exact h0
      · have hlen := congrArg List.length hbytes
        simp only [List.append_nil, List.length_append, List.length_cons, RecvBuf.slice,
          List.drop_zero, List.length_take] at hlen
        omega
    rw [hzero, show d.buf.slice 0 0 = [] from rfl] at hahead
    generalize hnil : ([] : Bytes) = bytes at hahead
    generalize hcur : d.cur = cur at hahead
    have hlines : ∀ (mark : UInt8) (n : Nat) (r : Bytes), ([] : Bytes) ≠ markLine mark n ++ r :=
      fun mark n r => by simp [markLine]
    cases hahead with
    | @idle reqs hvalid =>
      rcases reqs with _ | ⟨args, reqs⟩
      · exact ⟨rfl, hzero, by rw [← hbase]; simp [encodedItems]⟩
      · rw [encode_cons, encodeRequest_line, List.append_assoc] at hnil
        exact absurd hnil (hlines _ _ _)
    | @inside items rest reqs hin =>
      rcases rest with _ | ⟨a, rest⟩
      · have hmore := hopen _ hcur
        simp at hmore
      · rw [List.map_cons, List.flatten_cons, encodeItem_line, List.append_assoc, List.append_assoc] at hnil
        exact absurd hnil (hlines _ _ _)

/-- A connection just accepted. -/
theorem between_fresh {reqs : List (List Bytes)} (hvalid : ∀ r ∈ reqs, ValidRequest r) :
    Between (encodedItems reqs) (encode reqs) fresh :=
  .line (List.nil_append _) (.idle hvalid) (fun dc hdc => by simp [fresh] at hdc) (Or.inl rfl)

end BoAtom.Dec
