import BoAtom.Mem.Framing

/-! # What the decoder accepts

    The language of the decoder on arbitrary bytes.  A header counts what
    `atoi` makes of its line; an item starts with `'$'`, and its line gives
    the number of bytes it takes, whatever they are.  Bytes in between may
    be dropped.  As long as every CR LF found has been received and no
    header with the count 0 is rejected (`ClearReads`), every command handed
    over was sent in this form. -/

namespace BoAtom

open CString Machine

/-! ## Section 1: The language -/

/-- `items` stand one after the other at the start of the first stream; the
    second one follows. -/
inductive Items : Bytes → List Bytes → Bytes → Prop where
  | nil (s : Bytes) : Items s [] s
  | cons {s s' s'' item : Bytes} {items : List Bytes} {q : Nat} (hmark : s.head? = some dollar)
      (hline : strstrCrlf s = some q) (hsize : (item.length : Int) = lineSize (s.take q))
      (hgt : 5 < item.length) (hsplit : s = item ++ s') (hrest : Items s' items s'') :
      Items s (item :: items) s''

/-- The stream holds these commands, in this order. -/
inductive Decoded : Bytes → List (List Bytes) → Prop where
  | done (s : Bytes) : Decoded s []
  | skip (b : UInt8) {s : Bytes} {cmds : List (List Bytes)} (h : Decoded s cmds) : Decoded (b :: s) cmds
  | command {s s' : Bytes} {items : List Bytes} {cmds : List (List Bytes)} {q : Nat}
      (hmark : s.head? = some star) (hline : strstrCrlf s = some q)
      (hcount : (items.length : Int) = lineCount (s.take q)) (hne : items ≠ [])
      (hitems : Items (s.drop (q + 2)) items s') (hrest : Decoded s' cmds) :
      Decoded s (items :: cmds)

theorem Decoded.skips {s : Bytes} {cmds : List (List Bytes)} (h : Decoded s cmds) (x : Bytes) :
    Decoded (x ++ s) cmds := by
  induction x with
  | nil => exact h
  | cons b x ih => exact .skip b ih

namespace Dec

/-! ## Section 2: Invariants of the decoder -/

/-- Every CR LF found at a point has been received, and the point does not
    reject a header with the count 0. -/
def ClearAt (total : Nat) (p : Point) : Prop :=
  (∀ start q, searchAt total p = some start → strstrCrlf (p.2.buf.bytes.drop start) = some q →
    start + q + 2 ≤ total) ∧ ¬ ZeroHeader total p

/-- The same for all points of a read. -/
def Clear (d : Dec) (r : ReadResult) : Prop :=
  d.intoBuffer = true → ∀ xs, r.bound (clientRecvCmdLength - d.pos) = .data xs →
    ∀ p, Moves (d.pos + xs.length) (0, d.read xs) p → ClearAt (d.pos + xs.length) p

/-- What comes next is decoded from its start. -/
def Dropped (d : Dec) : Prop :=
  ∀ x cmds, Decoded x cmds → Decoded (d.got ++ x) (d.handed ++ cmds)

/-- What comes next is decoded behind the `unread` bytes, and behind the
    items there are. -/
def Continues (d : Dec) (unread : Bytes) : Prop :=
  match d.cur with
  | none => ∀ x cmds, Decoded (unread ++ x) cmds → Decoded (d.got ++ x) (d.handed ++ cmds)
  | some dc => ∀ x more s' cmds, Items (unread ++ x) more s' →
      ((dc.items ++ more).length : Int) = dc.argc → dc.items ++ more ≠ [] → Decoded s' cmds →
      Decoded (d.got ++ x) (d.handed ++ (dc.items ++ more) :: cmds)

/-- Never more items than announced. -/
def Counted (d : Dec) : Prop :=
  ∀ dc, d.cur = some dc → dc.argc ≠ 0 ∧ (0 < dc.argc → (dc.items.length : Int) ≤ dc.argc)

/-- At a point of the loops. -/
structure Reading (total : Nat) (p : Point) : Prop where
  pre_le : p.1 ≤ total
  pos : p.2.pos = total
  whole : p.2.intoBuffer = true
  counted : p.2.Counted
  dropped : p.2.Dropped
  continues : p.2.Continues (p.2.buf.slice p.1 total)

/-- The first bytes of an item of `n` bytes, its line among them. -/
def BeginsItem (n : Nat) (bs : Bytes) : Prop :=
  bs.head? = some dollar ∧ 5 < n ∧ ∃ q, strstrCrlf bs = some q ∧ (n : Int) = lineSize (bs.take q)

/-- Between two reads. -/
structure Grammatical (d : Dec) : Prop where
  opened : d.Open
  counted : d.Counted
  dropped : d.Dropped
  line : d.intoBuffer = true → d.Continues (d.buf.slice 0 d.pos)
  part : ∀ dc n bs, d.cur = some dc → dc.part = some (n, bs) →
    d.Continues bs ∧ BeginsItem n bs ∧ bs.length < n

variable {total pre : Nat} {d d' : Dec} {p p' : Point} {unread : Bytes}

/-- Bytes may be dropped between commands. -/
theorem Continues.skip (h : d.Continues unread) (hcur : d.cur = none) (k : Nat) :
    d.Continues (unread.drop k) := by
  unfold Continues at h ⊢
  rw [hcur] at h ⊢
  intro x cmds hx
  apply h
  have := hx.skips (unread.take k)
  rwa [← List.append_assoc, List.take_append_drop] at this

/-- An item is taken. -/
theorem Continues.item {dc : DecCmd} {item rest : Bytes} {q : Nat} (h : d.Continues (item ++ rest))
    (hcur : d.cur = some dc) (hmark : (item ++ rest).head? = some dollar)
    (hline : strstrCrlf (item ++ rest) = some q)
    (hsize : (item.length : Int) = lineSize ((item ++ rest).take q)) (hgt : 5 < item.length) :
    Continues { d with cur := some { dc with items := dc.items ++ [item], part := none } } rest := by
  unfold Continues at h ⊢
  rw [hcur] at h
  simp only at h ⊢
  intro x more s' cmds hitems hcount hne hcmds
  rw [List.append_assoc, List.singleton_append] at hcount hne ⊢
  have hq : q ≤ (item ++ rest).length := by
    have := (strstrCrlf_eq_some hline).2.1
    omega
  refine h x (item :: more) s' cmds ?_ hcount hne hcmds
  refine .cons (q := q) ?_ (strstrCrlf_append hline x) ?_ hgt (List.append_assoc _ _ _) hitems
  · rcases item with _ | ⟨b, item⟩
    · simp at hgt
    · exact hmark
  · rw [List.take_append_of_le_length hq]
    exact hsize

/-- A command is handed over. -/
theorem Continues.complete {dc : DecCmd} (h : d.Continues unread) (hcounted : d.Counted)
    (hcur : d.cur = some dc) (hfull : dc.argc ≤ dc.items.length) (hpos : 0 ≤ dc.argc) :
    Continues { d with cur := none, handed := d.handed ++ [dc.items] } unread ∧
    Dropped { d with cur := none, handed := d.handed ++ [dc.items] } := by
  obtain ⟨hne, hle⟩ := hcounted dc hcur
  have hlen : (dc.items.length : Int) = dc.argc := le_antisymm (hle (by omega)) hfull
  have hcontinues : Continues { d with cur := none, handed := d.handed ++ [dc.items] } unread := by
    unfold Continues at h ⊢
    rw [hcur] at h
    simp only at h ⊢
    intro x cmds hcmds
    have hdone := h x [] (unread ++ x) cmds (.nil _) (by rw [List.append_nil]; exact hlen)
      (by
        rw [List.append_nil]
        intro hnil
        rw [hnil] at hlen
        exact hne hlen.symm) hcmds
    rw [List.append_nil] at hdone
    rwa [List.append_assoc, List.singleton_append]
  exact ⟨hcontinues, fun x cmds hcmds => hcontinues x cmds (hcmds.skips unread)⟩

/-! ## Section 3: One move -/

/-- The part of a line that lies in the buffer. -/
theorem line_in_slice {buf : RecvBuf} {start q : Nat} (hstart : start ≤ total)
    (htotal : total ≤ clientRecvCmdLength)
    (hq : strstrCrlf (buf.bytes.drop start) = some q) (hin : start + q + 2 ≤ total) :
    strstrCrlf (buf.slice start total) = some q ∧
    (buf.slice start total).take q = (buf.bytes.drop start).take q := by
  have hlen : (buf.slice start total).length = total - start := buf.length_slice htotal
  rw [buf.slice_append_drop hstart] at hq ⊢
  exact ⟨strstrCrlf_of_append hq (by omega), (List.take_append_of_le_length (by omega)).symm⟩

theorem head_slice {buf : RecvBuf} {start : Nat} {b : UInt8} (hlt : start < total)
    (hb : buf.bytes[start]? = some b) : (buf.slice start total).head? = some b := by
  rw [List.head?_eq_getElem?]
  unfold RecvBuf.slice
  rw [List.getElem?_drop, List.getElem?_take_of_lt (by omega)]
  exact hb

theorem Reading.move (h : Reading total p) (htotal : total ≤ clientRecvCmdLength)
    (hclear : ClearAt total p) (hm : Move total p p') : Reading total p' := by
  cases hm with
  | @header pre stop num d hcur hpre hscan =>
    -- junk is skipped up to the `*`; then the count and the end of the line
    obtain ⟨i, q, hi, hstar, hq, rfl, rfl, hne⟩ := scanHeader_count_line hpre hscan
    have hsearch : searchAt total (pre, d) = some (pre + i) := by simp [searchAt, hcur, hpre, hi]
    have hin := hclear.1 _ q hsearch hq
    obtain ⟨hline, htake⟩ := line_in_slice (by omega) htotal hq hin
    have hlen : (d.buf.slice (pre + i) total).length = total - (pre + i) := d.buf.length_slice htotal
    have hskip := h.continues.skip hcur i
    rw [slice_drop] at hskip
    refine ⟨hin, h.pos, rfl, ?_, h.dropped, ?_⟩
    · intro dc hdc
      simp only [Option.some.injEq] at hdc
      subst hdc
      exact ⟨hne, fun hpos => hpos.le⟩
    · show ∀ x more s' cmds, Items ((d.buf.write _ [0]).slice (pre + i + q + 2) total ++ x) more s' → _
      -- the byte set to zero lies behind the line, outside of what is still to be read
      rw [slice_write_before (by omega) (by omega)]
      intro x more s' cmds hitems hcount hmore hcmds
      unfold Continues at hskip
      simp only [hcur] at hskip
      apply hskip
      refine .command (q := q) ?_ (strstrCrlf_append hline x) ?_ hmore ?_ hcmds
      · have hhead : (d.buf.slice (pre + i) total).head? = some star := head_slice (by omega) hstar
        rcases hs : d.buf.slice (pre + i) total with _ | ⟨b, s⟩
        · rw [hs] at hhead
          simp at hhead
        · rw [hs] at hhead
          exact hhead
      · rw [List.take_append_of_le_length (by omega), htake]
        exact hcount
      · rw [List.drop_append_of_le_length (by omega), slice_drop, ← Nat.add_assoc]
        exact hitems
  | @item pre num d dc hcur hmore hlt hscan hfit =>
    -- the size line and the item are in the buffer whole
    obtain ⟨hpre, hdollar, q, hq, hgt, hnum⟩ := scanItem_size_line hscan
    have hsearch : searchAt total (pre, d) = some pre := by
      simp [searchAt, hcur, hpre, hmore, hdollar]
    have hin := hclear.1 _ q hsearch hq
    obtain ⟨hline, htake⟩ := line_in_slice hpre.le htotal hq hin
    have hsplit : d.buf.slice pre (pre + num) ++ d.buf.slice (pre + num) total =
        d.buf.slice pre total := by
      rw [← slice_take num hfit, ← slice_drop, List.take_append_drop]
    have hlen : (d.buf.slice pre (pre + num)).length = num := by
      rw [d.buf.length_slice (by omega)]
      omega
    have hcontinues := h.continues
    simp only [← hsplit] at hcontinues
    obtain ⟨hne, hle⟩ := h.counted dc hcur
    refine ⟨hfit, h.pos, rfl, ?_, h.dropped, hcontinues.item (q := q) hcur ?_ ?_ ?_ (by omega)⟩
    · intro dc' hdc'
      simp only [Option.some.injEq] at hdc'
      subst hdc'
      refine ⟨hne, fun hpos => ?_⟩
      simp only [List.length_append, List.length_singleton]
      omega
    · rw [hsplit]
      exact head_slice hpre hdollar
    · rw [hsplit]
      exact hline
    · rw [hsplit, htake, hlen]
      exact hnum
  | @complete pre d dc hcur hfull hpos =>
    obtain ⟨hcontinues, hdropped⟩ := h.continues.complete h.counted hcur hfull hpos
    exact ⟨h.pre_le, h.pos, rfl, fun dc' hdc' => by simp at hdc', hdropped, hcontinues⟩

theorem Reading.moves (h : Reading total p) (htotal : total ≤ clientRecvCmdLength)
    (hclear : ∀ p', Moves total p p' → ClearAt total p') (hm : Moves total p p') :
    Reading total p' := by
  induction hm with
  | refl => exact h
  | tail hm hmove ih => exact ih.move htotal (hclear _ hm) hmove

/-! ## Section 4: The ways out -/

theorem part_of_intoBuffer {dc : DecCmd} (h : d.intoBuffer = true) (hcur : d.cur = some dc) :
    dc.part = none := by
  unfold intoBuffer at h
  rw [hcur] at h
  simpa using h

/-- Nothing is kept. -/
theorem grammatical_of_dropped (hcur : d.cur = none) (hpos : d.pos = 0) (h : d.Dropped) :
    d.Grammatical := by
  have hnone : ∀ dc, d.cur ≠ some dc := by simp [hcur]
  refine ⟨fun dc hdc => absurd hdc (hnone dc), fun dc hdc => absurd hdc (hnone dc), h, fun _ => ?_,
    fun dc n bs hdc => absurd hdc (hnone dc)⟩
  unfold Continues
  rw [hcur, hpos]
  exact h

theorem grammatical_fresh : fresh.Grammatical := grammatical_of_dropped rfl rfl fun _ _ h => h

theorem scanHeader_partLine_start {buf : RecvBuf} {start : Nat} (hpre : pre < total)
    (h : scanHeader buf total pre = .partLine start) : ∃ i, start = pre + i ∧ pre + i < total := by
  rcases hi : skipToStar (buf.slice pre total) with _ | i
  · unfold scanHeader at h
    rw [if_pos hpre, hi] at h
    simp at h
  have hlt : i < (buf.slice pre total).length :=
    (List.getElem?_eq_some_iff.mp (skipToStar_spec hi)).1
  have hin : pre + i < total := by
    unfold RecvBuf.slice at hlt
    rw [List.length_drop, List.length_take] at hlt
    omega
  rcases hq : strstrCrlf (buf.bytes.drop (pre + i)) with _ | q
  · rw [scanHeader_partLine hpre hi hq, HeaderScan.partLine.injEq] at h
    exact ⟨i, h.symm, hin⟩
  · rw [(scanHeader_eq hpre hi hq).2] at h
    split at h <;> simp at h

theorem slice_of_scanItem_empty {buf : RecvBuf} (h : scanItem buf total pre = .empty) :
    buf.slice pre total = [] := by
  have hpre : total ≤ pre := by
    unfold scanItem at h
    by_contra hlt
    rw [if_neg hlt] at h
    split at h
    · simp at h
    · split at h
      · simp at h
      · simp only at h
        split at h <;> simp at h
  unfold RecvBuf.slice
  rw [List.drop_of_length_le]
  rw [List.length_take]
  omega

/-- The rest of a line is kept. -/
theorem Reading.keepFrom {start : Nat} (h : Reading total (pre, d))
    (htotal : total ≤ clientRecvCmdLength) (hstart : start ≤ total) (hopen : (d.keepFrom total start).Open)
    (hcontinues : d.Continues (d.buf.slice start total)) : (d.keepFrom total start).Grammatical := by
  obtain ⟨hpos, hslice, hcur, hhanded⟩ := keepFrom_slice h.pos hstart htotal
  have hgot := keepFrom_got d total start
  refine ⟨hopen, fun dc hdc => ?_, fun x cmds hx => ?_, fun _ => ?_, fun dc n bs hdc hp => ?_⟩
  · exact h.counted dc (hcur ▸ hdc)
  · rw [hgot, hhanded]
    exact h.dropped x cmds hx
  · unfold Continues at hcontinues ⊢
    rw [hcur, hgot, hhanded, hpos, hslice]
    exact hcontinues
  · rw [part_of_intoBuffer h.whole (hcur ▸ hdc)] at hp
    simp at hp

/-- A call that returns 0 leaves the state fit for the next one; after
    another code there is a command to free. -/
theorem Reading.stop {code : Int} (h : Reading total p) (htotal : total ≤ clientRecvCmdLength)
    (hclear : ClearAt total p) (hs : Stop total p code d') :
    code = 0 ∧ d'.Grammatical ∨ code < 0 ∧ d'.cur.isSome ∧ d'.Dropped := by
  have hopen := hs.open
  cases hs with
  | done hcur hpre => exact Or.inl ⟨rfl, grammatical_of_dropped hcur rfl h.dropped⟩
  | skipped hcur hpre hscan => exact Or.inl ⟨rfl, grammatical_of_dropped hcur rfl h.dropped⟩
  -- a header of zero items is what `ClearAt` rules out
  | zero hcur hpre hscan => exact absurd ⟨hcur, hpre, _, hscan⟩ hclear.2
  -- rejected, and the command under way is dropped
  | noDollar hcur hmore hscan | short hcur hmore hscan =>
    exact Or.inr ⟨by decide, by rw [hcur]; rfl, h.dropped⟩
  | headerLine hcur hpre hscan =>
    -- the header's line is still open: the buffer is kept from the `*` on
    obtain ⟨i, rfl, hi⟩ := scanHeader_partLine_start hpre hscan
    have hskip := h.continues.skip hcur i
    rw [slice_drop] at hskip
    exact Or.inl ⟨rfl, h.keepFrom htotal hi.le hopen hskip⟩
  | @empty pre d dc hcur hmore hscan =>
    left
    have hcontinues := h.continues
    simp only [slice_of_scanItem_empty hscan] at hcontinues
    refine ⟨rfl, hopen, h.counted, h.dropped, fun _ => hcontinues, fun dc' n bs hdc' hp => ?_⟩
    rw [part_of_intoBuffer h.whole hdc'] at hp
    simp at hp
  | itemLine hcur hmore hscan => exact Or.inl ⟨rfl, h.keepFrom htotal h.pre_le hopen h.continues⟩
  | @part pre num d dc hcur hmore hlt hscan hfit =>
    left
    -- the item goes on past the buffer and gets a block of its own
    obtain ⟨hpre, hdollar, q, hq, hgt, hnum⟩ := scanItem_size_line hscan
    have hsearch : searchAt total (pre, d) = some pre := by
      simp [searchAt, hcur, hpre, hmore, hdollar]
    obtain ⟨hline, htake⟩ := line_in_slice hpre.le htotal hq (hclear.1 _ q hsearch hq)
    have hlen : (d.buf.slice pre total).length = total - pre := d.buf.length_slice htotal
    refine ⟨rfl, hopen, ?_, h.dropped, fun hinto => ?_, ?_⟩
    · intro dc' hdc'
      simp only [Option.some.injEq] at hdc'
      subst hdc'
      exact h.counted dc hcur
    · simp [intoBuffer] at hinto
    · intro dc' n bs hdc' hp
      simp only [Option.some.injEq] at hdc'
      subst hdc'
      obtain ⟨rfl, rfl⟩ := Prod.mk.inj (Option.some.inj hp)
      have hcontinues := h.continues
      unfold Continues at hcontinues ⊢
      rw [hcur] at hcontinues
      exact ⟨hcontinues, ⟨head_slice hpre hdollar, by omega, q, hline, by rw [htake]; exact hnum⟩, by omega⟩

/-! ## Section 5: One pass -/

theorem Continues.read (h : d.Continues unread) (xs : Bytes) : (d.read xs).Continues (unread ++ xs) := by
  unfold Continues at h ⊢
  show match d.cur with | none => _ | some dc => _
  rcases hcur : d.cur with _ | dc
  · rw [hcur] at h
    intro x cmds hx
    rw [List.append_assoc] at hx
    have hgot := h (xs ++ x) cmds hx
    rwa [← List.append_assoc] at hgot
  · rw [hcur] at h
    intro x more s' cmds hitems hcount hne hcmds
    rw [List.append_assoc] at hitems
    have hgot := h (xs ++ x) more s' cmds hitems hcount hne hcmds
    rwa [← List.append_assoc] at hgot

theorem Dropped.read (h : d.Dropped) (xs : Bytes) : (d.read xs).Dropped := by
  intro x cmds hx
  have hgot := h (xs ++ x) cmds (hx.skips xs)
  rwa [← List.append_assoc] at hgot

theorem BeginsItem.append {n : Nat} {bs : Bytes} (h : BeginsItem n bs) (xs : Bytes) :
    BeginsItem n (bs ++ xs) := by
  obtain ⟨hmark, hgt, q, hline, hsize⟩ := h
  have hq := (strstrCrlf_eq_some hline).2.1
  refine ⟨?_, hgt, q, strstrCrlf_append hline xs, ?_⟩
  · rcases bs with _ | ⟨b, bs⟩
    · simp at hmark
    · exact hmark
  · rwa [List.take_append_of_le_length (by omega)]

/-- The point at which the loops start. -/
theorem Grammatical.start {xs : Bytes} (h : d.Grammatical) (hinto : d.intoBuffer = true)
    (htotal : d.pos + xs.length ≤ clientRecvCmdLength) :
    Reading (d.pos + xs.length) (0, d.read xs) := by
  have hslice : (d.read xs).buf.slice 0 (d.pos + xs.length) = d.buf.slice 0 d.pos ++ xs :=
    Memory.take_overlay (by rw [d.buf.length_eq]; exact htotal)
  refine ⟨Nat.zero_le _, rfl, hinto, h.counted, h.dropped.read xs, ?_⟩
  show (d.read xs).Continues ((d.read xs).buf.slice 0 _)
  rw [hslice]
  exact (h.line hinto).read xs

theorem Grammatical.recvHeader {r : ReadResult} {e : PassEnd} (h : d.Grammatical)
    (hinto : d.intoBuffer = true) (hclear : d.Clear r) (hpass : d.recvHeader r = .ok (e, d')) :
    d'.Grammatical := by
  rcases hr : r.bound (clientRecvCmdLength - d.pos) with xs | _ | _ | _
  · obtain ⟨hpos, htotal⟩ := recvHeader_total hr
    have hopen : (d.read xs).Open := h.opened
    have hreading := h.start hinto htotal
    have ho := check_outcome hpos htotal hopen
    rw [recvHeader_data hr] at hpass
    generalize check (d.read xs) (d.pos + xs.length) = out at ho hpass
    cases ho with
    | fault hmoves hfault => simp [Except.bind] at hpass
    | @stop p' code d₁ hmoves hstop =>
      have hclear' := hclear hinto xs hr
      rcases (hreading.moves htotal hclear' hmoves).stop htotal (hclear' p' hmoves) hstop with
        ⟨rfl, hgram⟩ | ⟨hneg, hsome, hdropped⟩
      · simp only [Except.bind, lt_irrefl, if_false, Except.ok.injEq, Prod.mk.injEq] at hpass
        exact hpass.2 ▸ hgram
      · -- the command is freed, and the next read starts anew
        obtain ⟨dc, hcur⟩ := Option.isSome_iff_exists.mp hsome
        simp only [Except.bind, hneg, if_true, reject, hcur] at hpass
        rcases hfree : freeable dc with f | u
        · simp [hfree] at hpass
        · simp only [hfree, Except.ok.injEq, Prod.mk.injEq] at hpass
          rw [← hpass.2]
          exact grammatical_of_dropped rfl rfl hdropped
  all_goals
    simp only [Dec.recvHeader, hr, Except.ok.injEq, Prod.mk.injEq] at hpass
    exact hpass.2 ▸ h

/-- The last byte of an item may complete its command. -/
theorem grammatical_of_completeIfFull {dc : DecCmd} (hfull : d.completeIfFull = .ok d')
    (hcur : d.cur = some dc) (hpart : dc.part = none) (hpos : d.pos = 0) (hcounted : d.Counted)
    (hdropped : d.Dropped) (hcontinues : d.Continues []) : d'.Grammatical := by
  have hopen := completeIfFull_open hfull
  simp only [completeIfFull, hcur] at hfull
  by_cases hge : (dc.items.length : Int) ≥ dc.argc
  · rw [if_pos hge, complete] at hfull
    split at hfull
    · simp at hfull
    · next hneg =>
      rw [Except.ok.injEq] at hfull
      subst hfull
      exact grammatical_of_dropped rfl hpos (hcontinues.complete hcounted hcur hge (Int.not_lt.mp hneg)).2
  · rw [if_neg hge, Except.ok.injEq] at hfull
    subst hfull
    refine ⟨hopen, hcounted, hdropped, fun _ => ?_, fun dc' n bs hdc' hp => ?_⟩
    · rw [hpos]
      exact hcontinues
    · rw [hcur, Option.some.injEq] at hdc'
      subst hdc'
      rw [hpart] at hp
      simp at hp

theorem Grammatical.recvItem {r : ReadResult} {e : PassEnd} {dc : DecCmd} {n : Nat} {bs : Bytes}
    (h : d.Grammatical) (hcur : d.cur = some dc) (hpart : dc.part = some (n, bs))
    (hpass : Dec.recvItem dc n bs r d = .ok (e, d')) : d'.Grammatical := by
  obtain ⟨hcontinues, hbegins, hlt⟩ := h.part dc n bs hcur hpart
  -- the bytes go straight into the open item, of which `n - bs.length` are missing
  have hmore := h.opened dc hcur
  obtain ⟨hne, hle⟩ := h.counted dc hcur
  rcases hr : r.bound (n - bs.length) with xs | _ | _ | _
  · have hxs := (bound_data hr).2
    have hread := hcontinues.read xs
    simp only [Dec.recvItem, hr, DecCmd.extend] at hpass
    by_cases hfull : bs.length + xs.length ≥ n
    · -- the item is there
      have hlen : (bs ++ xs).length = n := by
        rw [List.length_append]
        omega
      obtain ⟨hmark, hgt, q, hline, hsize⟩ := hbegins.append xs
      rw [← List.append_nil (bs ++ xs)] at hread
      have hmark' : ((bs ++ xs) ++ []).head? = some dollar := by rwa [List.append_nil]
      have hline' : strstrCrlf ((bs ++ xs) ++ []) = some q := by rwa [List.append_nil]
      have hsize' : ((bs ++ xs).length : Int) = lineSize (((bs ++ xs) ++ []).take q) := by
        rwa [List.append_nil, hlen]
      have hitem := hread.item hcur hmark' hline' hsize' (by omega)
      rw [if_pos hfull, if_pos hfull] at hpass
      rcases hc : completeIfFull ({ d with
          pos := 0, cur := some { dc with items := dc.items ++ [bs ++ xs], part := none },
          got := d.got ++ xs } : Dec) with f | d₂
      · rw [hc] at hpass
        simp [Except.bind] at hpass
      · rw [hc] at hpass
        simp only [Except.bind, Except.ok.injEq, Prod.mk.injEq] at hpass
        rw [← hpass.2]
        refine grammatical_of_completeIfFull hc rfl rfl rfl ?_ (h.dropped.read xs) hitem
        intro dc' hdc'
        simp only [Option.some.injEq] at hdc'
        subst hdc'
        refine ⟨hne, fun hpos => ?_⟩
        simp only [List.length_append, List.length_singleton]
        omega
    · -- more of it is to come
      rw [if_neg hfull, if_neg hfull] at hpass
      simp only [completeIfFull, not_le.mpr hmore, if_false, Except.bind, Except.ok.injEq,
        Prod.mk.injEq] at hpass
      rw [← hpass.2]
      refine ⟨fun dc' hdc' => ?_, fun dc' hdc' => ?_, h.dropped.read xs, fun hinto => ?_,
        fun dc' n' bs' hdc' hp => ?_⟩
      · simp only [Option.some.injEq] at hdc'
        subst hdc'
        exact hmore
      · simp only [Option.some.injEq] at hdc'
        subst hdc'
        exact ⟨hne, hle⟩
      · simp [intoBuffer] at hinto
      · simp only [Option.some.injEq] at hdc'
        subst hdc'
        obtain ⟨rfl, rfl⟩ := Prod.mk.inj (Option.some.inj hp)
        refine ⟨?_, hbegins.append xs, ?_⟩
        · unfold Continues at hread ⊢
          simp only [Dec.read, hcur] at hread
          exact hread
        · rw [List.length_append]
          omega
  -- nothing was read
  all_goals
    simp only [Dec.recvItem, hr, Except.ok.injEq, Prod.mk.injEq] at hpass
    exact hpass.2 ▸ h

/-- **A pass.** -/
theorem Grammatical.pass {r : ReadResult} {e : PassEnd} (h : d.Grammatical) (hclear : d.Clear r)
    (hpass : d.pass r = .ok (e, d')) : d'.Grammatical := by
  unfold Dec.pass at hpass
  rcases hcur : d.cur with _ | dc
  · rw [hcur] at hpass
    exact h.recvHeader (by simp [intoBuffer, hcur]) hclear hpass
  · simp only [hcur] at hpass
    split at hpass
    · simp at hpass
    · rcases hpart : dc.part with _ | ⟨n, bs⟩
      · simp only [hpart] at hpass
        exact h.recvHeader (by simp [intoBuffer, hcur, hpart]) hclear hpass
      · simp only [hpart] at hpass
        exact h.recvItem hcur hpart hpass

theorem Grammatical.step {r : ReadResult} {e : PassEnd} (h : d.Grammatical) (hclear : d.Clear r)
    (hstep : d.step r = .ok (e, d')) : d'.Grammatical := by
  unfold Dec.step at hstep
  rcases hpass : d.pass r with f | ⟨e₁, d₁⟩
  · rw [hpass] at hstep
    simp [Except.bind] at hstep
  · have hgram := h.pass hclear hpass
    rw [hpass] at hstep
    simp only [Except.bind] at hstep
    cases e₁ with
    | disconnect =>
      obtain ⟨-, -, hsame⟩ := ok_of_map hstep
      exact (Prod.mk.inj hsame).2 ▸ hgram
    | again | returned =>
      rw [Except.ok.injEq] at hstep
      exact (Prod.mk.inj hstep).2 ▸ hgram

end Dec

/-! ## Section 6: Runs -/

/-- The reads of `me` find received line ends only, and none of them rejects
    a header with the count 0. -/
def ClearReads (me : ClientId) (s : Server) : Event → Prop
  | .recv i r => i = me → (s.dec me).Clear r
  | _ => True

/-- **Every completed command was sent in the decoder's language**, and in
    this order: `'*'` and a line that `atoi` reads as the number of items,
    and so many items, each as long as its line says. -/
theorem completed_commands_were_sent (env : Env) (es : List Event) (s : Server) (me : ClientId)
    (hclear : Along (step env) (ClearReads me) initServer es)
    (hrun : run (step env) initServer es = .ok s) :
    Decoded (receivedBy me s.world.trace) (handedBy me s.world.trace) := by
  have hlog : ∀ d : Dec, d.Grammatical → ∀ x cmds, Decoded x cmds →
      Decoded (d.got ++ x) (d.handed ++ cmds) := fun d h => h.dropped
  have hguarded : Guarded env me Dec.Grammatical
      (fun got handed => ∀ x cmds, Decoded x cmds → Decoded (got ++ x) (handed ++ cmds)) s := by
    apply along_invariant _ (guarded_init me hlog Dec.grammatical_fresh) hclear hrun
    intro s e s' hs hclear hstep
    apply hs.step hlog Dec.grammatical_fresh _ hstep
    rintro r p d' rfl - hgram hdec
    exact hgram.step (hclear rfl) hdec
  have hdone := hguarded.log [] [] (.done [])
  rwa [List.append_nil, List.append_nil, Server.dec_got, Server.dec_handed] at hdone

/-- `"*1\r\n$3\r\nabcXY"`: an item with two other bytes where its CR LF
    should be. -/
def unterminated : Bytes := [42, 49, 13, 10, 36, 51, 13, 10, 97, 98, 99, 88, 89]

theorem Dec.clearAt_of {total start q : Nat} {p p' : Dec.Point} (hm : Dec.Move total p p')
    (hsearch : Dec.searchAt total p = some start)
    (hq : strstrCrlf (p.2.buf.bytes.drop start) = some q) (hin : start + q + 2 ≤ total) :
    Dec.ClearAt total p := by
  refine ⟨fun start' q' hsearch' hq' => ?_, fun hzero => hzero.no_move hm⟩
  cases hsearch.symm.trans hsearch'
  cases hq.symm.trans hq'
  exact hin

theorem Dec.clearAt_of_none {total : Nat} {p : Dec.Point} (hsearch : Dec.searchAt total p = none)
    (hzero : ¬ Dec.ZeroHeader total p) : Dec.ClearAt total p := by
  refine ⟨fun start q hstart => ?_, hzero⟩
  rw [hsearch] at hstart
  simp at hstart

/-- All points of the loops are clear. -/
theorem clear_unterminated : Dec.fresh.Clear (.data unterminated) := by
  intro _ xs hxs p hm
  have hbound : (ReadResult.data unterminated).bound clientRecvCmdLength = .data unterminated := by
    decide
  cases hbound.symm.trans hxs
  have hscan : scanHeader (Dec.fresh.read unterminated).buf 13 0 = .count 1 2 := by decide +kernel
  have hheader : Dec.Move 13 (0, Dec.fresh.read unterminated) _ := .header rfl (by decide) hscan
  rcases hm.next hheader with rfl | hm
  · have hstart : Dec.searchAt 13 (0, Dec.fresh.read unterminated) = some 0 := by decide +kernel
    have hfound : strstrCrlf ((Dec.fresh.read unterminated).buf.bytes.drop 0) = some 2 := by
      decide +kernel
    exact Dec.clearAt_of hheader hstart hfound (by decide)
  have hscan' : scanItem ((Dec.fresh.read unterminated).buf.write 2 [0]) 13 4 = .size 9 := by
    decide +kernel
  have hitem : Dec.Move 13 (4, { Dec.fresh.read unterminated with
      buf := (Dec.fresh.read unterminated).buf.write 2 [0], cur := some (.start 1) }) _ :=
    .item rfl (by decide) (by decide) hscan' (by decide)
  rcases hm.next hitem with rfl | hm
  · have hfound : strstrCrlf (((Dec.fresh.read unterminated).buf.write 2 [0]).bytes.drop 4) = some 2 := by
      decide +kernel
    exact Dec.clearAt_of hitem (by decide +kernel) hfound (by decide)
  have hcomplete : Dec.Move 13 (13, { Dec.fresh.read unterminated with
      buf := (Dec.fresh.read unterminated).buf.write 2 [0]
      cur := some ⟨1, [unterminated.drop 4], none⟩ }) _ :=
    .complete rfl (by decide) (by decide)
  rcases hm.next hcomplete with rfl | hm
  · exact Dec.clearAt_of_none (by decide +kernel) fun hzero => hzero.no_move hcomplete
  -- nothing is left
  have hlast : ∀ q, ¬ Dec.Move 13 (13, { Dec.fresh.read unterminated with
      buf := (Dec.fresh.read unterminated).buf.write 2 [0], handed := [[unterminated.drop 4]] }) q := by
    intro q hq
    cases hq with
    | header _ hpre => simp at hpre
    | item hcur | complete hcur => simp [Dec.read, Dec.fresh] at hcur
  rcases hm.cases_head with rfl | ⟨q, hq, -⟩
  · exact Dec.clearAt_of_none (by decide +kernel) fun hzero => absurd hzero.2.1 (lt_irrefl _)
  · exact absurd hq (hlast q)

/-- The command in `"*1\r\n$3\r\nabcXY"` was sent in the language. -/
theorem completed_commands_were_sent_unterminated :
    ∃ s, run (step plainEnv) initServer [.connect 5 true, .recv 0 (.data unterminated)] = .ok s ∧
      Decoded (receivedBy 0 s.world.trace) (handedBy 0 s.world.trace) ∧
      handedBy 0 s.world.trace = [[unterminated.drop 4]] := by
  obtain ⟨s, hs, hhanded⟩ := ok_of_map (show (run (step plainEnv) initServer
      [.connect 5 true, .recv 0 (.data unterminated)]).map (fun s => handedBy 0 s.world.trace) =
      .ok [[unterminated.drop 4]] by decide +kernel)
  have hclear : Along (step plainEnv) (ClearReads 0) initServer
      [.connect 5 true, .recv 0 (.data unterminated)] := by
    refine ⟨trivial, fun s₂ hs₂ => ⟨fun _ => ?_, fun _ _ => trivial⟩⟩
    have hfresh : s₂.dec 0 = .fresh := (accepted (run_nil initServer) hs₂).2
    rw [hfresh]
    exact clear_unterminated
  exact ⟨s, hs, completed_commands_were_sent plainEnv _ s 0 hclear hs, hhanded⟩

/-- Its item is executed, and is no `"$%d\r\n%s\r\n"`. -/
theorem unterminated_item_is_executed :
    ∃ s, run (step plainEnv) initServer [.connect 5 true, .recv 0 (.data unterminated)] = .ok s ∧
      receivedBy 0 s.world.trace = unterminated ∧
      handedBy 0 s.world.trace = [[unterminated.drop 4]] ∧
      ∀ payload, encodeItem payload ≠ unterminated.drop 4 := by
  obtain ⟨s, hs, hlog⟩ := ok_of_map (show (run (step plainEnv) initServer
      [.connect 5 true, .recv 0 (.data unterminated)]).map
      (fun s => (receivedBy 0 s.world.trace, handedBy 0 s.world.trace)) =
      .ok (unterminated, [[unterminated.drop 4]]) by decide +kernel)
  obtain ⟨hgot, hhanded⟩ := Prod.mk.inj hlog
  refine ⟨s, hs, hgot, hhanded, fun payload heq => ?_⟩
  have hlast := congrArg List.getLast? heq
  have hend : encodeItem payload =
      (dollar :: decimal payload.length ++ CR :: LF :: (payload ++ [CR])) ++ [LF] := by
    simp [encodeItem]
  rw [hend, List.getLast?_append, List.getLast?_singleton, Option.some_or] at hlast
  exact absurd hlast (by decide)

end BoAtom
