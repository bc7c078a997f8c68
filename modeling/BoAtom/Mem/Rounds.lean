import BoAtom.Mem.Decoder
import Mathlib.Logic.Relation

/-! # The decoder's loops as moves

    `check` is two nested loops with nine ways out.  Here they are one
    relation: a point is a position in the buffer with the decoder state
    there, `Move` goes from one point to the next, `Stop` is a way out and
    `Faulty` a fault.  `check_outcome` says that a call makes moves until it
    stops or faults; what holds of every move then holds of every call. -/

namespace BoAtom.Dec

open CString Machine Relation

/-! ## Section 1: Points and moves -/

/-- Where the decoder looks next, and its state there. -/
abbrev Point : Type := Nat × Dec

variable {total pre num stop : Nat} {d d' : Dec} {dc : DecCmd} {p p' : Point}

/-- One turn of a loop that does not leave it. -/
inductive Move (total : Nat) : Point → Point → Prop where
  /-- A header is accepted. -/
  | header {pre stop : Nat} {num : Int} {d : Dec} (hcur : d.cur = none) (hpre : pre < total)
      (hscan : scanHeader d.buf total pre = .count num stop) :
      Move total (pre, d)
        (stop + 2, { d with buf := d.buf.write stop [0], cur := some (.start num) })
  /-- An item lies in the buffer as a whole. -/
  | item {pre num : Nat} {d : Dec} {dc : DecCmd} (hcur : d.cur = some dc)
      (hmore : (dc.items.length : Int) < dc.argc) (hlt : dc.items.length < cmdArgsMax)
      (hscan : scanItem d.buf total pre = .size num) (hfit : pre + num ≤ total) :
      Move total (pre, d)
        (pre + num, { d with cur := some { dc with
          items := dc.items ++ [d.buf.slice pre (pre + num)], part := none } })
  /-- The command is complete and handed over. -/
  | complete {pre : Nat} {d : Dec} {dc : DecCmd} (hcur : d.cur = some dc)
      (hfull : dc.argc ≤ dc.items.length) (hpos : 0 ≤ dc.argc) :
      Move total (pre, d) (pre, { d with cur := none, handed := d.handed ++ [dc.items] })

/-- A way out: the code returned, and the state then. -/
inductive Stop (total : Nat) : Point → Int → Dec → Prop where
  | done {pre : Nat} {d : Dec} (hcur : d.cur = none) (hpre : total ≤ pre) :
      Stop total (pre, d) 0 { d with pos := 0 }
  | skipped {pre : Nat} {d : Dec} (hcur : d.cur = none) (hpre : pre < total)
      (hscan : scanHeader d.buf total pre = .skipped) :
      Stop total (pre, d) 0 { d with pos := 0 }
  | headerLine {pre pre' : Nat} {d : Dec} (hcur : d.cur = none) (hpre : pre < total)
      (hscan : scanHeader d.buf total pre = .partLine pre') :
      Stop total (pre, d) 0 (d.keepFrom total pre')
  | zero {pre stop : Nat} {d : Dec} (hcur : d.cur = none) (hpre : pre < total)
      (hscan : scanHeader d.buf total pre = .zero stop) :
      Stop total (pre, d) (-1) { d with buf := d.buf.write stop [0] }
  | empty {pre : Nat} {d : Dec} {dc : DecCmd} (hcur : d.cur = some dc)
      (hmore : (dc.items.length : Int) < dc.argc) (hscan : scanItem d.buf total pre = .empty) :
      Stop total (pre, d) 0 { d with pos := 0 }
  | noDollar {pre : Nat} {d : Dec} {dc : DecCmd} (hcur : d.cur = some dc)
      (hmore : (dc.items.length : Int) < dc.argc) (hscan : scanItem d.buf total pre = .noDollar) :
      Stop total (pre, d) (-1) d
  | itemLine {pre : Nat} {d : Dec} {dc : DecCmd} (hcur : d.cur = some dc)
      (hmore : (dc.items.length : Int) < dc.argc) (hscan : scanItem d.buf total pre = .partLine) :
      Stop total (pre, d) 0 (d.keepFrom total pre)
  | short {pre : Nat} {d : Dec} {dc : DecCmd} (hcur : d.cur = some dc)
      (hmore : (dc.items.length : Int) < dc.argc) (hscan : scanItem d.buf total pre = .short) :
      Stop total (pre, d) (-1) d
  | part {pre num : Nat} {d : Dec} {dc : DecCmd} (hcur : d.cur = some dc)
      (hmore : (dc.items.length : Int) < dc.argc) (hlt : dc.items.length < cmdArgsMax)
      (hscan : scanItem d.buf total pre = .size num) (hfit : total < pre + num) :
      Stop total (pre, d) 0
        { d with pos := 0, cur := some { dc with part := some (num, d.buf.slice pre total) } }

/-- An index out of range. -/
inductive Faulty (total : Nat) : Point → Fault → Prop where
  | item {pre num : Nat} {d : Dec} {dc : DecCmd} (hcur : d.cur = some dc)
      (hmore : (dc.items.length : Int) < dc.argc) (hge : cmdArgsMax ≤ dc.items.length)
      (hscan : scanItem d.buf total pre = .size num) :
      Faulty total (pre, d) (.cmdIndex dc.items.length)
  | complete {pre : Nat} {d : Dec} {dc : DecCmd} (hcur : d.cur = some dc)
      (hfull : dc.argc ≤ dc.items.length) (hneg : dc.argc < 0) :
      Faulty total (pre, d) (.cmdIndex (dc.argc - 1))

abbrev Moves (total : Nat) : Point → Point → Prop := ReflTransGen (Move total)

/-- What a step keeps, a sequence of them keeps. -/
theorem Moves.invariant {I : Point → Prop} (hstep : ∀ p p', I p → Move total p p' → I p')
    (h : Moves total p p') (hI : I p) : I p' := by
  induction h with
  | refl => exact hI
  | tail _ hmove ih => exact hstep _ _ ih hmove

/-! ## Section 2: Moves are deterministic -/

/-- The two kinds of points at which input is rejected. -/
def ZeroHeader (total : Nat) (p : Point) : Prop :=
  p.2.cur = none ∧ p.1 < total ∧ ∃ stop, scanHeader p.2.buf total p.1 = .zero stop

def BadItem (total : Nat) (p : Point) : Prop :=
  ∃ dc, p.2.cur = some dc ∧ (dc.items.length : Int) < dc.argc ∧
    (scanItem p.2.buf total p.1 = .noDollar ∨ scanItem p.2.buf total p.1 = .short)

theorem Move.deterministic : Relator.RightUnique (Move total) := by
  intro p p₁ p₂ h₁ h₂
  -- the three moves need different decoders: no command, an open one, a full one
  cases h₁ with
  | header hcur hpre hscan =>
    cases h₂ with
    | header _ _ hscan' =>
      rw [hscan] at hscan'
      cases hscan'
      rfl
    | item hcur' | complete hcur' =>
      rw [hcur] at hcur'
      cases hcur'
  | item hcur hmore hlt hscan hfit =>
    cases h₂ with
    | header hcur' =>
      rw [hcur] at hcur'
      cases hcur'
    | item hcur' _ _ hscan' _ =>
      rw [hcur] at hcur'
      cases hcur'
      rw [hscan] at hscan'
      cases hscan'
      rfl
    | complete hcur' hfull' =>
      rw [hcur] at hcur'
      cases hcur'
      omega
  | complete hcur hfull hpos =>
    cases h₂ with
    | header hcur' =>
      rw [hcur] at hcur'
      cases hcur'
    | item hcur' hmore' =>
      rw [hcur] at hcur'
      cases hcur'
      omega
    | complete hcur' =>
      rw [hcur] at hcur'
      cases hcur'
      rfl

theorem ZeroHeader.no_move (h : ZeroHeader total p) : ¬ Move total p p' := by
  obtain ⟨hcur, hpre, stop, hscan⟩ := h
  intro hm
  cases hm with
  | header _ _ hscan' => cases hscan.symm.trans hscan'
  | item hcur' | complete hcur' => cases hcur.symm.trans hcur'

theorem BadItem.no_move (h : BadItem total p) : ¬ Move total p p' := by
  obtain ⟨dc, hcur, hmore, hscan⟩ := h
  intro hm
  cases hm with
  | header hcur' => cases hcur.symm.trans hcur'
  | item _ _ _ hscan' => rcases hscan with hscan | hscan <;> cases hscan.symm.trans hscan'
  | complete hcur' hfull' =>
    cases hcur.symm.trans hcur'
    omega

/-- The loops come to one end only. -/
theorem Moves.end_unique {p₁ p₂ : Point} (h₁ : Moves total p p₁) (h₂ : Moves total p p₂)
    (hend₁ : ∀ q, ¬ Move total p₁ q) (hend₂ : ∀ q, ¬ Move total p₂ q) : p₁ = p₂ := by
  rcases ReflTransGen.total_of_right_unique Move.deterministic h₁ h₂ with h | h
  · rcases h.cases_head with heq | ⟨q, hq, -⟩
    · exact heq
    · exact absurd hq (hend₁ q)
  · rcases h.cases_head with heq | ⟨q, hq, -⟩
    · exact heq.symm
    · exact absurd hq (hend₂ q)

/-- After the next move, the others follow. -/
theorem Moves.next {q : Point} (h : Moves total p p') (hm : Move total p q) :
    p' = p ∨ Moves total q p' := by
  rcases h.cases_head with rfl | ⟨q', hq', htail⟩
  · exact Or.inl rfl
  · exact Or.inr (Move.deterministic hq' hm ▸ htail)

/-- A rejection, by where it happened. -/
theorem Stop.rejected (h : Stop total p (-1) d') :
    (ZeroHeader total p ∧ d'.cur = none ∧ d'.pos = p.2.pos) ∨ (BadItem total p ∧ d' = p.2) := by
  cases h with
  | zero hcur hpre hscan => exact Or.inl ⟨⟨hcur, hpre, _, hscan⟩, hcur, rfl⟩
  | noDollar hcur hmore hscan => exact Or.inr ⟨⟨_, hcur, hmore, Or.inl hscan⟩, rfl⟩
  | short hcur hmore hscan => exact Or.inr ⟨⟨_, hcur, hmore, Or.inr hscan⟩, rfl⟩

/-! ## Section 3: The two scans -/

theorem skipToStar_spec {s : Bytes} {k : Nat} (h : skipToStar s = some k) : s[k]? = some star := by
  induction s generalizing k with
  | nil => simp [skipToStar] at h
  | cons b s ih =>
    rw [skipToStar] at h
    by_cases hb : b = star
    · rw [if_pos hb] at h
      simp only [Option.some.injEq] at h
      subst h
      rw [hb]
      rfl
    · rw [if_neg hb] at h
      obtain ⟨k', hk', hk⟩ := Option.map_eq_some_iff.mp h
      subst hk
      exact ih hk'

theorem getElem_of_skipToStar {buf : RecvBuf} {i : Nat}
    (h : skipToStar (buf.slice pre total) = some i) : buf.bytes[pre + i]? = some star := by
  have hget := skipToStar_spec h
  unfold RecvBuf.slice at hget
  rw [List.getElem?_drop, List.getElem?_take] at hget
  split at hget
  · exact hget
  · simp at hget

/-- The `*pre != '*'` behind the search never holds, and a line ends behind
    its start. -/
theorem scanHeader_stop {buf : RecvBuf} (hpre : pre < total) :
    scanHeader buf total pre ≠ .noStar ∧
    ∀ num stop, scanHeader buf total pre = .count num stop → pre ≤ stop := by
  unfold scanHeader
  rw [if_pos hpre]
  rcases hi : skipToStar (buf.slice pre total) with _ | i
  · simp
  · simp only
    rcases strstrCrlf (buf.bytes.drop (pre + i)) with _ | q
    · simp
    · simp only [getElem_of_skipToStar hi, ne_eq, not_true_eq_false, if_false]
      split
      · simp
      · refine ⟨by simp, fun num stop h => ?_⟩
        simp only [HeaderScan.count.injEq] at h
        omega

/-! ## Section 4: A call makes moves until it stops -/

/-- How a call that starts at a point ends. -/
inductive Outcome (total : Nat) (p : Point) : Except Fault (Int × Dec) → Prop where
  | stop {p' : Point} {code : Int} {d' : Dec} (hmoves : Moves total p p')
      (hstop : Stop total p' code d') : Outcome total p (.ok (code, d'))
  | fault {p' : Point} {f : Fault} (hmoves : Moves total p p') (hfault : Faulty total p' f) :
      Outcome total p (.error f)

theorem Outcome.head {r : Except Fault (Int × Dec)} (h : Moves total p p')
    (ho : Outcome total p' r) : Outcome total p r := by
  cases ho with
  | stop hmoves hstop => exact .stop (h.trans hmoves) hstop
  | fault hmoves hfault => exact .fault (h.trans hmoves) hfault

/-- How the item loop ends: as above, or with all items there. -/
inductive ItemOutcome (total : Nat) (p : Point) : Except Fault (Flow Dec) → Prop where
  | stop {p' : Point} {code : Int} {d' : Dec} (hmoves : Moves total p p')
      (hstop : Stop total p' code d') : ItemOutcome total p (.ok (.ret code d'))
  | fault {p' : Point} {f : Fault} (hmoves : Moves total p p') (hfault : Faulty total p' f) :
      ItemOutcome total p (.error f)
  | next {pre' : Nat} {d' : Dec} {dc : DecCmd} (hmoves : Moves total p (pre', d'))
      (hcur : d'.cur = some dc) (hfull : dc.argc ≤ dc.items.length)
      (hpre : p = (pre', d') ∨ p.1 < pre') : ItemOutcome total p (.ok (.next pre' d'))

theorem ItemOutcome.head {r : Except Fault (Flow Dec)} (h : Moves total p p') (hlt : p.1 < p'.1)
    (ho : ItemOutcome total p' r) : ItemOutcome total p r := by
  cases ho with
  | stop hmoves hstop => exact .stop (h.trans hmoves) hstop
  | fault hmoves hfault => exact .fault (h.trans hmoves) hfault
  | next hmoves hcur hfull hpre =>
    apply ItemOutcome.next (h.trans hmoves) hcur hfull
    rcases hpre with hpre | hpre
    · rw [hpre] at hlt
      exact Or.inr hlt
    · exact Or.inr (hlt.trans hpre)

/-- Each turn takes more than five bytes of at most 64. -/
theorem itemLoop_outcome (htotal : total ≤ clientRecvCmdLength) :
    ∀ (fuel pre : Nat) (d : Dec), 1 ≤ fuel → clientRecvCmdLength < fuel + pre → d.cur.isSome →
      ItemOutcome total (pre, d) (itemLoop total fuel pre d) := by
  intro fuel
  -- `pre` grows by the item's length, so 65 rounds are always enough
  induction fuel with
  | zero => intro _ _ h; omega
  | succ fuel ih =>
    intro pre d _ hfuel hsome
    obtain ⟨dc, hcur⟩ := Option.isSome_iff_exists.mp hsome
    rw [itemLoop]
    simp only [hcur]
    by_cases hmore : (dc.items.length : Int) < dc.argc
    swap
    · rw [if_pos hmore]
      exact .next .refl hcur (Int.not_lt.mp hmore) (Or.inl rfl)
    rw [if_neg (not_not.mpr hmore)]
    rcases hscan : scanItem d.buf total pre with _ | _ | _ | _ | num
    · -- nothing behind `pre`: the source resets the position only
      have hstop : Stop total (pre, d) 0 { d with pos := 0 } := .empty hcur hmore hscan
      rw [hcur] at hstop
      exact .stop .refl hstop
    · exact .stop .refl (.noDollar hcur hmore hscan)
    · exact .stop .refl (.itemLine hcur hmore hscan)
    · exact .stop .refl (.short hcur hmore hscan)
    · obtain ⟨hlt, hnum⟩ := scanItem_size hscan
      simp only
      by_cases hge : dc.items.length ≥ cmdArgsMax
      · rw [if_pos hge]
        exact .fault .refl (.item hcur hmore hge hscan)
      · rw [if_neg hge]
        -- an item that ends behind the received bytes ends the loop, any other goes round
        by_cases hfit : pre + num > total
        · rw [if_pos hfit]
          exact .stop .refl (.part hcur hmore (Nat.lt_of_not_ge hge) hscan hfit)
        · rw [if_neg hfit]
          apply ItemOutcome.head
            (.single (.item hcur hmore (Nat.lt_of_not_ge hge) hscan (Nat.le_of_not_lt hfit)))
          · show pre < pre + num
            omega
          · apply ih
            · omega
            · omega
            · rfl

/-- The part of the loop up to the check for a complete command. -/
theorem decodeCmd_outcome (htotal : total ≤ clientRecvCmdLength) (hopen : d.Open)
    (hpre : pre < total) : ItemOutcome total (pre, d) (decodeCmd total pre d) := by
  unfold decodeCmd
  rw [hopen.wantsHeader]
  rcases hcur : d.cur with _ | dc
  · simp only [Option.isNone_none, if_true]
    unfold headerStage
    rcases hscan : scanHeader d.buf total pre with _ | pre' | _ | stop | ⟨num, stop⟩
    · exact .stop .refl (.skipped hcur hpre hscan)
    · exact .stop .refl (.headerLine hcur hpre hscan)
    · exact absurd hscan (scanHeader_stop hpre).1
    · exact .stop .refl (.zero hcur hpre hscan)
    · have hstop := (scanHeader_stop hpre).2 num stop hscan
      apply ItemOutcome.head (.single (.header hcur hpre hscan))
      · show pre < stop + 2
        omega
      · exact itemLoop_outcome htotal _ _ _ (by omega) (by omega) rfl
  · rw [Option.isNone_some, if_neg Bool.false_ne_true]
    exact itemLoop_outcome htotal _ _ _ (by omega) (by omega) (by rw [hcur]; rfl)

theorem checkLoop_outcome (htotal : total ≤ clientRecvCmdLength) :
    ∀ (fuel pre : Nat) (d : Dec), 1 ≤ fuel → clientRecvCmdLength < fuel + pre → pre < total →
      d.Open → Outcome total (pre, d) (checkLoop total fuel pre d) := by
  intro fuel
  induction fuel with
  | zero => intro _ _ h; omega
  | succ fuel ih =>
    intro pre d _ hfuel hpre hopen
    rw [checkLoop]
    -- one command a round; `pre` has moved on by the next one
    have hdecode := decodeCmd_outcome htotal hopen hpre
    revert hdecode
    generalize decodeCmd total pre d = r
    intro hdecode
    cases hdecode with
    | stop hmoves hstop => exact .stop hmoves hstop
    | fault hmoves hfault => exact .fault hmoves hfault
    | @next pre' d' dc hmoves hcur hfull hmoved =>
      simp only [Except.bind, completeIfFull, hcur, ge_iff_le, hfull, if_true, complete]
      by_cases hneg : dc.argc < 0
      · simp only [hneg, if_true]
        exact .fault hmoves (.complete hcur hfull hneg)
      · simp only [hneg, if_false]
        have hhanded := hmoves.tail (.complete hcur hfull (Int.not_lt.mp hneg))
        by_cases hend : total ≤ pre'
        · rw [if_pos hend]
          exact .stop hhanded (.done rfl hend)
        · rw [if_neg hend]
          have hlt : pre < pre' := by
            rcases hmoved with hsame | hlt
            · -- the command was open at the start
              obtain ⟨-, rfl⟩ := Prod.mk.inj hsame
              have := hopen dc hcur
              omega
            · exact hlt
          apply Outcome.head hhanded
          apply ih
          · omega
          · omega
          · omega
          · intro dc' hdc'
            simp at hdc'

/-- **A call of the decoder.** -/
theorem check_outcome (hpos : 0 < total) (htotal : total ≤ clientRecvCmdLength) (hopen : d.Open) :
    Outcome total (0, d) (check d total) :=
  checkLoop_outcome htotal _ _ _ (by omega) (by omega) hpos hopen

/-! ## Section 5: What every call keeps -/

/-- The decoder stops with a command that is still waiting, or with none. -/
theorem Stop.open {code : Int} (h : Stop total p code d') : d'.Open := by
  have hnone : ∀ {d : Dec}, d.cur = none → d.Open := by
    intro d hcur dc hdc
    rw [hcur] at hdc
    simp at hdc
  have hsome : ∀ {d : Dec} {dc : DecCmd}, d.cur = some dc →
      (dc.items.length : Int) < dc.argc → d.Open := by
    intro d dc hcur hmore dc' hdc'
    rw [hcur] at hdc'
    simp only [Option.some.injEq] at hdc'
    exact hdc' ▸ hmore
  have hkeep : ∀ (d : Dec) (pre : Nat), (d.keepFrom total pre).cur = d.cur := by
    intro d pre
    unfold Dec.keepFrom
    split <;> rfl
  cases h with
  | done hcur _ | skipped hcur _ _ | zero hcur _ _ => exact hnone hcur
  | headerLine hcur _ _ => exact hnone ((hkeep _ _).trans hcur)
  | empty hcur hmore _ | noDollar hcur hmore _ | short hcur hmore _ => exact hsome hcur hmore
  | itemLine hcur hmore _ => exact hsome ((hkeep _ _).trans hcur) hmore
  | part hcur hmore _ _ _ => exact hsome rfl hmore

theorem keepFrom_got (d : Dec) (total pre : Nat) : (d.keepFrom total pre).got = d.got := by
  unfold Dec.keepFrom
  split <;> rfl

/-- Decoding reads nothing, and leaves the position to its end. -/
theorem Moves.pos (h : Moves total p p') : p'.2.pos = p.2.pos := by
  apply h.invariant (I := fun q => q.2.pos = p.2.pos) _ rfl
  intro q q' hq hmove
  cases hmove with
  | header | item | complete => exact hq


theorem moves_stop_got {code : Int} (h : Moves total p p') (hs : Stop total p' code d') :
    d'.got = p.2.got := by
  have hmoves : p'.2.got = p.2.got := by
    apply h.invariant (I := fun q => q.2.got = p.2.got) _ rfl
    intro q q' hq hmove
    cases hmove with
    | header | item | complete => exact hq
  rw [← hmoves]
  cases hs with
  | headerLine | itemLine => exact keepFrom_got _ _ _
  | done | skipped | zero | empty | noDollar | short | part => rfl

/-- An index out of range, of whatever value. -/
def IndexFault (f : Fault) : Prop := ∃ i, f = .cmdIndex i

theorem Faulty.index {f : Fault} (h : Faulty total p f) : IndexFault f := by
  cases h with
  | item => exact ⟨_, rfl⟩
  | complete => exact ⟨_, rfl⟩

theorem check_ends (hpos : 0 < total) (htotal : total ≤ clientRecvCmdLength) (hopen : d.Open) :
    Ends IndexFault (fun out => out.2.Open) (check d total) := by
  have ho := check_outcome hpos htotal hopen
  revert ho
  generalize check d total = out
  intro ho
  cases ho with
  | stop _ hstop => exact hstop.open
  | fault _ hfault => exact hfault.index

theorem freeable_ends : Ends IndexFault (fun _ => True) (freeable dc) := by
  unfold freeable
  split
  · trivial
  · exact ⟨_, rfl⟩

theorem reject_ends (hopen : d.Open) : Ends IndexFault Open d.reject := by
  unfold reject
  split
  · exact hopen
  · apply freeable_ends.bind
    intro _ _ _ dc' hdc'
    simp at hdc'

/-! ## Section 6: A pass -/

/-- What a pass that decodes does, once it has read something. -/
theorem recvHeader_data {r : ReadResult} {xs : Bytes}
    (hr : r.bound (clientRecvCmdLength - d.pos) = .data xs) :
    d.recvHeader r = (check (d.read xs) (d.pos + xs.length)).bind fun (code, d) =>
      (if code < 0 then reject d else .ok d).bind fun d => .ok (.again, d) := by
  simp only [recvHeader, hr]

theorem recvHeader_total {r : ReadResult} {xs : Bytes}
    (hr : r.bound (clientRecvCmdLength - d.pos) = .data xs) :
    0 < d.pos + xs.length ∧ d.pos + xs.length ≤ clientRecvCmdLength := by
  obtain ⟨hne, hle⟩ := bound_data hr
  have hlen := List.length_pos_iff.mpr hne
  omega

theorem recvHeader_ends (hopen : d.Open) (r : ReadResult) :
    Ends IndexFault (fun out => out.2.Open) (d.recvHeader r) := by
  rcases hr : r.bound (clientRecvCmdLength - d.pos) with xs | _ | _ | _
  · obtain ⟨hpos, htotal⟩ := recvHeader_total hr
    have hread : (d.read xs).Open := hopen
    rw [recvHeader_data hr]
    apply (check_ends hpos htotal hread).bind
    intro out _ hopen₁
    have hrej : Ends IndexFault Open (if out.1 < 0 then reject out.2 else .ok out.2) := by
      split
      · exact reject_ends hopen₁
      · exact hopen₁
    exact hrej.bind fun _ _ hopen₂ => hopen₂
  all_goals
    simp only [recvHeader, hr]
    exact hopen

theorem completeIfFull_ends (hsome : d.cur.isSome) : Ends IndexFault Open d.completeIfFull := by
  rcases hfull : d.completeIfFull with f | d'
  · obtain ⟨dc, hcur⟩ := Option.isSome_iff_exists.mp hsome
    simp only [completeIfFull, hcur, complete] at hfull
    split at hfull
    · split at hfull
      · simp only [Except.error.injEq] at hfull
        exact ⟨_, hfull.symm⟩
      · simp at hfull
    · simp at hfull
  · exact completeIfFull_open hfull

/-- A pass keeps the command open, and faults with an index only. -/
theorem pass_ends (hopen : d.Open) (r : ReadResult) :
    Ends IndexFault (fun out => out.2.Open) (d.pass r) := by
  unfold pass
  rcases hcur : d.cur with _ | dc
  · exact recvHeader_ends hopen r
  simp only
  by_cases hge : dc.items.length ≥ cmdArgsMax
  · rw [if_pos hge]
    exact ⟨_, rfl⟩
  rw [if_neg hge]
  rcases hpart : dc.part with _ | ⟨n, bs⟩
  · exact recvHeader_ends hopen r
  -- the pass reads into the argument
  simp only [recvItem]
  rcases r.bound (n - bs.length) with xs | _ | _ | _
  · have hsome : Option.isSome (some (dc.extend n bs xs)) := rfl
    exact (completeIfFull_ends hsome).bind fun _ _ hopen₁ => hopen₁
  all_goals exact hopen

theorem close_ends : Ends IndexFault (fun _ => True) d.close := by
  unfold close
  split
  · trivial
  · exact freeable_ends

/-- The same for a step. -/
theorem step_ends (hopen : d.Open) (r : ReadResult) :
    Ends IndexFault (fun out => out.2.Open) (d.step r) := by
  unfold step
  apply (pass_ends hopen r).bind
  rintro ⟨e, d₁⟩ - hopen₁
  cases e with
  | disconnect => exact close_ends.bind fun _ _ _ => hopen₁
  | again | returned => exact hopen₁

end BoAtom.Dec
