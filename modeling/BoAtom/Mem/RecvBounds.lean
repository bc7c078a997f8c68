import BoAtom.Mem.Tracking
import BoAtom.Mem.Reach

/-! # Bounds of the receive state

    How much of a request a client's counters say has been received, in
    every reachable state (`Filled`), and with it every `read` and
    `memmove` of the receiving side.  These are listed with the lengths the
    source computes, as integers (`Access`): one at the top of each pass,
    and those of the decoder's loops at each place they get to. -/

namespace BoAtom

open Machine Memory Loop Relation

/-! ## Section 1: The counters of the decoder -/

namespace Dec

variable {d d' : Dec} {r : ReadResult} {total : Nat} {p p' : Point}

/-- What every pass keeps of the counters. -/
structure Sized (d : Dec) : Prop where
  openCmd : d.Open
  pos_le : d.pos ≤ clientRecvCmdLength
  part_pos : ∀ dc n bs, d.cur = some dc → dc.part = some (n, bs) → bs ≠ []

theorem sized_of_none (hcur : d.cur = none) (hpos : d.pos ≤ clientRecvCmdLength) :
    d.Sized := by
  refine ⟨fun dc h => ?_, hpos, fun dc n bs h => ?_⟩
  · rw [hcur] at h
    cases h
  · rw [hcur] at h
    cases h

theorem sized_fresh : Sized .fresh := sized_of_none rfl (Nat.zero_le _)

/-- A command in progress has no item in progress. -/
def NoPart (d : Dec) : Prop := ∀ dc, d.cur = some dc → dc.part = none

theorem noPart_of_into (h : d.intoBuffer = true) : d.NoPart := by
  intro dc hcur
  simpa [intoBuffer, hcur] using h

theorem NoPart.move (h : p.2.NoPart) (hm : Move total p p') : p'.2.NoPart := by
  intro dc hdc
  cases hm with
  | header hcur hpre hscan =>
    cases hdc
    rfl
  | item hcur hmore hlt hscan hfit =>
    cases hdc
    rfl
  | complete hcur hfull hpos => cases hdc

theorem NoPart.moves (h : p.2.NoPart) (hm : Moves total p p') :
    p'.2.NoPart := by
  apply hm.invariant (I := fun q => q.2.NoPart) _ h
  intro q q' hq hmove
  exact hq.move hmove

theorem keepFrom_pos_le (h : d.pos ≤ clientRecvCmdLength) (htotal : total ≤ clientRecvCmdLength)
    (pre : Nat) : (d.keepFrom total pre).pos ≤ clientRecvCmdLength := by
  unfold Dec.keepFrom
  split
  · exact le_trans (Nat.sub_le _ _) htotal
  · exact h

theorem keepFrom_cur (d : Dec) (total pre : Nat) : (d.keepFrom total pre).cur = d.cur := by
  unfold Dec.keepFrom
  split <;> rfl

/-- The ways out: only an item that goes on behind the received bytes is in
    progress afterwards, and its first byte has been received. -/
theorem Sized.stop {code : Int} (hitems : p.2.NoPart) (hpos : p.2.pos ≤ clientRecvCmdLength)
    (htotal : total ≤ clientRecvCmdLength) (hs : Stop total p code d') : d'.Sized := by
  refine ⟨hs.open, ?_, ?_⟩
  · cases hs with
    | done | skipped | empty | part => exact Nat.zero_le _
    | headerLine | itemLine => exact keepFrom_pos_le hpos htotal _
    | zero | noDollar | short => exact hpos
  · intro dc n bs hcur hpart
    have hidle : ∀ {d₀ : Dec}, d₀.NoPart → d₀.cur = some dc → bs ≠ [] := by
      intro d₀ h₀ hcur₀
      rw [h₀ dc hcur₀] at hpart
      cases hpart
    cases hs with
    | done _ _ | skipped _ _ _ | zero _ _ _ | empty _ _ _ => exact hidle hitems hcur
    | noDollar _ _ _ | short _ _ _ => exact hidle hitems hcur
    | headerLine _ _ _ | itemLine _ _ _ =>
      rw [keepFrom_cur] at hcur
      exact hidle hitems hcur
    | @part pre num d dc₀ _ _ _ hscan _ =>
      cases hcur
      cases hpart
      have hlt := (scanItem_size hscan).1
      apply List.ne_nil_of_length_pos
      rw [RecvBuf.length_slice _ htotal]
      omega

theorem Sized.recvHeader (h : d.Sized) (hinto : d.intoBuffer = true) {e : PassEnd}
    (hrun : d.recvHeader r = .ok (e, d')) : d'.Sized := by
  rcases hr : r.bound (clientRecvCmdLength - d.pos) with xs | _ | _ | _
  · obtain ⟨hpos, htotal⟩ := recvHeader_total hr
    rw [recvHeader_data hr] at hrun
    obtain ⟨⟨code, d₁⟩, hcheck, hk⟩ := ok_of_bind hrun
    obtain ⟨d₂, hd₂, hend⟩ := ok_of_bind hk
    cases hend
    have hopen : (d.read xs).Open := h.openCmd
    -- `checkCmdComplete2` is a chain of moves and then a stop; both keep the position in the buffer
    have hout := check_outcome hpos htotal hopen
    rw [hcheck] at hout
    have hsized : d₁.Sized := by
      cases hout with
      | stop hmoves hstop =>
        have hitems : (d.read xs).NoPart := noPart_of_into hinto
        apply Sized.stop (NoPart.moves hitems hmoves) _ htotal hstop
        rw [hmoves.pos]
        exact htotal
    split at hd₂
    · -- `_free_client_cur_cmd`
      unfold reject at hd₂
      rcases hcur : d₁.cur with _ | dc
      · simp only [hcur] at hd₂
        cases hd₂
        exact hsized
      · simp only [hcur] at hd₂
        obtain ⟨_, -, hend⟩ := ok_of_bind hd₂
        cases hend
        exact sized_of_none rfl (Nat.zero_le _)
    · cases hd₂
      exact hsized
  -- EOF, an error or nothing yet: the decoder is as it was
  all_goals
    simp only [Dec.recvHeader, hr] at hrun
    cases hrun
    exact h

theorem Sized.pass (h : d.Sized) {e : PassEnd} (hrun : d.pass r = .ok (e, d')) : d'.Sized := by
  unfold Dec.pass at hrun
  rcases hcur : d.cur with _ | dc
  · simp only [hcur] at hrun
    exact h.recvHeader (by simp [intoBuffer, hcur]) hrun
  simp only [hcur] at hrun
  split at hrun
  · cases hrun
  rcases hpart : dc.part with _ | ⟨n, bs⟩
  · simp only [hpart] at hrun
    exact h.recvHeader (by simp [intoBuffer, hcur, hpart]) hrun
  simp only [hpart, recvItem] at hrun
  rcases hr : r.bound (n - bs.length) with xs | _ | _ | _
  · -- more bytes of the item
    simp only [hr] at hrun
    obtain ⟨d₁, hfull, hend⟩ := ok_of_bind hrun
    cases hend
    have hpos : (if bs.length + xs.length ≥ n then 0 else d.pos) ≤ clientRecvCmdLength := by
      split
      · exact Nat.zero_le _
      · exact h.pos_le
    have hne : bs ++ xs ≠ [] := by
      have := h.part_pos dc n bs hcur hpart
      simp [this]
    have hopen := completeIfFull_open hfull
    -- the item may be the last one, and then its command leaves the decoder
    unfold completeIfFull at hfull
    simp only at hfull
    split at hfull
    · unfold complete at hfull
      split at hfull
      · cases hfull
      · cases hfull
        exact sized_of_none rfl hpos
    · cases hfull
      refine ⟨hopen, hpos, ?_⟩
      intro dc' m cs hdc' hpart'
      cases hdc'
      unfold DecCmd.extend at hpart'
      split at hpart'
      · cases hpart'
      · cases hpart'
        exact hne
  all_goals
    simp only [hr] at hrun
    cases hrun
    exact h

/-- **A step keeps the counters in order.** -/
theorem Sized.step (h : d.Sized) {e : PassEnd} (hrun : d.step r = .ok (e, d')) : d'.Sized := by
  unfold Dec.step at hrun
  obtain ⟨⟨e₁, d₁⟩, hpass, hk⟩ := ok_of_bind hrun
  have hsized := h.pass hpass
  cases e₁ with
  | disconnect =>
    obtain ⟨_, -, hend⟩ := ok_of_map hk
    cases hend
    exact hsized
  | again | returned =>
    cases hk
    exact hsized

end Dec

/-! ## Section 2: Reachable states -/

variable {env : Env} {g : Ghost} {s s' : Server} {me : ClientId} {c : ClientStat}

theorem reachable_sized {es : List Event} (hrun : run (step env) initServer es = .ok s)
    (hlive : (s.clients.get me).isSome) : (s.dec me).Sized := by
  have hlog : ∀ d : Dec, d.Sized → True := fun _ _ => trivial
  have hguarded : Guarded env me Dec.Sized (fun _ _ => True) s := by
    apply run_invariant _ (guarded_init me hlog Dec.sized_fresh) hrun
    intro s e s' hs hstep
    apply hs.step hlog Dec.sized_fresh _ hstep
    intro r p d' _ _ hsized hdec
    exact hsized.step hdec
  exact hguarded.live hlive

/-- The items before `cur_item` have been received, of the one at
    `cur_item` nothing or a part, and of the later ones nothing. -/
structure Filled (cmd : Cmd) : Prop where
  before : ∀ i : Fin cmdArgsMax, i.val < cmd.curItem →
    cmd.itemPos i = cmd.itemLength i ∧ 0 < cmd.itemLength i
  current : ∀ i : Fin cmdArgsMax, i.val = cmd.curItem →
    (cmd.itemPos i = 0 ∧ cmd.itemLength i = 0) ∨
      (0 < cmd.itemPos i ∧ cmd.itemPos i < cmd.itemLength i)
  later : ∀ i : Fin cmdArgsMax, cmd.curItem < i.val →
    cmd.value i = none ∧ cmd.itemLength i = 0 ∧ cmd.itemPos i = 0

theorem CmdRep.filled {h : Heap} {cmd : Cmd} {dc : DecCmd} (hr : CmdRep g h me cmd dc)
    (hpart : ∀ n bs, dc.part = some (n, bs) → bs ≠ []) : Filled cmd := by
  have hcur := hr.curItem
  constructor
  · intro i hi
    have hlt : i.val < dc.items.length := by omega
    obtain ⟨a, -, -, hlen, hpos⟩ := hr.arg (List.getElem?_eq_getElem hlt)
    have hsize := hr.size_gt _ (List.getElem_mem hlt)
    exact ⟨hpos.trans hlen.symm, by omega⟩
  · intro i hi
    have hs := hr.slots i
    rw [hi, hcur, DecCmd.slotAt_part] at hs
    rcases hp : dc.part with _ | ⟨n, bs⟩
    · rw [hp] at hs
      exact Or.inl ⟨hs.2.2, hs.2.1⟩
    · rw [hp] at hs
      obtain ⟨a, -, -, hlen, hpos⟩ := hs
      have hlt := (hr.part_lt n bs hp).1
      have hne := List.length_pos_iff.mpr (hpart n bs hp)
      exact Or.inr ⟨by omega, by omega⟩
  · intro i hi
    have hs := hr.slots i
    have hnone : dc.slotAt i.val = none := by
      unfold DecCmd.slotAt
      rw [if_neg (by omega), if_neg (by omega)]
    rw [hnone] at hs
    exact hs

/-! ## Section 3: Reads and copies -/

/-- A `read` or `memmove` of the receiving side. -/
inductive Access where
  /-- `read(fd, recv_cmd + off, len)`. -/
  | readCmd (off len : Int)
  /-- `memmove(recv_cmd, recv_cmd + src, len)`. -/
  | keep (src len : Int)
  /-- `read(fd, value[i] + off, len)`; `value[i]` points to `block`. -/
  | readItem (block : Option Block) (itemLength off len : Int)
  /-- `value[i] = malloc(itemLength); memmove(value[i], recv_cmd + src, len)`,
      where `value[i]` was `old`. -/
  | fill (old : Option Addr) (itemLength src len : Int)

/-- It stays inside its memory, and no argument is allocated twice. -/
def Access.InBounds : Access → Prop
  | .readCmd off len => 0 ≤ off ∧ 0 ≤ len ∧ off + len ≤ clientRecvCmdLength
  | .keep src len => 0 ≤ src ∧ 0 ≤ len ∧ src + len ≤ clientRecvCmdLength
  | .readItem block itemLength off len =>
    0 ≤ off ∧ 0 ≤ len ∧ off + len ≤ itemLength ∧
      ∃ b, block = some b ∧ b.live = true ∧ b.size = itemLength
  | .fill old itemLength src len =>
    old = none ∧ 0 ≤ src ∧ 0 ≤ len ∧ len ≤ itemLength ∧ src + len ≤ clientRecvCmdLength

/-- The condition at the top of a pass: is there an item to read on? -/
def readsItem (c : Conn) : Bool :=
  match derefCmd c.world c.client.curCmdItem with
  | .error _ => false
  | .ok (_, cmd) =>
    match slot cmd.curItem with
    | .error _ => false
    | .ok i => decide (cmd.itemLength i ≠ 0 ∧ cmd.itemLength i > cmd.itemPos i)

/-- The `read` of a pass. -/
def passAccesses (c : Conn) : List Access :=
  match derefCmd c.world c.client.curCmdItem with
  | .error _ => [.readCmd c.client.recvPos (clientRecvCmdLength - c.client.recvPos)]
  | .ok (_, cmd) =>
    match slot cmd.curItem with
    | .error _ => []
    | .ok i =>
      if readsItem c then
        [.readItem ((cmd.value i).bind fun a => c.world.heap.blocks[a]?) (cmd.itemLength i)
          (cmd.itemPos i) (cmd.itemLength i - cmd.itemPos i)]
      else [.readCmd c.client.recvPos (clientRecvCmdLength - c.client.recvPos)]

/-- How many bytes an access moves at most. -/
def Access.len : Access → Int
  | .readCmd _ len | .keep _ len | .readItem _ _ _ len | .fill _ _ _ len => len

/-- A pass asks `read` for what its access says, and for no more. -/
theorem recvPass_asks {c : Conn} {r r' : ReadResult} (hsame : ∀ a ∈ passAccesses c,
    r.bound a.len.toNat = r'.bound a.len.toNat) : recvPass env c r = recvPass env c r' := by
  have hheader : Access.readCmd c.client.recvPos (clientRecvCmdLength - c.client.recvPos) ∈ passAccesses c →
      recvHeader env c r = recvHeader env c r' := by
    intro hmem
    have hbound := hsame _ hmem
    rw [Access.len, Int.toNat_sub] at hbound
    unfold recvHeader
    rw [hbound]
  unfold recvPass
  rcases hcur : c.client.curCmdItem with _ | p
  · exact hheader (by simp [passAccesses, hcur, derefCmd])
  rcases hderef : derefCmd c.world (some p) with f | ⟨p', cmd⟩
  · simp [bind, Except.bind]
  rcases hslot : slot cmd.curItem with f | i
  · simp [bind, Except.bind, hslot]
  simp only [Option.isNone_some, Bool.false_eq_true, if_false, bind, Except.bind, hslot]
  by_cases hitem : cmd.itemLength i ≠ 0 ∧ cmd.itemLength i > cmd.itemPos i
  · have hmem : Access.readItem ((cmd.value i).bind fun a => c.world.heap.blocks[a]?) (cmd.itemLength i)
        (cmd.itemPos i) (cmd.itemLength i - cmd.itemPos i) ∈ passAccesses c := by
      simp [passAccesses, readsItem, hcur, hderef, hslot, hitem]
    have hbound := hsame _ hmem
    rw [Access.len, Int.toNat_sub] at hbound
    rw [if_pos hitem, if_pos hitem]
    unfold recvItem
    rw [hbound]
  · rw [if_neg hitem, if_neg hitem]
    apply hheader
    simp only [passAccesses, readsItem, hcur, hderef, hslot, decide_eq_true_eq, if_neg hitem,
      List.mem_singleton]

/-- The copy of the outer loop: an unfinished header line is kept. -/
def headerAccesses (total pre : Nat) (c : Conn) : List Access :=
  match wantsHeader c, scanHeader c.client.recvCmd total pre with
  | .ok true, .partLine pre => if pre ≠ 0 then [.keep pre (total - pre)] else []
  | _, _ => []

/-- The copies of the inner loop: an unfinished item line is kept, an item
    goes to its argument as far as it has been received. -/
def itemAccesses (total pre : Nat) (c : Conn) : List Access :=
  match derefCmd c.world c.client.curCmdItem with
  | .error _ => []
  | .ok (_, cmd) =>
    if ¬ (cmd.curItem : Int) < cmd.argsNum then []
    else
      match scanItem c.client.recvCmd total pre, slot cmd.curItem with
      | .partLine, _ => if pre ≠ 0 then [.keep pre (total - pre)] else []
      | .size num, .ok i =>
        [.fill (cmd.value i) num pre (if pre + num > total then (total - pre : Int) else num)]
      | _, _ => []

/-- What a pass makes of reads and copies: its own `read`, and, where this
    was into the buffer, the copies of the decoder's loops. -/
inductive Makes (env : Env) (c : Conn) (r : ReadResult) : Access → Prop where
  | read {a : Access} (h : a ∈ passAccesses c) : Makes env c r a
  | header {a : Access} {xs : Bytes} {pre : Nat} {c' : Conn} (hinto : readsItem c = false)
      (hread : r.bound (clientRecvCmdLength - c.client.recvPos) = .data xs)
      (hreach : ReflTransGen (Goes (checkTurn env (c.client.recvPos + xs.length)))
        (0, c.readInto xs) (pre, c'))
      (h : a ∈ headerAccesses (c.client.recvPos + xs.length) pre c') : Makes env c r a
  | item {a : Access} {xs : Bytes} {pre pre₁ pre₂ : Nat} {c' c₁ c₂ : Conn} {fresh : Bool}
      (hinto : readsItem c = false)
      (hread : r.bound (clientRecvCmdLength - c.client.recvPos) = .data xs)
      (hreach : ReflTransGen (Goes (checkTurn env (c.client.recvPos + xs.length)))
        (0, c.readInto xs) (pre, c'))
      (hfresh : wantsHeader c' = .ok fresh)
      (henter : (if fresh then headerStage env (c.client.recvPos + xs.length) pre c'
        else .ok (.next pre c')) = .ok (.next pre₁ c₁))
      (hitems : ReflTransGen (Goes (itemTurn (c.client.recvPos + xs.length))) (pre₁, c₁) (pre₂, c₂))
      (h : a ∈ itemAccesses (c.client.recvPos + xs.length) pre₂ c₂) : Makes env c r a

/-! ## Section 4: The decoder's copies -/

namespace Dec

variable {d d' : Dec} {total pre pre' : Nat}

theorem NoPart.completeIfFull (h : d.NoPart) (hfull : d.completeIfFull = .ok d') : d'.NoPart := by
  unfold Dec.completeIfFull at hfull
  rcases hcur : d.cur with _ | dc
  · simp [hcur] at hfull
  simp only [hcur] at hfull
  split at hfull
  · unfold complete at hfull
    split at hfull
    · cases hfull
    · cases hfull
      intro dc' hdc'
      cases hdc'
  · cases hfull
    exact h

theorem NoPart.checkTurn (h : d.NoPart) (hopen : d.Open) (htotal : total ≤ clientRecvCmdLength)
    (hpre : pre < total) (hgoes : Goes (checkTurn total) (pre, d) (pre', d')) : d'.NoPart := by
  have hdecode := decodeCmd_outcome htotal hopen hpre
  unfold Goes Dec.checkTurn at hgoes
  obtain ⟨flow, hflow, hk⟩ := ok_of_bind hgoes
  dsimp only at hflow
  rw [hflow] at hdecode
  cases hdecode with
  | stop hmoves hstop => cases hk
  | next hmoves hcur hfull hmoved =>
    obtain ⟨d₂, hd₂, hend⟩ := ok_of_bind hk
    have hno := NoPart.completeIfFull (NoPart.moves h hmoves) hd₂
    split at hend
    · cases hend
    · cases hend
      exact hno

theorem NoPart.itemTurn (hgoes : Goes (itemTurn total) (pre, d) (pre', d')) : d'.NoPart := by
  unfold Goes Dec.itemTurn at hgoes
  rcases hcur : d.cur with _ | dc
  · simp [hcur] at hgoes
  simp only [hcur] at hgoes
  split at hgoes
  · cases hgoes
  · rcases hscan : scanItem d.buf total pre with _ | _ | _ | _ | num
    case size =>
      simp only [hscan] at hgoes
      split at hgoes
      · cases hgoes
      · split at hgoes
        · cases hgoes
        · cases hgoes
          intro dc' hdc'
          cases hdc'
          rfl
    all_goals simp [hscan] at hgoes

theorem NoPart.headerStage (hnext : d.headerStage total pre = .next pre' d') : d'.NoPart := by
  unfold Dec.headerStage at hnext
  rcases hscan : scanHeader d.buf total pre with _ | pre₁ | _ | stop | ⟨num, stop⟩
  case count =>
    simp only [hscan] at hnext
    cases hnext
    intro dc' hdc'
    cases hdc'
    rfl
  all_goals simp [hscan] at hnext

end Dec

section copies

variable {total pre : Nat} {a : Access}

/-- A place of the outer loop. -/
def AtHeader (env : Env) (total : Nat) (s : Nat × Conn) : Prop :=
  s.1 < total ∧ ∃ g d, ConnRep env g s.2 d ∧ d.Open ∧ d.NoPart

/-- A place of the inner loop. -/
def AtItem (env : Env) (s : Nat × Conn) : Prop := ∃ g d, ConnRep env g s.2 d ∧ d.NoPart

theorem AtHeader.turn {s s' : Nat × Conn} (htotal : total ≤ clientRecvCmdLength)
    (h : AtHeader env total s) (hgoes : Goes (checkTurn env total) s s') : AtHeader env total s' := by
  obtain ⟨pre, c⟩ := s
  obtain ⟨pre', c'⟩ := s'
  obtain ⟨hpre, g, d, hrep, hopen, hno⟩ := h
  have hsim := checkTurn_sim htotal pre hrep hopen
  rw [show checkTurn env total (pre, c) = _ from hgoes] at hsim
  obtain ⟨turn, hturn, hnext⟩ := hsim.ok_left
  rcases turn with ⟨pre₁, d'⟩ | out
  · obtain ⟨⟨hpre₁, g', hrep', -⟩, hopen'⟩ := hnext
    have hpre₁' : pre' = pre₁ := hpre₁
    subst hpre₁'
    exact ⟨(checkTurn_lt htotal hgoes).2, g', d', hrep', hopen',
      hno.checkTurn hopen htotal hpre hturn⟩
  · exact False.elim hnext

theorem AtHeader.enter {c c₁ : Conn} {pre₁ : Nat} {fresh : Bool} (h : AtHeader env total (pre, c))
    (hfresh : wantsHeader c = .ok fresh)
    (henter : (if fresh then headerStage env total pre c else .ok (.next pre c)) =
      .ok (.next pre₁ c₁)) : AtItem env (pre₁, c₁) := by
  obtain ⟨-, g, d, hrep, hopen, hno⟩ := h
  have hwants := wantsHeader_eq hrep
  rw [hfresh, Except.ok.injEq, hopen.wantsHeader] at hwants
  cases fresh with
  | false =>
    cases henter
    exact ⟨g, d, hrep, hno⟩
  | true =>
    have hcur : d.cur = none := Option.isNone_iff_eq_none.mp hwants.symm
    have hsim := headerStage_sim hrep hcur total pre
    rw [show headerStage env total pre c = _ from henter] at hsim
    obtain ⟨flow, hflow, hfol⟩ := hsim.ok_left
    rcases flow with ⟨code, d₁⟩ | ⟨pre₂, d₁⟩
    · exact False.elim hfol
    · obtain ⟨-, g', hrep', -⟩ := hfol
      exact ⟨g', d₁, hrep', Dec.NoPart.headerStage (Except.ok.inj hflow)⟩

theorem AtItem.turn {s s' : Nat × Conn} (htotal : total ≤ clientRecvCmdLength)
    (h : AtItem env s) (hgoes : Goes (itemTurn total) s s') : AtItem env s' := by
  obtain ⟨pre, c⟩ := s
  obtain ⟨pre', c'⟩ := s'
  obtain ⟨g, d, hrep, -⟩ := h
  have hsim := itemTurn_sim htotal pre hrep
  rw [show itemTurn total (pre, c) = _ from hgoes] at hsim
  obtain ⟨turn, hturn, hnext⟩ := hsim.ok_left
  rcases turn with ⟨pre₁, d'⟩ | out
  · obtain ⟨-, g', hrep', -⟩ := hnext
    exact ⟨g', d', hrep', Dec.NoPart.itemTurn hturn⟩
  · exact False.elim hnext

/-- What is kept of the buffer was received. -/
theorem keep_inBounds (htotal : total ≤ clientRecvCmdLength) (hpre : pre < total)
    (ha : a ∈ if pre ≠ 0 then [Access.keep pre (total - pre)] else []) : a.InBounds := by
  split at ha
  · rw [List.mem_singleton] at ha
    subst ha
    have h64 : (total : Int) ≤ (clientRecvCmdLength : Nat) := by exact_mod_cast htotal
    refine ⟨?_, ?_, ?_⟩ <;> omega
  · cases ha

theorem headerAccesses_inBounds {c : Conn} (htotal : total ≤ clientRecvCmdLength)
    (hpre : pre < total) (ha : a ∈ headerAccesses total pre c) : a.InBounds := by
  unfold headerAccesses at ha
  rcases hwants : wantsHeader c with f | fresh
  · simp [hwants] at ha
  cases fresh with
  | false => simp [hwants] at ha
  | true =>
    rcases hscan : scanHeader c.client.recvCmd total pre with _ | pre' | _ | stop | ⟨num, stop⟩
    case partLine =>
      simp only [hwants, hscan] at ha
      exact keep_inBounds htotal (scanHeader_partLine_lt hpre hscan) ha
    all_goals simp [hwants, hscan] at ha

theorem itemAccesses_inBounds {c : Conn} (htotal : total ≤ clientRecvCmdLength)
    (h : AtItem env (pre, c)) (ha : a ∈ itemAccesses total pre c) : a.InBounds := by
  obtain ⟨g, d, hrep, hno⟩ := h
  have hc : CurRep g c.world c.me c.client d.cur := hrep.client.cur
  unfold itemAccesses at ha
  rcases hdc : d.cur with _ | dc
  · rw [hdc] at hc
    simp [hc.1, derefCmd] at ha
  rw [hdc] at hc
  obtain ⟨p, cmd, hcur, -, -, hget, -, hr⟩ := hc
  simp only [hcur, derefCmd_some hget] at ha
  split at ha
  · cases ha
  rcases hscan : scanItem c.client.recvCmd total pre with _ | _ | _ | _ | num
  -- the line's end is not there: `memmove` of the rest to the front
  case partLine =>
    simp only [hscan] at ha
    exact keep_inBounds htotal (scanItem_partLine_lt hscan) ha
  -- the item's slot is empty, as the index stands at the first item not read
  case size =>
    obtain ⟨hlt, hnum⟩ := scanItem_size hscan
    rcases hslot : slot cmd.curItem with f | i
    · simp only [hscan, hslot] at ha
      cases ha
    simp only [hscan, hslot, List.mem_singleton] at ha
    subst ha
    have hi := slot_ok hslot
    have hold : cmd.value i = none := by
      have hs := hr.slots i
      rw [hi, hr.curItem, DecCmd.slotAt_part, hno dc hdc] at hs
      exact hs.1
    have h64 : (total : Int) ≤ (clientRecvCmdLength : Nat) := by exact_mod_cast htotal
    refine ⟨hold, ?_, ?_, ?_, ?_⟩
    · omega
    · split <;> omega
    · split <;> omega
    · split <;> omega
  -- the other results touch no memory
  all_goals
    simp only [hscan] at ha
    cases ha

end copies

/-! ## Section 5: Every pass -/

theorem passAccesses_inBounds {c : Conn} {d : Dec} {a : Access} (hrep : ConnRep env g c d)
    (hsized : d.Sized) (ha : a ∈ passAccesses c) : a.InBounds := by
  have hpos : c.client.recvPos ≤ clientRecvCmdLength := by
    rw [hrep.client.pos]
    exact hsized.pos_le
  have hcmd : a = .readCmd c.client.recvPos (clientRecvCmdLength - c.client.recvPos) →
      a.InBounds := by
    rintro rfl
    refine ⟨?_, ?_, ?_⟩ <;> omega
  have hc := hrep.client.cur
  unfold passAccesses at ha
  rcases hdc : d.cur with _ | dc
  · rw [hdc] at hc
    simp only [hc.1, derefCmd, List.mem_singleton] at ha
    exact hcmd ha
  rw [hdc] at hc
  obtain ⟨p, cmd, hcur, -, -, hget, -, hr⟩ := hc
  simp only [hcur, derefCmd_some hget] at ha
  rcases hslot : slot cmd.curItem with f | i
  · simp only [hslot] at ha
    cases ha
  simp only [hslot] at ha
  by_cases hitem : readsItem c = true
  swap
  · rw [if_neg hitem, List.mem_singleton] at ha
    exact hcmd ha
  rw [if_pos hitem, List.mem_singleton] at ha
  subst ha
  -- the item in progress has its block
  have hi := slot_ok hslot
  have hwaits : cmd.itemLength i ≠ 0 ∧ cmd.itemLength i > cmd.itemPos i := by
    simpa [readsItem, hcur, derefCmd_some hget, hslot] using hitem
  have hs := hr.slots i
  rw [hi, hr.curItem, DecCmd.slotAt_part] at hs
  rcases hp : dc.part with _ | ⟨n, bs⟩
  · rw [hp] at hs
    exact absurd hs.2.1 hwaits.1
  · rw [hp] at hs
    obtain ⟨b, hv, hown, hlen, hposn⟩ := hs
    refine ⟨?_, ?_, ?_, ⟨n, bs, true⟩, ?_, rfl, ?_⟩
    · omega
    · omega
    · omega
    · rw [hv]
      exact hown.2
    · show (n : Int) = cmd.itemLength i
      rw [hlen]

/-- Into the buffer is read when no item is in progress. -/
theorem noPart_of_readsItem {c : Conn} {d : Dec} (hrep : ConnRep env g c d)
    (hinto : readsItem c = false) : d.NoPart := by
  intro dc hdc
  have hc := hrep.client.cur
  rw [hdc] at hc
  obtain ⟨p, cmd, hcur, -, -, hget, -, hr⟩ := hc
  rcases hp : dc.part with _ | ⟨n, bs⟩
  · rfl
  obtain ⟨hlt, hn, h512⟩ := hr.part_lt n bs hp
  have hslot : slot cmd.curItem = .ok ⟨dc.items.length, h512⟩ := by
    rw [hr.curItem]
    exact slot_ofNat h512
  have hs := hr.slots ⟨dc.items.length, h512⟩
  rw [DecCmd.slotAt_part, hp] at hs
  obtain ⟨b, -, -, hlen, hpos⟩ := hs
  have hwaits : readsItem c = true := by
    simp only [readsItem, hcur, derefCmd_some hget, hslot, decide_eq_true_eq]
    omega
  rw [hinto] at hwaits
  cases hwaits

/-- **Every read and copy of a pass is in bounds.** -/
theorem makes_inBounds {c : Conn} {d : Dec} {r : ReadResult} {a : Access}
    (hrep : ConnRep env g c d) (hsized : d.Sized) (h : Makes env c r a) : a.InBounds := by
  have hstart : ∀ {xs : Bytes}, readsItem c = false →
      r.bound (clientRecvCmdLength - c.client.recvPos) = .data xs →
      c.client.recvPos + xs.length ≤ clientRecvCmdLength ∧
        AtHeader env (c.client.recvPos + xs.length) (0, c.readInto xs) := by
    intro xs hinto hread
    obtain ⟨hne, hle⟩ := bound_data hread
    have hpos := hsized.pos_le
    rw [← hrep.client.pos] at hpos
    have hxs := List.length_pos_iff.mpr hne
    obtain ⟨hrep', -⟩ := readInto_rep hrep xs
    refine ⟨by omega, ?_, g, d.read xs, hrep', hsized.openCmd, fun dc hdc => ?_⟩
    · show 0 < c.client.recvPos + xs.length
      omega
    · exact noPart_of_readsItem hrep hinto dc hdc
  cases h with
  | read ha => exact passAccesses_inBounds hrep hsized ha
  | header hinto hread hreach ha =>
    obtain ⟨htotal, hat⟩ := hstart hinto hread
    have hat' := goes_invariant (fun _ _ hs hg => AtHeader.turn htotal hs hg) hreach hat
    exact headerAccesses_inBounds htotal hat'.1 ha
  | item hinto hread hreach hfresh henter hitems ha =>
    obtain ⟨htotal, hat⟩ := hstart hinto hread
    have hat' := goes_invariant (fun _ _ hs hg => AtHeader.turn htotal hs hg) hreach hat
    have hitem := goes_invariant (fun _ _ hs hg => AtItem.turn htotal hs hg) hitems
      (hat'.enter hfresh henter)
    exact itemAccesses_inBounds htotal hitem ha

/-- **Receive-state bounds**, in every state the server reaches without an
    index out of range.  No event runs over a block either. -/
theorem receive_state_in_bounds (env : Env) (es : List Event) (s : Server) (me : ClientId)
    (c : ClientStat) (hreach : run (step env) initServer es = .ok s)
    (hget : s.clients.get me = some c) :
    c.recvPos ≤ clientRecvCmdLength ∧
    (∀ p cmd, c.curCmdItem = some p → s.world.cmds.get p = some cmd → Filled cmd) ∧
    (∀ r a, Makes env ⟨me, c, s.world⟩ r a → a.InBounds) ∧
    ∀ e, step env s e ≠ .error .overrun := by
  obtain ⟨g, hrep⟩ := reachable_rep hreach
  have hsized := reachable_sized hreach (by rw [hget]; rfl)
  obtain ⟨hconn, -⟩ := hrep.conn hget
  refine ⟨?_, ?_, ?_, ?_⟩
  · rw [show c.recvPos = _ from hconn.client.pos]
    exact hsized.pos_le
  · intro p cmd hcur hcmd
    have hc := hconn.client.cur
    rcases hdc : (s.dec me).cur with _ | dc
    · rw [hdc] at hc
      rw [show c.curCmdItem = none from hc.1] at hcur
      cases hcur
    · rw [hdc] at hc
      obtain ⟨q, cmd', hq, -, -, hget', -, hr⟩ := hc
      rw [show c.curCmdItem = some q from hq] at hcur
      cases hcur
      rw [show s.world.cmds.get p = some cmd' from hget'] at hcmd
      cases hcmd
      exact hr.filled fun n bs hp => hsized.part_pos dc n bs hdc hp
  · intro r a hmakes
    exact makes_inBounds hconn hsized hmakes
  · intro e hstep
    have hends := step_rep hrep e
    rw [hstep] at hends
    rcases hends with hown | ⟨i, hindex⟩
    · cases hown.1
    · cases hindex

/-- After `"*2\r\n$3\r\nGE"` two bytes of an item have been received. -/
theorem receive_state_in_bounds_part :
    ∃ s c, run (step plainEnv) initServer [.connect 5 true,
        .recv 0 (.data [42, 50, 13, 10, 36, 51, 13, 10, 71, 69])] = .ok s ∧
      s.clients.get 0 = some c ∧ c.recvPos ≤ clientRecvCmdLength ∧
      (∀ r a, Makes plainEnv ⟨0, c, s.world⟩ r a → a.InBounds) ∧
      ∀ e, step plainEnv s e ≠ .error .overrun := by
  obtain ⟨s, hs, hlive⟩ := ok_of_map (show (run (step plainEnv) initServer [.connect 5 true,
        .recv 0 (.data [42, 50, 13, 10, 36, 51, 13, 10, 71, 69])]).map
      (fun s => (s.clients.get 0).isSome) = .ok true by decide +kernel)
  obtain ⟨c, hget⟩ := Option.isSome_iff_exists.mp hlive
  obtain ⟨hpos, -, hmakes, hfits⟩ := receive_state_in_bounds plainEnv _ s 0 c hs hget
  exact ⟨s, c, hs, hget, hpos, hmakes, hfits⟩

end BoAtom
