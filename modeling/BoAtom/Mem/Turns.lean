import BoAtom.Mem.Decoder
import BoAtom.Lib.Loop

/-! # The decoder's loops, turn by turn

    `_check_cmd_complete2` is a loop around a loop.  Here each has its body
    as a function of its own (`checkTurn`, `itemTurn`), the server's loops
    are shown to be these bodies iterated, and every turn that goes on is
    shown to move `pre` forward.  So both loops come to an end, whatever
    the state of the client and whatever is in the buffer. -/

namespace BoAtom

open Memory Loop CString

/-! ## Section 1: Bodies -/

/-- The body of `while (cur_item < args_num)`; it is left to return from the
    function, or because the condition does not hold. -/
def itemTurn (total : Nat) (s : Nat × Conn) : Except Fault (Turn (Nat × Conn) (Flow Conn)) := do
  let pre := s.1
  let c := s.2
  let (p, cmd) ← derefCmd c.world c.client.curCmdItem
  if ¬ (cmd.curItem : Int) < cmd.argsNum then .ok (.leaves (.next pre c))
  else
    match scanItem c.client.recvCmd total pre with
    | .empty => .ok (.leaves (.ret 0 { c with client := { c.client with recvPos := 0 } }))
    | .noDollar => .ok (.leaves (.ret (-1) c))
    | .partLine => .ok (.leaves (.ret 0 { c with client := keepFrom c.client total pre }))
    | .short => .ok (.leaves (.ret (-1) c))
    | .size num => do
      let i ← slot cmd.curItem
      let (a, heap) := c.world.heap.malloc num
      let cmd := { cmd with
        itemLength := Function.update cmd.itemLength i num
        value := Function.update cmd.value i (some a) }
      let w := { c.world with heap := heap }
      if pre + num > total then do
        let w ← storeItem w (some a) 0 (c.client.recvCmd.slice pre total)
        let cmd := { cmd with itemPos := Function.update cmd.itemPos i (total - pre) }
        .ok (.leaves (.ret 0 { c with
          client := { c.client with recvPos := 0 }, world := w.setCmd p cmd }))
      else do
        let w ← storeItem w (some a) 0 (c.client.recvCmd.slice pre (pre + num))
        let cmd := { cmd with
          itemPos := Function.update cmd.itemPos i num, curItem := cmd.curItem + 1 }
        let c := { c with world := w.setCmd p cmd }
        if (cmd.curItem : Int) > cmd.argsNum then .ok (.leaves (.ret (-1) c))
        else .ok (.goes (pre + num, c))

/-- The body of `while (1)`. -/
def checkTurn (env : Env) (total : Nat) (s : Nat × Conn) :
    Except Fault (Turn (Nat × Conn) (Int × Conn)) := do
  match ← decodeCmd env total s.1 s.2 with
  | .ret code c => .ok (.leaves (code, c))
  | .next pre c => do
    let c ← completeIfFull env c
    if pre ≥ total then .ok (.leaves (0, { c with client := { c.client with recvPos := 0 } }))
    else .ok (.goes (pre, c))

theorem itemLoop_eq (total : Nat) : ∀ (fuel pre : Nat) (c : Conn),
    itemLoop total fuel pre c = iterate (itemTurn total) (.error .diverge) fuel (pre, c) := by
  intro fuel
  induction fuel with
  | zero =>
    intro pre c
    rfl
  | succ fuel ih =>
    intro pre c
    simp only [itemLoop, iterate, itemTurn, bind, Except.bind]
    rcases derefCmd c.world c.client.curCmdItem with f | ⟨p, cmd⟩
    · rfl
    dsimp only
    by_cases hmore : (cmd.curItem : Int) < cmd.argsNum
    swap
    · rw [if_pos hmore, if_pos hmore]
    rw [if_neg (not_not.mpr hmore), if_neg (not_not.mpr hmore)]
    rcases scanItem c.client.recvCmd total pre with _ | _ | _ | _ | num
    case size =>
      dsimp only
      rcases slot cmd.curItem with f | i
      · rfl
      dsimp only
      by_cases hpart : pre + num > total
      · rw [if_pos hpart, if_pos hpart]
        rcases storeItem _ _ 0 (c.client.recvCmd.slice pre total) with f | w <;> rfl
      · rw [if_neg hpart, if_neg hpart]
        rcases storeItem _ _ 0 (c.client.recvCmd.slice pre (pre + num)) with f | w
        · rfl
        dsimp only
        by_cases hover : ((cmd.curItem + 1 : Nat) : Int) > cmd.argsNum
        · rw [if_pos hover, if_pos hover]
        · rw [if_neg hover, if_neg hover]
          exact ih _ _
    all_goals rfl

theorem checkLoop_eq (env : Env) (total : Nat) : ∀ (fuel pre : Nat) (c : Conn),
    checkLoop env total fuel pre c =
      iterate (checkTurn env total) (.error .diverge) fuel (pre, c) := by
  intro fuel
  induction fuel with
  | zero =>
    intro pre c
    rfl
  | succ fuel ih =>
    intro pre c
    simp only [checkLoop, iterate, checkTurn, bind, Except.bind]
    rcases decodeCmd env total pre c with f | (⟨code, c⟩ | ⟨pre, c⟩)
    · rfl
    · rfl
    dsimp only
    rcases completeIfFull env c with f | c
    · rfl
    dsimp only
    by_cases hend : pre ≥ total
    · rw [if_pos hend, if_pos hend]
    · rw [if_neg hend, if_neg hend]
      exact ih _ _

/-! ## Section 2: What a turn of the item loop does -/

/-- `malloc(num)`, then a copy to its start. -/
theorem storeItem_malloc (w : World) {num : Nat} {bs : Bytes} (h : bs.length ≤ num) :
    storeItem { w with heap := (w.heap.malloc num).2 } (some (w.heap.malloc num).1) 0 bs =
      .ok { w with heap := ⟨w.heap.blocks ++ [⟨num, bs, true⟩]⟩ } := by
  have hst := Heap.store_eq (Heap.malloc_holds w.heap num) bs (by simpa using h)
  simp only [List.length_nil, List.nil_append] at hst
  rw [storeItem, hst]
  simp [Heap.malloc]

/-- The state after the bytes of an item have been copied out of the
    buffer. -/
def copied (c : Conn) (p : CmdPtr) (cmd : Cmd) (num : Nat) (bs : Bytes) (pos : Nat) : Conn :=
  { c with
    client := { c.client with recvPos := pos }
    world := { c.world with
      heap := ⟨c.world.heap.blocks ++ [⟨num, bs, true⟩]⟩
      cmds := c.world.cmds.set p cmd } }

section turns

variable {total pre pre' num : Nat} {c c' : Conn} {p : CmdPtr} {cmd : Cmd} {i : Fin cmdArgsMax}

/-- What the loop body does once it has found an item of `num` bytes. -/
theorem itemTurn_size (hcur : c.client.curCmdItem = some p) (hget : c.world.cmds.get p = some cmd)
    (hmore : (cmd.curItem : Int) < cmd.argsNum)
    (hscan : scanItem c.client.recvCmd total pre = .size num) (hslot : slot cmd.curItem = .ok i) :
    itemTurn total (pre, c) =
      if pre + num > total then
        .ok (.leaves (.ret 0 (copied c p { cmd with
          itemLength := Function.update cmd.itemLength i num
          value := Function.update cmd.value i (some c.world.heap.blocks.length)
          itemPos := Function.update cmd.itemPos i (total - pre) }
          num (c.client.recvCmd.slice pre total) 0)))
      else
        .ok (.goes (pre + num, copied c p { cmd with
          itemLength := Function.update cmd.itemLength i num
          value := Function.update cmd.value i (some c.world.heap.blocks.length)
          itemPos := Function.update cmd.itemPos i num
          curItem := cmd.curItem + 1 }
          num (c.client.recvCmd.slice pre (pre + num)) c.client.recvPos)) := by
  simp only [itemTurn, hcur, derefCmd_some hget, bind, Except.bind, if_neg (not_not.mpr hmore),
    hscan, hslot]
  by_cases hpart : pre + num > total
  · have hlen := c.client.recvCmd.length_slice_le pre total
    rw [if_pos hpart, if_pos hpart, storeItem_malloc c.world (by omega)]
    simp only [copied, hcur]
    rfl
  · have hlen := c.client.recvCmd.length_slice_le pre (pre + num)
    have hle : ¬ ((cmd.curItem + 1 : Nat) : Int) > cmd.argsNum := by omega
    rw [if_neg hpart, if_neg hpart, storeItem_malloc c.world (by omega)]
    simp only [if_neg hle, copied]
    rfl

/-- What a turn can do: leave for the code behind the loop with all items there
    and nothing changed, return, or go on behind an item that lies in the
    buffer and has been copied. -/
theorem itemTurn_ok {t : Turn (Nat × Conn) (Flow Conn)} (h : itemTurn total (pre, c) = .ok t) :
    ∃ p cmd, c.client.curCmdItem = some p ∧ c.world.cmds.get p = some cmd ∧
      (¬ (cmd.curItem : Int) < cmd.argsNum ∧ t = .leaves (.next pre c) ∨
        (∃ code c', t = .leaves (.ret code c')) ∨
        ∃ num i, (cmd.curItem : Int) < cmd.argsNum ∧
          scanItem c.client.recvCmd total pre = .size num ∧ slot cmd.curItem = .ok i ∧
          pre + num ≤ total ∧ t = .goes (pre + num, copied c p { cmd with
            itemLength := Function.update cmd.itemLength i num
            value := Function.update cmd.value i (some c.world.heap.blocks.length)
            itemPos := Function.update cmd.itemPos i num
            curItem := cmd.curItem + 1 }
            num (c.client.recvCmd.slice pre (pre + num)) c.client.recvPos)) := by
  rcases hderef : derefCmd c.world c.client.curCmdItem with f | ⟨p, cmd⟩
  · simp [itemTurn, hderef, bind, Except.bind] at h
  obtain ⟨hcur, hget⟩ := derefCmd_ok hderef
  refine ⟨p, cmd, hcur, hget, ?_⟩
  by_cases hmore : (cmd.curItem : Int) < cmd.argsNum
  swap
  · left
    simp only [itemTurn, hderef, bind, Except.bind, if_pos hmore, Except.ok.injEq] at h
    exact ⟨hmore, h.symm⟩
  right
  rcases hscan : scanItem c.client.recvCmd total pre with _ | _ | _ | _ | num
  case size =>
    rcases hslot : slot cmd.curItem with f | i
    · simp [itemTurn, hderef, bind, Except.bind, hmore, hscan, hslot] at h
    rw [itemTurn_size hcur hget hmore hscan hslot] at h
    by_cases hpart : pre + num > total
    · rw [if_pos hpart, Except.ok.injEq] at h
      exact Or.inl ⟨_, _, h.symm⟩
    · rw [if_neg hpart, Except.ok.injEq] at h
      exact Or.inr ⟨num, i, hmore, rfl, rfl, Nat.le_of_not_lt hpart, h.symm⟩
  -- without a size the source returns
  all_goals
    left
    simp only [itemTurn, hderef, bind, Except.bind, if_neg (not_not.mpr hmore), hscan,
      Except.ok.injEq] at h
    exact ⟨_, _, h.symm⟩

/-- A turn that goes on has copied an item that lies in the buffer. -/
theorem itemTurn_goes (h : Goes (itemTurn total) (pre, c) (pre', c')) :
    ∃ p cmd num i, c.client.curCmdItem = some p ∧ c.world.cmds.get p = some cmd ∧
      (cmd.curItem : Int) < cmd.argsNum ∧ scanItem c.client.recvCmd total pre = .size num ∧
      slot cmd.curItem = .ok i ∧ pre + num ≤ total ∧ pre' = pre + num ∧
      c' = copied c p { cmd with
        itemLength := Function.update cmd.itemLength i num
        value := Function.update cmd.value i (some c.world.heap.blocks.length)
        itemPos := Function.update cmd.itemPos i num
        curItem := cmd.curItem + 1 }
        num (c.client.recvCmd.slice pre (pre + num)) c.client.recvPos := by
  obtain ⟨p, cmd, hcur, hget, ⟨-, ht⟩ | ⟨code, c₁, ht⟩ | ⟨num, i, hmore, hscan, hslot, hfit, ht⟩⟩ :=
    itemTurn_ok h
  · cases ht
  · cases ht
  · cases ht
    exact ⟨p, cmd, num, i, hcur, hget, hmore, hscan, hslot, hfit, rfl, rfl⟩

/-- A turn that leaves the loop for the code behind it has changed nothing:
    all items are there. -/
theorem itemTurn_done (h : itemTurn total (pre, c) = .ok (.leaves (.next pre' c'))) :
    pre' = pre ∧ c' = c ∧ ∃ p cmd, c.client.curCmdItem = some p ∧ c.world.cmds.get p = some cmd ∧
      ¬ (cmd.curItem : Int) < cmd.argsNum := by
  obtain ⟨p, cmd, hcur, hget, ⟨hdone, ht⟩ | ⟨code, c₁, ht⟩ | ⟨num, i, -, -, -, -, ht⟩⟩ := itemTurn_ok h
  · cases ht
    exact ⟨rfl, rfl, p, cmd, hcur, hget, hdone⟩
  · cases ht
  · cases ht

/-! ## Section 3: Every turn moves forward -/

theorem itemTurn_lt {s s' : Nat × Conn} (h : Goes (itemTurn total) s s') :
    s.1 < s'.1 ∧ s'.1 ≤ total := by
  obtain ⟨pre, c⟩ := s
  obtain ⟨pre', c'⟩ := s'
  obtain ⟨p, cmd, num, i, -, -, -, hscan, -, hfit, rfl, -⟩ := itemTurn_goes h
  have hnum := (scanItem_size hscan).2
  show pre < pre + num ∧ pre + num ≤ total
  omega

/-- **The inner loop ends**, from any state. -/
theorem itemLoop_comes (htotal : total ≤ clientRecvCmdLength) (pre : Nat) (c : Conn) :
    Comes (itemTurn total) (pre, c) (itemLoop total (clientRecvCmdLength + 1) pre c) := by
  rw [itemLoop_eq]
  apply iterate_comes (m := fun s => total - s.1)
  · intro s s' hgoes
    have hlt := itemTurn_lt hgoes
    show total - s'.1 < total - s.1
    omega
  · show total - pre < clientRecvCmdLength + 1
    omega

theorem scanHeader_count_le {buf : RecvBuf} {num : Int} {stop : Nat}
    (h : scanHeader buf total pre = .count num stop) : pre ≤ stop := by
  unfold scanHeader at h
  rcases hskip : (if pre < total then skipToStar (buf.slice pre total) else some 0) with _ | k
  · simp [hskip] at h
  simp only [hskip] at h
  rcases hend : strstrCrlf (buf.bytes.drop (pre + k)) with _ | q
  · simp [hend] at h
  simp only [hend] at h
  split at h
  · cases h
  · split at h
    · cases h
    · cases h
      omega

/-- A header that is accepted takes two bytes at least. -/
theorem headerStage_lt {env : Env} (h : headerStage env total pre c = .ok (.next pre' c')) :
    pre < pre' := by
  unfold headerStage at h
  rcases hscan : scanHeader c.client.recvCmd total pre with _ | pre₁ | _ | stop | ⟨num, stop⟩
  case count =>
    have hle := scanHeader_count_le hscan
    simp only [hscan, bind, Except.bind] at h
    split at h
    · cases h
    · split at h
      · cases h
      · cases h
        omega
  all_goals simp [hscan] at h

/-- Where the inner loop leaves for the code behind it. -/
theorem items_done {out : Except Fault (Flow Conn)} {s : Nat × Conn} (h : Comes (itemTurn total) s out)
    (hout : out = .ok (.next pre' c')) :
    s.1 ≤ pre' ∧ ((∃ p cmd, s.2.client.curCmdItem = some p ∧ s.2.world.cmds.get p = some cmd ∧
      (cmd.curItem : Int) < cmd.argsNum) → s.1 < pre') := by
  induction h with
  | fault => cases hout
  | @leaves s a hl =>
    cases hout
    obtain ⟨rfl, rfl, p, cmd, hcur, hget, hfull⟩ := itemTurn_done hl
    refine ⟨le_refl _, ?_⟩
    rintro ⟨q, cmd', hcur', hget', hmore⟩
    rw [hcur] at hcur'
    cases hcur'
    rw [hget] at hget'
    cases hget'
    exact absurd hmore hfull
  | @goes s s' out hg hrest ih =>
    have hlt := (itemTurn_lt hg).1
    have hle := (ih hout).1
    exact ⟨by omega, fun _ => by omega⟩

/-- **Every pass of the outer loop moves forward**: by its header, or else
    by an item, since the current command is waiting for one. -/
theorem decodeCmd_lt {env : Env} (htotal : total ≤ clientRecvCmdLength)
    (h : decodeCmd env total pre c = .ok (.next pre' c')) : pre < pre' := by
  unfold decodeCmd at h
  rcases hwants : wantsHeader c with f | fresh
  · simp [hwants, bind, Except.bind] at h
  rcases fresh with _ | _
  · -- the current command goes on
    simp only [hwants, bind, Except.bind, Bool.false_eq_true, if_false, Flow.andThen] at h
    have hdone := (items_done (itemLoop_comes htotal pre c) h).2
    apply hdone
    unfold wantsHeader at hwants
    split at hwants
    · cases hwants
    · rcases hderef : derefCmd c.world c.client.curCmdItem with f | ⟨p, cmd⟩
      · simp [hderef, bind, Except.bind] at hwants
      · obtain ⟨hcur, hget⟩ := derefCmd_ok hderef
        simp only [hderef, bind, Except.bind, Except.ok.injEq, decide_eq_false_iff_not] at hwants
        exact ⟨p, cmd, hcur, hget, by omega⟩
  · simp only [hwants, bind, Except.bind, if_true] at h
    rcases hheader : headerStage env total pre c with f | (⟨code, c₁⟩ | ⟨pre₁, c₁⟩)
    · simp [hheader] at h
    · simp [hheader, Flow.andThen] at h
    · simp only [hheader, Flow.andThen] at h
      have hlt := headerStage_lt hheader
      have hle := (items_done (itemLoop_comes htotal pre₁ c₁) h).1
      exact lt_of_lt_of_le hlt hle

theorem checkTurn_lt {env : Env} (htotal : total ≤ clientRecvCmdLength) {s s' : Nat × Conn}
    (h : Goes (checkTurn env total) s s') : s.1 < s'.1 ∧ s'.1 < total := by
  unfold Goes checkTurn at h
  rcases hdecode : decodeCmd env total s.1 s.2 with f | (⟨code, c₁⟩ | ⟨pre₁, c₁⟩)
  · simp [hdecode, bind, Except.bind] at h
  · simp [hdecode, bind, Except.bind] at h
  · simp only [hdecode, bind, Except.bind] at h
    rcases hfull : completeIfFull env c₁ with f | c₂
    · simp [hfull] at h
    · simp only [hfull] at h
      split at h
      · cases h
      · cases h
        have hlt := decodeCmd_lt htotal hdecode
        exact ⟨hlt, by omega⟩

/-- **`_check_cmd_complete2` ends**, from any state, with any bytes in the
    buffer. -/
theorem checkCmdComplete2_comes (env : Env) (htotal : total ≤ clientRecvCmdLength) (c : Conn) :
    Comes (checkTurn env total) (0, c) (checkCmdComplete2 env c total) := by
  unfold checkCmdComplete2
  rw [checkLoop_eq]
  apply iterate_comes (m := fun s => total - s.1)
  · intro s s' hgoes
    have hlt := checkTurn_lt htotal hgoes
    show total - s'.1 < total - s.1
    omega
  · show total - 0 < clientRecvCmdLength + 1
    omega

end turns

/-! ## Section 4: The same loops without memory -/

namespace Dec

def itemTurn (total : Nat) (s : Nat × Dec) : Except Fault (Turn (Nat × Dec) (Flow Dec)) :=
  let pre := s.1
  let d := s.2
  match d.cur with
  | none => .error .nullDeref
  | some dc =>
    if ¬ (dc.items.length : Int) < dc.argc then .ok (.leaves (.next pre d))
    else
      match scanItem d.buf total pre with
      | .empty => .ok (.leaves (.ret 0 { d with pos := 0 }))
      | .noDollar => .ok (.leaves (.ret (-1) d))
      | .partLine => .ok (.leaves (.ret 0 (d.keepFrom total pre)))
      | .short => .ok (.leaves (.ret (-1) d))
      | .size num =>
        if dc.items.length ≥ cmdArgsMax then .error (.cmdIndex dc.items.length)
        else if pre + num > total then
          .ok (.leaves (.ret 0 { d with
            pos := 0, cur := some { dc with part := some (num, d.buf.slice pre total) } }))
        else
          .ok (.goes (pre + num, { d with cur := some { dc with
            items := dc.items ++ [d.buf.slice pre (pre + num)], part := none } }))

def checkTurn (total : Nat) (s : Nat × Dec) : Except Fault (Turn (Nat × Dec) (Int × Dec)) :=
  (decodeCmd total s.1 s.2).bind fun
    | .ret code d => .ok (.leaves (code, d))
    | .next pre d =>
      (completeIfFull d).bind fun d =>
        if pre ≥ total then .ok (.leaves (0, { d with pos := 0 })) else .ok (.goes (pre, d))

theorem itemLoop_eq (total : Nat) : ∀ (fuel pre : Nat) (d : Dec),
    itemLoop total fuel pre d = iterate (itemTurn total) (.error .diverge) fuel (pre, d) := by
  intro fuel
  induction fuel with
  | zero =>
    intro pre d
    rfl
  | succ fuel ih =>
    intro pre d
    rcases hcur : d.cur with _ | dc
    · simp only [itemLoop, iterate, itemTurn, hcur, Except.bind]
    by_cases hmore : (dc.items.length : Int) < dc.argc
    swap
    · simp only [itemLoop, iterate, itemTurn, hcur, if_pos hmore, Except.bind]
    rcases hscan : scanItem d.buf total pre with _ | _ | _ | _ | num
    case size =>
      simp only [itemLoop, iterate, itemTurn, hcur, if_neg (not_not.mpr hmore), hscan]
      by_cases hge : dc.items.length ≥ cmdArgsMax
      · rw [if_pos hge, if_pos hge]
        rfl
      · rw [if_neg hge, if_neg hge]
        by_cases hpart : pre + num > total
        · rw [if_pos hpart, if_pos hpart]
          rfl
        · rw [if_neg hpart, if_neg hpart]
          exact ih _ _
    all_goals simp only [itemLoop, iterate, itemTurn, hcur, if_neg (not_not.mpr hmore), hscan,
      Except.bind]

theorem checkLoop_eq (total : Nat) : ∀ (fuel pre : Nat) (d : Dec),
    checkLoop total fuel pre d = iterate (checkTurn total) (.error .diverge) fuel (pre, d) := by
  intro fuel
  induction fuel with
  | zero =>
    intro pre d
    rfl
  | succ fuel ih =>
    intro pre d
    simp only [checkLoop, iterate, checkTurn]
    rcases decodeCmd total pre d with f | (⟨code, d⟩ | ⟨pre, d⟩)
    · rfl
    · rfl
    simp only [Except.bind]
    rcases completeIfFull d with f | d
    · rfl
    dsimp only
    by_cases hend : pre ≥ total
    · rw [if_pos hend, if_pos hend]
    · rw [if_neg hend, if_neg hend]
      exact ih _ _

end Dec

end BoAtom
