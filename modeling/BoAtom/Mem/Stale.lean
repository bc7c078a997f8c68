import BoAtom.Mem.Footprint
import BoAtom.Mem.Reach
import BoAtom.Mem.Wire

/-! # Bytes behind the received ones

    `recv_cmd` is never cleared: behind the `total_len` bytes received lies
    what earlier requests left there.  Two calls of `_check_cmd_complete2`
    whose buffers differ in these bytes only are run in step.  They stay in
    step as long as every `strstr` stops at the received bytes, and come
    apart at the first one that does not: a NUL behind, and it finds
    nothing; a CR LF, and it accepts a line that has not been received. -/

namespace BoAtom

open Memory Machine Loop CString Relation

/-! ## Section 1: Where the decoder is -/

/-- At the top of `while (1)`, or of the loop over the items: `pre`, and the
    state. -/
inductive Place where
  | header (pre : Nat) (c : Conn)
  | item (pre : Nat) (c : Conn)

def Place.conn : Place → Conn
  | .header _ c => c
  | .item _ c => c

/-- The code behind the loop over the items. -/
def afterItems (env : Env) (total : Nat) : Flow Conn → Except Fault (Turn Place (Int × Conn))
  | .ret code c => .ok (.leaves (code, c))
  | .next pre c => do
    let c ← completeIfFull env c
    if pre ≥ total then .ok (.leaves (0, { c with client := { c.client with recvPos := 0 } }))
    else .ok (.goes (.header pre c))

/-- Both loops of `_check_cmd_complete2` as one, from a place to the next. -/
def placeTurn (env : Env) (total : Nat) : Place → Except Fault (Turn Place (Int × Conn))
  | .header pre c => do
    let fresh ← wantsHeader c
    match ← (if fresh then headerStage env total pre c else .ok (.next pre c)) with
    | .ret code c => .ok (.leaves (code, c))
    | .next pre c => .ok (.goes (.item pre c))
  | .item pre c => do
    match ← itemTurn total (pre, c) with
    | .goes (pre, c) => .ok (.goes (.item pre c))
    | .leaves flow => afterItems env total flow

/-- Where the turn at a place calls `strstr`, if it does. -/
def Place.search (total : Nat) : Place → Option Nat
  | .header pre c =>
    match wantsHeader c with
    | .ok true => (skipToStar (c.client.recvCmd.slice pre total)).map (pre + ·)
    | _ => none
  | .item pre c =>
    match derefCmd c.world c.client.curCmdItem with
    | .ok (_, cmd) =>
      if (cmd.curItem : Int) < cmd.argsNum ∧ pre < total ∧ c.client.recvCmd.bytes[pre]? = some dollar
      then some pre else none
    | .error _ => none

/-- The received part of a line at which `strstr` runs on: no CR LF and no
    NUL stops it, and the bytes behind have room for the rest of a CR LF. -/
def Unfinished (total : Nat) (s : Bytes) : Prop :=
  0 ∉ s ∧ strstrCrlf s = none ∧
    (total + 2 ≤ clientRecvCmdLength ∨ total + 1 = clientRecvCmdLength ∧ s.getLast? = some CR)

/-- The `strstr` at this place runs over the end of the received bytes. -/
def Place.RunsOver (total : Nat) (s : Place) : Prop :=
  ∃ start, s.search total = some start ∧ Unfinished total (s.conn.client.recvCmd.slice start total)

instance (total : Nat) (s : Bytes) : Decidable (Unfinished total s) :=
  inferInstanceAs (Decidable (_ ∧ _ ∧ _))

instance (total : Nat) (s : Place) : Decidable (s.RunsOver total) :=
  decidable_of_iff ((s.search total).any (fun start =>
      decide (Unfinished total (s.conn.client.recvCmd.slice start total))) = true)
    (by simp [Option.any_eq_true, Place.RunsOver])

variable {env : Env} {c c' d d' : Conn} {s s' t t' : Place} {total pre pre' : Nat}

theorem Comes.items (env : Env) {p : Nat × Conn} {out : Except Fault (Flow Conn)} (h : Comes (itemTurn total) p out) :
    ∃ t, ReflTransGen (Goes (placeTurn env total)) (.item p.1 p.2) t ∧
      placeTurn env total t = out.bind (afterItems env total) := by
  induction h with
  | @fault p f hf =>
    have hturn : placeTurn env total (.item p.1 p.2) = .error f := by
      simp only [placeTurn, hf, bind, Except.bind]
    exact ⟨_, .refl, hturn⟩
  | @leaves p flow hl =>
    have hturn : placeTurn env total (.item p.1 p.2) = afterItems env total flow := by
      simp only [placeTurn, hl, bind, Except.bind]
    exact ⟨_, .refl, hturn⟩
  | @goes p p' out hg _ ih =>
    have hturn : Goes (placeTurn env total) (.item p.1 p.2) (.item p'.1 p'.2) := by
      unfold Goes at hg ⊢
      simp only [placeTurn, hg, bind, Except.bind]
    obtain ⟨t, ht, hend⟩ := ih
    exact ⟨t, .head hturn ht, hend⟩

/-- One pass of the outer loop, place by place. -/
theorem checkTurn_places (env : Env) (htotal : total ≤ clientRecvCmdLength) (pre : Nat) (c : Conn) :
    ∃ t, ReflTransGen (Goes (placeTurn env total)) (.header pre c) t ∧
      placeTurn env total t = (checkTurn env total (pre, c)).map fun
        | .goes p => .goes (.header p.1 p.2)
        | .leaves out => .leaves out := by
  unfold checkTurn decodeCmd
  rcases hwants : wantsHeader c with f | fresh
  · have hturn : placeTurn env total (.header pre c) = .error f := by
      simp only [placeTurn, hwants, bind, Except.bind]
    exact ⟨_, .refl, by simp [hturn, bind, Except.bind, Except.map]⟩
  rcases hstage : (if fresh then headerStage env total pre c else .ok (.next pre c)) with
    f | (⟨code, c₁⟩ | ⟨pre₁, c₁⟩)
  · have hturn : placeTurn env total (.header pre c) = .error f := by
      simp only [placeTurn, hwants, hstage, bind, Except.bind]
    exact ⟨_, .refl, by simp [hturn, hstage, bind, Except.bind, Except.map]⟩
  · have hturn : placeTurn env total (.header pre c) = .ok (.leaves (code, c₁)) := by
      simp only [placeTurn, hwants, hstage, bind, Except.bind]
    exact ⟨_, .refl, by simp [hturn, hstage, Flow.andThen, bind, Except.bind, Except.map]⟩
  · have hturn : Goes (placeTurn env total) (.header pre c) (.item pre₁ c₁) := by
      unfold Goes
      simp only [placeTurn, hwants, hstage, bind, Except.bind]
    obtain ⟨t, ht, hend⟩ := Comes.items env (itemLoop_comes htotal pre₁ c₁)
    refine ⟨t, .head hturn ht, ?_⟩
    rw [hend]
    simp only [hstage, Flow.andThen, bind, Except.bind]
    rcases itemLoop total (clientRecvCmdLength + 1) pre₁ c₁ with f | (⟨code, c₂⟩ | ⟨pre₂, c₂⟩)
    · rfl
    · rfl
    simp only [afterItems, bind, Except.bind]
    rcases completeIfFull env c₂ with f | c₃
    · rfl
    · dsimp only
      split <;> rfl

theorem comes_places (htotal : total ≤ clientRecvCmdLength) {p : Nat × Conn}
    {out : Except Fault (Int × Conn)} (h : Comes (checkTurn env total) p out) :
    Comes (placeTurn env total) (.header p.1 p.2) out := by
  induction h with
  | @fault p f hf =>
    obtain ⟨t, ht, hend⟩ := checkTurn_places env htotal p.1 p.2
    rw [hf] at hend
    exact Comes.after ht (.fault hend)
  | @leaves p a hl =>
    obtain ⟨t, ht, hend⟩ := checkTurn_places env htotal p.1 p.2
    rw [hl] at hend
    exact Comes.after ht (.leaves hend)
  | @goes p p' out hg _ ih =>
    obtain ⟨t, ht, hend⟩ := checkTurn_places env htotal p.1 p.2
    rw [show checkTurn env total (p.1, p.2) = _ from hg] at hend
    exact Comes.after ht (.goes hend ih)

/-- **What `_check_cmd_complete2` comes to**, place by place. -/
theorem check_comes (env : Env) (htotal : total ≤ clientRecvCmdLength) (c : Conn) :
    Comes (placeTurn env total) (.header 0 c) (checkCmdComplete2 env c total) :=
  comes_places htotal (checkCmdComplete2_comes env htotal c)

/-! ## Section 2: Other bytes behind -/

/-- The client with another `recv_cmd`. -/
def Conn.rebuf (b : RecvBuf) (c : Conn) : Conn :=
  { c with client := { c.client with recvCmd := b } }

/-- `d` is `c` with the bytes `tail` behind the `total` received ones. -/
structure Front (total : Nat) (tail : Bytes) (c d : Conn) : Prop where
  bytes : d.client.recvCmd.bytes = c.client.recvCmd.bytes.take total ++ tail
  rest : d = c.rebuf d.client.recvCmd
  pos : c.client.recvPos ≤ total

/-- The current command, the command queue, the responses, the store (the
    dict, and the memory all of these are in), `recv_pos` and the first
    `recv_pos` bytes of the buffer are the same. -/
structure SameState (c d : Conn) : Prop where
  curCmdItem : d.client.curCmdItem = c.client.curCmdItem
  queueHead : d.client.recvCmdQueueHead = c.client.recvCmdQueueHead
  queueTail : d.client.recvCmdQueueTail = c.client.recvCmdQueueTail
  cmds : d.world.cmds = c.world.cmds
  responses : d.client.sendResponseQueue = c.client.sendResponseQueue
  dict : d.world.dict = c.world.dict
  heap : d.world.heap = c.world.heap
  recvPos : d.client.recvPos = c.client.recvPos
  bytes : d.client.recvCmd.bytes.take c.client.recvPos =
    c.client.recvCmd.bytes.take c.client.recvPos

/-- The same code, and the same state then. -/
def SameReturn (x y : Int × Conn) : Prop := x.1 = y.1 ∧ SameState x.2 y.2

abbrev noFault : Fault → Prop := fun _ => False

/-- Both calls return the same, or both abort in the same way. -/
def SameResult : Except Fault (Int × Conn) → Except Fault (Int × Conn) → Prop :=
  Simulates noFault SameReturn

/-- A part of the decoder's loop comes to the same in both runs. -/
def FlowFront (total : Nat) (tail : Bytes) : Flow Conn → Flow Conn → Prop
  | .ret code c, .ret code' d => code = code' ∧ SameState c d
  | .next pre c, .next pre' d => pre = pre' ∧ Front total tail c d
  | _, _ => False

/-- Two runs at the same place. -/
def PlaceFront (total : Nat) (tail : Bytes) : Place → Place → Prop
  | .header pre c, .header pre' d => pre = pre' ∧ pre < total ∧ Front total tail c d
  | .item pre c, .item pre' d => pre = pre' ∧ Front total tail c d
  | _, _ => False

section front

variable {tail : Bytes} {buf b : RecvBuf} {start : Nat}

theorem sameState_rebuf (h : b.bytes.take c.client.recvPos =
    c.client.recvCmd.bytes.take c.client.recvPos) : SameState c (c.rebuf b) :=
  ⟨rfl, rfl, rfl, rfl, rfl, rfl, rfl, rfl, h⟩

theorem take_front {k : Nat} (h : b.bytes = buf.bytes.take total ++ tail)
    (htotal : total ≤ clientRecvCmdLength) (hk : k ≤ total) :
    b.bytes.take k = buf.bytes.take k := by
  have hlen := buf.length_eq
  rw [h, List.take_append_of_le_length (by rw [List.length_take]; omega), List.take_take,
    Nat.min_eq_left hk]

theorem slice_front {i j : Nat} (h : b.bytes = buf.bytes.take total ++ tail)
    (htotal : total ≤ clientRecvCmdLength) (hj : j ≤ total) :
    b.slice i j = buf.slice i j := by
  unfold RecvBuf.slice
  rw [take_front h htotal hj]

theorem byte_front {i : Nat} (h : b.bytes = buf.bytes.take total ++ tail)
    (htotal : total ≤ clientRecvCmdLength) (hi : i < total) : b.bytes[i]? = buf.bytes[i]? := by
  rw [← List.getElem?_take_of_lt hi, take_front h htotal (le_refl total),
    List.getElem?_take_of_lt hi]

/-- A byte written among the received ones. -/
theorem write_front (h : b.bytes = buf.bytes.take total ++ tail)
    (htotal : total ≤ clientRecvCmdLength) {stop : Nat} (hstop : stop < total) :
    (b.write stop [0]).bytes = (buf.write stop [0]).bytes.take total ++ tail := by
  have hlen := buf.length_eq
  show overlay b.bytes stop [0] = (overlay buf.bytes stop [0]).take total ++ tail
  have hfits : stop + ([0] : Bytes).length ≤ total := hstop
  rw [h, overlay_append (by rw [List.length_take]; omega), overlay_take hfits (by omega)]

theorem Front.sameState (h : Front total tail c d) (htotal : total ≤ clientRecvCmdLength) :
    SameState c d := by
  rw [h.rest]
  exact sameState_rebuf (take_front h.bytes htotal h.pos)

theorem Front.wants (h : Front total tail c d) : wantsHeader d = wantsHeader c := by
  rw [h.rest]
  rfl

theorem Front.deref (h : Front total tail c d) :
    derefCmd d.world d.client.curCmdItem = derefCmd c.world c.client.curCmdItem := by
  rw [h.rest]
  rfl

/-- `memmove` to the front takes received bytes only. -/
theorem keepFrom_sameState (h : Front total tail c d) (htotal : total ≤ clientRecvCmdLength)
    (hstart : start ≤ total) :
    SameState { c with client := keepFrom c.client total start }
      { d with client := keepFrom d.client total start } := by
  have hslice := slice_front (i := start) h.bytes htotal (le_refl total)
  unfold keepFrom
  by_cases h0 : start ≠ 0
  · rw [if_pos h0, if_pos h0, hslice, h.rest]
    have hlen := c.client.recvCmd.length_slice (i := start) htotal
    have hkept : ∀ buf : RecvBuf, (buf.write 0 (c.client.recvCmd.slice start total)).bytes.take
        (total - start) = c.client.recvCmd.slice start total := by
      intro buf
      have hfits : 0 + (c.client.recvCmd.slice start total).length ≤ buf.bytes.length := by
        rw [hlen, buf.length_eq]
        omega
      have htake := take_overlay hfits
      rwa [Nat.zero_add, hlen, List.take_zero, List.nil_append] at htake
    apply sameState_rebuf
    exact (hkept d.client.recvCmd).trans (hkept c.client.recvCmd).symm
  · rw [if_neg h0, if_neg h0]
    exact h.sameState htotal

/-! ## Section 3: The scans -/

/-- Bytes behind that complete the line. -/
theorem Unfinished.completed {s : Bytes} (h : Unfinished total s) :
    ∃ x q, total + x.length = clientRecvCmdLength ∧ strstrCrlf (s ++ x) = some q := by
  obtain ⟨h0, hnone, hroom | ⟨hroom, hlast⟩⟩ := h
  · obtain ⟨q, hq⟩ := strstrCrlf_reaches h0 hnone (List.replicate (clientRecvCmdLength - 2 - total) 0)
    refine ⟨_, q, ?_, hq⟩
    simp only [List.length_cons, List.length_replicate]
    omega
  · -- the CR has been received
    obtain ⟨l, rfl⟩ := List.getLast?_eq_some_iff.mp hlast
    have hl : strstrCrlf l = none := by
      rcases hl : strstrCrlf l with _ | q
      · rfl
      · rw [strstrCrlf_append hl] at hnone
        cases hnone
    obtain ⟨q, hq⟩ := strstrCrlf_reaches (fun h => h0 (List.mem_append_left _ h)) hl []
    refine ⟨[LF], q, hroom, ?_⟩
    rwa [List.append_assoc]

/-- Elsewhere `strstr` looks at received bytes only. -/
theorem strstrCrlf_bounded {s x : Bytes} (h : ¬ Unfinished total s)
    (hx : total + x.length = clientRecvCmdLength) : strstrCrlf (s ++ x) = strstrCrlf s := by
  rcases hs : strstrCrlf s with _ | q
  swap
  · exact strstrCrlf_append hs x
  by_cases h0 : 0 ∈ s
  · exact strstrCrlf_append_of_nul h0 hs x
  rcases hhit : strstrCrlf (s ++ x) with _ | q
  · rfl
  exfalso
  obtain ⟨hsplit, hlen, -⟩ := strstrCrlf_eq_some hhit
  rw [List.length_append] at hlen
  have hout : s.length < q + 2 := by
    by_contra hin
    rw [strstrCrlf_of_append hhit (by omega)] at hs
    cases hs
  apply h
  refine ⟨h0, hs, ?_⟩
  by_cases hroom : total + 2 ≤ clientRecvCmdLength
  · exact Or.inl hroom
  -- one byte is behind, and it is the LF
  right
  refine ⟨by omega, ?_⟩
  have hq : q + 1 = s.length := by omega
  have htake := congrArg (List.take s.length) hsplit
  rw [List.take_left' rfl, ← hq, List.take_append, List.length_take, List.length_append,
    Nat.min_eq_left (by omega), Nat.add_sub_cancel_left] at htake
  rw [htake]
  simp

theorem search_eq (buf : RecvBuf) (hstart : start ≤ total) (htotal : total ≤ clientRecvCmdLength)
    (hquiet : ¬ Unfinished total (buf.slice start total)) :
    strstrCrlf (buf.bytes.drop start) = strstrCrlf (buf.slice start total) := by
  rw [buf.slice_append_drop hstart]
  apply strstrCrlf_bounded hquiet
  rw [List.length_drop, buf.length_eq]
  omega

/-- The line found lies among the received bytes. -/
theorem line_eq (buf : RecvBuf) {q : Nat} (hstart : start ≤ total) (htotal : total ≤ clientRecvCmdLength)
    (hq : strstrCrlf (buf.slice start total) = some q) :
    (buf.bytes.drop start).take q = (buf.slice start total).take q ∧ start + q + 2 ≤ total := by
  obtain ⟨-, hlen, -⟩ := strstrCrlf_eq_some hq
  rw [buf.slice_append_drop hstart, List.take_append_of_le_length (by omega)]
  rw [buf.length_slice htotal] at hlen
  exact ⟨rfl, by omega⟩

theorem scanHeader_front (h : b.bytes = buf.bytes.take total ++ tail) (hpre : pre < total)
    (htotal : total ≤ clientRecvCmdLength)
    (hquiet : ∀ k, skipToStar (buf.slice pre total) = some k →
      ¬ Unfinished total (buf.slice (pre + k) total)) :
    scanHeader b total pre = scanHeader buf total pre ∧
    (∀ stop, scanHeader buf total pre = .zero stop → stop < total) ∧
    ∀ num stop, scanHeader buf total pre = .count num stop → stop < total := by
  have hslice : ∀ i, b.slice i total = buf.slice i total := fun i =>
    slice_front h htotal (le_refl total)
  -- the two buffers agree up to `total`, and so do the stars found there
  rcases hk : skipToStar (buf.slice pre total) with _ | k
  · have hskipped : ∀ a : RecvBuf, a.slice pre total = buf.slice pre total →
        scanHeader a total pre = .skipped := by
      intro a ha
      simp only [scanHeader, if_pos hpre, ha, hk]
    rw [hskipped b (hslice pre), hskipped buf rfl]
    simp
  have hkb : skipToStar (b.slice pre total) = some k := by rw [hslice, hk]
  have hstart : pre + k ≤ total := by
    have hlt := (List.getElem?_eq_some_iff.mp (Dec.skipToStar_spec hk)).1
    rw [buf.length_slice htotal] at hlt
    omega
  -- `strstr` may look behind `total`, but by `hquiet` it finds nothing there
  have hq := search_eq buf hstart htotal (hquiet k hk)
  have hqb := search_eq b hstart htotal (by rw [hslice]; exact hquiet k hk)
  rw [hslice] at hqb
  rcases hhit : strstrCrlf (buf.slice (pre + k) total) with _ | q
  · rw [hhit] at hq hqb
    rw [scanHeader_partLine hpre hkb hqb, scanHeader_partLine hpre hk hq]
    simp
  · obtain ⟨hline, hin⟩ := line_eq buf hstart htotal hhit
    obtain ⟨hlineb, -⟩ := line_eq b hstart htotal (by rw [hslice]; exact hhit)
    rw [hslice] at hlineb
    rw [hhit] at hq hqb
    rw [(scanHeader_eq hpre hkb hqb).2, (scanHeader_eq hpre hk hq).2, hlineb, hline]
    refine ⟨rfl, ?_, ?_⟩
    · intro stop hzero
      split at hzero
      · cases hzero
        omega
      · cases hzero
    · intro num stop hcount
      split at hcount
      · cases hcount
      · cases hcount
        omega

theorem scanItem_front (h : b.bytes = buf.bytes.take total ++ tail)
    (htotal : total ≤ clientRecvCmdLength)
    (hquiet : pre < total → buf.bytes[pre]? = some dollar → ¬ Unfinished total (buf.slice pre total)) :
    scanItem b total pre = scanItem buf total pre := by
  have hslice : b.slice pre total = buf.slice pre total := slice_front h htotal (le_refl total)
  by_cases hpre : pre < total
  swap
  · simp only [scanItem, if_pos (Nat.le_of_not_lt hpre)]
  have hbyte := byte_front h htotal hpre
  by_cases hdollar : buf.bytes[pre]? = some dollar
  swap
  · simp only [scanItem, if_neg (Nat.not_le.mpr hpre), hbyte, if_pos hdollar]
  have hb : b.bytes[pre]? = some dollar := hbyte.trans hdollar
  have hq := search_eq buf hpre.le htotal (hquiet hpre hdollar)
  have hqb := search_eq b hpre.le htotal (by rw [hslice]; exact hquiet hpre hdollar)
  rw [hslice] at hqb
  rcases hhit : strstrCrlf (buf.slice pre total) with _ | q
  · rw [hhit] at hq hqb
    rw [scanItem_partLine hpre hb hqb, scanItem_partLine hpre hdollar hq]
  · obtain ⟨hline, -⟩ := line_eq buf hpre.le htotal hhit
    obtain ⟨hlineb, -⟩ := line_eq b hpre.le htotal (by rw [hslice]; exact hhit)
    rw [hslice] at hlineb
    rw [hhit] at hq hqb
    rw [scanItem_eq hpre hb hqb, scanItem_eq hpre hdollar hq, hlineb, hline]

/-! ## Section 4: Two runs in step -/

/-- What works on the queues works on them with any buffer. -/
theorem front_of_graft {f : Conn → Except Fault Conn}
    (hf : ∀ c x, f (c.graft x) = Conn.graft x <$> f c) (h : Front total tail c d) :
    Simulates noFault (Front total tail) (f c) (f d) := by
  have hd : d = c.graft { c.client with recvCmd := d.client.recvCmd } := h.rest
  have hself := hf c c.client
  rw [Conn.graft_self] at hself
  have hother := hf c { c.client with recvCmd := d.client.recvCmd }
  rw [← hd] at hother
  rw [hother]
  rcases hout : f c with e | c'
  · exact Simulates.error e
  rw [hout] at hself
  -- the rest of the client has not been touched
  have hrest : c' = c'.graft c.client := Except.ok.inj hself
  have hbuf : c'.client.recvCmd = c.client.recvCmd := congrArg (·.client.recvCmd) hrest
  have hpos : c'.client.recvPos = c.client.recvPos := congrArg (·.client.recvPos) hrest
  refine ⟨?_, ?_, ?_⟩
  · rw [hbuf]
    exact h.bytes
  · show c'.graft { c.client with recvCmd := d.client.recvCmd } = c'.rebuf d.client.recvCmd
    rw [hrest]
    rfl
  · rw [hpos]
    exact h.pos

theorem allCmd_front (h : Front total tail c d) :
    Simulates noFault (Front total tail) (allCmd env c) (allCmd env d) :=
  front_of_graft (fun _ _ => allCmd_graft) h

theorem cmdInsert_front (h : Front total tail c d) (p : CmdPtr) :
    Simulates noFault (Front total tail) (cmdInsert c p) (cmdInsert d p) :=
  front_of_graft (f := fun c => cmdInsert c p) (fun _ _ => cmdInsert_graft) h

theorem registerWrite_front (h : Front total tail c d) :
    Front total tail (registerWrite c) (registerWrite d) := by
  have hd : registerWrite d = (registerWrite c).rebuf d.client.recvCmd := by
    conv_lhs => rw [h.rest]
    have hcount : responseCount (c.rebuf d.client.recvCmd).client = responseCount c.client := rfl
    unfold registerWrite
    rw [hcount]
    by_cases hsome : responseCount c.client > 0
    · rw [if_pos hsome, if_pos hsome]
      rfl
    · rw [if_neg hsome, if_neg hsome]
  have hclient : (registerWrite c).client = c.client := by
    unfold registerWrite
    split <;> rfl
  rw [hd]
  refine ⟨?_, rfl, ?_⟩
  · rw [hclient]
    exact h.bytes
  · rw [hclient]
    exact h.pos

theorem headerStage_front (h : Front total tail c d) (hpre : pre < total)
    (htotal : total ≤ clientRecvCmdLength)
    (hquiet : ∀ k, skipToStar (c.client.recvCmd.slice pre total) = some k →
      ¬ Unfinished total (c.client.recvCmd.slice (pre + k) total)) :
    Simulates noFault (FlowFront total tail) (headerStage env total pre c)
      (headerStage env total pre d) := by
  obtain ⟨hscan, hzero, hcount⟩ := scanHeader_front h.bytes hpre htotal hquiet
  unfold headerStage
  rw [hscan]
  rcases hc : scanHeader c.client.recvCmd total pre with _ | start | _ | stop | ⟨num, stop⟩
  · refine ⟨rfl, ?_⟩
    rw [h.rest]
    exact sameState_rebuf rfl
  · exact ⟨rfl, keepFrom_sameState h htotal ((scanHeader_partLine_lt hpre hc).le)⟩
  · exact ⟨rfl, h.sameState htotal⟩
  · have hbytes := write_front h.bytes htotal (hzero stop hc)
    refine ⟨rfl, ?_⟩
    rw [h.rest]
    exact sameState_rebuf (take_front hbytes htotal h.pos)
  · have hbytes := write_front h.bytes htotal (hcount num stop hc)
    dsimp only
    have hworld : d.world = c.world := by rw [h.rest]; rfl
    rw [hworld]
    -- the command has been allocated, and ALL_cmd is called
    set p := c.world.cmds.cells.length
    set cmds := (c.world.cmds.alloc (newCmd num)).2
    have hstart : Front total tail
        { c with
          client := { c.client with
            recvCmd := c.client.recvCmd.write stop [0], curCmdItem := some p }
          world := { c.world with cmds := cmds } }
        { d with
          client := { d.client with
            recvCmd := d.client.recvCmd.write stop [0], curCmdItem := some p }
          world := { c.world with cmds := cmds } } := by
      refine ⟨hbytes, ?_, h.pos⟩
      rw [h.rest]
      rfl
    apply (allCmd_front hstart).bind
    intro c₁ d₁ h₁
    apply (cmdInsert_front (registerWrite_front h₁) p).bind
    intro c₂ d₂ h₂
    exact ⟨rfl, h₂⟩

/-- The turn of the inner loop. -/
def ItemFront (total : Nat) (tail : Bytes) : Turn (Nat × Conn) (Flow Conn) →
    Turn (Nat × Conn) (Flow Conn) → Prop :=
  TurnSim (fun x y => x.1 = y.1 ∧ Front total tail x.2 y.2) (FlowFront total tail)

theorem itemTurn_front (h : Front total tail c d) (htotal : total ≤ clientRecvCmdLength)
    (hquiet : ¬ (Place.item pre c).RunsOver total) :
    Simulates noFault (ItemFront total tail) (itemTurn total (pre, c)) (itemTurn total (pre, d)) := by
  have hworld : d.world = c.world := by rw [h.rest]; rfl
  have hcurItem : d.client.curCmdItem = c.client.curCmdItem := by rw [h.rest]; rfl
  rcases hderef : derefCmd c.world c.client.curCmdItem with f | ⟨p, cmd⟩
  · simp only [itemTurn, hworld, hcurItem, hderef, bind, Except.bind]
    exact Simulates.error f
  obtain ⟨hcur, hget⟩ := derefCmd_ok hderef
  by_cases hmore : (cmd.curItem : Int) < cmd.argsNum
  swap
  · simp only [itemTurn, hworld, hcurItem, hderef, bind, Except.bind, if_pos hmore]
    exact ⟨rfl, h⟩
  -- the only read behind `total` is the search for the size line's end
  have hscan : scanItem d.client.recvCmd total pre = scanItem c.client.recvCmd total pre := by
    apply scanItem_front h.bytes htotal
    intro hpre hdollar hrun
    apply hquiet
    refine ⟨pre, ?_, hrun⟩
    simp only [Place.search, hderef]
    exact if_pos ⟨hmore, hpre, hdollar⟩
  rcases hc : scanItem c.client.recvCmd total pre with _ | _ | _ | _ | num
  case size =>
    rcases hslot : slot cmd.curItem with f | i
    · simp only [itemTurn, hworld, hcurItem, hderef, bind, Except.bind,
        if_neg (not_not.mpr hmore), hscan, hc, hslot]
      exact Simulates.error f
    rw [itemTurn_size hcur hget hmore hc hslot,
      itemTurn_size (hcurItem.trans hcur) (by rw [hworld]; exact hget) hmore (hscan.trans hc) hslot]
    -- the item's bytes are copied from the part in which the buffers agree
    by_cases hpart : pre + num > total
    · rw [if_pos hpart, if_pos hpart, slice_front h.bytes htotal (le_refl total), hworld]
      refine ⟨rfl, ?_⟩
      rw [h.rest]
      exact sameState_rebuf rfl
    · rw [if_neg hpart, if_neg hpart, slice_front h.bytes htotal (Nat.le_of_not_lt hpart), hworld]
      refine ⟨rfl, h.bytes, ?_, h.pos⟩
      rw [h.rest]
      rfl
  all_goals
    simp only [itemTurn, hworld, hcurItem, hderef, bind, Except.bind, if_neg (not_not.mpr hmore),
      hscan, hc]
  · refine ⟨rfl, ?_⟩
    rw [h.rest]
    exact sameState_rebuf rfl
  · exact ⟨rfl, h.sameState htotal⟩
  · have hkeep := keepFrom_sameState h htotal (scanItem_partLine_lt hc).le
    rw [hworld] at hkeep
    exact ⟨rfl, hkeep⟩
  · exact ⟨rfl, h.sameState htotal⟩

theorem completeIfFull_front (h : Front total tail c d) :
    Simulates noFault (Front total tail) (completeIfFull env c) (completeIfFull env d) := by
  unfold completeIfFull
  rw [h.deref]
  rcases derefCmd c.world c.client.curCmdItem with f | ⟨p, cmd⟩
  · exact Simulates.error f
  simp only [bind, Except.bind]
  split
  · have hidle : Front total tail { c with client := { c.client with curCmdItem := none } }
        { d with client := { d.client with curCmdItem := none } } := by
      refine ⟨h.bytes, ?_, h.pos⟩
      rw [h.rest]
      rfl
    apply (allCmd_front hidle).bind
    intro c₁ d₁ h₁
    exact registerWrite_front h₁
  · exact h

/-- **One turn in step**, where no `strstr` runs over the end. -/
theorem placeTurn_front (env : Env) (htotal : total ≤ clientRecvCmdLength) (h : PlaceFront total tail s t)
    (hquiet : ¬ s.RunsOver total) :
    Simulates noFault (TurnSim (PlaceFront total tail) SameReturn) (placeTurn env total s)
      (placeTurn env total t) := by
  rcases s with ⟨pre, c⟩ | ⟨pre, c⟩
  · rcases t with ⟨pre', d⟩ | ⟨pre', d⟩
    swap
    · exact False.elim h
    obtain ⟨rfl, hpre, hfront⟩ := h
    simp only [placeTurn, hfront.wants]
    rcases hc : wantsHeader c with f | fresh
    · exact Simulates.error f
    have hstage : Simulates noFault (FlowFront total tail)
        (if fresh then headerStage env total pre c else .ok (.next pre c))
        (if fresh then headerStage env total pre d else .ok (.next pre d)) := by
      cases fresh with
      | false => exact ⟨rfl, hfront⟩
      | true =>
        apply headerStage_front hfront hpre htotal
        intro k hk hrun
        apply hquiet
        refine ⟨pre + k, ?_, hrun⟩
        simp only [Place.search, hc, hk, Option.map_some]
    apply hstage.bind
    intro x y hxy
    rcases x with ⟨code, c₁⟩ | ⟨pre₁, c₁⟩
    · rcases y with ⟨code', d₁⟩ | ⟨pre₂, d₁⟩
      · exact hxy
      · exact False.elim hxy
    · rcases y with ⟨code', d₁⟩ | ⟨pre₂, d₁⟩
      · exact False.elim hxy
      · exact hxy
  · rcases t with ⟨pre', d⟩ | ⟨pre', d⟩
    · exact False.elim h
    obtain ⟨rfl, hfront⟩ := h
    apply (itemTurn_front hfront htotal hquiet).bind
    intro x y hxy
    rcases x with ⟨pre₁, c₁⟩ | x
    · rcases y with ⟨pre₂, d₁⟩ | y
      · exact hxy
      · exact False.elim hxy
    rcases y with ⟨pre₂, d₁⟩ | y
    · exact False.elim hxy
    rcases x with ⟨code, c₁⟩ | ⟨pre₁, c₁⟩
    · rcases y with ⟨code', d₁⟩ | ⟨pre₂, d₁⟩
      · exact hxy
      · exact False.elim hxy
    rcases y with ⟨code', d₁⟩ | ⟨pre₂, d₁⟩
    · exact False.elim hxy
    obtain ⟨rfl, h₁⟩ := hxy
    -- behind the items
    apply (completeIfFull_front h₁).bind
    intro c₂ d₂ h₂
    by_cases hend : pre₁ ≥ total
    · simp only [if_pos hend]
      refine ⟨rfl, ?_⟩
      rw [h₂.rest]
      exact sameState_rebuf rfl
    · simp only [if_neg hend]
      exact ⟨rfl, Nat.lt_of_not_le hend, h₂⟩

/-! ## Section 5: Nothing is unallocated -/

/-- How much has been allocated, ever. -/
def Conn.allocated (c : Conn) : Nat := c.world.cmds.cells.length + c.world.heap.blocks.length

/-- A part of the loop rejects its input, or `P` holds of what has been
    allocated then. -/
def FlowAlloc (P : Nat → Prop) : Flow Conn → Prop
  | .ret code c => code = -1 ∨ P c.allocated
  | .next _ c => P c.allocated

/-- The same of a turn. -/
def TurnAlloc (P : Nat → Prop) : Turn Place (Int × Conn) → Prop
  | .goes s => P s.conn.allocated
  | .leaves out => out.1 = -1 ∨ P out.2.allocated

variable {n : Nat}

theorem allCmd_allocated (env : Env) (c : Conn) :
    Ends anyFault (fun c' => c'.allocated = c.allocated) (allCmd env c) := by
  apply (allCmd_spared env c).mono
  intro c' h
  unfold Conn.allocated
  rw [h.world.cells, h.world.blocks]

theorem registerWrite_allocated (c : Conn) : (registerWrite c).allocated = c.allocated := by
  unfold registerWrite
  split <;> rfl

theorem cmdInsert_allocated (c : Conn) (p : CmdPtr) :
    Ends anyFault (fun c' => c'.allocated = c.allocated) (cmdInsert c p) := by
  have hset : ∀ (cmds : Pool Cmd) (q : CmdPtr) (cmd : Cmd),
      (cmds.set q cmd).cells.length = cmds.cells.length := fun _ _ _ => List.length_set
  apply (ends_any _).bind
  intro out _ _
  dsimp only
  split
  · simp only [Ends, Conn.allocated, World.setCmd, World.log, hset]
  · apply (ends_any _).bind
    intro last _ _
    apply (ends_any _).bind
    intro cmd _ _
    simp only [Ends, Conn.allocated, World.setCmd, World.log, hset]

/-- A header that is accepted has its command allocated. -/
theorem headerStage_count {num : Int} {stop : Nat}
    (hscan : scanHeader c.client.recvCmd total pre = .count num stop) :
    Ends anyFault (FlowAlloc (c.allocated < ·)) (headerStage env total pre c) := by
  unfold headerStage
  rw [hscan]
  dsimp only
  apply (allCmd_allocated env _).bind
  intro c₁ _ h₁
  apply (cmdInsert_allocated (registerWrite c₁) _).bind
  intro c₂ _ h₂
  show c.allocated < c₂.allocated
  rw [h₂, registerWrite_allocated, h₁]
  simp only [Conn.allocated, Pool.alloc, List.length_append, List.length_singleton]
  omega

theorem headerStage_allocated :
    Ends anyFault (FlowAlloc (c.allocated ≤ ·)) (headerStage env total pre c) := by
  rcases hscan : scanHeader c.client.recvCmd total pre with _ | start | _ | stop | ⟨num, stop⟩
  case count =>
    apply (headerStage_count hscan).mono
    intro flow hflow
    rcases flow with ⟨code, c'⟩ | ⟨pre', c'⟩
    · exact hflow.imp_right Nat.le_of_lt
    · exact Nat.le_of_lt hflow
  all_goals
    unfold headerStage
    rw [hscan]
  · exact Or.inr (le_refl _)
  · exact Or.inr (le_refl _)
  · exact Or.inl rfl
  · exact Or.inl rfl

/-- An item that is accepted has its block allocated. -/
theorem itemTurn_fill {num : Nat} {p : CmdPtr} {cmd : Cmd}
    (hderef : derefCmd c.world c.client.curCmdItem = .ok (p, cmd))
    (hmore : (cmd.curItem : Int) < cmd.argsNum)
    (hscan : scanItem c.client.recvCmd total pre = .size num) {turn : Turn (Nat × Conn) (Flow Conn)}
    (h : itemTurn total (pre, c) = .ok turn) :
    (∃ c', turn = .leaves (.ret 0 c') ∧ c.allocated < c'.allocated) ∨
      ∃ pre' c', turn = .goes (pre', c') ∧ c.allocated < c'.allocated := by
  obtain ⟨hcur, hget⟩ := derefCmd_ok hderef
  have hfill : ∀ cmd' bs pos, c.allocated < (copied c p cmd' num bs pos).allocated := by
    intro cmd' bs pos
    simp only [Conn.allocated, copied, Pool.set, List.length_set, List.length_append,
      List.length_singleton]
    omega
  rcases hslot : slot cmd.curItem with f | i
  · simp [itemTurn, hderef, bind, Except.bind, hmore, hscan, hslot] at h
  rw [itemTurn_size hcur hget hmore hscan hslot] at h
  split at h
  · cases h
    exact Or.inl ⟨_, rfl, hfill _ _ _⟩
  · cases h
    exact Or.inr ⟨_, _, rfl, hfill _ _ _⟩

theorem itemTurn_allocated {turn : Turn (Nat × Conn) (Flow Conn)}
    (h : itemTurn total (pre, c) = .ok turn) :
    (∃ flow, turn = .leaves flow ∧ FlowAlloc (c.allocated ≤ ·) flow) ∨
      ∃ pre' c', turn = .goes (pre', c') ∧ c.allocated ≤ c'.allocated := by
  rcases hderef : derefCmd c.world c.client.curCmdItem with f | ⟨p, cmd⟩
  · simp [itemTurn, hderef, bind, Except.bind] at h
  by_cases hmore : (cmd.curItem : Int) < cmd.argsNum
  swap
  · simp only [itemTurn, hderef, bind, Except.bind, if_pos hmore] at h
    cases h
    exact Or.inl ⟨_, rfl, le_refl _⟩
  rcases hscan : scanItem c.client.recvCmd total pre with _ | _ | _ | _ | num
  case size =>
    rcases itemTurn_fill hderef hmore hscan h with ⟨c', rfl, hlt⟩ | ⟨pre', c', rfl, hlt⟩
    · exact Or.inl ⟨_, rfl, Or.inr hlt.le⟩
    · exact Or.inr ⟨_, _, rfl, hlt.le⟩
  all_goals
    simp only [itemTurn, hderef, bind, Except.bind, if_neg (not_not.mpr hmore), hscan] at h
    cases h
  · exact Or.inl ⟨_, rfl, Or.inr (le_refl _)⟩
  · exact Or.inl ⟨_, rfl, Or.inl rfl⟩
  · exact Or.inl ⟨_, rfl, Or.inr (le_refl _)⟩
  · exact Or.inl ⟨_, rfl, Or.inl rfl⟩

theorem afterItems_allocated {flow : Flow Conn} (h : FlowAlloc (n ≤ ·) flow) :
    Ends anyFault (TurnAlloc (n ≤ ·)) (afterItems env total flow) := by
  rcases flow with ⟨code, c⟩ | ⟨pre, c⟩
  · exact h
  have hfull : Ends anyFault (fun c' => c'.allocated = c.allocated) (completeIfFull env c) := by
    apply (ends_any _).bind
    intro out _ _
    dsimp only
    split
    · apply (allCmd_allocated env _).bind
      intro c₁ _ h₁
      exact (registerWrite_allocated c₁).trans h₁
    · exact rfl
  apply hfull.bind
  intro c₁ _ h₁
  have hle : n ≤ c₁.allocated := by
    rw [h₁]
    exact h
  split
  · exact Or.inr hle
  · exact hle

/-- **No turn takes an allocation back.** -/
theorem placeTurn_allocated (env : Env) (total : Nat) (h : n ≤ s.conn.allocated) :
    Ends anyFault (TurnAlloc (n ≤ ·)) (placeTurn env total s) := by
  rcases s with ⟨pre, c⟩ | ⟨pre, c⟩
  · apply (ends_any _).bind
    intro fresh _ _
    have hstage : Ends anyFault (FlowAlloc (c.allocated ≤ ·))
        (if fresh then headerStage env total pre c else .ok (.next pre c)) := by
      split
      · exact headerStage_allocated
      · exact le_refl _
    apply hstage.bind
    intro flow _ hflow
    rcases flow with ⟨code, c₁⟩ | ⟨pre₁, c₁⟩
    · exact hflow.imp_right (le_trans h)
    · exact le_trans h hflow
  · rcases hturn : itemTurn total (pre, c) with f | turn
    · simp only [placeTurn, hturn, bind, Except.bind]
      trivial
    simp only [placeTurn, hturn, bind, Except.bind]
    rcases itemTurn_allocated hturn with ⟨flow, rfl, hflow⟩ | ⟨pre', c', rfl, hle⟩
    · apply afterItems_allocated
      rcases flow with ⟨code, c₁⟩ | ⟨pre₁, c₁⟩
      · exact hflow.imp_right (le_trans h)
      · exact le_trans h hflow
    · exact le_trans h hle

theorem comes_allocated {out : Except Fault (Int × Conn)} (h : Comes (placeTurn env total) s out)
    (hn : n ≤ s.conn.allocated) : Ends anyFault (fun r => r.1 = -1 ∨ n ≤ r.2.allocated) out := by
  apply h.ends (I := fun s => n ≤ s.conn.allocated) _ _ hn
  · intro s s' hs hgoes
    have hturn := placeTurn_allocated env total hs
    rw [show placeTurn env total s = _ from hgoes] at hturn
    exact hturn
  · intro s hs
    apply (placeTurn_allocated env total hs).mono
    intro turn hturn
    cases turn with
    | goes s' => trivial
    | leaves out => exact hturn

/-! ## Section 6: Where two runs come apart -/

theorem search_header (h : (Place.header pre c).search total = some start) :
    wantsHeader c = .ok true ∧ pre < total ∧
      ∃ k, skipToStar (c.client.recvCmd.slice pre total) = some k ∧ start = pre + k := by
  simp only [Place.search] at h
  rcases hwants : wantsHeader c with f | fresh
  · simp [hwants] at h
  cases fresh with
  | false => simp [hwants] at h
  | true =>
    simp only [hwants] at h
    obtain ⟨k, hk, rfl⟩ := Option.map_eq_some_iff.mp h
    have hlt := (List.getElem?_eq_some_iff.mp (Dec.skipToStar_spec hk)).1
    have hle := c.client.recvCmd.length_slice_le pre total
    exact ⟨rfl, by omega, k, hk, rfl⟩

theorem search_item (h : (Place.item pre c).search total = some start) :
    ∃ p cmd, derefCmd c.world c.client.curCmdItem = .ok (p, cmd) ∧
      (cmd.curItem : Int) < cmd.argsNum ∧ pre < total ∧
      c.client.recvCmd.bytes[pre]? = some dollar ∧ start = pre := by
  simp only [Place.search] at h
  rcases hderef : derefCmd c.world c.client.curCmdItem with f | ⟨p, cmd⟩
  · simp [hderef] at h
  simp only [hderef] at h
  split at h
  · next hitem =>
    cases h
    exact ⟨p, cmd, rfl, hitem.1, hitem.2.1, hitem.2.2, rfl⟩
  · cases h

theorem search_le (h : s.search total = some start) : start ≤ total := by
  rcases s with ⟨pre, c⟩ | ⟨pre, c⟩
  · obtain ⟨-, hpre, k, hk, rfl⟩ := search_header h
    have hlt := (List.getElem?_eq_some_iff.mp (Dec.skipToStar_spec hk)).1
    have hle := c.client.recvCmd.length_slice_le pre total
    omega
  · obtain ⟨p, cmd, -, -, hpre, -, rfl⟩ := search_item h
    exact hpre.le

/-- Nothing is found: the rest is kept, and nothing has been allocated. -/
theorem search_fails (env : Env) (hsearch : s.search total = some start)
    (hnone : strstrCrlf (s.conn.client.recvCmd.bytes.drop start) = none) :
    ∃ c', placeTurn env total s = .ok (.leaves (0, c')) ∧ c'.allocated = s.conn.allocated := by
  rcases s with ⟨pre, c⟩ | ⟨pre, c⟩
  · obtain ⟨hwants, hpre, k, hk, rfl⟩ := search_header hsearch
    have hstage : headerStage env total pre c =
        .ok (.ret 0 { c with client := keepFrom c.client total (pre + k) }) := by
      unfold headerStage
      rw [scanHeader_partLine hpre hk hnone]
    refine ⟨{ c with client := keepFrom c.client total (pre + k) }, ?_, rfl⟩
    simp only [placeTurn, hwants, bind, Except.bind, if_true, hstage]
  · obtain ⟨p, cmd, hderef, hmore, hpre, hdollar, rfl⟩ := search_item hsearch
    have hturn : itemTurn total (start, c) =
        .ok (.leaves (.ret 0 { c with client := keepFrom c.client total start })) := by
      simp only [itemTurn, hderef, bind, Except.bind, if_neg (not_not.mpr hmore),
        scanItem_partLine hpre hdollar hnone]
    refine ⟨{ c with client := keepFrom c.client total start }, ?_, rfl⟩
    simp only [placeTurn, hturn, bind, Except.bind, afterItems]

/-- A line end is found: the input is rejected, or something is allocated
    for the line. -/
theorem search_succeeds (env : Env) {q : Nat} (hsearch : s.search total = some start)
    (hsome : strstrCrlf (s.conn.client.recvCmd.bytes.drop start) = some q) :
    Ends anyFault (TurnAlloc (s.conn.allocated < ·)) (placeTurn env total s) := by
  rcases s with ⟨pre, c⟩ | ⟨pre, c⟩
  · obtain ⟨hwants, hpre, k, hk, rfl⟩ := search_header hsearch
    have hscan := (scanHeader_eq hpre hk hsome).2
    have hstage : Ends anyFault (FlowAlloc (c.allocated < ·)) (headerStage env total pre c) := by
      split at hscan
      · unfold headerStage
        rw [hscan]
        exact Or.inl rfl
      · exact headerStage_count hscan
    simp only [placeTurn, hwants, bind, Except.bind, if_true]
    apply hstage.bind
    intro flow _ hflow
    rcases flow with ⟨code, c₁⟩ | ⟨pre₁, c₁⟩
    · exact hflow
    · exact hflow
  · obtain ⟨p, cmd, hderef, hmore, hpre, hdollar, rfl⟩ := search_item hsearch
    have hscan := scanItem_eq hpre hdollar hsome
    split at hscan
    · have hturn : itemTurn total (start, c) = .ok (.leaves (.ret (-1) c)) := by
        simp only [itemTurn, hderef, bind, Except.bind, if_neg (not_not.mpr hmore), hscan]
      simp only [placeTurn, hturn, bind, Except.bind, afterItems]
      exact Or.inl rfl
    rcases hturn : itemTurn total (start, c) with f | turn
    · simp only [placeTurn, hturn, bind, Except.bind]
      trivial
    simp only [placeTurn, hturn, bind, Except.bind]
    rcases itemTurn_fill hderef hmore hscan hturn with ⟨c', rfl, hlt⟩ | ⟨pre', c', rfl, hlt⟩
    · exact Or.inr hlt
    · exact hlt

theorem comes_apart {q : Nat} {out : Except Fault (Int × Conn)}
    (h : Comes (placeTurn env total) s out) (hsearch : s.search total = some start)
    (hsome : strstrCrlf (s.conn.client.recvCmd.bytes.drop start) = some q) :
    Ends anyFault (fun r => r.1 = -1 ∨ s.conn.allocated < r.2.allocated) out := by
  have hturn := search_succeeds env hsearch hsome
  cases h with
  | fault hf => trivial
  | leaves hl =>
    rw [hl] at hturn
    exact hturn
  | goes hg hrest =>
    rw [show placeTurn env total s = _ from hg] at hturn
    exact comes_allocated hrest hturn

/-! ## Section 7: Two calls -/

theorem drop_front (h : b.bytes = buf.bytes.take total ++ tail) (htotal : total ≤ clientRecvCmdLength)
    (hstart : start ≤ total) : b.bytes.drop start = buf.slice start total ++ tail := by
  have hlen := buf.length_eq
  rw [h, List.drop_append_of_le_length (by rw [List.length_take]; omega)]
  rfl

theorem PlaceFront.front (h : PlaceFront total tail s t) : Front total tail s.conn t.conn := by
  rcases s with ⟨pre, c⟩ | ⟨pre, c⟩
  · rcases t with ⟨pre', d⟩ | ⟨pre', d⟩
    · exact h.2.2
    · exact False.elim h
  · rcases t with ⟨pre', d⟩ | ⟨pre', d⟩
    · exact False.elim h
    · exact h.2

/-- Where the next search starts does not depend on the bytes behind. -/
theorem PlaceFront.search (h : PlaceFront total tail s t) (htotal : total ≤ clientRecvCmdLength) :
    t.search total = s.search total := by
  rcases s with ⟨pre, c⟩ | ⟨pre, c⟩
  · rcases t with ⟨pre', d⟩ | ⟨pre', d⟩
    swap
    · exact False.elim h
    obtain ⟨rfl, -, hfront⟩ := h
    simp only [Place.search, hfront.wants, slice_front hfront.bytes htotal (le_refl total)]
  · rcases t with ⟨pre', d⟩ | ⟨pre', d⟩
    · exact False.elim h
    obtain ⟨rfl, hfront⟩ := h
    simp only [Place.search, hfront.deref]
    rcases derefCmd c.world c.client.curCmdItem with f | ⟨p, cmd⟩
    · rfl
    by_cases hpre : pre < total
    · simp only [byte_front hfront.bytes htotal hpre]
    · simp [hpre]

theorem Front.allocated (h : Front total tail c d) : d.allocated = c.allocated := by
  rw [h.rest]
  rfl

theorem SameState.allocated (h : SameState c d) : d.allocated = c.allocated := by
  unfold Conn.allocated
  rw [h.cmds, h.heap]

/-- Bytes behind that differ, and two calls that return differently. -/
theorem not_runsOver (htotal : total ≤ clientRecvCmdLength)
    (hsame : ∀ buf : RecvBuf, buf.bytes.take total = c.client.recvCmd.bytes.take total →
      SameResult (checkCmdComplete2 env c total) (checkCmdComplete2 env (c.rebuf buf) total))
    (hplace : ∀ (tail : Bytes) (b : RecvBuf), b.bytes = c.client.recvCmd.bytes.take total ++ tail →
      ∃ t, ReflTransGen (Goes (placeTurn env total)) (.header 0 (c.rebuf b)) t ∧
        PlaceFront total tail s t) : ¬ s.RunsOver total := by
  rintro ⟨start, hsearch, hrun⟩
  have hstart := search_le hsearch
  have hlen := c.client.recvCmd.length_eq
  have htail : ∀ tail : Bytes, total + tail.length = clientRecvCmdLength →
      ∃ b : RecvBuf, b.bytes = c.client.recvCmd.bytes.take total ++ tail := by
    intro tail h
    refine ⟨⟨c.client.recvCmd.bytes.take total ++ tail, ?_⟩, rfl⟩
    rw [List.length_append, List.length_take]
    omega
  have hcall : ∀ (b : RecvBuf) (t : Place),
      ReflTransGen (Goes (placeTurn env total)) (.header 0 (c.rebuf b)) t →
      Comes (placeTurn env total) t (checkCmdComplete2 env (c.rebuf b) total) :=
    fun b t ht => (check_comes env htotal (c.rebuf b)).along ht
  have hagree : ∀ (tail : Bytes) (b : RecvBuf), b.bytes = c.client.recvCmd.bytes.take total ++ tail →
      b.bytes.take total = c.client.recvCmd.bytes.take total :=
    fun tail b hb => take_front hb htotal (le_refl total)
  -- with a NUL behind, the search finds nothing
  obtain ⟨m, hm⟩ : ∃ m, clientRecvCmdLength = total + (m + 1) := by
    obtain ⟨-, -, hroom | ⟨hroom, -⟩⟩ := hrun
    · exact ⟨clientRecvCmdLength - total - 1, by omega⟩
    · exact ⟨0, hroom.symm⟩
  obtain ⟨b₀, hb₀⟩ := htail (0 :: List.replicate m 0) (by
    rw [List.length_cons, List.length_replicate, hm])
  obtain ⟨t₀, ht₀, hplace₀⟩ := hplace _ b₀ hb₀
  have hnone : strstrCrlf (t₀.conn.client.recvCmd.bytes.drop start) = none := by
    rw [drop_front hplace₀.front.bytes htotal hstart]
    exact strstrCrlf_stops hrun.2.1 _
  obtain ⟨c₀, hturn, halloc₀⟩ := search_fails env ((hplace₀.search htotal).trans hsearch) hnone
  have hret₀ := (hcall b₀ t₀ ht₀).of_leaves hturn
  -- with the rest of a CR LF behind, it finds a line end
  obtain ⟨x, q, hx, hq⟩ := hrun.completed
  obtain ⟨b₁, hb₁⟩ := htail x hx
  obtain ⟨t₁, ht₁, hplace₁⟩ := hplace _ b₁ hb₁
  have hsome : strstrCrlf (t₁.conn.client.recvCmd.bytes.drop start) = some q := by
    rw [drop_front hplace₁.front.bytes htotal hstart]
    exact hq
  have hret₁ := comes_apart (hcall b₁ t₁ ht₁) ((hplace₁.search htotal).trans hsearch) hsome
  -- but the two calls are to return the same
  have hsame₀ := hsame b₀ (hagree _ b₀ hb₀)
  rw [hret₀] at hsame₀
  rcases hsame₀.ok_right with ⟨⟨code, c'⟩, hret, hcode, hstate₀⟩ | ⟨f, -, hf⟩
  swap
  · exact hf
  have hsame₁ := hsame b₁ (hagree _ b₁ hb₁)
  rw [hret] at hsame₁
  obtain ⟨⟨code₁, c₁⟩, hret', hcode₁, hstate₁⟩ := hsame₁.ok_left
  rw [hret'] at hret₁
  have halloc : c₁.allocated = t₁.conn.allocated := by
    rw [hstate₁.allocated, ← hstate₀.allocated, halloc₀, hplace₀.front.allocated,
      hplace₁.front.allocated]
  simp only at hcode hcode₁
  rcases hret₁ with hneg | hlt
  · have hneg' : code₁ = -1 := hneg
    omega
  · have hlt' : t₁.conn.allocated < c₁.allocated := hlt
    omega

end front

/-- **Stale bytes do not influence decoding exactly as long as no search
    runs over the end of the received bytes.**  `total_len` is `recv_pos`
    wherever the server calls `_check_cmd_complete2`. -/
theorem stale_bytes_ignored_iff (env : Env) (c : Conn) (total : Nat) (hpos : 0 < total)
    (htotal : total ≤ clientRecvCmdLength) (hrecv : c.client.recvPos ≤ total) :
    (∀ buf : RecvBuf, buf.bytes.take total = c.client.recvCmd.bytes.take total →
      SameResult (checkCmdComplete2 env c total) (checkCmdComplete2 env (c.rebuf buf) total)) ↔
    ∀ s, ReflTransGen (Goes (placeTurn env total)) (.header 0 c) s → ¬ s.RunsOver total := by
  have hstart : ∀ (tail : Bytes) (b : RecvBuf), b.bytes = c.client.recvCmd.bytes.take total ++ tail →
      PlaceFront total tail (.header 0 c) (.header 0 (c.rebuf b)) :=
    fun tail b hb => ⟨rfl, hpos, hb, rfl, hrecv⟩
  constructor
  · intro hsame
    -- every place is reached with any bytes behind, since no search before runs over the end
    have hreach : ∀ s, ReflTransGen (Goes (placeTurn env total)) (.header 0 c) s →
        ∀ (tail : Bytes) (b : RecvBuf), b.bytes = c.client.recvCmd.bytes.take total ++ tail →
          ∃ t, ReflTransGen (Goes (placeTurn env total)) (.header 0 (c.rebuf b)) t ∧
            PlaceFront total tail s t := by
      intro s hs
      induction hs with
      | refl => exact fun tail b hb => ⟨_, .refl, hstart tail b hb⟩
      | @tail s s' _ hgoes ih =>
        intro tail b hb
        obtain ⟨t, ht, hplace⟩ := ih tail b hb
        have hsim := placeTurn_front env htotal hplace (not_runsOver htotal hsame ih)
        rw [show placeTurn env total s = _ from hgoes] at hsim
        obtain ⟨turn, hturn, hnext⟩ := hsim.ok_left
        rcases turn with t' | out
        · exact ⟨t', ht.tail hturn, hnext⟩
        · exact False.elim hnext
    intro s hs
    exact not_runsOver htotal hsame (hreach s hs)
  · intro hquiet buf hbuf
    have hb : buf.bytes = c.client.recvCmd.bytes.take total ++ buf.bytes.drop total := by
      rw [← hbuf, List.take_append_drop]
    apply Comes.simulates (R := fun s t => PlaceFront total (buf.bytes.drop total) s t ∧
      ReflTransGen (Goes (placeTurn env total)) (.header 0 c) s) _
      (check_comes env htotal c) (check_comes env htotal (c.rebuf buf)) ⟨hstart _ _ hb, .refl⟩
    intro s t hst
    apply (placeTurn_front env htotal hst.1 (hquiet s hst.2)).mono
    intro x y
    apply TurnSim.mono
    · intro s' t' hplace hgoes
      exact ⟨hplace, hst.2.tail hgoes⟩
    · exact fun _ _ h => h

/-- A request that has been received as a whole. -/
theorem stale_bytes_ignored_iff_request :
    ∃ s client, run (step plainEnv) initServer [.connect 5 true] = .ok s ∧
      s.clients.get 0 = some client ∧
      ∀ buf : RecvBuf, buf.bytes.take 11 = (Conn.readInto ⟨0, client, s.world⟩
          (encodeRequest [[65]])).client.recvCmd.bytes.take 11 →
        SameResult
          (checkCmdComplete2 plainEnv (.readInto ⟨0, client, s.world⟩ (encodeRequest [[65]])) 11)
          (checkCmdComplete2 plainEnv
            (Conn.rebuf buf (.readInto ⟨0, client, s.world⟩ (encodeRequest [[65]]))) 11) := by
  obtain ⟨s, hs, hcheck⟩ := ok_of_map (show (run (step plainEnv) initServer [.connect 5 true]).map
      (fun s => (s.clients.get 0).map fun client =>
        let c : Conn := Conn.readInto ⟨0, client, s.world⟩ (encodeRequest [[65]])
        (decide (c.client.recvPos ≤ 11), everywhere (placeTurn plainEnv 11)
          (fun p => decide (¬ p.RunsOver 11)) 9 (.header 0 c))) =
      .ok (some (true, true)) by decide +kernel)
  obtain ⟨client, hget, hc⟩ := Option.map_eq_some_iff.mp hcheck
  obtain ⟨hpos, hquiet⟩ := Prod.mk.inj hc
  refine ⟨s, client, hs, hget, ?_⟩
  apply (stale_bytes_ignored_iff plainEnv _ 11 (by decide) (by decide) (of_decide_eq_true hpos)).mpr
  intro p hp
  have hp' := everywhere_sound hquiet hp
  exact of_decide_eq_true hp'

/-- After a first request, `"*1\r"` is taken for a header line: the LF is one
    the first request has left behind.  With zeros behind it is not. -/
theorem stale_line_end_accepted :
    ∃ s client buf, run (step plainEnv) initServer
        [.connect 5 true, .recv 0 (.data (encodeRequest [[65]]))] = .ok s ∧
      s.clients.get 0 = some client ∧
      (Conn.readInto ⟨0, client, s.world⟩ [42, 49, 13]).client.recvPos = 3 ∧
      buf.bytes.take 3 =
        (Conn.readInto ⟨0, client, s.world⟩ [42, 49, 13]).client.recvCmd.bytes.take 3 ∧
      ¬ SameResult (checkCmdComplete2 plainEnv (.readInto ⟨0, client, s.world⟩ [42, 49, 13]) 3)
        (checkCmdComplete2 plainEnv
          (Conn.rebuf buf (.readInto ⟨0, client, s.world⟩ [42, 49, 13])) 3) := by
  obtain ⟨s, hs, heval⟩ := ok_of_map (show (run (step plainEnv) initServer
      [.connect 5 true, .recv 0 (.data (encodeRequest [[65]]))]).map
      (fun s => (s.clients.get 0).map fun client =>
        let c : Conn := Conn.readInto ⟨0, client, s.world⟩ [42, 49, 13]
        (c.client.recvPos, decide ((RecvBuf.zero.write 0 [42, 49, 13]).bytes.take 3 =
            c.client.recvCmd.bytes.take 3),
          (checkCmdComplete2 plainEnv c 3).map (fun out => out.2.client.recvPos),
          (checkCmdComplete2 plainEnv (c.rebuf (.write .zero 0 [42, 49, 13])) 3).map
            (fun out => out.2.client.recvPos))) =
      .ok (some (3, true, .ok 0, .ok 3)) by decide +kernel)
  obtain ⟨client, hget, hc⟩ := Option.map_eq_some_iff.mp heval
  simp only [Prod.mk.injEq] at hc
  obtain ⟨hpos, hagree, hstale, hzero⟩ := hc
  obtain ⟨⟨code, c₁⟩, hrun₁, hpos₁⟩ := ok_of_map hstale
  obtain ⟨⟨code', c₂⟩, hrun₂, hpos₂⟩ := ok_of_map hzero
  refine ⟨s, client, .write .zero 0 [42, 49, 13], hs, hget, hpos, of_decide_eq_true hagree, ?_⟩
  rw [hrun₁, hrun₂]
  rintro ⟨-, hstate⟩
  have hsame : c₂.client.recvPos = c₁.client.recvPos := hstate.recvPos
  simp only at hpos₁ hpos₂
  omega

end BoAtom
