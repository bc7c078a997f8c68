import BoAtom.Mem.ClientList
import BoAtom.Mem.Rounds
import BoAtom.Mem.Sending

/-! # Runs of the server

    `Server.dec` reads the decoder state of a client off the server's
    memory.  `ServerRep` is the invariant of the whole server; every event
    keeps it, moves the decoder of the one client it is about, and leaves
    the other clients alone.  A run stops with an index out of range, or
    with the double free of a SET name that reads as a GET name. -/

namespace BoAtom

open Memory Machine

/-! ## Section 1: The decoder state in memory -/

/-- Size and received bytes of an argument that has its block. -/
def Cmd.arg (h : Heap) (cmd : Cmd) (i : Nat) : Option (Nat × Bytes) :=
  if hi : i < cmdArgsMax then
    (cmd.value ⟨i, hi⟩).map fun a => (cmd.itemLength ⟨i, hi⟩, h.load a (cmd.itemPos ⟨i, hi⟩))
  else none

def Cmd.dec (h : Heap) (cmd : Cmd) : DecCmd :=
  { argc := cmd.argsNum
    items := (List.range cmd.curItem).map fun i => ((cmd.arg h i).map Prod.snd).getD []
    part := cmd.arg h cmd.curItem }

def Conn.dec (c : Conn) : Dec :=
  { buf := c.client.recvCmd
    pos := c.client.recvPos
    cur := c.client.curCmdItem.bind fun p => (c.world.cmds.get p).map (Cmd.dec c.world.heap)
    got := receivedBy c.me c.world.trace
    handed := handedBy c.me c.world.trace }

/-- A client that is gone, or not there yet, has its share of the log. -/
def Server.dec (s : Server) (me : ClientId) : Dec :=
  match s.clients.get me with
  | some client => Conn.dec ⟨me, client, s.world⟩
  | none => { Dec.fresh with
      got := receivedBy me s.world.trace
      handed := handedBy me s.world.trace }

variable {env : Env} {g g' : Ghost} {w : World} {s s' : Server} {me : ClientId} {c : ClientStat} {d : Dec}

theorem CmdRep.arg_eq {h : Heap} {cmd : Cmd} {dc : DecCmd} (hr : CmdRep g h me cmd dc) {i : Nat}
    (hi : i < cmdArgsMax) : cmd.arg h i = dc.slotAt i := by
  have hs := hr.slots ⟨i, hi⟩
  unfold Cmd.arg
  rw [dif_pos hi]
  rcases hslot : dc.slotAt i with _ | ⟨n, bs⟩
  · rw [hslot] at hs
    rw [hs.1]
    rfl
  · rw [hslot] at hs
    obtain ⟨a, hv, hown, hlen, hpos⟩ := hs
    rw [hv, Option.map_some, hlen, hpos, Heap.load_of_holds hown.2]

theorem CmdRep.dec {h : Heap} {cmd : Cmd} {dc : DecCmd} (hr : CmdRep g h me cmd dc) :
    cmd.dec h = dc := by
  have hitems : (cmd.dec h).items = dc.items := by
    show (List.range cmd.curItem).map _ = dc.items
    rw [hr.curItem]
    apply List.ext_getElem
    · simp
    · intro i hi hi'
      have hslot := DecCmd.slotAt_item (List.getElem?_eq_getElem hi')
      simp [hr.arg_eq (lt_of_lt_of_le hi' hr.items_le), hslot]
  have hpart : (cmd.dec h).part = dc.part := by
    show cmd.arg h cmd.curItem = dc.part
    rw [hr.curItem]
    by_cases hlt : dc.items.length < cmdArgsMax
    · rw [hr.arg_eq hlt, DecCmd.slotAt_part]
    · rw [Cmd.arg, dif_neg hlt]
      rcases hp : dc.part with _ | ⟨n, bs⟩
      · rfl
      · exact absurd (hr.part_lt n bs hp).2.2 hlt
  exact congr (congr (congrArg DecCmd.mk hr.argsNum) hitems) hpart

/-- The abstraction function agrees with the representation. -/
theorem ClientRep.dec (h : ClientRep g w me c d) : Conn.dec ⟨me, c, w⟩ = d := by
  have hcur : (Conn.dec ⟨me, c, w⟩).cur = d.cur := by
    have hc := h.cur
    show c.curCmdItem.bind _ = d.cur
    rcases hdc : d.cur with _ | dc
    · rw [hdc] at hc
      rw [hc.1]
      rfl
    · rw [hdc] at hc
      obtain ⟨p, cmd, hp, -, -, hget, -, hr⟩ := hc
      rw [hp]
      show (w.cmds.get p).map _ = some dc
      rw [hget, Option.map_some, hr.dec]
  obtain ⟨buf, pos, cur, got, handed⟩ := d
  exact congr (congr (congr (congr (congrArg Dec.mk h.buf) h.pos) hcur) h.got) h.handed

theorem Server.dec_live (hget : s.clients.get me = some c) :
    s.dec me = Conn.dec ⟨me, c, s.world⟩ := by
  unfold Server.dec
  rw [hget]

theorem Server.dec_got (s : Server) (me : ClientId) :
    (s.dec me).got = receivedBy me s.world.trace := by
  unfold Server.dec
  split <;> rfl

theorem Server.dec_handed (s : Server) (me : ClientId) :
    (s.dec me).handed = handedBy me s.world.trace := by
  unfold Server.dec
  split <;> rfl

/-! ## Section 2: The invariant -/

structure ServerRep (env : Env) (g : Ghost) (s : Server) : Prop where
  world : WorldRep env g s.world
  listed : ∃ order, Listed s order
  client : ∀ me c, s.clients.get me = some c → ∃ d, ClientRep g s.world me c d ∧ d.Open
  known : ∀ x ∈ s.world.trace, x.client < s.clients.cells.length

/-- What a live client is represented by. -/
theorem ServerRep.conn (h : ServerRep env g s) (hget : s.clients.get me = some c) :
    ConnRep env g ⟨me, c, s.world⟩ (s.dec me) ∧ (s.dec me).Open := by
  obtain ⟨d, hrep, hopen⟩ := h.client me c hget
  rw [Server.dec_live hget, hrep.dec]
  exact ⟨⟨h.world, hrep⟩, hopen⟩

/-- A client that was never accepted. -/
theorem ServerRep.dec_unknown (h : ServerRep env g s) (hme : s.clients.cells.length ≤ me) :
    s.clients.get me = none ∧ s.dec me = .fresh := by
  have hnone : s.clients.get me = none := by
    rcases hget : s.clients.get me with _ | c
    · rfl
    · exact absurd (Pool.lt_of_get hget) (Nat.not_lt.mpr hme)
  have hunknown : ∀ x ∈ s.world.trace, x.client ≠ me :=
    fun x hx => (lt_of_lt_of_le (h.known x hx) hme).ne
  refine ⟨hnone, ?_⟩
  simp [Server.dec, hnone, receivedBy_unknown hunknown, handedBy_unknown hunknown, Dec.fresh]

theorem initServer_rep (env : Env) : ServerRep env ⟨fun _ => .nobody, fun _ => 0⟩ initServer := by
  refine ⟨⟨storeRep_init env _ _ 50, consistent_nil, fun x hx => ?_, ?_, fun p hp => ?_⟩,
    ⟨[], rfl, List.nodup_nil, fun id c hget => ?_⟩, fun id c hget => ?_, fun x hx => ?_⟩
  · simp [initServer] at hx
  · exact List.nodup_nil
  · simp [initServer, executedCmds] at hp
  · simp [initServer] at hget
  · simp [initServer] at hget
  · simp [initServer] at hx

/-- A step was about `me` only, and logged entries in `L`. -/
structure Apart (L : Happened → Prop) (me : ClientId) (s s' : Server) : Prop where
  dec : ∀ i, i ≠ me → s'.dec i = s.dec i
  live : ∀ i, i ≠ me → ((s'.clients.get i).isSome ↔ (s.clients.get i).isSome)
  cells : s'.clients.cells.length = s.clients.cells.length
  trace : ∃ ext, s'.world.trace = s.world.trace ++ ext ∧ ∀ x ∈ ext, x.client = me ∧ L x

variable {L L' : Happened → Prop}

theorem Apart.mono (h : Apart L me s s') (hL : ∀ x, L x → L' x) : Apart L' me s s' := by
  obtain ⟨ext, htrace, hmine⟩ := h.trace
  exact ⟨h.dec, h.live, h.cells, ext, htrace, fun x hx => ⟨(hmine x hx).1, hL x (hmine x hx).2⟩⟩

theorem Apart.trans {s'' : Server} (h : Apart L me s s') (h' : Apart L me s' s'') :
    Apart L me s s'' := by
  obtain ⟨ext, htrace, hmine⟩ := h.trace
  obtain ⟨ext', htrace', hmine'⟩ := h'.trace
  refine ⟨fun i hi => (h'.dec i hi).trans (h.dec i hi), fun i hi => (h'.live i hi).trans (h.live i hi),
    h'.cells.trans h.cells, ext ++ ext', by rw [htrace', htrace, List.append_assoc], fun x hx => ?_⟩
  rcases List.mem_append.mp hx with hx | hx
  · exact hmine x hx
  · exact hmine' x hx

/-- The decoder of a client that is represented the same way. -/
theorem Server.dec_eq (g' : Ghost) (hlive : ∀ cl, s.clients.get me = some cl → ∃ cl', s'.clients.get me = some cl' ∧
      ClientRep g' s'.world me cl' (s.dec me))
    (hdead : s.clients.get me = none → s'.clients.get me = none)
    {ext : List Happened} (htrace : s'.world.trace = s.world.trace ++ ext)
    (hext : ∀ x ∈ ext, x.client ≠ me) : s'.dec me = s.dec me := by
  rcases hget : s.clients.get me with _ | cl
  · simp only [Server.dec, hget, hdead hget, htrace, receivedBy_append_other hext,
      handedBy_append_other hext]
  · obtain ⟨cl', hget', hrep⟩ := hlive cl hget
    rw [Server.dec_live hget', hrep.dec]

/-! ## Section 3: Putting a client back -/

/-- The server after work on the client `me`. -/
theorem settle_rep {c' : Conn} {d' : Dec} (h : ServerRep env g s) (hget : s.clients.get me = some c)
    (hconn : ConnRep env g' c' d') (hframe : Frame L g ⟨me, c, s.world⟩ g' c') (hopen : d'.Open) :
    ServerRep env g' { s.setClient me c'.client with world := c'.world } ∧
    Apart L me s { s.setClient me c'.client with world := c'.world } ∧
    Server.dec { s.setClient me c'.client with world := c'.world } me = d' := by
  obtain ⟨order, hlisted⟩ := h.listed
  obtain ⟨ext, htrace, hmine⟩ := hframe.trace
  have hme : c'.me = me := hframe.me
  have hself : (s.clients.set me c'.client).get me = some c'.client := Pool.get_set_self hget
  have hrep : ClientRep g' c'.world me c'.client d' := hme ▸ hconn.client
  have hcells : (s.clients.set me c'.client).cells.length = s.clients.cells.length := by
    simp [Pool.set]
  -- the pass worked in its own blocks: the other clients and their decoders stand as before
  have hothers : ∀ i, i ≠ me → ∀ cl, s.clients.get i = some cl →
      ClientRep g' c'.world i cl (s.dec i) ∧ (s.dec i).Open := by
    intro i hi cl hcl
    obtain ⟨hci, hopen_i⟩ := h.conn hcl
    exact ⟨hframe.others i cl _ hi hci.client, hopen_i⟩
  refine ⟨⟨hconn.world, ⟨order, hlisted.setClient hget hframe.next hframe.pre _⟩, fun i cl hcl => ?_,
    fun x hx => ?_⟩, ⟨fun i hi => ?_, fun i hi => ?_, hcells, ext, htrace, hmine⟩, ?_⟩
  · by_cases hi : i = me
    · subst hi
      cases hself.symm.trans hcl
      exact ⟨d', hrep, hopen⟩
    · have hcl' : s.clients.get i = some cl := (Pool.get_set_ne hi).symm.trans hcl
      exact ⟨s.dec i, hothers i hi cl hcl'⟩
  · -- what the pass added to the trace is about `me`, a client there is
    show x.client < (s.clients.set me c'.client).cells.length
    rw [hcells]
    have hx' : x ∈ s.world.trace ++ ext := htrace ▸ hx
    rcases List.mem_append.mp hx' with hx' | hx'
    · exact h.known x hx'
    · rw [(hmine x hx').1]
      exact Pool.lt_of_get hget
  · apply Server.dec_eq g' _ _ htrace fun x hx => by rw [(hmine x hx).1]; exact hi.symm
    · intro cl hcl
      exact ⟨cl, (Pool.get_set_ne hi).trans hcl, (hothers i hi cl hcl).1⟩
    · intro hnone
      exact (Pool.get_set_ne hi).trans hnone
  · show ((s.clients.set me c'.client).get i).isSome ↔ _
    rw [Pool.get_set_ne hi]
  · rw [Server.dec_live hself]
    exact hrep.dec

/-! ## Section 4: Closing a connection -/

/-- What `clientDelete` leaves. -/
structure Closed (env : Env) (me : ClientId) (s s' : Server) : Prop where
  rep : ∃ g', ServerRep env g' s'
  apart : Apart (fun x => x = .closed me) me s s'
  gone : s'.clients.get me = none
  trace : s'.world.trace = s.world.trace ++ [.closed me]

theorem clientDelete_sim (h : ServerRep env g s) (hget : s.clients.get me = some c) :
    Simulates (OwnFault env) (fun s' _ => Closed env me s s') (clientDelete env s me)
      (s.dec me).close := by
  obtain ⟨order, hlisted⟩ := h.listed
  obtain ⟨⟨hworld, hrep⟩, -⟩ := h.conn hget
  obtain ⟨s₁, order', hunlink, hseg, hnodup, hnot, hkept, hrelinked, hsame⟩ := unlink_spec hlisted hget
  -- the event loop is not part of the representation
  set w := { s₁.world with loop := aeDeleteFileEvent s₁.world.loop c.fd ⟨true, true⟩ } with hw
  have hconn : ConnRep env g ⟨me, c, w⟩ (s.dec me) := by
    rw [hw, hsame]
    exact ⟨hworld.reloop _, hrep.reloop _⟩
  rw [clientDelete_eq, derefClient_some hget]
  simp only [Except.bind, hunlink]
  have hsim := clientFreebuf_sim hconn
  have hwtrace : w.trace = s.world.trace := by rw [hw, hsame]
  -- the heap and the log of `w` are those of `s.world`
  have hothers : ∀ i cl d, ClientRep g s.world i cl d → ClientRep g w i cl d := by
    intro i cl d hcl
    rw [hw, hsame]
    exact hcl.reloop _
  match hfree : clientFreebuf env { me := me, client := c, world := w.log (.closed me) },
      hclose : (s.dec me).close, hsim with
  | .error _, .error _, hsim | .error _, .ok _, hsim => exact hsim
  | .ok c', .ok _, ⟨htrace, g', hworld', hframe⟩ =>
    have htrace' : c'.world.trace = s.world.trace ++ [.closed me] := by rw [htrace, ← hwtrace]
    have hlive : ∀ i, i ≠ me → ∀ cl, s.clients.get i = some cl →
        ∃ n p, (s₁.clients.release me).get i = some { cl with next := n, pre := p } ∧
          ClientRep g' c'.world i { cl with next := n, pre := p } (s.dec i) ∧ (s.dec i).Open := by
      intro i hi cl hcl
      obtain ⟨n, p, hcl'⟩ := (hrelinked.2 i).2 cl hcl
      obtain ⟨hci, hopen⟩ := h.conn hcl
      have hrep' := hframe.others i cl _ hi (hothers i cl _ hci.client)
      exact ⟨n, p, (Pool.get_release_ne hi).trans hcl', hrep'.relink n p, hopen⟩
    have hdead : ∀ i, s.clients.get i = none → (s₁.clients.release me).get i = none := by
      intro i hnone
      by_cases hi : i = me
      · rw [hi]
        exact Pool.get_release_self _ _
      · exact (Pool.get_release_ne hi).trans ((hrelinked.2 i).1 hnone)
    have hback : ∀ i cl, (s₁.clients.release me).get i = some cl →
        i ≠ me ∧ ∃ cl₀, s.clients.get i = some cl₀ := by
      intro i cl hcl
      have hi : i ≠ me := by
        rintro rfl
        rw [Pool.get_release_self] at hcl
        cases hcl
      obtain ⟨cl₀, -, -, hcl₀, -⟩ := hrelinked.back ((Pool.get_release_ne hi).symm.trans hcl)
      exact ⟨hi, cl₀, hcl₀⟩
    have hcells : (s₁.clients.release me).cells.length = s.clients.cells.length := by
      simp [Pool.release, hrelinked.1]
    refine ⟨⟨g', hworld', ⟨order', hseg.congr fun i hi => ?_, hnodup, fun i cl hcl => ?_⟩,
      fun i cl hcl => ?_, fun x hx => ?_⟩, ⟨fun i hi => ?_, fun i hi => ?_, hcells,
      [.closed me], htrace', by simp [Happened.client]⟩, Pool.get_release_self _ _, htrace'⟩
    · apply Pool.get_release_ne
      rintro rfl
      exact hnot hi
    · obtain ⟨hi, cl₀, hcl₀⟩ := hback i cl hcl
      exact hkept i (hlisted.live i cl₀ hcl₀) hi
    · obtain ⟨hi, cl₀, hcl₀⟩ := hback i cl hcl
      obtain ⟨n, p, hcl', hrep', hopen⟩ := hlive i hi cl₀ hcl₀
      cases hcl'.symm.trans hcl
      exact ⟨s.dec i, hrep', hopen⟩
    · show x.client < (s₁.clients.release me).cells.length
      rw [hcells]
      have hx' : x ∈ s.world.trace ++ [.closed me] := htrace' ▸ hx
      rcases List.mem_append.mp hx' with hx' | hx'
      · exact h.known x hx'
      · rw [List.mem_singleton.mp hx']
        exact Pool.lt_of_get hget
    · refine Server.dec_eq g' (fun cl hcl => ?_) (hdead i) htrace' ?_
      · obtain ⟨n, p, hcl', hrep', -⟩ := hlive i hi cl hcl
        exact ⟨_, hcl', hrep'⟩
      · simpa [Happened.client] using hi.symm
    · show ((s₁.clients.release me).get i).isSome ↔ _
      rcases hcl : s.clients.get i with _ | cl
      · rw [hdead i hcl]
      · obtain ⟨n, p, hcl', -, -⟩ := hlive i hi cl hcl
        rw [hcl']
        simp

/-- A client works or is gone, and its end is logged when it is. -/
structure Settled (env : Env) (L : Happened → Prop) (me : ClientId) (s : Server) (e : PassEnd)
    (s' : Server) (d' : Dec) : Prop where
  rep : ∃ g', ServerRep env g' s'
  apart : Apart (fun x => L x ∨ e = .disconnect ∧ x = .closed me) me s s'
  got : (s'.dec me).got = d'.got
  handed : (s'.dec me).handed = d'.handed
  stays : e ≠ .disconnect → (s'.clients.get me).isSome ∧ s'.dec me = d'
  leaves : e = .disconnect → s'.clients.get me = none

theorem settle_sim {c' : Conn} {d' : Dec} (h : ServerRep env g s)
    (hget : s.clients.get me = some c) (hconn : ConnRep env g' c' d')
    (hframe : Frame L g ⟨me, c, s.world⟩ g' c') (hopen : d'.Open) (e : PassEnd) :
    Simulates (OwnFault env)
      (fun out y => out.1 = e ∧ y.1 = e ∧ y.2 = d' ∧ Settled env L me s e out.2 d' ∧
        ∃ ext, out.2.world.trace = c'.world.trace ++ ext ∧
          ext = if e = .disconnect then [.closed me] else [])
      (settle env s (e, c'))
      (if e = .disconnect then d'.close.map fun _ => (e, d') else .ok (e, d')) := by
  obtain ⟨hrep, hapart, hdec⟩ := settle_rep h hget hconn hframe hopen
  have hme : c'.me = me := hframe.me
  have hself : (s.clients.set me c'.client).get me = some c'.client := Pool.get_set_self hget
  unfold settle
  simp only [hme]
  cases e with
  | disconnect =>
    -- a disconnect deletes the client, and the decoder is closed with it
    have hsim := clientDelete_sim hrep hself
    rw [hdec] at hsim
    rw [if_pos rfl]
    show Simulates _ _ ((clientDelete env _ me).bind _) _
    match hdel : clientDelete env { s.setClient me c'.client with world := c'.world } me,
        hclose : d'.close, hsim with
    | .error _, .error _, hsim | .error _, .ok _, hsim => exact hsim
    | .ok s', .ok _, hdone =>
      have hgot : (s'.dec me).got = d'.got := by
        rw [Server.dec_got, hdone.trace, receivedBy_snoc, ← hdec, Server.dec_got]
        simp [receivedBy]
      have hhanded : (s'.dec me).handed = d'.handed := by
        rw [Server.dec_handed, hdone.trace, handedBy_snoc, ← hdec, Server.dec_handed]
        simp [handedBy]
      have hlogged : Apart (fun x => L x ∨ PassEnd.disconnect = .disconnect ∧ x = .closed me) me s s' :=
        (hapart.mono fun _ hx => Or.inl hx).trans (hdone.apart.mono fun _ hx => Or.inr ⟨rfl, hx⟩)
      exact ⟨rfl, rfl, rfl, ⟨hdone.rep, hlogged, hgot, hhanded,
        fun hne => absurd rfl hne, fun _ => hdone.gone⟩, [.closed me], hdone.trace, rfl⟩
  -- the connection stays, with the decoder the pass left
  | again | returned =>
    refine ⟨rfl, rfl, rfl, ⟨⟨g', hrep⟩, hapart.mono fun _ hx => Or.inl hx, by rw [hdec], by rw [hdec], fun _ => ⟨?_, hdec⟩,
      by simp⟩, [], by simp, rfl⟩
    show ((s.clients.set me c'.client).get me).isSome = true
    rw [hself]
    rfl

/-! ## Section 5: One event -/

/-- **A read.**  The client's decoder makes the same step. -/
theorem recvStep_sim (h : ServerRep env g s) (hget : s.clients.get me = some c) (r : ReadResult) :
    Simulates (OwnFault env) (fun out y => out.1 = y.1 ∧ Settled env Happened.Receiving me s y.1 out.2 y.2)
      (recvStep env s me r) ((s.dec me).step r) := by
  obtain ⟨hconn, hopen⟩ := h.conn hget
  have hsim := recvPass_sim hconn hopen r
  have hends := Dec.pass_ends hopen r
  unfold recvStep Dec.step
  rw [derefClient_some hget]
  apply hsim.bind_eq
  rintro ⟨e, c'⟩ ⟨e', d'⟩ - hpass ⟨he, g', hconn', hframe⟩
  have he' : e = e' := he
  subst he'
  rw [hpass] at hends
  have hsettle := settle_sim h hget hconn' hframe hends e
  have hboth : Simulates (OwnFault env) (fun out y => out.1 = y.1 ∧ Settled env Happened.Receiving me s y.1 out.2 y.2)
      (settle env s (e, c'))
      (if e = .disconnect then d'.close.map fun _ => (e, d') else .ok (e, d')) := by
    apply hsettle.mono
    rintro out y ⟨ho, hy, hyd, hsettled, -⟩
    rw [ho, hy, hyd]
    exact ⟨rfl, hsettled⟩
  cases e with
  | again | returned | disconnect => exact hboth

/-- **A write.**  No decoder is touched; the log tells what was written.
    Only an error of `write` ends the connection. -/
theorem sendStep_rep (h : ServerRep env g s) (hget : s.clients.get me = some c) (r : WriteResult) :
    Ends (fun f => r = .error ∧ (OwnFault env f ∨ (s.dec me).close = .error f))
      (fun out => (out.1 = .disconnect → r = .error) ∧ Settled env (fun _ => True) me s out.1 out.2 (s.dec me) ∧
        ∃ ext, out.2.world.trace = s.world.trace ++ ext ++
            (if out.1 = .disconnect then [.closed me] else []) ∧
          SendLog me r ((Ledger.after s.world.trace).pending me) ext)
      (sendStep env s me r) := by
  obtain ⟨hconn, hopen⟩ := h.conn hget
  obtain ⟨e, c', ext, hpass, hend, hconn', hframe, htrace, hlog⟩ := sendPass_rep hconn r
  have hsettle := settle_sim h hget hconn' hframe hopen e
  unfold sendStep
  rw [derefClient_some hget]
  show Ends _ _ ((sendPass ⟨me, c, s.world⟩ r).bind _)
  rw [hpass]
  show Ends _ _ (settle env s (e, c'))
  have hclose : Ends (fun f => (s.dec me).close = .error f) (fun _ => True)
      (if e = .disconnect then (s.dec me).close.map fun _ => (e, s.dec me) else .ok (e, s.dec me)) := by
    by_cases hdis : e = .disconnect
    · rw [if_pos hdis]
      rcases (s.dec me).close with f | u
      · rfl
      · trivial
    · rw [if_neg hdis]
      trivial
  revert hsettle hclose
  generalize hy : (if e = .disconnect then (s.dec me).close.map fun _ => (e, s.dec me)
    else .ok (e, s.dec me)) = y
  intro hsettle hclose
  rcases hout : settle env s (e, c') with f | ⟨e', s'⟩
  · have herror : r = .error := by
      apply hend
      by_contra hdis
      -- putting the client back cannot fail
      unfold settle at hout
      cases e <;> simp at hout hdis
    rw [hout] at hsettle
    rcases hsettle.error_left with hown | hy
    · exact ⟨herror, Or.inl hown⟩
    · rw [hy] at hclose
      exact ⟨herror, Or.inr hclose⟩
  · rw [hout] at hsettle
    obtain ⟨y', -, he, -, -, hsettled, ext', htrace', hext'⟩ := hsettle.ok_left
    have he' : e' = e := he
    subst he'
    exact ⟨hend, hsettled, ext, by rw [htrace', htrace, hext'], hlog⟩

/-- What an accepted connection changes. -/
structure Connected (env : Env) (g : Ghost) (s s' : Server) : Prop where
  rep : ServerRep env g s'
  trace : s'.world.trace = s.world.trace
  dec : ∀ i, s'.dec i = s.dec i
  live : ∀ i, i ≠ s.clients.cells.length →
    ((s'.clients.get i).isSome ↔ (s.clients.get i).isSome)

/-- **A connection.**  The new client starts with nothing read. -/
theorem acceptPass_rep (h : ServerRep env g s) (fd : Nat) (nonBlock : Bool) :
    ∃ s', acceptPass s fd nonBlock = .ok s' ∧ Connected env g s s' ∧
      (nonBlock = true → (s'.clients.get s.clients.cells.length).isSome ∧
        s'.dec s.clients.cells.length = .fresh ∧
        s'.clients.cells.length = s.clients.cells.length + 1) := by
  unfold acceptPass
  by_cases hnb : nonBlock
  swap
  · rw [if_pos hnb]
    exact ⟨s, rfl, ⟨h, rfl, fun _ => rfl, fun _ _ => Iff.rfl⟩, fun ht => absurd ht hnb⟩
  rw [if_neg (not_not.mpr hnb)]
  obtain ⟨order, hlisted⟩ := h.listed
  obtain ⟨s₁, hadd, hadded⟩ := addClient_spec hlisted fd
  set me := s.clients.cells.length
  have hworld : s₁.world = s.world := hadded.world
  show ∃ s', (clientAdd { s with clients := (s.clients.alloc (newClient fd)).2 } me).bind _ = .ok s' ∧ _
  rw [hadd]
  set loop := (aeCreateFileEvent (aeCreateFileEvent s₁.world.loop fd aeReadable .recvCmdHandle me).2
    fd aeWritable .sendResponseHandle me).2
  set s' : Server := { s₁ with world := { s₁.world with loop := loop } } with hs'
  have htrace : s'.world.trace = s.world.trace := by rw [hs', hworld]
  have hunknown : ∀ x ∈ s.world.trace, x.client ≠ me := fun x hx => (h.known x hx).ne
  -- only the event loop differs from `s.world`
  have hclient : ∀ i cl d n p, ClientRep g s.world i cl d →
      ClientRep g s'.world i { cl with next := n, pre := p } d := by
    intro i cl d n p hcl
    rw [hs', hworld]
    exact (hcl.relink n p).reloop _
  have hmine : ClientRep g s.world me (newClient fd) .fresh := by
    refine ⟨rfl, rfl, receivedBy_unknown hunknown, handedBy_unknown hunknown, ?_, rfl, rfl, rfl⟩
    rw [Ledger.pending_unknown hunknown]
    exact List.Forall₂.nil
  obtain ⟨n, p, hget⟩ := hadded.new
  have hget' : s'.clients.get me = some { newClient fd with next := n, pre := p } := hget
  have hdec : s'.dec me = .fresh := by
    rw [Server.dec_live hget']
    exact (hclient me _ _ n p hmine).dec
  have hdec' : s.dec me = .fresh := (h.dec_unknown (le_refl _)).2
  refine ⟨s', rfl, ⟨⟨?_, ⟨me :: order, hadded.listed.seg, hadded.listed.nodup, hadded.listed.live⟩, fun i cl hcl => ?_,
    fun x hx => ?_⟩, htrace, fun i => ?_, fun i hi => ?_⟩, fun _ => ⟨?_, hdec, hadded.cells⟩⟩
  · rw [hs', hworld]
    exact h.world.reloop _
  · by_cases hi : i = me
    · subst hi
      cases hget.symm.trans hcl
      exact ⟨.fresh, hclient _ _ _ n p hmine, fun dc hdc => by simp [Dec.fresh] at hdc⟩
    · obtain ⟨cl₀, n, p, hcl₀, rfl⟩ := hadded.back i cl hi hcl
      obtain ⟨hci, hopen⟩ := h.conn hcl₀
      exact ⟨s.dec i, hclient _ _ _ n p hci.client, hopen⟩
  · show x.client < s₁.clients.cells.length
    rw [hadded.cells]
    exact Nat.lt_succ_of_lt (h.known x (htrace ▸ hx))
  · by_cases hi : i = me
    · rw [hi, hdec, hdec']
    · refine Server.dec_eq g (fun cl hcl => ?_) (fun hnone => ?_)
        (show s'.world.trace = s.world.trace ++ [] by rw [htrace, List.append_nil]) (by simp)
      · obtain ⟨n, p, hcl'⟩ := hadded.kept i cl hcl
        exact ⟨_, hcl', hclient _ _ _ n p (h.conn hcl).1.client⟩
      · have hgone := (hadded.isSome_iff hi).not
        rw [hnone] at hgone
        exact Option.not_isSome_iff_eq_none.mp (hgone.mpr (by simp))
  · exact hadded.isSome_iff hi
  · show (s₁.clients.get me).isSome = true
    rw [hget]
    rfl

/-! ## Section 6: Runs -/

/-- A constant hash, and blocks that keep their bytes: what the examples
    run with. -/
def plainEnv : Env := { hash := fun _ => 0, released := fun _ bs => bs }

theorem step_recv (h : ServerRep env g s) (hget : s.clients.get me = some c) (r : ReadResult) :
    Simulates (OwnFault env) (fun s' y => Settled env Happened.Receiving me s y.1 s' y.2) (step env s (.recv me r))
      ((s.dec me).step r) := by
  have hsim := recvStep_sim h hget r
  simp only [step, hget, Option.isNone_some, Bool.false_eq_true, if_false]
  match hx : recvStep env s me r, hy : (s.dec me).step r, hsim with
  | .ok out, .ok y, hsim => exact hsim.2
  | .error _, .error _, hsim | .error _, .ok _, hsim => exact hsim

theorem step_send (h : ServerRep env g s) (hget : s.clients.get me = some c) (r : WriteResult) :
    Ends (fun f => r = .error ∧ (OwnFault env f ∨ (s.dec me).close = .error f))
      (fun s' => ∃ e ext, (e = .disconnect → r = .error) ∧ Settled env (fun _ => True) me s e s' (s.dec me) ∧
        s'.world.trace = s.world.trace ++ ext ++ (if e = .disconnect then [.closed me] else []) ∧
        SendLog me r ((Ledger.after s.world.trace).pending me) ext)
      (step env s (.send me r)) := by
  have hends := sendStep_rep h hget r
  simp only [step, hget, Option.isNone_some, Bool.false_eq_true, if_false]
  match hx : sendStep env s me r, hends with
  | .ok out, ⟨hend, hsettled, ext, htrace, hlog⟩ =>
    exact ⟨out.1, ext, hend, hsettled, htrace, hlog⟩
  | .error _, hends => exact hends

theorem step_connect (h : ServerRep env g s) (fd : Nat) (nonBlock : Bool) :
    ∃ s', step env s (.connect fd nonBlock) = .ok s' ∧ Connected env g s s' := by
  unfold step
  by_cases hbusy : (decide (fd = 0) || fdInUse s fd) = true
  · simp only [hbusy, if_true]
    exact ⟨s, rfl, h, rfl, fun _ => rfl, fun _ _ => Iff.rfl⟩
  · simp only [hbusy]
    obtain ⟨s', haccept, hconn, -⟩ := acceptPass_rep h fd nonBlock
    exact ⟨s', haccept, hconn⟩

theorem step_recv_dead (hnone : s.clients.get me = none) (r : ReadResult) :
    step env s (.recv me r) = .ok s := by
  simp [step, hnone]

theorem step_send_dead (hnone : s.clients.get me = none) (r : WriteResult) :
    step env s (.send me r) = .ok s := by
  simp [step, hnone]

/-- The faults a run can end with. -/
def RunFault (env : Env) (f : Fault) : Prop := OwnFault env f ∨ Dec.IndexFault f

/-- **Every event keeps the invariant.** -/
theorem step_rep (h : ServerRep env g s) (e : Event) :
    Ends (RunFault env) (fun s' => ∃ g', ServerRep env g' s') (step env s e) := by
  cases e with
  | connect fd nonBlock =>
    obtain ⟨s', hstep, hconn⟩ := step_connect h fd nonBlock
    rw [hstep]
    exact ⟨g, hconn.rep⟩
  | recv me r =>
    rcases hget : s.clients.get me with _ | c
    · rw [step_recv_dead hget]
      exact ⟨g, h⟩
    · have hsim := step_recv h hget r
      have hends := Dec.step_ends (h.conn hget).2 r
      match hx : step env s (.recv me r), hy : (s.dec me).step r, hsim, hends with
      | .ok s', .ok y, hsim, _ => exact hsim.rep
      | .error f, .ok _, hsim, _ => exact Or.inl hsim
      | .error f, .error _, hsim, hends =>
        rcases hsim with hown | rfl
        · exact Or.inl hown
        · exact Or.inr hends
  | send me r =>
    rcases hget : s.clients.get me with _ | c
    · rw [step_send_dead hget]
      exact ⟨g, h⟩
    · have hends := step_send h hget r
      match hx : step env s (.send me r), hends with
      | .ok s', ⟨_, _, _, hsettled, _, _⟩ => exact hsettled.rep
      | .error f, ⟨_, Or.inl hown⟩ => exact Or.inl hown
      | .error f, ⟨_, Or.inr hclose⟩ =>
        have hindex := Dec.close_ends (d := s.dec me)
        rw [hclose] at hindex
        exact Or.inr hindex

theorem run_rep (h : ServerRep env g s) {es : List Event} (hrun : run (step env) s es = .ok s') :
    ∃ g', ServerRep env g' s' := by
  apply run_invariant (I := fun s => ∃ g, ServerRep env g s) _ ⟨g, h⟩ hrun
  rintro s e s' ⟨g, hg⟩ hstep
  have hends := step_rep hg e
  rw [hstep] at hends
  exact hends

/-- **Every reachable state is represented.** -/
theorem reachable_rep {es : List Event} (hrun : run (step env) initServer es = .ok s) :
    ∃ g, ServerRep env g s :=
  run_rep (initServer_rep env) hrun

theorem reachable_fault {es : List Event} {f : Fault}
    (hrun : run (step env) initServer es = .error f) : RunFault env f := by
  by_contra hf
  refine along_no_fault (I := fun s => ∃ g, ServerRep env g s) (P := fun _ _ => True)
    (F := fun f => ¬ RunFault env f) ?_ ?_ ⟨_, initServer_rep env⟩ (along_true _ _) hrun hf
  · rintro s e s' ⟨g, hg⟩ - hstep
    have hends := step_rep hg e
    rw [hstep] at hends
    exact hends
  · rintro s e f ⟨g, hg⟩ - hstep
    have hends := step_rep hg e
    rw [hstep] at hends
    exact not_not.mpr hends

/-- What is judged entry by entry: a read logs entries of
    `recv_cmd_handle`, a write what `SendLog` says, and both may log the end
    of the connection. -/
theorem each_step {P : List Happened → Happened → Prop} (h : ServerRep env g s)
    (hP : History.Each P s.world.trace) {e : Event}
    (hreceiving : ∀ before x, x.Receiving → P before x) (hclosed : ∀ before i, P before (.closed i))
    (hsend : ∀ i r c ext, e = .send i r → s.clients.get i = some c →
      SendLog i r ((Ledger.after s.world.trace).pending i) ext → History.Each P (s.world.trace ++ ext))
    (hstep : step env s e = .ok s') : History.Each P s'.world.trace := by
  cases e with
  | connect fd nonBlock =>
    obtain ⟨s₁, hstep₁, hconn⟩ := step_connect h fd nonBlock
    rw [hstep, Except.ok.injEq] at hstep₁
    subst hstep₁
    rw [hconn.trace]
    exact hP
  | recv i r =>
    rcases hget : s.clients.get i with _ | c
    · rw [step_recv_dead hget, Except.ok.injEq] at hstep
      exact hstep ▸ hP
    have hsim := step_recv h hget r
    rw [hstep] at hsim
    obtain ⟨y, -, hsettled⟩ := hsim.ok_left
    obtain ⟨ext, htrace, hext⟩ := hsettled.apart.trace
    rw [htrace]
    apply hP.append
    intro x hx before
    rcases (hext x hx).2 with hx' | ⟨-, rfl⟩
    · exact hreceiving before x hx'
    · exact hclosed before i
  | send i r =>
    rcases hget : s.clients.get i with _ | c
    · rw [step_send_dead hget, Except.ok.injEq] at hstep
      exact hstep ▸ hP
    have hends := step_send h hget r
    rw [hstep] at hends
    obtain ⟨p, ext, -, -, htrace, hlog⟩ := hends
    rw [htrace]
    apply (hsend i r c ext rfl hget hlog).append
    intro x hx before
    split at hx
    · rw [List.mem_singleton.mp hx]
      exact hclosed before i
    · simp at hx

/-- A write logs no end by itself. -/
theorem SendLog.not_closed {w : WriteResult} {ps : List Pending} {ext : List Happened}
    (h : SendLog me w ps ext) (i : ClientId) : .closed i ∉ ext := by
  cases h with
  | nothing | finished | wrote => simp

/-- The end of a connection is logged when the client goes. -/
theorem Settled.open {i j : ClientId} {p : PassEnd} {d' : Dec} {ext : List Happened}
    (h : Settled env L j s p s' d') (hj : (s.clients.get j).isSome)
    (hopen : ∀ i, (s.clients.get i).isSome → .closed i ∉ s.world.trace)
    (htrace : s'.world.trace = s.world.trace ++ ext)
    (hext : .closed i ∈ ext → p = .disconnect ∧ i = j) (hlive : (s'.clients.get i).isSome) :
    .closed i ∉ s'.world.trace := by
  have hlive₀ : (s.clients.get i).isSome := by
    by_cases hi : i = j
    · exact hi ▸ hj
    · exact (h.apart.live i hi).mp hlive
  rw [htrace, List.mem_append]
  rintro (hmem | hmem)
  · exact hopen i hlive₀ hmem
  · obtain ⟨hp, rfl⟩ := hext hmem
    rw [h.leaves hp] at hlive
    cases hlive

/-- **The log of a live client has no end.** -/
theorem step_open (h : ServerRep env g s) {e : Event}
    (hopen : ∀ i, (s.clients.get i).isSome → .closed i ∉ s.world.trace)
    (hstep : step env s e = .ok s') : ∀ i, (s'.clients.get i).isSome → .closed i ∉ s'.world.trace := by
  intro i hlive
  cases e with
  | connect fd nonBlock =>
    obtain ⟨s₁, hstep₁, hconn⟩ := step_connect h fd nonBlock
    rw [hstep, Except.ok.injEq] at hstep₁
    subst hstep₁
    rw [hconn.trace]
    by_cases hi : i = s.clients.cells.length
    · intro hmem
      have hknown : i < s.clients.cells.length := h.known _ hmem
      omega
    · exact hopen i ((hconn.live i hi).mp hlive)
  | recv j r =>
    rcases hget : s.clients.get j with _ | c
    · rw [step_recv_dead hget, Except.ok.injEq] at hstep
      subst hstep
      exact hopen i hlive
    have hsim := step_recv h hget r
    rw [hstep] at hsim
    obtain ⟨y, -, hsettled⟩ := hsim.ok_left
    obtain ⟨ext, htrace, hext⟩ := hsettled.apart.trace
    refine hsettled.open (by rw [hget]; rfl) hopen htrace (fun hmem => ?_) hlive
    obtain ⟨hi, hreceiving | ⟨hp, -⟩⟩ := hext _ hmem
    · exact absurd hreceiving id
    · exact ⟨hp, hi⟩
  | send j r =>
    rcases hget : s.clients.get j with _ | c
    · rw [step_send_dead hget, Except.ok.injEq] at hstep
      subst hstep
      exact hopen i hlive
    have hends := step_send h hget r
    rw [hstep] at hends
    obtain ⟨p, ext, -, hsettled, htrace, hlog⟩ := hends
    rw [List.append_assoc] at htrace
    refine hsettled.open (by rw [hget]; rfl) hopen htrace (fun hmem => ?_) hlive
    rcases List.mem_append.mp hmem with hmem | hmem
    · exact absurd hmem (hlog.not_closed i)
    · split at hmem
      · next hp => exact ⟨hp, Happened.closed.inj (List.mem_singleton.mp hmem)⟩
      · simp at hmem

theorem reachable_open {es : List Event} (hrun : run (step env) initServer es = .ok s) :
    ∀ i, (s.clients.get i).isSome → .closed i ∉ s.world.trace := by
  have hinv : (∃ g, ServerRep env g s) ∧ ∀ i, (s.clients.get i).isSome → .closed i ∉ s.world.trace := by
    apply run_invariant (I := fun s => (∃ g, ServerRep env g s) ∧
      ∀ i, (s.clients.get i).isSome → .closed i ∉ s.world.trace) _ _ hrun
    · rintro s e s' ⟨⟨g, hrep⟩, hopen⟩ hstep
      have hends := step_rep hrep e
      rw [hstep] at hends
      exact ⟨hends, step_open hrep hopen hstep⟩
    · exact ⟨⟨_, initServer_rep env⟩, fun i _ => by simp [initServer]⟩
  exact hinv.2

/-- A client just accepted has read nothing. -/
theorem accepted {es : List Event} {s₀ : Server} {fd : Nat}
    (hreach : run (step env) initServer es = .ok s₀) (haccept : step env s₀ (.connect fd true) = .ok s) :
    (∃ g, ServerRep env g s) ∧ s.dec s₀.clients.cells.length = .fresh := by
  obtain ⟨g₀, hrep₀⟩ := reachable_rep hreach
  obtain ⟨s₁, hstep₁, hconn⟩ := step_connect hrep₀ fd true
  rw [haccept, Except.ok.injEq] at hstep₁
  subst hstep₁
  exact ⟨⟨g₀, hconn.rep⟩, by rw [hconn.dec, (hrep₀.dec_unknown (le_refl _)).2]⟩

/-! ## Section 7: Invariants of one decoder -/

/-- `I` holds of the decoder of `me` while it is connected, and `J` of its
    share of the log also before and after. -/
structure Guarded (env : Env) (me : ClientId) (I : Dec → Prop)
    (J : Bytes → List (List Bytes) → Prop) (s : Server) : Prop where
  rep : ∃ g, ServerRep env g s
  live : (s.clients.get me).isSome → I (s.dec me)
  log : J (s.dec me).got (s.dec me).handed

section guarded

variable {I : Dec → Prop} {J : Bytes → List (List Bytes) → Prop} {e : Event}

theorem guarded_init (me : ClientId) (hlog : ∀ d, I d → J d.got d.handed) (hfresh : I .fresh) :
    Guarded env me I J initServer := by
  have hrep := initServer_rep env
  obtain ⟨hnone, hdec⟩ := hrep.dec_unknown (Nat.zero_le me)
  refine ⟨⟨_, hrep⟩, fun hlive => ?_, ?_⟩
  · rw [hnone] at hlive
    simp at hlive
  · rw [hdec]
    exact hlog _ hfresh

theorem Guarded.settled {p : PassEnd} {d' : Dec} (hlog : ∀ d, I d → J d.got d.handed)
    (hsettled : Settled env L me s p s' d') (hdec : I d') : Guarded env me I J s' := by
  refine ⟨hsettled.rep, fun hsome => ?_, ?_⟩
  · by_cases hp : p = .disconnect
    · rw [hsettled.leaves hp] at hsome
      simp at hsome
    · rw [(hsettled.stays hp).2]
      exact hdec
  · rw [hsettled.got, hsettled.handed]
    exact hlog _ hdec

theorem Guarded.apart (h : Guarded env me I J s) {i : ClientId} (hi : me ≠ i)
    (hrep : ∃ g, ServerRep env g s') (hapart : Apart L i s s') : Guarded env me I J s' := by
  have hdec := hapart.dec me hi
  exact ⟨hrep, fun hsome => hdec ▸ h.live ((hapart.live me hi).mp hsome), hdec ▸ h.log⟩

/-- **One decoder in a run of the server.**  Only a read of `me` can break
    what holds of its decoder. -/
theorem Guarded.step (h : Guarded env me I J s) (hlog : ∀ d, I d → J d.got d.handed)
    (hfresh : I .fresh)
    (hread : ∀ r p d', e = .recv me r → (s.clients.get me).isSome → I (s.dec me) →
      (s.dec me).step r = .ok (p, d') → I d')
    (hstep : BoAtom.step env s e = .ok s') : Guarded env me I J s' := by
  obtain ⟨g, hrep⟩ := h.rep
  cases e with
  | connect fd nonBlock =>
    obtain ⟨s₁, hstep₁, hconn⟩ := step_connect hrep fd nonBlock
    rw [hstep, Except.ok.injEq] at hstep₁
    subst hstep₁
    -- the new client is the next free one, with a fresh decoder; the others are as before
    have hdec := hconn.dec me
    refine ⟨⟨g, hconn.rep⟩, fun hsome => ?_, hdec ▸ h.log⟩
    by_cases hme : me = s.clients.cells.length
    · rw [hdec, (hrep.dec_unknown hme.ge).2]
      exact hfresh
    · rw [hdec]
      exact h.live ((hconn.live me hme).mp hsome)
  | recv i r =>
    rcases hget : s.clients.get i with _ | c
    · rw [step_recv_dead hget, Except.ok.injEq] at hstep
      exact hstep ▸ h
    have hsim := step_recv hrep hget r
    rw [hstep] at hsim
    obtain ⟨⟨p, d'⟩, hdec, hsettled⟩ := hsim.ok_left
    by_cases hi : me = i
    · subst hi
      have hlive : (s.clients.get me).isSome := by rw [hget]; rfl
      -- its own read moves the decoder by `hread`
      exact .settled hlog hsettled (hread r p d' rfl hlive (h.live hlive) hdec)
    · exact h.apart hi hsettled.rep hsettled.apart
  | send i r =>
    rcases hget : s.clients.get i with _ | c
    · rw [step_send_dead hget, Except.ok.injEq] at hstep
      exact hstep ▸ h
    have hends := step_send hrep hget r
    rw [hstep] at hends
    obtain ⟨p, ext, -, hsettled, -⟩ := hends
    by_cases hi : me = i
    · subst hi
      exact .settled hlog hsettled (h.live (by rw [hget]; rfl))
    · exact h.apart hi hsettled.rep hsettled.apart

end guarded

/-! ## Section 8: Callbacks are runs -/

theorem recvCmdHandle_run (h : ServerRep env g s) (hlive : (s.clients.get me).isSome)
    (rs : List ReadResult) :
    ∃ n, run (step env) s ((rs.take n).map (.recv me)) = recvCmdHandle env me rs s := by
  induction rs generalizing s g with
  | nil => exact ⟨0, rfl⟩
  | cons r rs ih =>
    obtain ⟨c, hget⟩ := Option.isSome_iff_exists.mp hlive
    have hstep : step env s (.recv me r) = (recvStep env s me r).map Prod.snd := by simp [step, hget]
    have hsim := recvStep_sim h hget r
    unfold recvCmdHandle
    rcases hx : recvStep env s me r with f | ⟨e, s₁⟩
    · refine ⟨1, ?_⟩
      rw [hx] at hstep
      exact run_cons_error hstep
    · rw [hx] at hsim hstep
      obtain ⟨⟨e', d'⟩, -, he, hsettled⟩ := hsim.ok_left
      have he' : e = e' := he
      subst he'
      simp only [bind, Except.bind]
      cases e with
      | again =>
        obtain ⟨g', hrep⟩ := hsettled.rep
        obtain ⟨n, hn⟩ := ih hrep (hsettled.stays (by simp)).1
        exact ⟨n + 1, (run_take_succ rs n hstep).trans hn⟩
      | returned | disconnect => exact ⟨1, run_take_succ rs 0 hstep⟩

theorem sendResponseHandle_run (h : ServerRep env g s) (hlive : (s.clients.get me).isSome)
    (rs : List WriteResult) :
    ∃ n, run (step env) s ((rs.take n).map (.send me)) = sendResponseHandle env me rs s := by
  induction rs generalizing s g with
  | nil => exact ⟨0, rfl⟩
  | cons r rs ih =>
    obtain ⟨c, hget⟩ := Option.isSome_iff_exists.mp hlive
    have hstep : step env s (.send me r) = (sendStep env s me r).map Prod.snd := by simp [step, hget]
    have hends := sendStep_rep h hget r
    unfold sendResponseHandle
    rcases hx : sendStep env s me r with f | ⟨e, s₁⟩
    · refine ⟨1, ?_⟩
      rw [hx] at hstep
      exact run_cons_error hstep
    · rw [hx] at hends hstep
      obtain ⟨-, hsettled, -⟩ := hends
      simp only [bind, Except.bind]
      cases e with
      | again =>
        obtain ⟨g', hrep⟩ := hsettled.rep
        obtain ⟨n, hn⟩ := ih hrep (hsettled.stays (by simp)).1
        exact ⟨n + 1, (run_take_succ rs n hstep).trans hn⟩
      | returned | disconnect => exact ⟨1, run_take_succ rs 0 hstep⟩

end BoAtom
