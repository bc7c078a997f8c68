import BoAtom.Mem.Reach
import BoAtom.Mem.Tracking

/-! # Requests over a cut stream

    A client sends the encodings of a list of requests, and `read` cuts the
    stream as it likes.  As long as no read is harmed by what was left in
    `recv_cmd` (`ReadsHarmless`), the commands handed to `ALL_cmd` are the
    requests.  Other clients do what they like. -/

namespace BoAtom

open Machine Memory

/-! ## Section 1: What a client sends -/

/-- The client whose callback runs. -/
def Event.client : Event → Option ClientId
  | .connect _ _ => none
  | .recv me _ | .send me _ => some me

/-- `me` sends the bytes `sent`: every `read` returns some of what comes
    next, at most what it was asked for, or `EAGAIN`. -/
def PeerSends (me : ClientId) (sent : Bytes) (s : Server) : Event → Prop
  | .recv i r => i = me → r = .eagain ∨ ∃ xs, r = .data xs ∧ xs ≠ [] ∧
      xs.length ≤ (s.dec me).asked ∧ receivedBy me s.world.trace ++ xs <+: sent
  | .send i w => i = me → w ≠ .error
  | .connect _ _ => True

/-- No read of `me` is harmed by the bytes behind the received ones. -/
def ReadsHarmless (me : ClientId) (sent : Bytes) (s : Server) : Event → Prop
  | .recv i (.data xs) => i = me →
      (s.dec me).Harmless (sent.drop (receivedBy me s.world.trace ++ xs).length) xs
  | _ => True

/-- The parser state of a connection without a request in progress. -/
structure Clean (c : ClientStat) : Prop where
  curCmdItem : c.curCmdItem = none
  head : c.recvCmdQueueHead = none
  tail : c.recvCmdQueueTail = none
  recvPos : c.recvPos = 0

variable {env : Env} {g : Ghost} {s s' : Server} {me : ClientId} {c : ClientStat} {sent : Bytes}
  {base : List (List Bytes)} {e : Event}

/-! ## Section 2: One client among others -/

/-- What an event of another client, or a connection, leaves alone. -/
theorem step_apart (h : ServerRep env g s) (hlive : (s.clients.get me).isSome)
    (he : e.client ≠ some me) (hstep : step env s e = .ok s') :
    (∃ g', ServerRep env g' s') ∧ (s'.clients.get me).isSome ∧ s'.dec me = s.dec me := by
  have hdead : ∀ i, s.clients.get i = none → step env s e = .ok s → s' = s := by
    intro i _ hsame
    rw [hstep, Except.ok.injEq] at hsame
    exact hsame
  cases e with
  | connect fd nonBlock =>
    obtain ⟨s₁, hstep₁, hconn⟩ := step_connect h fd nonBlock
    rw [hstep, Except.ok.injEq] at hstep₁
    subst hstep₁
    obtain ⟨c, hget⟩ := Option.isSome_iff_exists.mp hlive
    exact ⟨⟨g, hconn.rep⟩, (hconn.live me (Pool.lt_of_get hget).ne).mpr hlive, hconn.dec me⟩
  | recv i r =>
    have hi : me ≠ i := fun hi => he (by rw [hi]; rfl)
    rcases hget : s.clients.get i with _ | c
    · rw [hdead i hget (step_recv_dead hget r)]
      exact ⟨⟨g, h⟩, hlive, rfl⟩
    · have hsim := step_recv h hget r
      rw [hstep] at hsim
      obtain ⟨y, -, hsettled⟩ := hsim.ok_left
      exact ⟨hsettled.rep, (hsettled.apart.live me hi).mpr hlive, hsettled.apart.dec me hi⟩
  | send i w =>
    have hi : me ≠ i := fun hi => he (by rw [hi]; rfl)
    rcases hget : s.clients.get i with _ | c
    · rw [hdead i hget (step_send_dead hget w)]
      exact ⟨⟨g, h⟩, hlive, rfl⟩
    · have hends := step_send h hget w
      rw [hstep] at hends
      obtain ⟨_, _, -, hsettled, -⟩ := hends
      exact ⟨hsettled.rep, (hsettled.apart.live me hi).mpr hlive, hsettled.apart.dec me hi⟩

/-- What a write of `me` that does not fail leaves alone. -/
theorem step_send_self (h : ServerRep env g s) (hget : s.clients.get me = some c) {w : WriteResult}
    (hw : w ≠ .error) :
    ∃ s', step env s (.send me w) = .ok s' ∧ (∃ g', ServerRep env g' s') ∧
      (s'.clients.get me).isSome ∧ s'.dec me = s.dec me := by
  have hends := step_send h hget w
  rcases hstep : step env s (.send me w) with f | s'
  · rw [hstep] at hends
    exact absurd hends.1 hw
  · rw [hstep] at hends
    obtain ⟨e, ext, hend, hsettled, -⟩ := hends
    have hstays := hsettled.stays fun he => hw (hend he)
    exact ⟨s', rfl, hsettled.rep, hstays.1, hstays.2⟩

/-- A read of `me` that its decoder goes along with. -/
theorem step_recv_self (hquiet : env.Quiet) (h : ServerRep env g s) (hget : s.clients.get me = some c)
    {r : ReadResult} {p : PassEnd} {d' : Dec} (hpass : (s.dec me).pass r = .ok (p, d'))
    (hp : p ≠ .disconnect) :
    ∃ s', step env s (.recv me r) = .ok s' ∧ (∃ g', ServerRep env g' s') ∧
      (s'.clients.get me).isSome ∧ s'.dec me = d' := by
  have hdec : (s.dec me).step r = .ok (p, d') := by
    unfold Dec.step
    rw [hpass]
    cases p with
    | disconnect => exact absurd rfl hp
    | again | returned => rfl
  have hsim := step_recv h hget r
  rw [hdec] at hsim
  rcases hsim.ok_right with ⟨s', hstep, hsettled⟩ | ⟨f, -, -, hloud⟩
  · exact ⟨s', hstep, hsettled.rep, hsettled.stays hp⟩
  · exact absurd hquiet hloud

/-! ## Section 3: The requests of one client -/

/-- `me` is served: its decoder is where the bytes received so far lead. -/
structure Served (env : Env) (me : ClientId) (sent : Bytes) (base : List (List Bytes)) (s : Server) :
    Prop where
  rep : ∃ g, ServerRep env g s
  live : (s.clients.get me).isSome
  between : Dec.Between base (sent.drop (s.dec me).got.length) (s.dec me)
  got : (s.dec me).got <+: sent

theorem Served.of_dec (h : Served env me sent base s) (hrep : ∃ g, ServerRep env g s')
    (hlive : (s'.clients.get me).isSome) (hdec : s'.dec me = s.dec me) : Served env me sent base s' :=
  ⟨hrep, hlive, hdec ▸ h.between, hdec ▸ h.got⟩

/-- What comes next is read, and what is left comes later. -/
theorem drop_of_sent {got xs : Bytes} (h : got ++ xs <+: sent) :
    sent.drop got.length = xs ++ sent.drop (got ++ xs).length := by
  obtain ⟨t, rfl⟩ := h
  rw [List.drop_left, List.append_assoc, List.drop_left]

/-- A callback of `me` returns, and serves it. -/
theorem served_self (hquiet : env.Quiet) (h : Served env me sent base s) (he : e.client = some me)
    (hpeer : PeerSends me sent s e) (hharm : ReadsHarmless me sent s e) :
    ∃ s', step env s e = .ok s' ∧ Served env me sent base s' := by
  obtain ⟨g, hrep⟩ := h.rep
  obtain ⟨c, hget⟩ := Option.isSome_iff_exists.mp h.live
  cases e with
  | connect fd nonBlock => simp [Event.client] at he
  | send i w =>
    obtain rfl : i = me := Option.some.inj he
    obtain ⟨s', hstep, hrep', hlive', hdec⟩ := step_send_self hrep hget (hpeer rfl)
    exact ⟨s', hstep, h.of_dec hrep' hlive' hdec⟩
  | recv i r =>
    obtain rfl : i = me := Option.some.inj he
    rcases hpeer rfl with rfl | ⟨xs, rfl, hne, hle, hbegins⟩
    · -- nothing there yet
      obtain ⟨s', hstep, hrep', hlive', hdec⟩ :=
        step_recv_self hquiet hrep hget h.between.pass_eagain (by simp)
      exact ⟨s', hstep, h.of_dec hrep' hlive' hdec⟩
    · -- `xs` is the next piece of what is still to come, and the decoder is between two pieces
      rw [← Server.dec_got] at hbegins
      have hbetween := h.between
      rw [drop_of_sent hbegins] at hbetween
      have hok := hharm rfl
      rw [← Server.dec_got] at hok
      obtain ⟨d', hpass, hbetween', hgot⟩ := hbetween.pass (bound_of_le hne hle) hok
      obtain ⟨s', hstep, hrep', hlive', hdec⟩ := step_recv_self hquiet hrep hget hpass (by simp)
      refine ⟨s', hstep, hrep', hlive', ?_, ?_⟩
      · rw [hdec, hgot]
        exact hbetween'
      · rw [hdec, hgot]
        exact hbegins

/-- **One event.**  Only a callback of another client can fault. -/
theorem served_step (hquiet : env.Quiet) (h : Served env me sent base s) (hpeer : PeerSends me sent s e)
    (hharm : ReadsHarmless me sent s e) :
    Ends (fun _ => ∃ i, e.client = some i ∧ i ≠ me) (Served env me sent base) (step env s e) := by
  by_cases he : e.client = some me
  · obtain ⟨s', hstep, hserved⟩ := served_self hquiet h he hpeer hharm
    rw [hstep]
    exact hserved
  obtain ⟨g, hrep⟩ := h.rep
  rcases hstep : step env s e with f | s'
  · cases e with
    | connect fd nonBlock =>
      obtain ⟨s', hok, -⟩ := step_connect hrep fd nonBlock
      rw [hstep] at hok
      cases hok
    | recv i _ | send i _ => exact ⟨i, rfl, fun hi => he (congrArg some hi)⟩
  · -- an event of another client, which leaves this decoder as it was
    obtain ⟨hrep', hlive', hdec⟩ := step_apart hrep h.live he hstep
    exact h.of_dec hrep' hlive' hdec

/-- **A run.**  It returns, or stops at a callback of another client. -/
theorem served_run (hquiet : env.Quiet) (h : Served env me sent base s) {es : List Event}
    (halong : Along (step env) (fun s e => PeerSends me sent s e ∧ ReadsHarmless me sent s e) s es) :
    (∃ e f i, StopsAt (step env) s es e f ∧ e.client = some i ∧ i ≠ me) ∨
    ∃ s', run (step env) s es = .ok s' ∧ Served env me sent base s' := by
  have hstep : ∀ s e s', Served env me sent base s → PeerSends me sent s e ∧ ReadsHarmless me sent s e →
      step env s e = .ok s' → Served env me sent base s' := by
    rintro s e s' hs ⟨hpeer, hharm⟩ hstep
    have hends := served_step hquiet hs hpeer hharm
    rw [hstep] at hends
    exact hends
  rcases hrun : run (step env) s es with f | s'
  · obtain ⟨before, e, after, s₁, hes, hbefore, hs₁, ⟨hpeer, hharm⟩, hfault⟩ :=
      along_error hstep h halong hrun
    have hends := served_step hquiet hs₁ hpeer hharm
    rw [hfault] at hends
    obtain ⟨i, hi, hme⟩ := hends
    exact Or.inl ⟨e, f, i, ⟨before, after, s₁, hes, hbefore, hfault⟩, hi, hme⟩
  · exact Or.inr ⟨s', rfl, along_invariant hstep h halong hrun⟩

/-- The memory of a client without a command. -/
theorem ServerRep.clean (h : ServerRep env g s) (hget : s.clients.get me = some c)
    (hcur : (s.dec me).cur = none) (hpos : (s.dec me).pos = 0) : Clean c := by
  obtain ⟨⟨-, hclient⟩, -⟩ := h.conn hget
  have hc := hclient.cur
  rw [hcur] at hc
  exact ⟨hc.1, hc.2.1, hc.2.2, hclient.pos.trans hpos⟩

/-- **Requests survive fragmentation**, where no read is harmed and no freed
    SET name reads as a GET name.  A client has just been accepted, in any
    reachable state, and the others do what they like.  Unless a callback of
    another client aborts the server, the run returns; so does every
    callback of the client that may come next, `read` is asked for
    something, what is handed over is a beginning of the requests, and when
    all bytes have been read it is all of them, and nothing is left over. -/
theorem requests_survive_fragmentation (env : Env) (hquiet : env.Quiet) (es₀ es : List Event)
    (s₀ s : Server) (fd : Nat) (reqs : List (List Bytes)) (hvalid : ∀ args ∈ reqs, ValidRequest args)
    (hreach : run (step env) initServer es₀ = .ok s₀)
    (haccept : step env s₀ (.connect fd true) = .ok s)
    (hlive : (s.clients.get s₀.clients.cells.length).isSome)
    (halong : Along (step env) (fun s e =>
      PeerSends s₀.clients.cells.length (encode reqs) s e ∧
      ReadsHarmless s₀.clients.cells.length (encode reqs) s e) s es) :
    (∃ e f i, StopsAt (step env) s es e f ∧ e.client = some i ∧ i ≠ s₀.clients.cells.length) ∨
    ∃ s', run (step env) s es = .ok s' ∧
      (∀ e, e.client = some s₀.clients.cells.length →
        PeerSends s₀.clients.cells.length (encode reqs) s' e →
        ReadsHarmless s₀.clients.cells.length (encode reqs) s' e →
        ∃ s'', step env s' e = .ok s'') ∧
      0 < (s'.dec s₀.clients.cells.length).asked ∧
      handedBy s₀.clients.cells.length s'.world.trace <+: reqs.map (List.map encodeItem) ∧
      (receivedBy s₀.clients.cells.length s'.world.trace = encode reqs →
        handedBy s₀.clients.cells.length s'.world.trace = reqs.map (List.map encodeItem) ∧
        ∃ c, s'.clients.get s₀.clients.cells.length = some c ∧ Clean c) := by
  -- a new connection starts with a fresh decoder and every request ahead of it
  obtain ⟨hrep, hfresh⟩ := accepted hreach haccept
  have hserved : Served env s₀.clients.cells.length (encode reqs) (Dec.encodedItems reqs) s := by
    refine ⟨hrep, hlive, ?_, ?_⟩ <;> rw [hfresh]
    · exact Dec.between_fresh hvalid
    · exact List.nil_prefix
  apply (served_run hquiet hserved halong).imp_right
  rintro ⟨s', hrun, hserved'⟩
  refine ⟨s', hrun, fun e he hpeer hharm => ?_, hserved'.between.asked_pos, ?_, fun hall => ?_⟩
  · obtain ⟨s'', hstep, -⟩ := served_self hquiet hserved' he hpeer hharm
    exact ⟨s'', hstep⟩
  · -- at any moment the decoder has handed over a prefix of the requests
    rw [← Server.dec_handed]
    cases hserved'.between with
    | line hbase _ _ _ => exact ⟨_, hbase⟩
    | payload hbase _ _ _ _ _ => exact ⟨_, hbase⟩
  · -- all of it received: nothing is ahead, so no item and no command is open
    have hbetween := hserved'.between
    rw [Server.dec_got, hall, List.drop_length] at hbetween
    obtain ⟨hcur, hpos, hhanded⟩ := hbetween.finished
    rw [Server.dec_handed] at hhanded
    obtain ⟨c, hget⟩ := Option.isSome_iff_exists.mp hserved'.live
    obtain ⟨g', hrep'⟩ := hserved'.rep
    exact ⟨hhanded, c, hget, hrep'.clean hget hcur hpos⟩

/-- Their encodings, cut inside of a CR LF, inside of a payload, and at the
    end of an item. -/
def twoRequestsCut : List Bytes :=
  [[42, 51, 13, 10, 36, 51, 13], [10, 83, 69, 84, 13, 10, 36, 49, 13, 10, 107], [13, 10],
    [36, 49, 13, 10, 118, 13, 10, 42, 50, 13, 10, 36, 51, 13, 10, 71, 69, 84, 13, 10, 36, 49, 13, 10, 107, 13, 10]]

/-- The two, through such reads. -/
theorem requests_survive_fragmentation_cut :
    ∃ s s', step plainEnv initServer (.connect 5 true) = .ok s ∧
      run (step plainEnv) s (twoRequestsCut.map fun xs => .recv 0 (.data xs)) = .ok s' ∧
      handedBy 0 s'.world.trace = twoRequests.map (List.map encodeItem) ∧
      ∃ c, s'.clients.get 0 = some c ∧ Clean c := by
  obtain ⟨s, hs, hlive⟩ := ok_of_map (show (step plainEnv initServer (.connect 5 true)).map
      (fun s => (s.clients.get 0).isSome) = .ok true by decide +kernel)
  obtain ⟨s', hs', hall⟩ := ok_of_map (show (run (step plainEnv) initServer
      (.connect 5 true :: twoRequestsCut.map fun xs => .recv 0 (.data xs))).map
      (fun s => receivedBy 0 s.world.trace) = .ok (encode twoRequests) by decide +kernel)
  rw [run_cons_ok hs] at hs'
  -- a read goes on inside of an item, or has nothing but 0 behind it
  have hchecked : Along (step plainEnv) (fun s e => e = .connect 5 true ∨
      ∃ xs ∈ twoRequestsCut, e = .recv 0 (.data xs) ∧ xs ≠ [] ∧ xs.length ≤ (s.dec 0).asked ∧
        receivedBy 0 s.world.trace ++ xs <+: encode twoRequests ∧ ((s.dec 0).intoBuffer = true →
          ∀ b ∈ ((s.dec 0).read xs).buf.bytes.drop ((s.dec 0).pos + xs.length), b = 0)) initServer
      (.connect 5 true :: twoRequestsCut.map fun xs => .recv 0 (.data xs)) := by
    decide +kernel
  have halong : Along (step plainEnv) (fun s e =>
      PeerSends 0 (encode twoRequests) s e ∧ ReadsHarmless 0 (encode twoRequests) s e) s
      (twoRequestsCut.map fun xs => .recv 0 (.data xs)) := by
    apply along_mono _ (hchecked.2 s hs)
    rintro s e (rfl | ⟨xs, -, rfl, hne, hle, hbegins, hzeros⟩)
    · exact ⟨trivial, trivial⟩
    · exact ⟨fun _ => Or.inr ⟨xs, rfl, hne, hle, hbegins⟩,
        fun _ hinto => Dec.harmless_of_zeros (hzeros hinto) hinto⟩
  rcases requests_survive_fragmentation plainEnv (Env.quiet_of_kept fun _ _ => rfl) [] _ initServer s 5 twoRequests
    validRequest_twoRequests (run_nil _) hs hlive halong with ⟨e, f, i, ⟨before, after, -, hes, -⟩, hi, hother⟩ | ⟨s₁, hrun, -, -, -, hend⟩
  · -- all events are of the one client
    have hmem : e ∈ twoRequestsCut.map fun xs => Event.recv 0 (.data xs) := by
      rw [hes]
      simp
    obtain ⟨xs, -, rfl⟩ := List.mem_map.mp hmem
    exact absurd (Option.some.inj hi).symm hother
  · rw [hs', Except.ok.injEq] at hrun
    subst hrun
    exact ⟨s, s', hs, hs', hend hall⟩

/-- The second of two equal requests is lost when the first read of it ends
    at its CR: the LF behind it is that of the first request. -/
theorem stale_line_end_loses_request :
    ∃ s, run (step plainEnv) initServer [.connect 5 true,
        .recv 0 (.data (encodeRequest [[65]])),
        .recv 0 (.data ((encodeRequest [[65]]).take 3)),
        .recv 0 (.data ((encodeRequest [[65]]).drop 3))] = .ok s ∧
      receivedBy 0 s.world.trace = encode [[[65]], [[65]]] ∧
      handedBy 0 s.world.trace = [[encodeItem [65]]] := by
  obtain ⟨s, hs, hlog⟩ := ok_of_map (show (run (step plainEnv) initServer [.connect 5 true,
        .recv 0 (.data (encodeRequest [[65]])),
        .recv 0 (.data ((encodeRequest [[65]]).take 3)),
        .recv 0 (.data ((encodeRequest [[65]]).drop 3))]).map
      (fun s => (receivedBy 0 s.world.trace, handedBy 0 s.world.trace)) =
      .ok (encode [[[65]], [[65]]], [[encodeItem [65]]]) by decide +kernel)
  exact ⟨s, hs, Prod.mk.inj hlog⟩

/-! ## Section 4: After a rejection -/

/-- The request `args`, arriving in full in the next read, is executed with
    the answer and the effect it has on the store, and leaves no trace in
    the parser. -/
def AsOnNewConnection (env : Env) (s : Server) (me : ClientId) (args : List Bytes) : Prop :=
  ∃ s' c, step env s (.recv me (.data (encodeRequest args))) = .ok s' ∧
    handedBy me s'.world.trace = handedBy me s.world.trace ++ [args.map encodeItem] ∧
    appendedBy me s'.world.trace = appendedBy me s.world.trace ++
      ((request (args.map encodeItem)).answer (Ledger.after s.world.trace).store).toList ∧
    (Ledger.after s'.world.trace).store =
      (request (args.map encodeItem)).effect (Ledger.after s.world.trace).store ∧
    s'.clients.get me = some c ∧ Clean c

/-- The decoder state of a client without a request in progress. -/
theorem Clean.dec (h : Clean c) (hget : s.clients.get me = some c) :
    (s.dec me).cur = none ∧ (s.dec me).pos = 0 := by
  rw [Server.dec_live hget]
  refine ⟨?_, h.recvPos⟩
  show c.curCmdItem.bind _ = none
  rw [h.curCmdItem]
  rfl

/-- **A clean parser is as good as new.** -/
theorem clean_asOnNewConnection (hquiet : env.Quiet) (hrep : ServerRep env g s)
    (hget : s.clients.get me = some c) (hclean : Clean c) {args : List Bytes}
    (hvalid : ValidRequest args) (hfit : (encodeRequest args).length ≤ clientRecvCmdLength) :
    AsOnNewConnection env s me args := by
  obtain ⟨hcur, hpos⟩ := hclean.dec hget
  have hne : encodeRequest args ≠ [] := by simp [encodeRequest]
  have hasked : (encodeRequest args).length ≤ (s.dec me).asked := by
    unfold Dec.asked
    rw [hcur, hpos]
    exact hfit
  -- a clean parser is a decoder between two requests, with this one ahead
  have hbetween : Dec.Between ((s.dec me).handed ++ [args.map encodeItem]) (encodeRequest args)
      (s.dec me) := by
    have hidle : Dec.Ahead none (encode [args]) (Dec.encodedItems [args]) := by
      apply Dec.Ahead.idle
      simpa using hvalid
    rw [encode_cons, encode_nil, List.append_nil] at hidle
    rw [← hcur] at hidle
    refine .line rfl ?_ (hrep.conn hget).2 (Or.inl hpos)
    rw [hpos]
    exact hidle
  have hharm := hbetween.harmless_last hasked hne
  rw [← List.append_nil (encodeRequest args)] at hbetween
  obtain ⟨d', hpass, hbetween', -⟩ := hbetween.pass (bound_of_le hne hasked) hharm
  obtain ⟨hcur', hpos', hhanded'⟩ := hbetween'.finished
  obtain ⟨s', hstep, ⟨g', hrep'⟩, hlive', hdec⟩ := step_recv_self hquiet hrep hget hpass (by simp)
  have hsim := step_recv hrep hget (.data (encodeRequest args))
  rw [hstep] at hsim
  obtain ⟨y, -, hsettled⟩ := hsim.ok_left
  obtain ⟨ext, htrace, hmine⟩ := hsettled.apart.trace
  obtain ⟨c', hget'⟩ := Option.isSome_iff_exists.mp hlive'
  have hhanded : handedBy me s'.world.trace = handedBy me s.world.trace ++ [args.map encodeItem] := by
    rw [← Server.dec_handed, ← Server.dec_handed, hdec, hhanded']
  have hone : handedBy me ext = [args.map encodeItem] := by
    rw [htrace, handedBy, List.filterMap_append] at hhanded
    exact List.append_cancel_left hhanded
  -- one command was handed over, so the trace grew by one execution on the store so far
  have hcons := hrep'.world.consistent
  rw [htrace] at hcons
  obtain ⟨happended, hstore⟩ := hcons.one_execution (fun x hx => (hmine x hx).1) hone
  refine ⟨s', c', hstep, hhanded, ?_, ?_, hget', hrep'.clean hget' ?_ ?_⟩
  · rw [htrace, ← happended]
    exact List.filterMap_append
  · rw [htrace, hstore]
  · rw [hdec]
    exact hcur'
  · rw [hdec]
    exact hpos'

/-- A read leaves a clean parser when the decoder's pass does. -/
theorem step_clean_iff (hquiet : env.Quiet) (hrep : ServerRep env g s) (hget : s.clients.get me = some c)
    (r : ReadResult) :
    (∃ s' c', step env s (.recv me r) = .ok s' ∧ s'.clients.get me = some c' ∧ Clean c') ↔
    ∃ e d', (s.dec me).pass r = .ok (e, d') ∧ e ≠ .disconnect ∧ d'.cur = none ∧ d'.pos = 0 := by
  constructor
  · rintro ⟨s', c', hstep, hget', hclean⟩
    have hsim := step_recv hrep hget r
    rw [hstep] at hsim
    obtain ⟨⟨e, d'⟩, hdec, hsettled⟩ := hsim.ok_left
    have he : e ≠ .disconnect := by
      intro he
      rw [hsettled.leaves he] at hget'
      cases hget'
    have hclean' := hclean.dec hget'
    rw [(hsettled.stays he).2] at hclean'
    refine ⟨e, d', ?_, he, hclean'⟩
    -- a step that does not disconnect is its pass
    unfold Dec.step at hdec
    obtain ⟨⟨e₁, d₁⟩, hpass, hrest⟩ := ok_of_bind hdec
    rw [hpass]
    cases e₁ with
    | disconnect =>
      obtain ⟨-, -, heq⟩ := ok_of_map hrest
      exact absurd (congrArg Prod.fst heq).symm he
    | again | returned => exact hrest
  · rintro ⟨e, d', hpass, he, hcur, hpos⟩
    obtain ⟨s', hstep, ⟨g', hrep'⟩, hlive, hdec⟩ := step_recv_self hquiet hrep hget hpass he
    obtain ⟨c', hget'⟩ := Option.isSome_iff_exists.mp hlive
    exact ⟨s', c', hstep, hget', hrep'.clean hget' (by rw [hdec]; exact hcur) (by rw [hdec]; exact hpos)⟩

namespace Dec

variable {d d₁ d' : Dec} {r : ReadResult} {xs : Bytes}

/-- A pass that returns had room for the current item. -/
theorem room_of_pass {y : PassEnd × Dec} (h : d.pass r = .ok y) :
    ∀ dc, d.cur = some dc → dc.items.length < cmdArgsMax := by
  intro dc hcur
  by_contra hfull
  unfold pass at h
  simp only [hcur, ge_iff_le, Nat.le_of_not_lt hfull, if_true] at h
  cases h

/-- Where the decoder rejects what is read into the buffer, its pass ends
    with `reject`. -/
theorem pass_rejected (hinto : d.intoBuffer = true)
    (hroom : ∀ dc, d.cur = some dc → dc.items.length < cmdArgsMax)
    (hr : r.bound (clientRecvCmdLength - d.pos) = .data xs)
    (hcheck : (d.read xs).check (d.pos + xs.length) = .ok (-1, d₁)) :
    d.pass r = d₁.reject.bind fun d => .ok (.again, d) := by
  have hheader : d.recvHeader r = d₁.reject.bind fun d => .ok (.again, d) := by
    rw [recvHeader_data hr, hcheck]
    rfl
  unfold pass
  rcases hcur : d.cur with _ | dc
  · exact hheader
  · have hnone : dc.part = none := by
      unfold intoBuffer at hinto
      rw [hcur] at hinto
      simpa using hinto
    simp only [hnone, ge_iff_le, Nat.not_le.mpr (hroom dc hcur), if_false]
    exact hheader

/-- An open command with all of its 512 arguments received is stuck. -/
theorem room_of_moves {total : Nat} {p : Point} {dc dc' : DecCmd} (hopen : d.Open)
    (h : Moves total (0, d) p) (hcur : d.cur = some dc) (hcur' : p.2.cur = some dc')
    (hcount : dc'.argc ≤ cmdArgsMax) : dc.items.length < cmdArgsMax := by
  have hmore := hopen dc hcur
  rcases h.cases_head with rfl | ⟨q, hmove, -⟩
  · cases hcur.symm.trans hcur'
    omega
  · cases hmove with
    | header hnone => cases hcur.symm.trans hnone
    | item hcur₁ _ hlt =>
      cases hcur.symm.trans hcur₁
      exact hlt
    | complete hcur₁ hfull =>
      cases hcur.symm.trans hcur₁
      omega

/-- **A rejection**, of a decoder: its pass resets it exactly when the scan
    comes to no header with the count 0, and not to a bad item of a command
    announced with more than 512 arguments. -/
theorem pass_clean_iff (hopen : d.Open) (hinto : d.intoBuffer = true)
    (hr : r.bound (clientRecvCmdLength - d.pos) = .data xs)
    (hcheck : (d.read xs).check (d.pos + xs.length) = .ok (-1, d₁)) :
    (∃ e d', d.pass r = .ok (e, d') ∧ e ≠ .disconnect ∧ d'.cur = none ∧ d'.pos = 0) ↔
    ∀ p, Moves (d.pos + xs.length) (0, d.read xs) p → ¬ ZeroHeader (d.pos + xs.length) p ∧
      (BadItem (d.pos + xs.length) p → ∀ dc, p.2.cur = some dc → dc.argc ≤ cmdArgsMax) := by
  obtain ⟨htotal0, htotal⟩ := recvHeader_total hr
  have hopen' : (d.read xs).Open := hopen
  obtain ⟨p, hmoves, hstop⟩ : ∃ p, Moves (d.pos + xs.length) (0, d.read xs) p ∧
      Stop (d.pos + xs.length) p (-1) d₁ := by
    have hout := check_outcome htotal0 htotal hopen'
    rw [hcheck] at hout
    cases hout with
    | stop hmoves hstop => exact ⟨_, hmoves, hstop⟩
  rcases hstop.rejected with ⟨hzero, hcur₁, hpos₁⟩ | ⟨hbad, rfl⟩
  · -- a header with the count 0: the position stays behind it
    constructor
    · rintro ⟨e, d', hpass, -, -, hpos⟩
      rw [pass_rejected hinto (room_of_pass hpass) hr hcheck] at hpass
      unfold reject at hpass
      simp only [hcur₁, Except.bind, Except.ok.injEq, Prod.mk.injEq] at hpass
      rw [← hpass.2, hpos₁, hmoves.pos] at hpos
      simp only [read] at hpos
      omega
    · intro hscan
      exact absurd hzero (hscan p hmoves).1
  · -- an item that is none: no other point of the scan is stuck
    obtain ⟨dc, hcur, -⟩ := id hbad
    have hend : ∀ q, Moves (d.pos + xs.length) (0, d.read xs) q →
        (∀ t, ¬ Move (d.pos + xs.length) q t) → q = p :=
      fun q hm hstuck => hm.end_unique hmoves hstuck fun _ => hbad.no_move
    have hreject : p.2.reject = if dc.argc ≤ cmdArgsMax then .ok { p.2 with cur := none, pos := 0 }
        else .error (.cmdIndex cmdArgsMax) := by
      unfold reject
      simp only [hcur, freeable]
      split <;> rfl
    constructor
    · rintro ⟨e, d', hpass, -⟩
      rw [pass_rejected hinto (room_of_pass hpass) hr hcheck, hreject] at hpass
      intro q hmoves'
      refine ⟨fun hzero => ?_, fun hbad' dc' hcur' => ?_⟩
      · rw [← hend q hmoves' (fun _ => hzero.no_move), hzero.1] at hcur
        cases hcur
      · rw [hend q hmoves' (fun _ => hbad'.no_move), hcur, Option.some.injEq] at hcur'
        subst hcur'
        by_contra hmany
        rw [if_neg hmany] at hpass
        cases hpass
    · intro hscan
      have hcount := (hscan p hmoves).2 hbad dc hcur
      have hroom := fun dc₀ (hcur₀ : d.cur = some dc₀) => room_of_moves hopen' hmoves hcur₀ hcur hcount
      refine ⟨.again, { p.2 with cur := none, pos := 0 }, ?_, by simp, rfl, rfl⟩
      rw [pass_rejected hinto hroom hr hcheck, hreject, if_pos hcount]
      rfl

end Dec

/-- **A rejection leaves a clean parser** exactly when the scan comes to no
    header with the count 0, and not to a bad item of a command announced
    with more than 512 arguments.  At such a header `_free_client_cur_cmd`
    finds no command and returns before it resets `recv_pos`; at such an
    item it goes on behind `value[511]`. -/
theorem rejection_leaves_clean_parser_iff (env : Env) (hquiet : env.Quiet) (es : List Event)
    (s : Server) (me : ClientId) (c : ClientStat) (xs : Bytes) (c₁ : Conn)
    (hreach : run (step env) initServer es = .ok s) (hget : s.clients.get me = some c)
    (hinto : (s.dec me).intoBuffer = true) (hne : xs ≠ [])
    (hle : xs.length ≤ clientRecvCmdLength - c.recvPos)
    (hcheck : checkCmdComplete2 env (Conn.readInto ⟨me, c, s.world⟩ xs) (c.recvPos + xs.length) =
      .ok (-1, c₁)) :
    (∃ s' c', step env s (.recv me (.data xs)) = .ok s' ∧ s'.clients.get me = some c' ∧ Clean c' ∧
      ∀ args, ValidRequest args → (encodeRequest args).length ≤ clientRecvCmdLength →
        AsOnNewConnection env s' me args) ↔
    ∀ p, Dec.Moves (c.recvPos + xs.length) (0, (s.dec me).read xs) p →
      ¬ Dec.ZeroHeader (c.recvPos + xs.length) p ∧
      (Dec.BadItem (c.recvPos + xs.length) p → ∀ dc, p.2.cur = some dc → dc.argc ≤ cmdArgsMax) := by
  obtain ⟨g, hrep⟩ := reachable_rep hreach
  obtain ⟨hconn, hopen⟩ := hrep.conn hget
  have hpos : c.recvPos = (s.dec me).pos := hconn.client.pos
  have hxs := List.length_pos_iff.mpr hne
  rw [hpos] at hle hcheck ⊢
  -- the decoder rejects as well
  have htotal : (s.dec me).pos + xs.length ≤ clientRecvCmdLength := by omega
  have hsim := check_sim hconn hopen htotal
  rw [hpos, hcheck] at hsim
  obtain ⟨⟨code, d₁⟩, hcheck', hcode, -⟩ := hsim.ok_left
  obtain rfl : -1 = code := hcode
  rw [← Dec.pass_clean_iff hopen hinto (bound_of_le hne hle) hcheck', ← step_clean_iff hquiet hrep hget]
  constructor
  · rintro ⟨s', c', hstep, hget', hclean, -⟩
    exact ⟨s', c', hstep, hget', hclean⟩
  · rintro ⟨s', c', hstep, hget', hclean⟩
    obtain ⟨g', hrep'⟩ := run_rep hrep ((run_cons_ok hstep).trans (run_nil s'))
    exact ⟨s', c', hstep, hget', hclean,
      fun args hvalid hfit => clean_asOnNewConnection hquiet hrep' hget' hclean hvalid hfit⟩

/-- `"*600\r\n$1\r\nA\r\nX"`: the cleanup runs out of `value`. -/
example : (run (step plainEnv) initServer [.connect 5 true, .recv 0 (.data
    [42, 54, 48, 48, 13, 10, 36, 49, 13, 10, 65, 13, 10, 88])]).map (fun _ => ()) =
    .error (.cmdIndex 512) := by decide +kernel

/-- `"*1\r\nX"`: an item without its mark. -/
theorem rejection_leaves_clean_parser_iff_item :
    ∃ s c c₁, run (step plainEnv) initServer [.connect 5 true] = .ok s ∧
      s.clients.get 0 = some c ∧
      checkCmdComplete2 plainEnv (Conn.readInto ⟨0, c, s.world⟩ [42, 49, 13, 10, 88]) 5 =
        .ok (-1, c₁) ∧
      ∀ p, Dec.Moves 5 (0, (s.dec 0).read [42, 49, 13, 10, 88]) p → ¬ Dec.ZeroHeader 5 p ∧
        (Dec.BadItem 5 p → ∀ dc, p.2.cur = some dc → dc.argc ≤ cmdArgsMax) := by
  have hquiet : plainEnv.Quiet := Env.quiet_of_kept fun _ _ => rfl
  obtain ⟨s, hs, hinit⟩ := ok_of_map (show (run (step plainEnv) initServer [.connect 5 true]).map
      (fun s => (s.clients.get 0).map fun c => (c.recvPos, (s.dec 0).intoBuffer)) =
      .ok (some (0, true)) by decide +kernel)
  obtain ⟨s', hs', hend⟩ := ok_of_map (show ((run (step plainEnv) initServer [.connect 5 true]).bind
      fun s => step plainEnv s (.recv 0 (.data [42, 49, 13, 10, 88]))).map
      (fun s => (s.clients.get 0).map fun c =>
        (c.curCmdItem, c.recvCmdQueueHead, c.recvCmdQueueTail, c.recvPos)) =
      .ok (some (none, none, none, 0)) by decide +kernel)
  obtain ⟨⟨code, c₁⟩, hcheck, hcode⟩ := ok_of_map (show ((run (step plainEnv) initServer
      [.connect 5 true]).bind fun s => (s.clients.get 0).elim (.error .nullDeref) fun c =>
        checkCmdComplete2 plainEnv (Conn.readInto ⟨0, c, s.world⟩ [42, 49, 13, 10, 88]) 5).map
      Prod.fst = .ok (-1) by decide +kernel)
  obtain ⟨c, hget, hc⟩ := Option.map_eq_some_iff.mp hinit
  obtain ⟨c', hget', hc'⟩ := Option.map_eq_some_iff.mp hend
  obtain ⟨hpos, hinto⟩ := Prod.mk.inj hc
  obtain ⟨h1, h2, h3, h4⟩ : c'.curCmdItem = none ∧ c'.recvCmdQueueHead = none ∧
      c'.recvCmdQueueTail = none ∧ c'.recvPos = 0 := by simpa using hc'
  obtain rfl : code = -1 := hcode
  rw [hs] at hs' hcheck
  simp only [Except.bind, hget, Option.elim_some] at hs' hcheck
  refine ⟨s, c, c₁, hs, hget, hcheck, ?_⟩
  -- the parser is clean, so the scan came to neither of the two
  have hiff := rejection_leaves_clean_parser_iff plainEnv hquiet [.connect 5 true] s 0 c
    [42, 49, 13, 10, 88] c₁ hs hget hinto (by decide) (by rw [hpos]; decide) (by rw [hpos]; exact hcheck)
  rw [hpos] at hiff
  obtain ⟨g', hrep'⟩ := reachable_rep ((run_append_ok [_] hs).trans ((run_cons_ok hs').trans (run_nil s')))
  have hclean : Clean c' := ⟨h1, h2, h3, h4⟩
  exact hiff.mp ⟨s', c', hs', hget', hclean, fun args hvalid hfit =>
    clean_asOnNewConnection hquiet hrep' hget' hclean hvalid hfit⟩

/-- After `"*0\r\n"` the position stays behind it, and the next request is
    not executed. -/
theorem zero_header_blocks_next_request :
    ∃ s s', run (step plainEnv) initServer
        [.connect 5 true, .recv 0 (.data [42, 48, 13, 10])] = .ok s ∧
      (s.clients.get 0).map (fun c => (c.curCmdItem, c.recvPos)) = some (none, 4) ∧
      step plainEnv s (.recv 0 (.data (encodeRequest [[65]]))) = .ok s' ∧
      handedBy 0 s'.world.trace = [] := by
  obtain ⟨s, hs, hpos⟩ := ok_of_map (show (run (step plainEnv) initServer
      [.connect 5 true, .recv 0 (.data [42, 48, 13, 10])]).map
      (fun s => (s.clients.get 0).map fun c => (c.curCmdItem, c.recvPos)) =
      .ok (some (none, 4)) by decide +kernel)
  obtain ⟨s', hs', hhanded⟩ := ok_of_map (show ((run (step plainEnv) initServer
      [.connect 5 true, .recv 0 (.data [42, 48, 13, 10])]).bind fun s =>
      step plainEnv s (.recv 0 (.data (encodeRequest [[65]])))).map
      (fun s => handedBy 0 s.world.trace) = .ok [] by decide +kernel)
  rw [hs] at hs'
  exact ⟨s, s', hs, hpos, hs', hhanded⟩

end BoAtom
