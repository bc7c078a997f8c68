import BoAtom.Mem.Tracking
import BoAtom.Mem.Reach

/-! # recv_cmd_handle returns

    A pass of the callback that goes on has read at least one byte, so the
    passes over a finite socket content are finitely many; and in each of
    them the decoder's loops come to an end (`Turns`).  A full buffer is no
    exception: `read` is asked for nothing, returns 0, and the pass takes
    that for the end of the connection. -/

namespace BoAtom

open Machine Memory Loop

/-! ## Section 1: A pass that goes on -/

namespace Dec

variable {d d' : Dec} {r : ReadResult} {xs : Bytes}

theorem completeIfFull_got (h : d.completeIfFull = .ok d') : d'.got = d.got := by
  unfold completeIfFull at h
  rcases hcur : d.cur with _ | dc
  · simp [hcur] at h
  simp only [hcur] at h
  split at h
  · unfold complete at h
    split at h
    · cases h
    · cases h
      rfl
  · cases h
    rfl

theorem reject_got (h : d.reject = .ok d') : d'.got = d.got := by
  unfold reject at h
  rcases hcur : d.cur with _ | dc
  · simp only [hcur] at h
    cases h
    rfl
  · simp only [hcur] at h
    obtain ⟨_, -, hk⟩ := ok_of_bind h
    cases hk
    rfl

theorem check_got {total : Nat} {code : Int} (hpos : 0 < total)
    (htotal : total ≤ clientRecvCmdLength) (hopen : d.Open)
    (h : d.check total = .ok (code, d')) : d'.got = d.got := by
  have hout := check_outcome hpos htotal hopen
  rw [h] at hout
  cases hout with
  | stop hmoves hstop => exact moves_stop_got hmoves hstop

/-- What a pass read into the buffer is what was received. -/
theorem recvHeader_again (hopen : d.Open) (h : d.recvHeader r = .ok (.again, d')) :
    ∃ xs, r.bound (clientRecvCmdLength - d.pos) = .data xs ∧ d'.got = d.got ++ xs := by
  rcases hr : r.bound (clientRecvCmdLength - d.pos) with xs | _ | _ | _
  · refine ⟨xs, rfl, ?_⟩
    obtain ⟨hpos, htotal⟩ := recvHeader_total hr
    rw [recvHeader_data hr] at h
    obtain ⟨⟨code, d₁⟩, hcheck, hk⟩ := ok_of_bind h
    have hgot : d₁.got = d.got ++ xs := check_got (d := d.read xs) hpos htotal hopen hcheck
    obtain ⟨d₂, hd₂, hend⟩ := ok_of_bind hk
    cases hend
    rw [← hgot]
    split at hd₂
    · exact reject_got hd₂
    · cases hd₂
      rfl
  all_goals simp [recvHeader, hr] at h

theorem pass_again (hopen : d.Open) (h : d.pass r = .ok (.again, d')) :
    ∃ xs, r.bound d.asked = .data xs ∧ d'.got = d.got ++ xs := by
  unfold pass at h
  rcases hcur : d.cur with _ | dc
  · simp only [hcur] at h
    have hasked : d.asked = clientRecvCmdLength - d.pos := by simp [asked, hcur]
    rw [hasked]
    exact recvHeader_again hopen h
  simp only [hcur] at h
  by_cases hge : dc.items.length ≥ cmdArgsMax
  · rw [if_pos hge] at h
    cases h
  rw [if_neg hge] at h
  rcases hpart : dc.part with _ | ⟨n, bs⟩
  · simp only [hpart] at h
    have hasked : d.asked = clientRecvCmdLength - d.pos := by simp [asked, hcur, hpart]
    rw [hasked]
    exact recvHeader_again hopen h
  · simp only [hpart, recvItem] at h
    have hasked : d.asked = n - bs.length := by simp [asked, hcur, hpart]
    rw [hasked]
    rcases hr : r.bound (n - bs.length) with xs | _ | _ | _
    · simp only [hr] at h
      obtain ⟨d₁, hfull, hend⟩ := ok_of_bind h
      cases hend
      exact ⟨xs, rfl, completeIfFull_got hfull⟩
    all_goals simp [hr] at h

/-- **A pass goes on only after it has read something.** -/
theorem step_again (hopen : d.Open) (h : d.step r = .ok (.again, d')) :
    ∃ xs, r.bound d.asked = .data xs ∧ d'.got = d.got ++ xs := by
  apply pass_again hopen
  unfold step at h
  obtain ⟨⟨e, d₁⟩, hpass, hk⟩ := ok_of_bind h
  cases e with
  | disconnect =>
    obtain ⟨_, -, hend⟩ := ok_of_map hk
    cases hend
  | again | returned =>
    rw [hpass]
    exact hk

end Dec

theorem bound_prefix {r : ReadResult} {asked : Nat} {xs : Bytes} (h : r.bound asked = .data xs) :
    ∃ bs, r = .data bs ∧ xs <+: bs := by
  unfold ReadResult.bound at h
  rcases r with bs | _ | _ | _
  · simp only at h
    split at h
    · cases h
    · cases h
      exact ⟨bs, rfl, List.take_prefix _ _⟩
  all_goals cases h

variable {env : Env} {g : Ghost} {s s' : Server} {me : ClientId} {c : ClientStat}

/-- The same for the server: the bytes are in its log. -/
theorem recvStep_again (h : ServerRep env g s) (hget : s.clients.get me = some c) {r : ReadResult}
    (hstep : recvStep env s me r = .ok (.again, s')) :
    ∃ bs xs, r = .data bs ∧ xs ≠ [] ∧ xs <+: bs ∧
      receivedBy me s'.world.trace = receivedBy me s.world.trace ++ xs := by
  have hopen := (h.conn hget).2
  have hsim := recvStep_sim h hget r
  rw [hstep] at hsim
  obtain ⟨⟨e, d'⟩, hdec, he, hsettled⟩ := hsim.ok_left
  have he' : PassEnd.again = e := he
  subst he'
  obtain ⟨xs, hr, hgot⟩ := Dec.step_again hopen hdec
  obtain ⟨bs, hbs, hprefix⟩ := bound_prefix hr
  refine ⟨bs, xs, hbs, (bound_data hr).1, hprefix, ?_⟩
  rw [← Server.dec_got, hsettled.got, hgot, Server.dec_got]

/-- A pass ends, or faults with an index or on freed memory. -/
theorem recvStep_ends (h : ServerRep env g s) (hget : s.clients.get me = some c) (r : ReadResult) :
    Ends (RunFault env) (fun out => ∃ g', ServerRep env g' out.2) (recvStep env s me r) := by
  have hopen := (h.conn hget).2
  have hsim := recvStep_sim h hget r
  rcases hstep : recvStep env s me r with f | ⟨e, s'⟩
  · rw [hstep] at hsim
    rcases hsim.error_left with hown | hdec
    · exact Or.inl hown
    · have hends := Dec.step_ends hopen r
      rw [hdec] at hends
      exact Or.inr hends
  · rw [hstep] at hsim
    obtain ⟨y, -, -, hsettled⟩ := hsim.ok_left
    exact hsettled.rep

/-! ## Section 2: The callback on a socket -/

/-- What `read` returns once the content of a socket has been read. -/
inductive SocketEnd where
  | eagain
  | eof
  | error
  deriving DecidableEq, Repr

def SocketEnd.result : SocketEnd → ReadResult
  | .eagain => .eagain
  | .eof => .eof
  | .error => .error

/-- `recv_cmd_handle` on a socket with this content: `arrived k + 1` bytes of
    what is left are there at its `k`th read. -/
def recvFrom (env : Env) (me : ClientId) (fin : SocketEnd) :
    Nat → (Nat → Nat) → Bytes → Server → Except Fault (PassEnd × Server)
  | 0, _, _, _ => .error .diverge
  | fuel + 1, arrived, content, s => do
    let r := if content.isEmpty then fin.result else .data (content.take (arrived 0 + 1))
    let (e, s') ← recvStep env s me r
    match e with
    | .again =>
      let taken := (receivedBy me s'.world.trace).length - (receivedBy me s.world.trace).length
      recvFrom env me fin fuel (fun k => arrived (k + 1)) (content.drop taken) s'
    | e => .ok (e, s')

/-- **The passes come to an end**, by induction on what is left to read. -/
theorem recvFrom_ends (fin : SocketEnd) (fuel : Nat) (arrived : Nat → Nat) (content : Bytes)
    (h : ServerRep env g s) (hlive : (s.clients.get me).isSome) (hfuel : content.length < fuel) :
    Ends (RunFault env) (fun out => out.1 ≠ .again) (recvFrom env me fin fuel arrived content s) := by
  -- a pass that asks for another has taken a byte, so the content is a bound on the passes
  induction fuel generalizing arrived content s g with
  | zero => omega
  | succ fuel ih =>
    obtain ⟨c, hget⟩ := Option.isSome_iff_exists.mp hlive
    unfold recvFrom
    dsimp only
    generalize hr : (if content.isEmpty then fin.result
      else .data (content.take (arrived 0 + 1))) = r
    have hends := recvStep_ends h hget r
    rcases hstep : recvStep env s me r with f | ⟨e, s'⟩
    · rw [hstep] at hends
      simp only [bind, Except.bind]
      exact hends
    cases e with
    | returned => simp [bind, Except.bind, Ends]
    | disconnect => simp [bind, Except.bind, Ends]
    | again =>
      obtain ⟨bs, xs, hbs, hne, -, hgot⟩ := recvStep_again h hget hstep
      have hsim := recvStep_sim h hget r
      rw [hstep] at hsim
      obtain ⟨⟨e, d'⟩, -, he, hsettled⟩ := hsim.ok_left
      have he' : PassEnd.again = e := he
      subst he'
      obtain ⟨g', hrep'⟩ := hsettled.rep
      have hcontent : content ≠ [] := by
        rintro rfl
        rw [hbs] at hr
        cases fin <;> cases hr
      -- the model cuts off the content what the trace says was received
      have htaken : (receivedBy me s'.world.trace).length - (receivedBy me s.world.trace).length =
          xs.length := by
        rw [hgot, List.length_append]
        omega
      simp only [bind, Except.bind, htaken]
      apply ih _ _ hrep' (hsettled.stays (by simp)).1
      have hpos := List.length_pos_iff.mpr hne
      have hcpos := List.length_pos_iff.mpr hcontent
      rw [List.length_drop]
      omega

/-- `read` of zero bytes: the connection is given up. -/
theorem recvStep_full (h : ServerRep env g s) (hget : s.clients.get me = some c)
    (hfull : c.recvPos = clientRecvCmdLength) (hinto : (s.dec me).intoBuffer = true) (bs : Bytes) :
    Ends (RunFault env) (fun out => out.1 = .disconnect) (recvStep env s me (.data bs)) := by
  have hends := recvStep_ends h hget (.data bs)
  obtain ⟨hconn, hopen⟩ := h.conn hget
  have hpos : (s.dec me).pos = clientRecvCmdLength := by
    rw [← hfull]
    exact hconn.client.pos.symm
  -- no room is left, so `read` is asked for 0 bytes and its 0 is taken for the end
  have heof : (ReadResult.data bs).bound (clientRecvCmdLength - (s.dec me).pos) = .eof := by
    simp [ReadResult.bound, hpos]
  have hheader : (s.dec me).recvHeader (.data bs) = .ok (.disconnect, s.dec me) := by
    simp only [Dec.recvHeader, heof]
  have hpass : ∀ e d', (s.dec me).pass (.data bs) = .ok (e, d') → e = .disconnect := by
    intro e d' hpass
    unfold Dec.pass at hpass
    rcases hcur : (s.dec me).cur with _ | dc
    · simp only [hcur, hheader, Except.ok.injEq, Prod.mk.injEq] at hpass
      exact hpass.1.symm
    · simp only [hcur] at hpass
      split at hpass
      · cases hpass
      · have hpart : dc.part = none := by simpa [Dec.intoBuffer, hcur] using hinto
        simp only [hpart, hheader, Except.ok.injEq, Prod.mk.injEq] at hpass
        exact hpass.1.symm
  rcases hstep : recvStep env s me (.data bs) with f | ⟨e, s'⟩
  · rw [hstep] at hends
    exact hends
  · have hsim := recvStep_sim h hget (.data bs)
    rw [hstep] at hsim
    obtain ⟨⟨e', d'⟩, hdec, he, -⟩ := hsim.ok_left
    have he' : e = e' := he
    subst he'
    show e = .disconnect
    unfold Dec.step at hdec
    obtain ⟨⟨e₁, d₁⟩, hp, hk⟩ := ok_of_bind hdec
    obtain rfl := hpass _ _ hp
    obtain ⟨_, -, hend⟩ := ok_of_map hk
    cases hend
    rfl

/-! ## Section 3: The callback returns -/

/-- The decoder does not run for ever in a state the server can be in. -/
theorem check_returns {c : Conn} {d : Dec} {total : Nat} (hrep : ConnRep env g c d)
    (hopen : d.Open) (hpos : 0 < total) (htotal : total ≤ clientRecvCmdLength) :
    Ends (RunFault env) (fun _ => True) (checkCmdComplete2 env c total) := by
  have hsim : Simulates (OwnFault env) (CheckSim (Follows env g c)) (checkCmdComplete2 env c total)
      (d.check total) := checkLoop_sim htotal _ 0 hrep hopen
  have hends := Dec.check_ends hpos htotal hopen
  rcases hcheck : checkCmdComplete2 env c total with f | out
  · rw [hcheck] at hsim
    rcases hsim.error_left with hown | hdec
    · exact Or.inl hown
    · rw [hdec] at hends
      exact Or.inr hends
  · trivial

/-- **The receive callback returns**, in every reachable state and on every
    finite content; and so do the loops it runs in.  An abort counts as an
    end, whether at an index out of range or at a block freed twice, where
    `env` is not `Quiet`. -/
theorem receive_callback_returns (env : Env) (es : List Event) (s : Server) (me : ClientId)
    (c : ClientStat) (hreach : run (step env) initServer es = .ok s)
    (hget : s.clients.get me = some c) :
    (∀ (content : Bytes) (arrived : Nat → Nat) (fin : SocketEnd),
      Ends (RunFault env) (fun out => out.1 ≠ .again)
        (recvFrom env me fin (content.length + 1) arrived content s)) ∧
    (∀ r s', recvStep env s me r = .ok (.again, s') → ∃ bs xs, r = .data bs ∧ xs ≠ [] ∧ xs <+: bs ∧
      receivedBy me s'.world.trace = receivedBy me s.world.trace ++ xs) ∧
    (c.recvPos = clientRecvCmdLength → (s.dec me).intoBuffer = true → ∀ bs,
      Ends (RunFault env) (fun out => out.1 = .disconnect) (recvStep env s me (.data bs))) ∧
    ∀ (buf : RecvBuf) (total : Nat), 0 < total → total ≤ clientRecvCmdLength →
      Ends (RunFault env) (fun _ => True)
        (checkCmdComplete2 env ⟨me, { c with recvCmd := buf }, s.world⟩ total) ∧
      Comes (checkTurn env total) (0, ⟨me, { c with recvCmd := buf }, s.world⟩)
        (checkCmdComplete2 env ⟨me, { c with recvCmd := buf }, s.world⟩ total) ∧
      (∀ pre c', Comes (itemTurn total) (pre, c')
        (itemLoop total (clientRecvCmdLength + 1) pre c')) ∧
      (∀ p p', Goes (checkTurn env total) p p' → p.1 < p'.1) ∧
      ∀ p p', Goes (itemTurn total) p p' → p.1 < p'.1 := by
  obtain ⟨g, hrep⟩ := reachable_rep hreach
  have hlive : (s.clients.get me).isSome := by rw [hget]; rfl
  obtain ⟨hconn, hopen⟩ := hrep.conn hget
  refine ⟨?_, ?_, ?_, ?_⟩
  · intro content arrived fin
    exact recvFrom_ends fin _ arrived content hrep hlive (Nat.lt_succ_self _)
  · intro r s' hstep
    exact recvStep_again hrep hget hstep
  · intro hfull hinto bs
    exact recvStep_full hrep hget hfull hinto bs
  · intro buf total hpos htotal
    refine ⟨?_, ?_, ?_, ?_, ?_⟩
    · have hrebuf := hconn.rebuf buf c.recvPos
      exact check_returns hrebuf hopen hpos htotal
    · exact checkCmdComplete2_comes env htotal _
    · intro pre c'
      exact itemLoop_comes htotal pre c'
    · intro p p' hgoes
      exact (checkTurn_lt htotal hgoes).1
    · intro p p' hgoes
      exact (itemTurn_lt hgoes).1

/-- A client just accepted, and a GET in three pieces. -/
theorem receive_callback_returns_accepted :
    ∃ s c, run (step plainEnv) initServer [.connect 5 true] = .ok s ∧ s.clients.get 0 = some c ∧
      Ends (RunFault plainEnv) (fun out => out.1 ≠ .again)
        (recvFrom plainEnv 0 .eof (encodeRequest [[71, 69, 84], [107]]).length.succ (fun _ => 8)
          (encodeRequest [[71, 69, 84], [107]]) s) := by
  obtain ⟨s, hs, hlive⟩ := ok_of_map (show (run (step plainEnv) initServer [.connect 5 true]).map
      (fun s => (s.clients.get 0).isSome) = .ok true by decide +kernel)
  obtain ⟨c, hget⟩ := Option.isSome_iff_exists.mp hlive
  exact ⟨s, c, hs, hget, (receive_callback_returns plainEnv _ s 0 c hs hget).1 _ _ _⟩

end BoAtom
