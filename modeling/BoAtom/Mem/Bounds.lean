import BoAtom.Mem.Reach
import BoAtom.Mem.Tracking

/-! # Indices of a command

    Nothing checks the count of a header but that it is not 0.  When it
    lies between 1 and `CMD_ARGS_MAX`, every access to the arrays of a `Cmd`
    is in range, in every run; a negative count faults at once, and a
    larger one when the argument behind the last is reached or freed. -/

namespace BoAtom

open Machine

namespace Dec

variable {total : Nat} {d d' : Dec} {p p' : Point} {r : ReadResult} {e : PassEnd}

/-! ## Section 1: The decoder -/

/-- The current command has at most as many arguments as the arrays. -/
def InRange (d : Dec) : Prop := ∀ dc, d.cur = some dc → 0 ≤ dc.argc ∧ dc.argc ≤ cmdArgsMax

/-- A header accepted at a point has a count that the arrays can hold. -/
def CountOk (total : Nat) (p : Point) : Prop :=
  p.2.cur = none → p.1 < total → ∀ num stop, scanHeader p.2.buf total p.1 = .count num stop →
    0 < num ∧ num ≤ cmdArgsMax

/-- The same for all headers of a read. -/
def CountsOk (d : Dec) (r : ReadResult) : Prop :=
  d.intoBuffer = true → ∀ xs, r.bound (clientRecvCmdLength - d.pos) = .data xs →
    ∀ p, Moves (d.pos + xs.length) (0, d.read xs) p → CountOk (d.pos + xs.length) p

theorem InRange.move (h : p.2.InRange) (hok : CountOk total p) (hm : Move total p p') :
    p'.2.InRange := by
  cases hm with
  | header hcur hpre hscan =>
    intro dc hdc
    simp only [Option.some.injEq] at hdc
    subst hdc
    obtain ⟨hpos, hle⟩ := hok hcur hpre _ _ hscan
    exact ⟨hpos.le, hle⟩
  | item hcur hmore hlt hscan hfit =>
    intro dc hdc
    simp only [Option.some.injEq] at hdc
    subst hdc
    have hrange := h _ hcur
    exact hrange
  | complete hcur hfull hpos =>
    intro dc hdc
    simp at hdc

theorem InRange.moves (h : p.2.InRange) (hok : ∀ p', Moves total p p' → CountOk total p')
    (hm : Moves total p p') : p'.2.InRange := by
  induction hm with
  | refl => exact h
  | tail hm hmove ih => exact ih.move (hok _ hm) hmove

/-- The headers of well-formed requests are in range. -/
theorem Tracked.countOk {base : List (List Bytes)} {later : Bytes} (h : Tracked base later total p)
    (htotal : total ≤ clientRecvCmdLength) (hok : HitOk later total p) : CountOk total p := by
  obtain ⟨pre, d⟩ := p
  intro hcur hpre num stop hscan
  obtain ⟨args, reqs, hvalid, -, -, hstar, hbytes⟩ := h.header htotal hcur hpre
  rcases headerLine_scan htotal hok hcur hpre hvalid hstar hbytes with ⟨hpart, -⟩ | ⟨hcount, -⟩
  · rw [hscan] at hpart
    simp at hpart
  · rw [hscan, HeaderScan.count.injEq] at hcount
    have hpos := List.length_pos_iff.mpr hvalid.ne_nil
    have hle := hvalid.length_le
    rw [hcount.1]
    exact ⟨by exact_mod_cast hpos, by exact_mod_cast hle⟩

/-- Whole requests, read into an empty buffer. -/
theorem countsOk_encode {reqs : List (List Bytes)} (hvalid : ∀ args ∈ reqs, ValidRequest args)
    (hfit : (encode reqs).length ≤ clientRecvCmdLength) (hcur : d.cur = none) (hpos : d.pos = 0) :
    d.CountsOk (.data (encode reqs)) := by
  intro _ xs hxs p hm
  have hne : encode reqs ≠ [] := by
    intro hnil
    simp [ReadResult.bound, hnil] at hxs
  rw [hpos, Nat.sub_zero, bound_of_le hne hfit, ReadResult.data.injEq] at hxs
  subst hxs
  have htotal : d.pos + (encode reqs).length ≤ clientRecvCmdLength := by rwa [hpos, Nat.zero_add]
  have hahead : Ahead d.cur (d.buf.slice 0 d.pos ++ (encode reqs ++ [])) (encodedItems reqs) := by
    rw [hcur, hpos, List.append_nil]
    exact .idle hvalid
  have htracked := (tracked_start rfl hahead htotal).moves_last htotal hm
  exact htracked.countOk htotal (htracked.hitOk htotal)

theorem InRange.stop {code : Int} (h : p.2.InRange) (hs : Stop total p code d') : d'.InRange := by
  have hkeep : ∀ (d : Dec) (pre : Nat), d.InRange → (d.keepFrom total pre).InRange := by
    intro d pre hd
    unfold keepFrom
    split
    · exact hd
    · exact hd
  cases hs with
  | headerLine | itemLine => exact hkeep _ _ h
  | part hcur =>
    intro dc hdc
    simp only [Option.some.injEq] at hdc
    subst hdc
    have hrange := h _ hcur
    exact hrange
  | done | skipped | zero | empty | noDollar | short => exact h

/-- No index is out of range. -/
theorem InRange.not_faulty {f : Fault} (h : p.2.InRange) : ¬ Faulty total p f := by
  intro hf
  cases hf with
  | item hcur hmore hge hscan =>
    have := (h _ hcur).2
    omega
  | complete hcur hfull hneg =>
    have := (h _ hcur).1
    omega

theorem freeable_ok {dc : DecCmd} (h : dc.argc ≤ cmdArgsMax) : freeable dc = .ok () := if_pos h

theorem InRange.close (h : d.InRange) : d.close = .ok () := by
  unfold Dec.close
  rcases hcur : d.cur with _ | dc
  · rfl
  · exact freeable_ok (h dc hcur).2

theorem InRange.reject (h : d.InRange) : ∃ d', d.reject = .ok d' ∧ d'.InRange := by
  unfold Dec.reject
  rcases hcur : d.cur with _ | dc
  · exact ⟨d, rfl, h⟩
  · simp only [freeable_ok (h dc hcur).2, Except.bind]
    exact ⟨_, rfl, fun dc' hdc' => by simp at hdc'⟩

theorem InRange.completeIfFull (h : d.InRange) (hsome : d.cur.isSome) :
    ∃ d', d.completeIfFull = .ok d' ∧ d'.InRange := by
  obtain ⟨dc, hcur⟩ := Option.isSome_iff_exists.mp hsome
  simp only [Dec.completeIfFull, hcur, complete, if_neg (not_lt.mpr (h dc hcur).1)]
  split
  · exact ⟨_, rfl, fun dc' hdc' => by simp at hdc'⟩
  · exact ⟨d, rfl, h⟩

theorem InRange.recvHeader (h : d.InRange) (hopen : d.Open) (hinto : d.intoBuffer = true)
    (hok : d.CountsOk r) :
    ∃ e d', d.recvHeader r = .ok (e, d') ∧ d'.InRange := by
  rcases hr : r.bound (clientRecvCmdLength - d.pos) with xs | _ | _ | _
  · obtain ⟨hpos, htotal⟩ := recvHeader_total hr
    have hopen' : (d.read xs).Open := hopen
    have hstart : ((0, d.read xs) : Point).2.InRange := h
    have ho := check_outcome hpos htotal hopen'
    rw [recvHeader_data hr]
    generalize check (d.read xs) (d.pos + xs.length) = out at ho
    cases ho with
    | fault hmoves hfault => exact absurd hfault (hstart.moves (hok hinto xs hr) hmoves).not_faulty
    | @stop p' code d₁ hmoves hstop =>
      have hrange := (hstart.moves (hok hinto xs hr) hmoves).stop hstop
      by_cases hneg : code < 0
      · obtain ⟨d₂, hreject, hrange₂⟩ := hrange.reject
        exact ⟨.again, d₂, by simp [Except.bind, hneg, hreject], hrange₂⟩
      · exact ⟨.again, d₁, by simp [Except.bind, hneg], hrange⟩
  all_goals exact ⟨_, d, by rw [Dec.recvHeader, hr], h⟩

/-- **A step with the counts in range** ends, and keeps them there. -/
theorem InRange.step (h : d.InRange) (hopen : d.Open) (hok : d.CountsOk r) :
    ∃ e d', d.step r = .ok (e, d') ∧ d'.InRange := by
  have hpass : ∃ e d', d.pass r = .ok (e, d') ∧ d'.InRange := by
    unfold Dec.pass
    rcases hcur : d.cur with _ | dc
    · exact h.recvHeader hopen (by rw [intoBuffer, hcur]) hok
    obtain ⟨hnonneg, hle⟩ := h dc hcur
    have hroom : ¬ dc.items.length ≥ cmdArgsMax := by
      have := hopen dc hcur
      omega
    simp only [if_neg hroom]
    rcases hpart : dc.part with _ | ⟨n, bs⟩
    · exact h.recvHeader hopen (by rw [intoBuffer, hcur]; simp [hpart]) hok
    simp only [recvItem]
    rcases hr : r.bound (n - bs.length) with xs | _ | _ | _
    · have hargc : (dc.extend n bs xs).argc = dc.argc := by
        unfold DecCmd.extend
        split <;> rfl
      obtain ⟨d₁, hfull, hrange⟩ := InRange.completeIfFull (d := { d with
        pos := if bs.length + xs.length ≥ n then 0 else d.pos
        cur := some (dc.extend n bs xs), got := d.got ++ xs }) (fun dc' hdc' => by
          rw [← Option.some.inj hdc', hargc]
          exact ⟨hnonneg, hle⟩) rfl
      exact ⟨.again, d₁, by simp only [hfull, Except.bind], hrange⟩
    all_goals exact ⟨_, d, rfl, h⟩
  obtain ⟨e, d₁, hok₁, hrange⟩ := hpass
  unfold Dec.step
  rw [hok₁]
  cases e with
  | disconnect => exact ⟨.disconnect, d₁, by simp [Except.bind, hrange.close, Except.map], hrange⟩
  | again | returned => exact ⟨_, d₁, rfl, hrange⟩

end Dec

/-! ## Section 2: Runs -/

/-- The headers accepted in a read of a client have counts in range. -/
def ReadsCountsOk (s : Server) : Event → Prop
  | .recv me r => (s.clients.get me).isSome → (s.dec me).CountsOk r
  | _ => True

variable {env : Env} {s s' : Server} {e : Event}

/-- All current commands are in range. -/
def AllInRange (env : Env) (s : Server) : Prop :=
  ∀ me, Guarded env me Dec.InRange (fun _ _ => True) s

theorem AllInRange.step (h : AllInRange env s) (hok : ReadsCountsOk s e)
    (hstep : BoAtom.step env s e = .ok s') : AllInRange env s' := by
  intro me
  apply (h me).step (fun _ _ => trivial) (fun dc hdc => by simp [Dec.fresh] at hdc) _ hstep
  rintro r p d' rfl hlive hrange hdec
  obtain ⟨g, hrep⟩ := (h me).rep
  obtain ⟨c, hget⟩ := Option.isSome_iff_exists.mp hlive
  obtain ⟨p', d'', hdec', hrange'⟩ := hrange.step (hrep.conn hget).2 (hok hlive)
  cases hdec.symm.trans hdec'
  exact hrange'

/-- **One event.**  A fault is not an index out of range. -/
theorem AllInRange.no_index (h : AllInRange env s) (hok : ReadsCountsOk s e) {f : Fault}
    (hstep : BoAtom.step env s e = .error f) : OwnFault env f := by
  obtain ⟨g, hrep⟩ := (h 0).rep
  cases e with
  | connect fd nonBlock =>
    obtain ⟨s', hconn, -⟩ := step_connect hrep fd nonBlock
    cases hstep.symm.trans hconn
  | recv me r =>
    rcases hget : s.clients.get me with _ | c
    · cases hstep.symm.trans (step_recv_dead hget r)
    · have hlive : (s.clients.get me).isSome := by rw [hget]; rfl
      obtain ⟨p, d', hdec, -⟩ := ((h me).live hlive).step (hrep.conn hget).2 (hok hlive)
      have hsim := step_recv hrep hget r
      rw [hstep, hdec] at hsim
      exact hsim
  | send me r =>
    rcases hget : s.clients.get me with _ | c
    · cases hstep.symm.trans (step_send_dead hget r)
    · have hlive : (s.clients.get me).isSome := by rw [hget]; rfl
      have hends := step_send hrep hget r
      rw [hstep] at hends
      obtain ⟨-, hown | hclose⟩ := hends
      · exact hown
      · rw [((h me).live hlive).close] at hclose
        simp at hclose

/-- **Indices stay in range**, in every run in which every accepted header
    has a count between 1 and `CMD_ARGS_MAX`. -/
theorem indices_stay_in_range (env : Env) (es : List Event)
    (hcounts : Along (step env) ReadsCountsOk initServer es) (i : Int) :
    run (step env) initServer es ≠ .error (.cmdIndex i) := by
  intro hrun
  have hinit : AllInRange env initServer := fun me =>
    guarded_init me (fun _ _ => trivial) fun dc hdc => by simp [Dec.fresh] at hdc
  refine along_no_fault (I := AllInRange env) (P := ReadsCountsOk) (F := fun f => f = .cmdIndex i)
    (fun s e s' hs hok hstep => hs.step hok hstep) ?_ hinit hcounts hrun rfl
  rintro s e f hs hok hstep rfl
  have hown := hs.no_index hok hstep
  cases hown.1

/-- A `SET` and a `GET` in one read. -/
theorem indices_stay_in_range_requests :
    (run (step plainEnv) initServer [.connect 5 true, .recv 0 (.data (encode twoRequests))]).map
        (fun s => handedBy 0 s.world.trace) = .ok (twoRequests.map (List.map encodeItem)) ∧
      ∀ i, run (step plainEnv) initServer [.connect 5 true, .recv 0 (.data (encode twoRequests))] ≠
        .error (.cmdIndex i) := by
  refine ⟨by decide +kernel, ?_⟩
  apply indices_stay_in_range
  refine ⟨trivial, fun s hs => ⟨fun _ => ?_, fun _ _ => trivial⟩⟩
  have hfresh : s.dec 0 = .fresh := (accepted (run_nil initServer) hs).2
  rw [hfresh]
  exact Dec.countsOk_encode validRequest_twoRequests (by decide) rfl rfl

/-- `"*-1\r\n"`: `CmdComplete` looks at `item_pos[-2]`. -/
theorem negative_count_out_of_range :
    run (step plainEnv) initServer [.connect 5 true, .recv 0 (.data [42, 45, 49, 13, 10])] =
      .error (.cmdIndex (-2)) := by
  have hrun : (run (step plainEnv) initServer [.connect 5 true,
      .recv 0 (.data [42, 45, 49, 13, 10])]).map (fun _ => ()) = .error (.cmdIndex (-2)) := by
    decide +kernel
  rcases hs : run (step plainEnv) initServer [.connect 5 true,
      .recv 0 (.data [42, 45, 49, 13, 10])] with f | s
  · rw [hs] at hrun
    exact congrArg Except.error (Except.error.inj hrun)
  · rw [hs] at hrun
    simp [Except.map] at hrun

end BoAtom
