import BoAtom.Mem.Answers
import BoAtom.Mem.Framing

/-! # The answers as messages

    When all clients send well-formed requests, every stored value is the
    encoding of one item, and the answer found under a key is a message of
    its own.  The answer to a SET is one as well.  The error answer is not:
    it has an `'S'` where the mark of an item should be. -/

namespace BoAtom

open CString Machine

/-! ## Section 1: Messages -/

/-- `'*'`, a count, and so many items. -/
def IsMessage (bs : Bytes) : Prop := ∃ args, bs = encodeRequest args

theorem isMessage_setOkStr : IsMessage setOkStr := ⟨[[79, 75]], by decide +kernel⟩

theorem isMessage_value (a : Bytes) : IsMessage (num1 ++ encodeItem a) := by
  refine ⟨[a], ?_⟩
  have hone : decimal [a].length = [49] := by
    rw [List.length_singleton]
    decide +kernel
  rw [encodeRequest, hone]
  simp [num1, star, CR, LF]

/-- Behind its first line, a message is over or goes on with `'$'`. -/
theorem not_isMessage_setErrStr : ¬ IsMessage setErrStr := by
  rintro ⟨args, heq⟩
  have hline := strstrCrlf_line (nul_not_mem_markLine (show star ≠ 0 by decide) args.length)
    (cr_not_mem_markLine (by decide) args.length) (args.map encodeItem).flatten
  rw [← encodeRequest_line, ← heq] at hline
  have hlen : (markLine star args.length).length = 2 := by
    have hfound : strstrCrlf setErrStr = some 2 := by decide +kernel
    rw [hfound, Option.some.injEq] at hline
    exact hline.symm
  have hrest : setErrStr.drop 4 = (args.map encodeItem).flatten := by
    have hdrop := congrArg (List.drop 4) heq
    rw [hdrop, encodeRequest_line, List.drop_append, hlen, List.drop_of_length_le (by omega)]
    rfl
  rcases args with _ | ⟨a, args⟩
  · exact absurd hrest (by decide)
  · have hhead := congrArg List.head? hrest
    simp only [List.map_cons, List.flatten_cons, encodeItem, List.cons_append, List.head?_cons] at hhead
    exact absurd hhead (by decide)

/-! ## Section 2: All clients send requests -/

/-- What a read of `me` returns continues the encoding of `reqs`, and is not
    harmed by the bytes behind the received ones. -/
def SendsRequests (me : ClientId) (reqs : List (List Bytes)) (s : Server) : Event → Prop
  | .recv i r => i = me → ∀ xs, r.bound (s.dec me).asked = .data xs →
      receivedBy me s.world.trace ++ xs <+: encode reqs ∧
      (s.dec me).Harmless ((encode reqs).drop (receivedBy me s.world.trace ++ xs).length) xs
  | _ => True

namespace Dec

variable {base : List (List Bytes)} {later : Bytes} {d d' : Dec} {r : ReadResult} {p : PassEnd}

/-- Where the decoder stands in the encoding of `reqs`. -/
structure Serves (reqs : List (List Bytes)) (d : Dec) : Prop where
  between : Between (encodedItems reqs) ((encode reqs).drop d.got.length) d
  got : d.got <+: encode reqs

theorem serves_fresh {reqs : List (List Bytes)} (hvalid : ∀ args ∈ reqs, ValidRequest args) :
    fresh.Serves reqs :=
  ⟨between_fresh hvalid, List.nil_prefix⟩

theorem Serves.handed {reqs : List (List Bytes)} (h : d.Serves reqs) :
    d.handed <+: encodedItems reqs := by
  cases h.between with
  | line hbase _ _ _ => exact ⟨_, hbase⟩
  | payload hbase _ _ _ _ _ => exact ⟨_, hbase⟩

/-- A pass that reads nothing changes nothing. -/
theorem pass_idle (hr : ∀ xs, r.bound d.asked ≠ .data xs) (hpass : d.pass r = .ok (p, d')) :
    d' = d := by
  -- both readers leave the decoder alone unless bytes came
  have hheader : d.cur.bind DecCmd.part = none → d.recvHeader r = .ok (p, d') → d' = d := by
    intro hnone hok
    unfold asked at hr
    rw [hnone] at hr
    unfold Dec.recvHeader at hok
    rcases hb : r.bound (clientRecvCmdLength - d.pos) with xs | _ | _ | _
    · exact absurd hb (hr xs)
    all_goals
      rw [hb, Except.ok.injEq] at hok
      exact (Prod.mk.inj hok).2.symm
  unfold Dec.pass at hpass
  rcases hcur : d.cur with _ | dc
  · rw [hcur] at hpass
    exact hheader (by rw [hcur]; rfl) hpass
  simp only [hcur] at hpass
  by_cases hfull : dc.items.length ≥ cmdArgsMax
  · rw [if_pos hfull] at hpass
    simp at hpass
  rw [if_neg hfull] at hpass
  rcases hpart : dc.part with _ | ⟨n, bs⟩
  · rw [hpart] at hpass
    exact hheader (by rw [hcur]; exact hpart) hpass
  · have hasked : d.asked = n - bs.length := by
      unfold asked
      rw [hcur, Option.bind_some, hpart]
    rw [hasked] at hr
    simp only [hpart, Dec.recvItem] at hpass
    rcases hb : r.bound (n - bs.length) with xs | _ | _ | _
    · exact absurd hb (hr xs)
    all_goals
      rw [hb, Except.ok.injEq] at hpass
      exact (Prod.mk.inj hpass).2.symm

/-- **A step of a client that sends requests.** -/
theorem Serves.step {reqs : List (List Bytes)} (h : d.Serves reqs)
    (hread : ∀ xs, r.bound d.asked = .data xs → d.got ++ xs <+: encode reqs ∧
      d.Harmless ((encode reqs).drop (d.got ++ xs).length) xs)
    (hstep : d.step r = .ok (p, d')) : d'.Serves reqs := by
  unfold Dec.step at hstep
  by_cases hdata : ∃ xs, r.bound d.asked = .data xs
  · obtain ⟨xs, hr⟩ := hdata
    obtain ⟨hbegins, hharm⟩ := hread xs hr
    have hbetween := h.between
    rw [drop_of_sent hbegins] at hbetween
    obtain ⟨d₁, hpass, hbetween₁, hgot⟩ := hbetween.pass hr hharm
    rw [hpass] at hstep
    simp only [Except.bind, Except.ok.injEq, Prod.mk.injEq] at hstep
    rw [← hstep.2]
    exact ⟨by rw [hgot]; exact hbetween₁, by rw [hgot]; exact hbegins⟩
  · rcases hpass : d.pass r with f | ⟨q, d₁⟩
    · rw [hpass] at hstep
      simp [Except.bind] at hstep
    have hsame : d₁ = d := pass_idle (fun xs hr => hdata ⟨xs, hr⟩) hpass
    rw [hpass, hsame] at hstep
    simp only [Except.bind] at hstep
    cases q with
    | disconnect =>
      obtain ⟨-, -, hpair⟩ := ok_of_map hstep
      exact (Prod.mk.inj hpair).2 ▸ h
    | again | returned =>
      rw [Except.ok.injEq] at hstep
      exact (Prod.mk.inj hstep).2 ▸ h

end Dec

/-! ## Section 3: The store -/

variable {env : Env} {s : Server} {es : List Event} {trace before : List Happened} {key value : Bytes}

/-- Everything executed was sent as a request. -/
theorem executed_encoded {reqs : ClientId → List (List Bytes)}
    (hvalid : ∀ me, ∀ args ∈ reqs me, ValidRequest args)
    (halong : Along (step env) (fun s e => ∀ me, SendsRequests me (reqs me) s e) initServer es)
    (hrun : run (step env) initServer es = .ok s) {me : ClientId} {e : Execution}
    (hmem : .executed me e ∈ s.world.trace) : ∃ args ∈ reqs me, e.items = args.map encodeItem := by
  have hlog : ∀ d : Dec, d.Serves (reqs me) → d.handed <+: Dec.encodedItems (reqs me) :=
    fun d h => h.handed
  have hfresh := Dec.serves_fresh (hvalid me)
  have hguarded : Guarded env me (Dec.Serves (reqs me))
      (fun _ handed => handed <+: Dec.encodedItems (reqs me)) s := by
    apply along_invariant _ (guarded_init me hlog hfresh) halong hrun
    intro s e s' hs hsends hstep
    apply hs.step hlog hfresh _ hstep
    rintro r p d' rfl - hserves hdec
    apply hserves.step _ hdec
    intro xs hr
    rw [Server.dec_got]
    exact hsends me rfl xs hr
  have hhanded := hguarded.log
  rw [Server.dec_handed] at hhanded
  have hin : e.items ∈ handedBy me s.world.trace :=
    List.mem_filterMap.mpr ⟨_, hmem, by simp⟩
  obtain ⟨args, hargs, heq⟩ := List.mem_map.mp (hhanded.subset hin)
  exact ⟨args, hargs, heq.symm⟩

theorem mem_of_request_set {items : List Bytes} (h : request items = .set key value) :
    value ∈ items := by
  unfold request at h
  split at h
  · simp at h
  · next name args =>
    split at h
    · split at h
      · next k v =>
        cases h
        simp
      · simp at h
    · split at h
      · split at h <;> simp at h
      · simp at h

/-- A stored value is an item of an executed SET. -/
theorem mem_of_lastSet (h : lastSet key trace = some value) :
    ∃ me e, .executed me e ∈ trace ∧ value ∈ e.items := by
  unfold lastSet at h
  obtain ⟨x, hx, hvalue⟩ := List.mem_filterMap.mp (List.mem_of_getLast? h)
  cases x with
  | executed me e =>
    refine ⟨me, e, hx, ?_⟩
    apply mem_of_request_set
    simp only [Happened.setValue] at hvalue
    split at hvalue
    · next k v hreq =>
      split at hvalue
      · next hk => rw [hreq, hk, Option.some.inj hvalue]
      · simp at hvalue
    · simp at hvalue
  | received _ _ | inserted _ _ _ | dropped _ _ _ | wrote _ _ | finished _ | closed _ =>
    simp [Happened.setValue] at hvalue

/-! ## Section 4: Which answers are messages -/

/-- The request gets no error answer. -/
def Answerable (before : List Happened) : Request → Prop
  | .set _ _ | .unknown => True
  | .get key => lastSet key before ≠ none
  | .wrongArity _ => False

theorem mem_appendedBy {me : ClientId} {res : List Bytes} :
    res ∈ appendedBy me trace ↔ ∃ e, .executed me e ∈ trace ∧ e.res = some res := by
  unfold appendedBy
  rw [List.mem_filterMap]
  constructor
  · rintro ⟨x, hx, hres⟩
    cases x with
    | executed i e =>
      by_cases hi : i = me
      · simp only [if_pos hi] at hres
        exact ⟨e, hi ▸ hx, hres⟩
      · simp [hi] at hres
    | received _ _ | inserted _ _ _ | dropped _ _ _ | wrote _ _ | finished _ | closed _ => simp at hres
  · rintro ⟨e, hx, hres⟩
    exact ⟨_, hx, by simp [hres]⟩

/-- **Answers are messages**, when all clients send well-formed requests and
    no read is harmed: all of them are if and only if no request has the
    wrong number of items or asks for a key that was not SET. -/
theorem answers_are_messages_iff (env : Env) (es : List Event) (s : Server)
    (reqs : ClientId → List (List Bytes)) (hvalid : ∀ me, ∀ args ∈ reqs me, ValidRequest args)
    (halong : Along (step env) (fun s e => ∀ me, SendsRequests me (reqs me) s e) initServer es)
    (hrun : run (step env) initServer es = .ok s) :
    (∀ me, ∀ res ∈ appendedBy me s.world.trace, IsMessage res.flatten) ↔
    ∀ before me e later, s.world.trace = before ++ .executed me e :: later →
      Answerable before (request e.items) := by
  obtain ⟨g, hrep⟩ := reachable_rep hrun
  have hconsistent := hrep.world.consistent
  have hencoded : ∀ me e, .executed me e ∈ s.world.trace → ∃ args ∈ reqs me,
      e.items = args.map encodeItem := fun me e hmem => executed_encoded hvalid halong hrun hmem
  constructor
  · intro hmessages before me e later hsplit
    have hmem : .executed me e ∈ s.world.trace := by rw [hsplit]; simp
    obtain ⟨hres, -⟩ := hconsistent before me e later hsplit
    -- an error answer would be no message
    have herror : e.res ≠ some [setErrStr] := by
      intro hbad
      have hmessage := hmessages me _ (mem_appendedBy.mpr ⟨e, hmem, hbad⟩)
      rw [List.flatten_singleton] at hmessage
      exact not_isMessage_setErrStr hmessage
    rcases hreq : request e.items with ⟨key, value⟩ | key | handler | _
    · trivial
    · rw [hreq] at hres
      intro hnone
      rw [← ledger_store] at hnone
      simp only [Request.answer, hnone] at hres
      exact herror hres
    · rw [hreq] at hres
      exact herror hres
    · trivial
  · intro hanswerable me res hres
    obtain ⟨e, hmem, hsome⟩ := mem_appendedBy.mp hres
    obtain ⟨before, later, hsplit⟩ := List.append_of_mem hmem
    obtain ⟨hanswer, -⟩ := hconsistent before me e later hsplit
    have hask := hanswerable before me e later hsplit
    rw [hsome] at hanswer
    rcases hreq : request e.items with ⟨key, value⟩ | key | handler | _ <;> rw [hreq] at hanswer hask
    · simp only [Request.answer, Option.some.injEq] at hanswer
      rw [hanswer, List.flatten_singleton]
      exact isMessage_setOkStr
    · rcases hset : lastSet key before with _ | value
      · exact absurd hset hask
      · simp only [Request.answer, ledger_store, hset, Option.some.injEq] at hanswer
        obtain ⟨i, e', hmem', hin⟩ := mem_of_lastSet hset
        obtain ⟨args, -, hitems⟩ := hencoded i e' (by rw [hsplit]; exact List.mem_append_left _ hmem')
        rw [hitems] at hin
        obtain ⟨a, -, rfl⟩ := List.mem_map.mp hin
        rw [hanswer]
        have hmessage := isMessage_value a
        simpa using hmessage
    · exact absurd hask id
    · simp [Request.answer] at hanswer

/-- `SET k v` of one client. -/
def setOnly (me : ClientId) : List (List Bytes) := if me = 0 then [[[83, 69, 84], [107], [118]]] else []

/-- One read of all of `"*3\r\n$3\r\nSET\r\n$1\r\nk\r\n$1\r\nv\r\n"`. -/
theorem answers_are_messages_iff_set :
    ∃ s, run (step plainEnv) initServer [.connect 5 true, .recv 0 (.data (encode (setOnly 0)))] = .ok s ∧
      appendedBy 0 s.world.trace = [[setOkStr]] ∧
      ((∀ me, ∀ res ∈ appendedBy me s.world.trace, IsMessage res.flatten) ↔
        ∀ before me e later, s.world.trace = before ++ .executed me e :: later →
          Answerable before (request e.items)) := by
  obtain ⟨s, hs, happended⟩ := ok_of_map (show (run (step plainEnv) initServer
      [.connect 5 true, .recv 0 (.data (encode (setOnly 0)))]).map
      (fun s => appendedBy 0 s.world.trace) = .ok [[setOkStr]] by decide +kernel)
  have hvalid : ∀ me, ∀ args ∈ setOnly me, ValidRequest args := by
    intro me args hargs
    unfold setOnly at hargs
    split at hargs
    · rw [List.mem_singleton.mp hargs]
      exact ⟨by simp, by decide, by decide⟩
    · simp at hargs
  have halong : Along (step plainEnv) (fun s e => ∀ me, SendsRequests me (setOnly me) s e) initServer
      [.connect 5 true, .recv 0 (.data (encode (setOnly 0)))] := by
    refine ⟨fun me => trivial, fun s₁ hs₁ => ⟨?_, fun _ _ => trivial⟩⟩
    rintro me rfl xs hxs
    have hfresh : s₁.dec 0 = .fresh := (accepted (run_nil initServer) hs₁).2
    have hbound : (ReadResult.data (encode (setOnly 0))).bound clientRecvCmdLength =
        .data (encode (setOnly 0)) := by decide +kernel
    rw [hfresh] at hxs
    cases hbound.symm.trans hxs
    have hgot : receivedBy 0 s₁.world.trace = [] := by rw [← Server.dec_got, hfresh]; rfl
    rw [hgot, List.nil_append, List.drop_length, hfresh]
    exact ⟨List.prefix_refl _, (Dec.between_fresh (hvalid 0)).harmless_last (by decide) (by decide)⟩
  exact ⟨s, hs, happended, answers_are_messages_iff plainEnv _ s setOnly hvalid halong hs⟩

/-- A GET of a key that was not SET is answered with
    `"*1\r\nS3\r\nERR\r\n"`, whose item has no mark. -/
theorem error_answer_is_no_message :
    ∃ s, run (step plainEnv) initServer
        [.connect 5 true, .recv 0 (.data (encodeRequest [[71, 69, 84], [107]]))] = .ok s ∧
      receivedBy 0 s.world.trace = encode [[[71, 69, 84], [107]]] ∧
      appendedBy 0 s.world.trace = [[setErrStr]] ∧ ¬ IsMessage [setErrStr].flatten := by
  obtain ⟨s, hs, hlog⟩ := ok_of_map (show (run (step plainEnv) initServer
      [.connect 5 true, .recv 0 (.data (encodeRequest [[71, 69, 84], [107]]))]).map
      (fun s => (receivedBy 0 s.world.trace, appendedBy 0 s.world.trace)) =
      .ok (encode [[[71, 69, 84], [107]]], [[setErrStr]]) by decide +kernel)
  obtain ⟨hgot, happended⟩ := Prod.mk.inj hlog
  refine ⟨s, hs, hgot, happended, ?_⟩
  rw [List.flatten_singleton]
  exact not_isMessage_setErrStr

end BoAtom
