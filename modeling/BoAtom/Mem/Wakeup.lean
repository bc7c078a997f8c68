import BoAtom.Mem.Footprint
import BoAtom.Mem.Reach

/-! # Waking up to write

    A response in a queue is sent when the event loop calls
    `send_response_handle`.  The loop is told to at every place where a
    response may have been appended, and told not to once the queue is
    empty; over whole runs, no client with a response waits for nothing. -/

namespace BoAtom

open Memory Machine

abbrev Loop : Type := AeEventLoop FileProc ClientId

/-! ## Section 1: Registrations -/

/-- The descriptor is watched for reading, and its procedures and its data
    are those of the client. -/
structure Registered (loop : Loop) (me : ClientId) (fd : Nat) : Prop where
  inRange : fd < loop.setsize
  readable : (loop.events fd).mask.readable = true
  rfileProc : (loop.events fd).rfileProc = some .recvCmdHandle
  wfileProc : (loop.events fd).wfileProc = some .sendResponseHandle
  clientData : (loop.events fd).clientData = some me

/-- Writing is watched for, too. -/
def Armed (loop : Loop) (fd : Nat) : Prop := (loop.events fd).mask.writable = true

/-- Only the entry of `fd` differs. -/
structure OnlyAt (fd : Nat) (loop loop' : Loop) : Prop where
  setsize : loop'.setsize = loop.setsize
  other : ∀ fd', fd' ≠ fd → loop'.events fd' = loop.events fd'

variable {loop loop' loop'' : Loop} {me : ClientId} {fd fd' : Nat}

theorem OnlyAt.refl (fd : Nat) (loop : Loop) : OnlyAt fd loop loop := ⟨rfl, fun _ _ => rfl⟩

theorem OnlyAt.trans (h : OnlyAt fd loop loop') (h' : OnlyAt fd loop' loop'') : OnlyAt fd loop loop'' :=
  ⟨h'.setsize.trans h.setsize, fun i hi => (h'.other i hi).trans (h.other i hi)⟩

theorem Registered.other (h : Registered loop me fd') (honly : OnlyAt fd loop loop') (hne : fd' ≠ fd) :
    Registered loop' me fd' := by
  have hsame := honly.other fd' hne
  exact ⟨honly.setsize ▸ h.inRange, hsame ▸ h.readable, hsame ▸ h.rfileProc, hsame ▸ h.wfileProc,
    hsame ▸ h.clientData⟩

theorem Armed.other (h : Armed loop fd') (honly : OnlyAt fd loop loop') (hne : fd' ≠ fd) :
    Armed loop' fd' := by
  unfold Armed
  rw [honly.other fd' hne]
  exact h

theorem update_only (fd : Nat) (loop : Loop) (fe : AeFileEvent FileProc ClientId) :
    OnlyAt fd loop (loop.update fd fe) :=
  ⟨rfl, fun _ hi => if_neg hi⟩

@[simp] theorem update_self (loop : Loop) (fd : Nat) (fe : AeFileEvent FileProc ClientId) :
    (loop.update fd fe).events fd = fe := if_pos rfl

theorem aeCreateFileEvent_only (loop : Loop) (fd : Nat) (mask : AeMask) (proc : FileProc) (me : ClientId) :
    OnlyAt fd loop (aeCreateFileEvent loop fd mask proc me).2 := by
  unfold aeCreateFileEvent
  split
  · exact .refl fd loop
  · exact update_only fd loop _

theorem aeDeleteFileEvent_only (loop : Loop) (fd : Nat) (mask : AeMask) :
    OnlyAt fd loop (aeDeleteFileEvent loop fd mask) := by
  unfold aeDeleteFileEvent
  split
  · exact .refl fd loop
  · dsimp only
    split
    · exact .refl fd loop
    · exact update_only fd loop _

theorem aeCreateFileEvent_eq (mask : AeMask) (proc : FileProc) (me : ClientId) (h : fd < loop.setsize) :
    (aeCreateFileEvent loop fd mask proc me).2 = loop.update fd
      { mask := ⟨(loop.events fd).mask.readable || mask.readable, (loop.events fd).mask.writable || mask.writable⟩
        rfileProc := if mask.readable then some proc else (loop.events fd).rfileProc
        wfileProc := if mask.writable then some proc else (loop.events fd).wfileProc
        clientData := some me } := by
  unfold aeCreateFileEvent
  rw [if_neg (Nat.not_le_of_lt h)]

/-- Asking for the wake-up keeps the registration, and gets it. -/
theorem Registered.arm (h : Registered loop me fd) :
    let loop' := (aeCreateFileEvent loop fd aeWritable .sendResponseHandle me).2
    Registered loop' me fd ∧ Armed loop' fd := by
  dsimp only
  rw [aeCreateFileEvent_eq _ _ _ h.inRange]
  refine ⟨⟨h.inRange, ?_, ?_, ?_, ?_⟩, ?_⟩
  · simp [h.readable]
  · simp [aeWritable, h.rfileProc]
  · simp [aeWritable]
  · simp
  · simp [Armed, aeWritable]

/-- Giving it up keeps the registration for reading. -/
theorem Registered.disarm (h : Registered loop me fd) :
    Registered (aeDeleteFileEvent loop fd aeWritable) me fd := by
  have hmask : (loop.events fd).mask ≠ aeNone := by
    intro hnone
    have hread := h.readable
    rw [hnone] at hread
    exact absurd hread (by decide)
  unfold aeDeleteFileEvent
  rw [if_neg (Nat.not_le_of_lt h.inRange)]
  dsimp only
  rw [if_neg hmask]
  refine ⟨h.inRange, ?_, ?_, ?_, ?_⟩
  · simp [h.readable, aeWritable]
  · simp [h.rfileProc]
  · simp [h.wfileProc]
  · simp [h.clientData]

/-! ## Section 2: One client -/

/-- The client is registered, and will be woken up if a response waits. -/
structure Attended (c : Conn) : Prop where
  registered : Registered c.world.loop c.me c.client.fd
  armed : c.client.sendResponseQueue ≠ [] → Armed c.world.loop c.client.fd

/-- From `c` to `c'` the client stays attended, and no other descriptor is
    touched. -/
structure Awake (c c' : Conn) : Prop where
  me : c'.me = c.me
  fd : c'.client.fd = c.client.fd
  only : OnlyAt c.client.fd c.world.loop c'.world.loop
  attended : Attended c → Attended c'

variable {env : Env} {c c' c'' : Conn} {p : CmdPtr} {cmd : Cmd} {total pre : Nat}

theorem Awake.refl (c : Conn) : Awake c c := ⟨rfl, rfl, .refl _ _, id⟩

theorem Awake.trans (h : Awake c c') (h' : Awake c' c'') : Awake c c'' :=
  ⟨h'.me.trans h.me, h'.fd.trans h.fd, h.only.trans (h.fd ▸ h'.only), fun hc => h'.attended (h.attended hc)⟩

/-- Where neither the loop nor the queue of responses changes. -/
theorem awake_of_kept (hkept : LoopKept c c') (hfd : c'.client.fd = c.client.fd)
    (hqueue : c'.client.sendResponseQueue = c.client.sendResponseQueue) : Awake c c' := by
  refine ⟨hkept.me, hfd, ?_, ?_⟩
  · rw [hkept.loop]
    exact .refl _ _
  · intro hattended
    constructor
    · rw [hkept.me, hkept.loop, hfd]
      exact hattended.registered
    · rw [hkept.loop, hqueue, hfd]
      exact hattended.armed

theorem Awake.after (h : Awake c' c'') (hkept : LoopKept c c') (hfd : c'.client.fd = c.client.fd)
    (hqueue : c'.client.sendResponseQueue = c.client.sendResponseQueue) : Awake c c'' :=
  (awake_of_kept hkept hfd hqueue).trans h

/-- However the queue has grown, the client is attended once the wake-up has
    been asked for. -/
theorem registerWrite_awake (hkept : LoopKept c c') (hfd : c'.client.fd = c.client.fd) :
    Awake c (registerWrite c') := by
  have hregistered : Attended c → Registered c'.world.loop c'.me c'.client.fd := by
    intro hattended
    rw [hkept.me, hkept.loop, hfd]
    exact hattended.registered
  unfold registerWrite
  split
  · refine ⟨hkept.me, hfd, ?_, ?_⟩
    · rw [← hkept.loop, ← hfd]
      exact aeCreateFileEvent_only ..
    · intro hattended
      obtain ⟨hreg, harmed⟩ := (hregistered hattended).arm
      exact ⟨hreg, fun _ => harmed⟩
  · next hempty =>
    refine ⟨hkept.me, hfd, ?_, ?_⟩
    · rw [hkept.loop]
      exact .refl _ _
    · intro hattended
      refine ⟨hregistered hattended, ?_⟩
      intro hqueue
      exact absurd (List.length_pos_iff.mpr hqueue) hempty

/-- `ALL_cmd`, and then the check for responses. -/
theorem allCmd_awake (env : Env) (c : Conn) :
    Ends anyFault (fun c' => Awake c (registerWrite c')) (allCmd env c) := by
  have hspared := allCmd_spared env c
  rcases hout : allCmd env c with f | c'
  · trivial
  rw [hout] at hspared
  apply registerWrite_awake hspared.loopKept
  rw [allCmd_rest hout]
  rfl

/-! ## Section 3: The decoder -/

theorem cmdInsert_awake (c : Conn) (p : CmdPtr) : Ends anyFault (Awake c) (cmdInsert c p) := by
  apply (ends_any _).bind
  rintro ⟨p', cmd⟩ _ _
  dsimp only
  split
  · exact awake_of_kept ⟨rfl, rfl⟩ rfl rfl
  · apply (ends_any _).bind
    rintro ⟨t, last⟩ _ _
    apply (ends_any _).bind
    intro out _ _
    exact awake_of_kept ⟨rfl, rfl⟩ rfl rfl

/-- What holds of the state a part of the decoder ends in. -/
def Flow.All {α : Type} (P : α → Prop) : Flow α → Prop
  | .ret _ c => P c
  | .next _ c => P c

theorem headerStage_awake (env : Env) (total pre : Nat) (c : Conn) :
    Ends anyFault (Flow.All (Awake c)) (headerStage env total pre c) := by
  unfold headerStage
  rcases scanHeader c.client.recvCmd total pre with _ | pre' | _ | stop | ⟨num, stop⟩
  · exact awake_of_kept ⟨rfl, rfl⟩ rfl rfl
  · show Awake c { c with client := keepFrom c.client total pre' }
    unfold keepFrom
    split
    · exact awake_of_kept ⟨rfl, rfl⟩ rfl rfl
    · exact .refl c
  · exact .refl c
  · exact awake_of_kept ⟨rfl, rfl⟩ rfl rfl
  · dsimp only
    apply (allCmd_awake env _).bind
    intro c₁ _ h₁
    apply (cmdInsert_awake (registerWrite c₁) _).bind
    intro c₂ _ h₂
    exact (h₁.trans h₂).after ⟨rfl, rfl⟩ rfl rfl

theorem itemLoop_awake (total fuel pre : Nat) (c : Conn) :
    Ends anyFault (Flow.All (Awake c)) (itemLoop total fuel pre c) := by
  -- the loop registers nothing, and no branch of it changes the connection's responses
  induction fuel generalizing pre c with
  | zero => trivial
  | succ fuel ih =>
    unfold itemLoop
    apply (ends_any _).bind
    rintro ⟨p, cmd⟩ _ _
    dsimp only
    split
    · exact .refl c
    rcases scanItem c.client.recvCmd total pre with _ | _ | _ | _ | num
    · exact awake_of_kept ⟨rfl, rfl⟩ rfl rfl
    · exact .refl c
    · show Awake c { c with client := keepFrom c.client total pre }
      unfold keepFrom
      split
      · exact awake_of_kept ⟨rfl, rfl⟩ rfl rfl
      · exact .refl c
    · exact .refl c
    · dsimp only
      rcases slot cmd.curItem with f | i
      · trivial
      dsimp only [bind, Except.bind]
      split
      · apply (storeItem_untouched _ _ _ _).bind
        intro w _ hw
        exact awake_of_kept ⟨rfl, hw.loop⟩ rfl rfl
      · apply (storeItem_untouched _ _ _ _).bind
        intro w _ hw
        split
        · exact awake_of_kept ⟨rfl, hw.loop⟩ rfl rfl
        · apply (ih _ _).mono
          intro flow hflow
          cases flow with
          | ret code c' => exact Awake.after hflow ⟨rfl, hw.loop⟩ rfl rfl
          | next pre' c' => exact Awake.after hflow ⟨rfl, hw.loop⟩ rfl rfl

theorem completeIfFull_awake (env : Env) (c : Conn) : Ends anyFault (Awake c) (completeIfFull env c) := by
  apply (ends_any _).bind
  rintro ⟨p, cmd⟩ _ _
  dsimp only
  split
  · apply (allCmd_awake env _).bind
    intro c₁ _ h₁
    exact h₁.after ⟨rfl, rfl⟩ rfl rfl
  · exact .refl c

theorem decodeCmd_awake (env : Env) (total pre : Nat) (c : Conn) :
    Ends anyFault (Flow.All (Awake c)) (decodeCmd env total pre c) := by
  apply (ends_any _).bind
  intro fresh _ _
  have hheader : Ends anyFault (Flow.All (Awake c))
      (if fresh then headerStage env total pre c else .ok (.next pre c)) := by
    split
    · exact headerStage_awake env total pre c
    · exact .refl c
  apply hheader.bind
  intro flow _ hflow
  cases flow with
  | ret code c' => exact hflow
  | next pre' c' =>
    apply (itemLoop_awake total _ pre' c').mono
    intro flow' hflow'
    cases flow' with
    | ret code c'' => exact Awake.trans hflow hflow'
    | next pre'' c'' => exact Awake.trans hflow hflow'

theorem checkLoop_awake (env : Env) (total fuel pre : Nat) (c : Conn) :
    Ends anyFault (fun out => Awake c out.2) (checkLoop env total fuel pre c) := by
  induction fuel generalizing pre c with
  | zero => trivial
  | succ fuel ih =>
    apply (decodeCmd_awake env total pre c).bind
    intro flow _ hflow
    cases flow with
    | ret code c' => exact hflow
    | next pre' c' =>
      apply (completeIfFull_awake env c').bind
      intro c₁ _ h₁
      split
      · exact (hflow.trans h₁).trans (awake_of_kept ⟨rfl, rfl⟩ rfl rfl)
      · exact (ih pre' c₁).mono fun out hout => (hflow.trans h₁).trans hout

/-! ## Section 4: Releasing commands -/

theorem freeValues_loop (env : Env) (p : CmdPtr) (n pos : Nat) (cmd : Cmd) (w : World) :
    Ends anyFault (fun w' => w'.loop = w.loop) (freeValues env p n pos cmd w) := by
  induction n generalizing pos cmd w with
  | zero => rfl
  | succ n ih =>
    unfold freeValues
    rcases slot pos with f | i
    · trivial
    apply (freeItem_untouched env w _).bind
    intro w₁ _ h₁
    exact (ih (pos + 1) _ _).mono fun w₂ h₂ => Eq.trans h₂ h₁.loop

theorem cmdDeleteHead_awake (c : Conn) : Ends anyFault (Awake c) (cmdDeleteHead c) := by
  unfold cmdDeleteHead
  split
  · exact .refl c
  · apply (ends_any _).bind
    rintro ⟨p, cmd⟩ _ _
    exact awake_of_kept ⟨rfl, rfl⟩ rfl rfl

theorem freeClientCurCmd_awake (env : Env) (c : Conn) : Ends anyFault (Awake c) (freeClientCurCmd env c) := by
  unfold freeClientCurCmd
  split
  · exact .refl c
  apply (ends_any _).bind
  rintro ⟨p, cmd⟩ _ _
  apply (freeValues_loop env p _ 0 cmd c.world).bind
  intro w _ hw
  apply (cmdDeleteHead_awake _).bind
  intro c₁ _ h₁
  have hdrop := h₁.after (c := c) ⟨rfl, hw⟩ rfl rfl
  exact hdrop.trans (awake_of_kept ⟨rfl, rfl⟩ rfl rfl)

theorem freebufLoop_awake (env : Env) (fuel : Nat) (c : Conn) :
    Ends anyFault (Awake c) (freebufLoop env fuel c) := by
  induction fuel generalizing c with
  | zero => trivial
  | succ fuel ih =>
    unfold freebufLoop
    split
    · exact .refl c
    apply (ends_any _).bind
    rintro ⟨p, cmd⟩ _ _
    apply (freeValues_loop env p _ 0 cmd c.world).bind
    intro w _ hw
    apply (cmdDeleteHead_awake _).bind
    intro c₁ _ h₁
    have hdrop := h₁.after (c := c) ⟨rfl, hw⟩ rfl rfl
    exact (ih c₁).mono fun c₂ h₂ => hdrop.trans h₂

/-! ## Section 5: Passes -/

theorem recvItem_awake (env : Env) (c : Conn) (p : CmdPtr) (cmd : Cmd) (i : Fin cmdArgsMax) (r : ReadResult) :
    Ends anyFault (fun out => Awake c out.2) (recvItem env c p cmd i r) := by
  unfold recvItem
  rcases r.bound (cmd.itemLength i - cmd.itemPos i) with bs | _ | _ | _
  · dsimp only
    apply (storeItem_untouched _ _ _ _).bind
    intro w _ hw
    apply (completeIfFull_awake env _).bind
    intro c₁ _ h₁
    refine h₁.after ⟨rfl, hw.loop⟩ ?_ ?_
    · split <;> rfl
    · split <;> rfl
  all_goals exact .refl c

theorem recvHeader_awake (env : Env) (c : Conn) (r : ReadResult) :
    Ends anyFault (fun out => Awake c out.2) (recvHeader env c r) := by
  unfold recvHeader
  rcases r.bound (clientRecvCmdLength - c.client.recvPos) with bs | _ | _ | _
  · dsimp only
    apply (checkLoop_awake env _ _ 0 _).bind
    rintro ⟨code, c₁⟩ _ h₁
    have hread := Awake.after (c := c) h₁ ⟨rfl, rfl⟩ rfl rfl
    dsimp only
    have hreject : Ends anyFault (Awake c) (if code < 0 then freeClientCurCmd env c₁ else .ok c₁) := by
      split
      · exact (freeClientCurCmd_awake env c₁).mono fun c₂ h₂ => hread.trans h₂
      · exact hread
    apply hreject.bind
    intro c₂ _ h₂
    exact h₂
  all_goals exact .refl c

theorem recvPass_awake (env : Env) (c : Conn) (r : ReadResult) :
    Ends anyFault (fun out => Awake c out.2) (recvPass env c r) := by
  unfold recvPass
  split
  · exact recvHeader_awake env c r
  apply (ends_any _).bind
  rintro ⟨p, cmd⟩ _ _
  dsimp only
  rcases slot cmd.curItem with f | i
  · trivial
  dsimp only [bind, Except.bind]
  split
  · exact recvItem_awake env c p cmd i r
  · exact recvHeader_awake env c r

/-- A response left in the queue was there before. -/
theorem awake_of_queue (hkept : LoopKept c c') (hfd : c'.client.fd = c.client.fd)
    (hqueue : c.client.sendResponseQueue ≠ []) : Awake c c' := by
  refine ⟨hkept.me, hfd, ?_, ?_⟩
  · rw [hkept.loop]
    exact .refl _ _
  · intro hattended
    constructor
    · rw [hkept.me, hkept.loop, hfd]
      exact hattended.registered
    · intro _
      rw [hkept.loop, hfd]
      exact hattended.armed hqueue

theorem sendPass_awake (c : Conn) (r : WriteResult) :
    Ends anyFault (fun out => Awake c out.2) (sendPass c r) := by
  unfold sendPass
  rcases hqueue : c.client.sendResponseQueue with _ | ⟨tmp, rest⟩
  · -- nothing waits, so the wake-up is given up
    refine ⟨rfl, rfl, aeDeleteFileEvent_only .., ?_⟩
    intro hattended
    exact ⟨hattended.registered.disarm, fun hne => absurd hqueue hne⟩
  have hne : c.client.sendResponseQueue ≠ [] := by
    rw [hqueue]
    exact List.cons_ne_nil tmp rest
  apply (ends_any _).bind
  intro i _ _
  dsimp only
  split
  · apply (ends_any _).bind
    intro j _ _
    cases r with
    | accepted k => exact awake_of_queue ⟨rfl, rfl⟩ rfl hne
    | eagain => exact awake_of_queue ⟨rfl, rfl⟩ rfl hne
    | error => exact awake_of_queue ⟨rfl, rfl⟩ rfl hne
  · exact awake_of_queue ⟨rfl, rfl⟩ rfl hne

/-! ## Section 6: The client list -/

variable {s s' : Server} {id : Option ClientId} {client : ClientStat}

theorem derefClient_get {i : ClientId} (h : derefClient s id = .ok (i, client)) :
    id = some i ∧ s.clients.get i = some client := by
  unfold derefClient at h
  split at h
  · simp at h
  · split at h
    · simp at h
    · next hget =>
      cases h
      exact ⟨rfl, hget⟩

/-- Work on the links of the list only. -/
structure LinksOnly (s s' : Server) : Prop where
  clients : Relinked s.clients s'.clients
  world : s'.world = s.world

theorem LinksOnly.trans {s'' : Server} (h : LinksOnly s s') (h' : LinksOnly s' s'') : LinksOnly s s'' :=
  ⟨h.clients.trans h'.clients, h'.world.trans h.world⟩

theorem setPre_links (s : Server) (id p : Option ClientId) :
    Ends anyFault (LinksOnly s) (setPre s id p) := by
  unfold setPre
  split
  · exact ⟨.refl _, rfl⟩
  rcases hderef : derefClient s id with f | ⟨i, client⟩
  · trivial
  · exact ⟨relinked_set client.next p (derefClient_get hderef).2, rfl⟩

theorem unlink_links (s : Server) (tmp : ClientId) (client : ClientStat) :
    Ends anyFault (LinksOnly s) (unlink s tmp client) := by
  unfold unlink
  split
  · exact (setPre_links { s with clientQueue := client.next } client.next none).mono
      fun s' h => ⟨h.clients, h.world⟩
  rcases hderef : derefClient s client.pre with f | ⟨i, before⟩
  · trivial
  · have hset : LinksOnly s (s.setClient i { before with next := client.next }) :=
      ⟨relinked_set client.next before.pre (derefClient_get hderef).2, rfl⟩
    exact (setPre_links _ client.next client.pre).mono fun s' h => hset.trans h

theorem clientAdd_links (s : Server) (tmp : ClientId) :
    Ends anyFault (LinksOnly s) (clientAdd s tmp) := by
  unfold clientAdd
  rcases hderef : derefClient s (some tmp) with f | ⟨i, client⟩
  · trivial
  obtain ⟨hi, hget⟩ := derefClient_get hderef
  cases hi
  have hnext : LinksOnly s (s.setClient tmp { client with next := s.clientQueue }) :=
    ⟨relinked_set s.clientQueue client.pre hget, rfl⟩
  apply (setPre_links _ s.clientQueue (some tmp)).bind
  intro s₁ _ h₁
  have hqueue : LinksOnly s { s₁ with clientQueue := some tmp } :=
    ⟨(hnext.trans h₁).clients, (hnext.trans h₁).world⟩
  dsimp only [bind, Except.bind]
  rcases hderef₂ : derefClient { s₁ with clientQueue := some tmp } (some tmp) with f | ⟨j, client₂⟩
  · trivial
  obtain ⟨hj, hget₂⟩ := derefClient_get hderef₂
  cases hj
  exact hqueue.trans ⟨relinked_set client₂.next none hget₂, rfl⟩

/-! ## Section 7: The server -/

/-- Every live client is attended, and no two share a descriptor. -/
structure Watched (s : Server) : Prop where
  setsize : s.world.loop.setsize = initServer.world.loop.setsize
  attended : ∀ me c, s.clients.get me = some c → Attended ⟨me, c, s.world⟩
  distinct : ∀ i j c d, s.clients.get i = some c → s.clients.get j = some d → c.fd = d.fd → i = j

theorem Attended.relink {n q : Option ClientId} {w : World} (h : Attended ⟨me, client, w⟩) :
    Attended ⟨me, { client with next := n, pre := q }, w⟩ :=
  ⟨h.registered, h.armed⟩

/-- The others do not notice what happens at one descriptor. -/
theorem Attended.elsewhere {w w' : World} (h : Attended ⟨me, client, w⟩) (honly : OnlyAt fd w.loop w'.loop)
    (hne : client.fd ≠ fd) : Attended ⟨me, client, w'⟩ :=
  ⟨h.registered.other honly hne, fun hqueue => (h.armed hqueue).other honly hne⟩

/-- A server in which only one client is not known to be attended. -/
theorem Watched.replace {c : ClientStat} (h : Watched s) (hget : s.clients.get me = some c)
    (honly : OnlyAt c.fd s.world.loop s'.world.loop)
    (hothers : ∀ i c', i ≠ me → s'.clients.get i = some c' →
      ∃ c₀ n q, s.clients.get i = some c₀ ∧ c' = { c₀ with next := n, pre := q })
    (hmine : ∀ c', s'.clients.get me = some c' → c'.fd = c.fd ∧ Attended ⟨me, c', s'.world⟩) :
    Watched s' := by
  -- a live client was one before, on the same descriptor
  have hbefore : ∀ i c', s'.clients.get i = some c' → ∃ c₀, s.clients.get i = some c₀ ∧ c'.fd = c₀.fd := by
    intro i c' hc'
    by_cases hi : i = me
    · subst hi
      exact ⟨c, hget, (hmine c' hc').1⟩
    · obtain ⟨c₀, n, q, hc₀, rfl⟩ := hothers i c' hi hc'
      exact ⟨c₀, hc₀, rfl⟩
  refine ⟨honly.setsize.trans h.setsize, ?_, ?_⟩
  · intro i c' hc'
    by_cases hi : i = me
    · subst hi
      exact (hmine c' hc').2
    · obtain ⟨c₀, n, q, hc₀, rfl⟩ := hothers i c' hi hc'
      have hfd : c₀.fd ≠ c.fd := fun heq => hi (h.distinct i me c₀ c hc₀ hget heq)
      exact ((h.attended i c₀ hc₀).elsewhere honly hfd).relink
  · intro i j c' d' hi hj hfd
    obtain ⟨c₀, hc₀, hci⟩ := hbefore i c' hi
    obtain ⟨d₀, hd₀, hdj⟩ := hbefore j d' hj
    exact h.distinct i j c₀ d₀ hc₀ hd₀ (by rw [← hci, ← hdj, hfd])

theorem clientFreebuf_only (env : Env) (c : Conn) :
    Ends anyFault (fun c' => OnlyAt c.client.fd c.world.loop c'.world.loop) (clientFreebuf env c) := by
  apply (freebufLoop_awake env _ c).bind
  intro c₁ _ h₁
  exact h₁.only

/-- A client that leaves takes its registration with it. -/
theorem clientDelete_watched {c : ClientStat} (env : Env) (h : Watched s) (hget : s.clients.get me = some c) :
    Ends anyFault Watched (clientDelete env s me) := by
  have hderef : derefClient s (some me) = .ok (me, c) := derefClient_some hget
  rw [clientDelete_eq, hderef]
  apply (unlink_links s me c).bind
  intro s₁ _ h₁
  apply (clientFreebuf_only env _).bind
  intro c₁ _ hfree
  have hdelete := aeDeleteFileEvent_only s₁.world.loop c.fd ⟨true, true⟩
  have honly : OnlyAt c.fd s.world.loop c₁.world.loop := by
    rw [← h₁.world]
    exact hdelete.trans hfree
  apply h.replace hget honly
  · intro i c' hi hc'
    have hc₁ : s₁.clients.get i = some c' := by
      rw [← hc']
      exact (Pool.get_release_ne hi).symm
    exact h₁.clients.back hc₁
  · intro c' hc'
    have hgone : (s₁.clients.release me).get me = none := Pool.get_release_self s₁.clients me
    exact absurd (hgone.symm.trans hc') (by simp)

theorem settle_watched {c : ClientStat} {out : PassEnd × Conn} (env : Env) (h : Watched s)
    (hget : s.clients.get me = some c) (hawake : Awake ⟨me, c, s.world⟩ out.2) :
    Ends anyFault (fun out' => Watched out'.2) (settle env s out) := by
  obtain ⟨e, c'⟩ := out
  have hme : c'.me = me := hawake.me
  have hput : Watched { s.setClient c'.me c'.client with world := c'.world } := by
    rw [hme]
    apply h.replace hget hawake.only
    · intro i d hi hd
      rw [Server.setClient, Pool.get_set_ne hi] at hd
      exact ⟨d, d.next, d.pre, hd, rfl⟩
    · intro d hd
      rw [Server.setClient, Pool.get_set_self hget] at hd
      cases hd
      have hattended := hawake.attended (h.attended me c hget)
      exact ⟨hawake.fd, ⟨hme ▸ hattended.registered, hattended.armed⟩⟩
  cases e with
  | again => exact hput
  | returned => exact hput
  | disconnect =>
    have hlive : ({ s.setClient c'.me c'.client with world := c'.world } : Server).clients.get c'.me =
        some c'.client := by
      rw [hme]
      exact Pool.get_set_self hget
    apply (clientDelete_watched env hput hlive).bind
    intro s' _ hs'
    exact hs'

/-- A descriptor in use is the descriptor of a live client. -/
theorem fdInUse_of_get {c : ClientStat} (hget : s.clients.get me = some c) : fdInUse s c.fd = true := by
  unfold fdInUse
  rw [List.any_eq_true]
  unfold Pool.get at hget
  rw [Option.join_eq_some_iff] at hget
  exact ⟨some c, List.mem_of_getElem? hget, by simp⟩

/-- The two registrations of `server_accept_handle`. -/
def registerClient (loop : Loop) (me : ClientId) (fd : Nat) : Loop :=
  (aeCreateFileEvent (aeCreateFileEvent loop fd aeReadable .recvCmdHandle me).2 fd aeWritable
    .sendResponseHandle me).2

theorem registerClient_only (loop : Loop) (me : ClientId) (fd : Nat) :
    OnlyAt fd loop (registerClient loop me fd) :=
  (aeCreateFileEvent_only ..).trans (aeCreateFileEvent_only ..)

theorem registerClient_registered (loop : Loop) (me : ClientId) (h : fd < loop.setsize) :
    Registered (registerClient loop me fd) me fd ∧ Armed (registerClient loop me fd) fd := by
  unfold registerClient
  have hrange : ∀ e, fd < (loop.update fd e).setsize := fun _ => h
  rw [aeCreateFileEvent_eq aeReadable .recvCmdHandle me h, aeCreateFileEvent_eq _ _ _ (hrange _)]
  refine ⟨⟨h, ?_, ?_, ?_, ?_⟩, ?_⟩
  · simp [aeReadable]
  · simp [aeReadable, aeWritable]
  · simp [aeWritable]
  · simp
  · simp [Armed, aeWritable]

/-- A connection is registered before the next one is accepted. -/
theorem acceptPass_watched (h : Watched s) (hrange : fd < s.world.loop.setsize) (hfree : fdInUse s fd = false)
    (nonBlock : Bool) : Ends anyFault Watched (acceptPass s fd nonBlock) := by
  unfold acceptPass
  split
  · exact h
  apply (clientAdd_links _ _).bind
  intro s₁ _ h₁
  have honly : OnlyAt fd s.world.loop (registerClient s₁.world.loop s.clients.cells.length fd) := by
    rw [h₁.world]
    exact registerClient_only ..
  have hrange₁ : fd < s₁.world.loop.setsize := by
    rw [h₁.world]
    exact hrange
  have hnew := (registerClient_registered s₁.world.loop s.clients.cells.length hrange₁).1
  -- the clients are those there were, and the new one
  have hclients : ∀ i c', s₁.clients.get i = some c' →
      (i = s.clients.cells.length ∧ c'.fd = fd ∧ c'.sendResponseQueue = []) ∨
      ∃ c₀ n q, s.clients.get i = some c₀ ∧ c' = { c₀ with next := n, pre := q } := by
    intro i c' hc'
    by_cases hi : i = s.clients.cells.length
    · obtain ⟨n, q, hlinked⟩ := (h₁.clients.2 i).2 (newClient fd) (by
        rw [hi]
        exact Pool.get_alloc_new s.clients (newClient fd))
      cases hc'.symm.trans hlinked
      exact .inl ⟨hi, rfl, rfl⟩
    · obtain ⟨c₀, n, q, hc₀, hlinked⟩ := h₁.clients.back hc'
      exact .inr ⟨c₀, n, q, (Pool.get_alloc_ne hi).symm.trans hc₀, hlinked⟩
  have hother : ∀ i c₀, s.clients.get i = some c₀ → c₀.fd ≠ fd := by
    rintro i c₀ hc₀ rfl
    rw [fdInUse_of_get hc₀] at hfree
    simp at hfree
  refine ⟨honly.setsize.trans h.setsize, ?_, ?_⟩
  · intro i c' hc'
    rcases hclients i c' hc' with ⟨rfl, rfl, hempty⟩ | ⟨c₀, n, q, hc₀, rfl⟩
    · exact ⟨hnew, fun hqueue => absurd hempty hqueue⟩
    · exact ((h.attended i c₀ hc₀).elsewhere honly (hother i c₀ hc₀)).relink
  · intro i j c' d' hi hj hfd
    rcases hclients i c' hi with ⟨hi', hci, -⟩ | ⟨c₀, n, q, hc₀, rfl⟩
    · rcases hclients j d' hj with ⟨hj', -, -⟩ | ⟨d₀, n, q, hd₀, rfl⟩
      · rw [hi', hj']
      · exact absurd (hfd.symm.trans hci) (hother j d₀ hd₀)
    · rcases hclients j d' hj with ⟨-, hdj, -⟩ | ⟨d₀, n', q', hd₀, rfl⟩
      · exact absurd (hfd.trans hdj) (hother i c₀ hc₀)
      · exact h.distinct i j c₀ d₀ hc₀ hd₀ hfd

/-! ## Section 8: Runs -/

/-- Registering an accepted descriptor succeeds. -/
def InSet : Event → Prop
  | .connect fd _ => fd < initServer.world.loop.setsize
  | _ => True

/-- **Every callback keeps every client attended.** -/
theorem step_watched {e : Event} (env : Env) (h : Watched s) (hset : InSet e) :
    Ends anyFault Watched (step env s e) := by
  cases e with
  | connect fd nonBlock =>
    unfold step
    dsimp only
    split
    · exact h
    · next hbusy =>
      rw [Bool.or_eq_true, not_or, Bool.not_eq_true] at hbusy
      exact acceptPass_watched h (h.setsize ▸ hset) (by simpa using hbusy.2) nonBlock
  | recv me r =>
    unfold step
    dsimp only
    rcases hget : s.clients.get me with _ | c
    · exact h
    rw [Option.isNone_some, if_neg Bool.false_ne_true]
    have hrecv : Ends anyFault (fun out => Watched out.2) (recvStep env s me r) := by
      unfold recvStep
      rw [derefClient_some hget]
      apply (recvPass_awake env _ r).bind
      intro out _ hout
      exact settle_watched env h hget hout
    exact hrecv.map Prod.snd
  | send me r =>
    unfold step
    dsimp only
    rcases hget : s.clients.get me with _ | c
    · exact h
    rw [Option.isNone_some, if_neg Bool.false_ne_true]
    have hsend : Ends anyFault (fun out => Watched out.2) (sendStep env s me r) := by
      unfold sendStep
      rw [derefClient_some hget]
      apply (sendPass_awake _ r).bind
      intro out _ hout
      exact settle_watched env h hget hout
    exact hsend.map Prod.snd

theorem watched_init : Watched initServer := by
  refine ⟨rfl, ?_, ?_⟩
  · intro me c hc
    exact absurd hc (by simp [initServer])
  · intro i j c d hc
    exact absurd hc (by simp [initServer])

theorem run_watched {es : List Event} (env : Env) (hset : ∀ e ∈ es, InSet e)
    (hrun : run (step env) initServer es = .ok s) : Watched s := by
  apply along_invariant (I := Watched) (P := fun _ e => InSet e) _ watched_init (along_of_forall hset initServer) hrun
  intro s e s' hs he hstep
  have hends := step_watched env hs he
  rw [hstep] at hends
  exact hends

/-- **No lost wake-up**: in every run in which the accepted descriptors can
    be registered, a client with a response in its queue is watched for
    writing, and `send_response_handle` will be called with it. -/
theorem pending_response_is_watched (env : Env) (es : List Event) (s : Server)
    (hset : ∀ fd nonBlock, .connect fd nonBlock ∈ es → fd < initServer.world.loop.setsize)
    (hrun : run (step env) initServer es = .ok s) (me : ClientId) (c : ClientStat)
    (hget : s.clients.get me = some c) (hqueue : c.sendResponseQueue ≠ []) :
    (s.world.loop.events c.fd).mask.writable = true ∧
    (s.world.loop.events c.fd).wfileProc = some .sendResponseHandle ∧
    (s.world.loop.events c.fd).clientData = some me := by
  have hinset : ∀ e ∈ es, InSet e := by
    intro e he
    cases e with
    | connect fd nonBlock => exact hset fd nonBlock he
    | recv me r => trivial
    | send me r => trivial
  have hattended := (run_watched env hinset hrun).attended me c hget
  exact ⟨hattended.armed hqueue, hattended.registered.wfileProc, hattended.registered.clientData⟩

/-- A GET of a key that is not there is answered, and the answer waits. -/
theorem pending_response_is_watched_get :
    ∃ s c, run (step plainEnv) initServer [.connect 5 true,
        .recv 0 (.data ([42, 50, 13, 10] ++ strGET ++ [36, 49, 13, 10, 107, 13, 10]))] = .ok s ∧
      s.clients.get 0 = some c ∧ c.sendResponseQueue ≠ [] ∧
      (s.world.loop.events c.fd).mask.writable = true ∧
      (s.world.loop.events c.fd).wfileProc = some .sendResponseHandle ∧
      (s.world.loop.events c.fd).clientData = some 0 := by
  obtain ⟨s, hs, hone⟩ := ok_of_map (show (run (step plainEnv) initServer [.connect 5 true,
      .recv 0 (.data ([42, 50, 13, 10] ++ strGET ++ [36, 49, 13, 10, 107, 13, 10]))]).map
      (fun s => (s.clients.get 0).map fun c => c.sendResponseQueue.length) = .ok (some 1) by decide +kernel)
  obtain ⟨c, hget, hlen⟩ := Option.map_eq_some_iff.mp hone
  have hqueue : c.sendResponseQueue ≠ [] := by
    intro hnil
    rw [hnil] at hlen
    exact absurd hlen (by decide)
  refine ⟨s, c, hs, hget, hqueue, pending_response_is_watched plainEnv _ s ?_ hs 0 c hget hqueue⟩
  intro fd nonBlock hmem
  have hconnect : fd = 5 ∧ nonBlock = true := by simpa using hmem
  rw [hconnect.1]
  decide

end BoAtom
