import BoAtom.Mem.Wakeup

/-! # Accepting

    `server_accept_handle` with all that can fail in it: `anetNonBlock`, and
    the two registrations, whose results are not looked at.  A descriptor
    is stranded when it is open and no client in `ClientQueue` is registered
    with it. -/

namespace BoAtom

open Memory Machine

/-! ## Section 1: server_accept_handle -/

/-- A connection: the descriptor `anetTcpAccept` returns for it, and whether
    `anetNonBlock` and `aeApiAddEvent` succeed. -/
structure Incoming where
  fd : Nat
  nonBlock : Bool
  addReadable : Bool
  addWritable : Bool
  deriving DecidableEq, Repr

/-- What a call leaves: the server, and the descriptors accepted and closed
    in it. -/
structure Accepted where
  server : Server
  accepted : List Nat
  closed : List Nat

/-- A connection that has been made non-blocking. -/
def acceptClient (s : Server) (x : Incoming) : Except Fault Server := do
  let (tmp, clients) := s.clients.alloc (newClient x.fd)
  let s ← clientAdd { s with clients := clients } tmp
  let (_, loop) := aeCreateFileEventApi x.addReadable s.world.loop x.fd aeReadable .recvCmdHandle tmp
  let (_, loop) := aeCreateFileEventApi x.addWritable loop x.fd aeWritable .sendResponseHandle tmp
  .ok { s with world := { s.world with loop := loop } }

/-- `while ((clientfd = anetTcpAccept(..)) > 0)`, over the connections that
    are waiting.  Nothing is closed. -/
def serverAcceptHandle : List Incoming → Server → Except Fault Accepted
  | [], s => .ok ⟨s, [], []⟩
  | x :: xs, s =>
    if ¬ x.fd > 0 then .ok ⟨s, [x.fd], []⟩
    else if ¬ x.nonBlock then .ok ⟨s, [x.fd], []⟩
    else do
      let s ← acceptClient s x
      let out ← serverAcceptHandle xs s
      .ok { out with accepted := x.fd :: out.accepted }

/-- The pass of the server's transition system is this one, where the kernel
    registers what is below the set size. -/
theorem acceptPass_eq (s : Server) (fd : Nat) (nonBlock : Bool) :
    acceptPass s fd nonBlock =
      if ¬ nonBlock then .ok s else acceptClient s ⟨fd, nonBlock, true, true⟩ := by
  unfold acceptPass acceptClient
  simp only [aeCreateFileEventApi_true]

/-! ## Section 2: What is meant to hold -/

/-- Registered for reading and for writing. -/
structure FullyRegistered (loop : Loop) (me : ClientId) (fd : Nat) : Prop
    extends Registered loop me fd where
  armed : Armed loop fd

/-- No descriptor is stranded, and all clients in `ClientQueue` are registered. -/
structure NothingStranded (out : Accepted) : Prop where
  accepted : ∀ fd ∈ out.accepted, fd ∈ out.closed ∨ ∃ order me c, Listed out.server order ∧ me ∈ order ∧
    out.server.clients.get me = some c ∧ c.fd = fd ∧ FullyRegistered out.server.world.loop me fd
  queue : ∀ order, Listed out.server order → ∀ me ∈ order, ∀ c, out.server.clients.get me = some c →
    FullyRegistered out.server.world.loop me c.fd

/-- What the handler has to find: a client that `send_response_handle` has
    taken out of the writable events is not fully registered any more. -/
def AllRegistered (s : Server) : Prop :=
  ∀ me c, s.clients.get me = some c → FullyRegistered s.world.loop me c.fd

/-- Everything goes well with the connection. -/
structure Incoming.Good (loop : Loop) (x : Incoming) : Prop where
  positive : 0 < x.fd
  nonBlock : x.nonBlock = true
  inRange : x.fd < loop.setsize
  addReadable : x.addReadable = true
  addWritable : x.addWritable = true

/-- The kernel hands out descriptors that are not in use: no client has
    them, and no event is registered for them. -/
structure Unused (s : Server) (xs : List Incoming) : Prop where
  nodup : (xs.map Incoming.fd).Nodup
  free : ∀ x ∈ xs, ∀ me c, s.clients.get me = some c → c.fd ≠ x.fd
  vacant : ∀ x ∈ xs, (s.world.loop.events x.fd).mask = aeNone

/-- `P` holds whenever a call of a sequence of calls returns. -/
def AfterEachCall (P : Accepted → Prop) : List (List Incoming) → Server → Prop
  | [], _ => True
  | xs :: calls, s => ∃ out, serverAcceptHandle xs s = .ok out ∧ P out ∧ AfterEachCall P calls out.server

/-! ## Section 3: One connection -/

variable {s s' : Server} {x : Incoming} {xs : List Incoming} {loop : Loop} {me : ClientId} {fd : Nat}

/-- The two registrations. -/
def registerIncoming (loop : Loop) (me : ClientId) (x : Incoming) : Loop :=
  (aeCreateFileEventApi x.addWritable
    (aeCreateFileEventApi x.addReadable loop x.fd aeReadable .recvCmdHandle me).2
    x.fd aeWritable .sendResponseHandle me).2

theorem aeCreateFileEventApi_only (added : Bool) (loop : Loop) (fd : Nat) (mask : AeMask) (proc : FileProc)
    (me : ClientId) : OnlyAt fd loop (aeCreateFileEventApi added loop fd mask proc me).2 := by
  unfold aeCreateFileEventApi
  split
  · exact .refl fd loop
  · split
    · exact .refl fd loop
    · exact aeCreateFileEvent_only ..

theorem registerIncoming_only (loop : Loop) (me : ClientId) (x : Incoming) :
    OnlyAt x.fd loop (registerIncoming loop me x) :=
  (aeCreateFileEventApi_only ..).trans (aeCreateFileEventApi_only ..)

theorem FullyRegistered.other {loop' : Loop} (h : FullyRegistered loop me fd) {fd' : Nat}
    (honly : OnlyAt fd' loop loop') (hne : fd ≠ fd') : FullyRegistered loop' me fd :=
  ⟨h.toRegistered.other honly hne, h.armed.other honly hne⟩

/-- Nothing but the events of the descriptor and the set size count. -/
theorem FullyRegistered.congr {loop' : Loop} (h : FullyRegistered loop me fd)
    (hevents : loop'.events fd = loop.events fd) (hsize : loop'.setsize = loop.setsize) :
    FullyRegistered loop' me fd := by
  refine ⟨⟨hsize ▸ h.inRange, hevents ▸ h.readable, hevents ▸ h.rfileProc, hevents ▸ h.wfileProc,
    hevents ▸ h.clientData⟩, ?_⟩
  have harmed := h.armed
  unfold Armed at harmed ⊢
  rwa [hevents]

/-- A connection that nothing goes wrong with is registered. -/
theorem registerIncoming_good (hgood : x.Good loop) :
    FullyRegistered (registerIncoming loop me x) me x.fd := by
  unfold registerIncoming
  rw [hgood.addReadable, hgood.addWritable, aeCreateFileEventApi_true, aeCreateFileEventApi_true]
  obtain ⟨hreg, harmed⟩ := registerClient_registered loop me hgood.inRange
  exact ⟨hreg, harmed⟩

/-- What a registration that fails leaves out. -/
theorem registerIncoming_bad (hvacant : (loop.events x.fd).mask = aeNone)
    (hbad : ¬ (x.fd < loop.setsize ∧ x.addReadable = true ∧ x.addWritable = true)) :
    ¬ FullyRegistered (registerIncoming loop me x) me x.fd := by
  intro hfull
  have hrange : x.fd < loop.setsize := (registerIncoming_only loop me x).setsize ▸ hfull.inRange
  have hread := hfull.readable
  have hwrite := hfull.armed
  have hin : ¬ x.fd ≥ loop.setsize := Nat.not_le_of_lt hrange
  cases hr : x.addReadable with
  | false =>
    -- the mask was empty, and reading is not added to it
    cases hw : x.addWritable with
    | false =>
      simp [registerIncoming, aeCreateFileEventApi, hr, hw, hvacant, aeNone] at hread
    | true =>
      simp [registerIncoming, aeCreateFileEventApi, aeCreateFileEvent, hr, hw, hin, hvacant, aeNone,
        aeWritable] at hread
  | true =>
    cases hw : x.addWritable with
    | false =>
      simp [Armed, registerIncoming, aeCreateFileEventApi, aeCreateFileEvent, hr, hw, hin, hvacant, aeNone,
        aeReadable] at hwrite
    | true => exact hbad ⟨hrange, hr, hw⟩

theorem acceptClient_spec {order : List ClientId} (h : Listed s order) (x : Incoming) :
    ∃ s₁, acceptClient s x = .ok { s₁ with world := { s.world with
        loop := registerIncoming s.world.loop s.clients.cells.length x } } ∧ Added x.fd order s s₁ := by
  obtain ⟨s₁, hadd, hadded⟩ := addClient_spec h x.fd
  refine ⟨s₁, ?_, hadded⟩
  have halloc : s.clients.alloc (newClient x.fd) =
      (s.clients.cells.length, (s.clients.alloc (newClient x.fd)).2) := rfl
  unfold acceptClient
  rw [halloc]
  dsimp only
  rw [hadd, ← hadded.world]
  rfl

/-- The server once the connection has been accepted. -/
def joined (s s₁ : Server) (x : Incoming) : Server :=
  { s₁ with world := { s.world with loop := registerIncoming s.world.loop s.clients.cells.length x } }

theorem joined_listed {s₁ : Server} {order : List ClientId} (h : Added x.fd order s s₁) :
    Listed (joined s s₁ x) (s.clients.cells.length :: order) :=
  ⟨h.listed.seg, h.listed.nodup, h.listed.live⟩

theorem Unused.tail (h : Unused s (x :: xs)) : Unused s xs :=
  ⟨(List.nodup_cons.mp h.nodup).2, fun y hy => h.free y (List.mem_cons_of_mem _ hy),
    fun y hy => h.vacant y (List.mem_cons_of_mem _ hy)⟩

/-- The other connections that wait have other descriptors. -/
theorem Unused.ne (h : Unused s (x :: xs)) {y : Incoming} (hy : y ∈ xs) : x.fd ≠ y.fd := by
  have hnot := (List.nodup_cons.mp h.nodup).1
  intro heq
  exact hnot (heq ▸ List.mem_map_of_mem hy)

theorem Unused.joined {s₁ : Server} {order : List ClientId} (h : Unused s (x :: xs))
    (hadded : Added x.fd order s s₁) : Unused (joined s s₁ x) xs := by
  have honly := registerIncoming_only s.world.loop s.clients.cells.length x
  refine ⟨h.tail.nodup, fun y hy i c hc => ?_, fun y hy => ?_⟩
  · by_cases hi : i = s.clients.cells.length
    · obtain ⟨n, p, hnew⟩ := hadded.new
      rw [hi] at hc
      cases hc.symm.trans hnew
      exact h.ne hy
    · obtain ⟨c₀, n, p, hc₀, rfl⟩ := hadded.back i c hi hc
      exact h.tail.free y hy i c₀ hc₀
  · have hsame : (BoAtom.joined s s₁ x).world.loop.events y.fd = s.world.loop.events y.fd :=
      honly.other y.fd (h.ne hy).symm
    rw [hsame]
    exact h.tail.vacant y hy

theorem AllRegistered.joined {s₁ : Server} {order : List ClientId} (h : AllRegistered s)
    (hunused : Unused s (x :: xs)) (hgood : x.Good s.world.loop) (hadded : Added x.fd order s s₁) :
    AllRegistered (joined s s₁ x) := by
  have honly := registerIncoming_only s.world.loop s.clients.cells.length x
  intro i c hc
  by_cases hi : i = s.clients.cells.length
  · obtain ⟨n, p, hnew⟩ := hadded.new
    rw [hi] at hc
    cases hc.symm.trans hnew
    rw [hi]
    exact registerIncoming_good hgood
  · obtain ⟨c₀, n, p, hc₀, rfl⟩ := hadded.back i c hi hc
    have hne : c₀.fd ≠ x.fd := hunused.free x List.mem_cons_self i c₀ hc₀
    exact (h i c₀ hc₀).other honly hne

/-! ## Section 4: One call -/

/-- A client, once in the list, stays, and its descriptor is not registered
    again. -/
structure Keeps (xs : List Incoming) (s s' : Server) : Prop where
  listed : ∃ order, Listed s' order
  clients : ∀ i c, s.clients.get i = some c → ∃ n p, s'.clients.get i = some { c with next := n, pre := p }
  events : ∀ fd, (∀ x ∈ xs, x.fd ≠ fd) → s'.world.loop.events fd = s.world.loop.events fd
  setsize : s'.world.loop.setsize = s.world.loop.setsize

theorem Keeps.refl {order : List ClientId} (h : Listed s order) (xs : List Incoming) : Keeps xs s s :=
  ⟨⟨order, h⟩, fun _ c hc => ⟨c.next, c.pre, hc⟩, fun _ _ => rfl, rfl⟩

/-- What goes wrong with a connection is not decided by the ones before it. -/
theorem good_joined {s₁ : Server} {y : Incoming} :
    y.Good (joined s s₁ x).world.loop ↔ y.Good s.world.loop := by
  have hsize : (joined s s₁ x).world.loop.setsize = s.world.loop.setsize :=
    (registerIncoming_only s.world.loop s.clients.cells.length x).setsize
  constructor
  · intro h
    exact ⟨h.positive, h.nonBlock, hsize ▸ h.inRange, h.addReadable, h.addWritable⟩
  · intro h
    exact ⟨h.positive, h.nonBlock, hsize.symm ▸ h.inRange, h.addReadable, h.addWritable⟩

/-- A turn of the loop that accepts. -/
theorem serverAcceptHandle_cons {s₁ : Server} {out : Accepted} (hpos : x.fd > 0) (hnb : x.nonBlock)
    (haccept : acceptClient s x = .ok (joined s s₁ x))
    (hout : serverAcceptHandle xs (joined s s₁ x) = .ok out) :
    serverAcceptHandle (x :: xs) s = .ok { out with accepted := x.fd :: out.accepted } := by
  rw [serverAcceptHandle, if_neg (not_not.mpr hpos), if_neg (not_not.mpr hnb), haccept]
  show (serverAcceptHandle xs (joined s s₁ x)).bind _ = _
  rw [hout]
  rfl

/-- The call always returns. -/
theorem serverAcceptHandle_keeps (xs : List Incoming) {order : List ClientId} (h : Listed s order) :
    ∃ out, serverAcceptHandle xs s = .ok out ∧ Keeps xs s out.server := by
  induction xs generalizing s order with
  | nil => exact ⟨_, rfl, Keeps.refl h []⟩
  | cons x xs ih =>
    by_cases hpos : x.fd > 0
    swap
    · exact ⟨_, if_pos hpos, Keeps.refl h _⟩
    by_cases hnb : x.nonBlock
    swap
    · exact ⟨_, (if_neg (not_not.mpr hpos)).trans (if_pos hnb), Keeps.refl h _⟩
    obtain ⟨s₁, haccept, hadded⟩ := acceptClient_spec h x
    obtain ⟨out, hout, hkeeps⟩ := ih (joined_listed hadded)
    have honly := registerIncoming_only s.world.loop s.clients.cells.length x
    refine ⟨_, serverAcceptHandle_cons hpos hnb haccept hout, hkeeps.listed, ?_, ?_, ?_⟩
    · intro i c hc
      obtain ⟨n, p, hjoined⟩ := hadded.kept i c hc
      obtain ⟨n', p', hkept⟩ := hkeeps.clients i _ hjoined
      exact ⟨n', p', hkept⟩
    · intro fd hfd
      have hlater := hkeeps.events fd fun y hy => hfd y (List.mem_cons_of_mem _ hy)
      have hnow := honly.other fd (hfd x List.mem_cons_self).symm
      exact hlater.trans hnow
    · exact hkeeps.setsize.trans honly.setsize

/-- A call in which nothing goes wrong strands nothing, and the next one
    finds what this one found. -/
theorem serverAcceptHandle_good {ys : List Incoming} (hlisted : ∃ order, Listed s order)
    (h : AllRegistered s) (hunused : Unused s (xs ++ ys)) (hgood : ∀ x ∈ xs, x.Good s.world.loop) :
    ∃ out, serverAcceptHandle xs s = .ok out ∧ NothingStranded out ∧ AllRegistered out.server ∧
      Unused out.server ys ∧ Keeps xs s out.server := by
  -- one accept a turn of the loop; what it leaves is what the induction hypothesis asks
  induction xs generalizing s with
  | nil =>
    obtain ⟨order, hlisted⟩ := hlisted
    refine ⟨_, rfl, ⟨fun fd hfd => absurd hfd List.not_mem_nil, ?_⟩, h, hunused, Keeps.refl hlisted []⟩
    intro order' _ me _ c hc
    exact h me c hc
  | cons x xs ih =>
    obtain ⟨order, hlisted⟩ := hlisted
    have hx := hgood x List.mem_cons_self
    obtain ⟨s₁, haccept, hadded⟩ := acceptClient_spec hlisted x
    have hgood₁ : ∀ y ∈ xs, y.Good (joined s s₁ x).world.loop :=
      fun y hy => good_joined.mpr (hgood y (List.mem_cons_of_mem _ hy))
    obtain ⟨out, hout, hnone, hall, hunused', hkeeps⟩ := ih ⟨_, joined_listed hadded⟩
      (h.joined hunused hx hadded) (hunused.joined hadded) hgood₁
    obtain ⟨out', hout', hkeeps'⟩ := serverAcceptHandle_keeps (x :: xs) hlisted
    have heq := serverAcceptHandle_cons hx.positive hx.nonBlock haccept hout
    -- both runs are this one, so what is kept can be said of its outcome
    cases hout'.symm.trans heq
    refine ⟨_, heq, ⟨?_, hnone.queue⟩, hall, hunused', hkeeps'⟩
    intro fd hfd
    rcases List.mem_cons.mp hfd with rfl | hfd
    · -- the connection just accepted is the one before the last call
      obtain ⟨order', hlisted'⟩ := hkeeps.listed
      obtain ⟨n, p, hnew⟩ := hadded.new
      obtain ⟨n', p', hkept⟩ := hkeeps.clients _ _ hnew
      exact .inr ⟨order', _, _, hlisted', hlisted'.live _ _ hkept, hkept, rfl, hall _ _ hkept⟩
    · exact hnone.accepted fd hfd

/-- A call does nothing for the clients that were there. -/
theorem NothingStranded.before {out : Accepted} (h : NothingStranded out) (hunused : Unused s xs)
    (hkeeps : Keeps xs s out.server) : AllRegistered s := by
  intro me c hc
  obtain ⟨order, hlisted⟩ := hkeeps.listed
  obtain ⟨n, p, hkept⟩ := hkeeps.clients me c hc
  have hfull : FullyRegistered out.server.world.loop me c.fd :=
    h.queue order hlisted me (hlisted.live _ _ hkept) { c with next := n, pre := p } hkept
  have hevents := hkeeps.events c.fd fun x hx => (hunused.free x hx me c hc).symm
  exact hfull.congr hevents.symm hkeeps.setsize.symm

/-- One failure is enough. -/
theorem serverAcceptHandle_bad (hlisted : ∃ order, Listed s order) (hunused : Unused s xs)
    (hbad : ∃ x ∈ xs, ¬ x.Good s.world.loop) :
    ∃ out, serverAcceptHandle xs s = .ok out ∧ ¬ NothingStranded out := by
  induction xs generalizing s with
  | nil =>
    obtain ⟨x, hx, -⟩ := hbad
    exact absurd hx List.not_mem_nil
  | cons x xs ih =>
    obtain ⟨order, hlisted⟩ := hlisted
    -- a descriptor the handler returns with belongs to no client
    have hleft : ¬ NothingStranded ⟨s, [x.fd], []⟩ := by
      intro hnone
      rcases hnone.accepted x.fd List.mem_cons_self with hclosed | ⟨_, me, c, _, _, hget, hfd, _⟩
      · exact absurd hclosed List.not_mem_nil
      · exact hunused.free x List.mem_cons_self me c hget hfd
    by_cases hpos : x.fd > 0
    swap
    · exact ⟨_, if_pos hpos, hleft⟩
    by_cases hnb : x.nonBlock
    swap
    · exact ⟨_, (if_neg (not_not.mpr hpos)).trans (if_pos hnb), hleft⟩
    obtain ⟨s₁, haccept, hadded⟩ := acceptClient_spec hlisted x
    by_cases hreg : x.fd < s.world.loop.setsize ∧ x.addReadable = true ∧ x.addWritable = true
    · -- this one is registered, so another one fails
      have hx : x.Good s.world.loop := ⟨hpos, hnb, hreg.1, hreg.2.1, hreg.2.2⟩
      have hrest : ∃ y ∈ xs, ¬ y.Good (joined s s₁ x).world.loop := by
        obtain ⟨y, hy, hnot⟩ := hbad
        rcases List.mem_cons.mp hy with rfl | hy
        · exact absurd hx hnot
        · exact ⟨y, hy, fun hy' => hnot (good_joined.mp hy')⟩
      obtain ⟨out, hout, hstranded⟩ := ih ⟨_, joined_listed hadded⟩ (hunused.joined hadded) hrest
      refine ⟨_, serverAcceptHandle_cons hpos hnb haccept hout, fun hnone => ?_⟩
      exact hstranded ⟨fun fd hfd => hnone.accepted fd (List.mem_cons_of_mem _ hfd), hnone.queue⟩
    · -- this one is not, and stays in the list
      obtain ⟨out, hout, hkeeps⟩ := serverAcceptHandle_keeps xs (joined_listed hadded)
      refine ⟨_, serverAcceptHandle_cons hpos hnb haccept hout, fun hnone => ?_⟩
      obtain ⟨order', hlisted'⟩ := hkeeps.listed
      obtain ⟨n, p, hnew⟩ := hadded.new
      obtain ⟨n', p', hkept⟩ := hkeeps.clients _ _ hnew
      have hfull : FullyRegistered out.server.world.loop s.clients.cells.length x.fd :=
        hnone.queue order' hlisted' _ (hlisted'.live _ _ hkept) _ hkept
      have hevents := hkeeps.events x.fd fun y hy => (hunused.ne hy).symm
      have hback : FullyRegistered (joined s s₁ x).world.loop s.clients.cells.length x.fd :=
        hfull.congr hevents.symm hkeeps.setsize.symm
      exact registerIncoming_bad (hunused.vacant x List.mem_cons_self) hreg hback

/-- **One call**: it strands nothing exactly when nothing goes wrong in it,
    and the clients that were there are registered. -/
theorem serverAcceptHandle_iff (hlisted : ∃ order, Listed s order) (hunused : Unused s xs) :
    (∃ out, serverAcceptHandle xs s = .ok out ∧ NothingStranded out) ↔
      AllRegistered s ∧ ∀ x ∈ xs, x.Good s.world.loop := by
  constructor
  · rintro ⟨out, hout, hnone⟩
    obtain ⟨order, horder⟩ := hlisted
    obtain ⟨out', hout', hkeeps⟩ := serverAcceptHandle_keeps xs horder
    cases hout.symm.trans hout'
    refine ⟨hnone.before hunused hkeeps, ?_⟩
    by_contra hbad
    push Not at hbad
    obtain ⟨out', hout', hstranded⟩ := serverAcceptHandle_bad ⟨order, horder⟩ hunused hbad
    cases hout.symm.trans hout'
    exact hstranded hnone
  · rintro ⟨h, hgood⟩
    have hunused' : Unused s (xs ++ []) := by rwa [List.append_nil]
    obtain ⟨out, hout, hnone, -⟩ := serverAcceptHandle_good hlisted h hunused' hgood
    exact ⟨out, hout, hnone⟩

/-! ## Section 5: Sequences of calls -/

/-- **Accepting strands no connection**, whenever the handler returns,
    exactly when the clients that were there are registered and all goes
    well with every connection: its descriptor is positive and below the set
    size, and `anetNonBlock` and both registrations in the kernel succeed. -/
theorem accept_strands_nothing_iff (calls : List (List Incoming)) (s : Server)
    (hlisted : ∃ order, Listed s order) (hunused : Unused s calls.flatten) :
    AfterEachCall NothingStranded calls s ↔
      (calls ≠ [] → AllRegistered s) ∧ ∀ xs ∈ calls, ∀ x ∈ xs, x.Good s.world.loop := by
  induction calls generalizing s with
  | nil => exact ⟨fun _ => ⟨fun h => absurd rfl h, fun xs hxs => absurd hxs List.not_mem_nil⟩, fun _ => trivial⟩
  | cons xs calls ih =>
    rw [List.flatten_cons] at hunused
    have hfirst : Unused s xs := by
      refine ⟨?_, fun x hx => hunused.free x (List.mem_append_left _ hx),
        fun x hx => hunused.vacant x (List.mem_append_left _ hx)⟩
      have hnodup := hunused.nodup
      rw [List.map_append] at hnodup
      exact (List.nodup_append.mp hnodup).1
    -- what the loop is does not matter beyond its size
    have hsame : ∀ s' : Server, Keeps xs s s' →
        ((∀ ys ∈ calls, ∀ y ∈ ys, y.Good s'.world.loop) ↔ ∀ ys ∈ calls, ∀ y ∈ ys, y.Good s.world.loop) := by
      intro s' hkeeps
      constructor
      · intro hgood ys hys y hy
        have hy' := hgood ys hys y hy
        exact ⟨hy'.positive, hy'.nonBlock, hkeeps.setsize ▸ hy'.inRange, hy'.addReadable, hy'.addWritable⟩
      · intro hgood ys hys y hy
        have hy' := hgood ys hys y hy
        exact ⟨hy'.positive, hy'.nonBlock, hkeeps.setsize.symm ▸ hy'.inRange, hy'.addReadable, hy'.addWritable⟩
    constructor
    · rintro ⟨out, hout, hnone, hlater⟩
      obtain ⟨h, hgood⟩ := (serverAcceptHandle_iff hlisted hfirst).mp ⟨out, hout, hnone⟩
      obtain ⟨out', hout', -, hall, hunused', hkeeps⟩ := serverAcceptHandle_good hlisted h hunused hgood
      cases hout.symm.trans hout'
      have hrest := (hsame _ hkeeps).mp ((ih _ hkeeps.listed hunused').mp hlater).2
      refine ⟨fun _ => h, fun ys hys => ?_⟩
      rcases List.mem_cons.mp hys with rfl | hys
      · exact hgood
      · exact hrest ys hys
    · rintro ⟨h, hgood⟩
      obtain ⟨out, hout, hnone, hall, hunused', hkeeps⟩ := serverAcceptHandle_good hlisted
        (h (List.cons_ne_nil _ _)) hunused (hgood xs List.mem_cons_self)
      have hrest := (hsame _ hkeeps).mpr fun ys hys => hgood ys (List.mem_cons_of_mem _ hys)
      exact ⟨out, hout, hnone, (ih _ hkeeps.listed hunused').mpr ⟨fun _ => hall, hrest⟩⟩

theorem listed_init : ∃ order, Listed initServer order := by
  refine ⟨[], rfl, List.nodup_nil, fun i c hc => ?_⟩
  exact absurd hc (by simp [initServer])

theorem unused_init {xs : List Incoming} (hnodup : (xs.map Incoming.fd).Nodup) : Unused initServer xs := by
  refine ⟨hnodup, fun x _ me c hc => ?_, fun _ _ => rfl⟩
  exact absurd hc (by simp [initServer])

/-- Two calls that go well. -/
theorem accept_strands_nothing_two :
    AfterEachCall NothingStranded [[⟨5, true, true, true⟩, ⟨6, true, true, true⟩], [⟨7, true, true, true⟩]]
      initServer := by
  apply (accept_strands_nothing_iff _ initServer listed_init (unused_init (by decide))).mpr
  refine ⟨fun _ me c hc => absurd hc (by simp [initServer]), fun xs hxs x hx => ?_⟩
  have hfds : x ∈ [[⟨5, true, true, true⟩, ⟨6, true, true, true⟩], [⟨7, true, true, true⟩]].flatten :=
    List.mem_flatten.mpr ⟨xs, hxs, hx⟩
  simp only [List.flatten_cons, List.flatten_nil, List.cons_append, List.nil_append, List.append_nil,
    List.mem_cons, List.not_mem_nil, or_false] at hfds
  rcases hfds with rfl | rfl | rfl
  all_goals exact ⟨by decide, rfl, by decide, rfl, rfl⟩

/-- Descriptor 1000 is the first one that cannot be registered: the client
    is in `ClientQueue`, and nothing will ever be called for it. -/
theorem accept_at_set_size_strands :
    ¬ AfterEachCall NothingStranded [[⟨1000, true, true, true⟩]] initServer := by
  rintro ⟨out, hout, hnone, -⟩
  have hgood := ((serverAcceptHandle_iff listed_init (unused_init (by decide))).mp ⟨out, hout, hnone⟩).2
  have hrange := (hgood _ List.mem_cons_self).inRange
  exact absurd hrange (by decide)

end BoAtom
