import BoAtom.Lib.History
import BoAtom.Mem.ClientList

/-! # The list of clients over any sequence of calls

    `clientAdd` and `clientDelete` in any order, with whatever else the
    server does between them that leaves the links alone.  After each call
    the list is well formed and holds the clients added and not yet deleted,
    and a deletion finds both neighbours allocated. -/

namespace BoAtom

open Memory Machine History

/-! ## Section 1: The calls -/

inductive ClientCall where
  | add (id : ClientId)
  | delete (id : ClientId)
  /-- What the server does between two calls. -/
  | other (work : Server → Except Fault Server)

def clientStep (env : Env) (s : Server) : ClientCall → Except Fault Server
  | .add id => clientAdd s id
  | .delete id => clientDelete env s id
  | .other work => work s

def ClientCall.apply (order : List ClientId) : ClientCall → List ClientId
  | .add id => id :: order
  | .delete id => order.erase id
  | .other _ => order

/-- The clients added and not yet deleted, newest first. -/
def added (calls : List ClientCall) : List ClientId := calls.foldl ClientCall.apply []

/-- Clients may be allocated and changed, but for their links. -/
def KeepsLinks (work : Server → Except Fault Server) : Prop :=
  ∀ s s', work s = .ok s' → s'.clientQueue = s.clientQueue ∧
    ∀ id c, s.clients.get id = some c → ∃ c', s'.clients.get id = some c' ∧ c'.next = c.next ∧ c'.pre = c.pre

/-- A call of the program: `clientAdd` of a client that is allocated and not
    in the list, `clientDelete` of one that is. -/
structure MayCall (env : Env) (start : Server) (before : List ClientCall) (call : ClientCall) : Prop where
  add : ∀ id, call = .add id → id ∉ added before ∧
    ∀ s, run (clientStep env) start before = .ok s → ∃ c, s.clients.get id = some c
  delete : ∀ id, call = .delete id → id ∈ added before
  other : ∀ work, call = .other work → KeepsLinks work

/-- The list is `order`, forwards over `next` and backwards over `pre`. -/
structure Linked (s : Server) (order : List ClientId) : Prop where
  seg : Seg s.clients none s.clientQueue order none
  nodup : order.Nodup

/-- What `clientDelete` hands to `_clientFreebuf`. -/
def leaving (s : Server) (id : ClientId) (c : ClientStat) : Conn where
  me := id
  client := c
  world := ({ s.world with loop := aeDeleteFileEvent s.world.loop c.fd ⟨true, true⟩ }).log (.closed id)

/-- The client `clientDelete` is called with, the two clients whose links it
    sets, and all that can go wrong: freeing the buffers. -/
structure Unlinkable (env : Env) (s : Server) (id : ClientId) (c : ClientStat) : Prop where
  client : s.clients.get id = some c
  pre : s.clientQueue ≠ some id → ∃ before cb, c.pre = some before ∧ s.clients.get before = some cb
  next : ∀ after, c.next = some after → ∃ ca, s.clients.get after = some ca
  faults : ∀ f, clientDelete env s id = .error f → clientFreebuf env (leaving s id c) = .error f

/-- What a call finds. -/
structure Finds (env : Env) (s : Server) (call : ClientCall) : Prop where
  add : ∀ id, call = .add id → ∃ s', clientAdd s id = .ok s'
  delete : ∀ id, call = .delete id → ∃ c, Unlinkable env s id c

/-! ## Section 2: One call -/

variable {env : Env} {s s' start : Server} {order : List ClientId} {id : ClientId} {c : ClientStat}
  {calls : List ClientCall} {call : ClientCall}

theorem Linked.other (h : Linked s order) {work : Server → Except Fault Server} (hwork : KeepsLinks work)
    (hstep : work s = .ok s') : Linked s' order := by
  obtain ⟨hqueue, hlinks⟩ := hwork s s' hstep
  refine ⟨?_, h.nodup⟩
  rw [hqueue]
  exact h.seg.congr_links fun id _ c hc => hlinks id c hc

theorem Linked.add (h : Linked s order) (hnew : id ∉ order) (hget : s.clients.get id = some c) :
    ∃ s', clientAdd s id = .ok s' ∧ Linked s' (id :: order) := by
  obtain ⟨s', hadd, hseg, -, -⟩ := clientAdd_seg h.seg h.nodup hget hnew
  exact ⟨s', hadd, hseg, List.nodup_cons.mpr ⟨hnew, h.nodup⟩⟩

/-- `clientDelete` unlinks, and then frees. -/
theorem Linked.delete (env : Env) (h : Linked s order) (hid : id ∈ order) (hget : s.clients.get id = some c) :
    ∃ s₁ : Server, Linked { s₁ with clients := s₁.clients.release id } (order.erase id) ∧
      clientDelete env s id = (clientFreebuf env (leaving s id c)).map
        fun c' => { s₁ with clients := s₁.clients.release id, world := c'.world } := by
  obtain ⟨s₁, hunlink, hseg, -, hworld⟩ := unlink_seg h.seg h.nodup hid hget
  refine ⟨s₁, ⟨hseg.congr fun i hi => Pool.get_release_ne ?_, h.nodup.erase id⟩, ?_⟩
  · rintro rfl
    exact h.nodup.not_mem_erase hi
  · rw [clientDelete_eq, derefClient_some hget]
    simp only [Except.bind, hunlink, hworld]
    rfl

/-- The neighbours of a listed client. -/
theorem Linked.neighbours (h : Linked s order) (hid : id ∈ order) (hget : s.clients.get id = some c) :
    (s.clientQueue ≠ some id → ∃ before cb, c.pre = some before ∧ s.clients.get before = some cb) ∧
      ∀ after, c.next = some after → ∃ ca, s.clients.get after = some ca := by
  obtain ⟨l, r, rfl⟩ := List.append_of_mem hid
  obtain ⟨mid, hl, hmid, c', hget', hpre, hr⟩ := seg_append.mp h.seg
  obtain rfl := Option.some.inj (hget.symm.trans hget')
  constructor
  · intro hhead
    rcases List.eq_nil_or_concat l with rfl | ⟨l, x, rfl⟩
    · exact absurd ((show s.clientQueue = mid from hl).trans hmid) hhead
    · -- the client before is the last one of the front part
      rw [List.concat_eq_append] at hl hpre
      obtain ⟨cx, hx⟩ := hl.live (show x ∈ l ++ [x] by simp)
      exact ⟨x, cx, hpre.trans (lastOr_snoc none l x), hx⟩
  · intro after hafter
    rcases r with _ | ⟨y, r⟩
    · -- the last client has no `next`
      rw [show c.next = none from hr] at hafter
      cases hafter
    · obtain ⟨hy, cy, hcy, -⟩ := hr
      obtain rfl := Option.some.inj (hafter.symm.trans hy)
      exact ⟨cy, hcy⟩

theorem Linked.unlinkable (h : Linked s order) (hid : id ∈ order) : ∃ c, Unlinkable env s id c := by
  obtain ⟨c, hget⟩ := h.seg.live hid
  obtain ⟨hpre, hnext⟩ := h.neighbours hid hget
  refine ⟨c, hget, hpre, hnext, fun f hf => ?_⟩
  obtain ⟨s₁, -, hdelete⟩ := h.delete env hid hget
  rw [hdelete] at hf
  rcases hfree : clientFreebuf env (leaving s id c) with e | c'
  · rw [hfree] at hf
    cases hf
    rfl
  · rw [hfree] at hf
    cases hf

/-! ## Section 3: Sequences of calls -/

@[simp] theorem added_snoc (calls : List ClientCall) (call : ClientCall) :
    added (calls ++ [call]) = call.apply (added calls) := by
  simp [added]

/-- Any call keeps the list. -/
theorem Linked.step (h : Linked s (added calls)) (hrun : run (clientStep env) start calls = .ok s)
    (hcall : MayCall env start calls call) (hstep : clientStep env s call = .ok s') :
    Linked s' (call.apply (added calls)) := by
  cases call with
  | add id =>
    obtain ⟨hnew, hlive⟩ := hcall.add id rfl
    obtain ⟨c, hget⟩ := hlive s hrun
    obtain ⟨s₁, hadd, hlinked⟩ := h.add hnew hget
    obtain rfl := Except.ok.inj (hadd.symm.trans hstep)
    exact hlinked
  | delete id =>
    have hid := hcall.delete id rfl
    obtain ⟨c, hget⟩ := h.seg.live hid
    obtain ⟨s₁, hlinked, hdelete⟩ := h.delete env hid hget
    obtain ⟨c', -, rfl⟩ := ok_of_map (hdelete.symm.trans hstep)
    exact ⟨hlinked.seg, hlinked.nodup⟩
  | other work => exact h.other (hcall.other work rfl) hstep

theorem linked_run (hstart : start.clientQueue = none) (hcalls : Each (MayCall env start) calls)
    (hrun : run (clientStep env) start calls = .ok s) : Linked s (added calls) := by
  refine hcalls.induction (I := fun calls => ∀ s, run (clientStep env) start calls = .ok s →
    Linked s (added calls)) ?_ ?_ s hrun
  · intro s hs
    obtain rfl := Except.ok.inj hs
    exact ⟨hstart, List.nodup_nil⟩
  · intro before call ih hcall s' hs'
    obtain ⟨s, hs, hstep⟩ := run_snoc_eq_ok.mp hs'
    rw [added_snoc]
    exact (ih s hs).step hs hcall hstep

/-- After each of the calls the list is linked, and the next call finds what
    it dereferences. -/
def StaysLinked (env : Env) (start : Server) (calls : List ClientCall) : Prop :=
  ∀ before later, calls = before ++ later → ∀ s, run (clientStep env) start before = .ok s →
    Linked s (added before) ∧ ∀ call rest, later = call :: rest → Finds env s call

/-- **The list of clients** stays a doubly linked list of the clients added
    and not yet deleted. -/
theorem clientQueue_linked (hstart : start.clientQueue = none) (hcalls : Each (MayCall env start) calls) :
    StaysLinked env start calls := by
  rintro before later rfl s hrun
  have hlinked := linked_run hstart hcalls.front hrun
  refine ⟨hlinked, ?_⟩
  rintro call rest rfl
  have hcall := hcalls before call rest rfl
  refine ⟨fun id hadd => ?_, fun id hdelete => hlinked.unlinkable (hcall.delete id hdelete)⟩
  obtain ⟨hnew, hlive⟩ := hcall.add id hadd
  obtain ⟨c, hget⟩ := hlive s hrun
  obtain ⟨s', hs', -⟩ := hlinked.add hnew hget
  exact ⟨s', hs'⟩

/-- Three clients, none in the list yet. -/
def threeClients : Server :=
  { initServer with clients := ⟨[some (newClient 5), some (newClient 6), some (newClient 7)]⟩ }

def keepEnv : Env where
  hash _ := 0
  released _ bs := bs

theorem mayCall_add (hnew : id ∉ added calls)
    (hlive : ∀ s, run (clientStep env) start calls = .ok s → ∃ c, s.clients.get id = some c) :
    MayCall env start calls (.add id) where
  add i h := by
    cases h
    exact ⟨hnew, hlive⟩
  delete i h := by cases h
  other work h := by cases h

theorem mayCall_delete (hid : id ∈ added calls) : MayCall env start calls (.delete id) where
  add i h := by cases h
  delete i h := by
    cases h
    exact hid
  other work h := by cases h

/-- Deletions in the middle, at the head, and of the only client. -/
theorem threeClients_calls : Each (MayCall keepEnv threeClients)
    [.add 0, .add 1, .add 2, .delete 1, .delete 2, .delete 0] := by
  apply each_of_getElem
  intro i hi
  rcases i with _ | _ | _ | _ | _ | _ | i
  · refine mayCall_add (by decide) fun s hs => ?_
    obtain rfl := Except.ok.inj hs
    exact ⟨_, rfl⟩
  · refine mayCall_add (by decide) fun s hs => ?_
    obtain rfl := Except.ok.inj hs
    exact ⟨_, rfl⟩
  · refine mayCall_add (by decide) fun s hs => ?_
    obtain rfl := Except.ok.inj hs
    exact ⟨_, rfl⟩
  · exact mayCall_delete (by decide)
  · exact mayCall_delete (by decide)
  · exact mayCall_delete (by decide)
  · simp only [List.length_cons, List.length_nil] at hi
    omega

theorem clientQueue_linked_three :
    StaysLinked keepEnv threeClients [.add 0, .add 1, .add 2, .delete 1, .delete 2, .delete 0] ∧
      ∃ s, run (clientStep keepEnv) threeClients [.add 0, .add 1, .add 2, .delete 1, .delete 2, .delete 0] = .ok s ∧
        s.clientQueue = none :=
  ⟨clientQueue_linked rfl threeClients_calls, _, rfl, rfl⟩

end BoAtom
