import BoAtom.Mem.Ledger
import BoAtom.Mem.Decoder
import BoAtom.RedisDict.DictMap
import Mathlib.Data.List.Induction

/-! # Representation invariants

    How the server's memory represents the decoder state of each client and
    the ledger.  Every block of the heap has an owner: an argument of a
    client's current command, a key or a value of the store, or nobody.  A
    block is in use only where its owner says so, which is what keeps one
    client's parsing, and a SET of one key, away from everything else.

    The owners are a ghost (`Ghost`); the predicates below tie it to the
    state.  `ClientRep` is about one client, `WorldRep` about what they
    share, and `Local` is the frame rule: a change to the command memory of
    one client keeps the rest. -/

namespace BoAtom

open Memory

/-! ## Section 1: Owners -/

inductive Owner where
  | nobody
  /-- Argument `i` of the current command of `me`. -/
  | arg (me : ClientId) (i : Nat)
  | key (k : Bytes)
  | val (k : Bytes)
  deriving DecidableEq

structure Ghost where
  block : Addr → Owner
  /-- The client a command was allocated for. -/
  cmd : CmdPtr → ClientId

/-- `o` owns the block at `a`, of `n` bytes, which holds `bs`. -/
def Owns (g : Ghost) (h : Heap) (a : Addr) (o : Owner) (n : Nat) (bs : Bytes) : Prop :=
  g.block a = o ∧ h.Holds a n bs

theorem Owns.lt {g : Ghost} {h : Heap} {a : Addr} {o : Owner} {n : Nat} {bs : Bytes}
    (ho : Owns g h a o n bs) : a < h.blocks.length := ho.2.lt

/-! ## Section 2: Commands -/

/-- What one argument of a command holds. -/
def SlotRep (g : Ghost) (h : Heap) (me : ClientId) (i : Nat) (value : Option Addr)
    (length pos : Nat) : Option (Nat × Bytes) → Prop
  | none => value = none ∧ length = 0 ∧ pos = 0
  | some (n, bs) =>
    ∃ a, value = some a ∧ Owns g h a (.arg me i) n bs ∧ length = n ∧ pos = bs.length

structure CmdRep (g : Ghost) (h : Heap) (me : ClientId) (cmd : Cmd) (dc : DecCmd) : Prop where
  argsNum : cmd.argsNum = dc.argc
  curItem : cmd.curItem = dc.items.length
  next : cmd.next = none
  slots : ∀ i : Fin cmdArgsMax,
    SlotRep g h me i (cmd.value i) (cmd.itemLength i) (cmd.itemPos i) (dc.slotAt i)
  size_gt : ∀ bs ∈ dc.items, 5 < bs.length
  part_lt : ∀ n bs, dc.part = some (n, bs) →
    bs.length < n ∧ 5 < n ∧ dc.items.length < cmdArgsMax
  argc_ne : dc.argc ≠ 0
  items_le : dc.items.length ≤ cmdArgsMax
  items_le_argc : 0 < dc.argc → (dc.items.length : Int) ≤ dc.argc

/-- The queue of a client is its current command, or empty. -/
def CurRep (g : Ghost) (w : World) (me : ClientId) (c : ClientStat) : Option DecCmd → Prop
  | none => c.curCmdItem = none ∧ c.recvCmdQueueHead = none ∧ c.recvCmdQueueTail = none
  | some dc => ∃ p cmd, c.curCmdItem = some p ∧ c.recvCmdQueueHead = some p ∧
      c.recvCmdQueueTail = some p ∧ w.cmds.get p = some cmd ∧ g.cmd p = me ∧
      CmdRep g w.heap me cmd dc

/-! ## Section 3: Responses -/

/-- An item of a queued response: a literal, or the value block of a key;
    the block is vouched for as long as the key has not been SET again. -/
def ItemRep (g : Ghost) (h : Heap) (p : Pending) (value : CharPtr) (item : Bytes) : Prop :=
  value = .lit item ∨
  ∃ a k, value = .heap a ∧ p.key = some k ∧
    (p.intact = true → Owns g h a (.val k) item.length item)

structure RespRep (g : Ghost) (h : Heap) (r : Response) (p : Pending) : Prop where
  argsNum : r.argsNum = p.items.length
  small : p.items.length ≤ 2
  item : ∀ (i : Fin cmdArgsMax) item, p.items[i.val]? = some item →
    ItemRep g h p (r.value i) item ∧ r.itemLength i = item.length
  curItem : r.curItem < p.items.length
  pos_le : ∀ i : Fin cmdArgsMax, i.val = r.curItem → r.itemPos i ≤ r.itemLength i
  later : ∀ i : Fin cmdArgsMax, r.curItem < i.val → r.itemPos i = 0
  sent : ∀ i : Fin cmdArgsMax, i.val = r.curItem →
    p.sent = (p.items.take r.curItem).flatten.length + r.itemPos i

def QueueRep (g : Ghost) (h : Heap) : List Response → List Pending → Prop :=
  List.Forall₂ (RespRep g h)

/-! ## Section 4: One client -/

structure ClientRep (g : Ghost) (w : World) (me : ClientId) (c : ClientStat) (d : Dec) : Prop where
  buf : c.recvCmd = d.buf
  pos : c.recvPos = d.pos
  got : receivedBy me w.trace = d.got
  handed : handedBy me w.trace = d.handed
  queue : QueueRep g w.heap c.sendResponseQueue ((Ledger.after w.trace).pending me)
  cur : CurRep g w me c d.cur

/-! ## Section 5: The store -/

/-- The content of a key. -/
def keyOf (h : Heap) (item : DictItem) : Bytes := loadItem h item.item item.length

def EntryRep (g : Ghost) (h : Heap) (store : Store) (e : DictEntry DictItem DictItem) : Prop :=
  ∃ k v ka va, e.key = ⟨some ka, k.length⟩ ∧ e.val = ⟨some va, v.length⟩ ∧
    Owns g h ka (.key k) k.length k ∧ Owns g h va (.val k) v.length v ∧ store k = some v

structure StoreRep (env : Env) (g : Ghost) (h : Heap) (d : Dict DictItem DictItem)
    (store : Store) : Prop where
  dict : d.Wf (dicttype env h) (keyOf h)
  entry : ∀ e ∈ d.entries, EntryRep g h store e
  complete : ∀ k v, store k = some v → ∃ e ∈ d.entries, keyOf h e.key = k

/-- What the clients share. -/
structure WorldRep (env : Env) (g : Ghost) (w : World) : Prop where
  store : StoreRep env g w.heap w.dict (Ledger.after w.trace).store
  consistent : Consistent w.trace
  orderly : ∀ x ∈ w.trace, x.Orderly
  once : (executedCmds w.trace).Nodup
  released : ∀ p ∈ executedCmds w.trace, p < w.cmds.cells.length ∧ w.cmds.get p = none

/-! ## Section 6: Basic facts -/

theorem keyOf_some {g : Ghost} {h : Heap} {a : Addr} {o : Owner} {k : Bytes}
    (ho : Owns g h a o k.length k) : keyOf h ⟨some a, k.length⟩ = k :=
  Heap.load_of_holds ho.2

@[simp] theorem length_keyOf (h : Heap) (item : DictItem) : (keyOf h item).length = item.length := by
  unfold keyOf loadItem
  split
  · exact length_readAs _ _
  · exact Heap.length_load

/-- The dict's functions look at keys through their content. -/
theorem dicttype_reads (env : Env) (h : Heap) : (dicttype env h).Reads (keyOf h) := by
  constructor
  · intro k k' hk
    show env.hash (keyOf h k) = env.hash (keyOf h k')
    rw [hk]
  · intro k k'
    show myKeyconpare h k k' = true ↔ _
    unfold myKeyconpare
    by_cases hlen : k.length = k'.length
    · rw [if_neg (by simpa using hlen), beq_iff_eq, hlen]
      unfold keyOf
      rw [hlen]
    · rw [if_pos hlen]
      refine ⟨fun hf => absurd hf (by simp), fun hk => ?_⟩
      have := congrArg List.length hk
      rw [length_keyOf, length_keyOf] at this
      exact absurd this hlen

theorem DecCmd.slotAt_part (dc : DecCmd) : dc.slotAt dc.items.length = dc.part := by
  simp [slotAt]

theorem DecCmd.slotAt_item {dc : DecCmd} {i : Nat} {bs : Bytes} (h : dc.items[i]? = some bs) :
    dc.slotAt i = some (bs.length, bs) := by
  have hlt : i < dc.items.length := (List.getElem?_eq_some_iff.mp h).1
  rw [slotAt, if_pos hlt, h]; rfl

theorem EntryRep.key {g : Ghost} {h : Heap} {store : Store} {e : DictEntry DictItem DictItem}
    (he : EntryRep g h store e) : ∃ v, store (keyOf h e.key) = some v := by
  obtain ⟨k, v, ka, va, hkey, -, hown, -, hstore⟩ := he
  rw [hkey, keyOf_some hown]
  exact ⟨v, hstore⟩

theorem CmdRep.mono {g g' : Ghost} {h h' : Heap} {me : ClientId} {cmd : Cmd} {dc : DecCmd}
    (hr : CmdRep g h me cmd dc)
    (hkeep : ∀ a i n bs, Owns g h a (.arg me i) n bs → Owns g' h' a (.arg me i) n bs) :
    CmdRep g' h' me cmd dc := by
  refine ⟨hr.argsNum, hr.curItem, hr.next, fun i => ?_, hr.size_gt, hr.part_lt, hr.argc_ne,
    hr.items_le, hr.items_le_argc⟩
  have hs := hr.slots i
  rcases hslot : dc.slotAt i with _ | ⟨n, bs⟩
  · rw [hslot] at hs
    exact hs
  · rw [hslot] at hs
    obtain ⟨a, hv, hown, hlen, hpos⟩ := hs
    exact ⟨a, hv, hkeep _ _ _ _ hown, hlen, hpos⟩

/-- The blocks of the store survive. -/
def KeepsStore (g : Ghost) (h : Heap) (g' : Ghost) (h' : Heap) : Prop :=
  (∀ a k n bs, Owns g h a (.key k) n bs → Owns g' h' a (.key k) n bs) ∧
  (∀ a k n bs, Owns g h a (.val k) n bs → Owns g' h' a (.val k) n bs)

theorem EntryRep.keyOf_eq {g g' : Ghost} {h h' : Heap} {store : Store}
    {e : DictEntry DictItem DictItem} (he : EntryRep g h store e)
    (hkeep : ∀ a k n bs, Owns g h a (.key k) n bs → Owns g' h' a (.key k) n bs) :
    keyOf h' e.key = keyOf h e.key := by
  obtain ⟨k, v, ka, va, hk, -, hown, -, -⟩ := he
  rw [hk, keyOf_some hown, keyOf_some (hkeep _ _ _ _ hown)]

/-- Reading the keys in another heap keeps the dict well formed. -/
theorem wf_dicttype_congr {env : Env} {h h' : Heap} {d : Dict DictItem DictItem}
    (hwf : d.Wf (dicttype env h) (keyOf h))
    (hsame : ∀ e ∈ d.entries, keyOf h' e.key = keyOf h e.key) :
    d.Wf (dicttype env h') (keyOf h') := by
  refine hwf.congr fun e he => ⟨?_, hsame e he⟩
  show env.hash (keyOf h' e.key) = env.hash (keyOf h e.key)
  rw [hsame e he]

theorem StoreRep.mono {env : Env} {g g' : Ghost} {h h' : Heap} {d : Dict DictItem DictItem}
    {store : Store} (hr : StoreRep env g h d store) (hkeep : KeepsStore g h g' h') :
    StoreRep env g' h' d store := by
  have hkey : ∀ e ∈ d.entries, keyOf h' e.key = keyOf h e.key :=
    fun e he => (hr.entry e he).keyOf_eq hkeep.1
  refine ⟨wf_dicttype_congr hr.dict hkey, fun e he => ?_, fun k v hkv => ?_⟩
  · obtain ⟨k, v, ka, va, hk, hv, hown, hown', hst⟩ := hr.entry e he
    exact ⟨k, v, ka, va, hk, hv, hkeep.1 _ _ _ _ hown, hkeep.2 _ _ _ _ hown', hst⟩
  · obtain ⟨e, he, hek⟩ := hr.complete k v hkv
    exact ⟨e, he, (hkey e he).trans hek⟩

/-- A dict that has just been created holds nothing. -/
theorem storeRep_init (env : Env) (g : Ghost) (h : Heap) (size : Nat) :
    StoreRep env g h (initDict size) fun _ => none := by
  obtain ⟨hwf, hentries⟩ : (initDict size).Wf (dicttype env h) (keyOf h) ∧
      (initDict size).entries = [] := dictExpand_dictCreate_wf size
  refine ⟨hwf, fun e he => ?_, fun k v hk => ?_⟩
  · rw [hentries] at he
    simp at he
  · simp at hk

/-! ## Section 7: Local changes -/

/-- Between two states only the command memory of `me`, its answers and
    unowned blocks have changed. -/
structure Local (me : ClientId) (g : Ghost) (w : World) (g' : Ghost) (w' : World) : Prop where
  block : ∀ a, a < w.heap.blocks.length → (∀ i, g.block a ≠ .arg me i) → g.block a ≠ .nobody →
    g'.block a = g.block a ∧ w'.heap.blocks[a]? = w.heap.blocks[a]?
  cmd : ∀ p, p < w.cmds.cells.length → g.cmd p ≠ me →
    g'.cmd p = g.cmd p ∧ w'.cmds.get p = w.cmds.get p
  released : ∀ p, p < w.cmds.cells.length → w.cmds.get p = none →
    p < w'.cmds.cells.length ∧ w'.cmds.get p = none
  dict : w'.dict = w.dict
  store : (Ledger.after w'.trace).store = (Ledger.after w.trace).store
  pending : ∀ me', me' ≠ me →
    (Ledger.after w'.trace).pending me' = (Ledger.after w.trace).pending me'
  got : ∀ me', me' ≠ me → receivedBy me' w'.trace = receivedBy me' w.trace
  handed : ∀ me', me' ≠ me → handedBy me' w'.trace = handedBy me' w.trace

variable {me : ClientId} {g g' : Ghost} {w w' : World}

/-- Blocks of the store and of other clients keep their owner and bytes. -/
theorem Local.owns (hl : Local me g w g' w') {a : Addr} {o : Owner} {n : Nat} {bs : Bytes}
    (ho : Owns g w.heap a o n bs) (harg : ∀ i, o ≠ .arg me i) (hno : o ≠ .nobody) :
    Owns g' w'.heap a o n bs := by
  obtain ⟨howner, hholds⟩ := ho
  obtain ⟨hg, hb⟩ := hl.block a hholds.lt (fun i => howner ▸ harg i) (howner ▸ hno)
  refine ⟨hg.trans howner, ?_⟩
  unfold Heap.Holds
  rw [hb]
  exact hholds

theorem Local.respRep (hl : Local me g w g' w') {r : Response} {p : Pending}
    (h : RespRep g w.heap r p) : RespRep g' w'.heap r p := by
  refine ⟨h.argsNum, h.small, fun i item hi => ?_, h.curItem, h.pos_le, h.later, h.sent⟩
  obtain ⟨hrep, hlen⟩ := h.item i item hi
  refine ⟨?_, hlen⟩
  rcases hrep with hlit | ⟨a, k, hv, hk, hown⟩
  · exact Or.inl hlit
  · exact Or.inr ⟨a, k, hv, hk, fun hint => hl.owns (hown hint) (by simp) (by simp)⟩

theorem Local.queueRep (hl : Local me g w g' w') {q : List Response} {ps : List Pending}
    (h : QueueRep g w.heap q ps) : QueueRep g' w'.heap q ps :=
  h.imp fun _ _ => hl.respRep

theorem Local.cmdRep (hl : Local me g w g' w') {me' : ClientId} (hne : me' ≠ me) {cmd : Cmd}
    {dc : DecCmd} (h : CmdRep g w.heap me' cmd dc) : CmdRep g' w'.heap me' cmd dc := by
  refine h.mono fun a i n bs ho => hl.owns ho (fun j hj => ?_) (by simp)
  cases hj
  exact hne rfl

/-- The other clients are not touched. -/
theorem Local.clientRep (hl : Local me g w g' w') {me' : ClientId} (hne : me' ≠ me)
    {c : ClientStat} {d : Dec} (h : ClientRep g w me' c d) : ClientRep g' w' me' c d := by
  refine ⟨h.buf, h.pos, (hl.got me' hne).trans h.got, (hl.handed me' hne).trans h.handed, ?_, ?_⟩
  · rw [hl.pending me' hne]
    exact hl.queueRep h.queue
  · have hcur := h.cur
    unfold CurRep at hcur ⊢
    split at hcur
    · exact hcur
    · obtain ⟨p, cmd, hc, hh, ht, hget, howner, hrep⟩ := hcur
      obtain ⟨hg, hc'⟩ := hl.cmd p (Pool.lt_of_get hget) (howner ▸ hne)
      exact ⟨p, cmd, hc, hh, ht, hc'.trans hget, hg.trans howner, hl.cmdRep hne hrep⟩

theorem Local.storeRep {env : Env} (hl : Local me g w g' w')
    (h : StoreRep env g w.heap w.dict (Ledger.after w.trace).store) :
    StoreRep env g' w'.heap w'.dict (Ledger.after w'.trace).store := by
  rw [hl.dict, hl.store]
  exact h.mono ⟨fun _ _ _ _ ho => hl.owns ho (by simp) (by simp),
    fun _ _ _ _ ho => hl.owns ho (by simp) (by simp)⟩

/-- A local change that only logs orderly entries keeps the shared part. -/
theorem Local.worldRep {env : Env} (hl : Local me g w g' w') (h : WorldRep env g w)
    {ext : List Happened} (htrace : w'.trace = w.trace ++ ext)
    (hext : ∀ x ∈ ext, x.Orderly ∧ ∀ i e, x ≠ .executed i e) : WorldRep env g' w' := by
  -- none of the new entries is an execution, so each extends a consistent trace
  have hcons : ∀ ext : List Happened, (∀ x ∈ ext, ∀ i e, x ≠ .executed i e) →
      Consistent (w.trace ++ ext) := by
    intro ext
    induction ext using List.reverseRec with
    | nil => intro _; simpa using h.consistent
    | append_singleton ext x ih =>
      intro hx
      rw [← List.append_assoc]
      refine consistent_snoc (ih fun y hy => hx y (by simp [hy])) fun i e he => ?_
      exact absurd he (hx x (by simp) i e)
  -- and the commands executed are the same
  have hexec : executedCmds w'.trace = executedCmds w.trace := by
    rw [htrace, executedCmds, executedCmds, List.filterMap_append, List.append_right_eq_self]
    rw [List.filterMap_eq_nil_iff]
    intro x hx
    split
    · next i e => exact absurd rfl ((hext _ hx).2 i e)
    · rfl
  refine ⟨hl.storeRep h.store, ?_, ?_, ?_, ?_⟩
  · rw [htrace]
    exact hcons ext fun x hx => (hext x hx).2
  · intro x hx
    rw [htrace, List.mem_append] at hx
    rcases hx with hx | hx
    · exact h.orderly x hx
    · exact (hext x hx).1
  · rw [hexec]
    exact h.once
  · intro p hp
    rw [hexec] at hp
    obtain ⟨hlt, hget⟩ := h.released p hp
    exact hl.released p hlt hget

/-! ## Section 8: A callback's client -/

structure ConnRep (env : Env) (g : Ghost) (c : Conn) (d : Dec) : Prop where
  world : WorldRep env g c.world
  client : ClientRep g c.world c.me c.client d

/-- What the work on one client leaves alone. -/
structure Frame (L : Happened → Prop) (g : Ghost) (c : Conn) (g' : Ghost) (c' : Conn) : Prop where
  me : c'.me = c.me
  fd : c'.client.fd = c.client.fd
  next : c'.client.next = c.client.next
  pre : c'.client.pre = c.client.pre
  trace : ∃ ext, c'.world.trace = c.world.trace ++ ext ∧ ∀ x ∈ ext, x.client = c.me ∧ L x
  others : ∀ me' cl d, me' ≠ c.me → ClientRep g c.world me' cl d → ClientRep g' c'.world me' cl d

variable {L : Happened → Prop}

theorem Frame.refl (g : Ghost) (c : Conn) : Frame L g c g c :=
  ⟨rfl, rfl, rfl, rfl, ⟨[], by simp, by simp⟩, fun _ _ _ _ h => h⟩

theorem Frame.trans {g₁ g₂ g₃ : Ghost} {c₁ c₂ c₃ : Conn} (h : Frame L g₁ c₁ g₂ c₂)
    (h' : Frame L g₂ c₂ g₃ c₃) : Frame L g₁ c₁ g₃ c₃ := by
  refine ⟨h'.me.trans h.me, h'.fd.trans h.fd, h'.next.trans h.next, h'.pre.trans h.pre, ?_, ?_⟩
  · obtain ⟨ext, hext, hmine⟩ := h.trace
    obtain ⟨ext', hext', hmine'⟩ := h'.trace
    refine ⟨ext ++ ext', by rw [hext', hext, List.append_assoc], fun x hx => ?_⟩
    rcases List.mem_append.mp hx with hx | hx
    · exact hmine x hx
    · exact ⟨(hmine' x hx).1.trans h.me, (hmine' x hx).2⟩
  · intro me' cl d hne hrep
    exact h'.others me' cl d (h.me ▸ hne) (h.others me' cl d hne hrep)

/-- A local change, as seen from the client it belongs to. -/
theorem Local.frame {g g' : Ghost} {c c' : Conn} (hl : Local c.me g c.world g' c'.world)
    (hme : c'.me = c.me) (hfd : c'.client.fd = c.client.fd)
    (hnext : c'.client.next = c.client.next) (hpre : c'.client.pre = c.client.pre)
    {ext : List Happened} (htrace : c'.world.trace = c.world.trace ++ ext)
    (hext : ∀ x ∈ ext, x.client = c.me ∧ L x) : Frame L g c g' c' :=
  ⟨hme, hfd, hnext, hpre, ⟨ext, htrace, hext⟩, fun _ _ _ hne h => hl.clientRep hne h⟩

/-- The links of the client list and the event loop are no part of the
    representation. -/
theorem ClientRep.relink {c : ClientStat} {d : Dec} (h : ClientRep g w me c d) (next pre : Option ClientId) :
    ClientRep g w me { c with next := next, pre := pre } d :=
  ⟨h.buf, h.pos, h.got, h.handed, h.queue, h.cur⟩

theorem ClientRep.reloop {c : ClientStat} {d : Dec} (h : ClientRep g w me c d)
    (loop : AeEventLoop FileProc ClientId) : ClientRep g { w with loop := loop } me c d :=
  ⟨h.buf, h.pos, h.got, h.handed, h.queue, h.cur⟩

theorem WorldRep.reloop {env : Env} (h : WorldRep env g w) (loop : AeEventLoop FileProc ClientId) :
    WorldRep env g { w with loop := loop } :=
  ⟨h.store, h.consistent, h.orderly, h.once, h.released⟩

theorem ConnRep.reloop {env : Env} {c : Conn} {d : Dec} (h : ConnRep env g c d)
    (loop : AeEventLoop FileProc ClientId) :
    ConnRep env g { c with world := { c.world with loop := loop } } d :=
  ⟨h.world.reloop loop, h.client.reloop loop⟩

theorem frame_reloop (g : Ghost) (c : Conn) (loop : AeEventLoop FileProc ClientId) :
    Frame L g c g { c with world := { c.world with loop := loop } } :=
  ⟨rfl, rfl, rfl, rfl, ⟨[], by simp, by simp⟩, fun _ _ _ _ h => h.reloop loop⟩

end BoAtom
