import BoAtom.Lib.History
import BoAtom.Mem.Cmd
import Mathlib.Logic.Function.Basic

/-! # The server as its clients see it

    What the component is for: a store that maps key items to value items,
    and for every client the answers it is still owed, in order.  `Ledger`
    is that abstract server.  It is driven by the log of a run, and knows
    nothing of heaps, hash tables or buffers.

    An answer found under a key is a copy of the value at that moment.  The
    ledger also notes whether the key has been SET again since (`intact`),
    and how many bytes of the answer have been written (`sent`). -/

namespace BoAtom

/-! ## Section 1: Requests and answers -/

/-- Value items by key item. -/
abbrev Store : Type := Bytes → Option Bytes

/-- What the items of a command ask for. -/
inductive Request where
  | set (key value : Bytes)
  | get (key : Bytes)
  | wrongArity (handler : Handler)
  | unknown
  deriving DecidableEq, Repr

/-- The comparisons `ALL_cmd` makes with the first item. -/
def isSetName (name : Bytes) : Bool := sameAs strSET name || sameAs strset name

def isGetName (name : Bytes) : Bool := sameAs strGET name || sameAs strget name

def request : List Bytes → Request
  | [] => .unknown
  | name :: args =>
    if isSetName name then
      match args with
      | [key, value] => .set key value
      | _ => .wrongArity .SET_cmd
    else if isGetName name then
      match args with
      | [key] | [key, _] => .get key
      | _ => .wrongArity .GET_cmd
    else .unknown

section request

variable {name : Bytes} {args : List Bytes}

theorem request_set (key value : Bytes) (h : isSetName name = true) :
    request [name, key, value] = .set key value := by
  simp [request, h]

theorem request_set_arity (h : isSetName name = true) (hargs : args.length ≠ 2) :
    request (name :: args) = .wrongArity .SET_cmd := by
  match args, hargs with
  | [], _ | [_], _ | _ :: _ :: _ :: _, _ => simp [request, h]
  | [_, _], hargs => exact absurd rfl hargs

theorem request_get (key extra : Bytes) (hs : isSetName name = false)
    (h : isGetName name = true) :
    request [name, key] = .get key ∧ request [name, key, extra] = .get key := by
  simp [request, hs, h]

theorem request_get_arity (hs : isSetName name = false) (h : isGetName name = true)
    (h1 : args.length ≠ 1) (h2 : args.length ≠ 2) :
    request (name :: args) = .wrongArity .GET_cmd := by
  match args, h1, h2 with
  | [], _, _ | _ :: _ :: _ :: _, _, _ => simp [request, hs, h]
  | [_], h1, _ => exact absurd rfl h1
  | [_, _], _, h2 => exact absurd rfl h2

theorem request_unknown (args : List Bytes) (hs : isSetName name = false)
    (h : isGetName name = false) :
    request (name :: args) = .unknown := by
  simp [request, hs, h]

/-- The fifth byte tells the names apart. -/
theorem sameAs_getElem {s : Bytes} (hlen : 5 < name.length) (h : sameAs s name = true) :
    name[4]? = (s ++ [0])[4]? := by
  unfold sameAs at h
  rw [beq_iff_eq] at h
  rw [h, List.getElem?_take, if_pos (by omega)]

theorem isGetName_of_isSetName (hlen : 5 < name.length) (h : isSetName name = true) :
    isGetName name = false := by
  by_contra hget
  rw [Bool.not_eq_false] at hget
  unfold isSetName at h
  unfold isGetName at hget
  rw [Bool.or_eq_true] at h hget
  rcases h with h | h <;> rcases hget with hget | hget <;>
    exact absurd ((sameAs_getElem hlen h).symm.trans (sameAs_getElem hlen hget)) (by decide)

end request

/-- A freed SET name does not read as a GET name.  `ALL_cmd` looks at the
    name once more after `SET_cmd` has freed it. -/
def Env.Quiet (env : Env) : Prop :=
  ∀ (a : Memory.Addr) (name : Bytes), 5 < name.length → isSetName name = true →
    isGetName (Memory.readAs (env.released a name) name.length) = false

theorem Env.quiet_of_kept {env : Env} (h : ∀ a bs, env.released a bs = bs) : env.Quiet := by
  intro a name hlen hset
  rw [h, Memory.readAs_length]
  exact isGetName_of_isSetName hlen hset

namespace Request

/-- The items of the response, `none` for no response at all. -/
def answer (store : Store) : Request → Option (List Bytes)
  | .set _ _ => some [setOkStr]
  | .get key =>
    match store key with
    | some value => some [num1, value]
    | none => some [setErrStr]
  | .wrongArity _ => some [setErrStr]
  | .unknown => none

def effect (store : Store) : Request → Store
  | .set key value => Function.update store key (some value)
  | _ => store

def calls : Request → List Handler
  | .set _ _ => [.SET_cmd]
  | .get _ => [.GET_cmd]
  | .wrongArity handler => [handler]
  | .unknown => []

theorem length_calls (r : Request) : r.calls.length ≤ 1 := by
  cases r <;> simp [calls]

/-- The key whose stored value an answer consists of. -/
def source (store : Store) : Request → Option Bytes
  | .get key => (store key).map fun _ => key
  | _ => none

end Request

/-! ## Section 2: The ledger -/

/-- An answer that has not been written out. -/
structure Pending where
  items : List Bytes
  key : Option Bytes
  intact : Bool
  sent : Nat
  deriving DecidableEq, Repr

/-- The bytes a client is to receive for the answer. -/
def Pending.content (p : Pending) : Bytes := p.items.flatten

/-- The value the answer was taken from is replaced. -/
def Pending.overwrite (key : Bytes) (p : Pending) : Pending :=
  if p.key = some key then { p with intact := false } else p

structure Ledger where
  store : Store
  pending : ClientId → List Pending

namespace Ledger

def init : Ledger := { store := fun _ => none, pending := fun _ => [] }

/-- What executing a request does to the answers that are owed. -/
def disturb (l : Ledger) : Request → ClientId → List Pending
  | .set key _ => fun me => (l.pending me).map (Pending.overwrite key)
  | _ => l.pending

def execute (l : Ledger) (me : ClientId) (r : Request) : Ledger :=
  { store := r.effect l.store
    pending :=
      match r.answer l.store with
      | none => l.disturb r
      | some items => Function.update (l.disturb r) me
          (l.disturb r me ++ [⟨items, r.source l.store, true, 0⟩]) }

/-- `n` more bytes of the first answer are written. -/
def progress (n : Nat) : List Pending → List Pending
  | [] => []
  | p :: ps => { p with sent := p.sent + n } :: ps

def next (l : Ledger) : Happened → Ledger
  | .executed me e => l.execute me (request e.items)
  | .wrote me bs => { l with pending := Function.update l.pending me (progress bs.length (l.pending me)) }
  | .finished me => { l with pending := Function.update l.pending me (l.pending me).tail }
  | .closed me => { l with pending := Function.update l.pending me [] }
  | .received _ _ | .inserted _ _ _ | .dropped _ _ _ => l

@[simp] theorem next_wrote (l : Ledger) (me : ClientId) (bs : Bytes) :
    (l.next (.wrote me bs)).pending me = progress bs.length (l.pending me) := by simp [next]

@[simp] theorem next_finished (l : Ledger) (me : ClientId) :
    (l.next (.finished me)).pending me = (l.pending me).tail := by simp [next]

/-- The ledger after a run. -/
def after (trace : List Happened) : Ledger := trace.foldl next init

theorem execute_pending_other (l : Ledger) {me me' : ClientId} (h : me' ≠ me) (r : Request) :
    (l.execute me r).pending me' = l.disturb r me' := by
  unfold execute
  split <;> simp [h]

@[simp] theorem after_nil : after [] = init := rfl

@[simp] theorem after_snoc (trace : List Happened) (x : Happened) :
    after (trace ++ [x]) = (after trace).next x := by simp [after]

end Ledger

/-! ## Section 3: One client's share of a log -/

/-- The client an entry is about. -/
def Happened.client : Happened → ClientId
  | .received me _ | .inserted me _ _ | .dropped me _ _ | .executed me _ | .wrote me _
  | .finished me | .closed me => me

/-- An entry of `recv_cmd_handle`, as long as the connection stands. -/
def Happened.Receiving : Happened → Prop
  | .wrote _ _ | .finished _ | .closed _ => False
  | _ => True

/-- The bytes read from a client. -/
def receivedBy (me : ClientId) (trace : List Happened) : Bytes :=
  trace.flatMap fun
    | .received i bs => if i = me then bs else []
    | _ => []

/-- The commands of a client that `ALL_cmd` executed. -/
def handedBy (me : ClientId) (trace : List Happened) : List (List Bytes) :=
  trace.filterMap fun
    | .executed i e => if i = me then some e.items else none
    | _ => none

/-- The responses `ALL_cmd` appended to a client's queue. -/
def appendedBy (me : ClientId) (trace : List Happened) : List (List Bytes) :=
  trace.filterMap fun
    | .executed i e => if i = me then e.res else none
    | _ => none

/-- The bytes the socket of a client accepted. -/
def sentBy (me : ClientId) (trace : List Happened) : Bytes :=
  trace.flatMap fun
    | .wrote i bs => if i = me then bs else []
    | _ => []

/-- The commands that were executed. -/
def executedCmds (trace : List Happened) : List CmdPtr :=
  trace.filterMap fun
    | .executed _ e => some e.cmd
    | _ => none

section projections

variable (me : ClientId) (trace : List Happened) (x : Happened)

@[simp] theorem receivedBy_snoc :
    receivedBy me (trace ++ [x]) = receivedBy me trace ++ receivedBy me [x] := by
  simp [receivedBy]

@[simp] theorem handedBy_snoc :
    handedBy me (trace ++ [x]) = handedBy me trace ++ handedBy me [x] := by
  simp [handedBy]

@[simp] theorem appendedBy_snoc :
    appendedBy me (trace ++ [x]) = appendedBy me trace ++ appendedBy me [x] := by
  simp [appendedBy]

@[simp] theorem sentBy_snoc :
    sentBy me (trace ++ [x]) = sentBy me trace ++ sentBy me [x] := by
  simp [sentBy]

@[simp] theorem executedCmds_snoc :
    executedCmds (trace ++ [x]) = executedCmds trace ++ executedCmds [x] := by
  simp [executedCmds]

variable {me trace} {ext : List Happened}

/-- Entries about others are not in a client's share. -/
theorem receivedBy_append_other (h : ∀ y ∈ ext, y.client ≠ me) :
    receivedBy me (trace ++ ext) = receivedBy me trace := by
  rw [receivedBy, List.flatMap_append, ← receivedBy, List.append_right_eq_self,
    List.flatMap_eq_nil_iff]
  intro y hy
  cases y with
  | received i bs => exact if_neg (h _ hy)
  | _ => rfl

theorem handedBy_append_other (h : ∀ y ∈ ext, y.client ≠ me) :
    handedBy me (trace ++ ext) = handedBy me trace := by
  rw [handedBy, List.filterMap_append, ← handedBy, List.append_right_eq_self,
    List.filterMap_eq_nil_iff]
  intro y hy
  cases y with
  | executed i e => exact if_neg (h _ hy)
  | _ => rfl

theorem receivedBy_unknown (h : ∀ y ∈ ext, y.client ≠ me) : receivedBy me ext = [] := by
  have hnil : receivedBy me ([] ++ ext) = receivedBy me [] := receivedBy_append_other h
  exact hnil

theorem handedBy_unknown (h : ∀ y ∈ ext, y.client ≠ me) : handedBy me ext = [] := by
  have hnil : handedBy me ([] ++ ext) = handedBy me [] := handedBy_append_other h
  exact hnil

end projections

/-- A client the log does not mention is owed nothing. -/
theorem Ledger.pending_unknown {me : ClientId} {trace : List Happened}
    (h : ∀ x ∈ trace, x.client ≠ me) : (Ledger.after trace).pending me = [] := by
  induction trace using List.reverseRec with
  | nil => rfl
  | append_singleton trace x ih =>
    have hold := ih fun y hy => h y (List.mem_append_left _ hy)
    have hx : x.client ≠ me := h x (by simp)
    rw [Ledger.after_snoc]
    cases x with
    | executed i e =>
      show ((Ledger.after trace).execute i _).pending me = []
      have hne : me ≠ i := hx.symm
      rw [Ledger.execute_pending_other _ hne]
      unfold Ledger.disturb
      rcases request e.items with ⟨key, value⟩ | key | handler | _
      · show ((Ledger.after trace).pending me).map _ = []
        rw [hold]
        rfl
      all_goals exact hold
    | wrote i bs => exact (Function.update_of_ne hx.symm _ _).trans hold
    | finished i => exact (Function.update_of_ne hx.symm _ _).trans hold
    | closed i => exact (Function.update_of_ne hx.symm _ _).trans hold
    | received _ _ | inserted _ _ _ | dropped _ _ _ => exact hold

/-- Only an execution changes the store. -/
theorem Ledger.store_append {trace ext : List Happened}
    (h : ∀ x ∈ ext, ∀ me e, x ≠ .executed me e) :
    (Ledger.after (trace ++ ext)).store = (Ledger.after trace).store := by
  induction ext using List.reverseRec with
  | nil => rw [List.append_nil]
  | append_singleton ext x ih =>
    have hold := ih fun y hy => h y (List.mem_append_left _ hy)
    rw [← List.append_assoc, Ledger.after_snoc, ← hold]
    cases x with
    | executed me e => exact absurd rfl (h _ (by simp) me e)
    | received _ _ | inserted _ _ _ | dropped _ _ _ | wrote _ _ | finished _ | closed _ => rfl

/-! ## Section 4: A log in order -/

/-- Every executed command got the answer the store held for it, and ran
    the function its name asks for. -/
def Consistent (trace : List Happened) : Prop :=
  ∀ before me e later, trace = before ++ .executed me e :: later →
    e.res = (request e.items).answer (Ledger.after before).store ∧
    e.calls = (request e.items).calls

/-- Commands are inserted into an empty queue, dropped from its head, and
    executed when every item has been received in full. -/
def Happened.Orderly : Happened → Prop
  | .inserted _ _ emptyBefore => emptyBefore = true
  | .dropped _ meant head => meant = head
  | .executed _ e => e.received = e.items.map fun bs => (bs.length, bs.length)
  | _ => True

theorem consistent_iff_each {trace : List Happened} :
    Consistent trace ↔ History.Each (fun before x => ∀ me e, x = .executed me e →
      e.res = (request e.items).answer (Ledger.after before).store ∧
      e.calls = (request e.items).calls) trace := by
  constructor
  · rintro h before _ later hsplit me e rfl
    exact h before me e later hsplit
  · intro h before me e later hsplit
    exact h before _ later hsplit me e rfl

theorem consistent_nil : Consistent [] := consistent_iff_each.mpr History.each_nil

theorem idle_of_handedBy {me : ClientId} {l : List Happened} (hmine : ∀ x ∈ l, x.client = me)
    (h : handedBy me l = []) : ∀ x ∈ l, ∀ i e, x ≠ .executed i e := by
  rintro x hx i e rfl
  have hi : i = me := hmine _ hx
  have hnone := List.filterMap_eq_nil_iff.mp h _ hx
  simp [hi] at hnone

theorem appendedBy_idle {me : ClientId} {l : List Happened} (h : ∀ x ∈ l, ∀ i e, x ≠ .executed i e) :
    appendedBy me l = [] := by
  unfold appendedBy
  rw [List.filterMap_eq_nil_iff]
  intro x hx
  cases x with
  | executed i e => exact absurd rfl (h _ hx i e)
  | received _ _ | inserted _ _ _ | dropped _ _ _ | wrote _ _ | finished _ | closed _ => rfl

/-- What one execution of `me` adds to its responses and to the store. -/
theorem Consistent.one_execution {trace ext : List Happened} {me : ClientId} {items : List Bytes}
    (h : Consistent (trace ++ ext)) (hmine : ∀ x ∈ ext, x.client = me)
    (hone : handedBy me ext = [items]) :
    appendedBy me ext = ((request items).answer (Ledger.after trace).store).toList ∧
    (Ledger.after (trace ++ ext)).store = (request items).effect (Ledger.after trace).store := by
  obtain ⟨ext₁, x, ext₂, rfl, hnone₁, hx, hnone₂⟩ := List.filterMap_eq_cons_iff.mp hone
  have hidle₁ : ∀ y ∈ ext₁, ∀ i e, y ≠ .executed i e :=
    idle_of_handedBy (fun y hy => hmine y (by simp [hy])) (List.filterMap_eq_nil_iff.mpr hnone₁)
  have hidle₂ : ∀ y ∈ ext₂, ∀ i e, y ≠ .executed i e :=
    idle_of_handedBy (fun y hy => hmine y (by simp [hy])) hnone₂
  cases x with
  | executed i e =>
    have hi : i = me := hmine (.executed i e) (by simp)
    subst hi
    have hitems : e.items = items := by simpa using hx
    obtain ⟨hres, -⟩ := h (trace ++ ext₁) i e ext₂ (by simp)
    rw [hitems, Ledger.store_append hidle₁] at hres
    constructor
    · have hsplit : appendedBy i (ext₁ ++ .executed i e :: ext₂) =
          appendedBy i ext₁ ++ (e.res.toList ++ appendedBy i ext₂) := by
        unfold appendedBy
        rw [List.filterMap_append, List.filterMap_cons]
        rcases hr : e.res with _ | r <;> simp [hr]
      rw [hsplit, appendedBy_idle hidle₁, appendedBy_idle hidle₂, hres]
      simp
    · have hassoc : trace ++ (ext₁ ++ .executed i e :: ext₂) =
          ((trace ++ ext₁) ++ [.executed i e]) ++ ext₂ := by simp
      rw [hassoc, Ledger.store_append hidle₂, Ledger.after_snoc]
      show (request e.items).effect (Ledger.after (trace ++ ext₁)).store = _
      rw [hitems, Ledger.store_append hidle₁]
  | received _ _ | inserted _ _ _ | dropped _ _ _ | wrote _ _ | finished _ | closed _ => simp at hx

theorem consistent_snoc {trace : List Happened} {x : Happened} (h : Consistent trace)
    (hx : ∀ me e, x = .executed me e →
      e.res = (request e.items).answer (Ledger.after trace).store ∧
      e.calls = (request e.items).calls) : Consistent (trace ++ [x]) := by
  rw [consistent_iff_each, History.each_snoc]
  exact ⟨consistent_iff_each.mp h, hx⟩

end BoAtom
