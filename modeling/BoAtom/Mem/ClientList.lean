import BoAtom.Mem.TcpServer

/-! # The list of clients

    `ClientQueue` and the `next` and `pre` pointers form a doubly linked
    list of exactly the live clients.  `clientAdd` puts a client in front,
    the unlinking of `clientDelete` takes one out wherever it stands, and
    neither follows a NULL or stale pointer nor touches anything else in a
    client. -/

namespace BoAtom

open Memory

/-! ## Section 1: Segments -/

/-- The client before what follows a segment. -/
def lastOr (before : Option ClientId) (l : List ClientId) : Option ClientId :=
  match l.getLast? with
  | none => before
  | some id => some id

/-- From `q` the `next` pointers run through `l` and end in `after`; each
    `pre` is the predecessor, and `before` for the first. -/
def Seg (clients : Pool ClientStat) : Option ClientId → Option ClientId → List ClientId →
    Option ClientId → Prop
  | _, q, [], after => q = after
  | before, q, id :: rest, after => q = some id ∧
      ∃ c, clients.get id = some c ∧ c.pre = before ∧ Seg clients (some id) c.next rest after

variable {clients clients' : Pool ClientStat} {before q after : Option ClientId}
  {l r : List ClientId} {id : ClientId}

@[simp] theorem lastOr_nil (before : Option ClientId) : lastOr before [] = before := rfl

@[simp] theorem lastOr_snoc (before : Option ClientId) (l : List ClientId) (id : ClientId) :
    lastOr before (l ++ [id]) = some id := by simp [lastOr]

theorem lastOr_cons (before : Option ClientId) (l : List ClientId) (id : ClientId) :
    lastOr before (id :: l) = lastOr (some id) l := by
  unfold lastOr
  rw [List.getLast?_cons]
  rcases l.getLast? with _ | x <;> rfl

theorem seg_append : Seg clients before q (l ++ r) after ↔
    ∃ mid, Seg clients before q l mid ∧ Seg clients (lastOr before l) mid r after := by
  induction l generalizing before q with
  | nil =>
    simp only [List.nil_append, Seg, lastOr_nil]
    exact ⟨fun h => ⟨q, rfl, h⟩, fun ⟨mid, hq, h⟩ => hq ▸ h⟩
  | cons x l ih =>
    simp only [List.cons_append, Seg, lastOr_cons]
    constructor
    · rintro ⟨hq, c, hget, hpre, h⟩
      obtain ⟨mid, hl, hr⟩ := ih.mp h
      exact ⟨mid, ⟨hq, c, hget, hpre, hl⟩, hr⟩
    · rintro ⟨mid, ⟨hq, c, hget, hpre, hl⟩, hr⟩
      exact ⟨hq, c, hget, hpre, ih.mpr ⟨mid, hl, hr⟩⟩

theorem Seg.congr (h : Seg clients before q l after)
    (hsame : ∀ id ∈ l, clients'.get id = clients.get id) : Seg clients' before q l after := by
  induction l generalizing before q with
  | nil => exact h
  | cons x l ih =>
    obtain ⟨hq, c, hget, hpre, hrest⟩ := h
    exact ⟨hq, c, (hsame x List.mem_cons_self).trans hget, hpre,
      ih hrest fun id hid => hsame id (List.mem_cons_of_mem _ hid)⟩

/-- Only the links count. -/
theorem Seg.congr_links (h : Seg clients before q l after)
    (hsame : ∀ id ∈ l, ∀ c, clients.get id = some c →
      ∃ c', clients'.get id = some c' ∧ c'.next = c.next ∧ c'.pre = c.pre) :
    Seg clients' before q l after := by
  induction l generalizing before q with
  | nil => exact h
  | cons x l ih =>
    obtain ⟨hq, c, hget, hpre, hrest⟩ := h
    obtain ⟨c', hget', hnext', hpre'⟩ := hsame x List.mem_cons_self c hget
    refine ⟨hq, c', hget', hpre'.trans hpre, ?_⟩
    rw [hnext']
    exact ih hrest fun id hid => hsame id (List.mem_cons_of_mem _ hid)

theorem Seg.live (h : Seg clients before q l after) (hid : id ∈ l) :
    ∃ c, clients.get id = some c := by
  induction l generalizing before q with
  | nil => simp at hid
  | cons x l ih =>
    obtain ⟨-, c, hget, -, hrest⟩ := h
    rcases List.mem_cons.mp hid with rfl | hid
    · exact ⟨c, hget⟩
    · exact ih hrest hid

theorem Seg.head_mem (h : Seg clients before q l after) (hne : l ≠ []) : ∃ y ∈ l, q = some y := by
  rcases l with _ | ⟨y, l⟩
  · exact absurd rfl hne
  · exact ⟨y, List.mem_cons_self, h.1⟩

theorem get_set_mem {x : ClientId} {c : ClientStat} (hx : x ∉ l) :
    ∀ id ∈ l, (clients.set x c).get id = clients.get id := by
  intro id hid
  apply Pool.get_set_ne
  rintro rfl
  exact hx hid

/-- The last `next` of a segment is redirected. -/
theorem Seg.set_next {x : ClientId} {c : ClientStat} {n : Option ClientId}
    (h : Seg clients before q (l ++ [x]) after) (hx : x ∉ l) (hget : clients.get x = some c) :
    Seg (clients.set x { c with next := n }) before q (l ++ [x]) n := by
  obtain ⟨mid, hl, hmid, c', hget', hpre, -⟩ := seg_append.mp h
  rw [hget] at hget'
  cases hget'
  refine seg_append.mpr ⟨mid, hl.congr (get_set_mem hx), hmid, _, Pool.get_set_self hget, hpre, rfl⟩

/-- The first `pre` of a segment is redirected. -/
theorem Seg.set_pre {y : ClientId} {c : ClientStat} {p : Option ClientId}
    (h : Seg clients before q (y :: r) after) (hy : y ∉ r) (hget : clients.get y = some c) :
    Seg (clients.set y { c with pre := p }) p q (y :: r) after := by
  obtain ⟨hq, c', hget', -, hrest⟩ := h
  rw [hget] at hget'
  cases hget'
  exact ⟨hq, _, Pool.get_set_self hget, rfl, hrest.congr (get_set_mem hy)⟩

/-! ## Section 2: What relinking leaves alone -/

/-- The clients are the same but for their links. -/
def Relinked (clients clients' : Pool ClientStat) : Prop :=
  clients'.cells.length = clients.cells.length ∧
  ∀ id, (clients.get id = none → clients'.get id = none) ∧
    ∀ c, clients.get id = some c → ∃ n p, clients'.get id = some { c with next := n, pre := p }

theorem Relinked.refl (clients : Pool ClientStat) : Relinked clients clients :=
  ⟨rfl, fun _ => ⟨id, fun c h => ⟨c.next, c.pre, h⟩⟩⟩

theorem Relinked.trans {clients'' : Pool ClientStat} (h : Relinked clients clients')
    (h' : Relinked clients' clients'') : Relinked clients clients'' := by
  refine ⟨h'.1.trans h.1, fun id => ⟨fun hn => (h'.2 id).1 ((h.2 id).1 hn), fun c hc => ?_⟩⟩
  obtain ⟨n, p, hc'⟩ := (h.2 id).2 c hc
  obtain ⟨n', p', hc''⟩ := (h'.2 id).2 _ hc'
  exact ⟨n', p', hc''⟩

/-- Relinking makes no client. -/
theorem Relinked.back {c' : ClientStat} (h : Relinked clients clients') (hget : clients'.get id = some c') :
    ∃ c n p, clients.get id = some c ∧ c' = { c with next := n, pre := p } := by
  rcases hc : clients.get id with _ | c
  · rw [(h.2 id).1 hc] at hget
    simp at hget
  · obtain ⟨n, p, hlinked⟩ := (h.2 id).2 c hc
    exact ⟨c, n, p, rfl, Option.some.inj (hget.symm.trans hlinked)⟩

theorem relinked_set {x : ClientId} {c : ClientStat} (n p : Option ClientId)
    (hget : clients.get x = some c) : Relinked clients (clients.set x { c with next := n, pre := p }) := by
  refine ⟨by simp [Pool.set], fun id => ?_⟩
  by_cases hid : id = x
  · subst hid
    refine ⟨fun hn => by rw [hget] at hn; simp at hn, fun c' hc' => ?_⟩
    rw [hget] at hc'
    cases hc'
    exact ⟨n, p, Pool.get_set_self hget⟩
  · rw [Pool.get_set_ne hid]
    exact ⟨fun hn => hn, fun c' hc' => ⟨c'.next, c'.pre, hc'⟩⟩

/-! ## Section 3: The whole list -/

/-- `ClientQueue` lists the live clients, each once. -/
structure Listed (s : Server) (order : List ClientId) : Prop where
  seg : Seg s.clients none s.clientQueue order none
  nodup : order.Nodup
  live : ∀ id c, s.clients.get id = some c → id ∈ order

/-- A client is changed, but not its links. -/
theorem Listed.setClient {s : Server} {order : List ClientId} {c c' : ClientStat}
    (h : Listed s order) (hget : s.clients.get id = some c) (hnext : c'.next = c.next)
    (hpre : c'.pre = c.pre) (w : World) : Listed { s.setClient id c' with world := w } order := by
  refine ⟨h.seg.congr_links fun i _ ci hi => ?_, h.nodup, fun i ci hi => ?_⟩
  · by_cases hid : i = id
    · subst hid
      rw [hget] at hi
      cases hi
      exact ⟨c', Pool.get_set_self hget, hnext, hpre⟩
    · exact ⟨ci, (Pool.get_set_ne hid).trans hi, rfl, rfl⟩
  · by_cases hid : i = id
    · subst hid
      exact h.live i c hget
    · exact h.live i ci ((Pool.get_set_ne hid).symm.trans hi)

theorem derefClient_some {s : Server} {c : ClientStat} (h : s.clients.get id = some c) :
    derefClient s (some id) = .ok (id, c) := by
  simp [derefClient, h]

/-- `if (q) q->pre = p`, for the client a segment starts with. -/
theorem setPre_spec {s : Server} (p : Option ClientId) (h : Seg s.clients before q l none)
    (hnd : l.Nodup) :
    ∃ clients', setPre s q p = .ok { s with clients := clients' } ∧
      Seg clients' p q l none ∧ Relinked s.clients clients' ∧
      ∀ id, id ∉ l → clients'.get id = s.clients.get id := by
  rcases l with _ | ⟨y, rest⟩
  · have hq : q = none := h
    subst hq
    exact ⟨s.clients, by simp [setPre], rfl, Relinked.refl _, fun _ _ => rfl⟩
  · obtain ⟨hq, c, hget, hpre, hrest⟩ := h
    subst hq
    have hy := (List.nodup_cons.mp hnd).1
    refine ⟨s.clients.set y { c with pre := p }, ?_, ?_, relinked_set c.next p hget, fun id hid => ?_⟩
    · simp [setPre, derefClient_some hget, bind, Except.bind, Server.setClient]
    · have hold : Seg s.clients before (some y) (y :: rest) none := ⟨rfl, c, hget, hpre, hrest⟩
      exact hold.set_pre hy hget
    · apply Pool.get_set_ne
      rintro rfl
      exact hid List.mem_cons_self

/-- `clientAdd` of a client that is not listed yet. -/
theorem clientAdd_seg {s : Server} {order : List ClientId} {c : ClientStat}
    (hseg : Seg s.clients none s.clientQueue order none) (hnd : order.Nodup)
    (hget : s.clients.get id = some c) (hnew : id ∉ order) :
    ∃ s', clientAdd s id = .ok s' ∧ Seg s'.clients none s'.clientQueue (id :: order) none ∧
      Relinked s.clients s'.clients ∧ s'.world = s.world := by
  have hmine : (s.clients.set id { c with next := s.clientQueue }).get id =
      some { c with next := s.clientQueue } := Pool.get_set_self hget
  -- the old head gets its `pre`; `id` is not in the list and is not touched by it
  obtain ⟨clients₂, hset, hseg₂, hrel₂, hsame₂⟩ := setPre_spec
    (s := s.setClient id { c with next := s.clientQueue }) (some id)
    (hseg.congr (get_set_mem hnew)) hnd
  have hmine₂ : clients₂.get id = some { c with next := s.clientQueue } :=
    (hsame₂ id hnew).trans hmine
  have hrel : Relinked s.clients (clients₂.set id { c with next := s.clientQueue, pre := none }) := by
    apply Relinked.trans _ (relinked_set s.clientQueue none hmine₂)
    exact Relinked.trans (relinked_set s.clientQueue c.pre hget) hrel₂
  refine ⟨⟨clients₂.set id { c with next := s.clientQueue, pre := none }, some id, s.world⟩, ?_,
    ⟨rfl, _, Pool.get_set_self hmine₂, rfl, hseg₂.congr (get_set_mem hnew)⟩, hrel, rfl⟩
  have hset' : setPre (s.setClient id { c with next := s.clientQueue })
      (s.setClient id { c with next := s.clientQueue }).clientQueue (some id) =
      .ok { s with clients := clients₂ } := hset
  have hdown : derefClient { s with clients := clients₂, clientQueue := some id } (some id) =
      .ok (id, { c with next := s.clientQueue }) := derefClient_some hmine₂
  simp only [clientAdd, derefClient_some hget, bind, Except.bind, hset']
  rw [hdown]
  rfl

theorem clientAdd_spec {s : Server} {order : List ClientId} {c : ClientStat}
    (hseg : Seg s.clients none s.clientQueue order none) (hnd : order.Nodup)
    (hget : s.clients.get id = some c) (hnew : id ∉ order)
    (hlive : ∀ id' c', s.clients.get id' = some c' → id' ≠ id → id' ∈ order) :
    ∃ s', clientAdd s id = .ok s' ∧ Listed s' (id :: order) ∧
      Relinked s.clients s'.clients ∧ s'.world = s.world := by
  obtain ⟨s', hadd, hseg', hrel, hworld⟩ := clientAdd_seg hseg hnd hget hnew
  refine ⟨s', hadd, ⟨hseg', List.nodup_cons.mpr ⟨hnew, hnd⟩, fun id' c' hget' => ?_⟩, hrel, hworld⟩
  by_cases hid : id' = id
  · rw [hid]
    exact List.mem_cons_self
  · obtain ⟨c₀, -, -, hold, -⟩ := hrel.back hget'
    exact List.mem_cons_of_mem _ (hlive id' c₀ hold hid)

/-- A new client is allocated and put in front of the list. -/
structure Added (fd : Nat) (order : List ClientId) (s s' : Server) : Prop where
  listed : Listed s' (s.clients.cells.length :: order)
  world : s'.world = s.world
  cells : s'.clients.cells.length = s.clients.cells.length + 1
  new : ∃ n p, s'.clients.get s.clients.cells.length = some { newClient fd with next := n, pre := p }
  kept : ∀ i c, s.clients.get i = some c → ∃ n p, s'.clients.get i = some { c with next := n, pre := p }
  back : ∀ i c', i ≠ s.clients.cells.length → s'.clients.get i = some c' →
    ∃ c n p, s.clients.get i = some c ∧ c' = { c with next := n, pre := p }

theorem addClient_spec {s : Server} {order : List ClientId} (h : Listed s order) (fd : Nat) :
    ∃ s', clientAdd { s with clients := (s.clients.alloc (newClient fd)).2 } s.clients.cells.length = .ok s' ∧
      Added fd order s s' := by
  have hold : ∀ i c, s.clients.get i = some c → (s.clients.alloc (newClient fd)).2.get i = some c :=
    fun i c hc => Pool.get_alloc_of_get hc
  have hnew : (s.clients.alloc (newClient fd)).2.get s.clients.cells.length = some (newClient fd) :=
    Pool.get_alloc_new _ _
  have hfresh : s.clients.cells.length ∉ order := by
    intro hmem
    obtain ⟨c, hc⟩ := h.seg.live hmem
    exact absurd (Pool.lt_of_get hc) (lt_irrefl _)
  have hseg : Seg (s.clients.alloc (newClient fd)).2 none s.clientQueue order none := by
    apply h.seg.congr
    intro i hi
    obtain ⟨c, hc⟩ := h.seg.live hi
    rw [hc]
    exact hold i c hc
  have hlive : ∀ i c, (s.clients.alloc (newClient fd)).2.get i = some c → i ≠ s.clients.cells.length →
      i ∈ order := by
    intro i c hc hi
    exact h.live i c ((Pool.get_alloc_ne hi).symm.trans hc)
  obtain ⟨s', hadd, hlisted, hrelinked, hworld⟩ := clientAdd_spec
    (s := { s with clients := (s.clients.alloc (newClient fd)).2 }) hseg h.nodup hnew hfresh hlive
  refine ⟨s', hadd, hlisted, hworld, ?_, (hrelinked.2 _).2 _ hnew,
    fun i c hc => (hrelinked.2 i).2 c (hold i c hc), ?_⟩
  · rw [hrelinked.1]
    simp [Pool.alloc]
  · intro i c' hi hc'
    obtain ⟨c, n, p, hc, hlinked⟩ := hrelinked.back hc'
    exact ⟨c, n, p, (Pool.get_alloc_ne hi).symm.trans hc, hlinked⟩

theorem Added.isSome_iff {fd : Nat} {order : List ClientId} {s s' : Server} (h : Added fd order s s')
    (hid : id ≠ s.clients.cells.length) : (s'.clients.get id).isSome ↔ (s.clients.get id).isSome := by
  simp only [Option.isSome_iff_exists]
  constructor
  · rintro ⟨c', hc'⟩
    obtain ⟨c, -, -, hc, -⟩ := h.back id c' hid hc'
    exact ⟨c, hc⟩
  · rintro ⟨c, hc⟩
    obtain ⟨n, p, hc'⟩ := h.kept id c hc
    exact ⟨_, hc'⟩

/-- The unlinking of `clientDelete`. -/
def unlink (s : Server) (tmp : ClientId) (client : ClientStat) : Except Fault Server :=
  if some tmp = s.clientQueue then setPre { s with clientQueue := client.next } client.next none
  else (derefClient s client.pre).bind fun (id, before) =>
    setPre (s.setClient id { before with next := client.next }) client.next client.pre

/-- A listed client is taken out, wherever it stands. -/
theorem unlink_seg {s : Server} {order : List ClientId} {c : ClientStat}
    (hseg : Seg s.clients none s.clientQueue order none) (hnd : order.Nodup) (hid : id ∈ order)
    (hget : s.clients.get id = some c) :
    ∃ s', unlink s id c = .ok s' ∧ Seg s'.clients none s'.clientQueue (order.erase id) none ∧
      Relinked s.clients s'.clients ∧ s'.world = s.world := by
  -- the list is `l`, the client, `r`; without repetition the client is in neither part
  obtain ⟨l, r, rfl⟩ := List.append_of_mem hid
  obtain ⟨mid, hl, hmid, c', hget', hpre, hr⟩ := seg_append.mp hseg
  rw [hget] at hget'
  cases hget'
  rw [List.nodup_append] at hnd
  obtain ⟨hndl, hndr, hdisj⟩ := hnd
  have hndr' := (List.nodup_cons.mp hndr).2
  have hidl : id ∉ l := fun hid => hdisj id hid id List.mem_cons_self rfl
  rw [List.erase_append_right _ hidl, List.erase_cons_head]
  unfold unlink
  rcases List.eq_nil_or_concat l with rfl | ⟨l', x, rfl⟩
  · -- the head of the list
    have hqueue : s.clientQueue = some id := (show s.clientQueue = mid from hl).trans hmid
    obtain ⟨clients₂, hset, hseg₂, hrel₂, -⟩ := setPre_spec
      (s := { s with clientQueue := c.next }) none hr hndr'
    exact ⟨⟨clients₂, c.next, s.world⟩, by rw [if_pos hqueue.symm]; exact hset, hseg₂, hrel₂, rfl⟩
  · -- behind `x`
    rw [List.concat_eq_append] at *
    -- the head is the first client of `l`, so the source takes its else branch
    have hq : some id ≠ s.clientQueue := by
      intro hq
      obtain ⟨y, hy, hqy⟩ := hl.head_mem (by simp)
      rw [hqy] at hq
      cases hq
      exact hidl hy
    rw [lastOr_snoc] at hpre
    obtain ⟨cx, hx⟩ := hl.live (show x ∈ l' ++ [x] by simp)
    have hxl : x ∉ l' := by
      rw [List.nodup_append] at hndl
      exact fun hx' => hndl.2.2 x hx' x (by simp) rfl
    have hxr : x ∉ r := fun hx' => hdisj x (by simp) x (List.mem_cons_of_mem _ hx') rfl
    have hl' := hl.set_next (n := c.next) hxl hx
    obtain ⟨clients₂, hset, hseg₂, hrel₂, hsame₂⟩ := setPre_spec
      (s := s.setClient x { cx with next := c.next }) c.pre (hr.congr (get_set_mem hxr)) hndr'
    have hlr : ∀ i ∈ l' ++ [x], i ∉ r := fun i hi hir => hdisj i hi i (List.mem_cons_of_mem _ hir) rfl
    refine ⟨⟨clients₂, s.clientQueue, s.world⟩, ?_, seg_append.mpr ⟨c.next, ?_, ?_⟩,
      (relinked_set c.next cx.pre hx).trans hrel₂, rfl⟩
    · rw [if_neg hq, hpre, derefClient_some hx]
      rw [hpre] at hset
      exact hset
    · exact hl'.congr fun i hi => hsame₂ i (hlr i hi)
    · rw [lastOr_snoc, ← hpre]
      exact hseg₂

theorem unlink_spec {s : Server} {order : List ClientId} {c : ClientStat} (h : Listed s order)
    (hget : s.clients.get id = some c) :
    ∃ s' order', unlink s id c = .ok s' ∧ Seg s'.clients none s'.clientQueue order' none ∧
      order'.Nodup ∧ id ∉ order' ∧ (∀ i, i ∈ order → i ≠ id → i ∈ order') ∧
      Relinked s.clients s'.clients ∧ s'.world = s.world := by
  obtain ⟨s', hunlink, hseg, hrel, hworld⟩ := unlink_seg h.seg h.nodup (h.live id c hget) hget
  exact ⟨s', order.erase id, hunlink, hseg, h.nodup.erase id, h.nodup.not_mem_erase,
    fun i hi hne => (List.mem_erase_of_ne hne).mpr hi, hrel, hworld⟩

theorem clientDelete_eq (env : Env) (s : Server) (tmp : ClientId) :
    clientDelete env s tmp = (derefClient s (some tmp)).bind fun (_, client) =>
      (unlink s tmp client).bind fun s =>
        (clientFreebuf env { me := tmp, client := client, world := ({ s.world with
          loop := aeDeleteFileEvent s.world.loop client.fd ⟨true, true⟩ }).log (.closed tmp) }).bind
          fun c => .ok { s with clients := s.clients.release tmp, world := c.world } := by
  unfold clientDelete unlink
  rcases derefClient s (some tmp) with e | ⟨i, client⟩
  · rfl
  · simp only [bind, Except.bind]
    by_cases hq : some tmp = s.clientQueue
    · simp only [if_pos hq]
    · simp only [if_neg hq]
      rcases derefClient s client.pre with e | ⟨j, before⟩ <;> rfl

end BoAtom
