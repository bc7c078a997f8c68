import BoAtom.Mem.Simulation

/-! # Sending the answers

    A pass of `send_response_handle` never faults, and it moves the ledger
    on by what it logs: bytes of the first answer, or its end. -/

namespace BoAtom

open Memory

variable {env : Env} {g : Ghost} {h : Heap} {c : Conn} {d : Dec}

/-! ## Section 1: One response -/

theorem RespRep.curItem_lt {r : Response} {p : Pending} (hr : RespRep g h r p) :
    r.curItem < cmdArgsMax := by
  have := hr.curItem
  have := hr.small
  simp only [cmdArgsMax]
  omega

/-- The current item. -/
theorem RespRep.current {r : Response} {p : Pending} (hr : RespRep g h r p) {i : Fin cmdArgsMax}
    (hi : i.val = r.curItem) : ∃ item, p.items[r.curItem]? = some item ∧
      p.items.take (r.curItem + 1) = p.items.take r.curItem ++ [item] ∧
      ItemRep g h p (r.value i) item ∧ r.itemLength i = item.length := by
  have hget := List.getElem?_eq_getElem hr.curItem
  refine ⟨_, hget, List.take_succ_eq_append_getElem hr.curItem, ?_⟩
  exact hr.item i _ (by rw [hi]; exact hget)

/-- A response whose current item is finished goes on to the next, or is
    done. -/
theorem RespRep.advance {r : Response} {p : Pending} (hr : RespRep g h r p) {i : Fin cmdArgsMax}
    (hi : i.val = r.curItem) :
    ((nextItem r i).curItem < (nextItem r i).argsNum → RespRep g h (nextItem r i) p) ∧
    (¬ (nextItem r i).curItem < (nextItem r i).argsNum → p.sent = p.content.length) := by
  unfold nextItem
  by_cases hdone : r.itemPos i ≥ r.itemLength i
  swap
  · rw [if_neg hdone]
    exact ⟨fun _ => hr, fun hn => absurd (hr.argsNum ▸ hr.curItem) hn⟩
  rw [if_pos hdone]
  obtain ⟨item, -, htake, -, hlen⟩ := hr.current hi
  have hpos : r.itemPos i = item.length := by
    have := hr.pos_le i hi
    omega
  have hsent : p.sent = (p.items.take (r.curItem + 1)).flatten.length := by
    rw [htake, hr.sent i hi, hpos]
    simp
  constructor
  · intro hlt
    refine ⟨hr.argsNum, hr.small, hr.item, hr.argsNum ▸ hlt, fun j hj => ?_, fun j hj => ?_,
      fun j hj => ?_⟩
    · rw [hr.later j (by rw [hj]; exact Nat.lt_succ_self _)]
      exact Nat.zero_le _
    · exact hr.later j (Nat.lt_of_succ_lt hj)
    · rw [hr.later j (by rw [hj]; exact Nat.lt_succ_self _), Nat.add_zero]
      exact hsent
  · intro hnot
    have hnot' : ¬ r.curItem + 1 < r.argsNum := hnot
    have hend : p.items.length ≤ r.curItem + 1 := by
      rw [← hr.argsNum]; omega
    rw [hsent, List.take_of_length_le hend]
    rfl

/-- More bytes of the current item are accepted. -/
theorem RespRep.wrote {r : Response} {p : Pending} (hr : RespRep g h r p) {i : Fin cmdArgsMax}
    (hi : i.val = r.curItem) {n : Nat} (hn : n ≤ r.itemLength i - r.itemPos i) :
    RespRep g h { r with itemPos := Function.update r.itemPos i (r.itemPos i + n) }
      { p with sent := p.sent + n } := by
  have hle := hr.pos_le i hi
  refine ⟨hr.argsNum, hr.small, hr.item, hr.curItem, fun j hj => ?_, fun j hj => ?_, fun j hj => ?_⟩
  · have hji : j = i := Fin.ext (hj.trans hi.symm)
    subst hji
    show Function.update r.itemPos j _ j ≤ _
    rw [Function.update_self]
    show r.itemPos j + n ≤ r.itemLength j
    omega
  · have hji : j ≠ i := by
      rintro rfl
      rw [hi] at hj
      exact Nat.lt_irrefl _ hj
    exact (Function.update_of_ne hji _ _).trans (hr.later j hj)
  · have hji : j = i := Fin.ext (hj.trans hi.symm)
    subst hji
    show p.sent + n = _ + Function.update r.itemPos j _ j
    rw [Function.update_self, hr.sent j hj]
    exact Nat.add_assoc _ _ _

/-! ## Section 2: One pass -/

/-- What a pass logs, given the answers that are owed and what `write`
    returns.  While an answer is intact its own bytes are written, but
    always those at the start of the item. -/
inductive SendLog (me : ClientId) (w : WriteResult) : List Pending → List Happened → Prop where
  | nothing (ps : List Pending) : SendLog me w ps []
  | finished (p : Pending) (ps : List Pending) (hsent : p.sent = p.content.length) :
      SendLog me w (p :: ps) [.finished me]
  | wrote (p : Pending) (ps : List Pending) (j pos k : Nat) (item bs : Bytes)
      (hw : w = .accepted k) (hitem : p.items[j]? = some item)
      (hsent : p.sent = (p.items.take j).flatten.length + pos) (hpos : pos ≤ item.length)
      (hlen : bs.length = min k (item.length - pos))
      (hbs : p.intact = true → bs = item.take bs.length) :
      SendLog me w (p :: ps) [.wrote me bs]

@[simp] theorem length_loadChars (h : Heap) (p : CharPtr) (n : Nat) :
    (loadChars h p n).length = n := by
  unfold loadChars
  split
  · exact length_readAs _ _
  · exact length_readAs _ _
  · exact Heap.length_load

/-- The first bytes behind the pointer are the first bytes of the item. -/
theorem ItemRep.load {p : Pending} {value : CharPtr} {item : Bytes}
    (hr : ItemRep g h p value item) (hint : p.intact = true) {n : Nat} (hn : n ≤ item.length) :
    loadChars h value n = item.take n := by
  rcases hr with rfl | ⟨a, k, rfl, -, hown⟩
  · exact readAs_of_le hn
  · have hholds := (hown hint).2
    unfold Heap.Holds at hholds
    simp only [loadChars, Heap.load, hholds]
    exact readAs_of_le hn

theorem responseSlot_ok {i : Nat} (hi : i < cmdArgsMax) : responseSlot i = .ok ⟨i, hi⟩ :=
  dif_pos hi

/-- A change of the client's queue and of the log. -/
theorem local_sent {me : ClientId} {w : World} {x : Happened} (hx : x.client = me)
    (hledger : ∀ l : Ledger, (l.next x).store = l.store ∧ ∀ i, i ≠ me → (l.next x).pending i = l.pending i) :
    Local me g w g (w.log x) := by
  refine ⟨fun _ _ _ _ => ⟨rfl, rfl⟩, fun _ _ _ => ⟨rfl, rfl⟩, fun _ hq hnone => ⟨hq, hnone⟩, rfl,
    ?_, fun i hi => ?_, fun i hi => ?_, fun i hi => ?_⟩
  · simp only [World.log, Ledger.after_snoc]
    exact (hledger _).1
  · simp only [World.log, Ledger.after_snoc]
    exact (hledger _).2 i hi
  · exact receivedBy_append_other (by simpa [hx] using hi.symm)
  · exact handedBy_append_other (by simpa [hx] using hi.symm)

/-- Sending is no matter of the decoder: only the queue is another one. -/
theorem ClientRep.sent {me : ClientId} {w : World} {c : ClientStat} {queue : List Response} {x : Happened}
    (h : ClientRep g w me c d) (hx : (∃ bs, x = .wrote me bs) ∨ x = .finished me)
    (hqueue : QueueRep g w.heap queue ((Ledger.after (w.trace ++ [x])).pending me)) :
    ClientRep g (w.log x) me { c with sendResponseQueue := queue } d := by
  refine ⟨h.buf, h.pos, ?_, ?_, hqueue, h.cur⟩
  · show receivedBy me (w.trace ++ [x]) = d.got
    rw [receivedBy_snoc, h.got]
    rcases hx with ⟨bs, rfl⟩ | rfl <;> simp [receivedBy]
  · show handedBy me (w.trace ++ [x]) = d.handed
    rw [handedBy_snoc, h.handed]
    rcases hx with ⟨bs, rfl⟩ | rfl <;> simp [handedBy]

/-- **A write pass.** -/
theorem sendPass_rep (hc : ConnRep env g c d) (r : WriteResult) :
    ∃ e c' ext, sendPass c r = .ok (e, c') ∧ (e = .disconnect → r = .error) ∧ ConnRep env g c' d ∧ Frame (fun _ => True) g c g c' ∧
      c'.world.trace = c.world.trace ++ ext ∧
      SendLog c.me r ((Ledger.after c.world.trace).pending c.me) ext := by
  have hq := hc.client.queue
  unfold sendPass
  rcases hqueue : c.client.sendResponseQueue with _ | ⟨tmp, rest⟩
  · -- nothing is queued: stop watching for writes
    exact ⟨_, _, [], rfl, by simp, hc.reloop _, frame_reloop g c _, by simp, .nothing _⟩
  rw [hqueue] at hq
  rcases hpend : (Ledger.after c.world.trace).pending c.me with _ | ⟨p, ps⟩
  · rw [hpend] at hq
    cases hq
  rw [hpend] at hq
  obtain ⟨hr, hrest⟩ := List.forall₂_cons.mp hq
  have hlt := hr.curItem_lt
  obtain ⟨hmore, hdone⟩ := hr.advance (i := ⟨tmp.curItem, hlt⟩) rfl
  simp only [responseSlot_ok hlt, bind, Except.bind]
  by_cases hcur : (nextItem tmp ⟨tmp.curItem, hlt⟩).curItem < (nextItem tmp ⟨tmp.curItem, hlt⟩).argsNum
  · -- something is left to write
    have hr' := hmore hcur
    generalize nextItem tmp ⟨tmp.curItem, hlt⟩ = tmp' at hcur hr'
    have hlt' := hr'.curItem_lt
    rw [if_pos hcur, responseSlot_ok hlt']
    simp only
    -- skipping the items that are sent changes nothing a response stands for
    have hsame : ConnRep env g { c with client := { c.client with sendResponseQueue := tmp' :: rest } } d :=
      ⟨hc.world, ⟨hc.client.buf, hc.client.pos, hc.client.got, hc.client.handed,
        by rw [hpend]; exact List.Forall₂.cons hr' hrest, hc.client.cur⟩⟩
    have hframe : Frame (fun _ => True) g c g { c with client := { c.client with sendResponseQueue := tmp' :: rest } } :=
      ⟨rfl, rfl, rfl, rfl, ⟨[], by simp, by simp⟩, fun _ _ _ _ h => h⟩
    unfold writeItem
    rcases r with k | _ | _
    · -- `ret` bytes of the current item went out
      obtain ⟨item, hitem, -, hrep, hlen⟩ := hr'.current (i := ⟨tmp'.curItem, hlt'⟩) rfl
      have hpos := hr'.pos_le ⟨tmp'.curItem, hlt'⟩ rfl
      set ret := min k (tmp'.itemLength ⟨tmp'.curItem, hlt'⟩ - tmp'.itemPos ⟨tmp'.curItem, hlt'⟩) with hret
      set bs := (loadChars c.world.heap (tmp'.value ⟨tmp'.curItem, hlt'⟩)
        (tmp'.itemLength ⟨tmp'.curItem, hlt'⟩ - tmp'.itemPos ⟨tmp'.curItem, hlt'⟩)).take ret with hbs
      have hbslen : bs.length = ret := by
        rw [hbs, List.length_take, length_loadChars, hret]
        omega
      have hl : Local c.me g c.world g (c.world.log (.wrote c.me bs)) :=
        local_sent rfl fun l => ⟨rfl, fun i hi => Function.update_of_ne hi _ _⟩
      have hwrote := hr'.wrote (i := ⟨tmp'.curItem, hlt'⟩) rfl (n := ret) (Nat.min_le_right _ _)
      refine ⟨_, _, [.wrote c.me bs], rfl, by simp, ⟨hl.worldRep hc.world rfl (by simp [Happened.Orderly]),
        hc.client.sent (Or.inl ⟨bs, rfl⟩) ?_⟩,
        hl.frame rfl rfl rfl rfl rfl (by simp [Happened.client]), rfl, ?_⟩
      · rw [Ledger.after_snoc, Ledger.next_wrote, hpend, hbslen]
        exact List.Forall₂.cons hwrote hrest
      · refine .wrote p ps tmp'.curItem (tmp'.itemPos ⟨tmp'.curItem, hlt'⟩) k item bs rfl hitem
          (hr'.sent _ rfl) (by rw [← hlen]; exact hpos) (by rw [hbslen, hret, hlen]) fun hint => ?_
        rw [hbslen, hbs, hrep.load hint (by omega), List.take_take, Nat.min_eq_left]
        exact Nat.min_le_right _ _
    · -- EAGAIN
      exact ⟨_, _, [], rfl, by simp, hsame, hframe, by simp, .nothing _⟩
    · -- an error of `write`: the client is to be deleted
      exact ⟨_, _, [], rfl, fun _ => rfl, hsame, hframe, by simp, .nothing _⟩
  · -- the response is done
    rw [if_neg hcur]
    have hl : Local c.me g c.world g (c.world.log (.finished c.me)) :=
      local_sent rfl fun l => ⟨rfl, fun i hi => Function.update_of_ne hi _ _⟩
    refine ⟨_, _, [.finished c.me], rfl, by simp, ⟨hl.worldRep hc.world rfl (by simp [Happened.Orderly]),
      hc.client.sent (Or.inr rfl) ?_⟩,
      hl.frame rfl rfl rfl rfl rfl (by simp [Happened.client]), rfl, .finished p ps (hdone hcur)⟩
    rw [Ledger.after_snoc, Ledger.next_finished, hpend, hqueue]
    exact hrest

end BoAtom
