import BoAtom.Lib.Comparison
import BoAtom.Lib.Machine
import BoAtom.Skiplist.Insert
import BoAtom.Skiplist.Delete

/-! # Skiplists over whole runs

    A list made by `zslCreate` and any sequence of insertions and of
    deletions of ranges: it is sorted and well formed after every one of
    them, whatever `random()` returns. -/

namespace BoAtom

open Memory Towers Machine Comparison

namespace Zskiplist

variable {α : Type} {z z' : Zskiplist α} {es before after c d : List (Entry α)} {x e f : Entry α}
  {i k n : Nat}

/-! ## Section 1: Chains -/

/-- The nodes from `x` on along level `i`, until NULL. -/
def chainFrom (z : Zskiplist α) (i : Nat) : Nat → NodeId → Except Fault (List NodeId)
  | 0, _ => .error .diverge
  | fuel + 1, x => do
    let l ← z.levelAt x i
    match l.forward with
    | none => return []
    | some y => return y :: (← z.chainFrom i fuel y)

/-- The chain at level `i`. -/
def chain (z : Zskiplist α) (i : Nat) : Except Fault (List NodeId) :=
  z.chainFrom i z.nodes.cells.length z.header

theorem filter_low (h : Low Entry.height i c) : c.filter (fun e => i < e.height) = [] := by
  rw [List.filter_eq_nil_iff]
  intro e he
  simpa using h e he

theorem WellFormed.chainFrom (h : WellFormed z es) {fuel : Nat} (hes : es = before ++ after)
    (htop : i < top before) (hfuel : after.length < fuel) :
    z.chainFrom i fuel (z.owner before) =
      .ok ((after.filter fun e => i < e.height).map Entry.id) := by
  induction fuel generalizing before after with
  | zero => omega
  | succ fuel ih =>
    obtain ⟨l, hl, hforward, -⟩ := h.link before after i hes htop
    rw [Zskiplist.chainFrom, levelAt_eq hl]
    rcases hnext : (hop Entry.height i after).1 with _ | f
    · rw [hnext] at hforward
      rw [filter_low (hop_none_iff.mp hnext)]
      simp only [bind, Except.bind, hforward]
      rfl
    · rw [hnext] at hforward
      obtain ⟨low, rest, hafter, hlow, hf, -⟩ := hop_some hnext
      have hes' : es = (before ++ low ++ [f]) ++ rest := by
        rw [hes, hafter]
        simp
      have hfuel' : rest.length < fuel := by
        rw [hafter, List.length_append, List.length_cons] at hfuel
        omega
      have hrest := ih hes' (by rwa [top_concat]) hfuel'
      rw [owner_concat] at hrest
      rw [hafter, List.filter_append, filter_low hlow, List.nil_append, List.filter_cons_of_pos (by simpa using hf)]
      simp only [bind, Except.bind, hforward, Option.map_some, hrest]
      rfl

/-- The chain at a level is the list without the nodes that are too low. -/
theorem WellFormed.chain (h : WellFormed z es) (hi : i < zskiplistMaxLevel) :
    z.chain i = .ok ((es.filter fun e => i < e.height).map Entry.id) := by
  have hroom := h.room
  have htop : i < top ([] : List (Entry α)) := hi
  have hchain := h.chainFrom (List.nil_append es).symm htop hroom
  rwa [owner_nil] at hchain

/-- The memory determines the list. -/
theorem WellFormed.unique {es' : List (Entry α)} (h : WellFormed z es) (h' : WellFormed z es') :
    es = es' := by
  have hall : ∀ {l : List (Entry α)}, WellFormed z l → z.chain 0 = .ok (l.map Entry.id) := by
    intro l hl
    have hfilter : l.filter (fun e => 0 < e.height) = l := by
      rw [List.filter_eq_self]
      intro e he
      simpa using (hl.heights e he).1
    rw [hl.chain (Nat.zero_lt_succ 31), hfilter]
  have hids : es.map Entry.id = es'.map Entry.id := Except.ok.inj ((hall h).symm.trans (hall h'))
  -- a node in memory has one object and one height
  have hnode : ∀ e ∈ es, ∀ e' ∈ es', e.id = e'.id → e = e' := by
    intro e he e' he' heq
    obtain ⟨c, d, hcut⟩ := List.append_of_mem he
    obtain ⟨c', d', hcut'⟩ := List.append_of_mem he'
    have hshape := h.node c e d hcut
    rw [heq, h'.node c' e' d' hcut', Option.some.injEq, Prod.mk.injEq, Prod.mk.injEq] at hshape
    cases e
    cases e'
    simp_all
  have hlen : es.length = es'.length := by
    simpa using congrArg List.length hids
  apply List.ext_getElem hlen
  intro i hi hi'
  apply hnode _ (List.getElem_mem hi) _ (List.getElem_mem hi')
  have hget := List.getElem_of_eq hids (i := i) (by simpa using hi)
  simpa using hget

/-! ## Section 2: Order -/

def Sorted (cmp : Option α → Option α → Int) (es : List (Entry α)) : Prop :=
  es.Pairwise fun a b => cmp a.obj b.obj ≤ 0

/-- The place of an insertion: behind the smaller elements, in front of the
    first one that is not smaller. -/
structure PlacedBy (cmp : Option α → Option α → Int) (before after : List (Entry α))
    (obj : Option α) : Prop where
  smaller : ∀ e ∈ before, cmp e.obj obj < 0
  notSmaller : ∀ e ∈ after, ¬ cmp e.obj obj < 0

variable {cmp : Option α → Option α → Int}

/-- In a sorted list the two neighbours of a place decide for all. -/
theorem placedBy_of_ends (hcmp : TotalPreorder cmp) (hs : Sorted cmp (before ++ after)) {obj : Option α}
    (hlast : ∀ e, before.getLast? = some e → cmp e.obj obj < 0)
    (hnext : ∀ f, after.head? = some f → ¬ cmp f.obj obj < 0) : PlacedBy cmp before after obj := by
  obtain ⟨hbefore, hafter, -⟩ := List.pairwise_append.mp hs
  have hdown : ∀ a b : Entry α, cmp a.obj b.obj ≤ 0 → cmp b.obj obj < 0 → cmp a.obj obj < 0 :=
    fun a b hab hb => hcmp.lt_of_le_of_lt hab hb
  exact ⟨forall_of_last hbefore hdown hlast, forall_not_of_head hafter hdown hnext⟩

theorem Sorted.insert (hcmp : TotalPreorder cmp) (hs : Sorted cmp (before ++ after))
    (hplaced : PlacedBy cmp before after x.obj) : Sorted cmp (before ++ x :: after) := by
  obtain ⟨hbefore, hafter, hcross⟩ := List.pairwise_append.mp hs
  refine List.pairwise_append.mpr ⟨hbefore, List.pairwise_cons.mpr ⟨?_, hafter⟩, ?_⟩
  · intro e he
    exact hcmp.ge_of_not_lt (hplaced.notSmaller e he)
  · intro a ha b hb
    rcases List.mem_cons.mp hb with rfl | hb
    · exact (hplaced.smaller a ha).le
    · exact hcross a ha b hb

theorem Sorted.delete {gone : List (Entry α)} (hs : Sorted cmp (before ++ (gone ++ after))) :
    Sorted cmp (before ++ after) :=
  List.Pairwise.sublist ((List.Sublist.refl _).append (List.sublist_append_right _ _)) hs

/-! ## Section 3: Runs -/

/-- A call of one of the functions that change a list. -/
inductive Call (α : Type) where
  | insert (obj : Option α) (draws : List Nat)
  | deleteRange (range : Zrangespec α)
  | deleteRangeByRank (start stop : UInt32)

def call (z : Zskiplist α) : Call α → Except Fault (Zskiplist α)
  | .insert obj draws => (z.zslInsert obj draws).map Prod.fst
  | .deleteRange range => (z.zslDeleteRange range).map Prod.fst
  | .deleteRangeByRank start stop => (z.zslDeleteRangeByRank start stop).map Prod.fst

theorem zslCreate_wellFormed (cmp : Option α → Option α → Int) (freeObj : Bool) :
    WellFormed (zslCreate cmp freeObj) [] := by
  constructor
  · rfl
  · intro before e after hes
    simp at hes
  · intro before after i hes hi
    obtain ⟨rfl, rfl⟩ := List.append_eq_nil_iff.mp hes.symm
    rw [top_nil] at hi
    refine ⟨⟨none, 0⟩, ?_, rfl, fun _ => rfl⟩
    show (List.replicate zskiplistMaxLevel _)[i]? = _
    rw [List.getElem?_replicate, if_pos hi]
  · simp
  · simp
  · rfl
  · rfl
  · exact Or.inl rfl
  · exact Nat.succ_le_succ (Nat.zero_le 31)
  · exact Nat.zero_lt_one

/-- Deletion by value takes one stretch out of the list: what stands in front
    of it lies below the range, and the walk through it ends above the range. -/
theorem WellFormed.deleteRange (h : WellFormed z es) (range : Zrangespec α) :
    ∃ z' before gone rest path, z.zslDeleteRange range = .ok (z', gone.length) ∧
      es = before ++ (gone ++ rest) ∧
      Found z (fun _ o => if range.minex ≠ 0 then z.cmp o range.min ≤ 0 else z.cmp o range.min < 0)
        before (gone ++ rest) path ∧
      Swept z z' (fun _ o => if range.maxex ≠ 0 then z.cmp o range.max < 0 else z.cmp o range.max ≤ 0)
        before gone rest 0 := by
  obtain ⟨before, after, path, hsearch, rfl, hfound⟩ := h.search
    (fun _ o => if range.minex ≠ 0 then z.cmp o range.min ≤ 0 else z.cmp o range.min < 0)
    fun _ _ _ _ hm => hm
  obtain ⟨z', gone, rest, hdelete, rfl, hswept⟩ := hfound.deleteBehind
    (fun _ o => if range.maxex ≠ 0 then z.cmp o range.max < 0 else z.cmp o range.max ≤ 0) h
  refine ⟨z', before, gone, rest, path, ?_, rfl, hfound, hswept⟩
  simp only [zslDeleteRange, bind, Except.bind, hsearch, hdelete]

/-- So does deletion by rank, between the places the spans count up to. -/
theorem WellFormed.deleteRangeByRank (h : WellFormed z es) (start stop : UInt32) :
    ∃ z' before gone rest path, z.zslDeleteRangeByRank start stop = .ok (z', gone.length) ∧
      es = before ++ (gone ++ rest) ∧
      Found z (fun traversed _ => decide (traversed < start.toNat)) before (gone ++ rest) path ∧
      Swept z z' (fun removed _ => (z.reached path).2 + 1 + removed ≤ stop.toNat)
        before gone rest 0 := by
  have hanti : Antitone (α := α) fun traversed _ => decide (traversed < start.toNat) := by
    intro t t' _ hle hlt
    rw [decide_eq_true_eq] at hlt ⊢
    omega
  obtain ⟨before, after, path, hsearch, rfl, hfound⟩ := h.search _ hanti
  obtain ⟨z', gone, rest, hdelete, rfl, hswept⟩ := hfound.deleteBehind
    (fun removed _ => (z.reached path).2 + 1 + removed ≤ stop.toNat) h
  refine ⟨z', before, gone, rest, path, ?_, rfl, hfound, hswept⟩
  simp only [zslDeleteRangeByRank, bind, Except.bind, hsearch, hdelete]

/-- One call. -/
theorem WellFormed.call (hcmp : TotalPreorder z.cmp) (h : WellFormed z es) (hs : Sorted z.cmp es)
    (op : Call α) :
    ∃ z' es', z.call op = .ok z' ∧ WellFormed z' es' ∧ Sorted z.cmp es' ∧ z'.cmp = z.cmp := by
  cases op with
  | insert obj draws =>
    obtain ⟨z', before, after, x, hinsert, rfl, -, hat⟩ := h.insert obj draws
    have hplaced := placedBy_of_ends hcmp (hat.split ▸ hs) hat.last hat.next
    refine ⟨z', _, ?_, hat.wellFormed, (hat.split ▸ hs).insert hcmp hplaced, hat.cmp⟩
    simp only [Zskiplist.call, hinsert]
    rfl
  | deleteRange range =>
    obtain ⟨z', before, gone, rest, path, hdelete, rfl, -, hswept⟩ := h.deleteRange range
    refine ⟨z', _, ?_, hswept.wellFormed, hs.delete, hswept.cmp⟩
    simp only [Zskiplist.call, hdelete]
    rfl
  | deleteRangeByRank start stop =>
    obtain ⟨z', before, gone, rest, path, hdelete, rfl, -, hswept⟩ := h.deleteRangeByRank start stop
    refine ⟨z', _, ?_, hswept.wellFormed, hs.delete, hswept.cmp⟩
    simp only [Zskiplist.call, hdelete]
    rfl

theorem run_wellFormed (hcmp : TotalPreorder cmp) (freeObj : Bool) (ops : List (Call α)) :
    ∃ z es, run Zskiplist.call (zslCreate cmp freeObj) ops = .ok z ∧ WellFormed z es ∧
      Sorted cmp es ∧ z.cmp = cmp := by
  induction ops using List.reverseRec with
  | nil => exact ⟨_, [], rfl, zslCreate_wellFormed cmp freeObj, List.Pairwise.nil, rfl⟩
  | append_singleton ops op ih =>
    obtain ⟨z, es, hrun, hwell, hs, rfl⟩ := ih
    obtain ⟨z', es', hcall, hwell', hs', hcmp'⟩ := hwell.call hcmp hs op
    refine ⟨z', es', ?_, hwell', hs', hcmp'⟩
    rw [run_append_ok _ hrun, run_cons_ok hcall, run_nil]

/-! ## Section 4: The representation -/

/-- The spans on the levels in use are the distances themselves. -/
def SpansExact (z : Zskiplist α) (es : List (Entry α)) : Prop :=
  ∀ before after i, es = before ++ after → i < top before → i < z.level →
    ∃ l, z.lev (z.owner before) i = some l ∧ l.span.toNat = (hop Entry.height i after).2

theorem WellFormed.spansExact (h : WellFormed z es) (hfits : z.Fits es) : SpansExact z es := by
  intro before after i hes htop hi
  obtain ⟨l, hl, -, hspan⟩ := h.link before after i hes htop
  refine ⟨l, hl, ?_⟩
  rw [hspan hi, UInt32.toNat_ofNat', Nat.mod_eq_of_lt (hfits before after i hes htop hi)]

/-- **The representation holds in every run.**  Spans are distances modulo
    2^32, and the distances themselves below 2^32 nodes. -/
theorem skiplist_well_formed (hcmp : TotalPreorder cmp) (freeObj : Bool) (ops : List (Call α)) :
    ∃ z es, run Zskiplist.call (zslCreate cmp freeObj) ops = .ok z ∧ WellFormed z es ∧ Sorted cmp es ∧
      (∀ i < z.level, z.chain i = .ok ((es.filter fun e => i < e.height).map Entry.id)) ∧
      (es.length < 2 ^ 32 → SpansExact z es) ∧
      ∀ obj draws, ∃ z' before after x, z.zslInsert obj draws = .ok (z', x.id) ∧
        es = before ++ after ∧ PlacedBy cmp before after obj ∧ x.obj = obj ∧
        x.height = zslRandomLevel draws ∧ WellFormed z' (before ++ x :: after) := by
  obtain ⟨z, es, hrun, hwell, hs, rfl⟩ := run_wellFormed hcmp freeObj ops
  refine ⟨z, es, hrun, hwell, hs, ?_, ?_, ?_⟩
  · intro i hi
    exact hwell.chain (hi.trans_le hwell.level_le)
  · intro hlen
    exact hwell.spansExact (fits_of_length hlen)
  · intro obj draws
    obtain ⟨z', before, after, x, hinsert, rfl, hheight, hat⟩ := hwell.insert obj draws
    exact ⟨z', before, after, x, hinsert, hat.split, placedBy_of_ends hcmp (hat.split ▸ hs) hat.last hat.next,
      rfl, hheight, hat.wellFormed⟩

/-- Numbers in their order, NULL before all of them. -/
def compareNat : Option Nat → Option Nat → Int
  | none, none => 0
  | none, some _ => -1
  | some _, none => 1
  | some a, some b => a - b

theorem totalPreorder_compareNat : TotalPreorder compareNat := by
  constructor
  · intro a b
    cases a <;> cases b <;> simp [compareNat]
  · intro a b c
    cases a <;> cases b <;> cases c <;> simp [compareNat]
    omega

/-- Duplicates, two levels, and a range deleted again. -/
theorem skiplist_well_formed_calls :
    ∃ z es, run Zskiplist.call (zslCreate compareNat false) [.insert (some 5) [], .insert (some 3) [0],
        .insert (some 5) [0, 0], .deleteRange ⟨some 4, some 5, 0, 1⟩, .deleteRangeByRank 1 1] = .ok z ∧
      WellFormed z es ∧ Sorted compareNat es := by
  obtain ⟨z, es, hrun, hwell, hs, -⟩ := skiplist_well_formed totalPreorder_compareNat false
    [.insert (some 5) [], .insert (some 3) [0], .insert (some 5) [0, 0],
      .deleteRange ⟨some 4, some 5, 0, 1⟩, .deleteRangeByRank 1 1]
  exact ⟨z, es, hrun, hwell, hs⟩

/-- Insertions only: the list has what was inserted, each at its height. -/
theorem run_inserts (news : List (Option Nat × List Nat)) :
    ∃ z es, run Zskiplist.call (zslCreate compareNat false) (news.map fun p => .insert p.1 p.2) = .ok z ∧
      WellFormed z es ∧ Sorted z.cmp es ∧ z.cmp = compareNat ∧
      (es.map fun e => (e.obj, e.height)).Perm (news.map fun p => (p.1, zslRandomLevel p.2)) := by
  induction news using List.reverseRec with
  | nil => exact ⟨_, [], rfl, zslCreate_wellFormed _ _, List.Pairwise.nil, rfl, List.Perm.nil⟩
  | append_singleton news new ih =>
    obtain ⟨z, es, hrun, hwell, hs, hcmp, hperm⟩ := ih
    have hcmp' : TotalPreorder z.cmp := hcmp ▸ totalPreorder_compareNat
    obtain ⟨z', before, after, x, hinsert, hobj, hheight, hat⟩ := hwell.insert new.1 new.2
    have hes := hat.split
    have hcall : z.call (.insert new.1 new.2) = .ok z' := by
      simp only [Zskiplist.call, hinsert]
      rfl
    have hplaced := placedBy_of_ends hcmp' (hes ▸ hs) hat.last hat.next
    have hs' : Sorted z'.cmp (before ++ x :: after) := by
      rw [hat.cmp]
      exact (hes ▸ hs).insert hcmp' hplaced
    refine ⟨z', before ++ x :: after, ?_, hat.wellFormed, hs', hat.cmp.trans hcmp, ?_⟩
    · rw [List.map_append, run_append_ok _ hrun, List.map_singleton, run_cons_ok hcall, run_nil]
    · have hnew : (x.obj, x.height) = (new.1, zslRandomLevel new.2) := by rw [hobj, hheight]
      rw [List.map_append, List.map_cons, hnew, List.map_append, List.map_singleton]
      refine List.perm_middle.trans ((List.Perm.cons _ ?_).trans (List.perm_append_singleton _ _).symm)
      rw [← List.map_append, ← hes]
      exact hperm

/-- `n` nodes on level 0 only. -/
theorem run_flat (n : Nat) :
    ∃ z es, run Zskiplist.call (zslCreate compareNat false) (List.replicate n (.insert (some 0) [])) =
        .ok z ∧ WellFormed z es ∧ Sorted z.cmp es ∧ z.cmp = compareNat ∧ es.length = n ∧
      ∀ e ∈ es, e.obj = some 0 ∧ e.height = 1 := by
  obtain ⟨z, es, hrun, hwell, hs, hcmp, hperm⟩ := run_inserts (List.replicate n (some 0, []))
  rw [List.map_replicate] at hrun hperm
  refine ⟨z, es, hrun, hwell, hs, hcmp, by simpa using hperm.length_eq, ?_⟩
  intro e he
  have hmem := hperm.mem_iff.mp (List.mem_map_of_mem he)
  exact Prod.mk.inj (List.eq_of_mem_replicate hmem)

/-- Duplicates, and three levels. -/
def fourNumbers : List (Call Nat) :=
  [.insert (some 5) [], .insert (some 3) [0], .insert (some 5) [0, 0], .insert (some 7) []]

theorem run_fourNumbers :
    ∃ z a b c d, run Zskiplist.call (zslCreate compareNat false) fourNumbers = .ok z ∧
      WellFormed z [a, b, c, d] ∧ Sorted z.cmp [a, b, c, d] ∧ z.cmp = compareNat ∧
      a.obj = some 3 ∧ b.obj = some 5 ∧ c.obj = some 5 ∧ d.obj = some 7 := by
  obtain ⟨z, es, hrun, hwell, hs, hcmp, hperm⟩ :=
    run_inserts [(some 5, []), (some 3, [0]), (some 5, [0, 0]), (some 7, [])]
  have hobjs : es.map Entry.obj = [some 3, some 5, some 5, some 7] := by
    have hsorted : (es.map Entry.obj).Pairwise fun a b => compareNat a b ≤ 0 := by
      rw [List.pairwise_map, ← hcmp]
      exact hs
    have hinserted : (es.map Entry.obj).Perm [some 5, some 3, some 5, some 7] := by
      simpa [Function.comp_def] using hperm.map Prod.fst
    refine List.Perm.eq_of_pairwise (fun a b _ _ => ?_) hsorted (by decide) (hinserted.trans (by decide))
    cases a <;> cases b <;> simp [compareNat]
    omega
  simp only [List.map_eq_cons_iff, List.map_eq_nil_iff] at hobjs
  obtain ⟨a, _, rfl, ha, b, _, rfl, hb, c, _, rfl, hc, d, _, rfl, hd, rfl⟩ := hobjs
  exact ⟨z, a, b, c, d, hrun, hwell, hs, hcmp, ha, hb, hc, hd⟩

/-- 2^32 nodes on level 0, and one more on level 1 behind all of them: the
    header's span on level 1 should be 2^32 + 1. -/
theorem far_span_wraps :
    TotalPreorder compareNat ∧ ∃ z, run Zskiplist.call (zslCreate compareNat false)
        (List.replicate (2 ^ 32) (.insert (some 0) []) ++ [.insert (some 1) [0]]) = .ok z ∧
      ¬ ∃ es, WellFormed z es ∧ SpansExact z es := by
  refine ⟨totalPreorder_compareNat, ?_⟩
  obtain ⟨z, es, hrun, hwell, -, hcmp, hlen, hall⟩ := run_flat (2 ^ 32)
  obtain ⟨z', before, after, x, hinsert, hobj, hheight, hat⟩ := hwell.insert (some 1) [0]
  have hcall : z.call (.insert (some 1) [0]) = .ok z' := by
    simp only [Zskiplist.call, hinsert]
    rfl
  have hnil : after = [] := by
    rcases after with _ | ⟨f, after⟩
    · rfl
    · have hsmaller := hat.next f rfl
      rw [hcmp, hobj, (hall f (by rw [hat.split]; simp)).1] at hsmaller
      exact absurd (by decide) hsmaller
  have hes : es = before := by rw [hat.split, hnil, List.append_nil]
  refine ⟨z', by rw [run_append_ok _ hrun, run_cons_ok hcall, run_nil], ?_⟩
  rintro ⟨es', hwell', hexact⟩
  have hlist := hwell'.unique hat.wellFormed
  rw [hnil, ← hes] at hlist
  subst hlist
  have hhigh : 1 < x.height := by
    rw [hheight]
    decide
  have hlow : Low Entry.height 1 es := fun e he => (hall e he).2.le
  have hlevel : 1 < z'.level := hhigh.trans_le (hwell'.heights x (by simp)).2
  obtain ⟨l, -, hspan⟩ := hexact [] (es ++ [x]) 1 rfl (by decide) hlevel
  rw [hop_append_low hlow, hop_cons_high hhigh, hlen] at hspan
  have hlt := l.span.toNat_lt
  simp only at hspan
  omega

end Zskiplist

end BoAtom
