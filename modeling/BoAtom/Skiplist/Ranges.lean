import BoAtom.Skiplist.Lookup

/-! # Ranges of a skiplist

    `zslIsInRange`, `zslFirstInRange` and `zslLastInRange`, and what the two
    deletions of a range take out.  A range says which elements belong to it
    (`InRange`); the functions look at the two ends of the list first and
    then descend with one half of the test.

    The comparison function is a parameter of the three lookups that may
    stop the program: what it does with the NULL object of the header is
    left open. -/

namespace BoAtom

open Memory Towers Comparison Machine

namespace Zskiplist

variable {α : Type}

/-! ## Section 1: The functions -/

/-- A `cmp_func` as it is called. -/
abbrev CmpFunc (α : Type) := Option α → Option α → Except Fault Int

def zslValueGteMin (cmp : CmpFunc α) (value : Option α) (spec : Zrangespec α) : Except Fault Bool := do
  let c ← cmp value spec.min
  return if spec.minex ≠ 0 then 0 < c else 0 ≤ c

def zslValueLteMax (cmp : CmpFunc α) (value : Option α) (spec : Zrangespec α) : Except Fault Bool := do
  let c ← cmp value spec.max
  return if spec.maxex ≠ 0 then c < 0 else c ≤ 0

/-- The bounds are compared as pointers. -/
def zslIsInRange [DecidableEq α] (z : Zskiplist α) (cmp : CmpFunc α) (range : Zrangespec α) :
    Except Fault Bool := do
  -- Test for ranges that will always be empty.
  if range.min = range.max ∧ (range.minex ≠ 0 ∨ range.maxex ≠ 0) then return false
  else
    match z.tail with
    | none => return false
    | some x =>
      let n ← z.node x
      let gteMin ← zslValueGteMin cmp n.obj range
      if gteMin then
        let l ← z.levelAt z.header 0
        match l.forward with
        | none => return false
        | some x =>
          let n ← z.node x
          zslValueLteMax cmp n.obj range
      else return false

/-- The `while` along level `i`, with a test that may stop the program. -/
def walkBy (z : Zskiplist α) (more : Option α → Except Fault Bool) (i : Nat) :
    Nat → NodeId → Except Fault NodeId
  | 0, _ => .error .diverge
  | fuel + 1, x => do
    let l ← z.levelAt x i
    match l.forward with
    | none => return x
    | some y =>
      let n ← z.node y
      let go ← more n.obj
      if go then z.walkBy more i fuel y else return x

/-- The `for` over the levels below `i`. -/
def descendBy (z : Zskiplist α) (more : Option α → Except Fault Bool) :
    Nat → NodeId → Except Fault NodeId
  | 0, x => return x
  | i + 1, x => do
    let x ← z.walkBy more i z.nodes.cells.length x
    z.descendBy more i x

def zslFirstInRange [DecidableEq α] (z : Zskiplist α) (cmp : CmpFunc α) (range : Zrangespec α) :
    Except Fault (Option NodeId) := do
  let isIn ← z.zslIsInRange cmp range
  if isIn then
    -- Go forward while *OUT* of range.
    let x ← z.descendBy (fun o => (zslValueGteMin cmp o range).map not) z.level z.header
    let l ← z.levelAt x 0
    match l.forward with
    | none => .error .nullDeref
    | some x =>
      let n ← z.node x
      let lteMax ← zslValueLteMax cmp n.obj range
      return if lteMax then some x else none
  else return none

def zslLastInRange [DecidableEq α] (z : Zskiplist α) (cmp : CmpFunc α) (range : Zrangespec α) :
    Except Fault (Option NodeId) := do
  let isIn ← z.zslIsInRange cmp range
  if isIn then
    -- Go forward while *IN* range.
    let x ← z.descendBy (fun o => zslValueLteMax cmp o range) z.level z.header
    let n ← z.node x
    let gteMin ← zslValueGteMin cmp n.obj range
    return if gteMin then some x else none
  else return none

/-! ## Section 2: Belonging to a range -/

section order

variable {cmp : Option α → Option α → Int} {range : Zrangespec α} {o : Option α}
  {es before after : List (Entry α)} {a b : Entry α}

def AboveMin (cmp : Option α → Option α → Int) (range : Zrangespec α) (o : Option α) : Prop :=
  if range.minex ≠ 0 then cmp range.min o < 0 else cmp range.min o ≤ 0

def BelowMax (cmp : Option α → Option α → Int) (range : Zrangespec α) (o : Option α) : Prop :=
  if range.maxex ≠ 0 then cmp o range.max < 0 else cmp o range.max ≤ 0

instance : Decidable (AboveMin cmp range o) := by
  unfold AboveMin
  infer_instance

instance : Decidable (BelowMax cmp range o) := by
  unfold BelowMax
  infer_instance

/-- `o` lies in the range. -/
def InRange (cmp : Option α → Option α → Int) (range : Zrangespec α) (o : Option α) : Prop :=
  AboveMin cmp range o ∧ BelowMax cmp range o

instance : Decidable (InRange cmp range o) := inferInstanceAs (Decidable (_ ∧ _))

/-- The test of `zslValueGteMin`. -/
theorem aboveMin_iff (hcmp : TotalPreorder cmp) :
    AboveMin cmp range o ↔ if range.minex ≠ 0 then 0 < cmp o range.min else 0 ≤ cmp o range.min := by
  have hswap := hcmp.swap range.min o
  have hswap' := hcmp.swap o range.min
  unfold AboveMin
  split <;> omega

/-- The test of `zslDeleteRange`, the other way round. -/
theorem not_aboveMin_iff (hcmp : TotalPreorder cmp) :
    ¬ AboveMin cmp range o ↔
      if range.minex ≠ 0 then cmp o range.min ≤ 0 else cmp o range.min < 0 := by
  rw [aboveMin_iff hcmp]
  split <;> omega

/-- What lies too low passes that on to what is smaller. -/
theorem not_aboveMin_of_le (hcmp : TotalPreorder cmp) (hab : cmp a.obj b.obj ≤ 0)
    (hb : ¬ AboveMin cmp range b.obj) : ¬ AboveMin cmp range a.obj := by
  rw [not_aboveMin_iff hcmp] at hb ⊢
  by_cases hex : range.minex ≠ 0
  · rw [if_pos hex] at hb ⊢
    exact hcmp.trans _ _ _ hab hb
  · rw [if_neg hex] at hb ⊢
    exact hcmp.lt_of_le_of_lt hab hb

theorem belowMax_of_le (hcmp : TotalPreorder cmp) (hab : cmp a.obj b.obj ≤ 0)
    (hb : BelowMax cmp range b.obj) : BelowMax cmp range a.obj := by
  unfold BelowMax at hb ⊢
  by_cases hex : range.maxex ≠ 0
  · rw [if_pos hex] at hb ⊢
    exact hcmp.lt_of_le_of_lt hab hb
  · rw [if_neg hex] at hb ⊢
    exact hcmp.trans _ _ _ hab hb

/-- The ranges `zslIsInRange` knows to be empty. -/
theorem not_inRange_of_same (hcmp : TotalPreorder cmp) (hsame : range.min = range.max)
    (hex : range.minex ≠ 0 ∨ range.maxex ≠ 0) : ¬ InRange cmp range o := by
  intro ⟨habove, hbelow⟩
  have hswap := hcmp.swap range.min o
  have hswap' := hcmp.swap o range.min
  unfold AboveMin at habove
  unfold BelowMax at hbelow
  rw [← hsame] at hbelow
  split at habove <;> split at hbelow <;> omega

end order

/-! ## Section 3: Descending with a test that may fail -/

section search

variable {z : Zskiplist α} {es before after : List (Entry α)} {i k fuel t : Nat}
  {more : Option α → Except Fault Bool} {test : Option α → Bool} {p : NodeId × Nat}
  {path : List (NodeId × Nat)}

/-- The test goes through on the objects of the list, so the walk is the one
    with the plain test. -/
theorem WellFormed.walkBy (h : WellFormed z es) (hmore : ∀ e ∈ es, more e.obj = .ok (test e.obj))
    (hes : es = before ++ after) (htop : i < top before)
    (hwalk : z.walk (fun _ o => test o) i fuel (z.owner before) t = .ok p) :
    z.walkBy more i fuel (z.owner before) = .ok p.1 := by
  -- the two walks read the same links; along the list the predicates agree
  induction fuel generalizing before after t with
  | zero => cases hwalk
  | succ fuel ih =>
    obtain ⟨l, hl, hforward, -⟩ := h.link before after i hes htop
    simp only [Zskiplist.walk, bind, Except.bind, levelAt_eq hl] at hwalk
    simp only [Zskiplist.walkBy, bind, Except.bind, levelAt_eq hl]
    rcases hnext : (hop Entry.height i after).1 with _ | f
    · rw [hnext] at hforward
      simp only [hforward, Option.map_none] at hwalk ⊢
      cases hwalk
      rfl
    · rw [hnext] at hforward
      obtain ⟨low, rest, hafter, hlow, hf, -⟩ := hop_some hnext
      have hcut : es = (before ++ low) ++ f :: rest := by
        rw [hes, hafter, List.append_assoc]
      obtain ⟨n, hn, hobj, -⟩ := node_eq (h.node _ f rest hcut)
      have hgo : more n.obj = .ok (test n.obj) := by
        rw [hobj]
        exact hmore f (by rw [hcut]; simp)
      simp only [hforward, Option.map_some, hn] at hwalk ⊢
      simp only [hgo]
      by_cases htest : test n.obj = true
      · rw [if_pos htest] at hwalk ⊢
        have hes' : es = (before ++ low ++ [f]) ++ rest := by rw [hcut]; simp
        have howner : z.owner (before ++ low ++ [f]) = f.id := owner_concat
        rw [← howner] at hwalk ⊢
        exact ih hes' (by rwa [top_concat]) hwalk
      · rw [if_neg htest] at hwalk ⊢
        cases hwalk
        rfl

theorem WellFormed.descendBy (h : WellFormed z es) (hmore : ∀ e ∈ es, more e.obj = .ok (test e.obj))
    (hk : k ≤ z.level) (hes : es = before ++ after) (htop : k ≤ top before)
    (hmeasure : z.Measures es t before.length)
    (hdescend : z.descend (fun _ o => test o) k (z.owner before) t = .ok path) :
    z.descendBy more k (z.owner before) = .ok ((path.head?.map Prod.fst).getD (z.owner before)) := by
  induction k generalizing before after t path with
  | zero =>
    cases hdescend
    rfl
  | succ k ih =>
    have hroom := h.room_behind hes
    obtain ⟨crossed, rest, p, hwalk, hafter, hw⟩ :=
      h.walk (fun _ o => test o) hk hes htop hroom hmeasure
    have hes' : es = (before ++ crossed) ++ rest := by rw [hes, hafter, List.append_assoc]
    simp only [Zskiplist.descend, bind, Except.bind, hwalk] at hdescend
    obtain ⟨below, hbelow, hpath⟩ := ok_of_bind hdescend
    cases hpath
    rw [hw.place] at hbelow
    have hrest := ih (by omega) hes' hw.top.le (hes' ▸ hw.measure) hbelow
    simp only [Zskiplist.descendBy, bind, Except.bind, h.walkBy hmore hes htop hwalk]
    rw [hw.place, hrest]
    cases below with
    | nil => simp [hw.place]
    | cons q below => rfl

/-- Where the descent stops. -/
theorem WellFormed.searchBy (more : Option α → Except Fault Bool) (test : Option α → Bool)
    (h : WellFormed z es) (hmore : ∀ e ∈ es, more e.obj = .ok (test e.obj)) :
    ∃ before after, z.descendBy more z.level z.header = .ok (z.owner before) ∧ es = before ++ after ∧
      (∀ e, before.getLast? = some e → test e.obj) ∧ ∀ f, after.head? = some f → ¬ test f.obj := by
  obtain ⟨before, after, path, hsearch, hes, hfound⟩ :=
    h.search (fun _ o => test o) fun _ _ _ _ hm => hm
  refine ⟨before, after, ?_, hes, hfound.last, hfound.stopped⟩
  have hstart : z.Measures es 0 ([] : List (Entry α)).length := ⟨Nat.ModEq.refl _, fun _ => rfl⟩
  have htop : z.level ≤ top ([] : List (Entry α)) := by
    rw [top_nil]
    exact h.level_le
  have hdescend := h.descendBy hmore (le_refl _) (List.nil_append es).symm htop hstart hsearch
  have hreached := hfound.reached
  rw [owner_nil] at hdescend
  rw [hdescend, ← hreached, Zskiplist.reached]
  cases path <;> rfl

end search

/-! ## Section 4: The ends of a range -/

section ranges

variable {z : Zskiplist α} {es before after : List (Entry α)} {e f : Entry α}
  {cmp : CmpFunc α} {range : Zrangespec α} {o : Option α}

/-- `cmp` compares the objects of the list as the list is ordered. -/
def Compares (z : Zskiplist α) (es : List (Entry α)) (cmp : CmpFunc α) : Prop :=
  ∀ e ∈ es, ∀ b, cmp e.obj b = .ok (z.cmp e.obj b)

theorem Compares.gteMin (h : Compares z es cmp) (hcmp : TotalPreorder z.cmp) (he : e ∈ es) :
    zslValueGteMin cmp e.obj range = .ok (decide (AboveMin z.cmp range e.obj)) := by
  simp only [zslValueGteMin, bind, Except.bind, h e he range.min, aboveMin_iff hcmp]
  split <;> rfl

theorem Compares.lteMax (h : Compares z es cmp) (he : e ∈ es) :
    zslValueLteMax cmp e.obj range = .ok (decide (BelowMax z.cmp range e.obj)) := by
  simp only [zslValueLteMax, bind, Except.bind, h e he range.max, BelowMax]
  split <;> rfl

/-- What `zslIsInRange` lets through: a list whose last element lies above
    the minimum and whose first one lies below the maximum. -/
structure Overlaps (cmp : Option α → Option α → Int) (range : Zrangespec α)
    (es : List (Entry α)) : Prop where
  last : ∃ e, es.getLast? = some e ∧ AboveMin cmp range e.obj
  first : ∃ f, es.head? = some f ∧ BelowMax cmp range f.obj

theorem WellFormed.isInRange [DecidableEq α] (h : WellFormed z es) (hcmp : TotalPreorder z.cmp) (hs : Sorted z.cmp es)
    (hcalls : Compares z es cmp) (range : Zrangespec α) :
    (z.zslIsInRange cmp range = .ok true ∧ Overlaps z.cmp range es) ∨
    (z.zslIsInRange cmp range = .ok false ∧ ∀ e ∈ es, ¬ InRange z.cmp range e.obj) := by
  unfold zslIsInRange
  by_cases hempty : range.min = range.max ∧ (range.minex ≠ 0 ∨ range.maxex ≠ 0)
  · rw [if_pos hempty]
    exact Or.inr ⟨rfl, fun e _ => not_inRange_of_same hcmp hempty.1 hempty.2⟩
  rw [if_neg hempty]
  rcases List.eq_nil_or_concat' es with rfl | ⟨before, e, hes⟩
  · rw [h.tail]
    exact Or.inr ⟨rfl, by simp⟩
  have he : e ∈ es := by
    rw [hes]
    simp
  obtain ⟨n, hn, hobj, -⟩ := node_eq (h.node before e [] hes)
  have htail : z.tail = some e.id := by
    rw [h.tail, hes]
    simp
  simp only [htail, bind, Except.bind, hn, hobj, hcalls.gteMin hcmp he]
  by_cases habove : AboveMin z.cmp range e.obj
  · rw [if_pos (decide_eq_true habove)]
    -- the other end of the list
    obtain ⟨f, rest, hcons⟩ : ∃ f rest, es = f :: rest := List.exists_cons_of_ne_nil (by rw [hes]; simp)
    have hf : f ∈ es := by
      rw [hcons]
      simp
    have hlinks : Links z ([] ++ es) := h.link
    obtain ⟨l, hl, hforward⟩ := hlinks.next fun a ha => (h.heights a ha).1
    rw [owner_nil] at hl
    have hzero : z.levelAt z.header 0 = .ok l := levelAt_eq hl
    obtain ⟨n', hn', hobj', -⟩ := node_eq (h.node [] f rest hcons)
    rw [hcons, List.head?_cons, Option.map_some] at hforward
    simp only [hzero, hforward, hn', hobj', hcalls.lteMax hf]
    by_cases hbelow : BelowMax z.cmp range f.obj
    · refine Or.inl ⟨by rw [decide_eq_true hbelow], ⟨e, ?_, habove⟩, ⟨f, ?_, hbelow⟩⟩
      · rw [hes, List.getLast?_concat]
      · rw [hcons, List.head?_cons]
    · refine Or.inr ⟨by rw [decide_eq_false hbelow], fun a ha hin => ?_⟩
      refine forall_not_of_head (P := fun a => BelowMax z.cmp range a.obj) hs
        (fun _ _ hab hb => belowMax_of_le hcmp hab hb) ?_ a ha hin.2
      intro g hg
      rw [hcons, List.head?_cons] at hg
      cases hg
      exact hbelow
  · rw [if_neg (by simpa using habove)]
    refine Or.inr ⟨rfl, fun a ha hin => ?_⟩
    refine forall_of_last (P := fun a => ¬ AboveMin z.cmp range a.obj) hs
      (fun _ _ hab hb => not_aboveMin_of_le hcmp hab hb) ?_ a ha hin.1
    intro g hg
    rw [hes, List.getLast?_concat] at hg
    cases hg
    exact habove

/-- The place in front of the first element above the minimum. -/
theorem WellFormed.descendMin (h : WellFormed z es) (hcmp : TotalPreorder z.cmp) (hs : Sorted z.cmp es)
    (hcalls : Compares z es cmp) (range : Zrangespec α) :
    ∃ before after, z.descendBy (fun o => (zslValueGteMin cmp o range).map not) z.level z.header =
        .ok (z.owner before) ∧ es = before ++ after ∧
      (∀ e ∈ before, ¬ AboveMin z.cmp range e.obj) ∧ ∀ e ∈ after, AboveMin z.cmp range e.obj := by
  have hmore : ∀ e ∈ es, (zslValueGteMin cmp e.obj range).map not =
      .ok (!decide (AboveMin z.cmp range e.obj)) := by
    intro e he
    rw [hcalls.gteMin hcmp he]
    rfl
  obtain ⟨before, after, hdescend, rfl, hlast, hhead⟩ :=
    h.searchBy (fun o => (zslValueGteMin cmp o range).map not)
      (fun o => !decide (AboveMin z.cmp range o)) hmore
  obtain ⟨hbefore, hafter, -⟩ := List.pairwise_append.mp hs
  have hdown : ∀ a b : Entry α, z.cmp a.obj b.obj ≤ 0 → ¬ AboveMin z.cmp range b.obj →
      ¬ AboveMin z.cmp range a.obj := fun _ _ hab hb => not_aboveMin_of_le hcmp hab hb
  refine ⟨before, after, hdescend, rfl, ?_, ?_⟩
  · apply forall_of_last hbefore hdown
    intro e he
    simpa using hlast e he
  · intro e he
    have hnot := forall_not_of_head hafter hdown (fun f hf => by simpa using hhead f hf) e he
    exact not_not.mp hnot

/-- The place behind the last element below the maximum. -/
theorem WellFormed.descendMax (h : WellFormed z es) (hcmp : TotalPreorder z.cmp) (hs : Sorted z.cmp es)
    (hcalls : Compares z es cmp) (range : Zrangespec α) :
    ∃ before after, z.descendBy (fun o => zslValueLteMax cmp o range) z.level z.header =
        .ok (z.owner before) ∧ es = before ++ after ∧
      (∀ e ∈ before, BelowMax z.cmp range e.obj) ∧ ∀ e ∈ after, ¬ BelowMax z.cmp range e.obj := by
  obtain ⟨before, after, hdescend, rfl, hlast, hhead⟩ :=
    h.searchBy (fun o => zslValueLteMax cmp o range) (fun o => decide (BelowMax z.cmp range o))
      fun e he => hcalls.lteMax he
  obtain ⟨hbefore, hafter, -⟩ := List.pairwise_append.mp hs
  have hdown : ∀ a b : Entry α, z.cmp a.obj b.obj ≤ 0 → BelowMax z.cmp range b.obj →
      BelowMax z.cmp range a.obj := fun _ _ hab hb => belowMax_of_le hcmp hab hb
  refine ⟨before, after, hdescend, rfl, ?_, ?_⟩
  · apply forall_of_last hbefore hdown
    intro e he
    simpa using hlast e he
  · apply forall_not_of_head hafter hdown
    intro f hf
    simpa using hhead f hf

theorem WellFormed.firstInRange [DecidableEq α] (h : WellFormed z es) (hcmp : TotalPreorder z.cmp) (hs : Sorted z.cmp es)
    (hcalls : Compares z es cmp) (range : Zrangespec α) :
    z.zslFirstInRange cmp range =
      .ok ((es.find? fun e => InRange z.cmp range e.obj).map Entry.id) := by
  unfold zslFirstInRange
  rcases h.isInRange hcmp hs hcalls range with ⟨hin, hends⟩ | ⟨hin, hnone⟩
  · obtain ⟨before, after, hdescend, rfl, hbefore, hafter⟩ := h.descendMin hcmp hs hcalls range
    -- the last element is above the minimum, so there is one behind the place
    obtain ⟨e, he, habove⟩ := hends.last
    obtain ⟨f, rest, rfl⟩ : ∃ f rest, after = f :: rest := by
      apply List.exists_cons_of_ne_nil
      rintro rfl
      rw [List.append_nil] at he
      exact hbefore e (List.mem_of_getLast? he) habove
    obtain ⟨l, hl, hforward⟩ := h.link.next fun a ha => (h.heights a ha).1
    have hzero : z.levelAt (z.owner before) 0 = .ok l := levelAt_eq hl
    rw [List.head?_cons, Option.map_some] at hforward
    obtain ⟨n, hn, hobj, -⟩ := node_eq (h.node before f rest rfl)
    have hf : f ∈ before ++ f :: rest := by simp
    have hskip : before.find? (fun e => decide (InRange z.cmp range e.obj)) = none := by
      rw [List.find?_eq_none]
      intro a ha hina
      exact hbefore a ha (of_decide_eq_true hina).1
    rw [List.find?_append, hskip, Option.none_or]
    simp only [bind, Except.bind, hin, if_true, hdescend, hzero, hforward, hn, hobj, hcalls.lteMax hf]
    by_cases hbelow : BelowMax z.cmp range f.obj
    · have hinf : InRange z.cmp range f.obj := ⟨hafter f (by simp), hbelow⟩
      rw [List.find?_cons_of_pos (by simpa using hinf), if_pos (decide_eq_true hbelow)]
      rfl
    · -- everything behind `f` is above the maximum as well
      have hrest : (f :: rest).find? (fun e => decide (InRange z.cmp range e.obj)) = none := by
        rw [List.find?_eq_none]
        intro a ha hina
        refine forall_not_of_head (P := fun a => BelowMax z.cmp range a.obj)
          (List.pairwise_append.mp hs).2.1 (fun _ _ hab hb => belowMax_of_le hcmp hab hb) ?_ a ha
          (of_decide_eq_true hina).2
        intro g hg
        cases hg
        exact hbelow
      rw [hrest, if_neg (by simpa using hbelow)]
      rfl
  · have hfind : es.find? (fun e => decide (InRange z.cmp range e.obj)) = none := by
      rw [List.find?_eq_none]
      intro a ha hina
      exact hnone a ha (of_decide_eq_true hina)
    simp only [bind, Except.bind, hin, hfind]
    rfl

theorem WellFormed.lastInRange [DecidableEq α] (h : WellFormed z es) (hcmp : TotalPreorder z.cmp) (hs : Sorted z.cmp es)
    (hcalls : Compares z es cmp) (range : Zrangespec α) :
    z.zslLastInRange cmp range =
      .ok ((es.reverse.find? fun e => InRange z.cmp range e.obj).map Entry.id) := by
  unfold zslLastInRange
  rcases h.isInRange hcmp hs hcalls range with ⟨hin, hends⟩ | ⟨hin, hnone⟩
  · obtain ⟨before, after, hdescend, rfl, hbefore, hafter⟩ := h.descendMax hcmp hs hcalls range
    -- the first element is below the maximum, so the descent has left the header
    obtain ⟨f, hf, hbelow⟩ := hends.first
    obtain ⟨init, e, rfl⟩ : ∃ init e, before = init ++ [e] := by
      rcases List.eq_nil_or_concat' before with rfl | hconcat
      · rw [List.nil_append] at hf
        exact absurd hbelow (hafter f (List.mem_of_head? hf))
      · exact hconcat
    have hcut : init ++ [e] ++ after = init ++ e :: after := by simp
    obtain ⟨n, hn, hobj, -⟩ := node_eq (h.node init e after hcut)
    have he : e ∈ init ++ [e] ++ after := by simp
    have hskip : after.reverse.find? (fun e => decide (InRange z.cmp range e.obj)) = none := by
      rw [List.find?_eq_none]
      intro a ha hina
      exact hafter a (List.mem_reverse.mp ha) (of_decide_eq_true hina).2
    rw [owner_concat] at hdescend
    rw [List.reverse_append, List.find?_append, hskip, Option.none_or, List.reverse_append,
      List.reverse_singleton, List.singleton_append]
    simp only [bind, Except.bind, hin, if_true, hdescend, hn, hobj, hcalls.gteMin hcmp he]
    by_cases habove : AboveMin z.cmp range e.obj
    · have hine : InRange z.cmp range e.obj := ⟨habove, hbefore e (by simp)⟩
      rw [List.find?_cons_of_pos (by simpa using hine), if_pos (decide_eq_true habove)]
      rfl
    · -- everything in front of `e` is below the minimum as well
      have hinit : (e :: init.reverse).find? (fun e => decide (InRange z.cmp range e.obj)) = none := by
        rw [List.find?_eq_none]
        intro a ha hina
        have hmem : a ∈ init ++ [e] := by
          rcases List.mem_cons.mp ha with rfl | ha
          · simp
          · simp [List.mem_reverse.mp ha]
        refine forall_of_last (P := fun a => ¬ AboveMin z.cmp range a.obj)
          (List.pairwise_append.mp hs).1 (fun _ _ hab hb => not_aboveMin_of_le hcmp hab hb) ?_ a hmem
          (of_decide_eq_true hina).1
        intro g hg
        rw [List.getLast?_concat] at hg
        cases hg
        exact habove
      rw [hinit, if_neg (by simpa using habove)]
      rfl
  · have hfind : es.reverse.find? (fun e => decide (InRange z.cmp range e.obj)) = none := by
      rw [List.find?_eq_none]
      intro a ha hina
      exact hnone a (List.mem_reverse.mp ha) (of_decide_eq_true hina)
    simp only [bind, Except.bind, hin, hfind]
    rfl

/-- **The ends of a range** are found, whatever `cmp` does with the NULL
    object of the header, and no NULL pointer is followed. -/
theorem range_endpoints [DecidableEq α] (hcmp : TotalPreorder z.cmp) (h : WellFormed z es)
    (hs : Sorted z.cmp es) (hobj : ∀ e ∈ es, e.obj ≠ none) (cmp : CmpFunc α)
    (hcalls : ∀ a b, cmp (some a) b = .ok (z.cmp (some a) b)) (range : Zrangespec α) :
    z.zslFirstInRange cmp range =
        .ok ((es.find? fun e => InRange z.cmp range e.obj).map Entry.id) ∧
      z.zslLastInRange cmp range =
        .ok ((es.reverse.find? fun e => InRange z.cmp range e.obj).map Entry.id) ∧
      (z.zslFirstInRange cmp range = .ok none ↔ ∀ e ∈ es, ¬ InRange z.cmp range e.obj) ∧
      (z.zslLastInRange cmp range = .ok none ↔ ∀ e ∈ es, ¬ InRange z.cmp range e.obj) := by
  have hcompares : Compares z es cmp := by
    intro e he b
    obtain ⟨a, ha⟩ := Option.ne_none_iff_exists'.mp (hobj e he)
    rw [ha]
    exact hcalls a b
  have hfirst := h.firstInRange hcmp hs hcompares range
  have hlast := h.lastInRange hcmp hs hcompares range
  refine ⟨hfirst, hlast, ?_, ?_⟩
  · rw [hfirst, Except.ok.injEq, Option.map_eq_none_iff, List.find?_eq_none]
    simp
  · rw [hlast, Except.ok.injEq, Option.map_eq_none_iff, List.find?_eq_none]
    simp

/-- `compareNat` for callers that never pass NULL first. -/
def derefNat : CmpFunc Nat
  | none, _ => .error .nullDeref
  | some a, b => .ok (compareNat (some a) b)

/-- The ends of the range from 4 to 6 in 3, 5, 5 and 7 are the two fives. -/
theorem range_endpoints_duplicates :
    ∃ z a b c d, run Zskiplist.call (zslCreate compareNat false) fourNumbers = .ok z ∧
      WellFormed z [a, b, c, d] ∧ z.zslFirstInRange derefNat ⟨some 4, some 6, 0, 0⟩ = .ok (some b.id) ∧
      z.zslLastInRange derefNat ⟨some 4, some 6, 0, 0⟩ = .ok (some c.id) := by
  obtain ⟨z, a, b, c, d, hrun, hwell, hs, hcmp, ha, hb, hc, hd⟩ := run_fourNumbers
  obtain ⟨hfirst, hlast, -⟩ := range_endpoints (hcmp ▸ totalPreorder_compareNat) hwell hs
    (by simp [ha, hb, hc, hd]) derefNat (by rw [hcmp]; exact fun a b => rfl) ⟨some 4, some 6, 0, 0⟩
  have h3 : ¬ InRange compareNat ⟨some 4, some 6, 0, 0⟩ (some 3) := by decide
  have h5 : InRange compareNat ⟨some 4, some 6, 0, 0⟩ (some 5) := by decide
  have h7 : ¬ InRange compareNat ⟨some 4, some 6, 0, 0⟩ (some 7) := by decide
  refine ⟨z, a, b, c, d, hrun, hwell, ?_, ?_⟩
  · rw [hfirst]
    simp [hcmp, ha, hb, h3, h5]
  · rw [hlast]
    simp [hcmp, hd, hc, h7, h5]

/-! ## Section 5: Deleting a range -/

/-- In a list of three parts, what has the property is the middle one. -/
theorem filter_stretch {ι : Type} {P : ι → Prop} [DecidablePred P] {front gone rest : List ι}
    (hfront : ∀ e ∈ front, ¬ P e) (hgone : ∀ e ∈ gone, P e) (hrest : ∀ e ∈ rest, ¬ P e) :
    (front ++ (gone ++ rest)).filter (fun e => P e) = gone ∧
      (front ++ (gone ++ rest)).filter (fun e => ¬ P e) = front ++ rest := by
  have hnone : ∀ l : List ι, (∀ e ∈ l, ¬ P e) → l.filter (fun e => P e) = [] ∧
      l.filter (fun e => ¬ P e) = l := by
    intro l hl
    constructor
    · rw [List.filter_eq_nil_iff]
      simpa using hl
    · rw [List.filter_eq_self]
      simpa using hl
  obtain ⟨hb, hb'⟩ := hnone front hfront
  obtain ⟨hr, hr'⟩ := hnone rest hrest
  have hg : gone.filter (fun e => P e) = gone := by
    rw [List.filter_eq_self]
    simpa using hgone
  have hg' : gone.filter (fun e => ¬ P e) = [] := by
    rw [List.filter_eq_nil_iff]
    simpa using hgone
  rw [List.filter_append, List.filter_append, hb, hg, hr, List.filter_append, List.filter_append, hb', hg',
    hr']
  simp

/-- **Deletion by value is exact**: the elements of the range go, and nothing
    else; the others keep their order.  The bounds are taken not to be
    objects of the list, which `free_obj` would release under the loop. -/
theorem range_deletion [DecidableEq α] (hcmp : TotalPreorder z.cmp) (h : WellFormed z es)
    (hs : Sorted z.cmp es) (range : Zrangespec α) :
    ∃ z', z.zslDeleteRange range = .ok (z', (es.filter fun e => InRange z.cmp range e.obj).length) ∧
      WellFormed z' (es.filter fun e => ¬ InRange z.cmp range e.obj) ∧ z'.cmp = z.cmp ∧
      z'.freed = z.freed ++
        (if z.freeObj then (es.filter fun e => InRange z.cmp range e.obj).map Entry.obj else []) ∧
      ((es.filter fun e => InRange z.cmp range e.obj).length = 0 ↔
        z.zslFirstInRange (fun a b => .ok (z.cmp a b)) range = .ok none) := by
  obtain ⟨z', before, gone, rest, path, hdelete, rfl, hfound, hswept⟩ := h.deleteRange range
  -- the two tests, as they are written out here
  have hmin : ∀ o, (if range.minex ≠ 0 then decide (z.cmp o range.min ≤ 0) else
      decide (z.cmp o range.min < 0)) = true ↔ ¬ AboveMin z.cmp range o := by
    intro o
    rw [not_aboveMin_iff hcmp]
    split <;> exact decide_eq_true_iff
  have hmax : ∀ o, (if range.maxex ≠ 0 then decide (z.cmp o range.max < 0) else
      decide (z.cmp o range.max ≤ 0)) = true ↔ BelowMax z.cmp range o := by
    intro o
    unfold BelowMax
    split <;> exact decide_eq_true_iff
  obtain ⟨hsbefore, hsafter, -⟩ := List.pairwise_append.mp hs
  have hdown : ∀ a b : Entry α, z.cmp a.obj b.obj ≤ 0 → ¬ AboveMin z.cmp range b.obj →
      ¬ AboveMin z.cmp range a.obj := fun _ _ hab hb => not_aboveMin_of_le hcmp hab hb
  -- the three parts of the list
  have hbefore : ∀ e ∈ before, ¬ InRange z.cmp range e.obj := by
    intro e he hin
    refine forall_of_last hsbefore hdown ?_ e he hin.1
    intro g hg
    exact (hmin _).mp (hfound.last g hg)
  have habove : ∀ e ∈ gone ++ rest, AboveMin z.cmp range e.obj := by
    intro e he
    refine not_not.mp (forall_not_of_head hsafter hdown ?_ e he)
    intro g hg
    exact fun hlow => hfound.stopped g hg ((hmin _).mpr hlow)
  have hgone : ∀ e ∈ gone, InRange z.cmp range e.obj := by
    intro e he
    obtain ⟨c, d, hcut⟩ := List.append_of_mem he
    exact ⟨habove e (List.mem_append_left _ he), (hmax _).mp (hswept.passed c e d hcut)⟩
  have hrest : ∀ e ∈ rest, ¬ InRange z.cmp range e.obj := by
    intro e he hin
    refine forall_not_of_head (P := fun a => BelowMax z.cmp range a.obj)
      (List.pairwise_append.mp hsafter).2.1 (fun _ _ hab hb => belowMax_of_le hcmp hab hb) ?_ e he hin.2
    intro g hg hbelow
    exact hswept.stopped g hg ((hmax _).mpr hbelow)
  obtain ⟨hin, hout⟩ := filter_stretch hbefore hgone hrest
  have hplain : Compares z (before ++ (gone ++ rest)) (fun a b => .ok (z.cmp a b)) := fun _ _ _ => rfl
  have hfirst := h.firstInRange hcmp hs hplain range
  refine ⟨z', ?_, ?_, hswept.cmp, ?_, ?_⟩
  · rw [hin]
    exact hdelete
  · rw [hout]
    exact hswept.wellFormed
  · rw [hin]
    exact hswept.freed
  · rw [hfirst, Except.ok.injEq, Option.map_eq_none_iff, List.find?_eq_none, List.length_eq_zero_iff,
      List.filter_eq_nil_iff]

/-- From 5 on and below 7: the two fives go, 3 and 7 stay. -/
theorem range_deletion_duplicates :
    ∃ z z' a b c d, run Zskiplist.call (zslCreate compareNat false) fourNumbers = .ok z ∧
      WellFormed z [a, b, c, d] ∧ z.zslDeleteRange ⟨some 5, some 7, 0, 1⟩ = .ok (z', 2) ∧
      WellFormed z' [a, d] := by
  obtain ⟨z, a, b, c, d, hrun, hwell, hs, hcmp, ha, hb, hc, hd⟩ := run_fourNumbers
  obtain ⟨z', hdelete, hwell', -⟩ :=
    range_deletion (hcmp ▸ totalPreorder_compareNat) hwell hs ⟨some 5, some 7, 0, 1⟩
  have h3 : ¬ InRange compareNat ⟨some 5, some 7, 0, 1⟩ (some 3) := by decide
  have h5 : InRange compareNat ⟨some 5, some 7, 0, 1⟩ (some 5) := by decide
  have h7 : ¬ InRange compareNat ⟨some 5, some 7, 0, 1⟩ (some 7) := by decide
  refine ⟨z, z', a, b, c, d, hrun, hwell, ?_, ?_⟩
  · rw [hdelete]
    simp [hcmp, ha, hb, hc, hd, h3, h5, h7]
  · simpa [hcmp, ha, hb, hc, hd, h3, h5, h7] using hwell'

/-- The positions from `start` to `stop`. -/
def RankIn (start stop : UInt32) (p : Entry α × Nat) : Prop := start.toNat ≤ p.2 ∧ p.2 ≤ stop.toNat

instance (start stop : UInt32) : DecidablePred (RankIn (α := α) start stop) :=
  fun p => inferInstanceAs (Decidable (start.toNat ≤ p.2 ∧ p.2 ≤ stop.toNat))

/-- **Deletion by rank is exact**: the elements at the positions `start` to
    `stop`, counted from 1, go, and nothing else; the others keep their
    order. -/
theorem rank_deletion (h : WellFormed z es) (hexact : SpansExact z es) (start stop : UInt32) :
    ∃ z', z.zslDeleteRangeByRank start stop =
        .ok (z', ((es.zipIdx 1).filter fun p => RankIn start stop p).length) ∧
      WellFormed z' (((es.zipIdx 1).filter fun p => ¬ RankIn start stop p).map Prod.fst) ∧
      z'.cmp = z.cmp ∧ z'.freed = z.freed ++ (if z.freeObj then
        ((es.zipIdx 1).filter fun p => RankIn start stop p).map fun p => p.1.obj else []) := by
  obtain ⟨z', before, gone, rest, path, hdelete, rfl, hfound, hswept⟩ := h.deleteRangeByRank start stop
  have hcount : (z.reached path).2 = before.length := hfound.measure.2 hexact.fits
  have hsplit : (before ++ (gone ++ rest)).zipIdx 1 = before.zipIdx 1 ++
      (gone.zipIdx (1 + before.length) ++ rest.zipIdx (1 + before.length + gone.length)) := by
    rw [List.zipIdx_append, List.zipIdx_append]
  -- the positions in the three parts of the list
  have hbefore : ∀ p ∈ before.zipIdx 1, ¬ RankIn start stop p := by
    intro p hp hin
    obtain ⟨-, hlt, -⟩ := List.mem_zipIdx hp
    rcases List.eq_nil_or_concat' before with rfl | ⟨init, e, hconcat⟩
    · simp at hp
    · have hlast := hfound.last e (by rw [hconcat, List.getLast?_concat])
      rw [decide_eq_true_eq, hcount] at hlast
      have := hin.1
      omega
  have hgone : ∀ p ∈ gone.zipIdx (1 + before.length), RankIn start stop p := by
    intro p hp
    obtain ⟨hge, hlt, -⟩ := List.mem_zipIdx hp
    constructor
    · obtain ⟨f, gone', hcons⟩ : ∃ f gone', gone = f :: gone' := by
        apply List.exists_cons_of_ne_nil
        rintro rfl
        simp at hp
      have hstopped := hfound.stopped f (by rw [hcons, List.cons_append, List.head?_cons])
      rw [decide_eq_true_eq, hcount] at hstopped
      omega
    · rcases List.eq_nil_or_concat' gone with rfl | ⟨init, e, hconcat⟩
      · simp at hp
      · have hpassed := hswept.passed init e [] hconcat
        rw [decide_eq_true_eq, hcount] at hpassed
        rw [hconcat, List.length_append, List.length_singleton] at hlt
        omega
  have hrest : ∀ p ∈ rest.zipIdx (1 + before.length + gone.length), ¬ RankIn start stop p := by
    intro p hp hin
    obtain ⟨hge, -, -⟩ := List.mem_zipIdx hp
    rcases rest with _ | ⟨f, rest⟩
    · simp at hp
    · have hstopped := hswept.stopped f (List.head?_cons ..)
      rw [decide_eq_true_eq, hcount] at hstopped
      have := hin.2
      omega
  obtain ⟨hin, hout⟩ := filter_stretch hbefore hgone hrest
  rw [hsplit, hin, hout]
  refine ⟨z', ?_, ?_, hswept.cmp, ?_⟩
  · rw [List.length_zipIdx]
    exact hdelete
  · rw [List.map_append, List.zipIdx_map_fst, List.zipIdx_map_fst]
    exact hswept.wellFormed
  · have hobjs : (gone.zipIdx (1 + before.length)).map (fun p => p.1.obj) = gone.map Entry.obj := by
      show (gone.zipIdx (1 + before.length)).map (Entry.obj ∘ Prod.fst) = _
      rw [← List.map_map, List.zipIdx_map_fst]
    rw [hobjs]
    exact hswept.freed

/-- The second element of two goes, whatever lies beyond the list. -/
theorem rank_deletion_two :
    ∃ z z' e, run Zskiplist.call (zslCreate compareNat false) (List.replicate 2 (.insert (some 0) [])) =
      .ok z ∧ z.zslDeleteRangeByRank 2 7 = .ok (z', 1) ∧ WellFormed z' [e] := by
  obtain ⟨z, es, hrun, hwell, hs, hcmp, hlen, hall⟩ := run_flat 2
  obtain ⟨e, f, rfl⟩ := List.length_eq_two.mp hlen
  obtain ⟨z', hdelete, hwell', -⟩ :=
    rank_deletion hwell (hwell.spansExact (fits_of_length (by simp))) 2 7
  exact ⟨z, z', e, hrun, hdelete, hwell'⟩

end ranges

end Zskiplist

end BoAtom
