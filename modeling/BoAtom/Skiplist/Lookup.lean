import BoAtom.Skiplist.Runs

/-! # Looking for one element

    `zslDelete`, `zslGetRank` and `zslGetElementByRank`.  The search of
    `zslDelete` ends in front of the first element that is not smaller; the
    test behind it reads `level[-1]`.  The two rank functions are inverse to
    each other. -/

namespace BoAtom

open Memory Towers Machine Comparison

namespace Zskiplist

variable {α : Type} {z z' : Zskiplist α} {es before after crossed rest : List (Entry α)} {e f x : Entry α}
  {i k r t : Nat} {o : Option α} {p : NodeId × Nat}

/-! ## Section 1: `zslDelete` -/

/-- The deletion of the first element equal to `o`, if there is one. -/
def ExactDelete (z : Zskiplist α) (es : List (Entry α)) (o : Option α) : Prop :=
  ((∃ e ∈ es, z.cmp e.obj o = 0) → ∃ before e after z', es = before ++ e :: after ∧
    z.cmp e.obj o = 0 ∧ (∀ a ∈ before, z.cmp a.obj o ≠ 0) ∧ z.zslDelete o = .ok (z', 1) ∧
    WellFormed z' (before ++ after) ∧ (SpansExact z es → SpansExact z' (before ++ after))) ∧
  ((∀ e ∈ es, z.cmp e.obj o ≠ 0) → z.zslDelete o = .ok (z, 0))

/-- The two ways out of the function: all elements are smaller, or the node
    found is asked for `level[-1]`. -/
theorem WellFormed.zslDelete (hcmp : TotalPreorder z.cmp) (h : WellFormed z es) (hs : Sorted z.cmp es)
    (o : Option α) :
    ((∀ e ∈ es, z.cmp e.obj o < 0) ∧ z.zslDelete o = .ok (z, 0)) ∨
    ((∃ e ∈ es, ¬ z.cmp e.obj o < 0) ∧ z.zslDelete o = .error (.levelIndex (-1))) := by
  obtain ⟨before, after, path, hsearch, rfl, hfound⟩ :=
    h.search (fun _ b => z.cmp b o < 0) fun _ _ _ _ hm => hm
  have hplaced : PlacedBy z.cmp before after o := placedBy_of_ends hcmp hs
    (fun e he => of_decide_eq_true (hfound.last e he))
    fun f hf hlt => hfound.stopped f hf (decide_eq_true hlt)
  obtain ⟨l, hl, hforward⟩ := h.link.next fun e he => (h.heights e he).1
  have hzero : z.levelAt (z.reached path).1 0 = .ok l := by
    rw [hfound.reached]
    exact levelAt_eq hl
  rcases after with _ | ⟨f, after⟩
  · -- `x` is NULL
    refine Or.inl ⟨by simpa using hplaced.smaller, ?_⟩
    simp only [Zskiplist.zslDelete, bind, Except.bind, hsearch, hzero, hforward]
    rfl
  · refine Or.inr ⟨⟨f, by simp, hplaced.notSmaller f (by simp)⟩, ?_⟩
    have hmine := isSome_of_shape (h.node before f after rfl)
    have hindex : z.levelAt f.id (-1) = .error (.levelIndex (-1)) := levelAt_neg hmine (by decide)
    simp only [Zskiplist.zslDelete, bind, Except.bind, hsearch, hzero, hforward, List.head?_cons,
      Option.map_some, hindex]

/-- **`zslDelete` is exact** where every element is smaller than the object,
    and nowhere else. -/
theorem zslDelete_exact_iff (hcmp : TotalPreorder z.cmp) (h : WellFormed z es) (hs : Sorted z.cmp es)
    (o : Option α) : ExactDelete z es o ↔ ∀ e ∈ es, z.cmp e.obj o < 0 := by
  rcases h.zslDelete hcmp hs o with ⟨hall, hdelete⟩ | ⟨⟨e, he, hge⟩, hdelete⟩
  · refine iff_of_true ⟨?_, fun _ => hdelete⟩ hall
    rintro ⟨e, he, heq⟩
    have := hall e he
    omega
  · refine iff_of_false (fun hexact => ?_) fun hall => hge (hall e he)
    by_cases heq : ∃ e ∈ es, z.cmp e.obj o = 0
    · obtain ⟨-, -, -, z', -, -, -, hok, -⟩ := hexact.1 heq
      rw [hdelete] at hok
      cases hok
    · have hok := hexact.2 fun e he hzero => heq ⟨e, he, hzero⟩
      rw [hdelete] at hok
      cases hok

/-- 9 is greater than all of 3, 5, 5 and 7: nothing is deleted. -/
theorem zslDelete_exact_greater :
    ∃ z es, run Zskiplist.call (zslCreate compareNat false) fourNumbers = .ok z ∧
      es.map Entry.obj = [some 3, some 5, some 5, some 7] ∧ WellFormed z es ∧
      ExactDelete z es (some 9) ∧ z.zslDelete (some 9) = .ok (z, 0) := by
  obtain ⟨z, a, b, c, d, hrun, hwell, hs, hcmp, ha, hb, hc, hd⟩ := run_fourNumbers
  have hless : ∀ e ∈ [a, b, c, d], z.cmp e.obj (some 9) < 0 := by
    rw [hcmp]
    simp [ha, hb, hc, hd, compareNat]
  have hexact := (zslDelete_exact_iff (hcmp ▸ totalPreorder_compareNat) hwell hs _).mpr hless
  exact ⟨z, _, hrun, by simp [ha, hb, hc, hd], hwell, hexact, hexact.2 fun e he => (hless e he).ne⟩

/-- The object is the only element: `level[-1]` is read. -/
theorem zslDelete_reads_below_level :
    TotalPreorder compareNat ∧ ∃ z es, run Zskiplist.call (zslCreate compareNat false)
        (List.replicate 1 (.insert (some 0) [])) = .ok z ∧ z.cmp = compareNat ∧ WellFormed z es ∧
      Sorted compareNat es ∧ SpansExact z es ∧ z.zslDelete (some 0) = .error (.levelIndex (-1)) ∧
      ¬ ExactDelete z es (some 0) := by
  obtain ⟨z, es, hrun, hwell, hs, hcmp, hlen, hall⟩ := run_flat 1
  have hcmp' : TotalPreorder z.cmp := hcmp ▸ totalPreorder_compareNat
  obtain ⟨e, rfl⟩ := List.length_eq_one_iff.mp hlen
  have hequal : ¬ z.cmp e.obj (some 0) < 0 := by
    rw [hcmp, (hall e (by simp)).1]
    decide
  have hdelete : z.zslDelete (some 0) = .error (.levelIndex (-1)) := by
    rcases hwell.zslDelete hcmp' hs (some 0) with ⟨hless, -⟩ | ⟨-, hdelete⟩
    · exact absurd (hless e (by simp)) hequal
    · exact hdelete
  refine ⟨totalPreorder_compareNat, z, [e], hrun, hcmp, hwell, hcmp ▸ hs,
    hwell.spansExact (fits_of_length (by simp)), hdelete, fun hexact => ?_⟩
  -- an element is equal to the object, and nothing is deleted
  have hzero : ∃ a ∈ [e], z.cmp a.obj (some 0) = 0 := by
    refine ⟨e, by simp, ?_⟩
    rw [hcmp, (hall e (by simp)).1]
    rfl
  obtain ⟨-, -, -, z', -, -, -, hok, -⟩ := hexact.1 hzero
  rw [hdelete] at hok
  cases hok

/-! ## Section 2: `zslGetElementByRank` -/

theorem SpansExact.fits (h : SpansExact z es) : z.Fits es := by
  intro before after i hes htop hi
  obtain ⟨l, -, hspan⟩ := h before after i hes htop hi
  rw [← hspan]
  exact l.span.toNat_lt

/-- A walk over exact spans counts the elements it passes, and stops in front
    of the first one on its level that fails the test. -/
theorem Walked.count {more : Nat → Option α → Bool} (hw : Walked z more i before crossed rest t p)
    (hfits : z.Fits (before ++ crossed ++ rest)) (hi : i < z.level) :
    p.2 = (before ++ crossed).length ∧ ∀ f, (hop Entry.height i rest).1 = some f →
      ¬ more ((before ++ crossed).length + (hop Entry.height i rest).2) f.obj := by
  have hcount := hw.measure.2 hfits
  refine ⟨hcount, fun f hf => ?_⟩
  have hstopped := hw.stopped f hf
  rwa [hcount, Nat.mod_eq_of_lt (hfits _ _ i rfl hw.top hi)] at hstopped

theorem WellFormed.getElementFrom (h : WellFormed z es) (hfits : z.Fits es) (hk : k ≤ z.level)
    (hes : es = before ++ after) (htop : k ≤ top before) (hlt : before.length < r) :
    z.getElementFrom r k (z.owner before) before.length =
      .ok (if k = 0 then none else (es[r - 1]?).map Entry.id) := by
  induction k generalizing before after with
  | zero => rfl
  | succ k ih =>
    have hroom := h.room_behind hes
    have hmeasure : z.Measures es before.length before.length := ⟨Nat.ModEq.refl _, fun _ => rfl⟩
    obtain ⟨crossed, rest, p, hwalk, hafter, hw⟩ :=
      h.walk (fun t _ => t ≤ r) hk hes htop hroom hmeasure
    have hes' : es = (before ++ crossed) ++ rest := by rw [hes, hafter, List.append_assoc]
    obtain ⟨hcount, hstopped⟩ := hw.count (hes' ▸ hfits) hk
    -- no step has gone beyond the rank
    have hle : (before ++ crossed).length ≤ r := by
      rcases hlast : crossed.getLast? with _ | e
      · rw [List.getLast?_eq_none_iff.mp hlast, List.append_nil]
        omega
      · have := of_decide_eq_true (hw.last e hlast)
        omega
    rw [if_neg (Nat.succ_ne_zero k)]
    simp only [Zskiplist.getElementFrom, bind, Except.bind, hwalk]
    by_cases hhit : p.2 = r
    · rw [if_pos hhit, hw.place]
      rcases List.eq_nil_or_concat' (before ++ crossed) with hnil | ⟨m, e, hm⟩
      · rw [hnil, List.length_nil] at hcount
        omega
      · have hr : r - 1 = m.length := by
          rw [hm, List.length_append, List.length_singleton] at hcount
          omega
        rw [hes', hm, hr, owner_concat]
        simp
        rfl
    · rw [if_neg hhit, hw.place, hcount, ih (by omega) hes' hw.top.le (by omega)]
      by_cases hzero : k = 0
      · -- the last level ends at the end of the list
        subst hzero
        have hend : es.length ≤ r - 1 := by
          rcases rest with _ | ⟨f, rest⟩
          · rw [hes', List.append_nil]
            omega
          · have hf := (h.heights f (by rw [hes']; simp)).1
            have hfail := hstopped f (by rw [hop_cons_high hf])
            rw [hop_cons_high hf, decide_eq_true_eq] at hfail
            omega
        rw [if_pos rfl, List.getElem?_eq_none hend]
        rfl
      · rw [if_neg hzero]

theorem WellFormed.getElementByRank (h : WellFormed z es) (hfits : z.Fits es) (hr : 0 < r) :
    z.zslGetElementByRank r = .ok ((es[r - 1]?).map Entry.id) := by
  have hstart := h.getElementFrom hfits (le_refl _) (List.nil_append es).symm
    (by rw [top_nil]; exact h.level_le) (r := r) hr
  rw [owner_nil, if_neg h.level_pos.ne'] at hstart
  exact hstart

/-! ## Section 3: `zslGetRank` -/

/-- Zero if nothing equals `o`, or the position of something that does. -/
structure RankOf (cmp : Option α → Option α → Int) (es : List (Entry α)) (o : Option α) (r : Nat) :
    Prop where
  zero : r = 0 ↔ ∀ e ∈ es, cmp e.obj o ≠ 0
  position : r ≠ 0 → ∃ e, es[r - 1]? = some e ∧ cmp e.obj o = 0

theorem rankOf_found {cmp : Option α → Option α → Int} (heq : cmp e.obj o = 0) :
    RankOf cmp (before ++ [e] ++ after) o (before ++ [e]).length := by
  have hlen : (before ++ [e]).length = before.length + 1 := by simp
  rw [hlen]
  refine ⟨iff_of_false (Nat.succ_ne_zero _) fun hall => hall e (by simp) heq, fun _ => ⟨e, ?_, heq⟩⟩
  simp

theorem WellFormed.getRankFrom (hcmp : TotalPreorder z.cmp) (h : WellFormed z es) (hfits : z.Fits es)
    (hs : Sorted z.cmp es) (hobj : ∀ e ∈ es, e.obj ≠ none) (hk : k ≤ z.level)
    (hes : es = before ++ after) (htop : k ≤ top before)
    (hlast : ∀ e, before.getLast? = some e → z.cmp e.obj o ≤ 0) :
    ∃ r, z.getRankFrom o k (z.owner before) before.length = .ok r ∧ (0 < k → RankOf z.cmp es o r) := by
  induction k generalizing before after with
  | zero => exact ⟨0, rfl, fun h => absurd h (lt_irrefl 0)⟩
  | succ k ih =>
    have hroom := h.room_behind hes
    have hmeasure : z.Measures es before.length before.length := ⟨Nat.ModEq.refl _, fun _ => rfl⟩
    obtain ⟨crossed, rest, p, hwalk, hafter, hw⟩ :=
      h.walk (fun _ b => z.cmp b o ≤ 0) hk hes htop hroom hmeasure
    have hes' : es = (before ++ crossed) ++ rest := by rw [hes, hafter, List.append_assoc]
    obtain ⟨hcount, hstopped⟩ := hw.count (hes' ▸ hfits) hk
    have hlast' : ∀ e, (before ++ crossed).getLast? = some e → z.cmp e.obj o ≤ 0 := by
      intro e he
      rw [List.getLast?_append] at he
      rcases hc : crossed.getLast? with _ | g
      · rw [hc] at he
        exact hlast e he
      · rw [hc] at he
        cases he
        exact of_decide_eq_true (hw.last e hc)
    -- the node at which this level has stopped
    obtain ⟨n, hn, hmine⟩ : ∃ n, z.node p.1 = .ok n ∧
        ((before ++ crossed = [] ∧ n.obj = none) ∨
          ∃ m e, before ++ crossed = m ++ [e] ∧ n.obj = e.obj) := by
      rw [hw.place]
      rcases List.eq_nil_or_concat' (before ++ crossed) with hnil | ⟨m, e, hm⟩
      · obtain ⟨n, hn, hnull, -⟩ := node_eq h.header
        rw [hnil, owner_nil]
        exact ⟨n, hn, Or.inl ⟨rfl, hnull⟩⟩
      · obtain ⟨n, hn, hnobj, -⟩ := node_eq (h.node m e rest (by rw [hes', hm]; simp))
        rw [hm, owner_concat]
        exact ⟨n, hn, Or.inr ⟨m, e, rfl, hnobj⟩⟩
    simp only [Zskiplist.getRankFrom, bind, Except.bind, hwalk, hn]
    by_cases hhit : n.obj.isSome ∧ z.cmp n.obj o = 0
    · rw [if_pos hhit]
      refine ⟨p.2, rfl, fun _ => ?_⟩
      rcases hmine with ⟨-, hnull⟩ | ⟨m, e, hm, hnobj⟩
      · rw [hnull] at hhit
        simp at hhit
      · rw [hcount, hes', hm]
        exact rankOf_found (hnobj ▸ hhit.2)
    · rw [if_neg hhit, hw.place, hcount]
      obtain ⟨r, hrank, hspec⟩ := ih (by omega) hes' hw.top.le hlast'
      refine ⟨r, hrank, fun _ => ?_⟩
      by_cases hpos : 0 < k
      · exact hspec hpos
      -- the last level: everything is smaller up to here, and greater behind
      obtain rfl : k = 0 := by omega
      obtain rfl : 0 = r := Except.ok.inj hrank
      have hless : ∀ e, (before ++ crossed).getLast? = some e → z.cmp e.obj o < 0 := by
        intro e he
        rcases hmine with ⟨hnil, -⟩ | ⟨m, e', hm, hnobj⟩
        · simp [hnil] at he
        · rw [hm, List.getLast?_concat] at he
          cases he
          have hsome : n.obj.isSome := by
            rw [hnobj]
            exact Option.isSome_iff_ne_none.mpr (hobj e (by rw [hes', hm]; simp))
          have hne : z.cmp e.obj o ≠ 0 := fun hzero => hhit ⟨hsome, hnobj ▸ hzero⟩
          have hle := hlast' e (by rw [hm, List.getLast?_concat])
          omega
      have hmore : ∀ f, rest.head? = some f → ¬ z.cmp f.obj o ≤ 0 := by
        intro f hf hle
        obtain ⟨tl, htl⟩ := List.head?_eq_some_iff.mp hf
        have hheight := (h.heights f (by rw [hes', htl]; simp)).1
        refine hstopped f ?_ (decide_eq_true hle)
        rw [htl, hop_cons_high hheight]
      have hs' : Sorted z.cmp ((before ++ crossed) ++ rest) := hes' ▸ hs
      obtain ⟨hsl, hsr, -⟩ := List.pairwise_append.mp hs'
      have hsmall := forall_of_last (P := fun a => z.cmp a.obj o < 0) hsl
        (fun a b hab hb => hcmp.lt_of_le_of_lt hab hb) hless
      have hlarge := forall_not_of_head (P := fun a => z.cmp a.obj o ≤ 0) hsr
        (fun a b hab hb => hcmp.trans _ _ _ hab hb) hmore
      refine ⟨iff_of_true rfl fun e he heq => ?_, fun h0 => absurd rfl h0⟩
      rw [hes'] at he
      rcases List.mem_append.mp he with he | he
      · have := hsmall e he
        omega
      · exact hlarge e he heq.le

theorem WellFormed.getRank (hcmp : TotalPreorder z.cmp) (h : WellFormed z es) (hfits : z.Fits es)
    (hs : Sorted z.cmp es) (hobj : ∀ e ∈ es, e.obj ≠ none) (o : Option α) :
    ∃ r, z.zslGetRank o = .ok r ∧ RankOf z.cmp es o r := by
  obtain ⟨r, hrank, hspec⟩ := h.getRankFrom (o := o) hcmp hfits hs hobj (le_refl _)
    (List.nil_append es).symm (by rw [top_nil]; exact h.level_le) (by simp)
  rw [owner_nil] at hrank
  exact ⟨r, hrank, hspec h.level_pos⟩

/-! ## Section 4: Both -/

/-- **Rank and selection are inverse.** -/
theorem rank_and_selection (hcmp : TotalPreorder z.cmp) (h : WellFormed z es) (hexact : SpansExact z es)
    (hs : Sorted z.cmp es) (hobj : ∀ e ∈ es, e.obj ≠ none) :
    (∀ r e, 0 < r → es[r - 1]? = some e → z.zslGetElementByRank r = .ok (some e.id)) ∧
    (∀ r, es.length < r → z.zslGetElementByRank r = .ok none) ∧
    (∀ o, ∃ r, z.zslGetRank o = .ok r ∧ RankOf z.cmp es o r) ∧
    (es.Pairwise (fun a b => z.cmp a.obj b.obj ≠ 0) →
      ∀ r e, 0 < r → es[r - 1]? = some e → z.zslGetRank e.obj = .ok r) := by
  have hfits := hexact.fits
  refine ⟨?_, ?_, h.getRank hcmp hfits hs hobj, ?_⟩
  · intro r e hr he
    rw [h.getElementByRank hfits hr, he]
    rfl
  · intro r hlt
    rw [h.getElementByRank hfits (by omega), List.getElem?_eq_none (by omega)]
    rfl
  · intro hdistinct r e hr he
    obtain ⟨r', hrank, hspec⟩ := h.getRank hcmp hfits hs hobj e.obj
    have hmem : e ∈ es := List.mem_of_getElem? he
    have hne : r' ≠ 0 := fun hzero => hspec.zero.mp hzero e hmem (hcmp.refl _)
    obtain ⟨e', he', heq⟩ := hspec.position hne
    -- no other element equals `e`
    obtain ⟨hi, hei⟩ := List.getElem?_eq_some_iff.mp he
    obtain ⟨hi', hei'⟩ := List.getElem?_eq_some_iff.mp he'
    have hpair := List.pairwise_iff_getElem.mp hdistinct
    have hsame : r' - 1 = r - 1 := by
      rcases Nat.lt_trichotomy (r' - 1) (r - 1) with hlt | hsame | hgt
      · exact absurd (by rw [hei, hei']; exact heq) (hpair _ _ hi' hi hlt)
      · exact hsame
      · exact absurd (by rw [hei, hei']; exact hcmp.eq_comm.mp heq) (hpair _ _ hi hi' hgt)
    rw [hrank, show r' = r by omega]

/-- The elements 3, 5, 5 and 7: the third is found, a fifth is not; 3 has rank
    1, 5 has one of its two ranks, and 4 has none. -/
theorem rank_and_selection_duplicates :
    ∃ z a b c d, run Zskiplist.call (zslCreate compareNat false) fourNumbers = .ok z ∧
      WellFormed z [a, b, c, d] ∧ z.zslGetElementByRank 3 = .ok (some c.id) ∧
      z.zslGetElementByRank 5 = .ok none ∧ z.zslGetRank (some 3) = .ok 1 ∧
      (z.zslGetRank (some 5) = .ok 2 ∨ z.zslGetRank (some 5) = .ok 3) ∧ z.zslGetRank (some 4) = .ok 0 := by
  obtain ⟨z, a, b, c, d, hrun, hwell, hs, hcmp, ha, hb, hc, hd⟩ := run_fourNumbers
  have hcmp' : TotalPreorder z.cmp := hcmp ▸ totalPreorder_compareNat
  obtain ⟨hselect, hnone, hrank, -⟩ := rank_and_selection hcmp' hwell
    (hwell.spansExact (fits_of_length (by simp))) hs (by simp [ha, hb, hc, hd])
  -- the place of a rank has an equal object
  let objs : List (Option Nat) := [some 3, some 5, some 5, some 7]
  have hobjs : [a, b, c, d].map Entry.obj = objs := by simp [objs, ha, hb, hc, hd]
  have hplace : ∀ o r, RankOf z.cmp [a, b, c, d] o r → r ≠ 0 →
      r < 5 ∧ objs[r - 1]?.any (fun p => compareNat p o = 0) := by
    intro o r hr hne
    obtain ⟨e, he, heq⟩ := hr.position hne
    have hlt : r - 1 < 4 := (List.getElem?_eq_some_iff.mp he).1
    refine ⟨by omega, ?_⟩
    rw [← hobjs, List.getElem?_map, he]
    simpa [hcmp] using heq
  obtain ⟨r3, hthree, hr3⟩ := hrank (some 3)
  obtain ⟨r5, hfive, hr5⟩ := hrank (some 5)
  obtain ⟨r4, hfour, hr4⟩ := hrank (some 4)
  have hone : r3 = 1 := by
    have hne : r3 ≠ 0 := fun h => hr3.zero.mp h a (by simp) (by rw [hcmp, ha]; rfl)
    obtain ⟨hlt, hany⟩ := hplace _ _ hr3 hne
    exact (by decide : ∀ r < 5, r ≠ 0 → objs[r - 1]?.any (fun p => compareNat p (some 3) = 0) → r = 1)
      r3 hlt hne hany
  have htwo : r5 = 2 ∨ r5 = 3 := by
    have hne : r5 ≠ 0 := fun h => hr5.zero.mp h b (by simp) (by rw [hcmp, hb]; rfl)
    obtain ⟨hlt, hany⟩ := hplace _ _ hr5 hne
    exact (by decide : ∀ r < 5, r ≠ 0 → objs[r - 1]?.any (fun p => compareNat p (some 5) = 0) →
      r = 2 ∨ r = 3) r5 hlt hne hany
  have hzero : r4 = 0 := hr4.zero.mpr (by simp [hcmp, ha, hb, hc, hd, compareNat])
  refine ⟨z, a, b, c, d, hrun, hwell, hselect 3 c (by decide) rfl, hnone 5 (by simp), hone ▸ hthree, ?_,
    hzero ▸ hfour⟩
  rcases htwo with rfl | rfl
  · exact Or.inl hfive
  · exact Or.inr hfive

end Zskiplist

end BoAtom
