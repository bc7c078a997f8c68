import BoAtom.Skiplist.WellFormed

/-! # `zslInsert`

    The new node goes between the two parts of the list the search has
    found.  On its own levels it takes over the rest of the span of
    `update[i]`, on the higher ones the span grows by one, and every other
    element of `level[]` is as it was. -/

namespace BoAtom

open Memory Towers

namespace Zskiplist

variable {α : Type} {z z' : Zskiplist α} {es before after c d : List (Entry α)} {x e f : Entry α}
  {i n : Nat} {more : Nat → Option α → Bool} {path : List (NodeId × Nat)}

/-! ## Section 1: Places in the new list -/

/-- A place in the list with `x` is one in front of `x` or one behind it. -/
theorem cut_insert (h : before ++ x :: after = c ++ d) :
    (∃ m, before = c ++ m ∧ d = m ++ x :: after) ∨ ∃ m, c = before ++ x :: m ∧ after = m ++ d := by
  rcases List.append_eq_append_iff.mp h with ⟨m, hc, hm⟩ | ⟨m, hb, hd⟩
  · rcases List.cons_eq_append_iff.mp hm with ⟨rfl, hd⟩ | ⟨m', rfl, hm'⟩
    · rw [List.append_nil] at hc
      exact .inl ⟨[], by rw [hc, List.append_nil], hd⟩
    · exact .inr ⟨m', hc, hm'⟩
  · exact .inl ⟨m, hb, hd⟩

/-! ## Section 2: Levels used for the first time -/

/-- No node is as high as a level out of use. -/
theorem WellFormed.low (h : WellFormed z es) (hi : z.level ≤ i) : Low Entry.height i es :=
  fun e he => (h.heights e he).2.trans hi

theorem raiseLevel_spec {l : ZskiplistLevel} (hl : z.lev z.header i = some l) :
    ∃ z', z.raiseLevel i = .ok z' ∧ SameList z z' ∧ z'.shape = z.shape ∧ ∀ y j, z'.lev y j =
      if y = z.header ∧ j = i then some { l with span := UInt32.ofNat z.length } else z.lev y j := by
  obtain ⟨z', hset, hz'⟩ := setLevel_spec { l with span := UInt32.ofNat z.length } hl
  refine ⟨z', ?_, hz'⟩
  simp only [raiseLevel, bind, Except.bind, levelAt_eq hl]
  exact hset

/-- The header spans the list on the levels that come into use. -/
theorem WellFormed.raise (added : Nat) (h : WellFormed z es) (hle : z.level + added ≤ zskiplistMaxLevel) :
    ∃ z', (List.range' z.level added).foldlM raiseLevel z = .ok z' ∧ SameList z z' ∧
      z'.shape = z.shape ∧ Links { z' with level := z'.level + added } es := by
  have hheader : ∀ i, i < zskiplistMaxLevel → ∃ l, z.lev z.header i = some l := by
    intro i hi
    obtain ⟨l, hl, -⟩ := h.link [] es i rfl hi
    exact ⟨l, hl⟩
  -- each turn writes one row of the header, and only its span
  have hstep : ∀ i ∈ List.range' z.level added, ∀ z', SameList z z' → z'.shape = z.shape →
      (∀ y, z'.lev y i = z.lev y i) → ∃ z'', z'.raiseLevel i = .ok z'' ∧ SameList z' z'' ∧
        z''.shape = z'.shape ∧ ∀ y j, z''.lev y j = if j = i then (if y = z.header then
          (z.lev y i).map fun l => { l with span := UInt32.ofNat z.length } else z.lev y i)
          else z'.lev y j := by
    intro i hi z₁ hsame hshape hrow
    have hrange := List.mem_range'_1.mp hi
    obtain ⟨l, hl⟩ := hheader i (by omega)
    have hl₁ : z₁.lev z₁.header i = some l := by rw [hsame.header, hrow, hl]
    obtain ⟨z₂, hset, hsame₂, hshape₂, hlev₂⟩ := raiseLevel_spec hl₁
    refine ⟨z₂, hset, hsame₂, hshape₂, fun y j => ?_⟩
    rw [hlev₂, hsame.header, hsame.length]
    by_cases hj : j = i
    · subst hj
      by_cases hy : y = z.header
      · simp [hy, hl]
      · simp [hy, hrow]
    · simp [hj]
  obtain ⟨z', hfold, hsame, hshape, hlev⟩ := fold_levels raiseLevel _ List.nodup_range' hstep
  refine ⟨z', hfold, hsame, hshape, ?_⟩
  intro c d i hes hi
  obtain ⟨l, hl, hforward, hspan⟩ := h.link c d i hes hi
  have howner : ({ z' with level := z'.level + added } : Zskiplist α).owner c = z.owner c := by
    unfold owner
    rw [← hsame.header]
  have hlev' : ({ z' with level := z'.level + added } : Zskiplist α).lev (z.owner c) i =
      z'.lev (z.owner c) i := rfl
  rw [howner, hlev', hlev]
  by_cases hin : i ∈ List.range' z.level added
  · -- only the header reaches up to there
    rw [if_pos hin]
    have hrange := List.mem_range'_1.mp hin
    have hlow := h.low hrange.1
    have hnil : c = [] := by
      induction c using List.reverseRec with
      | nil => rfl
      | append_singleton c e _ =>
        rw [top_concat] at hi
        have := hlow e (by rw [hes]; simp)
        omega
    subst hnil
    rw [List.nil_append] at hes
    subst hes
    rw [owner_nil] at hl ⊢
    refine ⟨{ l with span := UInt32.ofNat z.length }, by simp [hl], hforward, fun _ => ?_⟩
    rw [hop_low hlow, h.length]
  · -- a level in use before, whose row the loop has not touched
    rw [if_neg hin]
    refine ⟨l, hl, hforward, fun hlt => hspan ?_⟩
    have hlt' : i < z.level + added := by
      rw [← hsame.level]
      exact hlt
    by_contra hge
    exact hin (List.mem_range'_1.mpr ⟨Nat.le_of_not_lt hge, hlt'⟩)

/-! ## Section 3: Linking -/

/-- The distance from `update[i]` to the place: `rank[0] - rank[i]`. -/
def gap (before : List (Entry α)) (i : Nat) : UInt32 :=
  UInt32.ofNat before.length - UInt32.ofNat (foot Entry.height i before).length

/-- What the two loops over the levels have written. -/
structure Inserted (z z' : Zskiplist α) (before : List (Entry α)) (x : Entry α) : Prop where
  on : ∀ i l, i < x.height → z.lev (z.owner (foot Entry.height i before)) i = some l →
    z'.lev (z.owner (foot Entry.height i before)) i = some ⟨some x.id, gap before i + 1⟩ ∧
    z'.lev x.id i = some ⟨l.forward, l.span - gap before i⟩
  above : ∀ i l, x.height ≤ i → i < z.level → z.lev (z.owner (foot Entry.height i before)) i = some l →
    z'.lev (z.owner (foot Entry.height i before)) i = some { l with span := l.span + 1 }
  frame : ∀ y i, y ≠ x.id → (i < z.level → y ≠ z.owner (foot Entry.height i before)) →
    z'.lev y i = z.lev y i

theorem gap_eq {low : List (Entry α)} (h : before = foot Entry.height i before ++ low) :
    gap before i = UInt32.ofNat low.length := by
  unfold gap
  have hlen := congrArg List.length h
  rw [List.length_append] at hlen
  rw [hlen, UInt32.ofNat_add]
  grind

theorem Links.insert (h : Links z (before ++ after)) (hids : (z.header :: (before ++ after).map Entry.id).Nodup)
    (hx : x.id ∉ z.header :: (before ++ after).map Entry.id) (hheight : x.height ≤ z.level)
    (hmax : z.level ≤ zskiplistMaxLevel)
    (hins : Inserted z z' before x) (hheader : z'.header = z.header) (hlevel : z'.level = z.level) :
    Links z' (before ++ x :: after) := by
  have howner : ∀ c, z'.owner c = z.owner c := fun c => owner_congr hheader
  have hfresh : ∀ c d, before ++ after = c ++ d → z.owner c ≠ x.id := by
    intro c d hcut heq
    exact hx (heq ▸ owner_mem z hcut)
  intro c d i hcut hi
  rw [howner, hlevel]
  obtain ⟨low, hplace, hbefore, hlow⟩ := foot_cut Entry.height i before after
  rcases cut_insert hcut with ⟨m, hb, hd⟩ | ⟨m, hc, ha⟩
  · -- in front of `x`
    have hold : before ++ after = c ++ (m ++ after) := by rw [hb, List.append_assoc]
    obtain ⟨l, hl, hforward, hspan⟩ := h c (m ++ after) i hold hi
    by_cases hm : Low Entry.height i m
    · -- the place of `update[i]`
      have hfoot : foot Entry.height i before = c := by
        rw [hb, foot_append_low hm, foot_of_top hi]
      rw [hop_append_low hm] at hforward hspan
      rw [hd, hop_append_low hm]
      have hgap : gap before i = UInt32.ofNat m.length := gap_eq (by rw [hfoot, hb])
      by_cases hon : i < x.height
      · have hrow := (hins.on i l hon (by rwa [hfoot])).1
        rw [hfoot] at hrow
        rw [hop_cons_high hon]
        refine ⟨_, hrow, rfl, fun _ => ?_⟩
        rw [hgap, UInt32.ofNat_add]
        rfl
      · rw [hop, if_neg hon]
        by_cases hlt : i < z.level
        · have hrow := hins.above i l (Nat.le_of_not_lt hon) hlt (by rwa [hfoot])
          rw [hfoot] at hrow
          refine ⟨_, hrow, hforward, fun _ => ?_⟩
          simp only [hspan hlt, UInt32.ofNat_add]
          grind
        · refine ⟨l, ?_, hforward, fun hlt' => absurd hlt' hlt⟩
          rw [hins.frame _ _ (hfresh _ _ hold) fun hlt' => absurd hlt' hlt, hl]
    · -- the hop ends before `x`
      rw [hop_append_high hm] at hforward hspan
      rw [hd, hop_append_high hm]
      refine ⟨l, ?_, hforward, hspan⟩
      rw [hins.frame _ _ (hfresh _ _ hold), hl]
      intro _ heq
      have hsame := owner_inj hids hold hplace heq
      rw [hb] at hsame
      exact foot_append_ne hm hsame.symm
  · induction m using List.reverseRec with
    | nil =>
      -- the place right behind `x`
      rw [hc, top_concat] at hi
      rw [List.nil_append] at ha
      obtain ⟨l, hl, hforward, hspan⟩ := h _ _ i hplace (lt_top_foot (by omega))
      rw [hop_append_low hlow] at hforward hspan
      rw [hc, owner_concat]
      refine ⟨_, (hins.on i l hi hl).2, by rw [hforward, ha], fun hlt => ?_⟩
      simp only [hspan hlt, gap_eq hbefore, UInt32.ofNat_add, ha]
      grind
    | append_singleton m e _ =>
      -- behind a later node
      rw [hc, show before ++ x :: (m ++ [e]) = (before ++ x :: m) ++ [e] by simp] at hi ⊢
      have hold : before ++ after = (before ++ m ++ [e]) ++ d := by rw [ha]; simp
      rw [top_concat] at hi
      obtain ⟨l, hl, hforward, hspan⟩ := h _ d i hold (by rwa [top_concat])
      have hne := hfresh _ _ hold
      rw [owner_concat] at hl hne ⊢
      refine ⟨l, ?_, hforward, hspan⟩
      rw [hins.frame _ _ hne, hl]
      intro _ heq
      have hlong : before.length < (before ++ m ++ [e]).length := by
        simp only [List.length_append, List.length_singleton]
        omega
      exact owner_ne_foot hids hold rfl hlong (owner_concat.trans heq)

/-! ## Section 4: The loops over the levels -/

variable {update : List NodeId} {rank : List UInt32} {u y : NodeId} {r r0 : UInt32}
  {l l0 : ZskiplistLevel}

theorem linkLevel_spec {x : NodeId} (hu : update[i]? = some u) (hr : rank[i]? = some r)
    (hr0 : rank[0]? = some r0) (hl : z.lev u i = some l) (hx : z.lev x i = some l0) (hne : u ≠ x) :
    ∃ z', linkLevel update rank x z i = .ok z' ∧ SameList z z' ∧ z'.shape = z.shape ∧
      ∀ y j, z'.lev y j = if j = i then
        (if y = u then some ⟨some x, r0 - r + 1⟩
          else if y = x then some ⟨l.forward, l.span - (r0 - r)⟩ else z.lev y i)
        else z.lev y j := by
  obtain ⟨z₁, hset₁, hsame₁, hshape₁, hlev₁⟩ := setLevel_at ⟨l.forward, l.span - (r0 - r)⟩ hx
  have hl₁ : z₁.lev u i = some l := by rw [hlev₁, if_pos rfl, if_neg hne, hl]
  obtain ⟨z₂, hset₂, hsame₂, hshape₂, hlev₂⟩ := setLevel_at ⟨some x, r0 - r + 1⟩ hl₁
  refine ⟨z₂, ?_, hsame₁.trans hsame₂, hshape₂.trans hshape₁, fun y j => ?_⟩
  · simp only [linkLevel, bind, Except.bind, entry_eq hu, entry_eq hr, entry_eq hr0, levelAt_eq hl, hset₁]
    exact hset₂
  · rw [hlev₂, hlev₁, hlev₁, if_pos rfl]
    by_cases hj : j = i
    · rw [if_pos hj, if_pos hj]
    · rw [if_neg hj, if_neg hj, if_neg hj]

theorem passLevel_spec (hu : update[i]? = some u) (hl : z.lev u i = some l) :
    ∃ z', passLevel update z i = .ok z' ∧ SameList z z' ∧ z'.shape = z.shape ∧
      ∀ y j, z'.lev y j = if j = i then
        (if y = u then some { l with span := l.span + 1 } else z.lev y i) else z.lev y j := by
  obtain ⟨z₁, hset, hsame, hshape, hlev⟩ := setLevel_at { l with span := l.span + 1 } hl
  refine ⟨z₁, ?_, hsame, hshape, hlev⟩
  simp only [passLevel, bind, Except.bind, entry_eq hu, levelAt_eq hl]
  exact hset

/-- Both loops, after the new node is in memory. -/
theorem levels_inserted (hx : ∀ i < x.height, ∃ l, z.lev x.id i = some l)
    (hne : ∀ i, z.owner (foot Entry.height i before) ≠ x.id) (hheight : x.height ≤ z.level)
    (hpos : 0 < z.level) (hfoot : foot Entry.height 0 before = before)
    (hlink : ∀ i < z.level, ∃ l, z.lev (z.owner (foot Entry.height i before)) i = some l)
    (hupdate : ∀ i < z.level, update[i]? = some (z.owner (foot Entry.height i before)))
    (hrank : ∀ i < z.level, rank[i]? = some (UInt32.ofNat (foot Entry.height i before).length)) :
    ∃ z₁ z', (List.range x.height).foldlM (linkLevel update rank x.id) z = .ok z₁ ∧
      (List.range' x.height (z₁.level - x.height)).foldlM (passLevel update) z₁ = .ok z' ∧
      SameList z z' ∧ z'.shape = z.shape ∧ Inserted z z' before x := by
  have hr0 := hrank 0 hpos
  rw [hfoot] at hr0
  -- on the node's own levels it is linked in behind `update[i]`
  have hstep : ∀ i ∈ List.range x.height, ∀ z', SameList z z' → z'.shape = z.shape →
      (∀ y, z'.lev y i = z.lev y i) → ∃ z'', linkLevel update rank x.id z' i = .ok z'' ∧
        SameList z' z'' ∧ z''.shape = z'.shape ∧ ∀ y j, z''.lev y j = if j = i then
          (if y = z.owner (foot Entry.height i before) then some ⟨some x.id, gap before i + 1⟩
            else if y = x.id then (z.lev (z.owner (foot Entry.height i before)) i).map fun l =>
              ⟨l.forward, l.span - gap before i⟩ else z.lev y i) else z'.lev y j := by
    intro i hi z₁ hsame hshape hrow
    have hlt := List.mem_range.mp hi
    obtain ⟨l, hl⟩ := hlink i (by omega)
    obtain ⟨l0, hl0⟩ := hx i hlt
    obtain ⟨z₂, hstep, hsame₂, hshape₂, hlev₂⟩ := linkLevel_spec (hupdate i (by omega))
      (hrank i (by omega)) hr0 ((hrow _).trans hl) ((hrow _).trans hl0) (hne i)
    refine ⟨z₂, hstep, hsame₂, hshape₂, fun y j => ?_⟩
    rw [hlev₂, hl, hrow]
    rfl
  obtain ⟨z₁, hfold₁, hsame₁, hshape₁, hlev₁⟩ := fold_levels _ _ List.nodup_range hstep
  -- above them `update[i]` jumps over it, and its span grows by one
  have hstep' : ∀ i ∈ List.range' x.height (z₁.level - x.height), ∀ z', SameList z₁ z' →
      z'.shape = z₁.shape → (∀ y, z'.lev y i = z₁.lev y i) → ∃ z'', passLevel update z' i = .ok z'' ∧
        SameList z' z'' ∧ z''.shape = z'.shape ∧ ∀ y j, z''.lev y j = if j = i then
          (if y = z.owner (foot Entry.height i before) then
            (z.lev (z.owner (foot Entry.height i before)) i).map fun l => { l with span := l.span + 1 }
            else z₁.lev y i) else z'.lev y j := by
    intro i hi z₂ hsame hshape hrow
    have hrange := List.mem_range'_1.mp hi
    have hlevel := hsame₁.level
    obtain ⟨l, hl⟩ := hlink i (by omega)
    have hl₁ : z₁.lev (z.owner (foot Entry.height i before)) i = some l := by
      rw [hlev₁, if_neg (by simp only [List.mem_range]; omega), hl]
    obtain ⟨z₃, hstep, hsame₃, hshape₃, hlev₃⟩ := passLevel_spec (hupdate i (by omega)) ((hrow _).trans hl₁)
    refine ⟨z₃, hstep, hsame₃, hshape₃, fun y j => ?_⟩
    rw [hlev₃, hl, hrow]
    rfl
  obtain ⟨z', hfold', hsame', hshape', hlev'⟩ := fold_levels _ _ List.nodup_range' hstep'
  refine ⟨z₁, z', hfold₁, hfold', hsame₁.trans hsame', hshape'.trans hshape₁, ?_, ?_, ?_⟩
  · intro i l hi hl
    have hout : i ∉ List.range' x.height (z₁.level - x.height) := by
      intro hmem
      have := (List.mem_range'_1.mp hmem).1
      omega
    have hin : i ∈ List.range x.height := List.mem_range.mpr hi
    rw [hlev', hlev', if_neg hout, if_neg hout, hlev₁, hlev₁, if_pos hin, if_pos hin, if_pos rfl,
      if_neg (hne i).symm, if_pos rfl, hl]
    exact ⟨rfl, rfl⟩
  · intro i l hge hlt hl
    have hin : i ∈ List.range' x.height (z₁.level - x.height) := by
      have := hsame₁.level
      exact List.mem_range'_1.mpr ⟨hge, by omega⟩
    rw [hlev', if_pos hin, if_pos rfl, hl]
    rfl
  · intro y i hy hu
    rw [hlev', hlev₁]
    by_cases hin : i ∈ List.range' x.height (z₁.level - x.height)
    · have hrange := List.mem_range'_1.mp hin
      have hlevel := hsame₁.level
      have hout : i ∉ List.range x.height := by
        intro hmem
        have := List.mem_range.mp hmem
        omega
      rw [if_pos hin, if_neg (hu (by omega)), if_neg hout]
    · rw [if_neg hin]
      by_cases hin' : i ∈ List.range x.height
      · have hlt := List.mem_range.mp hin'
        rw [if_pos hin', if_neg (hu (by omega)), if_neg hy]
      · rw [if_neg hin']

theorem linkNode_spec (obj : Option α) (h : Links z (before ++ after))
    (hids : (z.header :: (before ++ after).map Entry.id).Nodup)
    (hlt : ∀ id ∈ z.header :: (before ++ after).map Entry.id, id < z.nodes.cells.length)
    (hfoot : foot Entry.height 0 before = before) (hn : 0 < n) (hheight : n ≤ z.level)
    (hmax : z.level ≤ zskiplistMaxLevel)
    (hupdate : ∀ i < z.level, update[i]? = some (z.owner (foot Entry.height i before)))
    (hrank : ∀ i < z.level, rank[i]? = some (UInt32.ofNat (foot Entry.height i before).length)) :
    ∃ z', z.linkNode update rank n obj = .ok (z', z.nodes.cells.length) ∧
      SameList { z with nodes := (z.nodes.alloc (zslCreateNode n obj)).2 } z' ∧
      Links z' (before ++ ⟨z.nodes.cells.length, obj, n⟩ :: after) ∧
      ∀ y, z'.shape y = if y = z.nodes.cells.length then some (obj, none, n) else z.shape y := by
  obtain ⟨hshape₁, hlev₁⟩ := alloc_spec (z := z) (zslCreateNode n obj)
  set z₁ : Zskiplist α := { z with nodes := (z.nodes.alloc (zslCreateNode n obj)).2 } with hz₁
  set x : Entry α := ⟨z.nodes.cells.length, obj, n⟩ with hx
  have hfresh : x.id ∉ z₁.header :: (before ++ after).map Entry.id :=
    fun hmem => absurd (hlt _ hmem) (lt_irrefl _)
  have hother : ∀ c d, before ++ after = c ++ d → z₁.owner c ≠ x.id :=
    fun c d hcut heq => hfresh (heq ▸ owner_mem z₁ hcut)
  -- the new block is in nobody's way: the old list stands beside it
  have hlinks₁ : Links z₁ (before ++ after) := by
    intro c d i hcut hi
    obtain ⟨l, hl, hrest⟩ := h c d i hcut hi
    refine ⟨l, ?_, hrest⟩
    rw [hlev₁, if_neg (hother c d hcut)]
    exact hl
  have hlevels : ∀ i < x.height, ∃ l, z₁.lev x.id i = some l := by
    intro i hi
    rw [hlev₁, if_pos rfl]
    exact ⟨⟨none, 0⟩, by simpa [zslCreateNode, List.getElem?_replicate] using hi⟩
  have hne : ∀ i, z₁.owner (foot Entry.height i before) ≠ x.id := by
    intro i
    obtain ⟨low, hcut, -⟩ := foot_cut Entry.height i before after
    exact hother _ _ hcut
  have hlink : ∀ i < z₁.level, ∃ l, z₁.lev (z₁.owner (foot Entry.height i before)) i = some l := by
    intro i hi
    obtain ⟨low, hcut, -⟩ := foot_cut Entry.height i before after
    obtain ⟨l, hl, -⟩ := hlinks₁ _ _ i hcut (lt_top_foot (hi.trans_le hmax))
    exact ⟨l, hl⟩
  obtain ⟨z₂, z₃, hfold, hfold', hsame, hshape, hinserted⟩ :=
    levels_inserted hlevels hne hheight (hn.trans_le hheight) hfoot hlink hupdate hrank
  refine ⟨z₃, ?_, hsame, ?_, fun y => ?_⟩
  · have halloc : z.nodes.alloc (zslCreateNode n obj) = (x.id, z₁.nodes) := rfl
    have hfold₂ : (List.range n).foldlM (linkLevel update rank x.id) z₁ = .ok z₂ := hfold
    have hfold₃ : (List.range' n (z₂.level - n)).foldlM (passLevel update) z₂ = .ok z₃ := hfold'
    simp only [linkNode, halloc, bind, Except.bind]
    rw [hfold₂]
    simp only [hfold₃]
    rfl
  · exact hlinks₁.insert hids hfresh hheight hmax hinserted hsame.header hsame.level
  · rw [hshape, hshape₁]
    simp [zslCreateNode]

/-! ## Section 5: Back pointers -/

/-- Objects, back pointers and heights with `x` in the list. -/
theorem Shapes.insert (h : Shapes z (before ++ after)) (hids : ((before ++ after).map Entry.id).Nodup)
    (hx : x.id ∉ (before ++ after).map Entry.id)
    (hshape : ∀ y, z'.shape y = if after.head?.map Entry.id = some y then
      (z.shape y).map fun s => (s.1, some x.id, s.2.2)
      else if y = x.id then some (x.obj, before.getLast?.map Entry.id, x.height) else z.shape y) :
    Shapes z' (before ++ x :: after) := by
  have hne : ∀ e ∈ before ++ after, e.id ≠ x.id := by
    intro e he heq
    exact hx (heq ▸ List.mem_map_of_mem he)
  have hhead : ∀ f, after.head? = some f → f ∈ after := fun f hf => List.mem_of_head? hf
  intro c e d hcut
  rw [hshape]
  rcases cut_insert hcut with ⟨m, hb, hd⟩ | ⟨m, hc, ha⟩
  · rcases List.cons_eq_append_iff.mp hd with ⟨rfl, hed⟩ | ⟨m', rfl, hd'⟩
    · -- `x` itself
      cases hed
      rw [List.append_nil] at hb
      rw [if_neg, if_pos rfl, hb]
      intro heq
      obtain ⟨f, hf, hid⟩ := Option.map_eq_some_iff.mp heq
      exact hne f (List.mem_append_right _ (hhead f hf)) hid
    · -- a node in front of `x`
      have hold : before ++ after = c ++ e :: (m' ++ after) := by rw [hb]; simp
      rw [if_neg, if_neg (hne e (by rw [hold]; simp))]
      · exact h c e _ hold
      · intro heq
        obtain ⟨f, hf, hid⟩ := Option.map_eq_some_iff.mp heq
        exact id_ne hids hold (Or.inr (List.mem_append_right _ (hhead f hf))) hid
  · induction m using List.reverseRec with
    | nil =>
      -- the node right behind `x`
      rw [List.nil_append] at ha
      have hold := h before e d (by rw [ha])
      rw [ha, if_pos (by simp), hold, hc]
      simp
    | append_singleton m g _ =>
      have hold : before ++ after = (before ++ m ++ [g]) ++ e :: d := by rw [ha]; simp
      have hc' : c = (before ++ x :: m) ++ [g] := by rw [hc]; simp
      rw [if_neg, if_neg (hne e (by rw [hold]; simp)), h _ e d hold, hc']
      · rw [List.getLast?_concat, List.getLast?_concat]
      · intro heq
        obtain ⟨f, hf, hid⟩ := Option.map_eq_some_iff.mp heq
        refine id_ne hids hold (Or.inl ?_) hid
        -- the head of `after` is in `m ++ [g]`
        rw [ha] at hf
        rw [List.append_assoc]
        apply List.mem_append_right
        cases m <;> simp_all

/-- The end of the insertion. -/
theorem linkBackward_spec (hlinks : Links z (before ++ x :: after)) (hshapes : Shapes z' (before ++ after))
    (hids : (z.header :: (before ++ x :: after).map Entry.id).Nodup)
    (hpos : ∀ e ∈ before ++ x :: after, 0 < e.height)
    (hshape : ∀ y, z.shape y = if y = x.id then some (x.obj, none, x.height) else z'.shape y) :
    ∃ z'', z.linkBackward (z.owner before) x.id = .ok z'' ∧
      SameList { z with tail := if after = [] then some x.id else z.tail, length := z.length + 1 } z'' ∧
      Links z'' (before ++ x :: after) ∧ Shapes z'' (before ++ x :: after) ∧
      z''.shape z.header = z'.shape z.header := by
  have hmine : z.shape x.id = some (x.obj, none, x.height) := by rw [hshape, if_pos rfl]
  -- `backward` is NULL at the front of the list and never points to the header
  have hback : (if z.owner before = z.header then none else some (z.owner before)) =
      before.getLast?.map Entry.id := by
    induction before using List.reverseRec with
    | nil => simp
    | append_singleton before e _ =>
      have hne : e.id ≠ z.header := id_ne_header hids (by simp)
      simp [hne]
  obtain ⟨z₁, hset, hsame₁, hlev₁, hshape₁⟩ := setBackward_spec (before.getLast?.map Entry.id) hmine
  obtain ⟨l, hl, hforward⟩ := hlinks.next_cons hpos
  rw [← hlev₁] at hl
  have hids' : ((before ++ after).map Entry.id).Nodup ∧ x.id ∉ (before ++ after).map Entry.id := by
    have hnodup := (List.nodup_cons.mp hids).2
    rw [List.map_append, List.map_cons, List.perm_middle.nodup_iff, ← List.map_append] at hnodup
    exact ⟨(List.nodup_cons.mp hnodup).2, (List.nodup_cons.mp hnodup).1⟩
  have hnew : ∀ f, after.head? = some f → f.id ≠ x.id := by
    intro f hf heq
    exact hids'.2 (heq ▸ List.mem_map_of_mem (List.mem_append_right _ (List.mem_of_head? hf)))
  -- the node behind it, if there is one, gets its `backward`; else the tail is moved
  have hnext : ∀ y, l.forward = some y → (z₁.shape y).isSome := by
    intro y hy
    rw [hforward] at hy
    obtain ⟨f, hf, rfl⟩ := Option.map_eq_some_iff.mp hy
    obtain ⟨d, hd⟩ := List.head?_eq_some_iff.mp hf
    rw [hshape₁, if_neg (hnew f hf), hshape, if_neg (hnew f hf), hshapes before f d (by rw [hd])]
    rfl
  obtain ⟨z₂, hbehind, hsame₂, hlev₂, hshape₂⟩ := setBehind_spec (some x.id) hl hnext
  have hheader : z₂.header = z.header := hsame₂.header.trans hsame₁.header
  have hlevel : z₂.level = z.level := hsame₂.level.trans hsame₁.level
  have htail : z₂.tail = if after = [] then some x.id else z.tail := by
    rw [hsame₂.tail]
    show (if l.forward = none then some x.id else z₁.tail) = _
    rw [hforward, hsame₁.tail]
    cases after <;> simp
  refine ⟨{ z₂ with length := z₂.length + 1 }, ?_, ?_, ?_, ?_, ?_⟩
  · rw [← hback] at hset
    simp only [linkBackward, bind, Except.bind, hset, hbehind]
    rfl
  · refine ⟨hheader, hsame₂.cells.trans hsame₁.cells, hsame₂.cmp.trans hsame₁.cmp,
      hsame₂.freeObj.trans hsame₁.freeObj, hsame₂.freed.trans hsame₁.freed, ?_, hlevel, htail⟩
    exact congrArg (· + 1) (hsame₂.length.trans hsame₁.length)
  · exact hlinks.congr (hlev₂.trans hlev₁) hheader hlevel
  · apply hshapes.insert hids'.1 hids'.2
    intro y
    show z₂.shape y = _
    rw [hshape₂, hforward, hshape₁, hshape]
    by_cases hy : after.head?.map Entry.id = some y
    · obtain ⟨f, hf, rfl⟩ := Option.map_eq_some_iff.mp hy
      rw [if_pos hy, if_pos hy, if_neg (hnew f hf), if_neg (hnew f hf)]
    · rw [if_neg hy, if_neg hy]
      by_cases hx : y = x.id
      · rw [if_pos hx, if_pos hx]
      · rw [if_neg hx, if_neg hx, if_neg hx]
  · show z₂.shape z.header = _
    rw [hshape₂, hforward, hshape₁, hshape]
    have hne : z.header ≠ x.id := fun heq => id_ne_header hids (by simp) heq.symm
    rw [if_neg, if_neg hne, if_neg hne]
    intro hhead
    obtain ⟨f, hf, hid⟩ := Option.map_eq_some_iff.mp hhead
    have hin : f ∈ before ++ x :: after := by
      apply List.mem_append_right
      exact List.mem_cons_of_mem _ (List.mem_of_head? hf)
    exact id_ne_header hids hin hid

/-! ## Section 6: The function -/

theorem zslRandomLevel_pos (draws : List Nat) : 0 < zslRandomLevel draws := by
  unfold zslRandomLevel
  simp only
  split
  · omega
  · exact Nat.zero_lt_succ 31

theorem zslRandomLevel_le (draws : List Nat) : zslRandomLevel draws ≤ zskiplistMaxLevel := by
  unfold zslRandomLevel
  simp only
  split
  · omega
  · exact le_refl _

/-- Every level between 1 and the maximum comes up. -/
theorem zslRandomLevel_surj (h : 0 < n) (hn : n ≤ zskiplistMaxLevel) :
    ∃ draws, zslRandomLevel draws = n := by
  refine ⟨List.replicate (n - 1) 0, ?_⟩
  have hlow : (List.replicate (n - 1) 0).takeWhile (fun r => decide (r % 2 ^ 16 ≤ 16383)) =
      List.replicate (n - 1) 0 := by simp
  unfold zslRandomLevel
  simp only [hlow, List.length_replicate]
  split <;> omega

/-- `update[]` and `rank[]` with the levels that come into use. -/
theorem Found.arrays (h : Found z more before after path) (level : Nat)
    (hlow : ∀ i, z.level ≤ i → Low Entry.height i before) (hi : i < z.level + (level - z.level)) :
    (path.map Prod.fst ++ List.replicate (level - z.level) z.header)[i]? =
      some (z.owner (foot Entry.height i before)) ∧
    (path.map (fun p => UInt32.ofNat p.2) ++ List.replicate (level - z.level) 0)[i]? =
      some (UInt32.ofNat (foot Entry.height i before).length) := by
  by_cases hlt : i < z.level
  · obtain ⟨t, hentry, hmeasure⟩ := h.stops i hlt
    have hpath : i < path.length := by rwa [h.length]
    rw [List.getElem?_append_left (by simpa using hpath), List.getElem?_append_left (by simpa using hpath),
      List.getElem?_map, List.getElem?_map, hentry]
    refine ⟨rfl, ?_⟩
    have hmod : UInt32.ofNat t = UInt32.ofNat (foot Entry.height i before).length := by
      apply UInt32.toNat_inj.mp
      rw [UInt32.toNat_ofNat', UInt32.toNat_ofNat']
      exact hmeasure.1
    rw [Option.map_some, hmod]
  · have hfoot : foot Entry.height i before = [] := by
      have happend := foot_append_low (l := []) (hlow i (Nat.le_of_not_lt hlt))
      rwa [List.nil_append, foot_nil] at happend
    have hpath : path.length ≤ i := by rw [h.length]; omega
    have hin : i - path.length < level - z.level := by rw [h.length]; omega
    rw [List.getElem?_append_right (by simpa using hpath), List.getElem?_append_right (by simpa using hpath),
      List.length_map, List.length_map, List.getElem?_replicate, List.getElem?_replicate, if_pos hin,
      if_pos hin, hfoot]
    exact ⟨rfl, rfl⟩

/-- What comes of an insertion. -/
structure InsertedAt (z z' : Zskiplist α) (es before after : List (Entry α)) (x : Entry α) : Prop where
  split : es = before ++ after
  wellFormed : WellFormed z' (before ++ x :: after)
  cmp : z'.cmp = z.cmp
  freed : z'.freed = z.freed
  last : ∀ e, before.getLast? = some e → z.cmp e.obj x.obj < 0
  next : ∀ f, after.head? = some f → ¬ z.cmp f.obj x.obj < 0

theorem WellFormed.id_lt (h : WellFormed z es) {id : NodeId} (hid : id ∈ z.header :: es.map Entry.id) :
    id < z.nodes.cells.length := by
  rcases List.mem_cons.mp hid with rfl | hid
  · exact lt_of_shape h.header
  · obtain ⟨e, he, rfl⟩ := List.mem_map.mp hid
    obtain ⟨c, d, hes⟩ := List.append_of_mem he
    exact lt_of_shape (h.node c e d hes)

theorem forall_insert {P : Entry α → Prop} (h : ∀ e ∈ before ++ after, P e) (hx : P x) :
    ∀ e ∈ before ++ x :: after, P e := by
  intro e he
  rcases List.mem_append.mp he with he | he
  · exact h e (List.mem_append_left _ he)
  · rcases List.mem_cons.mp he with rfl | he
    · exact hx
    · exact h e (List.mem_append_right _ he)

/-- The memory of a list with `x`, once each part of it is right. -/
theorem WellFormed.inserted (h : WellFormed z (before ++ after))
    (hnodes : Shapes z' (before ++ x :: after)) (hlinks : Links z' (before ++ x :: after))
    (hids : (z'.header :: (before ++ x :: after).map Entry.id).Nodup)
    (hshape : z'.shape z'.header = z.shape z.header) (hx : 0 < x.height)
    (hmax : x.height ≤ zskiplistMaxLevel) (hlevel : z'.level = z.level + (x.height - z.level))
    (htail : z'.tail = if after = [] then some x.id else z.tail) (hlength : z'.length = z.length + 1)
    (hcells : z'.nodes.cells.length = z.nodes.cells.length + 1) :
    WellFormed z' (before ++ x :: after) := by
  have hle := h.level_le
  have hold : ∀ e ∈ before ++ after, e ∈ before ++ x :: after := by
    intro e he
    rcases List.mem_append.mp he with he | he
    · exact List.mem_append_left _ he
    · exact List.mem_append_right _ (List.mem_cons_of_mem _ he)
  refine ⟨hshape.trans h.header, hnodes, hlinks, hids, ?_, ?_, ?_, ?_, by omega, ?_⟩
  · apply forall_insert
    · intro e he
      have := h.heights e he
      omega
    · omega
  · -- the tail is the new node if nothing stands behind it
    rw [htail, h.tail, List.getLast?_append, List.getLast?_append, List.getLast?_cons]
    rcases hlast : after.getLast? with _ | f
    · rw [List.getLast?_eq_none_iff.mp hlast]
      rfl
    · have hne : after ≠ [] := by
        intro hnil
        simp [hnil] at hlast
      rw [if_neg hne]
      rfl
  · rw [hlength, h.length]
    simp only [List.length_append, List.length_cons]
    omega
  · -- the new node is the highest one, or the level has not changed
    by_cases hraised : z.level < x.height
    · exact Or.inr ⟨x, by simp, by omega⟩
    · rcases h.level with hone | ⟨e, he, heq⟩
      · exact Or.inl (by omega)
      · exact Or.inr ⟨e, hold e he, by omega⟩
  · have hroom := h.room
    simp only [List.length_append, List.length_cons] at hroom ⊢
    omega

theorem ids_insert {id : NodeId} (hids : (id :: (before ++ after).map Entry.id).Nodup)
    (hx : x.id ∉ id :: (before ++ after).map Entry.id) :
    (id :: (before ++ x :: after).map Entry.id).Nodup := by
  have hperm : (id :: (before ++ x :: after).map Entry.id).Perm
      (x.id :: id :: (before ++ after).map Entry.id) := by
    rw [List.map_append, List.map_cons, List.map_append]
    exact (List.perm_middle.cons _).trans (List.Perm.swap _ _ _)
  exact hperm.nodup_iff.mpr (List.nodup_cons.mpr ⟨hx, hids⟩)

theorem WellFormed.insert (h : WellFormed z es) (obj : Option α) (draws : List Nat) :
    ∃ z' before after x, z.zslInsert obj draws = .ok (z', x.id) ∧ x.obj = obj ∧
      x.height = zslRandomLevel draws ∧ InsertedAt z z' es before after x := by
  have hn := zslRandomLevel_pos draws
  have hmax := zslRandomLevel_le draws
  have hle := h.level_le
  have hpos := h.level_pos
  obtain ⟨before, after, path, hsearch, rfl, hfound⟩ :=
    h.search (fun _ o => z.cmp o obj < 0) fun _ _ _ _ hm => hm
  -- the levels that come into use
  obtain ⟨z₁, hraise, hsame₁, hshape₁, hlinks₁⟩ := h.raise (zslRandomLevel draws - z.level) (by omega)
  set z₂ : Zskiplist α := { z₁ with level := z₁.level + (zslRandomLevel draws - z.level) } with hz₂
  have hheader₂ : z₂.header = z.header := hsame₁.header
  have hcells₂ : z₂.nodes.cells.length = z.nodes.cells.length := hsame₁.cells
  have hlevel₂ : z₂.level = z.level + (zslRandomLevel draws - z.level) :=
    congrArg (· + (zslRandomLevel draws - z.level)) hsame₁.level
  have hids₂ : (z₂.header :: (before ++ after).map Entry.id).Nodup := hheader₂ ▸ h.ids
  have hlt₂ : ∀ id ∈ z₂.header :: (before ++ after).map Entry.id, id < z₂.nodes.cells.length := by
    rw [hheader₂, hcells₂]
    exact fun id hid => h.id_lt hid
  have hfoot0 : foot Entry.height 0 before = before := by
    apply foot_eq_self
    intro e he
    exact (h.heights e (List.mem_append_left _ (List.mem_of_getLast? he))).1
  have harrays := fun i => hfound.arrays (i := i) (zslRandomLevel draws)
    fun j hj => (low_append.mp (h.low hj)).1
  have hshapes₂ : Shapes z₂ (before ++ after) := by
    intro c e d hcut
    rw [show z₂.shape = z.shape from hshape₁]
    exact h.node c e d hcut
  -- the new node
  obtain ⟨z₃, hnode, hsame₃, hlinks₃, hshape₃⟩ := linkNode_spec obj hlinks₁ hids₂ hlt₂ hfoot0 hn
    (by show _ ≤ z₂.level; omega) (by show z₂.level ≤ _; omega)
    (fun i hi => by
      have hi' : i < z₂.level := hi
      rw [(harrays i (by omega)).1]
      exact congrArg some (owner_congr hheader₂).symm)
    (fun i hi => by
      have hi' : i < z₂.level := hi
      exact (harrays i (by omega)).2)
  set x : Entry α := ⟨z₂.nodes.cells.length, obj, zslRandomLevel draws⟩ with hx
  have hheader₃ : z₃.header = z.header := hsame₃.header.trans hheader₂
  have hlevel₃ : z₃.level = z.level + (zslRandomLevel draws - z.level) := hsame₃.level.trans hlevel₂
  have hids₃ : (z₃.header :: (before ++ x :: after).map Entry.id).Nodup := by
    rw [hheader₃, ← hheader₂]
    have hfresh : x.id ∉ z₂.header :: (before ++ after).map Entry.id :=
      fun hmem => absurd (hlt₂ _ hmem) (lt_irrefl _)
    exact ids_insert hids₂ hfresh
  have hpos₃ : ∀ e ∈ before ++ x :: after, 0 < e.height :=
    forall_insert (fun e he => (h.heights e he).1) hn
  obtain ⟨z₄, hback, hsame₄, hlinks₄, hshapes₄, hheader₄⟩ :=
    linkBackward_spec hlinks₃ hshapes₂ hids₃ hpos₃ hshape₃
  have howner₃ : z₃.owner before = z.owner before := owner_congr hheader₃
  have hheader₅ : z₄.header = z.header := hsame₄.header.trans hheader₃
  have hlevel₅ : z₄.level = z.level + (zslRandomLevel draws - z.level) := hsame₄.level.trans hlevel₃
  have htail₄ : z₄.tail = if after = [] then some x.id else z.tail := by
    rw [hsame₄.tail]
    show (if after = [] then some x.id else z₃.tail) = _
    rw [hsame₃.tail]
    show (if after = [] then some x.id else z₁.tail) = _
    rw [hsame₁.tail]
  have hlength₄ : z₄.length = z.length + 1 :=
    hsame₄.length.trans (congrArg (· + 1) (hsame₃.length.trans hsame₁.length))
  have hcells₄ : z₄.nodes.cells.length = z.nodes.cells.length + 1 := by
    rw [← hcells₂, hsame₄.cells]
    show z₃.nodes.cells.length = _
    rw [hsame₃.cells]
    simp [Pool.alloc]
  have hids₄ : (z₄.header :: (before ++ x :: after).map Entry.id).Nodup := by
    rw [hheader₅, ← hheader₃]
    exact hids₃
  have hheader₆ : z₄.shape z₄.header = z.shape z.header := by
    rw [hheader₅, ← hheader₃, hheader₄, show z₂.shape = z.shape from hshape₁, hheader₃]
  have hwell : WellFormed z₄ (before ++ x :: after) :=
    h.inserted hshapes₄ hlinks₄ hids₄ hheader₆ hn hmax hlevel₅ htail₄ hlength₄ hcells₄
  refine ⟨z₄, before, after, x, ?_, rfl, rfl, rfl, hwell, ?_, ?_, ?_, ?_⟩
  · rw [howner₃] at hback
    have hentry : entry (path.map Prod.fst ++ List.replicate (zslRandomLevel draws - z.level) z.header) 0 =
        .ok (z.owner before) := by
      have hzero := (harrays 0 (by omega)).1
      rw [hfoot0] at hzero
      exact entry_eq hzero
    simp only [zslInsert, bind, Except.bind, hsearch, hraise]
    rw [← hz₂, hnode]
    simp only [hentry]
    rw [hback]
    rfl
  · exact hsame₄.cmp.trans (hsame₃.cmp.trans hsame₁.cmp)
  · exact hsame₄.freed.trans (hsame₃.freed.trans hsame₁.freed)
  · intro e he
    exact of_decide_eq_true (hfound.last e he)
  · intro f hf hlt
    exact hfound.stopped f hf (decide_eq_true hlt)

end Zskiplist

end BoAtom
