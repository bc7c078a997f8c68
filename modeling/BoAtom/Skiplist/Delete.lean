import BoAtom.Skiplist.WellFormed

/-! # `zslDeleteNode`

    The converse of the insertion: on the levels where `update[i]` points to
    the node its span grows by the node's own, on the others it is one less;
    then the back pointer behind the node, the level and the length. -/

namespace BoAtom

open Memory Towers

namespace Zskiplist

variable {α : Type} {z z' : Zskiplist α} {es before after c d : List (Entry α)} {x e f : Entry α}
  {i k : Nat} {update : List NodeId} {u y : NodeId} {l lx : ZskiplistLevel}

/-! ## Section 1: Unlinking -/

/-- What the loop over the levels has written. -/
structure Deleted (z z' : Zskiplist α) (before : List (Entry α)) (x : Entry α) : Prop where
  at_x : ∀ i l lx, i < z.level → z.lev (z.owner (foot Entry.height i before)) i = some l →
    l.forward = some x.id → z.lev x.id i = some lx →
    z'.lev (z.owner (foot Entry.height i before)) i = some ⟨lx.forward, l.span + (lx.span - 1)⟩
  above : ∀ i l, i < z.level → z.lev (z.owner (foot Entry.height i before)) i = some l →
    l.forward ≠ some x.id →
    z'.lev (z.owner (foot Entry.height i before)) i = some { l with span := l.span - 1 }
  frame : ∀ y i, (i < z.level → y ≠ z.owner (foot Entry.height i before)) → z'.lev y i = z.lev y i

/-- A place in the list without `x` is one in front of it or one behind it. -/
theorem cut_delete (h : before ++ after = c ++ d) :
    (∃ m, before = c ++ m ∧ d = m ++ after) ∨ ∃ m e, c = before ++ (m ++ [e]) ∧ after = m ++ e :: d := by
  rcases List.append_eq_append_iff.mp h with ⟨m, hc, ha⟩ | ⟨m, hb, hd⟩
  · induction m using List.reverseRec with
    | nil => exact .inl ⟨[], by simpa using hc.symm, by simpa using ha.symm⟩
    | append_singleton m e _ => exact .inr ⟨m, e, hc, by rw [ha]; simp⟩
  · exact .inl ⟨m, hb, hd⟩

theorem Links.delete (h : Links z (before ++ x :: after))
    (hids : (z.header :: (before ++ x :: after).map Entry.id).Nodup)
    (hheight : x.height ≤ z.level) (hdel : Deleted z z' before x)
    (hheader : z'.header = z.header) (hlevel : z'.level = z.level) : Links z' (before ++ after) := by
  have hne : ∀ f, f ∈ before ∨ f ∈ after → f.id ≠ x.id :=
    fun f hf => id_ne (List.nodup_cons.mp hids).2 rfl hf
  intro c d i hcut hi
  rw [owner_congr hheader, hlevel]
  obtain ⟨low, hfoot, -⟩ := foot_cut Entry.height i before (x :: after)
  rcases cut_delete hcut with ⟨m, hb, hd⟩ | ⟨m, e, hc, ha⟩
  · -- in front of `x`
    have hold : before ++ x :: after = c ++ (m ++ x :: after) := by rw [hb, List.append_assoc]
    obtain ⟨l, hl, hforward, hspan⟩ := h c _ i hold hi
    by_cases hm : Low Entry.height i m
    · have hplace : foot Entry.height i before = c := by
        rw [hb, foot_append_low hm, foot_of_top hi]
      have hnew : hop Entry.height i d =
          ((hop Entry.height i after).1, m.length + (hop Entry.height i after).2) := by
        rw [hd, hop_append_low hm]
      rw [hop_append_low hm] at hforward hspan
      rw [hnew]
      by_cases hon : i < x.height
      · -- `update[i]` points to `x`
        obtain ⟨lx, hlx, hforwardx, hspanx⟩ := h (before ++ [x]) after i (by simp) (by rwa [top_concat])
        rw [owner_concat] at hlx
        rw [hop_cons_high hon] at hforward hspan
        have hrow := hdel.at_x i l lx (hon.trans_le hheight) (by rwa [hplace]) hforward hlx
        rw [hplace] at hrow
        refine ⟨_, hrow, hforwardx, fun hlt => ?_⟩
        simp only [hspan hlt, hspanx hlt, UInt32.ofNat_add]
        grind
      · rw [hop, if_neg hon] at hforward hspan
        by_cases hlt : i < z.level
        · have hpast : l.forward ≠ some x.id := by
            intro heq
            rw [hforward] at heq
            obtain ⟨g, hg, hid⟩ := Option.map_eq_some_iff.mp heq
            obtain ⟨low', rest, hafter, -⟩ := hop_some hg
            exact hne g (Or.inr (by rw [hafter]; simp)) hid
          have hrow := hdel.above i l hlt (by rwa [hplace]) hpast
          rw [hplace] at hrow
          refine ⟨_, hrow, hforward, fun _ => ?_⟩
          simp only [hspan hlt, UInt32.ofNat_add]
          grind
        · refine ⟨l, ?_, hforward, fun hlt' => absurd hlt' hlt⟩
          rw [hdel.frame _ _ fun hlt' => absurd hlt' hlt, hl]
    · -- the hop ends before `x`
      rw [hop_append_high hm] at hforward hspan
      rw [hd, hop_append_high hm]
      refine ⟨l, ?_, hforward, hspan⟩
      rw [hdel.frame _ _ fun _ heq => ?_, hl]
      have hsame := owner_inj hids hold hfoot heq
      rw [hb] at hsame
      exact foot_append_ne hm hsame.symm
  · -- behind a later node
    rw [hc, ← List.append_assoc, top_concat] at hi
    have hold : before ++ x :: after = (before ++ x :: m ++ [e]) ++ d := by rw [ha]; simp
    obtain ⟨l, hl, hforward, hspan⟩ := h _ d i hold (by rwa [top_concat])
    rw [hc, ← List.append_assoc, owner_concat]
    rw [owner_concat] at hl
    refine ⟨l, ?_, hforward, hspan⟩
    rw [hdel.frame _ _ fun _ heq => ?_, hl]
    have hlong : before.length < (before ++ x :: m ++ [e]).length := by
      simp only [List.length_append, List.length_cons]
      omega
    exact owner_ne_foot hids hold rfl hlong (owner_concat.trans heq)

/-! ## Section 2: The loop over the levels -/

theorem unlinkLevel_spec {x : NodeId} (hu : update[i]? = some u) (hl : z.lev u i = some l)
    (hx : l.forward = some x → z.lev x i = some lx) :
    ∃ z', unlinkLevel update x z i = .ok z' ∧ SameList z z' ∧ z'.shape = z.shape ∧
      ∀ y j, z'.lev y j = if j = i then
        (if y = u then some (if l.forward = some x then ⟨lx.forward, l.span + (lx.span - 1)⟩
          else { l with span := l.span - 1 }) else z.lev y i)
        else z.lev y j := by
  by_cases hforward : l.forward = some x
  · obtain ⟨z₁, hset, hsame, hshape, hlev⟩ := setLevel_at ⟨lx.forward, l.span + (lx.span - 1)⟩ hl
    refine ⟨z₁, ?_, hsame, hshape, fun y j => ?_⟩
    · simp only [unlinkLevel, bind, Except.bind, entry_eq hu, levelAt_eq hl, hforward, if_true,
        levelAt_eq (hx hforward)]
      exact hset
    · rw [hlev, if_pos hforward]
  · obtain ⟨z₁, hset, hsame, hshape, hlev⟩ := setLevel_at { l with span := l.span - 1 } hl
    refine ⟨z₁, ?_, hsame, hshape, fun y j => ?_⟩
    · simp only [unlinkLevel, bind, Except.bind, entry_eq hu, levelAt_eq hl, hforward, if_false]
      exact hset
    · rw [hlev, if_neg hforward]

theorem levels_deleted (h : Links z (before ++ x :: after))
    (hids : (z.header :: (before ++ x :: after).map Entry.id).Nodup)
    (hmax : z.level ≤ zskiplistMaxLevel)
    (hupdate : ∀ i < z.level, update[i]? = some (z.owner (foot Entry.height i before))) :
    ∃ z', (List.range z.level).foldlM (unlinkLevel update x.id) z = .ok z' ∧ SameList z z' ∧
      z'.shape = z.shape ∧ Deleted z z' before x := by
  -- a level whose `update[i]` points to `x` is one `x` has a row on
  have hu : ∀ i < z.level, ∃ l, z.lev (z.owner (foot Entry.height i before)) i = some l ∧
      (l.forward = some x.id → ∃ lx, z.lev x.id i = some lx) := by
    intro i hi
    obtain ⟨low, hcut, -, hlow⟩ := foot_cut Entry.height i before (x :: after)
    obtain ⟨l, hl, hforward, -⟩ := h _ _ i hcut (lt_top_foot (hi.trans_le hmax))
    refine ⟨l, hl, fun heq => ?_⟩
    rw [hforward, hop_append_low hlow] at heq
    by_cases hon : i < x.height
    · obtain ⟨lx, hlx, -⟩ := h (before ++ [x]) after i (by simp) (by rwa [top_concat])
      rw [owner_concat] at hlx
      exact ⟨lx, hlx⟩
    · -- `x` itself is not reached on this level
      rw [hop, if_neg hon] at heq
      obtain ⟨g, hg, hid⟩ := Option.map_eq_some_iff.mp heq
      obtain ⟨low', rest, hafter, -⟩ := hop_some hg
      have hin : g ∈ before ∨ g ∈ after := Or.inr (by rw [hafter]; simp)
      exact absurd hid (id_ne (List.nodup_cons.mp hids).2 rfl hin)
  -- each turn writes the row of `update[i]` on its level and no other
  have hstep : ∀ i ∈ List.range z.level, ∀ z', SameList z z' → z'.shape = z.shape →
      (∀ y, z'.lev y i = z.lev y i) → ∃ z'', unlinkLevel update x.id z' i = .ok z'' ∧
        SameList z' z'' ∧ z''.shape = z'.shape ∧ ∀ y j, z''.lev y j = if j = i then
          (if y = z.owner (foot Entry.height i before) then
            (z.lev (z.owner (foot Entry.height i before)) i).map fun l =>
              if l.forward = some x.id then
                ⟨((z.lev x.id i).getD l).forward, l.span + (((z.lev x.id i).getD l).span - 1)⟩
              else { l with span := l.span - 1 }
            else z.lev y i) else z'.lev y j := by
    intro i hi z₁ hsame hshape hrow
    have hlt := List.mem_range.mp hi
    obtain ⟨l, hl, hlx⟩ := hu i hlt
    have hx : l.forward = some x.id → z₁.lev x.id i = some ((z.lev x.id i).getD l) := by
      intro hforward
      obtain ⟨lx, hlx⟩ := hlx hforward
      rw [hrow, hlx]
      rfl
    obtain ⟨z₂, hstep, hsame₂, hshape₂, hlev₂⟩ :=
      unlinkLevel_spec (hupdate i hlt) ((hrow _).trans hl) hx
    refine ⟨z₂, hstep, hsame₂, hshape₂, fun y j => ?_⟩
    rw [hlev₂, hl, hrow]
    rfl
  obtain ⟨z', hfold, hsame, hshape, hlev⟩ := fold_levels _ _ List.nodup_range hstep
  refine ⟨z', hfold, hsame, hshape, ?_, ?_, ?_⟩
  · intro i l lx hi hl hforward hlx
    rw [hlev, if_pos (List.mem_range.mpr hi), if_pos rfl, hl, hlx, Option.map_some, if_pos hforward]
    rfl
  · intro i l hi hl hforward
    rw [hlev, if_pos (List.mem_range.mpr hi), if_pos rfl, hl, Option.map_some, if_neg hforward]
  · intro y i hy
    rw [hlev]
    by_cases hi : i < z.level
    · rw [if_pos (List.mem_range.mpr hi), if_neg (hy hi)]
    · rw [if_neg fun hmem => hi (List.mem_range.mp hmem)]

/-! ## Section 3: The level -/

/-- The highest level in use. -/
theorem shrink_spec (h : Links z es) (hk : 0 < k) (hmax : k ≤ zskiplistMaxLevel)
    (hheights : ∀ e ∈ es, e.height ≤ k) :
    ∃ k', z.shrink k = .ok k' ∧ 0 < k' ∧ k' ≤ k ∧ (∀ e ∈ es, e.height ≤ k') ∧
      (k' = 1 ∨ ∃ e ∈ es, e.height = k') := by
  induction k with
  | zero => omega
  | succ k ih =>
    rcases k with _ | k
    · exact ⟨1, rfl, hk, le_refl _, hheights, Or.inl rfl⟩
    obtain ⟨l, hl, hforward, -⟩ := h [] es (k + 1) rfl (by rw [top_nil]; omega)
    rw [owner_nil] at hl
    rw [shrink, levelAt_eq hl]
    rcases hnext : (hop Entry.height (k + 1) es).1 with _ | f
    · rw [hnext] at hforward
      have hlow := hop_none_iff.mp hnext
      obtain ⟨k', hshrink, hpos, hle, hrest⟩ := ih (by omega) (by omega) hlow
      refine ⟨k', ?_, hpos, by omega, hrest⟩
      simp only [bind, Except.bind, hforward, Option.map_none, if_true]
      exact hshrink
    · rw [hnext] at hforward
      obtain ⟨low, rest, hes, -, hf, -⟩ := hop_some hnext
      have hin : f ∈ es := by
        rw [hes]
        simp
      refine ⟨k + 2, ?_, hk, le_refl _, hheights, Or.inr ⟨f, hin, ?_⟩⟩
      · simp only [bind, Except.bind, hforward, Option.map_some]
        rfl
      · have := hheights f hin
        omega

/-! ## Section 4: Back pointers -/

/-- Objects, back pointers and heights without `x`. -/
theorem Shapes.delete (h : Shapes z (before ++ x :: after))
    (hids : ((before ++ x :: after).map Entry.id).Nodup)
    (hshape : ∀ y, z'.shape y = if after.head?.map Entry.id = some y then
      (z.shape y).map fun s => (s.1, before.getLast?.map Entry.id, s.2.2) else z.shape y) :
    Shapes z' (before ++ after) := by
  have hhead : ∀ f, after.head? = some f → f ∈ after := fun f hf => List.mem_of_head? hf
  intro c e d hcut
  rw [hshape]
  rcases cut_delete hcut with ⟨m, hb, hd⟩ | ⟨m, g, hc, ha⟩
  · rcases List.cons_eq_append_iff.mp hd with ⟨rfl, hed⟩ | ⟨m', rfl, hd'⟩
    · -- the node right behind `x`
      rw [List.append_nil] at hb
      rw [hed, List.head?_cons, Option.map_some, if_pos rfl, h (before ++ [x]) e d (by rw [hed]; simp), hb]
      rfl
    · -- a node in front of `x`
      have hold : before ++ x :: after = c ++ e :: (m' ++ x :: after) := by rw [hb]; simp
      rw [if_neg, h c e _ hold]
      intro heq
      obtain ⟨f, hf, hid⟩ := Option.map_eq_some_iff.mp heq
      have hin : f ∈ m' ++ x :: after :=
        List.mem_append_right _ (List.mem_cons_of_mem _ (hhead f hf))
      exact id_ne hids hold (Or.inr hin) hid
  · -- a later node
    have hold : before ++ x :: after = (before ++ x :: m ++ [g]) ++ e :: d := by rw [ha]; simp
    rw [if_neg, h _ e d hold, hc, ← List.append_assoc, List.getLast?_concat, List.getLast?_concat]
    intro heq
    obtain ⟨f, hf, hid⟩ := Option.map_eq_some_iff.mp heq
    refine id_ne hids hold (Or.inl ?_) hid
    rw [ha] at hf
    cases m <;> simp_all

/-! ## Section 5: The function -/

/-- What `zslDeleteNode` leaves. -/
structure DeletedAt (z z' : Zskiplist α) (before after : List (Entry α)) (x : Entry α) : Prop where
  wellFormed : WellFormed z' (before ++ after)
  cmp : z'.cmp = z.cmp
  freeObj : z'.freeObj = z.freeObj
  level : z'.level ≤ z.level
  header : z'.header = z.header

/-- The memory of a list without `x`, once each part of it is right. -/
theorem WellFormed.deleted (h : WellFormed z (before ++ x :: after))
    (hnodes : Shapes z' (before ++ after)) (hlinks : Links z' (before ++ after))
    (hheader : z'.header = z.header) (hshape : z'.shape z.header = z.shape z.header)
    (htail : z'.tail = (before ++ after).getLast?.map Entry.id) (hlength : z'.length = z.length - 1)
    (hcells : z'.nodes.cells.length = z.nodes.cells.length) (hle : z'.level ≤ z.level)
    (hheights : ∀ e ∈ before ++ after, e.height ≤ z'.level)
    (htallest : z'.level = 1 ∨ ∃ e ∈ before ++ after, e.height = z'.level) :
    WellFormed z' (before ++ after) := by
  have hsublist : (before ++ after).Sublist (before ++ x :: after) :=
    (List.Sublist.refl _).append (List.sublist_cons_self _ _)
  refine ⟨?_, hnodes, hlinks, ?_, fun e he => ⟨(h.heights e (hsublist.subset he)).1, hheights e he⟩,
    htail, ?_, htallest, hle.trans h.level_le, ?_⟩
  · rw [hheader, hshape]
    exact h.header
  · rw [hheader]
    exact List.Nodup.sublist ((hsublist.map Entry.id).cons_cons z.header) h.ids
  · rw [hlength, h.length]
    simp only [List.length_append, List.length_cons]
    omega
  · have hroom := h.room
    simp only [List.length_append, List.length_cons] at hroom ⊢
    omega

/-- The first pointer of `x`, also after the loop: `x` is not its own predecessor. -/
theorem Deleted.next (hdel : Deleted z z' before x) (h : WellFormed z (before ++ x :: after)) :
    ∃ l, z'.lev x.id 0 = some l ∧ l.forward = after.head?.map Entry.id := by
  obtain ⟨l, hl, hforward⟩ := h.link.next_cons fun e he => (h.heights e he).1
  refine ⟨l, ?_, hforward⟩
  rw [hdel.frame _ _ fun _ heq => ?_, hl]
  have hcut : before ++ x :: after = (before ++ [x]) ++ after := by simp
  have hlong : before.length < (before ++ [x]).length := by simp
  exact owner_ne_foot h.ids hcut rfl hlong (owner_concat.trans heq)

theorem WellFormed.deleteNode (h : WellFormed z (before ++ x :: after))
    (hupdate : ∀ i < z.level, update[i]? = some (z.owner (foot Entry.height i before))) :
    ∃ z', z.zslDeleteNode x.id update = .ok z' ∧ DeletedAt z z' before after x ∧
      z'.freed = z.freed ∧ ∃ nd, z'.node x.id = .ok nd ∧ nd.obj = x.obj := by
  have hids := (List.nodup_cons.mp h.ids).2
  have hheight := (h.heights x (by simp)).2
  have hsub : ∀ e ∈ before ++ after, e ∈ before ++ x :: after := by
    intro e he
    rcases List.mem_append.mp he with he | he
    · exact List.mem_append_left _ he
    · exact List.mem_append_right _ (List.mem_cons_of_mem _ he)
  obtain ⟨z₁, hfold, hsame₁, hshape₁, hdel⟩ := levels_deleted h.link h.ids h.level_le hupdate
  have hlinks₁ : Links z₁ (before ++ after) :=
    h.link.delete h.ids hheight hdel hsame₁.header hsame₁.level
  -- what the node itself says
  have hmine : z₁.shape x.id = some (x.obj, before.getLast?.map Entry.id, x.height) := by
    rw [hshape₁]
    exact h.node before x after rfl
  obtain ⟨n, hn, hobj, hbackward, -⟩ := node_eq hmine
  obtain ⟨l, hl, hforward⟩ := hdel.next h
  have hnext : ∀ y, l.forward = some y → (z₁.shape y).isSome := by
    intro y hy
    rw [hforward] at hy
    obtain ⟨f, hf, rfl⟩ := Option.map_eq_some_iff.mp hy
    obtain ⟨d, hd⟩ := List.head?_eq_some_iff.mp hf
    rw [hshape₁, h.node (before ++ [x]) f d (by rw [hd]; simp)]
    rfl
  obtain ⟨z₂, hbehind, hsame₂, hlev₂, hshape₂⟩ := setBehind_spec n.backward hl hnext
  have hlinks₂ : Links z₂ (before ++ after) := hlinks₁.congr hlev₂ hsame₂.header hsame₂.level
  have hheader : z₂.header = z.header := hsame₂.header.trans hsame₁.header
  have hlevel : z₂.level = z.level := hsame₂.level.trans hsame₁.level
  obtain ⟨k, hshrink, hk, hle, hheights, htallest⟩ := shrink_spec hlinks₂ h.level_pos h.level_le
    fun e he => (h.heights e (hsub e he)).2
  have htail : z₂.tail = (before ++ after).getLast?.map Entry.id := by
    rw [hsame₂.tail]
    show (if l.forward = none then n.backward else z₁.tail) = _
    rw [hforward, hbackward, hsame₁.tail, h.tail]
    cases after with
    | nil => simp
    | cons f after => simp [List.getLast?_append, List.getLast?_cons]
  have hothers : ∀ y, after.head?.map Entry.id ≠ some y → z₂.shape y = z.shape y := by
    intro y hy
    rw [hshape₂, hforward, if_neg hy, hshape₁]
  have hshapes₂ : Shapes z₂ (before ++ after) := by
    apply h.node.delete hids
    intro y
    rw [hshape₂, hforward, hbackward, hshape₁]
  have hfar : ∀ y, (∀ f ∈ after, f.id ≠ y) → after.head?.map Entry.id ≠ some y := by
    intro y hy heq
    obtain ⟨f, hf, hid⟩ := Option.map_eq_some_iff.mp heq
    exact hy f (List.mem_of_head? hf) hid
  have hlinks₃ : Links { z₂ with level := k, length := z₂.length - 1 } (before ++ after) := by
    intro c d i hcut hi
    obtain ⟨l, hl, hforward, hspan⟩ := hlinks₂ c d i hcut hi
    exact ⟨l, hl, hforward, fun hlt => hspan (by rw [hlevel]; exact hlt.trans_le hle)⟩
  have hshape₂' : z₂.shape z.header = z.shape z.header :=
    hothers _ (hfar _ fun f hf => id_ne_header h.ids (by simp [hf]))
  have hlength : z₂.length - 1 = z.length - 1 :=
    congrArg (· - 1) (hsame₂.length.trans hsame₁.length)
  have hwell : WellFormed { z₂ with level := k, length := z₂.length - 1 } (before ++ after) :=
    h.deleted hshapes₂ hlinks₃ hheader hshape₂' htail hlength (hsame₂.cells.trans hsame₁.cells) hle
      hheights htallest
  refine ⟨{ z₂ with level := k, length := z₂.length - 1 }, ?_, ⟨hwell, hsame₂.cmp.trans hsame₁.cmp,
    hsame₂.freeObj.trans hsame₁.freeObj, hle, hheader⟩, hsame₂.freed.trans hsame₁.freed, ?_⟩
  · rw [← hlevel] at hshrink
    simp only [zslDeleteNode, bind, Except.bind]
    rw [hfold]
    simp only [hn, hbehind, hshrink]
    rfl
  · have hmine₂ : z₂.shape x.id = some (x.obj, before.getLast?.map Entry.id, x.height) := by
      rw [hothers x.id, ← hshape₁, hmine]
      exact hfar _ fun f hf => id_ne hids rfl (Or.inr hf)
    obtain ⟨nd, hnd, hobj', -⟩ := node_eq hmine₂
    exact ⟨nd, hnd, hobj'⟩

/-- Releasing a node that is not in the list. -/
theorem WellFormed.freeNode (h : WellFormed z es) {nd : ZskiplistNode α} {x : NodeId}
    (hnd : z.node x = .ok nd) (hx : x ∉ z.header :: es.map Entry.id) :
    ∃ z', z.zslFreeNode x = .ok z' ∧ WellFormed z' es ∧ z'.cmp = z.cmp ∧ z'.freeObj = z.freeObj ∧
      z'.level = z.level ∧ z'.header = z.header ∧
      z'.freed = if z.freeObj then z.freed ++ [nd.obj] else z.freed := by
  -- the block is in the list no more, so no link of the list is read from it
  have hget : ∀ y, y ∈ z.header :: es.map Entry.id → (z.nodes.release x).get y = z.nodes.get y := by
    intro y hy
    exact Pool.get_release_ne fun heq => hx (heq ▸ hy)
  refine ⟨{ z with
    nodes := z.nodes.release x
    freed := if z.freeObj then z.freed ++ [nd.obj] else z.freed }, ?_, ⟨?_, ?_, ?_, h.ids, h.heights,
      h.tail, h.length, h.level, h.level_le, ?_⟩, rfl, rfl, rfl, rfl, rfl⟩
  · simp only [zslFreeNode, bind, Except.bind, hnd]
    rfl
  · unfold shape
    simp only [hget z.header List.mem_cons_self]
    exact h.header
  · intro c e d hes
    have hmem : e.id ∈ z.header :: es.map Entry.id := by
      rw [hes]
      simp
    unfold shape
    simp only [hget e.id hmem]
    exact h.node c e d hes
  · intro c d i hes hi
    obtain ⟨l, hl, hrest⟩ := h.link c d i hes hi
    refine ⟨l, ?_, hrest⟩
    unfold lev at hl ⊢
    have hmem := owner_mem z hes
    have howner : ({ z with
        nodes := z.nodes.release x
        freed := if z.freeObj then z.freed ++ [nd.obj] else z.freed } : Zskiplist α).owner c =
        z.owner c := rfl
    rw [howner]
    simp only [hget _ hmem]
    exact hl
  · simpa [Pool.release] using h.room

/-! ## Section 6: Deleting a stretch of the list -/

variable {fuel : Nat} {path : List (NodeId × Nat)}

/-- `gone` has been deleted from between `before` and `rest`. -/
structure Swept (z z' : Zskiplist α) (more : Nat → Option α → Bool)
    (before gone rest : List (Entry α)) (removed : Nat) : Prop where
  wellFormed : WellFormed z' (before ++ rest)
  cmp : z'.cmp = z.cmp
  freeObj : z'.freeObj = z.freeObj
  freed : z'.freed = z.freed ++ if z.freeObj then gone.map Entry.obj else []
  passed : ∀ c e d, gone = c ++ e :: d → more (removed + c.length) e.obj
  stopped : ∀ f, rest.head? = some f → ¬ more (removed + gone.length) f.obj

theorem WellFormed.deleteWhile (more : Nat → Option α → Bool) (h : WellFormed z (before ++ after))
    (hupdate : ∀ i < z.level, update[i]? = some (z.owner (foot Entry.height i before)))
    (hfuel : after.length ≤ fuel) (removed : Nat) :
    ∃ z' gone rest, deleteWhile more update fuel z (after.head?.map Entry.id) removed =
      .ok (z', removed + gone.length) ∧ after = gone ++ rest ∧ Swept z z' more before gone rest removed := by
  -- `update` is found once: what goes stands behind `before`, so it stays right
  induction after generalizing z fuel removed with
  | nil =>
    refine ⟨z, [], [], by simp [Zskiplist.deleteWhile]; rfl, rfl, h, rfl, rfl, by simp, by simp, by simp⟩
  | cons x after ih =>
    obtain ⟨fuel, rfl⟩ : ∃ n, fuel = n + 1 := ⟨fuel - 1, by simp only [List.length_cons] at hfuel; omega⟩
    obtain ⟨n, hn, hobj, -⟩ := node_eq (h.node before x after rfl)
    by_cases hmore : more removed n.obj
    · -- `x` goes
      obtain ⟨l, hl, hforward⟩ := h.link.next_cons fun e he => (h.heights e he).1
      obtain ⟨z₁, hdelete, hat, hfreed₁, nd, hnd, hndobj⟩ := h.deleteNode hupdate
      have hout : x.id ∉ z₁.header :: (before ++ after).map Entry.id := by
        rw [hat.header]
        intro hmem
        rcases List.mem_cons.mp hmem with heq | hmem
        · exact id_ne_header h.ids (by simp) heq
        · obtain ⟨f, hf, hid⟩ := List.mem_map.mp hmem
          exact id_ne (List.nodup_cons.mp h.ids).2 rfl (List.mem_append.mp hf) hid
      obtain ⟨z₂, hfree, hwell₂, hcmp₂, hfreeObj₂, hlevel₂, hheader₂, hfreed₂⟩ :=
        hat.wellFormed.freeNode hnd hout
      have hupdate₂ : ∀ i < z₂.level, update[i]? = some (z₂.owner (foot Entry.height i before)) := by
        intro i hi
        rw [owner_congr (hheader₂.trans hat.header)]
        exact hupdate i ((hlevel₂ ▸ hi).trans_le hat.level)
      have hfuel' : after.length ≤ fuel := by
        simp only [List.length_cons] at hfuel
        omega
      obtain ⟨z', gone, rest, hloop, hafter, hswept⟩ := ih hwell₂ hupdate₂ hfuel' (removed + 1)
      refine ⟨z', x :: gone, rest, ?_, by rw [hafter, List.cons_append], hswept.wellFormed, ?_, ?_, ?_, ?_, ?_⟩
      · rw [← hforward] at hloop
        have hzero : z.levelAt x.id 0 = .ok l := levelAt_eq hl
        simp only [Zskiplist.deleteWhile, List.head?_cons, Option.map_some, bind, Except.bind, hn, hmore,
          if_true, hzero, hdelete, hfree, List.length_cons]
        rw [hloop, show removed + 1 + gone.length = removed + (gone.length + 1) by omega]
      · exact hswept.cmp.trans (hcmp₂.trans hat.cmp)
      · exact hswept.freeObj.trans (hfreeObj₂.trans hat.freeObj)
      · rw [hswept.freed, hfreed₂, hfreed₁, hfreeObj₂, hat.freeObj, hndobj]
        cases z.freeObj <;> simp
      · intro c e d hsplit
        rcases List.cons_eq_append_iff.mp hsplit with ⟨rfl, hed⟩ | ⟨c', rfl, hd⟩
        · cases hed
          rw [← hobj]
          exact hmore
        · have hpassed := hswept.passed c' e d hd
          rw [List.length_cons, show removed + (c'.length + 1) = removed + 1 + c'.length by omega]
          exact hpassed
      · intro f hf
        have hstopped := hswept.stopped f hf
        rw [List.length_cons, show removed + (gone.length + 1) = removed + 1 + gone.length by omega]
        exact hstopped
    · refine ⟨z, [], x :: after, ?_, rfl, h, rfl, rfl, by simp, by simp, ?_⟩
      · simp only [Zskiplist.deleteWhile, List.head?_cons, Option.map_some, bind, Except.bind, hn, hmore]
        rfl
      · intro f hf
        cases hf
        rw [← hobj]
        exact hmore

theorem Found.deleteBehind {m : Nat → Option α → Bool} (more : Nat → Option α → Bool)
    (hf : Found z m before after path) (h : WellFormed z (before ++ after)) :
    ∃ z' gone rest, z.deleteBehind path more = .ok (z', gone.length) ∧ after = gone ++ rest ∧
      Swept z z' more before gone rest 0 := by
  obtain ⟨l, hl, hforward⟩ := h.link.next fun e he => (h.heights e he).1
  have hupdate : ∀ i < z.level, (path.map Prod.fst)[i]? = some (z.owner (foot Entry.height i before)) := by
    intro i hi
    obtain ⟨t, hentry, -⟩ := hf.stops i hi
    rw [List.getElem?_map, hentry]
    rfl
  have hroom := h.room_behind rfl
  obtain ⟨z', gone, rest, hloop, hafter, hswept⟩ := h.deleteWhile more hupdate hroom.le 0
  refine ⟨z', gone, rest, ?_, hafter, hswept⟩
  have hzero : z.levelAt (z.reached path).1 0 = .ok l := by
    rw [hf.reached]
    exact levelAt_eq hl
  rw [← hforward, Nat.zero_add] at hloop
  simp only [Zskiplist.deleteBehind, bind, Except.bind, hzero]
  exact hloop

end Zskiplist

end BoAtom
