import BoAtom.Lib.Towers
import BoAtom.Skiplist.Zsl
import Mathlib.Data.Nat.ModEq

/-! # Well-formed skiplists

    A skiplist stands for the list of its level-0 nodes, each with its
    object and its height; everything else in memory is determined by that
    list.  A place in the list is a way to cut it in two: the owner of the
    place is the last node of the left part, or the header.

    `Found` says where a search stops, for any condition that does not hold
    again once it has failed at a smaller distance. -/

namespace BoAtom

open Memory Towers

/-! ## Section 1: The list a skiplist stands for -/

/-- A node of the level-0 chain. -/
structure Entry (α : Type) where
  id : NodeId
  obj : Option α
  height : Nat

namespace Zskiplist

variable {α : Type}

/-- The node in front of the place behind `before`. -/
def owner (z : Zskiplist α) (before : List (Entry α)) : NodeId :=
  (before.getLast?.map Entry.id).getD z.header

/-- Its height. -/
def top (before : List (Entry α)) : Nat :=
  (before.getLast?.map Entry.height).getD zskiplistMaxLevel

/-- Objects, back pointers and heights. -/
def Shapes (z : Zskiplist α) (es : List (Entry α)) : Prop :=
  ∀ before e after, es = before ++ e :: after →
    z.shape e.id = some (e.obj, before.getLast?.map Entry.id, e.height)

/-- Forward pointers on every level of every node, and spans, which are
    `unsigned int`, on the levels in use. -/
def Links (z : Zskiplist α) (es : List (Entry α)) : Prop :=
  ∀ before after i, es = before ++ after → i < top before →
    ∃ l, z.lev (z.owner before) i = some l ∧
      l.forward = (hop Entry.height i after).1.map Entry.id ∧
      (i < z.level → l.span = UInt32.ofNat (hop Entry.height i after).2)

/-- The memory of `z` holds the list `es`. -/
structure WellFormed (z : Zskiplist α) (es : List (Entry α)) : Prop where
  header : z.shape z.header = some (none, none, zskiplistMaxLevel)
  node : Shapes z es
  link : Links z es
  ids : (z.header :: es.map Entry.id).Nodup
  heights : ∀ e ∈ es, 0 < e.height ∧ e.height ≤ z.level
  tail : z.tail = es.getLast?.map Entry.id
  length : z.length = es.length
  level : z.level = 1 ∨ ∃ e ∈ es, e.height = z.level
  level_le : z.level ≤ zskiplistMaxLevel
  /-- Each node is in memory, and the header. -/
  room : es.length < z.nodes.cells.length

/-- A walk through the rest of the list runs out of nodes before `fuel`. -/
theorem WellFormed.room_behind (h : WellFormed z es) (hes : es = before ++ after) :
    after.length < z.nodes.cells.length := by
  have hroom := h.room
  rw [hes, List.length_append] at hroom
  omega

/-- All distances fit into a span. -/
def Fits (z : Zskiplist α) (es : List (Entry α)) : Prop :=
  ∀ before after i, es = before ++ after → i < top before → i < z.level →
    (hop Entry.height i after).2 < 2 ^ 32

variable {z z' : Zskiplist α} {es before after c d : List (Entry α)} {e f : Entry α} {i k : Nat}
  {more : Nat → Option α → Bool}

@[simp] theorem owner_nil : z.owner [] = z.header := rfl

@[simp] theorem top_nil : top ([] : List (Entry α)) = zskiplistMaxLevel := rfl

@[simp] theorem owner_concat : z.owner (before ++ [e]) = e.id := by simp [owner]

@[simp] theorem top_concat : top (before ++ [e]) = e.height := by simp [top]

theorem fits_of_length (h : es.length < 2 ^ 32) : z.Fits es := by
  intro before after i hes _ _
  have hle : (hop Entry.height i after).2 ≤ after.length := hop_le_length
  rw [hes, List.length_append] at h
  omega

/-! ## Section 2: Places and owners -/

theorem foot_of_top (h : i < top before) : foot Entry.height i before = before := by
  apply foot_eq_self
  intro e he
  simpa [top, he] using h

theorem lt_top_foot (hi : i < zskiplistMaxLevel) : i < top (foot Entry.height i before) := by
  unfold top
  rcases hlast : (foot Entry.height i before).getLast? with _ | e
  · simpa using hi
  · simpa using foot_last hlast

theorem WellFormed.level_pos (h : WellFormed z es) : 0 < z.level := by
  rcases h.level with hone | ⟨e, he, heq⟩
  · omega
  · have := (h.heights e he).1
    omega

/-- Different places have different owners. -/
theorem owner_inj (hids : (z.header :: es.map Entry.id).Nodup) (hes : es = before ++ after)
    (hes' : es = c ++ d) (heq : z.owner before = z.owner c) : before = c := by
  have hheader : ∀ e ∈ es, e.id ≠ z.header := by
    intro e he heq
    exact (List.nodup_cons.mp hids).1 (heq ▸ List.mem_map_of_mem he)
  induction before using List.reverseRec with
  | nil =>
    induction c using List.reverseRec with
    | nil => rfl
    | append_singleton c e _ =>
      rw [owner_nil, owner_concat] at heq
      exact absurd heq.symm (hheader e (by rw [hes']; simp))
  | append_singleton before e _ =>
    induction c using List.reverseRec with
    | nil =>
      rw [owner_nil, owner_concat] at heq
      exact absurd heq (hheader e (by rw [hes]; simp))
    | append_singleton c f _ =>
      rw [owner_concat, owner_concat] at heq
      have hnodup := (List.nodup_cons.mp hids).2
      -- both cuts are at the only place where this node stands
      have hlen : before.length = c.length := by
        have hb : (es.map Entry.id)[before.length]? = some e.id := by rw [hes]; simp
        have hc : (es.map Entry.id)[c.length]? = some e.id := by rw [hes', heq]; simp
        have hlt : before.length < (es.map Entry.id).length := by
          rw [hes]
          simp
        exact (List.getElem?_inj hlt hnodup).mp (hb.trans hc.symm)
      have hcut : before ++ [e] ++ after = c ++ [f] ++ d := hes.symm.trans hes'
      exact List.append_inj_left hcut (by simp [hlen])

/-- `update[i]` does not stand behind the place of the search. -/
theorem owner_ne_foot (hids : (z.header :: es.map Entry.id).Nodup) (hes : es = c ++ d)
    (hes' : es = before ++ after) (hlt : before.length < c.length) :
    z.owner c ≠ z.owner (foot Entry.height i before) := by
  intro heq
  obtain ⟨low, hcut, hbefore, -⟩ := foot_cut Entry.height i before after
  have hsame := congrArg List.length (owner_inj hids hes (hes'.trans hcut) heq)
  have hlen := congrArg List.length hbefore
  rw [List.length_append] at hlen
  omega

theorem entry_eq {β : Type} {a : List β} {b : β} (h : a[i]? = some b) : entry a i = .ok b := by
  rw [entry, h]

/-- The list does not hold a node twice. -/
theorem id_ne (hids : (es.map Entry.id).Nodup) (hes : es = c ++ e :: d) (hf : f ∈ c ∨ f ∈ d) :
    f.id ≠ e.id := by
  rw [hes, List.map_append, List.map_cons] at hids
  obtain ⟨-, hd, hcd⟩ := List.nodup_append.mp hids
  rcases hf with hf | hf
  · exact hcd _ (List.mem_map_of_mem hf) _ List.mem_cons_self
  · intro heq
    exact (List.nodup_cons.mp hd).1 (heq ▸ List.mem_map_of_mem hf)

theorem id_ne_header (hids : (z.header :: es.map Entry.id).Nodup) (he : e ∈ es) : e.id ≠ z.header := by
  intro heq
  exact (List.nodup_cons.mp hids).1 (heq ▸ List.mem_map_of_mem he)

theorem owner_mem (z : Zskiplist α) (hes : es = c ++ d) : z.owner c ∈ z.header :: es.map Entry.id := by
  unfold owner
  rcases hlast : c.getLast? with _ | e
  · exact List.mem_cons_self
  · apply List.mem_cons_of_mem
    rw [hes]
    exact List.mem_map_of_mem (List.mem_append_left _ (List.mem_of_getLast? hlast))

theorem owner_congr (h : z'.header = z.header) : z'.owner before = z.owner before := by
  rw [owner, owner, h]

theorem Links.congr (h : Links z es) (hlev : z'.lev = z.lev) (hheader : z'.header = z.header)
    (hlevel : z'.level = z.level) : Links z' es := by
  intro c d i hes hi
  rw [hlev, owner_congr hheader, hlevel]
  exact h c d i hes hi

/-- The forward pointer on level 0. -/
theorem Links.next (h : Links z (before ++ after)) (hpos : ∀ e ∈ before ++ after, 0 < e.height) :
    ∃ l, z.lev (z.owner before) 0 = some l ∧ l.forward = after.head?.map Entry.id := by
  have htop : 0 < top before := by
    unfold top
    rcases hlast : before.getLast? with _ | e
    · exact Nat.zero_lt_succ 31
    · exact hpos e (List.mem_append_left _ (List.mem_of_getLast? hlast))
  obtain ⟨l, hl, hforward, -⟩ := h before after 0 rfl htop
  refine ⟨l, hl, ?_⟩
  rw [hforward]
  cases after with
  | nil => rfl
  | cons f after => rw [hop_cons_high (hpos f (by simp)), List.head?_cons]

theorem Links.next_cons (h : Links z (before ++ e :: after)) (hpos : ∀ f ∈ before ++ e :: after, 0 < f.height) :
    ∃ l, z.lev e.id 0 = some l ∧ l.forward = after.head?.map Entry.id := by
  have hlinks : Links z ((before ++ [e]) ++ after) := by
    rwa [List.append_assoc]
  obtain ⟨l, hl, hforward⟩ := hlinks.next (by rwa [List.append_assoc])
  rw [owner_concat] at hl
  exact ⟨l, hl, hforward⟩

/-! ## Section 3: The node behind -/

/-- `setBehind` writes one back pointer or the tail. -/
theorem setBehind_spec {x : NodeId} {l : ZskiplistLevel} (b : Option NodeId) (hl : z.lev x 0 = some l)
    (hnext : ∀ y, l.forward = some y → (z.shape y).isSome) :
    ∃ z', z.setBehind x b = .ok z' ∧
      SameList { z with tail := if l.forward = none then b else z.tail } z' ∧ z'.lev = z.lev ∧
      ∀ y, z'.shape y = if l.forward = some y then (z.shape y).map fun s => (s.1, b, s.2.2)
        else z.shape y := by
  unfold setBehind
  rw [show ((0 : Int)) = ((0 : Nat) : Int) by rfl, levelAt_eq hl]
  rcases hf : l.forward with _ | y
  · refine ⟨{ z with tail := b }, by simp only [bind, Except.bind, hf]; rfl, ?_, rfl, fun y => ?_⟩
    · rw [if_pos rfl]
      exact SameList.refl _
    · simp [shape]
  · obtain ⟨⟨o, b', n⟩, hs⟩ := Option.isSome_iff_exists.mp (hnext y hf)
    obtain ⟨z', hset, hsame, hlev, hshape⟩ := setBackward_spec b hs
    refine ⟨z', by simp only [bind, Except.bind, hf]; exact hset, ?_, hlev, fun y' => ?_⟩
    · rw [if_neg (by simp)]
      exact hsame
    · rw [hshape]
      by_cases hy : y' = y
      · subst hy
        simp [hs]
      · simp [hy, Ne.symm hy]

/-! ## Section 4: One level -/

/-- What the spans add up to at distance `n` from the header. -/
def Measures (z : Zskiplist α) (es : List (Entry α)) (t n : Nat) : Prop :=
  t ≡ n [MOD 2 ^ 32] ∧ (z.Fits es → t = n)

/-- A walk along level `i` from the place behind `before` passes `crossed`
    and ends with `p`, in front of `rest`. -/
structure Walked (z : Zskiplist α) (more : Nat → Option α → Bool) (i : Nat)
    (before crossed rest : List (Entry α)) (traversed : Nat) (p : NodeId × Nat) : Prop where
  place : p.1 = z.owner (before ++ crossed)
  top : i < top (before ++ crossed)
  le : traversed ≤ p.2
  measure : z.Measures (before ++ crossed ++ rest) p.2 (before ++ crossed).length
  /-- Each node on the level has been gone to. -/
  landed : ∀ c e d, crossed = c ++ e :: d → i < e.height →
    ∃ t, more t e.obj ∧ traversed ≤ t ∧ t ≡ (before ++ c).length + 1 [MOD 2 ^ 32]
  last : ∀ e, crossed.getLast? = some e → more p.2 e.obj
  still : crossed = [] → p.2 = traversed
  stopped : ∀ f, (hop Entry.height i rest).1 = some f →
    ¬ more (p.2 + (hop Entry.height i rest).2 % 2 ^ 32) f.obj

variable {crossed low rest : List (Entry α)} {t span : Nat} {p : NodeId × Nat}

theorem walked_here (htop : i < top before) (hmeasure : z.Measures (before ++ rest) t before.length)
    (hstop : ∀ f, (hop Entry.height i rest).1 = some f →
      ¬ more (t + (hop Entry.height i rest).2 % 2 ^ 32) f.obj) :
    Walked z more i before [] rest t (z.owner before, t) where
  place := by rw [List.append_nil]
  top := by rwa [List.append_nil]
  le := le_refl _
  measure := by rwa [List.append_nil]
  landed := by simp
  last := by simp
  still := fun _ => rfl
  stopped := hstop

/-- The span of a hop leads from measure to measure. -/
theorem Measures.hop (hm : z.Measures es t before.length) (hes : es = before ++ (low ++ f :: rest))
    (hi : i < z.level) (htop : i < top before) (hlow : Low Entry.height i low) (hf : i < f.height) :
    z.Measures es (t + (low.length + 1) % 2 ^ 32) (before ++ low ++ [f]).length := by
  have hlen : (before ++ low ++ [f]).length = before.length + (low.length + 1) := by
    simp
  rw [hlen]
  constructor
  · exact Nat.ModEq.add hm.1 (Nat.mod_modEq _ _)
  · intro hfits
    have hsmall := hfits before _ i hes htop hi
    rw [hop_append_low hlow, hop_cons_high hf] at hsmall
    rw [hm.2 hfits, Nat.mod_eq_of_lt hsmall]

/-- One step to `f`, and the walk from there. -/
theorem Walked.step (hw : Walked z more i (before ++ low ++ [f]) crossed rest (t + span) p)
    (hlow : Low Entry.height i low) (hmore : more (t + span) f.obj)
    (hmeasure : t + span ≡ (before ++ low ++ [f]).length [MOD 2 ^ 32]) :
    Walked z more i before (low ++ f :: crossed) rest t p := by
  have hplace : before ++ low ++ [f] ++ crossed = before ++ (low ++ f :: crossed) := by simp
  have hhere : t + span ≡ (before ++ low).length + 1 [MOD 2 ^ 32] := by
    rwa [List.length_append, List.length_singleton] at hmeasure
  constructor
  · rw [hw.place, hplace]
  · rw [← hplace]
    exact hw.top
  · exact (Nat.le_add_right _ _).trans hw.le
  · rw [← hplace]
    exact hw.measure
  · intro c e d hsplit he
    rcases List.append_eq_append_iff.mp hsplit with ⟨m, hc, hm⟩ | ⟨m, hc, hm⟩
    · rcases List.cons_eq_append_iff.mp hm with ⟨rfl, hed⟩ | ⟨m', rfl, hm'⟩
      · -- `e` is `f`
        cases hed
        rw [List.append_nil] at hc
        rw [hc]
        exact ⟨_, hmore, Nat.le_add_right _ _, hhere⟩
      · obtain ⟨t', hmore', hle, hmod⟩ := hw.landed m' e d hm' he
        refine ⟨t', hmore', (Nat.le_add_right _ _).trans hle, ?_⟩
        rw [hc]
        simpa using hmod
    · rcases List.cons_eq_append_iff.mp hm with ⟨rfl, hed⟩ | ⟨m', rfl, hm'⟩
      · cases hed
        rw [List.append_nil] at hc
        rw [← hc]
        exact ⟨_, hmore, Nat.le_add_right _ _, hhere⟩
      · -- the nodes in between are not on the level
        have hin : e ∈ low := by
          rw [hc]
          simp
        exact absurd he (Nat.not_lt.mpr (hlow e hin))
  · intro e he
    rcases hcr : crossed.getLast? with _ | g
    · have hnil : crossed = [] := List.getLast?_eq_none_iff.mp hcr
      rw [hnil, List.getLast?_append, List.getLast?_singleton] at he
      cases he
      rw [hw.still hnil]
      exact hmore
    · rw [List.getLast?_append, List.getLast?_cons, hcr] at he
      cases he
      exact hw.last _ hcr
  · intro hnil
    simp at hnil
  · exact hw.stopped

theorem WellFormed.walk (more : Nat → Option α → Bool) (h : WellFormed z es) (hi : i < z.level) {fuel : Nat}
    (hes : es = before ++ after) (htop : i < top before) (hfuel : after.length < fuel)
    (hmeasure : z.Measures es t before.length) :
    ∃ crossed rest p, z.walk more i fuel (z.owner before) t = .ok p ∧ after = crossed ++ rest ∧
      Walked z more i before crossed rest t p := by
  induction fuel generalizing before after t with
  | zero => omega
  | succ fuel ih =>
    obtain ⟨l, hl, hforward, hspan⟩ := h.link before after i hes htop
    have hspan : l.span.toNat = (hop Entry.height i after).2 % 2 ^ 32 := by
      rw [hspan hi]
      exact UInt32.toNat_ofNat'
    rw [Zskiplist.walk, levelAt_eq hl]
    rcases hnext : (hop Entry.height i after).1 with _ | f
    · -- `forward` is NULL
      rw [hnext] at hforward
      refine ⟨[], after, (z.owner before, t), by simp only [bind, Except.bind, hforward]; rfl, rfl, ?_⟩
      apply walked_here htop (hes ▸ hmeasure)
      intro f hf
      rw [hnext] at hf
      simp at hf
    rw [hnext, Option.map_some] at hforward
    obtain ⟨low, rest, hafter, hlow, hf, hdist⟩ := hop_some hnext
    have hcut : es = (before ++ low) ++ f :: rest := by
      rw [hes, hafter, List.append_assoc]
    obtain ⟨n, hn, hobj, -, -⟩ := node_eq (h.node _ f rest hcut)
    by_cases hmore : more (t + l.span.toNat) n.obj
    · -- `f` is passed, and the walk goes on from there
      have hes' : es = (before ++ low ++ [f]) ++ rest := by
        rw [hcut]
        simp
      have hfuel' : rest.length < fuel := by
        rw [hafter, List.length_append, List.length_cons] at hfuel
        omega
      have hmeasure' : z.Measures es (t + l.span.toNat) (before ++ low ++ [f]).length := by
        rw [hspan, hdist]
        exact hmeasure.hop (hafter ▸ hes) hi htop hlow hf
      obtain ⟨crossed, rest', p, hwalk, hrest, hw⟩ := ih hes' (by rwa [top_concat]) hfuel' hmeasure'
      rw [owner_concat] at hwalk
      refine ⟨low ++ f :: crossed, rest', p, ?_, by rw [hafter, hrest]; simp, ?_⟩
      · simp only [bind, Except.bind, hforward, hn, hmore, if_true]
        exact hwalk
      · exact hw.step hlow (hobj ▸ hmore) hmeasure'.1
    · -- the walk stops in front of `f`
      refine ⟨[], after, (z.owner before, t), ?_, rfl, ?_⟩
      · simp only [bind, Except.bind, hforward, hn, hmore]
        rfl
      · apply walked_here htop (hes ▸ hmeasure)
        intro g hg
        cases hnext.symm.trans hg
        rw [← hspan, ← hobj]
        exact hmore

/-! ## Section 5: All levels -/

/-- What fails at a distance fails at every larger one. -/
def Antitone (more : Nat → Option α → Bool) : Prop :=
  ∀ t t' o, t ≤ t' → more t' o → more t o

/-- The distance covered with a path. -/
def covered (path : List (NodeId × Nat)) (t : Nat) : Nat := (path.head?.map Prod.snd).getD t

/-- A descent over the levels below `k`, from the place behind `before`,
    passes `crossed` and ends in front of `rest`. -/
structure Descended (z : Zskiplist α) (more : Nat → Option α → Bool) (k : Nat)
    (before crossed rest : List (Entry α)) (traversed : Nat) (path : List (NodeId × Nat)) : Prop where
  length : path.length = k
  /-- On each level the search has stopped at the last node in front of the
      place that is on the level. -/
  stops : ∀ i < k, ∃ t, path[i]? = some (z.owner (foot Entry.height i (before ++ crossed)), t) ∧
    z.Measures (before ++ crossed ++ rest) t (foot Entry.height i (before ++ crossed)).length
  landed : ∀ c e d, crossed = c ++ e :: d → k ≤ e.height →
    ∃ t, more t e.obj ∧ traversed ≤ t ∧ t ≡ (before ++ c).length + 1 [MOD 2 ^ 32]
  last : ∀ e, crossed.getLast? = some e → more (covered path traversed) e.obj
  still : crossed = [] → covered path traversed = traversed
  bottom : k = 0 → crossed = []
  stopped : 0 < k → ∀ f, rest.head? = some f → ¬ more (covered path traversed + 1) f.obj

variable {path : List (NodeId × Nat)}

@[simp] theorem covered_nil : covered [] t = t := rfl

theorem covered_concat : covered (path ++ [p]) t = covered path p.2 := by
  cases path <;> rfl

/-- A node at which a level has stopped is not passed below. -/
theorem Walked.not_passed {crossed' rest' : List (Entry α)} (hw : Walked z more k before crossed rest t p)
    (hanti : Antitone more) (hd : Descended z more k (before ++ crossed) crossed' rest' p.2 path)
    (hrest : rest = crossed' ++ rest') : Low Entry.height k crossed' := by
  by_contra hhigh
  rcases hnext : (hop Entry.height k crossed').1 with _ | f
  · exact hhigh (hop_none_iff.mp hnext)
  obtain ⟨low, d, hcrossed, -, hf, hdist⟩ := hop_some hnext
  have hhop : hop Entry.height k rest = hop Entry.height k crossed' := by
    rw [hrest, hop_append_high hhigh]
  have hstopped := hw.stopped f (by rw [hhop, hnext])
  rw [hhop, hdist] at hstopped
  obtain ⟨t', hmore, hle, hmod⟩ := hd.landed low f d hcrossed hf.le
  -- the way below is not shorter than the span of this level
  have hlong : p.2 + (low.length + 1) % 2 ^ 32 ≤ t' := by
    have hhere := hw.measure.1
    rw [List.length_append] at hmod
    unfold Nat.ModEq at hhere hmod
    omega
  exact hstopped (hanti _ _ _ hlong hmore)

theorem descended_here :
    Descended z more 0 before [] rest t [] where
  length := rfl
  stops := fun i hi => absurd hi (Nat.not_lt_zero i)
  landed := by simp
  last := by simp
  still := fun _ => rfl
  bottom := fun _ => rfl
  stopped := fun h => absurd h (lt_irrefl 0)

/-- One level, and the descent below it. -/
theorem Walked.descended {crossed' rest' : List (Entry α)} (hw : Walked z more k before crossed rest t p)
    (hanti : Antitone more) (hrest : rest = crossed' ++ rest')
    (hd : Descended z more k (before ++ crossed) crossed' rest' p.2 path)
    (hpos : ∀ e ∈ rest, 0 < e.height) :
    Descended z more (k + 1) before (crossed ++ crossed') rest' t (path ++ [p]) := by
  -- nothing walked below reaches level `k`, so the walk there ended at the same node
  have hlow := hw.not_passed hanti hd hrest
  have hplace : before ++ (crossed ++ crossed') = before ++ crossed ++ crossed' := by simp
  constructor
  · rw [List.length_append, hd.length, List.length_singleton]
  · intro i hi
    rw [hplace]
    by_cases hik : i < k
    · obtain ⟨t', hentry, hmeasure⟩ := hd.stops i hik
      have hlt : i < path.length := by rwa [hd.length]
      exact ⟨t', by rw [List.getElem?_append_left hlt, hentry], hmeasure⟩
    · obtain rfl : i = k := by omega
      have hfoot : foot Entry.height i (before ++ crossed ++ crossed') = before ++ crossed := by
        rw [foot_append_low hlow, foot_of_top hw.top]
      have hentry : (path ++ [p])[i]? = some p := by
        rw [← hd.length]
        simp
      rw [hfoot]
      refine ⟨p.2, by rw [hentry, ← hw.place], ?_⟩
      rw [List.append_assoc (before ++ crossed), ← hrest]
      exact hw.measure
  · intro c e d hsplit he
    rcases List.append_eq_append_iff.mp hsplit with ⟨m, hc, hm⟩ | ⟨m, hc, hm⟩
    · obtain ⟨t', hmore, hle, hmod⟩ := hd.landed m e d hm (by omega)
      refine ⟨t', hmore, hw.le.trans hle, ?_⟩
      rw [hc, ← List.append_assoc]
      exact hmod
    · rcases List.cons_eq_append_iff.mp hm with ⟨rfl, hed⟩ | ⟨m', rfl, hm'⟩
      · obtain ⟨t', hmore, hle, hmod⟩ := hd.landed [] e d hed (by omega)
        refine ⟨t', hmore, hw.le.trans hle, ?_⟩
        rw [List.append_nil] at hc hmod
        rwa [← hc]
      · exact hw.landed c e m' hc he
  · intro e he
    rw [covered_concat]
    rcases hlast : crossed'.getLast? with _ | g
    · have hnil : crossed' = [] := List.getLast?_eq_none_iff.mp hlast
      rw [hnil, List.append_nil] at he
      rw [hd.still hnil]
      exact hw.last e he
    · rw [List.getLast?_append, hlast] at he
      cases he
      exact hd.last _ hlast
  · intro hnil
    obtain ⟨hcrossed, hcrossed'⟩ := List.append_eq_nil_iff.mp hnil
    rw [covered_concat, hd.still hcrossed', hw.still hcrossed]
  · intro hzero
    omega
  · intro _ f hf
    rw [covered_concat]
    by_cases hk : 0 < k
    · exact hd.stopped hk f hf
    · -- level 0 has just been walked
      obtain rfl : k = 0 := by omega
      have hpath : path = [] := List.eq_nil_of_length_eq_zero hd.length
      rw [hd.bottom rfl, List.nil_append] at hrest
      rw [hpath, covered_nil]
      obtain ⟨tl, htl⟩ := List.head?_eq_some_iff.mp hf
      have hhop : hop Entry.height 0 rest = (some f, 1) := by
        rw [hrest, htl, hop_cons_high (hpos f (by rw [hrest, htl]; exact List.mem_cons_self))]
      have hstopped := hw.stopped f (by rw [hhop])
      rwa [hhop] at hstopped

theorem WellFormed.descend (h : WellFormed z es) (hanti : Antitone more) (hk : k ≤ z.level)
    (hes : es = before ++ after) (htop : k ≤ top before) (hmeasure : z.Measures es t before.length) :
    ∃ crossed rest path, z.descend more k (z.owner before) t = .ok path ∧ after = crossed ++ rest ∧
      Descended z more k before crossed rest t path := by
  induction k generalizing before after t with
  | zero => exact ⟨[], after, [], rfl, rfl, descended_here⟩
  | succ k ih =>
    have hroom := h.room_behind hes
    obtain ⟨crossed, rest, p, hwalk, hafter, hw⟩ := h.walk more hk hes htop hroom hmeasure
    have hes' : es = (before ++ crossed) ++ rest := by rw [hes, hafter, List.append_assoc]
    have hmeasure' : z.Measures es p.2 (before ++ crossed).length := hes' ▸ hw.measure
    obtain ⟨crossed', rest', path, hdescend, hrest, hd⟩ := ih (by omega) hes' hw.top.le hmeasure'
    have hpos : ∀ e ∈ rest, 0 < e.height := fun e he => (h.heights e (by rw [hes']; simp [he])).1
    refine ⟨crossed ++ crossed', rest', path ++ [p], ?_, ?_, ?_⟩
    · rw [← hw.place] at hdescend
      simp only [Zskiplist.descend, bind, Except.bind, hwalk, hdescend]
      rfl
    · rw [hafter, hrest, List.append_assoc]
    · exact hw.descended hanti hrest hd hpos

/-! ## Section 6: The search of the functions -/

/-- A search has gone up to the place between `before` and `after`. -/
structure Found (z : Zskiplist α) (more : Nat → Option α → Bool)
    (before after : List (Entry α)) (path : List (NodeId × Nat)) : Prop where
  length : path.length = z.level
  stops : ∀ i < z.level, ∃ t, path[i]? = some (z.owner (foot Entry.height i before), t) ∧
    z.Measures (before ++ after) t (foot Entry.height i before).length
  reached : (z.reached path).1 = z.owner before
  measure : z.Measures (before ++ after) (z.reached path).2 before.length
  last : ∀ e, before.getLast? = some e → more (z.reached path).2 e.obj
  stopped : ∀ f, after.head? = some f → ¬ more ((z.reached path).2 + 1) f.obj

theorem WellFormed.search (more : Nat → Option α → Bool) (h : WellFormed z es) (hanti : Antitone more) :
    ∃ before after path, z.search more = .ok path ∧ es = before ++ after ∧
      Found z more before after path := by
  have hstart : z.Measures es 0 ([] : List (Entry α)).length := ⟨Nat.ModEq.refl _, fun _ => rfl⟩
  obtain ⟨before, after, path, hdescend, hes, hd⟩ := h.descend hanti (le_refl _)
    (List.nil_append es).symm (by rw [top_nil]; exact h.level_le) hstart
  rw [owner_nil] at hdescend
  have hfoot : foot Entry.height 0 before = before := by
    apply foot_eq_self
    intro e he
    exact (h.heights e (by rw [hes]; simp [List.mem_of_getLast? he])).1
  obtain ⟨t, hentry, hmeasure⟩ := hd.stops 0 h.level_pos
  rw [List.nil_append, hfoot] at hentry hmeasure
  have hreached : z.reached path = (z.owner before, t) := by
    unfold Zskiplist.reached
    rw [List.head?_eq_getElem?, hentry]
    rfl
  have hcovered : covered path 0 = t := by
    unfold covered
    rw [List.head?_eq_getElem?, hentry]
    rfl
  refine ⟨before, after, path, hdescend, hes, hd.length, hd.stops, ?_, ?_, ?_, ?_⟩
  · rw [hreached]
  · rw [hreached]
    exact hmeasure
  · rw [hreached, ← hcovered]
    exact hd.last
  · rw [hreached, ← hcovered]
    exact hd.stopped h.level_pos

end Zskiplist

end BoAtom
