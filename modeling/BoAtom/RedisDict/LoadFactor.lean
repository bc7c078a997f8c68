import BoAtom.RedisDict.Calls

/-! # The load factor of the dict

    `Dict.Keeps` collects what an invariant of the table sizes and the number
    of entries needs, so that every call that shrinks nothing keeps it: it
    survives a rehash, an expansion makes room for one, and adding one uses
    that room up.

    Incremental rehashing keeps up with insertion.  A rehash begins when the
    table is full, into one of twice the size at least, and every insertion
    first passes a bucket of the old table; so the old table is empty before
    the new one is full.  `Dict.Room k d` is the invariant: while a rehash
    runs, what is stored, the buckets it has still to pass and `k` more fit
    into the new table, but for one; otherwise what is stored and `k` more
    fit into the table.  It is lost by tables shrunk on request only
    (`Dict.Grows`). -/

namespace BoAtom

variable {K V C : Type} {type : DictType K} {kc : K → C}

/-! ## Section 1: Invariants of sizes and numbers -/

/-- Sizes and `rehashidx`, which insertion and removal leave alone. -/
structure SameShape (d d' : Dict K V) : Prop where
  rehashidx : d'.rehashidx = d.rehashidx
  ht0 : d'.ht0.size = d.ht0.size
  ht1 : d'.ht1.size = d.ht1.size

theorem SameShape.refl (d : Dict K V) : SameShape d d := ⟨rfl, rfl, rfl⟩

/-- `I` holds between the calls, `J` where there is room for one more: each
    step of a rehash makes it, or ends the rehash, and so does an expansion. -/
structure Dict.Keeps (type : DictType K) (kc : K → C) (I J : Dict K V → Prop) : Prop where
  first : I dictCreate → I firstTable
  rehash : ∀ {d d' : Dict K V} {n : Nat} {r : Int}, d.Wf type kc → I d →
    dictRehash type d n = .ok (r, d') → I d'
  step : ∀ {d d' : Dict K V}, d.Wf type kc → I d → dictRehashStep type d = .ok d' →
    I d' ∧ (d'.rehashidx ≠ none → J d')
  expand : ∀ {d : Dict K V}, d.Wf type kc → I d → (d.rehashidx ≠ none → J d) →
    J (dictExpandIfNeeded d).2
  link : ∀ {d d' : Dict K V}, J d → SameShape d d' → d'.entries.length ≤ d.entries.length + 1 → I d'
  shape : ∀ {d d' : Dict K V}, I d → SameShape d d' → d'.entries.length ≤ d.entries.length → I d'

section calls

/-! ## Section 2: Insertion, update and removal -/

theorem dictSetVal_shape (d : Dict K V) (r : EntryRef) (v : V) : SameShape d (dictSetVal d r v) := by
  have hset : ∀ (ht : Dictht K V) idx pos, (setValIn ht idx pos v).size = ht.size := by
    intro ht idx pos
    unfold setValIn
    split
    · rfl
    · split <;> rfl
  unfold dictSetVal
  split
  · exact ⟨rfl, rfl, hset _ _ _⟩
  · exact ⟨rfl, hset _ _ _, rfl⟩

theorem unlinkEntry_size (ht : Dictht K V) (idx pos : Nat) : (unlinkEntry ht idx pos).size = ht.size := by
  unfold unlinkEntry
  split <;> rfl

variable {I J : Dict K V → Prop} [DecidableEq K]

theorem dictKeyIndex_expand {d d' : Dict K V} {key : K} {r : Option Nat}
    (h : dictKeyIndex type d key = .ok (r, d')) : d' = (dictExpandIfNeeded d).2 := by
  unfold dictKeyIndex at h
  rcases hexp : dictExpandIfNeeded d with ⟨st, d₁⟩
  rw [hexp] at h
  cases st with
  | err =>
    simp only [Except.ok.injEq, Prod.mk.injEq] at h
    exact h.2.symm
  | ok =>
    obtain ⟨o, -, h⟩ := Machine.ok_of_bind h
    cases o with
    | some pos =>
      simp only [Except.ok.injEq, Prod.mk.injEq] at h
      exact h.2.symm
    | none =>
      simp only at h
      split at h
      · obtain ⟨o₁, -, h⟩ := Machine.ok_of_bind h
        cases o₁ <;>
        · simp only [Except.ok.injEq, Prod.mk.injEq] at h
          exact h.2.symm
      · simp only [Except.ok.injEq, Prod.mk.injEq] at h
        exact h.2.symm

/-- **Insertion keeps the invariant**: the step and the expansion have made
    the room it takes. -/
theorem Dict.Keeps.addRaw [Inhabited V] (hk : Dict.Keeps type kc I J) (hr : type.Reads kc) {d : Dict K V}
    (h : d.Wf type kc) (hI : I d) {key : K} {r : Option EntryRef} {d' : Dict K V}
    (heq : dictAddRaw type d key = .ok (r, d')) : I d' := by
  obtain ⟨d₁, hstep, hwf₁, hperm₁⟩ := dictRehashStep_spec h
  obtain ⟨hI₁, hbusy₁⟩ := hk.step h hI hstep
  obtain ⟨o, d₂, hkey, hwf₂, hent₂, -⟩ := dictKeyIndex_spec hr hwf₁ key
  have hJ₂ : J d₂ := by
    rw [dictKeyIndex_expand hkey]
    exact hk.expand hwf₁ hI₁ hbusy₁
  obtain ⟨r₃, d₃, heq₃, -, hr₃⟩ := dictAddRaw_spec hr h key
  rw [heq] at heq₃
  obtain ⟨rfl, rfl⟩ := Prod.mk.inj (Except.ok.inj heq₃)
  have hlen₂ : d₂.entries.length = d.entries.length := by rw [hent₂, hperm₁.length_eq]
  simp only [dictAddRaw, hstep, Except.bind, hkey] at heq
  cases o with
  | none =>
    simp only [Except.ok.injEq, Prod.mk.injEq] at heq
    rw [← heq.2]
    exact hk.link hJ₂ (SameShape.refl d₂) (Nat.le_succ _)
  | some index =>
    -- one more entry, in a table of the same size
    have hlen : d'.entries.length ≤ d.entries.length + 1 := by
      cases r with
      | none =>
        rw [hr₃.2.length_eq]
        omega
      | some ref =>
        rw [hr₃.2.2.length_eq]
        rfl
    simp only at heq
    split at heq
    · split at heq
      · simp at heq
      · next ht hlink =>
        simp only [Except.ok.injEq, Prod.mk.injEq] at heq
        refine hk.link hJ₂ ⟨?_, ?_, ?_⟩ (by omega) <;> rw [← heq.2]
        exact linkEntry_size hlink
    · split at heq
      · simp at heq
      · next ht hlink =>
        simp only [Except.ok.injEq, Prod.mk.injEq] at heq
        refine hk.link hJ₂ ⟨?_, ?_, ?_⟩ (by omega) <;> rw [← heq.2]
        exact linkEntry_size hlink

theorem Dict.Keeps.find (hk : Dict.Keeps type kc I J) {d : Dict K V} (h : d.Wf type kc) (hI : I d) {key : K}
    {r : Option EntryRef} {d' : Dict K V} (heq : dictFind type d key = .ok (r, d')) : I d' := by
  unfold dictFind at heq
  split at heq
  · simp only [Except.ok.injEq, Prod.mk.injEq] at heq
    exact heq.2 ▸ hI
  · obtain ⟨d₁, hstep, heq⟩ := Machine.ok_of_bind heq
    have hsame : d' = d₁ := by
      obtain ⟨o, -, heq⟩ := Machine.ok_of_bind heq
      cases o with
      | some pos =>
        simp only [Except.ok.injEq, Prod.mk.injEq] at heq
        exact heq.2.symm
      | none =>
        simp only at heq
        split at heq
        · obtain ⟨o₁, -, heq⟩ := Machine.ok_of_bind heq
          cases o₁ <;>
          · simp only [Except.ok.injEq, Prod.mk.injEq] at heq
            exact heq.2.symm
        · simp only [Except.ok.injEq, Prod.mk.injEq] at heq
          exact heq.2.symm
    exact hsame ▸ (hk.step h hI hstep).1

theorem Dict.Keeps.genericDelete (hk : Dict.Keeps type kc I J) (hr : type.Reads kc) {d : Dict K V}
    (h : d.Wf type kc) (hI : I d) {key : K} {nofree : Bool} {r : DictStatus}
    {freed : Option (DictEntry K V)} {d' : Dict K V}
    (heq : dictGenericDelete type d key nofree = .ok (r, freed, d')) : I d' := by
  obtain ⟨r₂, freed₂, d₂, heq₂, -, hr₂⟩ := dictGenericDelete_spec hr h key nofree
  rw [heq] at heq₂
  obtain ⟨rfl, hrest⟩ := Prod.mk.inj (Except.ok.inj heq₂)
  obtain ⟨rfl, rfl⟩ := Prod.mk.inj hrest
  -- nothing is added
  have hlen : d'.entries.length ≤ d.entries.length := by
    cases r with
    | ok =>
      obtain ⟨e, -, -, hp⟩ := hr₂
      rw [hp.length_eq, List.length_cons]
      omega
    | err => rw [hr₂.2.2.length_eq]
  unfold dictGenericDelete at heq
  split at heq
  · simp only [Except.ok.injEq, Prod.mk.injEq] at heq
    exact heq.2.2 ▸ hI
  obtain ⟨d₁, hstep, heq⟩ := Machine.ok_of_bind heq
  obtain ⟨d₁', hstep', hwf₁, hperm₁⟩ := dictRehashStep_spec h
  rw [hstep] at hstep'
  cases hstep'
  have hI₁ := (hk.step h hI hstep).1
  have hshape : SameShape d₁ d' := by
    obtain ⟨o, -, heq⟩ := Machine.ok_of_bind heq
    cases o with
    | some pos =>
      simp only [Except.ok.injEq, Prod.mk.injEq] at heq
      rw [← heq.2.2]
      exact ⟨rfl, unlinkEntry_size _ _ _, rfl⟩
    | none =>
      simp only at heq
      split at heq
      · obtain ⟨o₁, -, heq⟩ := Machine.ok_of_bind heq
        cases o₁ with
        | some pos =>
          simp only [Except.ok.injEq, Prod.mk.injEq] at heq
          rw [← heq.2.2]
          exact ⟨rfl, rfl, unlinkEntry_size _ _ _⟩
        | none =>
          simp only [Except.ok.injEq, Prod.mk.injEq] at heq
          rw [← heq.2.2]
          exact SameShape.refl d₁
      · simp only [Except.ok.injEq, Prod.mk.injEq] at heq
        rw [← heq.2.2]
        exact SameShape.refl d₁
  have := hperm₁.length_eq
  exact hk.shape hI₁ hshape (by omega)

omit [DecidableEq K] in
theorem Dict.Keeps.setVal (hk : Dict.Keeps type kc I J) {d : Dict K V} (h : d.Wf type kc) (hI : I d)
    {ref : EntryRef} {e : DictEntry K V} (hat : entryAt d ref = some e) (v : V) : I (dictSetVal d ref v) := by
  obtain ⟨-, rest, hold, hnew⟩ := dictSetVal_spec h hat v
  refine hk.shape hI (dictSetVal_shape d ref v) (le_of_eq ?_)
  rw [hold.length_eq, hnew.length_eq]
  rfl

theorem Dict.Keeps.add [Inhabited V] (hk : Dict.Keeps type kc I J) (hr : type.Reads kc) {d : Dict K V}
    (h : d.Wf type kc) (hI : I d) {key : K} {val : V} {r : DictStatus} {d' : Dict K V}
    (heq : dictAdd type d key val = .ok (r, d')) : I d' := by
  obtain ⟨r₁, d₁, hadd, hwf₁, hr₁⟩ := dictAddRaw_spec hr h key
  have hI₁ := hk.addRaw hr h hI hadd
  rw [dictAdd, hadd] at heq
  cases r₁ with
  | none =>
    simp only [Except.bind, Except.ok.injEq, Prod.mk.injEq] at heq
    exact heq.2 ▸ hI₁
  | some ref =>
    simp only [Except.bind, Except.ok.injEq, Prod.mk.injEq] at heq
    exact heq.2 ▸ hk.setVal hwf₁ hI₁ hr₁.2.1 val

theorem Dict.Keeps.replace [Inhabited V] (hk : Dict.Keeps type kc I J) (hr : type.Reads kc) {d : Dict K V}
    (h : d.Wf type kc) (hI : I d) {key : K} {val : V} {r : Int} {old : Option V} {d' : Dict K V}
    (heq : dictReplace type d key val = .ok (r, old, d')) : I d' := by
  obtain ⟨r₁, d₁, hadd, hwf₁, -⟩ := dictAdd_spec hr h key val
  have hI₁ := hk.add hr h hI hadd
  rw [dictReplace, hadd] at heq
  cases r₁ with
  | ok =>
    simp only [Except.bind, Except.ok.injEq, Prod.mk.injEq] at heq
    exact heq.2.2 ▸ hI₁
  | err =>
    obtain ⟨f, d₂, hfind, hwf₂, -, hf⟩ := dictFind_spec hr hwf₁ key
    have hI₂ := hk.find hwf₁ hI₁ hfind
    simp only [Except.bind] at heq
    rw [hfind] at heq
    cases f with
    | none => simp at heq
    | some ref =>
      obtain ⟨e, hat, -, -⟩ := hf
      simp only [hat, Except.ok.injEq, Prod.mk.injEq] at heq
      exact heq.2.2 ▸ hk.setVal hwf₂ hI₂ hat val

theorem Dict.Keeps.replaceRaw [Inhabited V] (hk : Dict.Keeps type kc I J) (hr : type.Reads kc)
    {d : Dict K V} (h : d.Wf type kc) (hI : I d) {key : K} {r : Option EntryRef} {d' : Dict K V}
    (heq : dictReplaceRaw type d key = .ok (r, d')) : I d' := by
  obtain ⟨f, d₁, hfind, hwf₁, -, -⟩ := dictFind_spec hr h key
  have hI₁ := hk.find h hI hfind
  rw [dictReplaceRaw, hfind] at heq
  cases f with
  | none => exact hk.addRaw hr hwf₁ hI₁ heq
  | some ref =>
    simp only [Except.bind, Except.ok.injEq, Prod.mk.injEq] at heq
    exact heq.2 ▸ hI₁

omit [DecidableEq K] in
theorem Dict.Keeps.rehashMs (hk : Dict.Keeps type kc I J) (ms : Int) (clock : Nat → Int) :
    ∀ (fuel round : Nat) (d : Dict K V) {r : Int} {d' : Dict K V}, d.Wf type kc → I d →
      rehashMsLoop type ms clock fuel round d = .ok (r, d') → I d' := by
  intro fuel
  induction fuel with
  | zero => intro round d r d' _ _ heq; simp [rehashMsLoop] at heq
  | succ fuel ih =>
    intro round d r d' h hI heq
    obtain ⟨⟨r₁, d₁⟩, hrehash, heq⟩ := Machine.ok_of_bind heq
    have hI₁ := hk.rehash h hI hrehash
    have hwf₁ : d₁.Wf type kc := by
      obtain ⟨r₂, d₂, heq₂, hwf₂, -⟩ := dictRehash_spec h 100
      rw [hrehash] at heq₂
      obtain ⟨-, rfl⟩ := Prod.mk.inj (Except.ok.inj heq₂)
      exact hwf₂
    split at heq
    · simp only [Except.ok.injEq, Prod.mk.injEq] at heq
      exact heq.2 ▸ hI₁
    · split at heq
      · simp only [Except.ok.injEq, Prod.mk.injEq] at heq
        exact heq.2 ▸ hI₁
      · exact ih _ _ hwf₁ hI₁ heq

/-! ## Section 3: One call -/

variable [Inhabited V]

/-- The dict an insertion works on: the first table is made for a new one. -/
theorem Dict.Keeps.insertion_table (hk : Dict.Keeps type kc I J) {d : Dict K V} (h : d.Ready type kc)
    (hI : I d) : ∃ d₀ : Dict K V, d₀.Wf type kc ∧ I d₀ ∧
      ∀ key, dictAddRaw type d key = dictAddRaw type d₀ key := by
  rcases h with rfl | hwf
  · exact ⟨firstTable, (firstTable_wf type kc).1, hk.first hI, dictAddRaw_dictCreate⟩
  · exact ⟨d, hwf, hI, fun _ => rfl⟩

variable {s s' : DictRun K V}

theorem Dict.Keeps.call_add (hk : Dict.Keeps type kc I J) (hr : type.Reads kc) (h : s.dict.Ready type kc)
    (hI : I s.dict) {key : K} {val : V} (heq : dictStep type s (.add key val) = .ok s') : I s'.dict := by
  obtain ⟨⟨r, d⟩, hadd, rfl⟩ := Machine.ok_of_map heq
  obtain ⟨d₀, hwf₀, hI₀, hsame⟩ := hk.insertion_table h hI
  rw [dictAdd, hsame, ← dictAdd] at hadd
  exact hk.add hr hwf₀ hI₀ hadd

theorem Dict.Keeps.call_replace (hk : Dict.Keeps type kc I J) (hr : type.Reads kc)
    (h : s.dict.Ready type kc) (hI : I s.dict) {key : K} {val : V}
    (heq : dictStep type s (.replace key val) = .ok s') : I s'.dict := by
  obtain ⟨⟨r, old, d⟩, hrep, rfl⟩ := Machine.ok_of_map heq
  obtain ⟨d₀, hwf₀, hI₀, hsame⟩ := hk.insertion_table h hI
  have hsame' : dictReplace type s.dict key val = dictReplace type d₀ key val := by
    rw [dictReplace, dictReplace, dictAdd, dictAdd, hsame]
  rw [hsame'] at hrep
  exact hk.replace hr hwf₀ hI₀ hrep

theorem Dict.Keeps.call_replaceRaw (hk : Dict.Keeps type kc I J) (hr : type.Reads kc)
    (h : s.dict.Ready type kc) (hI : I s.dict) {key : K} {val : V}
    (heq : dictStep type s (.replaceRaw key val) = .ok s') : I s'.dict := by
  obtain ⟨⟨r, d⟩, hraw, heq⟩ := Machine.ok_of_bind heq
  cases r with
  | none => cases heq
  | some ref =>
    cases heq
    suffices hd : ∃ e, entryAt d ref = some e ∧ d.Wf type kc ∧ I d by
      obtain ⟨e, hat, hwf, hId⟩ := hd
      exact hk.setVal hwf hId hat val
    rcases h with hnew | hwf
    · -- nothing is found in a new dict
      rw [hnew] at hI
      rw [hnew, dictReplaceRaw, dictFind_dictCreate] at hraw
      have hadd : dictAddRaw type firstTable key = .ok (some ref, d) := by
        rw [← dictAddRaw_dictCreate]
        exact hraw
      obtain ⟨r₂, d₂, heq₂, hwf₂, hr₂⟩ := dictAddRaw_spec (V := V) hr (firstTable_wf type kc).1 key
      rw [hadd] at heq₂
      cases heq₂
      exact ⟨_, hr₂.2.1, hwf₂, hk.addRaw hr (firstTable_wf type kc).1 (hk.first hI) hadd⟩
    · obtain ⟨ref₂, d₂, heq₂, hwf₂, hat⟩ := dictReplaceRaw_spec hr hwf key
      rw [hraw] at heq₂
      cases heq₂
      have hI₂ := hk.replaceRaw hr hwf hI hraw
      rcases hat with ⟨e, hat, -⟩ | ⟨-, hat, -⟩
      · exact ⟨e, hat, hwf₂, hI₂⟩
      · exact ⟨_, hat, hwf₂, hI₂⟩

omit [Inhabited V] in
theorem Dict.Keeps.call_delete (hk : Dict.Keeps type kc I J) (hr : type.Reads kc)
    (h : s.dict.Ready type kc) (hI : I s.dict) {key : K} {nofree : Bool} {r : DictStatus}
    {freed : Option (DictEntry K V)} {d : Dict K V}
    (heq : dictGenericDelete type s.dict key nofree = .ok (r, freed, d)) : I d := by
  rcases h with hnew | hwf
  · have hnone : dictGenericDelete type (dictCreate : Dict K V) key nofree = .ok (.err, none, dictCreate) := rfl
    rw [hnew, hnone] at heq
    cases heq
    exact hnew ▸ hI
  · exact hk.genericDelete hr hwf hI heq

omit [Inhabited V] in
theorem Dict.Keeps.call_find (hk : Dict.Keeps type kc I J) (h : s.dict.Ready type kc) (hI : I s.dict)
    {key : K} {r : Option EntryRef} {d : Dict K V} (heq : dictFind type s.dict key = .ok (r, d)) :
    I d := by
  rcases h with hnew | hwf
  · rw [hnew, dictFind_dictCreate] at heq
    cases heq
    exact hnew ▸ hI
  · exact hk.find hwf hI heq

/-- **One call keeps the invariant**, if what is asked for in so many words,
    other tables or none, keeps it. -/
theorem Dict.Keeps.call (hk : Dict.Keeps type kc I J) (hr : type.Reads kc) (h : s.dict.Ready type kc)
    (hI : I s.dict) {c : DictCall K V} (hresize : c = .resize → I (dictResize s.dict).2)
    (hexpand : ∀ size, c = .expand size → I (dictExpand s.dict size).2)
    (hempty' : c = .empty → I dictCreate) (heq : dictStep type s c = .ok s') : I s'.dict := by
  cases c with
  | add key val => exact hk.call_add hr h hI heq
  | replace key val => exact hk.call_replace hr h hI heq
  | replaceRaw key val => exact hk.call_replaceRaw hr h hI heq
  | find key =>
    obtain ⟨⟨r, d⟩, hfind, heq⟩ := Machine.ok_of_bind heq
    obtain ⟨e, -, rfl⟩ := Machine.ok_of_map heq
    exact hk.call_find h hI hfind
  | fetch key =>
    obtain ⟨⟨v, d⟩, hfetch, rfl⟩ := Machine.ok_of_map heq
    obtain ⟨⟨r, d₁⟩, hfind, hread⟩ := Machine.ok_of_bind hfetch
    have hsame : d = d₁ := by
      cases r with
      | none =>
        cases hread
        rfl
      | some ref =>
        simp only at hread
        split at hread
        · cases hread
        · cases hread
          rfl
    exact hsame ▸ hk.call_find h hI hfind
  | delete key =>
    obtain ⟨⟨r, freed, d⟩, hdel, rfl⟩ := Machine.ok_of_map heq
    exact hk.call_delete hr h hI hdel
  | deleteNoFree key =>
    obtain ⟨⟨r, freed, d⟩, hdel, rfl⟩ := Machine.ok_of_map heq
    exact hk.call_delete hr h hI hdel
  | resize =>
    cases heq
    exact hresize rfl
  | expand size =>
    cases heq
    exact hexpand size rfl
  | rehash n =>
    obtain ⟨⟨r, d⟩, hre, rfl⟩ := Machine.ok_of_map heq
    rcases h with hnew | hwf
    · rw [hnew] at hre
      cases hre
      exact hnew ▸ hI
    · exact hk.rehash hwf hI hre
  | rehashMs ms clock =>
    obtain ⟨⟨r, d⟩, hre, rfl⟩ := Machine.ok_of_map heq
    rcases h with hnew | hwf
    · rw [hnew] at hre
      cases hre
      exact hnew ▸ hI
    · exact hk.rehashMs ms clock _ _ _ hwf hI hre
  | empty =>
    obtain ⟨⟨es, d⟩, hempty, rfl⟩ := Machine.ok_of_map heq
    rw [(dictEmpty_ready h).1] at hempty
    cases hempty
    exact hempty' rfl

end calls

/-! ## Section 4: Room -/

structure Dict.Room (k : Nat) (d : Dict K V) : Prop where
  idle : d.rehashidx = none → d.entries.length + k ≤ d.ht0.size
  busy : ∀ idx, d.rehashidx = some idx → idx < d.ht0.size ∧ d.ht0.size ≤ d.ht1.size ∧
    d.entries.length + (d.ht0.size - idx) + k ≤ d.ht1.size + 1

theorem Dict.Room.of_shape {d d' : Dict K V} {k k' : Nat} (h : d.Room k) (hs : SameShape d d')
    (hle : d'.entries.length + k' ≤ d.entries.length + k) : d'.Room k' := by
  refine ⟨fun hidle => ?_, fun idx hidx => ?_⟩
  · rw [hs.ht0]
    have := h.idle (hs.rehashidx ▸ hidle)
    omega
  · rw [hs.ht0, hs.ht1]
    have := h.busy idx (hs.rehashidx ▸ hidx)
    omega

theorem Dict.Room.weaken {d : Dict K V} {k : Nat} (h : d.Room k) : d.Room 0 :=
  h.of_shape ⟨rfl, rfl, rfl⟩ (by omega)

/-- What the invariant is for. -/
theorem Dict.Room.size_le {d : Dict K V} (h : d.Room 0) : d.entries.length ≤ d.target := by
  rcases hidx : d.rehashidx with _ | idx
  · rw [Dict.target_idle hidx]
    exact h.idle hidx
  · rw [Dict.target_at hidx]
    have := h.busy idx hidx
    omega

/-! ## Section 5: Rehashing -/

/-- The bucket `rehashidx` stands at exists while the old table holds
    something. -/
theorem Dict.Wf.rehashidx_lt {d : Dict K V} (h : d.Wf type kc) {idx : Nat}
    (hidx : d.rehashidx = some idx) (hused : d.ht0.used ≠ 0) : idx < d.ht0.size := by
  obtain ⟨j, e, es, hij, hj⟩ := h.entry_ahead hidx hused
  have := (List.getElem?_eq_some_iff.mp hj).1
  rw [h.ht0.size]
  omega

/-- A rehash that goes on has something left to move. -/
theorem rehashLoop_used : ∀ (n emptyVisits idx : Nat) (d : Dict K V) {r : Int} {d' : Dict K V},
    rehashLoop type n emptyVisits idx d = .ok (r, d') → d'.rehashidx ≠ none → d'.ht0.used ≠ 0 := by
  intro n
  have hend : ∀ (d : Dict K V), (rehashEnd d).2.rehashidx ≠ none → (rehashEnd d).2.ht0.used ≠ 0 := by
    intro d hne
    unfold rehashEnd at hne ⊢
    split at hne
    · exact absurd rfl hne
    · next hused =>
      rw [if_neg hused]
      exact hused
  induction n with
  | zero =>
    intro ev idx d r d' h hne
    simp only [rehashLoop, Except.ok.injEq] at h
    have hd : (rehashEnd d).2 = d' := by rw [h]
    exact hd ▸ hend d (hd ▸ hne)
  | succ n ih =>
    intro ev idx d r d' h hne
    rw [rehashLoop] at h
    split at h
    · simp only [Except.ok.injEq] at h
      have hd : (rehashEnd d).2 = d' := by rw [h]
      exact hd ▸ hend d (hd ▸ hne)
    next hused =>
      split at h
      · simp at h
      · obtain ⟨sk, hskip, h⟩ := Machine.ok_of_bind h
        cases sk with
        | exhausted i =>
          -- the scan gave up before anything was moved
          simp only [Except.ok.injEq, Prod.mk.injEq] at h
          rw [← h.2]
          exact hused
        | found i ev' b =>
          obtain ⟨ht1, -, h⟩ := Machine.ok_of_bind h
          exact ih _ _ _ h hne

/-- The end of a rehash frees the room of the old table. -/
theorem rehashEnd_room {d : Dict K V} (h : d.Wf type kc) (hroom : d.Room 0) {idx : Nat}
    (hidx : d.rehashidx = some idx) : (rehashEnd d).2.Room 0 := by
  have hlen := (rehashEnd_spec h hidx).2.length_eq
  have hbusy := hroom.busy idx hidx
  unfold rehashEnd at hlen ⊢
  split at hlen
  · next hused =>
    rw [if_pos hused]
    refine ⟨fun _ => ?_, fun i hi => by simp at hi⟩
    simp only at hlen ⊢
    omega
  · next hused =>
    rw [if_neg hused]
    exact hroom

theorem dictRehash_room {d : Dict K V} (h : d.Wf type kc) (hroom : d.Room 0) {n : Nat} {r : Int}
    {d' : Dict K V} (heq : dictRehash type d n = .ok (r, d')) :
    d'.Room 0 ∧ (0 < n → d'.rehashidx ≠ none → d'.Room 1) := by
  rcases Nat.eq_zero_or_pos n with rfl | hn
  · refine ⟨?_, fun hn => absurd hn (lt_irrefl 0)⟩
    rcases hidx : d.rehashidx with _ | idx <;> rw [dictRehash, hidx] at heq
    · cases heq
      exact hroom
    · have hend : d' = (rehashEnd d).2 := by
        have hloop : rehashLoop type 0 (0 * 10) idx d = .ok (rehashEnd d) := rfl
        exact (congrArg Prod.snd (Except.ok.inj (hloop.symm.trans heq))).symm
      exact hend ▸ rehashEnd_room h hroom hidx
  refine And.imp_right (fun hone _ => hone) ?_
  obtain ⟨r₁, d₁, heq₁, hwf, hperm⟩ := dictRehash_spec h n
  obtain ⟨r₂, d₂, heq₂, htarget, -, hlt, hsize⟩ := dictRehash_moved h hn
  rw [heq] at heq₁ heq₂
  obtain ⟨rfl, rfl⟩ := Prod.mk.inj (Except.ok.inj heq₁)
  obtain ⟨rfl, rfl⟩ := Prod.mk.inj (Except.ok.inj heq₂)
  have hlen := hperm.length_eq
  rcases hidx : d.rehashidx with _ | idx
  · -- no rehash is running
    rw [dictRehash, hidx] at heq
    simp only [Except.ok.injEq, Prod.mk.injEq] at heq
    rw [← heq.2]
    exact ⟨hroom, fun hne => absurd hidx hne⟩
  have hbusy := hroom.busy idx hidx
  rw [Dict.target_at hidx] at htarget
  rcases hidx' : d'.rehashidx with _ | idx'
  · rw [Dict.target_idle hidx'] at htarget
    refine ⟨⟨fun _ => ?_, fun i hi => ?_⟩, fun hne => absurd rfl hne⟩
    · omega
    · rw [hidx'] at hi
      cases hi
  · have hne : d'.rehashidx ≠ none := by rw [hidx']; simp
    have hmove := hlt hne
    have hsame := hsize hne
    rw [Dict.toMove_at hidx, Dict.toMove_at hidx'] at hmove
    rw [Dict.target_at hidx'] at htarget
    have hused : d'.ht0.used ≠ 0 := by
      rw [dictRehash, hidx] at heq
      exact rehashLoop_used _ _ _ _ heq hne
    have hbound := hwf.rehashidx_lt hidx' hused
    have hone : d'.Room 1 := by
      refine ⟨fun hn => absurd hn hne, fun i hi => ?_⟩
      rw [hidx'] at hi
      cases hi
      exact ⟨hbound, by omega, by omega⟩
    exact ⟨hone.weaken, fun _ => hone⟩

/-- **A step makes room for one**, unless it has ended the rehash. -/
theorem dictRehashStep_room {d d' : Dict K V} (h : d.Wf type kc) (hroom : d.Room 0)
    (hstep : dictRehashStep type d = .ok d') : d'.Room 0 ∧ (d'.rehashidx ≠ none → d'.Room 1) := by
  unfold dictRehashStep at hstep
  split at hstep
  · obtain ⟨⟨r, e⟩, heq, rfl⟩ := Machine.ok_of_map hstep
    exact ⟨(dictRehash_room h hroom heq).1, (dictRehash_room h hroom heq).2 Nat.one_pos⟩
  · next hnot =>
    simp only [Except.ok.injEq] at hstep
    subst hstep
    refine ⟨hroom, fun hne => absurd ⟨?_, h.iterators⟩ hnot⟩
    simpa [dictIsRehashing] using Option.ne_none_iff_isSome.mp hne

/-! ## Section 6: Expanding -/

/-- A rehash that begins with a table twice the size of the one in use. -/
theorem Dict.Room.begin_rehash {d : Dict K V} (h : d.Wf type kc) (hidle : ¬ dictIsRehashing d) {p : Nat} (hfit : d.entries.length + d.ht0.size ≤ 2 ^ p) :
    ({ d with
        ht1 := { table := List.replicate (2 ^ p) [], size := 2 ^ p, sizemask := 2 ^ p - 1, used := 0 },
        rehashidx := some 0 } : Dict K V).Room 1 := by
  refine ⟨fun hn => by simp at hn, fun idx hidx => ?_⟩
  simp only [Option.some.injEq] at hidx
  subst hidx
  have hpos : 0 < d.ht0.size := by
    rw [h.ht0.size]
    exact List.length_pos_iff.mpr h.ht0.table_ne_nil
  have hent : ({ d with
      ht1 := { table := List.replicate (2 ^ p) [], size := 2 ^ p, sizemask := 2 ^ p - 1, used := 0 },
      rehashidx := some 0 } : Dict K V).entries = d.entries := by
    simp [Dict.entries, Dictht.entries, h.idle (Dict.Wf.idle_none hidle), dictReset]
  rw [hent]
  exact ⟨hpos, by simp only; omega, by simp only; omega⟩

theorem Dict.Wf.entries_idle {d : Dict K V} (h : d.Wf type kc) (hidle : ¬ dictIsRehashing d) :
    d.entries.length = d.ht0.used := by
  rw [Dict.entries, h.ht1_nil hidle, List.append_nil, h.ht0.used]

/-- After `_dictExpandIfNeeded` there is room for one more. -/
theorem dictExpandIfNeeded_room {d : Dict K V} (h : d.Wf type kc)
    (hbusy : d.rehashidx ≠ none → d.Room 1) : (dictExpandIfNeeded d).2.Room 1 := by
  have hpos : d.ht0.size ≠ 0 := by
    rw [h.ht0.size]
    exact fun hnil => h.ht0.table_ne_nil (List.eq_nil_of_length_eq_zero hnil)
  unfold dictExpandIfNeeded
  split
  · next hre => exact hbusy (by simpa [dictIsRehashing, Option.isSome_iff_ne_none] using hre)
  next hidle =>
    have hlen := h.entries_idle hidle
    split
    · next hfull =>
      obtain ⟨p, hp, hsize⟩ := dictNextPower_spec (d.ht0.used * 2)
      have hne : dictNextPower (d.ht0.used * 2) ≠ d.ht0.size := by rw [hp]; omega
      have hnot : ¬ (dictIsRehashing d ∨ d.ht0.used > d.ht0.used * 2) := by
        rintro (hre | hgt)
        · exact hidle hre
        · omega
      have htable : ¬ d.ht0.table.isEmpty := by
        rw [List.isEmpty_iff]
        exact h.ht0.table_ne_nil
      rw [dictExpand, if_neg hnot, if_neg hne, if_neg htable, hp]
      exact Dict.Room.begin_rehash h hidle (by omega)
    · next hnotfull =>
      have hfree : d.ht0.used < d.ht0.size := by
        by_contra hge
        exact hnotfull ⟨by omega, Or.inl rfl⟩
      refine ⟨fun _ => ?_, fun idx hidx => ?_⟩
      · show d.entries.length + 1 ≤ d.ht0.size
        omega
      · rw [Dict.Wf.idle_none hidle] at hidx
        cases hidx

/-- Requested sizes that do not shrink the table. -/
theorem dictExpand_room {d : Dict K V} (h : d.Wf type kc) (hroom : d.Room 0) {size : Nat}
    (hgrow : d.ht0.size ≤ size) : (dictExpand d size).2.Room 0 := by
  unfold dictExpand
  simp only
  split
  · exact hroom
  next hcan =>
    split
    · exact hroom
    next hne =>
      have hidle : ¬ dictIsRehashing d := fun hre => hcan (Or.inl hre)
      have htable : ¬ d.ht0.table.isEmpty := by
        rw [List.isEmpty_iff]
        exact h.ht0.table_ne_nil
      obtain ⟨p, hp, hsize⟩ := dictNextPower_spec size
      obtain ⟨n, hn⟩ := h.ht0.pow
      rw [hp] at hne
      rw [if_neg htable, hp]
      -- another power of two, not below the size in use, is twice that at least
      have hdouble : d.ht0.size + d.ht0.size ≤ 2 ^ p := by
        rw [h.ht0.size, hn] at hne hgrow ⊢
        have hlt : 2 ^ n < 2 ^ p := by omega
        have hnp : n + 1 ≤ p := (Nat.pow_lt_pow_iff_right (by decide)).mp hlt
        calc 2 ^ n + 2 ^ n = 2 ^ (n + 1) := by rw [pow_succ]; omega
          _ ≤ 2 ^ p := Nat.pow_le_pow_right (by decide) hnp
      have hlen := hroom.idle (Dict.Wf.idle_none hidle)
      exact (Dict.Room.begin_rehash h hidle (by omega)).weaken

/-! ## Section 7: Any calls that shrink nothing -/

theorem firstTable_room (size : Nat) : (dictExpand (dictCreate : Dict K V) size).2.Room 0 := by
  obtain ⟨p, hp, -⟩ := dictNextPower_spec size
  have hne : dictNextPower size ≠ 0 := by rw [hp]; exact (Nat.two_pow_pos p).ne'
  have heq : (dictExpand (dictCreate : Dict K V) size).2 =
      { (dictCreate : Dict K V) with ht0 :=
        { table := List.replicate (dictNextPower size) [], size := dictNextPower size,
          sizemask := dictNextPower size - 1, used := 0 } } := by
    simp [dictExpand, dictCreate, dictReset, dictIsRehashing, hne]
  rw [heq]
  refine ⟨fun _ => ?_, fun idx hidx => by simp [dictCreate] at hidx⟩
  simp [Dict.entries, Dictht.entries, dictCreate, dictReset]

theorem dictCreate_room : (dictCreate : Dict K V).Room 0 :=
  ⟨fun _ => le_refl _, fun idx hidx => by simp [dictCreate] at hidx⟩

theorem room_keeps : Dict.Keeps type kc (Dict.Room 0 : Dict K V → Prop) (Dict.Room 1) where
  first _ := firstTable_room _
  rehash h hroom heq := (dictRehash_room h hroom heq).1
  step h hroom heq := dictRehashStep_room h hroom heq
  expand h _ hbusy := dictExpandIfNeeded_room h hbusy
  link hroom hs hle := hroom.of_shape hs (by omega)
  shape hroom hs hle := hroom.of_shape hs (by omega)

/-- The call asks for no table smaller than the one in use. -/
def Dict.Grows (s : DictRun K V) : DictCall K V → Prop
  | .resize => False
  | .expand size => s.dict.ht0.size ≤ size
  | _ => True

instance Dict.decidableGrows (s : DictRun K V) : ∀ c : DictCall K V, Decidable (Dict.Grows s c)
  | .resize => isFalse id
  | .expand size => inferInstanceAs (Decidable (s.dict.ht0.size ≤ size))
  | .add _ _ | .replace _ _ | .replaceRaw _ _ | .find _ | .fetch _ | .delete _ | .deleteNoFree _
  | .rehash _ | .rehashMs _ _ | .empty => isTrue trivial

variable [DecidableEq K] [Inhabited V]

theorem step_room (hr : type.Reads kc) {s s' : DictRun K V} (h : s.dict.Ready type kc)
    (hroom : s.dict.Room 0) {c : DictCall K V} (hgrow : Dict.Grows s c) (heq : dictStep type s c = .ok s') :
    s'.dict.Room 0 := by
  refine room_keeps.call hr h hroom (fun hc => ?_) (fun size hc => ?_) (fun _ => dictCreate_room) heq
  · rw [hc] at hgrow
    exact hgrow.elim
  · rw [hc] at hgrow
    rcases h with hnew | hwf
    · rw [hnew]
      exact firstTable_room size
    · exact dictExpand_room hwf hroom hgrow

/-- **The load factor never exceeds one.**  In any run that asks for no
    smaller table, however the calls are mixed, the dict never holds more
    entries than the table new keys go to has buckets; below 2^31 buckets
    (`DictRun.Fits`) that is the dict of the code. -/
theorem dict_calls_load_factor [DecidableEq C] (hr : type.Reads kc) {calls : List (DictCall K V)}
    (hgrow : Machine.Along (dictStep type) Dict.Grows DictRun.start calls) {s : DictRun K V}
    (hrun : Machine.run (dictStep type) DictRun.start calls = .ok s) :
    dictSize s.dict ≤ s.dict.target := by
  have hinv : (∃ a : MapRun K V C, DictRun.Follows type kc s a) ∧ s.dict.Room 0 := by
    refine Machine.along_invariant (I := fun s => (∃ a : MapRun K V C, DictRun.Follows type kc s a) ∧
      s.dict.Room 0) ?_ ⟨⟨_, follows_start⟩, dictCreate_room⟩ hgrow hrun
    rintro s c s' ⟨⟨a, ha⟩, hroom⟩ hg heq
    obtain ⟨s'', heq', ha'⟩ := step_follows hr ha c
    rw [heq] at heq'
    cases heq'
    exact ⟨⟨_, ha'⟩, step_room hr ha.ready hroom hg heq⟩
  obtain ⟨⟨a, ha⟩, hroom⟩ := hinv
  rw [dictSize_eq ha.ready]
  exact hroom.size_le

/-- The fifth key makes the table of eight, and the sixth finds the rehash
    under way. -/
theorem dict_calls_load_factor_nat :
    ∃ s : DictRun Nat Nat, Machine.run (dictStep natType) DictRun.start [.add 1 10, .add 2 20, .add 3 30,
        .add 4 40, .add 5 50, .delete 1, .add 6 60] = .ok s ∧ dictSize s.dict ≤ s.dict.target := by
  obtain ⟨s, hrun, -⟩ := run_follows (V := Nat) natType_reads
    [.add 1 10, .add 2 20, .add 3 30, .add 4 40, .add 5 50, .delete 1, .add 6 60]
  exact ⟨s, hrun, dict_calls_load_factor natType_reads (by decide +kernel) hrun⟩

end BoAtom
