import BoAtom.RedisDict.Api
import Mathlib.Algebra.Order.Group.Multiset
import Mathlib.Data.Set.Card
import Mathlib.Tactic.Abel

/-! # Any sequence of calls on a dict

    A new or emptied dict has no table, so it does not meet `Dict.Wf`; the
    interface is proved for `Dict.Ready`, which is either.

    `dictStep` runs one call of the interface and keeps what it answers and
    what it passes to the destructors.  `mapStep` is the same call on a
    finite map from key contents to entries.  `DictRun.Fits` says that the
    integers of the code hold what a call works with; under it the main
    results hold of every sequence of calls on a new dict:

    * the answers are those of the map (`dict_calls_refine_map`);
    * what was stored is freed once, handed back or still held
      (`dict_calls_release_once`);
    * unless a table is shrunk on request, the load factor stays below one
      (`dict_calls_load_factor`). -/

namespace BoAtom

variable {K V C : Type}

/-! ## Section 1: Calls -/

inductive DictCall (K V : Type) where
  | add (key : K) (val : V)
  | replace (key : K) (val : V)
  /-- `dictReplaceRaw`, and `dictSetVal` on the entry it returns. -/
  | replaceRaw (key : K) (val : V)
  | find (key : K)
  | fetch (key : K)
  | delete (key : K)
  | deleteNoFree (key : K)
  | resize
  | expand (size : Nat)
  | rehash (n : Nat)
  | rehashMs (ms : Int) (clock : Nat → Int)
  | empty

inductive DictAnswer (K V : Type) where
  | status (r : DictStatus)
  | code (r : Int)
  | entry (e : Option (DictEntry K V))
  | value (v : Option V)
  | done
  deriving DecidableEq, Repr

/-- A dict, what its calls answered and what they passed to the
    destructors, oldest first. -/
structure DictRun (K V : Type) where
  dict : Dict K V
  answers : List (DictAnswer K V)
  freedKeys : List K
  freedVals : List V
  deriving DecidableEq, Repr

def DictRun.start : DictRun K V :=
  { dict := dictCreate, answers := [], freedKeys := [], freedVals := [] }

/-- The end of a call. -/
def DictRun.next (s : DictRun K V) (d : Dict K V) (a : DictAnswer K V) (keys : List K)
    (vals : List V) : DictRun K V :=
  { dict := d, answers := s.answers ++ [a], freedKeys := s.freedKeys ++ keys,
    freedVals := s.freedVals ++ vals }

/-- The entry a lookup returns, read through its pointer. -/
def readEntry (d : Dict K V) : Option EntryRef → Except Fault (Option (DictEntry K V))
  | none => .ok none
  | some ref =>
    match entryAt d ref with
    | none => .error .nullDeref
    | some e => .ok (some e)

variable (type : DictType K) [DecidableEq K] [Inhabited V]

def dictStep (s : DictRun K V) : DictCall K V → Except Fault (DictRun K V)
  | .add key val => (dictAdd type s.dict key val).map fun r => s.next r.2 (.status r.1) [] []
  | .replace key val =>
    (dictReplace type s.dict key val).map fun r => s.next r.2.2 (.code r.1) [] r.2.1.toList
  | .replaceRaw key val =>
    (dictReplaceRaw type s.dict key).bind fun r =>
      match r.1 with
      | none => .error .nullDeref
      | some ref => .ok (s.next (dictSetVal r.2 ref val) .done [] [])
  | .find key =>
    (dictFind type s.dict key).bind fun r =>
      (readEntry r.2 r.1).map fun e => s.next r.2 (.entry e) [] []
  | .fetch key => (dictFetchValue type s.dict key).map fun r => s.next r.2 (.value r.1) [] []
  | .delete key =>
    (dictDelete type s.dict key).map fun r =>
      s.next r.2.2 (.status r.1) (r.2.1.toList.map DictEntry.key) (r.2.1.toList.map DictEntry.val)
  | .deleteNoFree key =>
    (dictDeleteNoFree type s.dict key).map fun r =>
      s.next r.2.2 (.status r.1) (r.2.1.toList.map DictEntry.key) (r.2.1.toList.map DictEntry.val)
  | .resize =>
    let r := dictResize s.dict
    .ok (s.next r.2 (.status r.1) [] [])
  | .expand size =>
    let r := dictExpand s.dict size
    .ok (s.next r.2 (.status r.1) [] [])
  | .rehash n => (dictRehash type s.dict n).map fun r => s.next r.2 (.code r.1) [] []
  | .rehashMs ms clock =>
    (dictRehashMilliseconds type s.dict ms clock).map fun r => s.next r.2 (.code r.1) [] []
  | .empty =>
    (dictEmpty s.dict).map fun r =>
      s.next r.2 .done (r.1.map DictEntry.key) (r.1.map DictEntry.val)

/-! ## Section 2: What the integers of the code hold -/

omit [DecidableEq K] [Inhabited V] in
/-- The tables have fewer than 2^31 buckets, so that an index is an `int`,
    and so is the number of entries. -/
structure Dict.Bounded (d : Dict K V) : Prop where
  ht0 : d.ht0.size < 2 ^ 31
  ht1 : d.ht1.size < 2 ^ 31
  used : dictSize d < 2 ^ 31

/-- The arguments are of their types, and `n*10` in `dictRehash` is an `int`. -/
def DictCall.InRange : DictCall K V → Prop
  | .expand size => size < 2 ^ 64
  | .rehash n => n * 10 < 2 ^ 31
  | .rehashMs ms _ => -2 ^ 31 ≤ ms ∧ ms < 2 ^ 31
  | _ => True

/-- The integers of the code hold what the call works with, the table it may
    make among it. -/
structure DictRun.Fits (s : DictRun K V) (c : DictCall K V) : Prop where
  call : c.InRange
  before : s.dict.Bounded
  after : ∀ s', dictStep type s c = .ok s' → s'.dict.Bounded

omit [DecidableEq K] [Inhabited V] in
instance Dict.decidableBounded (d : Dict K V) : Decidable d.Bounded :=
  decidable_of_iff (d.ht0.size < 2 ^ 31 ∧ d.ht1.size < 2 ^ 31 ∧ dictSize d < 2 ^ 31)
    ⟨fun h => ⟨h.1, h.2.1, h.2.2⟩, fun h => ⟨h.ht0, h.ht1, h.used⟩⟩

omit [DecidableEq K] [Inhabited V] in
instance DictCall.decidableInRange : ∀ c : DictCall K V, Decidable c.InRange
  | .expand size => inferInstanceAs (Decidable (size < 2 ^ 64))
  | .rehash n => inferInstanceAs (Decidable (n * 10 < 2 ^ 31))
  | .rehashMs ms _ => inferInstanceAs (Decidable (-2 ^ 31 ≤ ms ∧ ms < 2 ^ 31))
  | .add _ _ | .replace _ _ | .replaceRaw _ _ | .find _ | .fetch _ | .delete _ | .deleteNoFree _
  | .resize | .empty => isTrue trivial

instance DictRun.decidableFits (s : DictRun K V) (c : DictCall K V) : Decidable (DictRun.Fits type s c) :=
  match hs : dictStep type s c with
  | .ok s' =>
    decidable_of_iff (c.InRange ∧ s.dict.Bounded ∧ s'.dict.Bounded)
      ⟨fun h => ⟨h.1, h.2.1, fun s'' heq => by
          rw [hs] at heq
          cases heq
          exact h.2.2⟩,
        fun h => ⟨h.call, h.before, h.after s' hs⟩⟩
  | .error _ =>
    decidable_of_iff (c.InRange ∧ s.dict.Bounded)
      ⟨fun h => ⟨h.1, h.2, fun s'' heq => by rw [hs] at heq; cases heq⟩,
        fun h => ⟨h.call, h.before⟩⟩

/-! ## Section 3: The finite map -/

/-- The map, the answers it determines, and the keys and values that were
    stored in it or given back to the caller. -/
structure MapRun (K V C : Type) where
  map : C → Option (DictEntry K V)
  answers : List (Option (DictAnswer K V))
  storedKeys : List K
  storedVals : List V
  givenKeys : List K
  givenVals : List V

def MapRun.start : MapRun K V C :=
  { map := fun _ => none, answers := [], storedKeys := [], storedVals := [], givenKeys := [],
    givenVals := [] }

/-- The end of a call: the answer, what it stored and what it gave back. -/
def MapRun.next (s : MapRun K V C) (map : C → Option (DictEntry K V))
    (answer : Option (DictAnswer K V)) (stored given : List K × List V) : MapRun K V C :=
  { map := map, answers := s.answers ++ [answer]
    storedKeys := s.storedKeys ++ stored.1, storedVals := s.storedVals ++ stored.2
    givenKeys := s.givenKeys ++ given.1, givenVals := s.givenVals ++ given.2 }

variable (kc : K → C) [DecidableEq C]

omit [DecidableEq K] [Inhabited V] in
/-- The call on the map.  An answer `none` is one the map does not
    determine: the status of a maintenance call. -/
def mapStep (s : MapRun K V C) : DictCall K V → MapRun K V C
  | .add key val =>
    match s.map (kc key) with
    | some _ => s.next s.map (some (.status .err)) ([], []) ([], [])
    | none =>
      s.next (Function.update s.map (kc key) (some ⟨key, val⟩)) (some (.status .ok))
        ([key], [val]) ([], [])
  | .replace key val =>
    match s.map (kc key) with
    | some e =>
      -- the entry keeps its key; the caller keeps the one it passed
      s.next (Function.update s.map (kc key) (some { e with val := val })) (some (.code 0))
        ([], [val]) ([], [])
    | none =>
      s.next (Function.update s.map (kc key) (some ⟨key, val⟩)) (some (.code 1))
        ([key], [val]) ([], [])
  | .replaceRaw key val =>
    match s.map (kc key) with
    | some e =>
      -- the caller overwrites the old value, which nothing frees
      s.next (Function.update s.map (kc key) (some { e with val := val })) (some .done)
        ([], [val]) ([], [e.val])
    | none =>
      s.next (Function.update s.map (kc key) (some ⟨key, val⟩)) (some .done)
        ([key], [val]) ([], [])
  | .find key => s.next s.map (some (.entry (s.map (kc key)))) ([], []) ([], [])
  | .fetch key =>
    s.next s.map (some (.value ((s.map (kc key)).map DictEntry.val))) ([], []) ([], [])
  | .delete key =>
    match s.map (kc key) with
    | some _ => s.next (Function.update s.map (kc key) none) (some (.status .ok)) ([], []) ([], [])
    | none => s.next s.map (some (.status .err)) ([], []) ([], [])
  | .deleteNoFree key =>
    match s.map (kc key) with
    | some e =>
      s.next (Function.update s.map (kc key) none) (some (.status .ok)) ([], []) ([e.key], [e.val])
    | none => s.next s.map (some (.status .err)) ([], []) ([], [])
  | .resize | .expand _ | .rehash _ | .rehashMs _ _ => s.next s.map none ([], []) ([], [])
  | .empty => s.next (fun _ => none) (some .done) ([], []) ([], [])

/-! ## Section 4: Entries and maps -/

/-- The entries are those of the map, under the content of their keys. -/
def Represents (kc : K → C) (es : List (DictEntry K V)) (m : C → Option (DictEntry K V)) : Prop :=
  ∀ c e, m c = some e ↔ e ∈ es ∧ kc e.key = c

section represents

omit [DecidableEq K] [Inhabited V]

variable {kc : K → C} {es es' rest : List (DictEntry K V)} {m : C → Option (DictEntry K V)}
  {e : DictEntry K V} {key : K} {val : V}

omit [DecidableEq C] in
theorem Represents.perm (h : Represents kc es m) (hp : es'.Perm es) : Represents kc es' m := by
  intro c e
  rw [h c e, hp.mem_iff]

omit [DecidableEq C] in
theorem Represents.present (h : Represents kc es m) (he : e ∈ es) (hkey : kc e.key = kc key) :
    m (kc key) = some e := (h _ e).mpr ⟨he, hkey⟩

omit [DecidableEq C] in
theorem Represents.absent (h : Represents kc es m) (hno : ∀ e ∈ es, kc e.key ≠ kc key) :
    m (kc key) = none := by
  rcases hm : m (kc key) with _ | e
  · rfl
  · obtain ⟨he, hkey⟩ := (h _ e).mp hm
    exact absurd hkey (hno e he)

theorem Represents.insert (h : Represents kc es m) (hno : ∀ e ∈ es, kc e.key ≠ kc key)
    (hp : es'.Perm (⟨key, val⟩ :: es)) :
    Represents kc es' (Function.update m (kc key) (some ⟨key, val⟩)) := by
  intro c f
  rw [hp.mem_iff, List.mem_cons]
  rcases eq_or_ne c (kc key) with rfl | hne
  · rw [Function.update_self, Option.some.injEq]
    constructor
    · rintro rfl
      exact ⟨Or.inl rfl, rfl⟩
    · rintro ⟨rfl | hf, hkey⟩
      · rfl
      · exact absurd hkey (hno f hf)
  · rw [Function.update_of_ne hne, h c f]
    constructor
    · rintro ⟨hf, hkey⟩
      exact ⟨Or.inr hf, hkey⟩
    · rintro ⟨rfl | hf, hkey⟩
      · exact absurd hkey.symm hne
      · exact ⟨hf, hkey⟩

theorem Represents.erase (h : Represents kc es m) (hnd : (es.map fun e => kc e.key).Nodup)
    (hp : es.Perm (e :: rest)) : Represents kc rest (Function.update m (kc e.key) none) := by
  have hnotin : ∀ f ∈ rest, kc f.key ≠ kc e.key := by
    have := (hp.map fun e => kc e.key).nodup_iff.mp hnd
    rw [List.map_cons, List.nodup_cons] at this
    exact fun f hf hkey => this.1 (List.mem_map.mpr ⟨f, hf, hkey⟩)
  intro c f
  rcases eq_or_ne c (kc e.key) with rfl | hne
  · rw [Function.update_self]
    refine ⟨fun hf => by simp at hf, fun ⟨hf, hkey⟩ => absurd hkey (hnotin f hf)⟩
  · rw [Function.update_of_ne hne, h c f, hp.mem_iff, List.mem_cons]
    constructor
    · rintro ⟨rfl | hf, hkey⟩
      · exact absurd hkey.symm hne
      · exact ⟨hf, hkey⟩
    · rintro ⟨hf, hkey⟩
      exact ⟨Or.inr hf, hkey⟩

/-- An update is a removal and an insertion. -/
theorem Represents.update (h : Represents kc es m) (hnd : (es.map fun e => kc e.key).Nodup)
    (hp : es.Perm (e :: rest)) (hp' : es'.Perm ({ e with val := val } :: rest)) :
    Represents kc es' (Function.update m (kc e.key) (some { e with val := val })) := by
  have hnotin : ∀ f ∈ rest, kc f.key ≠ kc e.key := by
    have := (hp.map fun e => kc e.key).nodup_iff.mp hnd
    rw [List.map_cons, List.nodup_cons] at this
    exact fun f hf hkey => this.1 (List.mem_map.mpr ⟨f, hf, hkey⟩)
  have := (h.erase hnd hp).insert hnotin hp'
  rwa [Function.update_idem] at this

end represents

/-! ## Section 5: One call -/

/-- A new dict, or one with a table. -/
def Dict.Ready (type : DictType K) (kc : K → C) (d : Dict K V) : Prop :=
  d = dictCreate ∨ d.Wf type kc

/-- Where the map determines the answer, it is given. -/
def Answered (a : DictAnswer K V) (expected : Option (DictAnswer K V)) : Prop :=
  ∀ b, expected = some b → a = b

/-- The run of calls and the run of the map that it follows. -/
structure DictRun.Follows (type : DictType K) (kc : K → C) (s : DictRun K V) (a : MapRun K V C) : Prop where
  ready : s.dict.Ready type kc
  map : Represents kc s.dict.entries a.map
  answers : List.Forall₂ Answered s.answers a.answers
  keys : (a.storedKeys : Multiset K) =
    ↑s.freedKeys + ↑a.givenKeys + ↑(s.dict.entries.map DictEntry.key)
  vals : (a.storedVals : Multiset V) =
    ↑s.freedVals + ↑a.givenVals + ↑(s.dict.entries.map DictEntry.val)

section effects

omit [DecidableEq K] [Inhabited V] [DecidableEq C]

variable {type} {kc}

theorem DictRun.Follows.distinct {s : DictRun K V} {a : MapRun K V C} (h : DictRun.Follows type kc s a) :
    (s.dict.entries.map fun e => kc e.key).Nodup := by
  rcases h.ready with hnew | hwf
  · rw [hnew]
    simp [Dict.entries, dictCreate]
  · exact hwf.distinct

theorem follows_start : DictRun.Follows type kc (DictRun.start : DictRun K V) MapRun.start := by
  refine ⟨Or.inl rfl, fun c e => ?_, List.Forall₂.nil, ?_, ?_⟩
  · simp [MapRun.start, DictRun.start, Dict.entries, dictCreate]
  · simp [MapRun.start, DictRun.start, Dict.entries, dictCreate]
  · simp [MapRun.start, DictRun.start, Dict.entries, dictCreate]

/-- What a call must balance: the entries after it, what it freed and what
    it gave back are the entries before it and what it stored. -/
theorem DictRun.Follows.next {s : DictRun K V} {a : MapRun K V C} (h : DictRun.Follows type kc s a)
    {d : Dict K V} {m : C → Option (DictEntry K V)} {ans : DictAnswer K V}
    {o : Option (DictAnswer K V)} {stored given : List K × List V} {fk : List K} {fv : List V}
    (hd : d.Ready type kc) (hm : Represents kc d.entries m) (ho : Answered ans o)
    (hk : (fk : Multiset K) + ↑given.1 + ↑(d.entries.map DictEntry.key) =
      ↑stored.1 + ↑(s.dict.entries.map DictEntry.key))
    (hv : (fv : Multiset V) + ↑given.2 + ↑(d.entries.map DictEntry.val) =
      ↑stored.2 + ↑(s.dict.entries.map DictEntry.val)) :
    DictRun.Follows type kc (s.next d ans fk fv) (a.next m o stored given) := by
  refine ⟨hd, hm, List.rel_append h.answers (List.Forall₂.cons ho List.Forall₂.nil), ?_, ?_⟩
  · simp only [DictRun.next, MapRun.next, ← Multiset.coe_add, h.keys]
    calc (s.freedKeys : Multiset K) + ↑a.givenKeys + ↑(s.dict.entries.map DictEntry.key) + ↑stored.1
        = ↑s.freedKeys + ↑a.givenKeys + (↑stored.1 + ↑(s.dict.entries.map DictEntry.key)) := by abel
      _ = ↑s.freedKeys + ↑fk + (↑a.givenKeys + ↑given.1) + ↑(d.entries.map DictEntry.key) := by
        rw [← hk]; abel
  · simp only [DictRun.next, MapRun.next, ← Multiset.coe_add, h.vals]
    calc (s.freedVals : Multiset V) + ↑a.givenVals + ↑(s.dict.entries.map DictEntry.val) + ↑stored.2
        = ↑s.freedVals + ↑a.givenVals + (↑stored.2 + ↑(s.dict.entries.map DictEntry.val)) := by abel
      _ = ↑s.freedVals + ↑fv + (↑a.givenVals + ↑given.2) + ↑(d.entries.map DictEntry.val) := by
        rw [← hv]; abel

end effects

/-! ## Section 6: A dict without a table -/

section ready

variable {type} {kc}

omit [DecidableEq K] [Inhabited V] [DecidableEq C] in
/-- The first table, which the first insertion creates. -/
def firstTable : Dict K V := (dictExpand dictCreate dictHtInitialSize).2

omit [DecidableEq K] [Inhabited V] [DecidableEq C] in
theorem firstTable_wf (type : DictType K) (kc : K → C) :
    (firstTable : Dict K V).Wf type kc ∧ (firstTable : Dict K V).entries = [] :=
  dictExpand_dictCreate_wf _

omit [DecidableEq C] in
theorem dictAddRaw_dictCreate (key : K) :
    dictAddRaw type (dictCreate : Dict K V) key = dictAddRaw type firstTable key := by
  have hkey : dictKeyIndex type (dictCreate : Dict K V) key = dictKeyIndex type firstTable key := by
    have h : dictExpandIfNeeded (dictCreate : Dict K V) = (.ok, firstTable) := rfl
    have h' : dictExpandIfNeeded (firstTable : Dict K V) = (.ok, firstTable) := rfl
    rw [dictKeyIndex, dictKeyIndex, h, h']
  have hstep : dictRehashStep type (dictCreate : Dict K V) = .ok dictCreate := rfl
  have hstep' : dictRehashStep type (firstTable : Dict K V) = .ok firstTable := rfl
  simp only [dictAddRaw, hstep, hstep', Except.bind, hkey]

omit [Inhabited V] in
theorem dictFind_dictCreate (key : K) :
    dictFind type (dictCreate : Dict K V) key = .ok (none, dictCreate) := rfl

variable {d : Dict K V}

omit [DecidableEq C] in
/-- `dictAdd` on any dict. -/
theorem dictAdd_ready (hr : type.Reads kc) (h : d.Ready type kc) (key : K) (val : V) :
    ∃ r d', dictAdd type d key val = .ok (r, d') ∧ d'.Wf type kc ∧
      match r with
      | .err => (∃ e ∈ d.entries, kc e.key = kc key) ∧ d'.entries.Perm d.entries
      | .ok => (∀ e ∈ d.entries, kc e.key ≠ kc key) ∧
          d'.entries.Perm (⟨key, val⟩ :: d.entries) := by
  rcases h with rfl | hwf
  · have hsame : dictAdd type (dictCreate : Dict K V) key val = dictAdd type firstTable key val := by
      rw [dictAdd, dictAddRaw_dictCreate, ← dictAdd]
    have hent : (dictCreate : Dict K V).entries = (firstTable : Dict K V).entries :=
      (firstTable_wf type kc).2.symm
    rw [hsame, hent]
    exact dictAdd_spec hr (firstTable_wf type kc).1 key val
  · exact dictAdd_spec hr hwf key val

omit [Inhabited V] [DecidableEq C] in
theorem dictFind_ready (hr : type.Reads kc) (h : d.Ready type kc) (key : K) :
    ∃ r d', dictFind type d key = .ok (r, d') ∧ d'.Ready type kc ∧ d'.entries.Perm d.entries ∧
      match r with
      | none => ∀ e ∈ d.entries, kc e.key ≠ kc key
      | some ref => ∃ e, entryAt d' ref = some e ∧ e ∈ d.entries ∧ kc e.key = kc key := by
  rcases h with rfl | hwf
  · refine ⟨none, dictCreate, rfl, Or.inl rfl, List.Perm.refl _, fun e he => ?_⟩
    simp [Dict.entries, dictCreate] at he
  · obtain ⟨r, d', heq, hwf', hperm, hr'⟩ := dictFind_spec hr hwf key
    exact ⟨r, d', heq, Or.inr hwf', hperm, hr'⟩

end ready

/-! ## Section 7: One call follows the map -/

section balance

omit [DecidableEq K] [Inhabited V] [DecidableEq C]

variable {X : Type} {es es' rest : List (DictEntry K V)} {e e' : DictEntry K V}

/-- What is counted of the entries: their keys, or their values. -/
theorem balance_kept (f : DictEntry K V → X) (hp : es'.Perm es) :
    (([] : List X) : Multiset X) + ↑([] : List X) + ↑(es'.map f) = ↑([] : List X) + ↑(es.map f) := by
  rw [Multiset.coe_eq_coe.mpr (hp.map f)]
  simp

theorem balance_stored (f : DictEntry K V → X) (hp : es'.Perm (e :: es)) :
    (([] : List X) : Multiset X) + ↑([] : List X) + ↑(es'.map f) = ↑[f e] + ↑(es.map f) := by
  rw [Multiset.coe_eq_coe.mpr (hp.map f), List.map_cons, ← Multiset.cons_coe, ← Multiset.singleton_add]
  simp

theorem balance_freed (f : DictEntry K V → X) (hp : es.Perm (e :: es')) :
    ([f e] : Multiset X) + ↑([] : List X) + ↑(es'.map f) = ↑([] : List X) + ↑(es.map f) := by
  rw [Multiset.coe_eq_coe.mpr (hp.map f), List.map_cons, ← Multiset.cons_coe, ← Multiset.singleton_add]
  simp

/-- An overwritten value leaves as the new one comes. -/
theorem balance_updated (f : DictEntry K V → X) (hp : es.Perm (e :: rest))
    (hp' : es'.Perm (e' :: rest)) :
    ([f e] : Multiset X) + ↑([] : List X) + ↑(es'.map f) = ↑[f e'] + ↑(es.map f) := by
  rw [Multiset.coe_eq_coe.mpr (hp.map f), Multiset.coe_eq_coe.mpr (hp'.map f)]
  simp only [List.map_cons, ← Multiset.cons_coe, ← Multiset.singleton_add, Multiset.coe_nil, add_zero]
  abel

theorem balance_same (f : DictEntry K V → X) (hp : es.Perm (e :: rest))
    (hp' : es'.Perm (e' :: rest)) (hf : f e' = f e) :
    (([] : List X) : Multiset X) + ↑([] : List X) + ↑(es'.map f) = ↑([] : List X) + ↑(es.map f) := by
  rw [Multiset.coe_eq_coe.mpr (hp.map f), Multiset.coe_eq_coe.mpr (hp'.map f), List.map_cons,
    List.map_cons, hf]
  simp

/-- What is given back instead of freed balances the same way. -/
theorem balance_given {fs gs es' : List X} {t : Multiset X}
    (h : (fs : Multiset X) + ↑gs + ↑es' = t) : (gs : Multiset X) + ↑fs + ↑es' = t := by
  rw [← h]
  abel

end balance

variable {type} {kc}

omit [DecidableEq K] [Inhabited V] [DecidableEq C] in
/-- A call keeps the entries, and its answer is the one of the map. -/
theorem DictRun.Follows.kept {s : DictRun K V} {a : MapRun K V C} (h : DictRun.Follows type kc s a)
    {d : Dict K V} {ans : DictAnswer K V} {o : Option (DictAnswer K V)} (hd : d.Ready type kc)
    (hp : d.entries.Perm s.dict.entries) (ho : Answered ans o) :
    DictRun.Follows type kc (s.next d ans [] []) (a.next a.map o ([], []) ([], [])) :=
  h.next hd (h.map.perm hp) ho (balance_kept _ hp) (balance_kept _ hp)

omit [DecidableEq K] [Inhabited V] in
theorem DictRun.Follows.stored {s : DictRun K V} {a : MapRun K V C}
    (h : DictRun.Follows type kc s a) {d : Dict K V} {ans : DictAnswer K V} {key : K} {val : V}
    (hd : d.Ready type kc) (hno : ∀ e ∈ s.dict.entries, kc e.key ≠ kc key)
    (hp : d.entries.Perm (⟨key, val⟩ :: s.dict.entries)) :
    DictRun.Follows type kc (s.next d ans [] [])
      (a.next (Function.update a.map (kc key) (some ⟨key, val⟩)) (some ans) ([key], [val]) ([], [])) :=
  h.next hd (h.map.insert hno hp) (fun _ hb => Option.some.inj hb) (balance_stored _ hp)
    (balance_stored _ hp)

/-- The call follows the map, and it does not fault. -/
def StepFollows (type : DictType K) (kc : K → C) (s : DictRun K V) (a : MapRun K V C)
    (c : DictCall K V) : Prop :=
  ∃ s', dictStep type s c = .ok s' ∧ DictRun.Follows type kc s' (mapStep kc a c)

variable {s : DictRun K V} {a : MapRun K V C}

theorem follows_add (hr : type.Reads kc) (h : DictRun.Follows type kc s a) (key : K) (val : V) :
    StepFollows type kc s a (.add key val) := by
  obtain ⟨r, d, heq, hwf, hr'⟩ := dictAdd_ready hr h.ready key val
  refine ⟨s.next d (.status r) [] [], by rw [dictStep, heq]; rfl, ?_⟩
  rcases r with _ | _
  · obtain ⟨hno, hp⟩ := hr'
    rw [mapStep, h.map.absent hno]
    exact h.stored (Or.inr hwf) hno hp
  · obtain ⟨⟨e, he, hkey⟩, hp⟩ := hr'
    rw [mapStep, h.map.present he hkey]
    exact h.kept (Or.inr hwf) hp (fun _ hb => Option.some.inj hb)

theorem follows_find (hr : type.Reads kc) (h : DictRun.Follows type kc s a) (key : K) :
    StepFollows type kc s a (.find key) := by
  obtain ⟨r, d, heq, hd, hp, hr'⟩ := dictFind_ready hr h.ready key
  rcases r with _ | ref
  · refine ⟨s.next d (.entry none) [] [], by rw [dictStep, heq]; rfl, ?_⟩
    rw [mapStep, h.map.absent hr']
    exact h.kept hd hp (fun _ hb => Option.some.inj hb)
  · obtain ⟨e, hat, he, hkey⟩ := hr'
    refine ⟨s.next d (.entry (some e)) [] [], ?_, ?_⟩
    · rw [dictStep, heq]
      simp [Except.bind, readEntry, hat, Except.map]
    · rw [mapStep, h.map.present he hkey]
      exact h.kept hd hp (fun _ hb => Option.some.inj hb)

theorem follows_fetch (hr : type.Reads kc) (h : DictRun.Follows type kc s a) (key : K) :
    StepFollows type kc s a (.fetch key) := by
  obtain ⟨r, d, heq, hd, hp, hr'⟩ := dictFind_ready hr h.ready key
  rcases r with _ | ref
  · refine ⟨s.next d (.value none) [] [], ?_, ?_⟩
    · rw [dictStep, dictFetchValue, heq]
      rfl
    · rw [mapStep, h.map.absent hr']
      exact h.kept hd hp (fun _ hb => Option.some.inj hb)
  · obtain ⟨e, hat, he, hkey⟩ := hr'
    refine ⟨s.next d (.value (some e.val)) [] [], ?_, ?_⟩
    · rw [dictStep, dictFetchValue, heq]
      simp [Except.bind, hat, Except.map]
    · rw [mapStep, h.map.present he hkey]
      exact h.kept hd hp (fun _ hb => Option.some.inj hb)

theorem follows_replace (hr : type.Reads kc) (h : DictRun.Follows type kc s a) (key : K) (val : V) :
    StepFollows type kc s a (.replace key val) := by
  obtain ⟨r, d₁, hadd, hwf₁, hr'⟩ := dictAdd_ready hr h.ready key val
  rcases r with _ | _
  · obtain ⟨hno, hp⟩ := hr'
    refine ⟨s.next d₁ (.code 1) [] [], ?_, ?_⟩
    · rw [dictStep, dictReplace, hadd]
      rfl
    · rw [mapStep, h.map.absent hno]
      exact h.stored (Or.inr hwf₁) hno hp
  · -- the key is present: only a dict with a table has one
    obtain ⟨⟨e, he, hkey⟩, -⟩ := hr'
    have hwf : s.dict.Wf type kc := by
      rcases h.ready with hnew | hwf
      · rw [hnew] at he
        simp [Dict.entries, dictCreate] at he
      · exact hwf
    obtain ⟨d, rest, heq, hwf', hp, hp'⟩ := dictReplace_spec hr hwf key val he hkey
    refine ⟨s.next d (.code 0) [] [e.val], ?_, ?_⟩
    · rw [dictStep, heq]
      rfl
    · rw [mapStep, h.map.present he hkey, ← hkey]
      refine h.next (Or.inr hwf') (h.map.update h.distinct hp hp')
        (fun _ hb => Option.some.inj hb) ?_ (balance_updated DictEntry.val hp hp')
      exact balance_same DictEntry.key hp hp' rfl

theorem follows_replaceRaw (hr : type.Reads kc) (h : DictRun.Follows type kc s a) (key : K)
    (val : V) : StepFollows type kc s a (.replaceRaw key val) := by
  obtain ⟨ref, d₁, heq, hwf₁, hcase⟩ : ∃ ref d', dictReplaceRaw type s.dict key = .ok (some ref, d') ∧
      d'.Wf type kc ∧
      ((∃ e, entryAt d' ref = some e ∧ e ∈ s.dict.entries ∧ kc e.key = kc key ∧
          d'.entries.Perm s.dict.entries) ∨
        ((∀ e ∈ s.dict.entries, kc e.key ≠ kc key) ∧ entryAt d' ref = some ⟨key, default⟩ ∧
          d'.entries.Perm (⟨key, default⟩ :: s.dict.entries))) := by
    rcases h.ready with hnew | hwf
    · obtain ⟨r, d', hadd, hwf', hr'⟩ := dictAddRaw_spec (V := V) hr (firstTable_wf type kc).1 key
      rw [(firstTable_wf type kc).2] at hr'
      rcases r with _ | ref
      · obtain ⟨⟨e, he, -⟩, -⟩ := hr'
        simp at he
      · obtain ⟨-, hat, hp⟩ := hr'
        rw [hnew]
        refine ⟨ref, d', ?_, hwf', Or.inr ⟨fun e he => ?_, hat, hp⟩⟩
        · rw [dictReplaceRaw, dictFind_dictCreate]
          simp only [Except.bind]
          rw [dictAddRaw_dictCreate, hadd]
        · simp [Dict.entries, dictCreate] at he
    · exact dictReplaceRaw_spec hr hwf key
  rcases hcase with ⟨e, hat, he, hkey, hp⟩ | ⟨hno, hat, hp⟩
  · obtain ⟨hwf', rest, hold, hnew⟩ := dictSetVal_spec hwf₁ hat val
    have hold' := hp.symm.trans hold
    refine ⟨s.next (dictSetVal d₁ ref val) .done [] [], ?_, ?_⟩
    · rw [dictStep, heq]
      rfl
    · rw [mapStep, h.map.present he hkey, ← hkey]
      exact h.next (Or.inr hwf') (h.map.update h.distinct hold' hnew)
        (fun _ hb => Option.some.inj hb) (balance_same DictEntry.key hold' hnew rfl)
        (balance_given (balance_updated DictEntry.val hold' hnew))
  · obtain ⟨hwf', rest, hold, hnew⟩ := dictSetVal_spec hwf₁ hat val
    have hrest : rest.Perm s.dict.entries := List.Perm.cons_inv (hold.symm.trans hp)
    refine ⟨s.next (dictSetVal d₁ ref val) .done [] [], ?_, ?_⟩
    · rw [dictStep, heq]
      rfl
    · rw [mapStep, h.map.absent hno]
      exact h.stored (Or.inr hwf') hno (hnew.trans (hrest.cons _))

omit [Inhabited V] [DecidableEq C] in
/-- Removal from any dict. -/
theorem dictGenericDelete_ready (hr : type.Reads kc) {d : Dict K V} (h : d.Ready type kc) (key : K)
    (nofree : Bool) :
    ∃ r freed d', dictGenericDelete type d key nofree = .ok (r, freed, d') ∧ d'.Ready type kc ∧
      match r with
      | .err => freed = none ∧ (∀ e ∈ d.entries, kc e.key ≠ kc key) ∧ d'.entries.Perm d.entries
      | .ok => ∃ e, kc e.key = kc key ∧ freed = (if nofree then none else some e) ∧
          d.entries.Perm (e :: d'.entries) := by
  rcases h with rfl | hwf
  · refine ⟨.err, none, dictCreate, rfl, Or.inl rfl, rfl, fun e he => ?_, List.Perm.refl _⟩
    simp [Dict.entries, dictCreate] at he
  · obtain ⟨r, freed, d', heq, hwf', hr'⟩ := dictGenericDelete_spec hr hwf key nofree
    exact ⟨r, freed, d', heq, Or.inr hwf', hr'⟩

theorem follows_delete (hr : type.Reads kc) (h : DictRun.Follows type kc s a) (key : K) :
    StepFollows type kc s a (.delete key) := by
  obtain ⟨r, freed, d, heq, hd, hr'⟩ := dictGenericDelete_ready hr h.ready key false
  refine ⟨s.next d (.status r) (freed.toList.map DictEntry.key) (freed.toList.map DictEntry.val),
    by rw [dictStep, dictDelete, heq]; rfl, ?_⟩
  rcases r with _ | _
  · obtain ⟨e, hkey, rfl, hp⟩ := hr'
    have he : e ∈ s.dict.entries := hp.mem_iff.mpr List.mem_cons_self
    rw [mapStep, h.map.present he hkey, ← hkey]
    exact h.next hd (h.map.erase h.distinct hp) (fun _ hb => Option.some.inj hb)
      (balance_freed _ hp) (balance_freed _ hp)
  · obtain ⟨rfl, hno, hp⟩ := hr'
    rw [mapStep, h.map.absent hno]
    exact h.kept hd hp (fun _ hb => Option.some.inj hb)

theorem follows_deleteNoFree (hr : type.Reads kc) (h : DictRun.Follows type kc s a) (key : K) :
    StepFollows type kc s a (.deleteNoFree key) := by
  obtain ⟨r, freed, d, heq, hd, hr'⟩ := dictGenericDelete_ready hr h.ready key true
  refine ⟨s.next d (.status r) (freed.toList.map DictEntry.key) (freed.toList.map DictEntry.val),
    by rw [dictStep, dictDeleteNoFree, heq]; rfl, ?_⟩
  rcases r with _ | _
  · obtain ⟨e, hkey, rfl, hp⟩ := hr'
    have he : e ∈ s.dict.entries := hp.mem_iff.mpr List.mem_cons_self
    rw [mapStep, h.map.present he hkey, ← hkey]
    exact h.next hd (h.map.erase h.distinct hp) (fun _ hb => Option.some.inj hb)
      (balance_given (balance_freed DictEntry.key hp)) (balance_given (balance_freed DictEntry.val hp))
  · obtain ⟨rfl, hno, hp⟩ := hr'
    rw [mapStep, h.map.absent hno]
    exact h.kept hd hp (fun _ hb => Option.some.inj hb)

omit [DecidableEq K] [Inhabited V] [DecidableEq C] in
/-- The maintenance calls keep the entries. -/
theorem follows_maintenance (h : DictRun.Follows type kc s a) {d : Dict K V}
    {ans : DictAnswer K V} (hd : d.Ready type kc) (hp : d.entries.Perm s.dict.entries) :
    DictRun.Follows type kc (s.next d ans [] []) (a.next a.map none ([], []) ([], [])) :=
  h.kept hd hp (fun _ hb => by simp at hb)

omit [DecidableEq K] [Inhabited V] [DecidableEq C] in
theorem dictExpand_ready {d : Dict K V} (h : d.Ready type kc) (size : Nat) :
    (dictExpand d size).2.Ready type kc ∧ (dictExpand d size).2.entries = d.entries := by
  rcases h with rfl | hwf
  · have hfirst : (dictExpand (dictCreate : Dict K V) size).2.Wf type kc ∧
        (dictExpand (dictCreate : Dict K V) size).2.entries = [] := dictExpand_dictCreate_wf size
    exact ⟨Or.inr hfirst.1, hfirst.2⟩
  · obtain ⟨r, d', heq, hwf', hent⟩ := dictExpand_spec hwf size
    rw [heq]
    exact ⟨Or.inr hwf', hent⟩

omit [DecidableEq K] [Inhabited V] [DecidableEq C] in
theorem dictResize_ready {d : Dict K V} (h : d.Ready type kc) :
    (dictResize d).2.Ready type kc ∧ (dictResize d).2.entries = d.entries := by
  unfold dictResize
  split
  · exact ⟨h, rfl⟩
  · exact dictExpand_ready h _

theorem follows_resize (h : DictRun.Follows type kc s a) : StepFollows type kc s a .resize := by
  obtain ⟨hd, hent⟩ := dictResize_ready h.ready
  exact ⟨_, rfl, follows_maintenance h hd (hent ▸ List.Perm.refl _)⟩

theorem follows_expand (h : DictRun.Follows type kc s a) (size : Nat) :
    StepFollows type kc s a (.expand size) := by
  obtain ⟨hd, hent⟩ := dictExpand_ready h.ready size
  exact ⟨_, rfl, follows_maintenance h hd (hent ▸ List.Perm.refl _)⟩

theorem follows_rehash (h : DictRun.Follows type kc s a) (n : Nat) :
    StepFollows type kc s a (.rehash n) := by
  rcases h.ready with hnew | hwf
  · refine ⟨s.next s.dict (.code 0) [] [], ?_, follows_maintenance h h.ready (List.Perm.refl _)⟩
    rw [dictStep, hnew]
    rfl
  · obtain ⟨r, d, heq, hwf', hp⟩ := dictRehash_spec hwf n
    exact ⟨s.next d (.code r) [] [], by rw [dictStep, heq]; rfl,
      follows_maintenance h (Or.inr hwf') hp⟩

theorem follows_rehashMs (h : DictRun.Follows type kc s a) (ms : Int) (clock : Nat → Int) :
    StepFollows type kc s a (.rehashMs ms clock) := by
  rcases h.ready with hnew | hwf
  · refine ⟨s.next s.dict (.code 0) [] [], ?_, follows_maintenance h h.ready (List.Perm.refl _)⟩
    rw [dictStep, hnew]
    rfl
  · obtain ⟨r, d, heq, hwf', hp, -⟩ := dictRehashMilliseconds_spec hwf ms clock
    exact ⟨s.next d (.code r) [] [], by rw [dictStep, heq]; rfl,
      follows_maintenance h (Or.inr hwf') hp⟩

omit [DecidableEq K] [Inhabited V] [DecidableEq C] in
theorem dictEmpty_ready {d : Dict K V} (h : d.Ready type kc) :
    dictEmpty d = .ok (d.entries, dictCreate) ∧ dictRelease d = .ok d.entries := by
  rcases h with rfl | hwf
  · exact ⟨rfl, rfl⟩
  · exact dictEmpty_spec hwf

theorem follows_empty (h : DictRun.Follows type kc s a) : StepFollows type kc s a .empty := by
  refine ⟨s.next dictCreate .done (s.dict.entries.map DictEntry.key)
    (s.dict.entries.map DictEntry.val), by rw [dictStep, (dictEmpty_ready h.ready).1]; rfl, ?_⟩
  refine h.next (Or.inl rfl) (fun c e => ?_) (fun _ hb => Option.some.inj hb) ?_ ?_
  · simp [Dict.entries, dictCreate]
  · simp [Dict.entries, dictCreate]
  · simp [Dict.entries, dictCreate]

theorem step_follows (hr : type.Reads kc) (h : DictRun.Follows type kc s a) (c : DictCall K V) :
    StepFollows type kc s a c := by
  cases c with
  | add key val => exact follows_add hr h key val
  | replace key val => exact follows_replace hr h key val
  | replaceRaw key val => exact follows_replaceRaw hr h key val
  | find key => exact follows_find hr h key
  | fetch key => exact follows_fetch hr h key
  | delete key => exact follows_delete hr h key
  | deleteNoFree key => exact follows_deleteNoFree hr h key
  | resize => exact follows_resize h
  | expand size => exact follows_expand h size
  | rehash n => exact follows_rehash h n
  | rehashMs ms clock => exact follows_rehashMs h ms clock
  | empty => exact follows_empty h

/-! ## Section 8: Any sequence of calls -/

theorem run_follows (hr : type.Reads kc) (calls : List (DictCall K V)) :
    ∃ s, Machine.run (dictStep type) DictRun.start calls = .ok s ∧
      DictRun.Follows type kc s (calls.foldl (mapStep kc) MapRun.start) :=
  Machine.run_refines (R := DictRun.Follows type kc) (fun _ _ c h => step_follows hr h c) follows_start

omit [DecidableEq C] in
/-- Where the calls fit, the tables stay below 2^31 buckets. -/
theorem run_bounded {calls : List (DictCall K V)}
    (hfit : Machine.Along (dictStep type) (DictRun.Fits type) DictRun.start calls) {s : DictRun K V}
    (hrun : Machine.run (dictStep type) DictRun.start calls = .ok s) : s.dict.Bounded :=
  Machine.along_invariant (I := fun s => s.dict.Bounded) (fun _ _ s' _ hP heq => hP.after s' heq)
    ⟨Nat.two_pow_pos 31, Nat.two_pow_pos 31, Nat.two_pow_pos 31⟩ hfit hrun

theorem run_follows_bounded (hr : type.Reads kc) {calls : List (DictCall K V)}
    (hfit : Machine.Along (dictStep type) (DictRun.Fits type) DictRun.start calls) :
    ∃ s, Machine.run (dictStep type) DictRun.start calls = .ok s ∧
      DictRun.Follows type kc s (calls.foldl (mapStep kc) MapRun.start) ∧ s.dict.Bounded := by
  obtain ⟨s, hrun, h⟩ := run_follows hr calls
  exact ⟨s, hrun, h, run_bounded hfit hrun⟩

omit [DecidableEq K] [Inhabited V] [DecidableEq C] in
/-- An index into a table is an `int`. -/
theorem Dict.Bounded.index_lt {d : Dict K V} (hb : d.Bounded) (h : d.Ready type kc) (key : K) :
    dictIndex type d.ht0 key < 2 ^ 31 ∧ dictIndex type d.ht1 key < 2 ^ 31 := by
  have hmask : ∀ ht : Dictht K V, ht.size < 2 ^ 31 → ht.sizemask = ht.size - 1 →
      dictIndex type ht key < 2 ^ 31 := by
    intro ht hsize hm
    have hle : dictIndex type ht key ≤ ht.sizemask := Nat.and_le_right
    omega
  have hreset : (dictReset : Dictht K V).sizemask = (dictReset : Dictht K V).size - 1 := rfl
  rcases h with rfl | hwf
  · exact ⟨hmask _ hb.ht0 hreset, hmask _ hb.ht1 hreset⟩
  · refine ⟨hmask _ hb.ht0 hwf.ht0.mask, hmask _ hb.ht1 ?_⟩
    by_cases hre : dictIsRehashing d
    · exact (hwf.ht1_wf hre).mask
    · rw [hwf.idle (Dict.Wf.idle_none hre)]
      exact hreset

omit [DecidableEq K] [Inhabited V] [DecidableEq C] in
/-- The number of entries is the one the counters give. -/
theorem dictSize_eq {d : Dict K V} (h : d.Ready type kc) : dictSize d = d.entries.length := by
  rcases h with rfl | hwf
  · rfl
  · rw [dictSize, Dict.entries, List.length_append, hwf.ht0.used]
    by_cases hre : dictIsRehashing d
    · rw [(hwf.ht1_wf hre).used]
    · rw [hwf.idle (Dict.Wf.idle_none hre)]
      rfl

omit [DecidableEq K] [Inhabited V] in
theorem Represents.domain {es : List (DictEntry K V)} {m : C → Option (DictEntry K V)}
    (h : Represents kc es m) (hnd : (es.map fun e => kc e.key).Nodup) :
    {c | (m c).isSome}.ncard = es.length := by
  have hset : {c | (m c).isSome} = ((es.map fun e => kc e.key).toFinset : Set C) := by
    ext c
    rw [Set.mem_ofPred_eq, Option.isSome_iff_exists, Finset.mem_coe, List.mem_toFinset, List.mem_map]
    exact exists_congr fun e => h c e
  rw [hset, Set.ncard_coe_finset, List.toFinset_card_of_nodup hnd, List.length_map]

/-- **A dict is a finite map.**  Whatever calls are made on a new dict, as
    long as its tables stay below 2^31 buckets, none faults, and every answer
    that depends on the content is the one of the map; at the end the dict
    holds the entries of the map, and `dictSize` counts them.  The indices
    are such as the `int` of the code holds. -/
theorem dict_calls_refine_map (hr : type.Reads kc) (calls : List (DictCall K V))
    (hfit : Machine.Along (dictStep type) (DictRun.Fits type) DictRun.start calls) :
    ∃ s, Machine.run (dictStep type) DictRun.start calls = .ok s ∧
      List.Forall₂ Answered s.answers (calls.foldl (mapStep kc) MapRun.start).answers ∧
      (∀ c e, (calls.foldl (mapStep kc) MapRun.start).map c = some e ↔
        e ∈ s.dict.entries ∧ kc e.key = c) ∧
      dictSize s.dict = {c | ((calls.foldl (mapStep kc) MapRun.start).map c).isSome}.ncard ∧
      ∀ key, dictIndex type s.dict.ht0 key < 2 ^ 31 ∧ dictIndex type s.dict.ht1 key < 2 ^ 31 := by
  obtain ⟨s, hrun, h, hb⟩ := run_follows_bounded hr hfit
  refine ⟨s, hrun, h.answers, h.map, ?_, hb.index_lt h.ready⟩
  rw [h.map.domain h.distinct, dictSize_eq h.ready]

/-- Small numbers as keys, hashed to themselves. -/
def natType : DictType Nat := { hashFunction := UInt32.ofNat, keyCompare := fun a b => a == b }

theorem natType_reads : natType.Reads id :=
  ⟨fun k k' h => by rw [show k = k' from h], fun k k' => by simp [natType]⟩

/-- Five entries in the middle of a rehash from four buckets to eight. -/
def twoTables : Dict Nat Nat :=
  { ht0 := { table := [[], [⟨1, 10⟩], [⟨2, 20⟩], [⟨3, 30⟩]], size := 4, sizemask := 3, used := 3 }
    ht1 := { table := [[], [⟨9, 90⟩], [], [], [⟨4, 40⟩], [], [], []], size := 8, sizemask := 7, used := 2 }
    rehashidx := some 1
    iterators := 0 }

theorem twoTables_wf : twoTables.Wf natType id := by
  obtain ⟨s, hrun, h⟩ := run_follows (V := Nat) natType_reads
    [.add 1 10, .add 2 20, .add 3 30, .add 4 40, .add 9 90, .find 2]
  have hdict : (Machine.run (dictStep natType) DictRun.start
      [.add 1 10, .add 2 20, .add 3 30, .add 4 40, .add 9 90, .find 2]).map DictRun.dict = .ok twoTables := rfl
  rw [hrun] at hdict
  have hdict : s.dict = twoTables := Except.ok.inj hdict
  have hready : twoTables.Ready natType id := hdict ▸ h.ready
  exact hready.resolve_left (by decide)

/-- The fifth key makes the table of eight, which the next calls begin to
    fill. -/
theorem dict_calls_refine_map_nat :
    ∃ s : DictRun Nat Nat,
      Machine.run (dictStep natType) DictRun.start [.add 1 10, .add 2 20, .add 3 30, .add 4 40, .add 5 50,
        .replace 1 11, .delete 4, .rehash 1, .fetch 1, .find 4] = .ok s ∧
      List.Forall₂ Answered s.answers
        [some (.status .ok), some (.status .ok), some (.status .ok), some (.status .ok), some (.status .ok),
          some (.code 0), some (.status .ok), none, some (.value (some 11)), some (.entry none)] := by
  obtain ⟨s, hrun, hans, -⟩ := dict_calls_refine_map (V := Nat) natType_reads
    [.add 1 10, .add 2 20, .add 3 30, .add 4 40, .add 5 50, .replace 1 11, .delete 4, .rehash 1, .fetch 1,
      .find 4] (by decide +kernel)
  exact ⟨s, hrun, hans⟩

/-- **Everything stored is freed once.**  After any calls on a new dict, its
    tables below 2^31 buckets, and its release, the keys passed to the
    destructor or given back by `dictDeleteNoFree` are the keys stored, each
    as often; so are the values, those overwritten through `dictReplaceRaw`
    being given back. -/
theorem dict_calls_release_once (hr : type.Reads kc) (calls : List (DictCall K V))
    (hfit : Machine.Along (dictStep type) (DictRun.Fits type) DictRun.start calls) :
    ∃ s es, Machine.run (dictStep type) DictRun.start calls = .ok s ∧ dictRelease s.dict = .ok es ∧
      (calls.foldl (mapStep kc) MapRun.start).storedKeys.Perm
        (s.freedKeys ++ (calls.foldl (mapStep kc) MapRun.start).givenKeys ++ es.map DictEntry.key) ∧
      (calls.foldl (mapStep kc) MapRun.start).storedVals.Perm
        (s.freedVals ++ (calls.foldl (mapStep kc) MapRun.start).givenVals ++ es.map DictEntry.val) := by
  obtain ⟨s, hrun, h, -⟩ := run_follows_bounded hr hfit
  refine ⟨s, s.dict.entries, hrun, (dictEmpty_ready h.ready).2, ?_, ?_⟩
  · rw [← Multiset.coe_eq_coe, h.keys]
    simp only [Multiset.coe_add]
  · rw [← Multiset.coe_eq_coe, h.vals]
    simp only [Multiset.coe_add]

theorem dict_calls_release_once_nat :
    ∃ (s : DictRun Nat Nat) (es : List (DictEntry Nat Nat)),
      Machine.run (dictStep natType) DictRun.start [.add 1 10, .replace 1 11, .add 2 20, .delete 1] = .ok s ∧
      dictRelease s.dict = .ok es ∧ [10, 11, 20].Perm (s.freedVals ++ [] ++ es.map DictEntry.val) := by
  obtain ⟨s, es, hrun, hrel, -, hvals⟩ := dict_calls_release_once (V := Nat) natType_reads
    [.add 1 10, .replace 1 11, .add 2 20, .delete 1] (by decide +kernel)
  exact ⟨s, es, hrun, hrel, hvals⟩

end BoAtom
