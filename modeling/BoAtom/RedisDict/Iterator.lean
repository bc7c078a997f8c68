import BoAtom.Lib.Loop
import BoAtom.RedisDict.Calls

/-! # Safe iterators of redis_dict/dict.c

    `dictNext` walks the buckets of the first table and, while a rehash
    runs, of the second.  A safe iterator counts itself in `iterators` at
    its first step, and while that is not 0 no operation moves an entry.

    A pointer to an entry is named by the key the entry holds, since an
    entry keeps its key and no two entries have the same; following one
    that is not in the dict any more is a fault.  Unsafe iterators, which
    only compare a fingerprint of the addresses of the tables, are left
    out. -/

namespace BoAtom

open Loop

variable {K V C : Type}

/-! ## Section 1: The functions -/

structure DictIterator (K : Type) where
  index : Int
  table : Nat
  entry : Option K
  nextEntry : Option K
  deriving DecidableEq, Repr

def dictGetSafeIterator : DictIterator K :=
  { index := -1, table := 0, entry := none, nextEntry := none }

/-- `iter->d->ht[iter->table]`. -/
def iterTable (d : Dict K V) (it : DictIterator K) : Dictht K V :=
  if it.table = 0 then d.ht0 else d.ht1

variable [DecidableEq K]

/-- The key behind `k` in its bucket, if `k` is in it. -/
def nextIn (k : K) : List (DictEntry K V) → Option (Option K)
  | [] => none
  | e :: es => if e.key = k then some (es.head?.map DictEntry.key) else nextIn k es

/-- `iter->entry->next`. -/
def entryNext (d : Dict K V) (k : K) : Except Fault (Option K) :=
  match (d.ht0.table ++ d.ht1.table).findSome? (nextIn k) with
  | none => .error .nullDeref
  | some next => .ok next

/-- `if (iter->entry) { iter->nextEntry = iter->entry->next; return iter->entry; }` -/
def returnEntry (d : Dict K V) (it : DictIterator K) :
    Except Fault (Turn (DictIterator K) (Bool × DictIterator K)) :=
  match it.entry with
  | none => .ok (.goes it)
  | some k => (entryNext d k).map fun next => .leaves (true, { it with nextEntry := next })

omit [DecidableEq K] in
/-- `iter->entry = ht->table[iter->index]`. -/
def enterBucket (ht : Dictht K V) (it : DictIterator K) : Except Fault (DictIterator K) :=
  match ht.table[it.index.toNat]? with
  | none => .error .overrun
  | some b => .ok { it with entry := b.head?.map DictEntry.key }

/-- A turn of `while (1)`.  The loop leaves with the iterator, and whether
    it has an entry to return. -/
def dictNextTurn (d : Dict K V) (it : DictIterator K) :
    Except Fault (Turn (DictIterator K) (Bool × DictIterator K)) :=
  match it.entry with
  | some _ => returnEntry d { it with entry := it.nextEntry }
  | none =>
    let it := { it with index := it.index + 1 }
    if it.index ≥ (iterTable d it).size then
      if dictIsRehashing d ∧ it.table = 0 then
        (enterBucket d.ht1 { it with table := 1, index := 0 }).bind (returnEntry d)
      else .ok (.leaves (false, it))
    else (enterBucket (iterTable d it) it).bind (returnEntry d)

/-- `dictNext`; each turn but the first enters a bucket. -/
def dictNext (d : Dict K V) (it : DictIterator K) :
    Except Fault (Option K × Dict K V × DictIterator K) :=
  -- rehashing is forbidden from the first step on
  let d := if it.entry = none ∧ it.index = -1 ∧ it.table = 0 then
    { d with iterators := d.iterators + 1 } else d
  (iterate (dictNextTurn d) (.error .diverge) (d.ht0.size + d.ht1.size + 3) it).map fun r =>
    (if r.1 then r.2.entry else none, d, r.2)

/-- `dictReleaseIterator` of a safe iterator. -/
def dictReleaseIterator (d : Dict K V) (it : DictIterator K) : Dict K V :=
  if it.index = -1 ∧ it.table = 0 then d else { d with iterators := d.iterators - 1 }

/-! ## Section 2: What is left to return -/

/-- The keys of a bucket from the next entry on. -/
def tailFrom (next : Option K) (b : List (DictEntry K V)) : List K :=
  match next with
  | none => []
  | some k => (b.map DictEntry.key).dropWhile (fun k' => decide (k' ≠ k))

def keysOf (t : List (List (DictEntry K V))) : List K := t.flatten.map DictEntry.key

omit [DecidableEq K] in
def bucketAt (t : List (List (DictEntry K V))) (i : Int) : List (DictEntry K V) := t[i.toNat]?.getD []

/-- The keys of the entries that the iterator has not come to. -/
def DictIterator.rest (it : DictIterator K) (d : Dict K V) : List K :=
  tailFrom it.nextEntry (bucketAt (iterTable d it).table it.index) ++
    keysOf ((iterTable d it).table.drop (it.index + 1).toNat) ++
    if it.table = 0 then keysOf d.ht1.table else []

/-! ## Section 3: Following an entry -/

theorem nextIn_eq {k : K} {post : List K} : ∀ {b : List (DictEntry K V)} {pre : List K},
    b.map DictEntry.key = pre ++ k :: post → k ∉ pre → nextIn k b = some post.head? := by
  intro b
  induction b with
  | nil => intro pre h; simp at h
  | cons e es ih =>
    intro pre h hk
    cases pre with
    | nil =>
      rw [List.nil_append, List.map_cons, List.cons.injEq] at h
      rw [nextIn, if_pos h.1, ← h.2, List.head?_map]
    | cons k' pre =>
      rw [List.cons_append, List.map_cons, List.cons.injEq] at h
      rw [List.mem_cons, not_or] at hk
      rw [nextIn, if_neg (by rw [h.1]; exact Ne.symm hk.1)]
      exact ih h.2 hk.2

theorem nextIn_none {k : K} : ∀ {b : List (DictEntry K V)}, k ∉ b.map DictEntry.key →
    nextIn k b = none := by
  intro b
  induction b with
  | nil => intro _; rfl
  | cons e es ih =>
    intro h
    rw [List.map_cons, List.mem_cons, not_or] at h
    rw [nextIn, if_neg (Ne.symm h.1)]
    exact ih h.2

/-- The search over all buckets comes to the one the key is in. -/
theorem findSome_nextIn {k : K} {pre post : List K} :
    ∀ {t : List (List (DictEntry K V))} {i : Nat} {b : List (DictEntry K V)}, (keysOf t).Nodup →
      t[i]? = some b → b.map DictEntry.key = pre ++ k :: post →
      t.findSome? (nextIn k) = some post.head? := by
  intro t
  induction t with
  | nil => intro i b _ hb; simp at hb
  | cons c t ih =>
    intro i b hnd hb hkeys
    have hsplit : keysOf (c :: t) = c.map DictEntry.key ++ keysOf t := by
      simp [keysOf]
    rw [hsplit, List.nodup_append] at hnd
    obtain ⟨hnd0, hnd1, hdisj⟩ := hnd
    cases i with
    | zero =>
      simp only [List.getElem?_cons_zero, Option.some.injEq] at hb
      subst hb
      have hk : k ∉ pre := by
        rw [hkeys, List.nodup_append] at hnd0
        exact fun hk => hnd0.2.2 k hk k List.mem_cons_self rfl
      rw [List.findSome?_cons, nextIn_eq hkeys hk]
    | succ i =>
      rw [List.getElem?_cons_succ] at hb
      have hmem : k ∈ keysOf t := by
        rw [keysOf, List.map_flatten, List.mem_flatten]
        exact ⟨_, List.mem_map_of_mem (List.mem_of_getElem? hb), by rw [hkeys]; simp⟩
      rw [List.findSome?_cons, nextIn_none fun hc => hdisj k hc k hmem rfl]
      exact ih hnd1 hb hkeys

omit [DecidableEq K] in
/-- What the walk needs of the dict. -/
structure Dict.Walkable (d : Dict K V) : Prop where
  distinct : (keysOf (d.ht0.table ++ d.ht1.table)).Nodup
  size0 : d.ht0.size = d.ht0.table.length
  size1 : d.ht1.size = d.ht1.table.length
  idle : ¬ dictIsRehashing d → d.ht1.table = []
  busy : dictIsRehashing d → 0 < d.ht1.table.length

/-- The invariant of an iterator between its steps. -/
structure DictIterator.Ok (it : DictIterator K) (d : Dict K V) : Prop where
  low : -1 ≤ it.index
  high : it.index < (iterTable d it).size
  table : it.table = 0 ∨ it.table = 1 ∧ dictIsRehashing d ∧ 0 ≤ it.index
  next : it.entry = none → it.nextEntry = none
  entered : it.entry ≠ none → 0 ≤ it.index
  inside : ∀ k, it.nextEntry = some k →
    0 ≤ it.index ∧ k ∈ (bucketAt (iterTable d it).table it.index).map DictEntry.key

omit [DecidableEq K] in
/-- The bucket an index names, as one of all buckets. -/
theorem Dict.Walkable.bucket {d : Dict K V} {it : DictIterator K} {k : K}
    (hk : k ∈ (bucketAt (iterTable d it).table it.index).map DictEntry.key) :
    ∃ i : Nat, (d.ht0.table ++ d.ht1.table)[i]? = some (bucketAt (iterTable d it).table it.index) := by
  have hb : (iterTable d it).table[it.index.toNat]? =
      some (bucketAt (iterTable d it).table it.index) := by
    unfold bucketAt at hk ⊢
    rcases hb : (iterTable d it).table[it.index.toNat]? with _ | b
    · rw [hb] at hk
      simp at hk
    · rfl
  rw [iterTable] at hb ⊢
  split at hb
  · next h =>
    rw [if_pos h]
    exact ⟨it.index.toNat, by rw [List.getElem?_append_left (List.getElem?_eq_some_iff.mp hb).1, hb]⟩
  · next h =>
    rw [if_neg h]
    refine ⟨d.ht0.table.length + it.index.toNat, ?_⟩
    rw [List.getElem?_append_right (Nat.le_add_right _ _), Nat.add_sub_cancel_left, hb]

omit [DecidableEq K] in
theorem Dict.Walkable.bucket_nodup {d : Dict K V} (h : d.Walkable) {it : DictIterator K} {k : K}
    (hk : k ∈ (bucketAt (iterTable d it).table it.index).map DictEntry.key) :
    ((bucketAt (iterTable d it).table it.index).map DictEntry.key).Nodup := by
  obtain ⟨i, hi⟩ := Dict.Walkable.bucket hk
  refine List.Nodup.sublist ?_ h.distinct
  rw [keysOf]
  exact (List.sublist_flatten_of_mem (List.mem_of_getElem? hi)).map _

/-- From an entry on: the entry, and what its `next` pointer leads to. -/
theorem entryNext_spec {d : Dict K V} (h : d.Walkable) {it : DictIterator K} {k : K}
    (hk : k ∈ (bucketAt (iterTable d it).table it.index).map DictEntry.key) :
    ∃ next, entryNext d k = .ok next ∧
      tailFrom (some k) (bucketAt (iterTable d it).table it.index) =
        k :: tailFrom next (bucketAt (iterTable d it).table it.index) ∧
      ∀ k', next = some k' → k' ∈ (bucketAt (iterTable d it).table it.index).map DictEntry.key := by
  obtain ⟨i, hi⟩ := Dict.Walkable.bucket hk
  have hnd := h.bucket_nodup hk
  obtain ⟨pre, post, hkeys⟩ := List.append_of_mem hk
  have hfind := findSome_nextIn h.distinct hi hkeys
  rw [hkeys] at hnd
  have hpre : ∀ x ∈ pre, x ∉ k :: post := by
    intro x hx hx'
    exact (List.nodup_append.mp hnd).2.2 x hx x hx' rfl
  have hdrop : ∀ (pre' : List K) (x : K) (post' : List K), x ∉ pre' →
      (pre' ++ x :: post').dropWhile (fun k' => decide (k' ≠ x)) = x :: post' := by
    intro pre' x post' hx
    rw [List.dropWhile_append_of_pos]
    · simp
    · intro y hy
      simp only [decide_eq_true_eq]
      exact fun hxy => hx (hxy ▸ hy)
  refine ⟨post.head?, by rw [entryNext, hfind], ?_, ?_⟩
  · rw [tailFrom, hkeys, hdrop pre k post fun hk' => hpre k hk' List.mem_cons_self]
    congr 1
    cases post with
    | nil => rfl
    | cons x post =>
      have hx : x ∉ pre ++ [k] := by
        rw [List.mem_append, not_or]
        refine ⟨fun hx => hpre x hx (by simp), fun hx => ?_⟩
        rw [List.mem_singleton] at hx
        rw [hx] at hnd
        simp [List.nodup_append] at hnd
      rw [List.head?_cons, tailFrom, hkeys, show pre ++ k :: x :: post = (pre ++ [k]) ++ x :: post by simp,
        hdrop _ x post hx]
  · intro k' hk'
    rw [hkeys]
    exact List.mem_append_right _ (List.mem_cons_of_mem _ (List.mem_of_mem_head? hk'))

/-! ## Section 4: One step of the iterator -/

omit [DecidableEq K] in
/-- The buckets the iterator has not entered. -/
def DictIterator.left (it : DictIterator K) (d : Dict K V) : Nat :=
  (if it.table = 0 then d.ht0.size + d.ht1.size else d.ht1.size) - (it.index + 1).toNat

omit [DecidableEq K] in
theorem Dict.Walkable.size {d : Dict K V} (h : d.Walkable) (it : DictIterator K) :
    (iterTable d it).size = (iterTable d it).table.length := by
  unfold iterTable
  split
  · exact h.size0
  · exact h.size1

/-- The outcome of a step: the first key that is left is returned, or none is. -/
def Stepped (d : Dict K V) (keys : List K) : Bool × DictIterator K → Prop
  | (true, it) => ∃ k tail, keys = k :: tail ∧ it.entry = some k ∧ it.rest d = tail ∧ it.Ok d ∧ 0 ≤ it.index
  | (false, it) => keys = [] ∧ 0 ≤ it.index

theorem tailFrom_head (b : List (DictEntry K V)) :
    tailFrom (b.head?.map DictEntry.key) b = b.map DictEntry.key := by
  cases b with
  | nil => rfl
  | cons e es => simp [tailFrom]

/-- The bucket at the index has been entered, or left at its end: `entry` is
    the one to return. -/
structure DictIterator.Arrived (it : DictIterator K) (d : Dict K V) : Prop where
  low : 0 ≤ it.index
  high : it.index < (iterTable d it).size
  table : it.table = 0 ∨ it.table = 1 ∧ dictIsRehashing d
  entry : ∀ k, it.entry = some k → k ∈ (bucketAt (iterTable d it).table it.index).map DictEntry.key
  next : it.entry = none → it.nextEntry = none

/-- The keys left with `entry` among them. -/
def DictIterator.pending (it : DictIterator K) (d : Dict K V) : List K :=
  ({ it with nextEntry := it.entry } : DictIterator K).rest d

theorem rest_congr {d : Dict K V} {it it' : DictIterator K} (hidx : it'.index = it.index)
    (htab : it'.table = it.table) (hnext : it'.nextEntry = it.nextEntry) : it'.rest d = it.rest d := by
  simp only [DictIterator.rest, iterTable, hidx, htab, hnext]

omit [DecidableEq K] in
def DictIterator.todo (it : DictIterator K) (d : Dict K V) : Nat :=
  it.left d + if it.entry.isSome then 1 else 0

/-- What is kept from one turn to the next. -/
def Walking (d : Dict K V) (keys : List K) (it : DictIterator K) : Prop :=
  it.Ok d ∧ it.rest d = keys

/-- A turn of the loop goes on, having less to do, or leaves with what is
    first among `keys`. -/
def TurnEnds (d : Dict K V) (keys : List K) (m : Nat)
    (t : Except Fault (Turn (DictIterator K) (Bool × DictIterator K))) : Prop :=
  (∃ it, t = .ok (.goes it) ∧ Walking d keys it ∧ it.todo d < m) ∨
    ∃ r, t = .ok (.leaves r) ∧ Stepped d keys r

theorem returnEntry_spec {d : Dict K V} (h : d.Walkable) (it : DictIterator K) (ha : it.Arrived d)
    {m : Nat} (hm : it.left d < m) : TurnEnds d (it.pending d) m (returnEntry d it) := by
  have htable : it.table = 0 ∨ it.table = 1 ∧ dictIsRehashing d ∧ 0 ≤ it.index :=
    ha.table.imp_right fun ⟨h1, h2⟩ => ⟨h1, h2, ha.low⟩
  have hlow : -1 ≤ it.index := (by decide : (-1 : Int) ≤ 0).trans ha.low
  rcases hentry : it.entry with _ | k
  · have hnext := ha.next hentry
    refine Or.inl ⟨it, by rw [returnEntry, hentry], ⟨⟨hlow, ha.high, htable, fun _ => hnext,
      fun _ => ha.low, fun k hk => ?_⟩, rest_congr rfl rfl (hnext.trans hentry.symm)⟩, ?_⟩
    · rw [hnext] at hk
      cases hk
    · simpa [DictIterator.todo, hentry] using hm
  · obtain ⟨next, hnext, htail, hin⟩ := entryNext_spec h (ha.entry k hentry)
    refine Or.inr ⟨(true, { it with nextEntry := next }), ?_, k,
      ({ it with nextEntry := next } : DictIterator K).rest d, ?_, hentry, rfl, ?_, ha.low⟩
    · rw [returnEntry, hentry]
      simp only [hnext, Except.map]
    · simp only [DictIterator.pending, DictIterator.rest, iterTable] at htail ⊢
      rw [hentry, htail]
      simp
    · refine ⟨hlow, ha.high, htable, fun hn => ?_, fun _ => ha.low, fun k' hk' => ⟨ha.low, hin k' hk'⟩⟩
      exact absurd (hn : it.entry = none) (by simp [hentry])

omit [DecidableEq K] in
theorem keysOf_cons (b : List (DictEntry K V)) (t : List (List (DictEntry K V))) :
    keysOf (b :: t) = b.map DictEntry.key ++ keysOf t := by
  rw [keysOf, keysOf, List.flatten_cons, List.map_append]

omit [DecidableEq K] in
theorem keysOf_append (t u : List (List (DictEntry K V))) :
    keysOf (t ++ u) = keysOf t ++ keysOf u := by
  rw [keysOf, List.flatten_append, List.map_append]
  rfl

/-- Entering the bucket at the index of an iterator between two buckets. -/
theorem enterBucket_spec {d : Dict K V} (h : d.Walkable) (it : DictIterator K) (hlow : 0 ≤ it.index)
    (hhigh : it.index < (iterTable d it).size) (hnext : it.nextEntry = none)
    (htable : it.table = 0 ∨ it.table = 1 ∧ dictIsRehashing d) :
    ∃ it', enterBucket (iterTable d it) it = .ok it' ∧ it'.Arrived d ∧ it'.left d = it.left d ∧
      it'.pending d = keysOf ((iterTable d it).table.drop it.index.toNat) ++
        if it.table = 0 then keysOf d.ht1.table else [] := by
  have hlt : it.index.toNat < (iterTable d it).table.length := by
    rw [← h.size]
    omega
  have hb := List.getElem?_eq_getElem hlt
  have hat : bucketAt (iterTable d it).table it.index = (iterTable d it).table[it.index.toNat] := by
    rw [bucketAt, hb]
    rfl
  refine ⟨{ it with entry := ((iterTable d it).table[it.index.toNat]).head?.map DictEntry.key },
    by rw [enterBucket, hb], ⟨hlow, hhigh, htable, fun k hk => ?_, fun _ => hnext⟩, rfl, ?_⟩
  · show k ∈ (bucketAt (iterTable d it).table it.index).map DictEntry.key
    rw [hat]
    simp only [Option.map_eq_some_iff] at hk
    obtain ⟨e, he, rfl⟩ := hk
    exact List.mem_map_of_mem (List.mem_of_mem_head? he)
  · have hpend : ({ it with entry := ((iterTable d it).table[it.index.toNat]).head?.map DictEntry.key } :
        DictIterator K).pending d =
        tailFrom (((iterTable d it).table[it.index.toNat]).head?.map DictEntry.key)
          (bucketAt (iterTable d it).table it.index) ++
        keysOf ((iterTable d it).table.drop (it.index + 1).toNat) ++
        if it.table = 0 then keysOf d.ht1.table else [] := rfl
    rw [hpend, hat, tailFrom_head, List.drop_eq_getElem_cons hlt, keysOf_cons,
      show (it.index + 1).toNat = it.index.toNat + 1 by omega]

/-- The keys left to an iterator between two buckets. -/
theorem rest_between {d : Dict K V} {it : DictIterator K} (hnext : it.nextEntry = none) :
    it.rest d = keysOf ((iterTable d it).table.drop (it.index + 1).toNat) ++
      if it.table = 0 then keysOf d.ht1.table else [] := by
  rw [DictIterator.rest, hnext]
  rfl

/-- **A turn of `dictNext`.** -/
theorem dictNextTurn_spec {d : Dict K V} (h : d.Walkable) {it : DictIterator K} (hok : it.Ok d) :
    TurnEnds d (it.rest d) (it.todo d) (dictNextTurn d it) := by
  obtain ⟨hlow, hhigh, htable, hnext, hentered, hinside⟩ := hok
  obtain ⟨index, table, entry, nextEntry⟩ := it
  have htable' : table = 0 ∨ table = 1 ∧ dictIsRehashing d := htable.imp_right fun ⟨h1, h2, _⟩ => ⟨h1, h2⟩
  cases entry with
  | some k =>
    -- the rest of the bucket
    have hidx : 0 ≤ index := hentered (by simp)
    exact returnEntry_spec h ⟨index, table, nextEntry, nextEntry⟩
      ⟨hidx, hhigh, htable', fun k hk => (hinside k hk).2, id⟩ (Nat.lt_succ_self _)
  | none =>
    obtain rfl : nextEntry = none := hnext rfl
    simp only at hlow
    change index < (iterTable d ⟨index + 1, table, none, none⟩ : Dictht K V).size at hhigh
    by_cases hge : index + 1 ≥ (iterTable d ⟨index + 1, table, none, none⟩ : Dictht K V).size
    · have hnil : keysOf ((iterTable d ⟨index + 1, table, none, (none : Option K)⟩).table.drop
          (index + 1).toNat) = [] := by
        rw [List.drop_of_length_le (by rw [← h.size]; omega)]
        rfl
      rw [rest_between rfl, show iterTable d ⟨index, table, none, none⟩ = iterTable d ⟨index + 1, table, none, (none : Option K)⟩ from rfl,
        hnil, List.nil_append]
      by_cases hcond : dictIsRehashing d ∧ table = 0
      · -- on to the second table
        obtain ⟨hre, rfl⟩ := hcond
        obtain ⟨it', hent, ha, hleft, hpend⟩ := enterBucket_spec h ⟨0, 1, none, none⟩
          (le_refl _) (by
            show (0 : Int) < d.ht1.size
            rw [h.size1]
            exact_mod_cast h.busy hre) rfl (Or.inr ⟨rfl, hre⟩)
        have hturn : dictNextTurn d ⟨index, 0, none, none⟩ = returnEntry d it' := by
          rw [dictNextTurn]
          simp only
          rw [if_pos hge, if_pos ⟨hre, trivial⟩]
          exact congrArg (Except.bind · (returnEntry d)) hent
        rw [hturn, if_pos rfl]
        have hkeys : it'.pending d = keysOf d.ht1.table := by
          rw [hpend]
          simp [iterTable]
        rw [← hkeys]
        apply returnEntry_spec h it' ha
        rw [hleft]
        have hsize1 : 0 < d.ht1.size := h.size1 ▸ h.busy hre
        simp only [DictIterator.todo, DictIterator.left, iterTable, if_true] at hhigh hge ⊢
        simp
        omega
      · refine Or.inr ⟨(false, ⟨index + 1, table, none, none⟩), ?_, ?_, by show 0 ≤ index + 1; omega⟩
        · rw [dictNextTurn]
          simp only
          rw [if_pos hge, if_neg hcond]
        · split
          · next hzero =>
            rw [h.idle fun hre => hcond ⟨hre, hzero⟩]
            rfl
          · rfl
    · have hlt : index + 1 < (iterTable d ⟨index + 1, table, none, (none : Option K)⟩).size := by omega
      obtain ⟨it', hent, ha, hleft, hpend⟩ := enterBucket_spec h ⟨index + 1, table, none, none⟩
        (by show 0 ≤ index + 1; omega) hlt rfl htable'
      have hturn : dictNextTurn d ⟨index, table, none, none⟩ = returnEntry d it' := by
        rw [dictNextTurn]
        simp only
        rw [if_neg hge]
        exact congrArg (Except.bind · (returnEntry d)) hent
      rw [hturn]
      have hkeys : it'.pending d = keysOf ((iterTable d ⟨index + 1, table, none, (none : Option K)⟩).table.drop
          (index + 1).toNat) ++ if table = 0 then keysOf d.ht1.table else [] := hpend
      rw [rest_between rfl, show iterTable d ⟨index, table, none, none⟩ = iterTable d ⟨index + 1, table, none, (none : Option K)⟩ from rfl,
        ← hkeys]
      apply returnEntry_spec h it' ha
      rw [hleft]
      rcases htable' with rfl | ⟨rfl, -⟩
      · simp only [DictIterator.todo, DictIterator.left, iterTable, if_true] at hlt ⊢
        simp
        omega
      · simp only [DictIterator.todo, DictIterator.left, iterTable, one_ne_zero, if_false] at hlt ⊢
        simp
        omega

/-- **The loop of `dictNext`** comes to the first key that is left. -/
theorem dictNextLoop_spec {d : Dict K V} (h : d.Walkable) {it : DictIterator K} (hok : it.Ok d)
    (stuck : Except Fault (Bool × DictIterator K)) :
    ∃ r, iterate (dictNextTurn d) stuck (d.ht0.size + d.ht1.size + 3) it = .ok r ∧
      Stepped d (it.rest d) r := by
  refine iterate_total (I := fun m it' => Walking d (it.rest d) it' ∧ it'.todo d = m) ?_ _ _ _
    ⟨⟨hok, rfl⟩, rfl⟩ ?_
  · rintro m it' ⟨⟨hok', hrest⟩, rfl⟩
    have hturn := dictNextTurn_spec h hok'
    rw [hrest] at hturn
    exact hturn.imp_left fun ⟨it₁, heq, hw, hlt⟩ => ⟨it₁, it₁.todo d, heq, ⟨hw, rfl⟩, hlt⟩
  · have := hok.low
    simp only [DictIterator.todo, DictIterator.left]
    split <;> split <;> omega

end BoAtom
