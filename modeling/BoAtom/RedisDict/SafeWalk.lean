import BoAtom.RedisDict.Iterator

/-! # Calls between the steps of a safe iterator

    While `iterators` is not 0 no bucket is moved.  What a call then does to
    the tables is one `Effect` on the keys of one bucket, at most after a
    rehash has begun into an empty table, and the keys an iterator has left
    follow it.

    The main result is about any steps and calls after the first step, as
    long as no call deletes the entry the iterator has saved as the next
    one: every key that is not deleted is returned once
    (`safe_iterator_exact`). -/

namespace BoAtom

variable {K V C : Type}

/-! ## Section 1: Effects on the keys -/

inductive Effect (K : Type) where
  | same
  | added (key : K)
  | removed (key : K)

/-- The members of a set of keys afterwards. -/
def Effect.after : Effect K → (K → Prop) → K → Prop
  | .same, P, x => P x
  | .added k, P, x => x = k ∨ P x
  | .removed k, P, x => P x ∧ x ≠ k

/-- A new key was not there, one that is removed was. -/
def Effect.Fits : Effect K → (K → Prop) → Prop
  | .same, _ => True
  | .added k, P => ¬ P k
  | .removed k, P => P k

/-- The saved pointer still leads to an entry. -/
def Effect.Spares : Effect K → Option K → Prop
  | .removed k, next => next ≠ some k
  | _, _ => True

def Dict.keys (d : Dict K V) : List K := keysOf (d.ht0.table ++ d.ht1.table)

/-- A list of keys follows an effect, or is not touched by it. -/
def Follow (eff : Effect K) (l l' : List K) : Prop :=
  (∀ x, x ∈ l' ↔ x ∈ l) ∨ ∀ x, x ∈ l' ↔ eff.after (· ∈ l) x

theorem Follow.refl (eff : Effect K) (l : List K) : Follow eff l l := Or.inl fun _ => Iff.rfl

theorem Follow.perm {eff : Effect K} {l l' m m' : List K} (hl : l.Perm m) (hl' : l'.Perm m')
    (h : Follow eff m m') : Follow eff l l' := by
  have hsame : (fun x => x ∈ l) = fun x => x ∈ m := funext fun x => propext hl.mem_iff
  rcases h with h | h
  · exact Or.inl fun x => by rw [hl.mem_iff, hl'.mem_iff, h x]
  · exact Or.inr fun x => by rw [hl'.mem_iff, h x, hsame]

/-- The part of a list that follows an effect takes the whole with it. -/
theorem Follow.append {eff : Effect K} {l l' : List K} (h : Follow eff l l') (pre post : List K)
    (hnd : (pre ++ l ++ post).Nodup) : Follow eff (pre ++ l ++ post) (pre ++ l' ++ post) := by
  rcases h with h | h
  · exact Or.inl fun x => by simp only [List.mem_append, h x]
  cases eff with
  | same => exact Or.inl fun x => by simp only [List.mem_append, h x, Effect.after]
  | added k =>
    refine Or.inr fun x => ?_
    simp only [List.mem_append, h x, Effect.after]
    tauto
  | removed k =>
    by_cases hk : k ∈ l
    · -- then it is nowhere else
      have hpre : k ∉ pre := fun hp =>
        (List.nodup_append.mp (List.nodup_append.mp hnd).1).2.2 k hp k hk rfl
      have hpost : k ∉ post := fun hp =>
        (List.nodup_append.mp hnd).2.2 k (List.mem_append_right _ hk) k hp rfl
      refine Or.inr fun x => ?_
      simp only [List.mem_append, h x, Effect.after]
      constructor
      · rintro ((hx | hx) | hx)
        · exact ⟨Or.inl (Or.inl hx), fun he => hpre (he ▸ hx)⟩
        · exact ⟨Or.inl (Or.inr hx.1), hx.2⟩
        · exact ⟨Or.inr hx, fun he => hpost (he ▸ hx)⟩
      · tauto
    · refine Or.inl fun x => ?_
      simp only [List.mem_append, h x, Effect.after]
      have : x ∈ l → x ≠ k := fun hx he => hk (he ▸ hx)
      tauto

variable [DecidableEq K]

/-! ## Section 2: One bucket changes -/

def Effect.bucket : Effect K → List K → List K
  | .same, b => b
  | .added k, b => k :: b
  | .removed k, b => b.erase k

theorem Effect.mem_bucket (eff : Effect K) {b : List K} (hnd : b.Nodup) (x : K) :
    x ∈ eff.bucket b ↔ eff.after (· ∈ b) x := by
  cases eff with
  | same => exact Iff.rfl
  | added k => exact List.mem_cons
  | removed k =>
    rw [Effect.bucket, hnd.mem_erase_iff]
    exact and_comm

/-- Erasing a key in front of `n` or behind it. -/
theorem dropWhile_erase {k n : K} (hne : n ≠ k) : ∀ {b : List K}, b.Nodup →
    (b.erase k).dropWhile (fun x => decide (x ≠ n)) =
      (b.dropWhile (fun x => decide (x ≠ n))).erase k := by
  intro b
  induction b with
  | nil => intro _; rfl
  | cons a b ih =>
    intro hnd
    obtain ⟨ha, hnd⟩ := List.nodup_cons.mp hnd
    rcases eq_or_ne a k with rfl | hak
    · have hnot : a ∉ b.dropWhile (fun x => decide (x ≠ n)) := fun h =>
        ha ((List.dropWhile_sublist _).mem h)
      rw [List.erase_cons_head, List.dropWhile_cons_of_pos (by simpa using hne.symm),
        List.erase_of_not_mem hnot]
    · rw [List.erase_cons_tail (by simpa using hak)]
      rcases eq_or_ne a n with rfl | han
      · rw [List.dropWhile_cons_of_neg (by simp), List.dropWhile_cons_of_neg (by simp),
          List.erase_cons_tail (by simpa using hak)]
      · rw [List.dropWhile_cons_of_pos (by simpa using han),
          List.dropWhile_cons_of_pos (by simpa using han), ih hnd]

/-- What is left of a bucket that changes. -/
theorem tailFrom_follow {eff : Effect K} {b b' : List (DictEntry K V)} {next : Option K}
    (hkeys : b'.map DictEntry.key = eff.bucket (b.map DictEntry.key))
    (hnd : (b.map DictEntry.key).Nodup) (hfit : eff.Fits (· ∈ b.map DictEntry.key))
    (hnext : ∀ k, next = some k → k ∈ b.map DictEntry.key) (hspare : eff.Spares next) :
    Follow eff (tailFrom next b) (tailFrom next b') := by
  rcases next with _ | n
  · exact Follow.refl _ _
  have hn := hnext n rfl
  rw [tailFrom, tailFrom, hkeys]
  cases eff with
  | same => exact Follow.refl _ _
  | added k =>
    have hne : k ≠ n := fun he => hfit (he ▸ hn)
    rw [Effect.bucket, List.dropWhile_cons_of_pos (by simpa using hne)]
    exact Follow.refl _ _
  | removed k =>
    have hne : n ≠ k := fun he => hspare (he ▸ rfl)
    rw [Effect.bucket, dropWhile_erase hne hnd]
    exact Or.inr (Effect.mem_bucket (.removed k) (hnd.sublist (List.dropWhile_sublist _)))

omit [DecidableEq K] in
theorem keysOf_set_perm {t : List (List (DictEntry K V))} {i : Nat} (b : List (DictEntry K V))
    (hi : i < t.length) :
    (keysOf (t.set i b)).Perm (b.map DictEntry.key ++ keysOf (t.eraseIdx i)) := by
  have h := (flatten_set_perm b hi).map DictEntry.key
  rwa [List.map_append] at h

/-- One bucket of a table changes. -/
def TableEdit (t t' : List (List (DictEntry K V))) (eff : Effect K) (i : Nat) : Prop :=
  ∃ b b', t[i]? = some b ∧ t' = t.set i b' ∧
    b'.map DictEntry.key = eff.bucket (b.map DictEntry.key) ∧
    eff.Fits (· ∈ b.map DictEntry.key)

/-- The keys of the table change with it. -/
theorem TableEdit.follow {t t' : List (List (DictEntry K V))} {eff : Effect K} {i : Nat}
    (h : TableEdit t t' eff i) (hnd : (keysOf t).Nodup) : Follow eff (keysOf t) (keysOf t') := by
  obtain ⟨b, b', hb, rfl, hkeys, hfit⟩ := h
  have hi := (List.getElem?_eq_some_iff.mp hb).1
  have hold := keysOf_set_perm b hi
  have hself : t.set i b = t := by
    rw [← (List.getElem?_eq_some_iff.mp hb).2]
    exact List.set_getElem_self hi
  rw [hself] at hold
  have hnd' := hold.nodup_iff.mp hnd
  have hbucket : Follow eff (b.map DictEntry.key) (b'.map DictEntry.key) := by
    rw [hkeys]
    exact Or.inr (Effect.mem_bucket eff (List.nodup_append.mp hnd').1)
  exact Follow.perm hold (keysOf_set_perm b' hi)
    (hbucket.append [] (keysOf (t.eraseIdx i)) hnd')

/-! ## Section 3: The iterator follows -/

theorem rest_sublist {d : Dict K V} {it : DictIterator K} (hok : it.Ok d) :
    (it.rest d).Sublist d.keys := by
  -- what is left of the bucket, and the buckets behind it
  have hbucket : (tailFrom it.nextEntry (bucketAt (iterTable d it).table it.index) ++
      keysOf ((iterTable d it).table.drop (it.index + 1).toNat)).Sublist
        (keysOf (iterTable d it).table) := by
    rcases hnext : it.nextEntry with _ | k
    · rw [tailFrom, List.nil_append]
      exact ((List.drop_sublist _ _).flatten).map _
    · obtain ⟨hlow, hk⟩ := hok.inside k hnext
      have hlt : it.index.toNat < (iterTable d it).table.length := by
        by_contra hge
        rw [bucketAt, List.getElem?_eq_none (by omega)] at hk
        simp at hk
      have hat : bucketAt (iterTable d it).table it.index = (iterTable d it).table[it.index.toNat] := by
        rw [bucketAt, List.getElem?_eq_getElem hlt]
        rfl
      have hdrop : keysOf ((iterTable d it).table.drop it.index.toNat) =
          ((iterTable d it).table[it.index.toNat]).map DictEntry.key ++
            keysOf ((iterTable d it).table.drop (it.index + 1).toNat) := by
        rw [List.drop_eq_getElem_cons hlt, keysOf_cons,
          show (it.index + 1).toNat = it.index.toNat + 1 by omega]
      calc (_ : List K).Sublist (keysOf ((iterTable d it).table.drop it.index.toNat)) := by
            rw [hdrop, hat]
            exact (List.dropWhile_sublist _).append_right _
        List.Sublist _ (keysOf (iterTable d it).table) := ((List.drop_sublist _ _).flatten).map _
  rw [Dict.keys, keysOf_append]
  unfold DictIterator.rest
  rcases hok.table with hzero | ⟨hone, -⟩
  · rw [if_pos hzero]
    rw [iterTable, if_pos hzero] at hbucket ⊢
    exact hbucket.append (List.Sublist.refl _)
  · rw [if_neg (by omega), List.append_nil]
    rw [iterTable, if_neg (by omega)] at hbucket ⊢
    exact hbucket.trans (List.sublist_append_right _ _)

/-- The buckets behind an index, after one of the table has changed. -/
theorem TableEdit.drop {t t' : List (List (DictEntry K V))} {eff : Effect K} {i n : Nat}
    (h : TableEdit t t' eff i) :
    (i < n ∧ t'.drop n = t.drop n) ∨ (n ≤ i ∧ TableEdit (t.drop n) (t'.drop n) eff (i - n)) := by
  obtain ⟨b, b', hb, rfl, hkeys, hfit⟩ := h
  rcases Nat.lt_or_ge i n with hlt | hge
  · exact Or.inl ⟨hlt, List.drop_set_of_lt hlt⟩
  · refine Or.inr ⟨hge, b, b', ?_, ?_, hkeys, hfit⟩
    · rw [List.getElem?_drop, Nat.add_sub_cancel' hge, hb]
    · rw [List.drop_set, if_neg (by omega)]

theorem TableEdit.bucketAt_ne {t t' : List (List (DictEntry K V))} {eff : Effect K} {i : Nat}
    (h : TableEdit t t' eff i) {index : Int} (hne : i ≠ index.toNat) :
    bucketAt t' index = bucketAt t index := by
  obtain ⟨b, b', hb, rfl, -⟩ := h
  rw [bucketAt, bucketAt, List.getElem?_set_ne hne]

/-- What an iterator has left in its own table. -/
theorem TableEdit.tail_follow {t t' : List (List (DictEntry K V))} {eff : Effect K} {i : Nat}
    (h : TableEdit t t' eff i) {index : Int} {next : Option K}
    (hnext : ∀ k, next = some k → 0 ≤ index ∧ k ∈ (bucketAt t index).map DictEntry.key)
    (hspare : eff.Spares next)
    (hnd : (tailFrom next (bucketAt t index) ++ keysOf (t.drop (index + 1).toNat)).Nodup)
    (hbnd : ∀ b ∈ t, (b.map DictEntry.key).Nodup) :
    Follow eff (tailFrom next (bucketAt t index) ++ keysOf (t.drop (index + 1).toNat))
      (tailFrom next (bucketAt t' index) ++ keysOf (t'.drop (index + 1).toNat)) := by
  rcases h.drop (n := (index + 1).toNat) with ⟨hlt, hdrop⟩ | ⟨hge, hdrop⟩
  · rw [hdrop]
    by_cases hcur : i = index.toNat
    · -- the bucket the iterator is in
      obtain ⟨b, b', hb, rfl, hkeys, hfit⟩ := h
      have hat : bucketAt t index = b := by rw [bucketAt, ← hcur, hb]; rfl
      have hat' : bucketAt (t.set i b') index = b' := by
        rw [bucketAt, ← hcur, List.getElem?_set_self (List.getElem?_eq_some_iff.mp hb).1]
        rfl
      rw [hat] at hnext hnd ⊢
      rw [hat']
      exact (tailFrom_follow hkeys (hbnd b (List.mem_of_getElem? hb)) hfit
        (fun k hk => (hnext k hk).2) hspare).append [] _ hnd
    · rw [h.bucketAt_ne hcur]
      exact Follow.refl _ _
  · -- a bucket the iterator will come to
    have hsame : tailFrom next (bucketAt t' index) = tailFrom next (bucketAt t index) := by
      rcases hn : next with _ | k
      · rfl
      · have hidx := (hnext k hn).1
        rw [h.bucketAt_ne (by omega)]
    rw [hsame]
    have := (hdrop.follow (List.nodup_append.mp hnd).2.1).append
      (tailFrom next (bucketAt t index)) [] (by rwa [List.append_nil])
    simpa only [List.append_nil] using this

/-- What a call does to a dict, seen by any iterator on it. -/
structure Dict.Edited (d d' : Dict K V) (eff : Effect K) : Prop where
  iterators : d'.iterators = d.iterators
  fits : eff.Fits (· ∈ d.keys)
  keys : Follow eff d.keys d'.keys
  walk : ∀ it : DictIterator K, it.Ok d → eff.Spares it.nextEntry →
    it.Ok d' ∧ Follow eff (it.rest d) (it.rest d')

theorem Dict.Edited.refl (d : Dict K V) : d.Edited d .same :=
  ⟨rfl, trivial, Follow.refl _ _, fun _ h _ => ⟨h, Follow.refl _ _⟩⟩

/-- A call that first does nothing to the keys. -/
theorem Dict.Edited.after {d d₁ d' : Dict K V} {eff : Effect K} (h₁ : d.Edited d₁ .same)
    (h : d₁.Edited d' eff) : d.Edited d' eff := by
  have hmem : ∀ {l l' : List K}, Follow .same l l' → ∀ x, x ∈ l' ↔ x ∈ l := by
    intro l l' hf
    exact hf.elim id id
  have htrans : ∀ {l l₁ l' : List K}, Follow .same l l₁ → Follow eff l₁ l' → Follow eff l l' := by
    intro l l₁ l' hf hf'
    have hsame : (fun x => x ∈ l₁) = fun x => x ∈ l := funext fun x => propext (hmem hf x)
    rcases hf' with hf' | hf'
    · exact Or.inl fun x => (hf' x).trans (hmem hf x)
    · exact Or.inr fun x => hsame ▸ hf' x
  refine ⟨h.iterators.trans h₁.iterators, ?_, htrans h₁.keys h.keys, fun it hok hspare => ?_⟩
  · have hsame : (fun x => x ∈ d₁.keys) = fun x => x ∈ d.keys :=
      funext fun x => propext (hmem h₁.keys x)
    exact hsame ▸ h.fits
  · obtain ⟨hok₁, hrest₁⟩ := h₁.walk it hok trivial
    obtain ⟨hok', hrest⟩ := h.walk it hok₁ hspare
    exact ⟨hok', htrans hrest₁ hrest⟩

/-- And one that then does nothing more. -/
theorem Dict.Edited.before {d d₁ d' : Dict K V} {eff : Effect K} (h : d.Edited d₁ eff)
    (h₁ : d₁.Edited d' .same) : d.Edited d' eff := by
  have htrans : ∀ {l l₁ l' : List K}, Follow eff l l₁ → Follow .same l₁ l' → Follow eff l l' := by
    intro l l₁ l' hf hf'
    have hmem : ∀ x, x ∈ l' ↔ x ∈ l₁ := hf'.elim id id
    rcases hf with hf | hf
    · exact Or.inl fun x => (hmem x).trans (hf x)
    · exact Or.inr fun x => (hmem x).trans (hf x)
  refine ⟨h₁.iterators.trans h.iterators, h.fits, htrans h.keys h₁.keys, fun it hok hspare => ?_⟩
  obtain ⟨hok₁, hrest₁⟩ := h.walk it hok hspare
  obtain ⟨hok', hrest⟩ := h₁.walk it hok₁ trivial
  exact ⟨hok', htrans hrest₁ hrest⟩

/-- The dict after one bucket of one of its tables has changed. -/
structure Dict.BucketEdit (d d' : Dict K V) (eff : Effect K) : Prop where
  iterators : d'.iterators = d.iterators
  size0 : d'.ht0.size = d.ht0.size
  size1 : d'.ht1.size = d.ht1.size
  rehashidx : d'.rehashidx = d.rehashidx
  fits : eff.Fits (· ∈ d.keys)
  tables : (∃ i, TableEdit d.ht0.table d'.ht0.table eff i ∧ d'.ht1.table = d.ht1.table) ∨
    (∃ i, d'.ht0.table = d.ht0.table ∧ TableEdit d.ht1.table d'.ht1.table eff i)

theorem Dict.BucketEdit.keys {d d' : Dict K V} {eff : Effect K} (h : d.BucketEdit d' eff)
    (hd : d.Walkable) : Follow eff d.keys d'.keys := by
  have hsplit : ∀ d : Dict K V, d.keys = keysOf d.ht0.table ++ keysOf d.ht1.table := by
    intro d
    rw [Dict.keys, keysOf_append]
  have hnd : d.keys.Nodup := hd.distinct
  rw [hsplit] at hnd
  rw [hsplit d, hsplit d']
  rcases h.tables with ⟨i, hedit, hsame⟩ | ⟨i, hsame, hedit⟩
  · rw [hsame]
    exact (hedit.follow (List.nodup_append.mp hnd).1).append [] _ hnd
  · rw [hsame]
    have := (hedit.follow (List.nodup_append.mp hnd).2.1).append (keysOf d.ht0.table) []
      (by rwa [List.append_nil])
    simpa only [List.append_nil] using this

theorem Dict.BucketEdit.rest {d d' : Dict K V} {eff : Effect K} (h : d.BucketEdit d' eff)
    (hd : d.Walkable) {it : DictIterator K} (hok : it.Ok d) (hspare : eff.Spares it.nextEntry) :
    Follow eff (it.rest d) (it.rest d') := by
  have hnd : (it.rest d).Nodup := (hd.distinct : d.keys.Nodup).sublist (rest_sublist hok)
  have hbnd : ∀ t : List (List (DictEntry K V)), (keysOf t).Sublist d.keys →
      ∀ b ∈ t, (b.map DictEntry.key).Nodup := fun t ht b hb =>
    (hd.distinct : d.keys.Nodup).sublist (((List.sublist_flatten_of_mem hb).map _).trans ht)
  have hsub0 : (keysOf d.ht0.table).Sublist d.keys := by
    rw [Dict.keys, keysOf_append]
    exact List.sublist_append_left _ _
  have hsub1 : (keysOf d.ht1.table).Sublist d.keys := by
    rw [Dict.keys, keysOf_append]
    exact List.sublist_append_right _ _
  have hinside := hok.inside
  unfold DictIterator.rest at hnd ⊢
  by_cases hzero : it.table = 0
  · simp only [iterTable, if_pos hzero] at hnd hinside ⊢
    rcases h.tables with ⟨i, hedit, hsame⟩ | ⟨i, hsame, hedit⟩
    · rw [hsame]
      exact (hedit.tail_follow hinside hspare (List.nodup_append.mp hnd).1 (hbnd _ hsub0)).append
        [] _ hnd
    · rw [hsame]
      have := (hedit.follow (List.nodup_append.mp hnd).2.1).append
        (tailFrom it.nextEntry (bucketAt d.ht0.table it.index) ++
          keysOf (d.ht0.table.drop (it.index + 1).toNat)) [] (by rwa [List.append_nil])
      simpa only [List.append_nil] using this
  · simp only [iterTable, if_neg hzero, List.append_nil] at hnd hinside ⊢
    rcases h.tables with ⟨i, hedit, hsame⟩ | ⟨i, hsame, hedit⟩
    · rw [hsame]
      exact Follow.refl _ _
    · exact hedit.tail_follow hinside hspare hnd (hbnd _ hsub1)

/-- The saved pointer stays in its bucket. -/
theorem TableEdit.inside {t t' : List (List (DictEntry K V))} {eff : Effect K} {i : Nat}
    (h : TableEdit t t' eff i) {index : Int} {k : K} (hspare : eff.Spares (some k))
    (hk : k ∈ (bucketAt t index).map DictEntry.key) :
    k ∈ (bucketAt t' index).map DictEntry.key := by
  by_cases hcur : i = index.toNat
  · obtain ⟨b, b', hb, rfl, hkeys, -⟩ := h
    have hat : bucketAt t index = b := by rw [bucketAt, ← hcur, hb]; rfl
    have hat' : bucketAt (t.set i b') index = b' := by
      rw [bucketAt, ← hcur, List.getElem?_set_self (List.getElem?_eq_some_iff.mp hb).1]
      rfl
    rw [hat', hkeys]
    rw [hat] at hk
    cases eff with
    | same => exact hk
    | added k' => exact List.mem_cons_of_mem _ hk
    | removed k' =>
      have hne : k ≠ k' := fun he => hspare (he ▸ rfl)
      exact (List.mem_erase_of_ne hne).mpr hk
  · rwa [h.bucketAt_ne hcur]

theorem Dict.BucketEdit.edited {d d' : Dict K V} {eff : Effect K} (h : d.BucketEdit d' eff)
    (hd : d.Walkable) : d.Edited d' eff := by
  refine ⟨h.iterators, h.fits, h.keys hd, fun it hok hspare => ⟨?_, h.rest hd hok hspare⟩⟩
  have hsize : (iterTable d' it).size = (iterTable d it).size := by
    unfold iterTable
    split
    · exact h.size0
    · exact h.size1
  have hre : dictIsRehashing d' = dictIsRehashing d := by
    rw [dictIsRehashing, dictIsRehashing, h.rehashidx]
  refine ⟨hok.low, hsize ▸ hok.high, hre ▸ hok.table, hok.next, hok.entered, fun k hk => ?_⟩
  obtain ⟨hlow, hin⟩ := hok.inside k hk
  rw [hk] at hspare
  refine ⟨hlow, ?_⟩
  unfold iterTable at hin ⊢
  split at hin
  · next hzero =>
    rw [if_pos hzero]
    rcases h.tables with ⟨i, hedit, -⟩ | ⟨i, hsame, -⟩
    · exact hedit.inside hspare hin
    · rwa [hsame]
  · next hzero =>
    rw [if_neg hzero]
    rcases h.tables with ⟨i, -, hsame⟩ | ⟨i, -, hedit⟩
    · rwa [hsame]
    · exact hedit.inside hspare hin

/-! ## Section 4: Calls on a dict that an iterator holds -/

omit [DecidableEq K] in
def Dict.resumed (d : Dict K V) : Dict K V := { d with iterators := 0 }

/-- A dict whose rehashing an iterator has stopped. -/
structure Dict.Held (type : DictType K) (kc : K → C) (d : Dict K V) : Prop where
  wf : d.resumed.Wf type kc
  held : d.iterators ≠ 0

variable {type : DictType K} {kc : K → C}

omit [DecidableEq K] in
theorem Dict.keys_eq (d : Dict K V) : d.keys = d.entries.map DictEntry.key := by
  rw [Dict.keys, keysOf, List.flatten_append]
  rfl

omit [DecidableEq K] in
theorem Dict.Wf.walkable {d : Dict K V} (h : d.resumed.Wf type kc) : d.Walkable := by
  refine ⟨?_, h.ht0.size, ?_, fun hidle => ?_, fun hre => ?_⟩
  · show d.keys.Nodup
    rw [Dict.keys_eq]
    have hnd : (d.entries.map fun e => kc e.key).Nodup := h.distinct
    have hmap : (d.entries.map fun e => kc e.key) = (d.entries.map DictEntry.key).map kc :=
      (List.map_map ..).symm
    rw [hmap] at hnd
    exact hnd.of_map
  · by_cases hre : dictIsRehashing d
    · exact (h.ht1_wf hre).size
    · have hnil : d.ht1 = dictReset := h.idle (Dict.Wf.idle_none hre)
      rw [hnil]
      rfl
  · have hnil : d.ht1 = dictReset := h.idle (Dict.Wf.idle_none hidle)
    rw [hnil]
    rfl
  · exact List.length_pos_of_ne_nil (h.ht1_wf hre).table_ne_nil

/-- A rehash that begins moves nothing. -/
theorem edited_begin {d : Dict K V} (h : d.resumed.Wf type kc) (hidle : ¬ dictIsRehashing d) (n : Nat) :
    d.Edited { d with
      ht1 := { table := List.replicate n [], size := n, sizemask := n - 1, used := 0 },
      rehashidx := some 0 } .same := by
  have hnil : d.ht1.table = [] := h.walkable.idle hidle
  have hempty : keysOf (List.replicate n ([] : List (DictEntry K V))) = [] := by
    simp [keysOf]
  refine ⟨rfl, trivial, Or.inl fun x => ?_, fun it hok _ => ?_⟩
  · simp [Dict.keys, keysOf, hnil]
  · -- an iterator in the second table would be one of a running rehash
    have hzero : it.table = 0 := by
      rcases hok.table with hzero | ⟨_, hre, _⟩
      · exact hzero
      · exact absurd hre hidle
    refine ⟨⟨hok.low, ?_, Or.inl hzero, hok.next, hok.entered, ?_⟩, Or.inl fun x => ?_⟩
    · have := hok.high
      simpa only [iterTable, if_pos hzero] using this
    · have := hok.inside
      simpa only [iterTable, if_pos hzero] using this
    · simp only [DictIterator.rest, iterTable, if_pos hzero, hnil, hempty]
      rfl

theorem dictExpand_held {d : Dict K V} (h : d.Held type kc) (size : Nat) :
    ∃ r d', dictExpand d size = (r, d') ∧ d'.Held type kc ∧ d.Edited d' .same := by
  unfold dictExpand
  simp only
  split
  · exact ⟨_, _, rfl, h, Dict.Edited.refl d⟩
  next hcan =>
    split
    · exact ⟨_, _, rfl, h, Dict.Edited.refl d⟩
    · have hidle : ¬ dictIsRehashing d := fun hre => hcan (Or.inl hre)
      have htable : ¬ d.ht0.table.isEmpty := by
        rw [List.isEmpty_iff]
        exact h.wf.ht0.table_ne_nil
      obtain ⟨m, hm, -⟩ := dictNextPower_spec size
      rw [if_neg htable, hm]
      exact ⟨_, _, rfl, ⟨h.wf.begin_rehash hidle m, h.held⟩, edited_begin h.wf hidle _⟩

theorem dictResize_held {d : Dict K V} (h : d.Held type kc) :
    ∃ r d', dictResize d = (r, d') ∧ d'.Held type kc ∧ d.Edited d' .same := by
  unfold dictResize
  split
  · exact ⟨_, _, rfl, h, Dict.Edited.refl d⟩
  · exact dictExpand_held h _

omit [DecidableEq K] in
/-- Expanding does not look at `iterators`. -/
theorem dictExpand_resumed (d : Dict K V) (size : Nat) :
    dictExpand d.resumed size = ((dictExpand d size).1, (dictExpand d size).2.resumed) := by
  by_cases hcan : dictIsRehashing d ∨ d.ht0.used > size
  · rw [dictExpand, dictExpand, if_pos hcan]
    exact if_pos hcan
  by_cases hsize : dictNextPower size = d.ht0.size
  · rw [dictExpand, dictExpand, if_neg hcan, if_pos hsize]
    exact (if_neg hcan).trans (if_pos hsize)
  rw [dictExpand, dictExpand, if_neg hcan, if_neg hsize]
  refine (if_neg hcan).trans ((if_neg hsize).trans ?_)
  by_cases htable : d.ht0.table.isEmpty
  · rw [if_pos htable]
    exact if_pos htable
  · rw [if_neg htable]
    exact if_neg htable

theorem dictExpandIfNeeded_held {d : Dict K V} (h : d.Held type kc) :
    ∃ d', dictExpandIfNeeded d = (.ok, d') ∧ d'.Held type kc ∧ d.Edited d' .same := by
  have hresumed : dictExpandIfNeeded d.resumed =
      ((dictExpandIfNeeded d).1, (dictExpandIfNeeded d).2.resumed) := by
    by_cases hre : dictIsRehashing d
    · rw [dictExpandIfNeeded, dictExpandIfNeeded, if_pos hre]
      exact if_pos hre
    rw [dictExpandIfNeeded, dictExpandIfNeeded, if_neg hre]
    refine (if_neg hre).trans ?_
    by_cases hnew : d.ht0.size = 0
    · rw [if_pos hnew, ← dictExpand_resumed]
      exact if_pos hnew
    rw [if_neg hnew]
    refine (if_neg hnew).trans ?_
    by_cases hfull : d.ht0.used ≥ d.ht0.size ∧
        (dictCanResize ∨ d.ht0.used / d.ht0.size > dictForceResizeRatio)
    · rw [if_pos hfull, ← dictExpand_resumed]
      exact if_pos hfull
    · rw [if_neg hfull]
      exact if_neg hfull
  obtain ⟨d₁, heq, -⟩ := dictExpandIfNeeded_spec h.wf
  have hok : (dictExpandIfNeeded d).1 = .ok := by
    rw [hresumed] at heq
    exact (Prod.mk.inj heq).1
  have hall : ∃ r d', dictExpandIfNeeded d = (r, d') ∧ d'.Held type kc ∧ d.Edited d' .same := by
    unfold dictExpandIfNeeded
    split
    · exact ⟨_, _, rfl, h, Dict.Edited.refl d⟩
    · split
      · exact dictExpand_held h _
      · split
        · exact dictExpand_held h _
        · exact ⟨_, _, rfl, h, Dict.Edited.refl d⟩
  obtain ⟨r, d', heq', h', hed⟩ := hall
  rw [heq'] at hok
  exact ⟨d', by rw [heq', show r = .ok from hok], h', hed⟩

omit [DecidableEq K] in
theorem dictRehashStep_held {d : Dict K V} (h : d.Held type kc) : dictRehashStep type d = .ok d := by
  rw [dictRehashStep, if_neg fun hc => h.held hc.2]

theorem dictKeyIndex_held (hr : type.Reads kc) {d : Dict K V} (h : d.Held type kc) (key : K) :
    ∃ r d', dictKeyIndex type d key = .ok (r, d') ∧ d'.Held type kc ∧ d.Edited d' .same ∧
      ((r = none ∧ ∃ e ∈ d'.entries, kc e.key = kc key) ∨
        ∃ i, r = some i ∧ (∀ e ∈ d'.entries, kc e.key ≠ kc key) ∧
          i = dictIndex type (if dictIsRehashing d' then d'.ht1 else d'.ht0) key) := by
  obtain ⟨d', hexp, h', hed⟩ := dictExpandIfNeeded_held h
  unfold dictKeyIndex
  rw [hexp]
  simp only
  rcases h'.wf.search hr key with ⟨pos, b, e, hsome, -, -, hin, hkey⟩ |
    ⟨hnone, hre, pos, b, e, hsome, -, -, hin, hkey⟩ | ⟨hnone, hnone1, hno⟩
  · change findInTable type d'.ht0 key = _ at hsome
    exact ⟨none, d', by rw [hsome]; rfl, h', hed, Or.inl ⟨rfl, e, hin, hkey⟩⟩
  · change findInTable type d'.ht0 key = _ at hnone
    change findInTable type d'.ht1 key = _ at hsome
    change dictIsRehashing d' = true at hre
    rw [hnone]
    simp only [Except.bind, if_pos hre]
    exact ⟨none, d', by rw [hsome], h', hed, Or.inl ⟨rfl, e, hin, hkey⟩⟩
  · change findInTable type d'.ht0 key = _ at hnone
    rw [hnone]
    simp only [Except.bind]
    split
    · next hre =>
      have hnone1' : findInTable type d'.ht1 key = .ok none := hnone1 hre
      exact ⟨some _, d', by rw [hnone1'], h', hed, Or.inr ⟨_, rfl, hno, by rw [if_pos hre]⟩⟩
    · next hidle => exact ⟨some _, d', rfl, h', hed, Or.inr ⟨_, rfl, hno, by rw [if_neg hidle]⟩⟩

omit [DecidableEq K] in
theorem fresh_keys {d : Dict K V} {key : K} (hfresh : ∀ e ∈ d.entries, kc e.key ≠ kc key) :
    key ∉ d.keys := by
  rw [Dict.keys_eq]
  intro hk
  obtain ⟨e, he, hek⟩ := List.mem_map.mp hk
  exact hfresh e he (by rw [hek])

/-- A new key at the head of a bucket. -/
theorem tableEdit_link {ht ht' : Dictht K V} {i : Nat} {e : DictEntry K V} (h : linkEntry ht i e = .ok ht')
    (hnot : e.key ∉ keysOf ht.table) :
    TableEdit ht.table ht'.table (.added e.key) i ∧ ht'.size = ht.size ∧
      (ht'.table[i]?).bind (fun b => b[0]?) = some e := by
  unfold linkEntry at h
  split at h
  · cases h
  · next b hb =>
    simp only [Except.ok.injEq] at h
    subst h
    refine ⟨⟨b, e :: b, hb, rfl, rfl, fun hk => hnot ?_⟩, rfl, ?_⟩
    · rw [keysOf, List.map_flatten, List.mem_flatten]
      exact ⟨_, List.mem_map_of_mem (List.mem_of_getElem? hb), hk⟩
    · simp [(List.getElem?_eq_some_iff.mp hb).1]

omit [DecidableEq K] in
theorem Dict.Wf.distinct_cons {d d' : Dict K V} (h : d.Wf type kc) {e : DictEntry K V}
    (hfresh : ∀ f ∈ d.entries, kc f.key ≠ kc e.key) (hp : d'.entries.Perm (e :: d.entries)) :
    (d'.entries.map fun e => kc e.key).Nodup := by
  rw [(hp.map _).nodup_iff, List.map_cons, List.nodup_cons]
  refine ⟨fun hk => ?_, h.distinct⟩
  obtain ⟨f, hf, hfk⟩ := List.mem_map.mp hk
  exact hfresh f hf hfk

/-- Linking a new key into the table new keys go to. -/
theorem dictAddRaw_held [Inhabited V] (hr : type.Reads kc) {d : Dict K V} (h : d.Held type kc)
    (key : K) :
    ∃ r d', dictAddRaw type d key = .ok (r, d') ∧ d'.Held type kc ∧
      ((r = none ∧ d.Edited d' .same ∧ ∃ e ∈ d'.entries, kc e.key = kc key) ∨
        ∃ ref, r = some ref ∧ d.Edited d' (.added key) ∧ entryAt d' ref = some ⟨key, default⟩) := by
  obtain ⟨r, d₁, hkey, h₁, hed, hr₁⟩ := dictKeyIndex_held hr h key
  unfold dictAddRaw
  rw [dictRehashStep_held h]
  simp only [Except.bind]
  rw [hkey]
  rcases hr₁ with ⟨rfl, hin⟩ | ⟨i, rfl, hfresh, hi⟩
  · exact ⟨none, d₁, rfl, h₁, Or.inl ⟨rfl, hed, hin⟩⟩
  have hnot := fresh_keys hfresh
  have hnot' : key ∉ keysOf d₁.ht0.table ∧ key ∉ keysOf d₁.ht1.table := by
    rw [Dict.keys, keysOf_append, List.mem_append, not_or] at hnot
    exact hnot
  simp only
  split
  · next hre =>
    rw [if_pos hre] at hi
    obtain ⟨ht', hlink, hwf', hperm⟩ :=
      linkEntry_spec (h₁.wf.ht1_wf hre) (⟨key, default⟩ : DictEntry K V)
    change linkEntry d₁.ht1 (dictIndex type d₁.ht1 key) ⟨key, default⟩ = .ok ht' at hlink
    rw [← hi] at hlink
    obtain ⟨htab, hsize, hhead⟩ := tableEdit_link hlink hnot'.2
    have hp : ({ d₁ with ht1 := ht' } : Dict K V).resumed.entries.Perm (⟨key, default⟩ :: d₁.resumed.entries) :=
      (hperm.append_left _).trans List.perm_middle
    refine ⟨some ⟨true, i, 0⟩, { d₁ with ht1 := ht' }, by rw [hlink], ⟨⟨h₁.wf.ht0, fun hn => ?_,
      fun j hj => ⟨hwf', (h₁.wf.busy j hj).2⟩, Dict.Wf.distinct_cons (e := ⟨key, default⟩) h₁.wf hfresh hp, rfl⟩, h₁.held⟩,
      Or.inr ⟨_, rfl, hed.after ?_, hhead⟩⟩
    · have hn' : d₁.rehashidx = none := hn
      simp [dictIsRehashing, hn'] at hre
    · exact Dict.BucketEdit.edited ⟨rfl, rfl, hsize, rfl, hnot, Or.inr ⟨i, rfl, htab⟩⟩ h₁.wf.walkable
  · next hidle =>
    rw [if_neg hidle] at hi
    obtain ⟨ht', hlink, hwf', hperm⟩ := linkEntry_spec h₁.wf.ht0 (⟨key, default⟩ : DictEntry K V)
    change linkEntry d₁.ht0 (dictIndex type d₁.ht0 key) ⟨key, default⟩ = .ok ht' at hlink
    rw [← hi] at hlink
    obtain ⟨htab, hsize, hhead⟩ := tableEdit_link hlink hnot'.1
    have hp : ({ d₁ with ht0 := ht' } : Dict K V).resumed.entries.Perm (⟨key, default⟩ :: d₁.resumed.entries) :=
      hperm.append_right _
    refine ⟨some ⟨false, i, 0⟩, { d₁ with ht0 := ht' }, by rw [hlink], ⟨⟨hwf', h₁.wf.idle,
      fun j hj => ?_, Dict.Wf.distinct_cons (e := ⟨key, default⟩) h₁.wf hfresh hp, rfl⟩, h₁.held⟩,
      Or.inr ⟨_, rfl, hed.after ?_, hhead⟩⟩
    · have hj' : d₁.rehashidx = some j := hj
      simp [dictIsRehashing, hj'] at hidle
    · exact Dict.BucketEdit.edited ⟨rfl, hsize, rfl, rfl, hnot, Or.inl ⟨i, htab, rfl⟩⟩ h₁.wf.walkable

omit [DecidableEq K] in
/-- Setting a value keeps the keys of the bucket. -/
theorem setVal_keys {b : List (DictEntry K V)} {pos : Nat} {e : DictEntry K V} (he : b[pos]? = some e) (v : V) :
    (b.set pos { e with val := v }).map DictEntry.key = b.map DictEntry.key := by
  obtain ⟨hpos, rfl⟩ := List.getElem?_eq_some_iff.mp he
  rw [List.map_set]
  have hlen : pos < (b.map DictEntry.key).length := by rwa [List.length_map]
  calc (b.map DictEntry.key).set pos b[pos].key
      = (b.map DictEntry.key).set pos (b.map DictEntry.key)[pos] := by rw [List.getElem_map]
    _ = b.map DictEntry.key := List.set_getElem_self hlen

theorem dictSetVal_held {d : Dict K V} (h : d.Held type kc) {r : EntryRef} {e : DictEntry K V}
    (he : entryAt d r = some e) (v : V) :
    (dictSetVal d r v).Held type kc ∧ d.Edited (dictSetVal d r v) .same := by
  obtain ⟨hwf, -⟩ := dictSetVal_spec h.wf (r := r) (e := e) he v
  obtain ⟨inHt1, idx, pos⟩ := r
  obtain ⟨b, hb, hpos⟩ := Option.bind_eq_some_iff.mp he
  cases inHt1 with
  | false =>
    have heq : setValIn d.ht0 idx pos v =
        { d.ht0 with table := d.ht0.table.set idx (b.set pos { e with val := v }) } := by
      have hb' : d.ht0.table[idx]? = some b := hb
      simp [setValIn, hb', hpos]
    refine ⟨⟨hwf, h.held⟩, Dict.BucketEdit.edited ⟨rfl, ?_, rfl, rfl, trivial, Or.inl ⟨idx, ?_, rfl⟩⟩
      h.wf.walkable⟩
    · show (setValIn d.ht0 idx pos v).size = _
      rw [heq]
    · show TableEdit d.ht0.table (setValIn d.ht0 idx pos v).table _ _
      rw [heq]
      exact ⟨b, _, hb, rfl, setVal_keys hpos v, trivial⟩
  | true =>
    have heq : setValIn d.ht1 idx pos v =
        { d.ht1 with table := d.ht1.table.set idx (b.set pos { e with val := v }) } := by
      have hb' : d.ht1.table[idx]? = some b := hb
      simp [setValIn, hb', hpos]
    refine ⟨⟨hwf, h.held⟩, Dict.BucketEdit.edited ⟨rfl, rfl, ?_, rfl, trivial, Or.inr ⟨idx, rfl, ?_⟩⟩
      h.wf.walkable⟩
    · show (setValIn d.ht1 idx pos v).size = _
      rw [heq]
    · show TableEdit d.ht1.table (setValIn d.ht1 idx pos v).table _ _
      rw [heq]
      exact ⟨b, _, hb, rfl, setVal_keys hpos v, trivial⟩

theorem dictAdd_held [Inhabited V] (hr : type.Reads kc) {d : Dict K V} (h : d.Held type kc) (key : K)
    (val : V) :
    ∃ r d', dictAdd type d key val = .ok (r, d') ∧ d'.Held type kc ∧
      ((r = .err ∧ d.Edited d' .same ∧ ∃ e ∈ d'.entries, kc e.key = kc key) ∨
        (r = .ok ∧ d.Edited d' (.added key))) := by
  obtain ⟨r, d₁, hadd, h₁, hr₁⟩ := dictAddRaw_held hr h key
  unfold dictAdd
  rw [hadd]
  rcases hr₁ with ⟨rfl, hed, hin⟩ | ⟨ref, rfl, hed, hat⟩
  · exact ⟨.err, d₁, rfl, h₁, Or.inl ⟨rfl, hed, hin⟩⟩
  · obtain ⟨h', hset⟩ := dictSetVal_held h₁ hat val
    exact ⟨.ok, _, rfl, h', Or.inr ⟨rfl, hed.before hset⟩⟩

/-- A lookup changes nothing. -/
theorem dictFind_held (hr : type.Reads kc) {d : Dict K V} (h : d.Held type kc) (key : K) :
    ∃ r, dictFind type d key = .ok (r, d) ∧
      ((r = none ∧ ∀ e ∈ d.entries, kc e.key ≠ kc key) ∨
        ∃ ref e, r = some ref ∧ entryAt d ref = some e) := by
  unfold dictFind
  split
  · next hempty =>
    -- the counters of both tables are 0
    refine ⟨none, rfl, Or.inl ⟨rfl, fun e he => ?_⟩⟩
    have hsize : dictSize d.resumed = 0 := hempty
    rw [dictSize_eq (Or.inr h.wf), List.length_eq_zero_iff] at hsize
    have he' : e ∈ d.resumed.entries := he
    rw [hsize] at he'
    cases he'
  · rw [dictRehashStep_held h]
    simp only [Except.bind]
    rcases h.wf.search hr key with ⟨pos, b, e, hsome, hb, he, -⟩ |
      ⟨hnone, hre, pos, b, e, hsome, hb, he, -⟩ | ⟨hnone, hnone1, hno⟩
    · change findInTable type d.ht0 key = _ at hsome
      change d.ht0.table[dictIndex type d.ht0 key]? = _ at hb
      refine ⟨some ⟨false, _, pos⟩, by rw [hsome], Or.inr ⟨_, e, rfl, ?_⟩⟩
      simp [entryAt, hb, he]
    · change findInTable type d.ht0 key = _ at hnone
      change findInTable type d.ht1 key = _ at hsome
      change d.ht1.table[dictIndex type d.ht1 key]? = _ at hb
      change dictIsRehashing d = true at hre
      rw [hnone]
      simp only [if_pos hre]
      refine ⟨some ⟨true, _, pos⟩, by rw [hsome], Or.inr ⟨_, e, rfl, ?_⟩⟩
      simp [entryAt, hb, he]
    · change findInTable type d.ht0 key = _ at hnone
      refine ⟨none, ?_, Or.inl ⟨rfl, hno⟩⟩
      rw [hnone]
      simp only
      split
      · next hre =>
        have hnone1' : findInTable type d.ht1 key = .ok none := hnone1 hre
        rw [hnone1']
      · rfl

theorem dictReplace_held [Inhabited V] (hr : type.Reads kc) {d : Dict K V} (h : d.Held type kc)
    (key : K) (val : V) :
    ∃ r old d', dictReplace type d key val = .ok (r, old, d') ∧ d'.Held type kc ∧
      (d.Edited d' .same ∨ d.Edited d' (.added key)) := by
  obtain ⟨r, d₁, hadd, h₁, hr₁⟩ := dictAdd_held hr h key val
  unfold dictReplace
  rw [hadd]
  rcases hr₁ with ⟨rfl, hed, e, he, hek⟩ | ⟨rfl, hed⟩
  · obtain ⟨f, hfind, hf⟩ := dictFind_held hr h₁ key
    simp only [Except.bind]
    rw [hfind]
    rcases hf with ⟨rfl, hno⟩ | ⟨ref, e', rfl, hat⟩
    · exact absurd hek (hno e he)
    · obtain ⟨h', hset⟩ := dictSetVal_held h₁ hat val
      exact ⟨0, some e'.val, _, by simp only [hat], h', Or.inl (hed.before hset)⟩
  · exact ⟨1, none, d₁, rfl, h₁, Or.inr hed⟩

theorem dictReplaceRaw_held [Inhabited V] (hr : type.Reads kc) {d : Dict K V} (h : d.Held type kc)
    (key : K) (val : V) :
    ∃ ref d', dictReplaceRaw type d key = .ok (some ref, d') ∧ (dictSetVal d' ref val).Held type kc ∧
      (d.Edited (dictSetVal d' ref val) .same ∨ d.Edited (dictSetVal d' ref val) (.added key)) := by
  obtain ⟨f, hfind, hf⟩ := dictFind_held hr h key
  unfold dictReplaceRaw
  rw [hfind]
  simp only [Except.bind]
  rcases hf with ⟨rfl, hno⟩ | ⟨ref, e, rfl, hat⟩
  · obtain ⟨r, d₁, hadd, h₁, hr₁⟩ := dictAddRaw_held hr h key
    rcases hr₁ with ⟨rfl, hed, e, he, hek⟩ | ⟨ref, rfl, hed, hat⟩
    · -- the key has not come in between
      have hin : kc e.key ∈ d₁.keys.map kc := by
        rw [Dict.keys_eq, List.map_map]
        exact List.mem_map_of_mem he
      obtain ⟨k, hk, hkc⟩ := List.mem_map.mp hin
      have hk' : k ∈ d.keys := (hed.keys.elim id id k).mp hk
      rw [Dict.keys_eq] at hk'
      obtain ⟨e', he', rfl⟩ := List.mem_map.mp hk'
      exact absurd (hkc.trans hek) (hno e' he')
    · obtain ⟨h', hset⟩ := dictSetVal_held h₁ hat val
      exact ⟨ref, d₁, hadd, h', Or.inr (hed.before hset)⟩
  · obtain ⟨h', hset⟩ := dictSetVal_held h hat val
    exact ⟨ref, d, rfl, h', Or.inl hset⟩

/-- Unlinking an entry erases its key from its bucket. -/
theorem tableEdit_unlink {ht : Dictht K V} {idx pos : Nat} {b : List (DictEntry K V)} {e : DictEntry K V}
    (hb : ht.table[idx]? = some b) (he : b[pos]? = some e) (hnd : (keysOf ht.table).Nodup) :
    TableEdit ht.table (unlinkEntry ht idx pos).table (.removed e.key) idx ∧
      (unlinkEntry ht idx pos).size = ht.size := by
  obtain ⟨hpos, rfl⟩ := List.getElem?_eq_some_iff.mp he
  have hbnd : (b.map DictEntry.key).Nodup :=
    hnd.sublist ((List.sublist_flatten_of_mem (List.mem_of_getElem? hb)).map _)
  have hlen : pos < (b.map DictEntry.key).length := by rwa [List.length_map]
  have heq : unlinkEntry ht idx pos =
      { ht with table := ht.table.set idx (b.eraseIdx pos), used := ht.used - 1 } := by
    simp [unlinkEntry, hb]
  rw [heq]
  refine ⟨⟨b, b.eraseIdx pos, hb, rfl, ?_, List.mem_map_of_mem (List.getElem_mem hpos)⟩, rfl⟩
  calc (b.eraseIdx pos).map DictEntry.key
      = (b.map DictEntry.key).eraseIdx pos := (List.eraseIdx_map ..).symm
    _ = (b.map DictEntry.key).erase (b.map DictEntry.key)[pos] := (hbnd.erase_getElem pos hlen).symm
    _ = (b.map DictEntry.key).erase b[pos].key := by rw [List.getElem_map]

theorem dictGenericDelete_held (hr : type.Reads kc) {d : Dict K V} (h : d.Held type kc) (key : K)
    (nofree : Bool) :
    ∃ r freed d', dictGenericDelete type d key nofree = .ok (r, freed, d') ∧ d'.Held type kc ∧
      (d.Edited d' .same ∨ ∃ k, kc k = kc key ∧ d.Edited d' (.removed k)) := by
  have hsize : d.ht0.size ≠ 0 := by
    have hwf : d.ht0.size = d.ht0.table.length := h.wf.ht0.size
    rw [hwf]
    exact fun hnil => h.wf.ht0.table_ne_nil (List.eq_nil_of_length_eq_zero hnil)
  have hnd : d.keys.Nodup := h.wf.walkable.distinct
  have hnd' : (keysOf d.ht0.table ++ keysOf d.ht1.table).Nodup := by
    rwa [Dict.keys, keysOf_append] at hnd
  unfold dictGenericDelete
  rw [if_neg hsize, dictRehashStep_held h]
  simp only [Except.bind]
  rcases h.wf.search hr key with ⟨pos, b, e, hsome, hb, he, hin, hkey⟩ |
    ⟨hnone, hre, pos, b, e, hsome, hb, he, hin, hkey⟩ | ⟨hnone, hnone1, -⟩
  · obtain ⟨hwf', -⟩ := h.wf.unlink0 hb he
    change findInTable type d.ht0 key = _ at hsome
    obtain ⟨htab, hsize'⟩ := tableEdit_unlink hb he (List.nodup_append.mp hnd').1
    have hfit : e.key ∈ d.keys := by
      rw [Dict.keys_eq]
      exact List.mem_map_of_mem hin
    rw [hsome]
    exact ⟨_, _, _, rfl, ⟨hwf', h.held⟩, Or.inr ⟨e.key, hkey, Dict.BucketEdit.edited
      ⟨rfl, hsize', rfl, rfl, hfit, Or.inl ⟨_, htab, rfl⟩⟩ h.wf.walkable⟩⟩
  · obtain ⟨hwf', -⟩ := h.wf.unlink1 hre hb he
    change findInTable type d.ht0 key = _ at hnone
    change findInTable type d.ht1 key = _ at hsome
    change dictIsRehashing d = true at hre
    obtain ⟨htab, hsize'⟩ := tableEdit_unlink hb he (List.nodup_append.mp hnd').2.1
    have hfit : e.key ∈ d.keys := by
      rw [Dict.keys_eq]
      exact List.mem_map_of_mem hin
    rw [hnone]
    simp only [if_pos hre]
    rw [hsome]
    exact ⟨_, _, _, rfl, ⟨hwf', h.held⟩, Or.inr ⟨e.key, hkey, Dict.BucketEdit.edited
      ⟨rfl, rfl, hsize', rfl, hfit, Or.inr ⟨_, rfl, htab⟩⟩ h.wf.walkable⟩⟩
  · change findInTable type d.ht0 key = _ at hnone
    refine ⟨.err, none, d, ?_, h, Or.inl (Dict.Edited.refl d)⟩
    rw [hnone]
    simp only
    split
    · next hre =>
      have hnone1' : findInTable type d.ht1 key = .ok none := hnone1 hre
      rw [hnone1']
    · rfl

/-! ## Section 5: A walk through the dict -/

inductive WalkEvent (K V : Type) where
  | next
  | call (c : DictCall K V)

/-- A run of calls with a safe iterator, what the iterator has returned, and
    whether it has come to the end. -/
structure WalkRun (K V : Type) where
  run : DictRun K V
  it : DictIterator K
  returned : List K
  finished : Bool

/-- A safe iterator just created on a dict. -/
def WalkRun.start (run : DictRun K V) : WalkRun K V :=
  { run := run, it := dictGetSafeIterator, returned := [], finished := false }

variable (type) [Inhabited V]

/-- A step of the iterator, until it has returned NULL, or a call. -/
def walkStep (s : WalkRun K V) : WalkEvent K V → Except Fault (WalkRun K V)
  | .next =>
    if s.finished then .ok s
    else
      (dictNext s.run.dict s.it).map fun r =>
        { run := { s.run with dict := r.2.1 }, it := r.2.2, returned := s.returned ++ r.1.toList,
          finished := r.1.isNone }
  | .call c => (dictStep type s.run c).map fun (run : DictRun K V) => { s with run := run }

variable {type}

/-- The key a call deletes, if it deletes one. -/
def DictCall.deletes : DictCall K V → Option K
  | .delete key | .deleteNoFree key => some key
  | _ => none

/-- A call that neither moves the entries nor empties the dict. -/
def DictCall.Stays : DictCall K V → Prop
  | .rehash _ | .rehashMs _ _ | .empty => False
  | _ => True

/-- What may be called between two steps: the entry the iterator has saved
    as the next one must not be deleted. -/
def WalkRun.Allows (kc : K → C) (s : WalkRun K V) : WalkEvent K V → Prop
  | .next => True
  | .call c => c.Stays ∧ ∀ key k, c.deletes = some key → s.it.nextEntry = some k → kc k ≠ kc key

/-- The integers of the code hold what the call or the step works with. -/
def WalkRun.Fits (type : DictType K) (s : WalkRun K V) : WalkEvent K V → Prop
  | .next => s.run.dict.Bounded
  | .call c => s.run.Fits type c

instance DictCall.decidableStays : ∀ c : DictCall K V, Decidable c.Stays
  | .rehash _ | .rehashMs _ _ | .empty => isFalse id
  | .add _ _ | .replace _ _ | .replaceRaw _ _ | .find _ | .fetch _ | .delete _ | .deleteNoFree _
  | .resize | .expand _ => isTrue trivial

instance WalkRun.decidableAllows (kc : K → C) [DecidableEq C] (s : WalkRun K V) :
    ∀ ev : WalkEvent K V, Decidable (s.Allows kc ev)
  | .next => isTrue trivial
  | .call c =>
    decidable_of_iff (c.Stays ∧ ∀ key ∈ c.deletes, ∀ k ∈ s.it.nextEntry, kc k ≠ kc key)
      ⟨fun h => ⟨h.1, fun key k hkey hk => h.2 key hkey k hk⟩,
        fun h => ⟨h.1, fun key hkey k hk => h.2 key k hkey hk⟩⟩

instance WalkRun.decidableFits (type : DictType K) (s : WalkRun K V) :
    ∀ ev : WalkEvent K V, Decidable (s.Fits type ev)
  | .next => inferInstanceAs (Decidable s.run.dict.Bounded)
  | .call c => inferInstanceAs (Decidable (s.run.Fits type c))

/-- Some call deletes an entry with the content of this key. -/
def Deleted (kc : K → C) (events : List (WalkEvent K V)) (k : K) : Prop :=
  ∃ c key, WalkEvent.call c ∈ events ∧ c.deletes = some key ∧ kc k = kc key

/-- **One call.** -/
theorem dictStep_held (hr : type.Reads kc) {s : DictRun K V} (h : s.dict.Held type kc) {c : DictCall K V}
    (hc : c.Stays) :
    ∃ s' eff, dictStep type s c = .ok s' ∧ s'.dict.Held type kc ∧ s.dict.Edited s'.dict eff ∧
      ∀ k, eff = .removed k → ∃ key, c.deletes = some key ∧ kc k = kc key := by
  -- a call that deletes nothing
  have hadds : ∀ {d' : Dict K V} (key : K), s.dict.Edited d' .same ∨ s.dict.Edited d' (.added key) →
      ∃ eff, s.dict.Edited d' eff ∧ ∀ k, eff = .removed k → ∃ key, c.deletes = some key ∧ kc k = kc key := by
    rintro d' key (hed | hed)
    · exact ⟨_, hed, fun k hk => by cases hk⟩
    · exact ⟨_, hed, fun k hk => by cases hk⟩
  have hdeletes : ∀ {d' : Dict K V} {key : K}, c.deletes = some key →
      (s.dict.Edited d' .same ∨ ∃ k, kc k = kc key ∧ s.dict.Edited d' (.removed k)) →
      ∃ eff, s.dict.Edited d' eff ∧ ∀ k, eff = .removed k → ∃ key, c.deletes = some key ∧ kc k = kc key := by
    rintro d' key hkey (hed | ⟨k, hk, hed⟩)
    · exact ⟨_, hed, fun k hk => by cases hk⟩
    · refine ⟨_, hed, fun k' hk' => ⟨key, hkey, ?_⟩⟩
      cases hk'
      exact hk
  cases c with
  | add key val =>
    obtain ⟨r, d', heq, h', hr'⟩ := dictAdd_held hr h key val
    obtain ⟨eff, hed⟩ := hadds key (hr'.imp (fun h => h.2.1) (fun h => h.2))
    exact ⟨_, eff, by rw [dictStep, heq]; rfl, h', hed⟩
  | replace key val =>
    obtain ⟨r, old, d', heq, h', hr'⟩ := dictReplace_held hr h key val
    obtain ⟨eff, hed⟩ := hadds key hr'
    exact ⟨_, eff, by rw [dictStep, heq]; rfl, h', hed⟩
  | replaceRaw key val =>
    obtain ⟨ref, d', heq, h', hr'⟩ := dictReplaceRaw_held hr h key val
    obtain ⟨eff, hed⟩ := hadds key hr'
    exact ⟨_, eff, by rw [dictStep, heq]; rfl, h', hed⟩
  | find key =>
    obtain ⟨r, heq, hr'⟩ := dictFind_held hr h key
    obtain ⟨eff, hed⟩ := hadds key (Or.inl (Dict.Edited.refl s.dict))
    rcases hr' with ⟨rfl, -⟩ | ⟨ref, e, rfl, hat⟩
    · exact ⟨s.next s.dict (.entry none) [] [], eff, by rw [dictStep, heq]; rfl, h, hed⟩
    · refine ⟨s.next s.dict (.entry (some e)) [] [], eff, ?_, h, hed⟩
      rw [dictStep, heq]
      simp only [Except.bind, readEntry, hat]
      rfl
  | fetch key =>
    obtain ⟨r, heq, hr'⟩ := dictFind_held hr h key
    obtain ⟨eff, hed⟩ := hadds key (Or.inl (Dict.Edited.refl s.dict))
    rcases hr' with ⟨rfl, -⟩ | ⟨ref, e, rfl, hat⟩
    · exact ⟨s.next s.dict (.value none) [] [], eff, by rw [dictStep, dictFetchValue, heq]; rfl, h, hed⟩
    · refine ⟨s.next s.dict (.value (some e.val)) [] [], eff, ?_, h, hed⟩
      rw [dictStep, dictFetchValue, heq]
      simp only [Except.bind, hat]
      rfl
  | delete key =>
    obtain ⟨r, freed, d', heq, h', hr'⟩ := dictGenericDelete_held hr h key false
    obtain ⟨eff, hed⟩ := hdeletes rfl hr'
    exact ⟨_, eff, by rw [dictStep, dictDelete, heq]; rfl, h', hed⟩
  | deleteNoFree key =>
    obtain ⟨r, freed, d', heq, h', hr'⟩ := dictGenericDelete_held hr h key true
    obtain ⟨eff, hed⟩ := hdeletes rfl hr'
    exact ⟨_, eff, by rw [dictStep, dictDeleteNoFree, heq]; rfl, h', hed⟩
  | resize =>
    obtain ⟨r, d', heq, h', hed⟩ := dictResize_held h
    exact ⟨_, .same, by rw [dictStep, heq], h', hed, fun k hk => by cases hk⟩
  | expand size =>
    obtain ⟨r, d', heq, h', hed⟩ := dictExpand_held h size
    exact ⟨_, .same, by rw [dictStep, heq], h', hed, fun k hk => by cases hk⟩
  | rehash n => exact hc.elim
  | rehashMs ms clock => exact hc.elim
  | empty => exact hc.elim

/-- The keys the walk will still return, if nothing is changed. -/
def WalkRun.left (s : WalkRun K V) : List K := if s.finished then [] else s.it.rest s.run.dict

/-- The invariant of a walk that has begun with the keys `there`; `gone` are
    the keys some call of the whole run deletes. -/
structure WalkRun.Begun (type : DictType K) (kc : K → C) (there : List K) (gone : K → Prop)
    (s : WalkRun K V) : Prop where
  wf : s.run.dict.resumed.Wf type kc
  iterators : s.run.dict.iterators = 1
  entered : 0 ≤ s.it.index
  ok : s.finished = false → s.it.Ok s.run.dict
  all : ∀ k ∈ there, ¬ gone k → k ∈ s.returned ∨ k ∈ s.left
  once : ∀ k ∈ s.returned, ¬ gone k →
    s.returned.count k ≤ 1 ∧ k ∉ s.left ∧ k ∈ s.run.dict.keys

omit [Inhabited V] in
theorem WalkRun.Begun.held {s : WalkRun K V} {there : List K} {gone : K → Prop}
    (h : s.Begun type kc there gone) : s.run.dict.Held type kc :=
  ⟨h.wf, by rw [h.iterators]; decide⟩

omit [DecidableEq K] in
theorem mem_of_follow {eff : Effect K} {l l' : List K} (h : Follow eff l l') {x : K} (hx : x ∈ l)
    (hkeep : eff ≠ .removed x) : x ∈ l' := by
  rcases h with h | h
  · exact (h x).mpr hx
  · apply (h x).mpr
    cases eff with
    | same => exact hx
    | added k => exact Or.inr hx
    | removed k => exact ⟨hx, fun he => hkeep (he ▸ rfl)⟩

omit [DecidableEq K] in
theorem mem_follow_of {eff : Effect K} {l l' : List K} (h : Follow eff l l') {x : K} (hx : x ∈ l') :
    x ∈ l ∨ eff = .added x := by
  rcases h with h | h
  · exact Or.inl ((h x).mp hx)
  · have hx' := (h x).mp hx
    cases eff with
    | same => exact Or.inl hx'
    | added k =>
      rcases hx' with rfl | hx'
      · exact Or.inr rfl
      · exact Or.inl hx'
    | removed k => exact Or.inl hx'.1

/-- A call between two steps. -/
theorem begun_call (hr : type.Reads kc) {s : WalkRun K V} {there : List K} {gone : K → Prop}
    (h : s.Begun type kc there gone) {c : DictCall K V} (hal : s.Allows kc (.call c))
    (hgone : ∀ key k, c.deletes = some key → kc k = kc key → gone k) :
    ∃ s', walkStep type s (.call c) = .ok s' ∧ s'.Begun type kc there gone := by
  obtain ⟨hstays, hspare⟩ := hal
  obtain ⟨run, eff, heq, hheld, hed, hdel⟩ := dictStep_held hr h.held hstays
  refine ⟨{ s with run := run }, by rw [walkStep, heq]; rfl, ?_⟩
  have hspares : eff.Spares s.it.nextEntry := by
    cases eff with
    | removed k =>
      obtain ⟨key, hkey, hk⟩ := hdel k rfl
      exact fun hnext => hspare key k hkey hnext hk
    | same => trivial
    | added k => trivial
  have hkept : ∀ k, ¬ gone k → eff ≠ .removed k := by
    intro k hk he
    obtain ⟨key, hkey, hkc⟩ := hdel k he
    exact hk (hgone key k hkey hkc)
  -- what is left follows the effect
  have hleft : Follow eff s.left ({ s with run := run } : WalkRun K V).left := by
    unfold WalkRun.left
    cases hfin : s.finished with
    | true => exact Follow.refl _ _
    | false => exact (hed.walk s.it (h.ok hfin) hspares).2
  refine ⟨hheld.wf, hed.iterators.trans h.iterators, h.entered,
    fun hfin => (hed.walk s.it (h.ok hfin) hspares).1, fun k hk hng => ?_, fun k hk hng => ?_⟩
  · exact (h.all k hk hng).imp_right fun hin => mem_of_follow hleft hin (hkept k hng)
  · obtain ⟨hcount, hnot, hin⟩ := h.once k hk hng
    refine ⟨hcount, fun hin' => ?_, mem_of_follow hed.keys hin (hkept k hng)⟩
    rcases mem_follow_of hleft hin' with hold | hnew
    · exact hnot hold
    · -- a key that is there is not added
      have hfit := hed.fits
      rw [hnew] at hfit
      exact hfit hin

omit [Inhabited V] in
/-- One step of the iterator. -/
theorem dictNext_spec {d : Dict K V} (h : d.Walkable) {it : DictIterator K} (hok : it.Ok d) :
    ∃ r, dictNext d it = .ok (if r.1 then r.2.entry else none,
        { d with iterators := d.iterators + if it.entry = none ∧ it.index = -1 ∧ it.table = 0 then 1 else 0 },
        r.2) ∧ Stepped d (it.rest d) r := by
  unfold dictNext
  by_cases hfirst : it.entry = none ∧ it.index = -1 ∧ it.table = 0
  · have h' : ({ d with iterators := d.iterators + 1 } : Dict K V).Walkable :=
      ⟨h.distinct, h.size0, h.size1, h.idle, h.busy⟩
    have hok' : it.Ok { d with iterators := d.iterators + 1 } :=
      ⟨hok.low, hok.high, hok.table, hok.next, hok.entered, hok.inside⟩
    obtain ⟨r, heq, hr⟩ := dictNextLoop_spec h' hok' (.error .diverge)
    refine ⟨r, ?_, ?_⟩
    · simp only [if_pos hfirst]
      rw [heq]
      rfl
    · obtain ⟨b, it'⟩ := r
      cases b with
      | true =>
        obtain ⟨k, tail, hkeys, hentry, hrest, hok'', hlow⟩ := hr
        exact ⟨k, tail, hkeys, hentry, hrest,
          ⟨hok''.low, hok''.high, hok''.table, hok''.next, hok''.entered, hok''.inside⟩, hlow⟩
      | false => exact hr
  · obtain ⟨r, heq, hr⟩ := dictNextLoop_spec h hok (.error .diverge)
    refine ⟨r, ?_, hr⟩
    simp only [if_neg hfirst]
    rw [heq]
    rfl

/-- **One step of a walk.**  The first key that is left goes over to those
    returned. -/
theorem begun_step {s : WalkRun K V} {there : List K} {gone : K → Prop}
    (hwf : s.run.dict.resumed.Wf type kc) (hok : s.it.Ok s.run.dict) (hfin : s.finished = false)
    (hiter : s.run.dict.iterators +
      (if s.it.entry = none ∧ s.it.index = -1 ∧ s.it.table = 0 then 1 else 0) = 1)
    (hall : ∀ k ∈ there, ¬ gone k → k ∈ s.returned ∨ k ∈ s.it.rest s.run.dict)
    (honce : ∀ k ∈ s.returned, ¬ gone k →
      s.returned.count k ≤ 1 ∧ k ∉ s.it.rest s.run.dict ∧ k ∈ s.run.dict.keys) :
    ∃ s', walkStep type s .next = .ok s' ∧ s'.Begun type kc there gone := by
  obtain ⟨⟨b, it'⟩, heq, hr⟩ := dictNext_spec hwf.walkable hok
  rw [hiter] at heq
  have hsub := rest_sublist hok
  have hnd : (s.it.rest s.run.dict).Nodup := (hwf.walkable.distinct : s.run.dict.keys.Nodup).sublist hsub
  cases b with
  | true =>
    obtain ⟨k, tail, hkeys, hentry, hrest, hok', hlow⟩ := hr
    rw [hkeys] at hnd hall honce hsub
    have hk : k ∈ s.run.dict.keys := hsub.mem List.mem_cons_self
    obtain ⟨hktail, -⟩ := List.nodup_cons.mp hnd
    have hstep : walkStep type s .next = .ok
        { run := { s.run with dict := { s.run.dict with iterators := 1 } }, it := it'
          returned := s.returned ++ [k], finished := false } := by
      rw [walkStep, hfin, if_neg (by decide), heq]
      simp only [Except.map, if_true, hentry]
      rfl
    refine ⟨_, hstep, hwf, rfl, hlow, fun _ =>
      ⟨hok'.low, hok'.high, hok'.table, hok'.next, hok'.entered, hok'.inside⟩, fun x hx hg => ?_,
      fun x hx hg => ?_⟩
    · change x ∈ s.returned ++ [k] ∨ x ∈ it'.rest s.run.dict
      rw [hrest]
      rcases hall x hx hg with hin | hin
      · exact Or.inl (List.mem_append_left _ hin)
      · rcases List.mem_cons.mp hin with rfl | hin
        · exact Or.inl (List.mem_append_right _ (by simp))
        · exact Or.inr hin
    · change x ∈ s.returned ++ [k] at hx
      rw [List.mem_append, List.mem_singleton] at hx
      change (s.returned ++ [k]).count x ≤ 1 ∧ x ∉ it'.rest s.run.dict ∧ x ∈ s.run.dict.keys
      rw [hrest, List.count_append]
      rcases eq_or_ne x k with rfl | hne
      · -- it was left, so it had not been returned
        have hnot : x ∉ s.returned := fun hin => (honce x hin hg).2.1 List.mem_cons_self
        refine ⟨?_, hktail, hk⟩
        rw [List.count_eq_zero_of_not_mem hnot, List.count_singleton_self]
      · obtain ⟨hcount, hnot, hin⟩ := honce x (hx.resolve_right hne) hg
        refine ⟨?_, fun ht => hnot (List.mem_cons_of_mem _ ht), hin⟩
        rw [List.count_eq_zero_of_not_mem (fun h => hne (List.mem_singleton.mp h))]
        exact hcount
  | false =>
    obtain ⟨hkeys, hlow⟩ := hr
    rw [hkeys] at hall honce
    have hstep : walkStep type s .next = .ok
        { run := { s.run with dict := { s.run.dict with iterators := 1 } }, it := it'
          returned := s.returned, finished := true } := by
      rw [walkStep, hfin, if_neg (by decide), heq]
      simp [Except.map]
    refine ⟨_, hstep, hwf, rfl, hlow, fun hf => by simp at hf, fun x hx hg => ?_, fun x hx hg => ?_⟩
    · exact Or.inl ((hall x hx hg).resolve_right (by simp))
    · obtain ⟨hcount, -, hin⟩ := honce x hx hg
      exact ⟨hcount, by simp [WalkRun.left], hin⟩

theorem begun_next {s : WalkRun K V} {there : List K} {gone : K → Prop}
    (h : s.Begun type kc there gone) :
    ∃ s', walkStep type s .next = .ok s' ∧ s'.Begun type kc there gone := by
  cases hfin : s.finished with
  | true => exact ⟨s, by rw [walkStep, hfin, if_pos rfl], h⟩
  | false =>
    have hleft : s.left = s.it.rest s.run.dict := by
      rw [WalkRun.left, hfin, if_neg (by decide)]
    have hentered := h.entered
    refine begun_step h.wf (h.ok hfin) hfin ?_ (hleft ▸ h.all) (hleft ▸ h.once)
    rw [if_neg (by omega), h.iterators]

/-- The first step. -/
theorem begun_first {run : DictRun K V} (hwf : run.dict.Wf type kc) (gone : K → Prop) :
    ∃ s', walkStep type (WalkRun.start run) .next = .ok s' ∧ s'.Begun type kc run.dict.keys gone := by
  have hwf' : run.dict.resumed.Wf type kc := ⟨hwf.ht0, hwf.idle, hwf.busy, hwf.distinct, rfl⟩
  have hrest : (dictGetSafeIterator : DictIterator K).rest run.dict = run.dict.keys := by
    rw [rest_between rfl, Dict.keys, keysOf_append]
    rfl
  apply begun_step hwf'
  · refine ⟨le_refl _, ?_, Or.inl rfl, fun _ => rfl, fun hne => absurd rfl hne, fun k hk => by cases hk⟩
    exact lt_of_lt_of_le (by decide : (-1 : Int) < 0) (Int.natCast_nonneg _)
  · rfl
  · show run.dict.iterators + (if _ then 1 else 0) = 1
    rw [hwf.iterators, if_pos ⟨rfl, rfl, rfl⟩]
  · intro k hk _
    exact Or.inr (hrest ▸ hk)
  · intro k hk
    cases hk

/-- **A safe iterator is exact.**  On a dict with a table, which stays below
    2^31 buckets, entries may be added, replaced, looked up and deleted
    between its steps, except the one it has saved as the next, and the
    tables expanded.  Nothing faults; a key that no call deletes is returned
    at most once, and by the end each of those that were there at the start
    has been.  Releasing the iterator leaves a dict as every operation
    expects it. -/
theorem safe_iterator_exact (hr : type.Reads kc) (run : DictRun K V) (hwf : run.dict.Wf type kc)
    (events : List (WalkEvent K V))
    (hal : Machine.Along (walkStep type) (fun s ev => s.Allows kc ev ∧ s.Fits type ev) (WalkRun.start run)
      (.next :: events)) :
    ∃ s, Machine.run (walkStep type) (WalkRun.start run) (.next :: events) = .ok s ∧
      (dictReleaseIterator s.run.dict s.it).Wf type kc ∧
      (∀ k ∈ s.returned, ¬ Deleted kc events k →
        s.returned.count k = 1 ∧ ∃ e ∈ s.run.dict.entries, e.key = k) ∧
      (s.finished = true → ∀ e ∈ run.dict.entries, ¬ Deleted kc events e.key →
        e.key ∈ s.returned) := by
  suffices hrun : ∀ (later : List (WalkEvent K V)) (s : WalkRun K V), (∀ ev ∈ later, ev ∈ events) →
      s.Begun type kc run.dict.keys (Deleted kc events) →
      Machine.Along (walkStep type) (fun s ev => s.Allows kc ev ∧ s.Fits type ev) s later →
      ∃ s', Machine.run (walkStep type) s later = .ok s' ∧
        s'.Begun type kc run.dict.keys (Deleted kc events) by
    obtain ⟨s₁, heq, h₁⟩ := begun_first hwf (Deleted kc events)
    obtain ⟨s, hrest, h⟩ := hrun events s₁ (fun _ h => h) h₁ (hal.2 s₁ heq)
    refine ⟨s, by rw [Machine.run_cons_ok heq, hrest], ?_, fun k hk hng => ?_, fun hfin e he hng => ?_⟩
    · have hentered := h.entered
      rw [dictReleaseIterator, if_neg (by omega), h.iterators]
      exact h.wf
    · obtain ⟨hcount, -, hin⟩ := h.once k hk hng
      have hpos := List.count_pos_iff.mpr hk
      rw [Dict.keys_eq] at hin
      exact ⟨by omega, List.mem_map.mp hin⟩
    · have hin : e.key ∈ run.dict.keys := by
        rw [Dict.keys_eq]
        exact List.mem_map_of_mem he
      refine (h.all e.key hin hng).resolve_right fun hleft => ?_
      rw [WalkRun.left, if_pos hfin] at hleft
      cases hleft
  intro later
  induction later with
  | nil => exact fun s _ h _ => ⟨s, rfl, h⟩
  | cons ev later ih =>
    intro s hsub h hal'
    have hstep : ∃ s', walkStep type s ev = .ok s' ∧ s'.Begun type kc run.dict.keys (Deleted kc events) := by
      cases ev with
      | next => exact begun_next h
      | call c =>
        exact begun_call hr h hal'.1.1 fun key k hdel hkc =>
          ⟨c, key, hsub _ List.mem_cons_self, hdel, hkc⟩
    obtain ⟨s₁, heq, h₁⟩ := hstep
    obtain ⟨s', hrest, h'⟩ :=
      ih s₁ (fun ev' hev => hsub ev' (List.mem_cons_of_mem _ hev)) h₁ (hal'.2 s₁ heq)
    exact ⟨s', by rw [Machine.run_cons_ok heq, hrest], h'⟩

/-- Key 1 is deleted once it has been returned; key 17 goes to the bucket of
    key 9, in front of it. -/
def deletingWalk : List (WalkEvent Nat Nat) :=
  [.call (.add 17 170), .call (.delete 1), .next, .next, .next, .call (.replace 9 91), .next, .call .resize,
    .next, .next]

theorem safe_iterator_exact_twoTables :
    ∃ s : WalkRun Nat Nat, Machine.run (walkStep natType)
        (WalkRun.start { (DictRun.start : DictRun Nat Nat) with dict := twoTables }) (.next :: deletingWalk) =
          .ok s ∧
      (dictReleaseIterator s.run.dict s.it).Wf natType id ∧
      s.finished = true ∧ ∀ k ∈ [2, 3, 4, 9], k ∈ s.returned := by
  obtain ⟨s, hrun, hwf, -, hall⟩ := safe_iterator_exact natType_reads
    { (DictRun.start : DictRun Nat Nat) with dict := twoTables } twoTables_wf deletingWalk (by decide +kernel)
  have hfin : (Machine.run (walkStep natType)
      (WalkRun.start { (DictRun.start : DictRun Nat Nat) with dict := twoTables })
      (.next :: deletingWalk)).map WalkRun.finished = .ok true := rfl
  rw [hrun] at hfin
  have hfin : s.finished = true := Except.ok.inj hfin
  refine ⟨s, hrun, hwf, hfin, fun k hk => ?_⟩
  obtain ⟨e, he, rfl⟩ : ∃ e ∈ twoTables.entries, e.key = k := by
    revert k
    decide
  refine hall hfin e he ?_
  -- only key 1 is deleted
  rintro ⟨call, key, hmem, hdel, hkey⟩
  have hone : ∀ ev ∈ deletingWalk, ∀ c, ev = .call c → ∀ key, c.deletes = some key → key = 1 := by
    simp [deletingWalk, DictCall.deletes]
  rw [hone _ hmem call rfl key hdel] at hkey
  rw [show e.key = 1 from hkey] at hk
  exact absurd hk (by decide)

end BoAtom
