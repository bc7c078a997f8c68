import BoAtom.RedisDict.Dict
import Mathlib.Data.List.Perm.Basic
import Mathlib.Data.List.Nodup
import Mathlib.Data.Nat.Bitwise

/-! # The dict is a finite map

    The abstract content of a `Dict` is the collection of the entries of
    both tables.  `Dict.Wf` is the representation invariant: every entry
    lies in the bucket its hash names, no two entries have the same key,
    the counters are right, and the buckets below `rehashidx` are empty.

    Rehashing, at whatever point it stands, only permutes the entries;
    `dictAdd`, `dictFind` and `dictReplace` then act on them as insertion,
    lookup and update of a finite map.  Keys are compared through their
    content `kc`, since the code compares what the pointers point to. -/

namespace BoAtom

variable {K V C : Type}

/-! ## Section 1: Representation invariant -/

/-- The type's functions only look at the content of a key. -/
structure DictType.Reads (type : DictType K) (kc : K → C) : Prop where
  hash : ∀ k k', kc k = kc k' → type.hashFunction k = type.hashFunction k'
  compare : ∀ k k', type.keyCompare k k' = true ↔ kc k = kc k'

def Dictht.entries (ht : Dictht K V) : List (DictEntry K V) := ht.table.flatten

def Dict.entries (d : Dict K V) : List (DictEntry K V) := d.ht0.entries ++ d.ht1.entries

structure Dictht.Wf (type : DictType K) (ht : Dictht K V) : Prop where
  pow : ∃ n, ht.table.length = 2 ^ n
  size : ht.size = ht.table.length
  mask : ht.sizemask = ht.size - 1
  used : ht.used = ht.entries.length
  place : ∀ i b, ht.table[i]? = some b → ∀ e ∈ b, dictIndex type ht e.key = i

structure Dict.Wf (type : DictType K) (kc : K → C) (d : Dict K V) : Prop where
  ht0 : d.ht0.Wf type
  idle : d.rehashidx = none → d.ht1 = dictReset
  busy : ∀ idx, d.rehashidx = some idx → d.ht1.Wf type ∧
    ∀ i b, i < idx → d.ht0.table[i]? = some b → b = []
  distinct : (d.entries.map fun e => kc e.key).Nodup
  iterators : d.iterators = 0

variable {type : DictType K} {kc : K → C}

@[simp] theorem entries_dictReset : (dictReset : Dictht K V).entries = [] := rfl

/-- The hash picks a bucket of the table. -/
theorem dictIndex_lt {ht : Dictht K V} (h : ht.Wf type) (key : K) :
    dictIndex type ht key < ht.table.length := by
  obtain ⟨n, hn⟩ := h.pow
  rw [dictIndex, h.mask, h.size, hn, Nat.and_two_pow_sub_one_eq_mod]
  exact Nat.mod_lt _ (Nat.two_pow_pos n)

theorem Dictht.Wf.bucket {ht : Dictht K V} (h : ht.Wf type) (key : K) :
    ∃ b, ht.table[dictIndex type ht key]? = some b :=
  ⟨_, List.getElem?_eq_getElem (dictIndex_lt h key)⟩

theorem Dictht.Wf.table_ne_nil {ht : Dictht K V} (h : ht.Wf type) : ht.table ≠ [] := by
  obtain ⟨n, hn⟩ := h.pow
  intro hnil
  rw [hnil] at hn
  have := Nat.two_pow_pos n
  simp at hn; omega

/-- The entries split into one bucket and the others. -/
theorem flatten_perm_bucket {α : Type} {t : List (List α)} {i : Nat} {b : List α}
    (h : t[i]? = some b) : t.flatten.Perm (b ++ (t.eraseIdx i).flatten) := by
  obtain ⟨hi, rfl⟩ := List.getElem?_eq_some_iff.mp h
  exact (List.getElem_cons_eraseIdx_perm hi).flatten.symm

theorem flatten_set_perm {α : Type} {t : List (List α)} {i : Nat} (b : List α)
    (hi : i < t.length) : (t.set i b).flatten.Perm (b ++ (t.eraseIdx i).flatten) :=
  (List.set_perm_cons_eraseIdx hi b).flatten

/-- Pushing an entry on the bucket its hash names keeps the table well formed. -/
theorem linkEntry_spec {ht : Dictht K V} (h : ht.Wf type) (e : DictEntry K V) :
    ∃ ht', linkEntry ht (dictIndex type ht e.key) e = .ok ht' ∧ ht'.Wf type ∧
      ht'.entries.Perm (e :: ht.entries) := by
  obtain ⟨b, hb⟩ := h.bucket e.key
  have hlt := dictIndex_lt h e.key
  refine ⟨_, by rw [linkEntry, hb], ?_, ?_⟩
  · have hperm : (ht.table.set (dictIndex type ht e.key) (e :: b)).flatten.Perm
        (e :: ht.table.flatten) :=
      (flatten_set_perm (e :: b) hlt).trans ((flatten_perm_bucket hb).symm.cons e)
    refine ⟨?_, ?_, h.mask, ?_, ?_⟩
    · simpa using h.pow
    · simpa using h.size
    · show ht.used + 1 = (ht.table.set _ _).flatten.length
      rw [hperm.length_eq, List.length_cons, h.used, Dictht.entries]
    · intro i c hc f hf
      change dictIndex type ht f.key = i
      rcases eq_or_ne i (dictIndex type ht e.key) with rfl | hne
      · simp only [List.getElem?_set_self hlt, Option.some.injEq] at hc
        subst hc
        rcases List.mem_cons.mp hf with rfl | hf
        · rfl
        · exact h.place _ b hb f hf
      · rw [List.getElem?_set_ne hne.symm] at hc
        exact h.place i c hc f hf
  · exact (flatten_set_perm (e :: b) hlt).trans ((flatten_perm_bucket hb).symm.cons e)

/-! ## Section 2: Rehashing permutes the entries -/

theorem moveBucket_spec {ht : Dictht K V} (h : ht.Wf type) (es : List (DictEntry K V)) :
    ∃ ht', moveBucket type ht es = .ok ht' ∧ ht'.Wf type ∧ ht'.entries.Perm (es ++ ht.entries) := by
  induction es generalizing ht with
  | nil => exact ⟨ht, rfl, h, List.Perm.refl _⟩
  | cons e es ih =>
    obtain ⟨ht₁, hlink, hwf₁, hperm₁⟩ := linkEntry_spec h e
    obtain ⟨ht₂, hmove, hwf₂, hperm₂⟩ := ih hwf₁
    refine ⟨ht₂, ?_, hwf₂, ?_⟩
    · rw [moveBucket, hlink]; exact hmove
    · calc ht₂.entries.Perm (es ++ ht₁.entries) := hperm₂
        List.Perm _ (es ++ e :: ht.entries) := hperm₁.append_left es
        List.Perm _ (e :: es ++ ht.entries) := List.perm_middle

/-- The scan stops at a bucket with entries, or after visiting only empty
    ones; it cannot run past the end while an entry lies ahead. -/
theorem skipEmpty_spec {table : List (List (DictEntry K V))} :
    ∀ {emptyVisits idx : Nat}, 1 ≤ emptyVisits →
      (∃ j e es, idx ≤ j ∧ table[j]? = some (e :: es)) →
      (∃ idx', skipEmpty table emptyVisits idx = .ok (.exhausted idx') ∧ idx ≤ idx' ∧
        ∀ i, idx ≤ i → i < idx' → table[i]? = some []) ∨
      (∃ idx' ev b, skipEmpty table emptyVisits idx = .ok (.found idx' ev b) ∧ 1 ≤ ev ∧
        idx ≤ idx' ∧ table[idx']? = some b ∧ ∀ i, idx ≤ i → i < idx' → table[i]? = some []) := by
  intro ev
  -- on the visits left; an entry ahead keeps `idx` inside of the table
  induction ev with
  | zero => intro idx h; omega
  | succ n ih =>
    intro idx _ ⟨j, e, es, hij, hj⟩
    have hlt : idx < table.length := by
      have := (List.getElem?_eq_some_iff.mp hj).1
      omega
    rcases hb : table[idx]? with _ | b
    · rw [List.getElem?_eq_none_iff] at hb; omega
    rcases b with _ | ⟨f, fs⟩
    · -- an empty bucket: the entry ahead lies strictly behind it
      have hne : idx ≠ j := by rintro rfl; rw [hb] at hj; simp at hj
      cases n with
      | zero =>
        refine Or.inl ⟨idx + 1, by simp [skipEmpty, hb], by omega, fun i h₁ h₂ => ?_⟩
        rw [show i = idx by omega, hb]
      | succ n =>
        have hstep : skipEmpty table (n + 2) idx = skipEmpty table (n + 1) (idx + 1) := by
          rw [skipEmpty.eq_def]; simp [hb]
        have hext : ∀ {i'}, (∀ i, idx + 1 ≤ i → i < i' → table[i]? = some []) →
            ∀ i, idx ≤ i → i < i' → table[i]? = some [] := by
          intro i' h i h₁ h₂
          rcases Nat.eq_or_lt_of_le h₁ with rfl | h₁
          · exact hb
          · exact h i h₁ h₂
        rw [hstep]
        rcases @ih (idx + 1) (by omega) ⟨j, e, es, by omega, hj⟩ with
          ⟨i', heq, hle, hemp⟩ | ⟨i', ev', b', heq, hev, hle, hb', hemp⟩
        · exact Or.inl ⟨i', heq, by omega, hext hemp⟩
        · exact Or.inr ⟨i', ev', b', heq, hev, by omega, hb', hext hemp⟩
    · refine Or.inr ⟨idx, n + 1, f :: fs, by simp [skipEmpty.eq_def, hb], by omega, le_refl _, hb, ?_⟩
      intro i h₁ h₂; omega

/-- The first table still has an entry at or after `rehashidx`. -/
theorem Dict.Wf.entry_ahead {d : Dict K V} (h : d.Wf type kc) {idx : Nat}
    (hidx : d.rehashidx = some idx) (hused : d.ht0.used ≠ 0) :
    ∃ j e es, idx ≤ j ∧ d.ht0.table[j]? = some (e :: es) := by
  have hne : d.ht0.table.flatten ≠ [] := by
    intro hnil
    apply hused
    rw [h.ht0.used, Dictht.entries, hnil]; rfl
  obtain ⟨e, he⟩ := List.exists_mem_of_ne_nil _ hne
  obtain ⟨b, hb, heb⟩ := List.mem_flatten.mp he
  obtain ⟨j, hj⟩ := List.getElem?_of_mem hb
  rcases b with _ | ⟨f, fs⟩
  · simp at heb
  refine ⟨j, f, fs, ?_, hj⟩
  by_contra hlt
  have := (h.busy idx hidx).2 j _ (by omega) hj
  simp at this

theorem Dict.Wf.perm {d d' : Dict K V} (hperm : d'.entries.Perm d.entries)
    (h : (d.entries.map fun e => kc e.key).Nodup) : (d'.entries.map fun e => kc e.key).Nodup :=
  (hperm.map _).nodup_iff.mpr h

/-- Once the first table is empty the second takes its place. -/
theorem rehashEnd_spec {d : Dict K V} (h : d.Wf type kc) {idx : Nat}
    (hidx : d.rehashidx = some idx) :
    (rehashEnd d).2.Wf type kc ∧ (rehashEnd d).2.entries.Perm d.entries := by
  unfold rehashEnd
  split
  · next hused =>
    have hnil : d.ht0.entries = [] := by
      have := h.ht0.used
      rw [hused] at this
      exact List.eq_nil_of_length_eq_zero this.symm
    have hperm : (d.ht1.entries ++ (dictReset : Dictht K V).entries).Perm d.entries := by
      simp [Dict.entries, hnil]
    refine ⟨⟨(h.busy idx hidx).1, fun _ => rfl, fun i hi => by simp at hi, ?_, h.iterators⟩, hperm⟩
    exact Dict.Wf.perm hperm h.distinct
  · exact ⟨h, List.Perm.refl _⟩

/-- Moving one bucket and clearing it. -/
theorem moved_wf {d : Dict K V} (h : d.Wf type kc) {idx i : Nat} {b : List (DictEntry K V)}
    {ht1 : Dictht K V} (hidx : d.rehashidx = some idx) (hle : idx ≤ i)
    (hb : d.ht0.table[i]? = some b) (hemp : ∀ j, idx ≤ j → j < i → d.ht0.table[j]? = some [])
    (hwf1 : ht1.Wf type) (hperm1 : ht1.entries.Perm (b ++ d.ht1.entries)) :
    let ht0 := { d.ht0 with table := d.ht0.table.set i [], used := d.ht0.used - b.length }
    let d' : Dict K V := { d with ht0 := ht0, ht1 := ht1, rehashidx := some (i + 1) }
    d'.Wf type kc ∧ d'.entries.Perm d.entries := by
  intro ht0 d'
  have hlt : i < d.ht0.table.length := (List.getElem?_eq_some_iff.mp hb).1
  have hout : ht0.entries.Perm (d.ht0.table.eraseIdx i).flatten := flatten_set_perm [] hlt
  have hin : d.ht0.entries.Perm (b ++ (d.ht0.table.eraseIdx i).flatten) := flatten_perm_bucket hb
  have hperm : d'.entries.Perm d.entries := by
    calc (ht0.entries ++ ht1.entries).Perm
          ((d.ht0.table.eraseIdx i).flatten ++ (b ++ d.ht1.entries)) := hout.append hperm1
      List.Perm _ ((d.ht0.table.eraseIdx i).flatten ++ b ++ d.ht1.entries) := by
          rw [List.append_assoc]
      List.Perm _ (b ++ (d.ht0.table.eraseIdx i).flatten ++ d.ht1.entries) :=
          List.perm_append_comm.append_right _
      List.Perm _ (d.ht0.entries ++ d.ht1.entries) := hin.symm.append_right _
  refine ⟨⟨⟨?_, ?_, h.ht0.mask, ?_, ?_⟩, fun hn => by simp [d'] at hn, ?_, ?_, h.iterators⟩, hperm⟩
  · simpa [d', ht0] using h.ht0.pow
  · simpa [d', ht0] using h.ht0.size
  · show d.ht0.used - b.length = ht0.entries.length
    rw [h.ht0.used, hin.length_eq, hout.length_eq, List.length_append]; omega
  · intro j c hc e he
    change dictIndex type d.ht0 e.key = j
    rcases eq_or_ne j i with rfl | hne
    · simp only [d', ht0, List.getElem?_set_self hlt, Option.some.injEq] at hc
      subst hc; simp at he
    · simp only [d', ht0, List.getElem?_set_ne hne.symm] at hc
      exact h.ht0.place j c hc e he
  · intro idx' hidx'
    simp only [d', Option.some.injEq] at hidx'
    subst hidx'
    refine ⟨hwf1, fun j c hj hc => ?_⟩
    -- below `idx` by the invariant, up to `i` by the scan, `i` itself just cleared
    rcases eq_or_ne j i with rfl | hne
    · simp only [d', ht0, List.getElem?_set_self hlt, Option.some.injEq] at hc
      exact hc.symm
    · simp only [d', ht0, List.getElem?_set_ne hne.symm] at hc
      rcases Nat.lt_or_ge j idx with hlo | hhi
      · exact (h.busy idx hidx).2 j c hlo hc
      · rw [hemp j hhi (by omega)] at hc
        exact (Option.some.inj hc).symm
  · exact Dict.Wf.perm hperm h.distinct

theorem rehashLoop_spec : ∀ (n emptyVisits idx : Nat) (d : Dict K V), 1 ≤ emptyVisits →
    d.Wf type kc → d.rehashidx = some idx →
    ∃ r d', rehashLoop type n emptyVisits idx d = .ok (r, d') ∧ d'.Wf type kc ∧
      d'.entries.Perm d.entries := by
  intro n
  induction n with
  | zero =>
    intro ev idx d _ h hidx
    exact ⟨_, _, rfl, rehashEnd_spec h hidx⟩
  | succ n ih =>
    intro ev idx d hev h hidx
    rw [rehashLoop]
    split
    · exact ⟨_, _, rfl, rehashEnd_spec h hidx⟩
    next hused =>
      have hahead := h.entry_ahead hidx hused
      -- the asserted bound: an entry lies at or after `rehashidx`
      have hsize : d.ht0.size > idx := by
        obtain ⟨j, e, es, hij, hj⟩ := hahead
        have := (List.getElem?_eq_some_iff.mp hj).1
        rw [h.ht0.size]; omega
      rw [if_neg (by simpa using hsize)]
      rcases skipEmpty_spec hev hahead with
        ⟨i, heq, hle, hemp⟩ | ⟨i, ev', b, heq, hev', hle, hb, hemp⟩
      · refine ⟨1, { d with rehashidx := some i }, by rw [heq]; rfl, ?_, List.Perm.refl _⟩
        refine ⟨h.ht0, fun hn => by simp at hn, fun idx' hidx' => ?_, h.distinct, h.iterators⟩
        simp only [Option.some.injEq] at hidx'
        subst hidx'
        refine ⟨(h.busy idx hidx).1, fun j c hj hc => ?_⟩
        rcases Nat.lt_or_ge j idx with hlo | hhi
        · exact (h.busy idx hidx).2 j c hlo hc
        · have hc' : d.ht0.table[j]? = some c := hc
          rw [hemp j hhi hj] at hc'
          exact (Option.some.inj hc').symm
      · obtain ⟨ht1, hmove, hwf1, hperm1⟩ := moveBucket_spec (h.busy idx hidx).1 b
        obtain ⟨hwf', hperm'⟩ := moved_wf h hidx hle hb hemp hwf1 hperm1
        obtain ⟨r, d', hloop, hwf'', hperm''⟩ := ih ev' (i + 1) _ hev' hwf' rfl
        refine ⟨r, d', ?_, hwf'', hperm''.trans hperm'⟩
        rw [heq]
        simp only [Except.bind, hmove]
        exact hloop

/-- **A rehashing step is invisible.** -/
theorem dictRehashStep_spec {d : Dict K V} (h : d.Wf type kc) :
    ∃ d', dictRehashStep type d = .ok d' ∧ d'.Wf type kc ∧ d'.entries.Perm d.entries := by
  unfold dictRehashStep
  split
  · next hre =>
    obtain ⟨idx, hidx⟩ := Option.isSome_iff_exists.mp hre.1
    obtain ⟨r, d', heq, hwf, hperm⟩ := rehashLoop_spec 1 (1 * 10) idx d (by omega) h hidx
    exact ⟨d', by simp [dictRehash, hidx, heq, Except.map], hwf, hperm⟩
  · exact ⟨d, rfl, h, List.Perm.refl _⟩

/-! ## Section 3: Expanding -/

theorem nextPowerFrom_spec (size : Nat) : ∀ (fuel i n : Nat), i = 2 ^ n → size ≤ i + fuel →
    ∃ m, nextPowerFrom size fuel i = 2 ^ m ∧ size ≤ 2 ^ m := by
  intro fuel
  induction fuel with
  | zero =>
    intro i n hi hle
    exact ⟨n, hi, by omega⟩
  | succ fuel ih =>
    intro i n hi hle
    rw [nextPowerFrom]
    split
    · next hge => exact ⟨n, hi, by omega⟩
    · have hpos : 0 < i := by rw [hi]; exact Nat.two_pow_pos n
      exact ih (i * 2) (n + 1) (by rw [hi, pow_succ]) (by omega)

/-- The next power of two is one, and it is large enough. -/
theorem dictNextPower_spec (size : Nat) : ∃ m, dictNextPower size = 2 ^ m ∧ size ≤ 2 ^ m :=
  nextPowerFrom_spec size size 4 2 rfl (by omega)

theorem freshTable_wf (m : Nat) :
    ({ table := List.replicate (2 ^ m) [], size := 2 ^ m, sizemask := 2 ^ m - 1, used := 0 } :
      Dictht K V).Wf type := by
  refine ⟨⟨m, by simp⟩, by simp, rfl, by simp [Dictht.entries], fun i b hb e he => ?_⟩
  simp only [List.getElem?_replicate] at hb
  split at hb
  · simp only [Option.some.injEq] at hb
    subst hb; simp at he
  · simp at hb

/-- Expansion never fails here, and it adds no entry. -/
theorem dictExpandIfNeeded_spec {d : Dict K V} (h : d.Wf type kc) :
    ∃ d', dictExpandIfNeeded d = (.ok, d') ∧ d'.Wf type kc ∧ d'.entries = d.entries := by
  have hpos : d.ht0.size ≠ 0 := by
    rw [h.ht0.size]
    exact fun hnil => h.ht0.table_ne_nil (List.eq_nil_of_length_eq_zero hnil)
  unfold dictExpandIfNeeded
  split
  · exact ⟨d, rfl, h, rfl⟩
  next hidle =>
    split
    · next hfull =>
      obtain ⟨m, hm, hsize⟩ := dictNextPower_spec (d.ht0.used * 2)
      have hne : dictNextPower (d.ht0.used * 2) ≠ d.ht0.size := by rw [hm]; omega
      -- none of the checks of `dictExpand` fails: the new size is larger and the table is no first one
      have hnot : ¬ (dictIsRehashing d ∨ d.ht0.used > d.ht0.used * 2) := by
        rintro (hre | hgt)
        · exact hidle hre
        · omega
      have htable : ¬ d.ht0.table.isEmpty := by
        rw [List.isEmpty_iff]
        exact h.ht0.table_ne_nil
      have hnone : d.rehashidx = none := by
        simpa [dictIsRehashing] using hidle
      have hent : ∀ n : Dictht K V, n.entries = [] →
          ({ d with ht1 := n, rehashidx := some 0 } : Dict K V).entries = d.entries := by
        intro n hn
        simp [Dict.entries, hn, h.idle hnone]
      refine ⟨_, by rw [dictExpand, if_neg hnot, if_neg hne, if_neg htable], ?_, ?_⟩
      · rw [hm]
        refine ⟨h.ht0, fun hn => by simp at hn, fun idx hidx => ?_, ?_, h.iterators⟩
        · simp only [Option.some.injEq] at hidx
          subst hidx
          exact ⟨freshTable_wf m, fun i b hi => by omega⟩
        · rw [hent _ (by simp [Dictht.entries])]
          exact h.distinct
      · exact hent _ (by simp [Dictht.entries])
    · exact ⟨d, rfl, h, rfl⟩

/-! ## Section 4: Lookup -/

theorem mem_entries_of_getElem? {ht : Dictht K V} {i pos : Nat} {b : List (DictEntry K V)}
    {e : DictEntry K V} (hb : ht.table[i]? = some b) (he : b[pos]? = some e) : e ∈ ht.entries :=
  List.mem_flatten.mpr ⟨b, List.mem_of_getElem? hb, List.mem_of_getElem? he⟩

/-- While no rehash is running the second table holds nothing. -/
theorem Dict.Wf.ht1_nil {d : Dict K V} (h : d.Wf type kc) (hidle : ¬ dictIsRehashing d) :
    d.ht1.entries = [] := by
  rw [h.idle (by simpa [dictIsRehashing] using hidle)]; rfl

theorem Dict.Wf.ht1_wf {d : Dict K V} (h : d.Wf type kc) (hre : dictIsRehashing d) :
    d.ht1.Wf type := by
  obtain ⟨idx, hidx⟩ := Option.isSome_iff_exists.mp hre
  exact (h.busy idx hidx).1

variable [DecidableEq K]

theorem dictSameKey_iff (hr : type.Reads kc) (k k' : K) :
    dictSameKey type k k' = true ↔ kc k = kc k' := by
  unfold dictSameKey
  rw [Bool.or_eq_true, hr.compare, decide_eq_true_iff]
  exact ⟨fun h => h.elim (fun e => by rw [e]) id, Or.inr⟩

/-- The search of one bucket decides whether the key is in the table. -/
theorem findInTable_spec (hr : type.Reads kc) {ht : Dictht K V} (h : ht.Wf type) (key : K) :
    (findInTable type ht key = .ok none ∧ ∀ e ∈ ht.entries, kc e.key ≠ kc key) ∨
    (∃ pos b e, findInTable type ht key = .ok (some pos) ∧
      ht.table[dictIndex type ht key]? = some b ∧ b[pos]? = some e ∧ kc e.key = kc key) := by
  obtain ⟨b, hb⟩ := h.bucket key
  have heq : findInTable type ht key = .ok (b.findIdx? fun e => dictSameKey type key e.key) := by
    rw [findInTable, hb]
  rcases hfind : b.findIdx? (fun e => dictSameKey type key e.key) with _ | pos
  · refine Or.inl ⟨by rw [heq, hfind], fun e he hkey => ?_⟩
    -- an entry with this content hashes to the searched bucket
    obtain ⟨c, hc, hec⟩ := List.mem_flatten.mp he
    obtain ⟨i, hi⟩ := List.getElem?_of_mem hc
    have hplace := h.place i c hi e hec
    rw [dictIndex, hr.hash _ _ hkey, ← dictIndex] at hplace
    rw [hplace, hi] at hb
    simp only [Option.some.injEq] at hb
    subst hb
    rw [List.findIdx?_eq_none_iff] at hfind
    have := hfind e hec
    rw [(dictSameKey_iff hr key e.key).mpr hkey.symm] at this
    exact absurd this (by simp)
  · obtain ⟨hlt, hsame, -⟩ := List.findIdx?_eq_some_iff_getElem.mp hfind
    refine Or.inr ⟨pos, b, b[pos], by rw [heq, hfind], hb, List.getElem?_eq_getElem hlt, ?_⟩
    exact ((dictSameKey_iff hr _ _).mp hsame).symm

/-- The search through both tables: the second one is looked at only while it
    holds entries. -/
theorem Dict.Wf.search (hr : type.Reads kc) {d : Dict K V} (h : d.Wf type kc) (key : K) :
    (∃ pos b e, findInTable type d.ht0 key = .ok (some pos) ∧
      d.ht0.table[dictIndex type d.ht0 key]? = some b ∧ b[pos]? = some e ∧ e ∈ d.entries ∧
      kc e.key = kc key) ∨
    (findInTable type d.ht0 key = .ok none ∧ dictIsRehashing d ∧
      ∃ pos b e, findInTable type d.ht1 key = .ok (some pos) ∧
        d.ht1.table[dictIndex type d.ht1 key]? = some b ∧ b[pos]? = some e ∧ e ∈ d.entries ∧
        kc e.key = kc key) ∨
    (findInTable type d.ht0 key = .ok none ∧
      (dictIsRehashing d → findInTable type d.ht1 key = .ok none) ∧
      ∀ e ∈ d.entries, kc e.key ≠ kc key) := by
  have hmem : ∀ {e : DictEntry K V}, e ∈ d.entries ↔ e ∈ d.ht0.entries ∨ e ∈ d.ht1.entries := by
    intro e
    rw [Dict.entries, List.mem_append]
  rcases findInTable_spec hr h.ht0 key with ⟨hnone, hno0⟩ | ⟨pos, b, e, hsome, hb, he, hkey⟩
  · by_cases hre : dictIsRehashing d
    · rcases findInTable_spec hr (h.ht1_wf hre) key with
        ⟨hnone1, hno1⟩ | ⟨pos, b, e, hsome, hb, he, hkey⟩
      · refine Or.inr (Or.inr ⟨hnone, fun _ => hnone1, fun e he => ?_⟩)
        rcases hmem.mp he with he | he
        · exact hno0 e he
        · exact hno1 e he
      · exact Or.inr (Or.inl ⟨hnone, hre, pos, b, e, hsome, hb, he,
          hmem.mpr (Or.inr (mem_entries_of_getElem? hb he)), hkey⟩)
    · -- outside of a rehash the second table is empty
      refine Or.inr (Or.inr ⟨hnone, fun hre' => absurd hre' hre, fun e he => ?_⟩)
      rcases hmem.mp he with he | he
      · exact hno0 e he
      · rw [h.ht1_nil hre] at he
        simp at he
  · exact Or.inl ⟨pos, b, e, hsome, hb, he, hmem.mpr (Or.inl (mem_entries_of_getElem? hb he)), hkey⟩

/-- **`dictFind` is lookup.**  It may advance a rehash; the entry it
    returns is the one with the key's content, and it returns NULL only
    when there is none. -/
theorem dictFind_spec (hr : type.Reads kc) {d : Dict K V} (h : d.Wf type kc) (key : K) :
    ∃ r d', dictFind type d key = .ok (r, d') ∧ d'.Wf type kc ∧ d'.entries.Perm d.entries ∧
      match r with
      | none => ∀ e ∈ d.entries, kc e.key ≠ kc key
      | some ref => ∃ e, entryAt d' ref = some e ∧ e ∈ d.entries ∧ kc e.key = kc key := by
  unfold dictFind
  split
  · next hempty =>
    refine ⟨none, d, rfl, h, List.Perm.refl _, fun e he => ?_⟩
    have h0 : d.ht0.entries = [] :=
      List.eq_nil_of_length_eq_zero (by rw [← h.ht0.used]; omega)
    have h1 : d.ht1.entries = [] := by
      by_cases hre : dictIsRehashing d
      · exact List.eq_nil_of_length_eq_zero (by rw [← (h.ht1_wf hre).used]; omega)
      · exact h.ht1_nil hre
    rw [Dict.entries, h0, h1] at he
    simp at he
  · obtain ⟨d', hstep, hwf, hperm⟩ := dictRehashStep_spec h
    rw [hstep]
    simp only [Except.bind]
    rcases hwf.search hr key with ⟨pos, b, e, hsome, hb, he, hin, hkey⟩ |
      ⟨hnone, hre, pos, b, e, hsome, hb, he, hin, hkey⟩ | ⟨hnone, hnone1, hno⟩
    · rw [hsome]
      refine ⟨some ⟨false, _, pos⟩, d', rfl, hwf, hperm, e, ?_, hperm.mem_iff.mp hin, hkey⟩
      simp [entryAt, hb, he]
    · rw [hnone]
      simp only [if_pos hre]
      refine ⟨some ⟨true, _, pos⟩, d', by rw [hsome], hwf, hperm, e, ?_, hperm.mem_iff.mp hin, hkey⟩
      simp [entryAt, hb, he]
    · refine ⟨none, d', ?_, hwf, hperm, fun e he => hno e (hperm.mem_iff.mpr he)⟩
      rw [hnone]
      simp only
      split
      · next hre => rw [hnone1 hre]
      · rfl

/-! ## Section 5: Insertion and update -/

/-- `_dictKeyIndex` gives the bucket for a new key, in the table new keys
    go to, and -1 exactly for a key that is present. -/
theorem dictKeyIndex_spec (hr : type.Reads kc) {d : Dict K V} (h : d.Wf type kc) (key : K) :
    ∃ r d', dictKeyIndex type d key = .ok (r, d') ∧ d'.Wf type kc ∧ d'.entries = d.entries ∧
      match r with
      | none => ∃ e ∈ d.entries, kc e.key = kc key
      | some i => (∀ e ∈ d.entries, kc e.key ≠ kc key) ∧
          i = dictIndex type (if dictIsRehashing d' then d'.ht1 else d'.ht0) key := by
  obtain ⟨d', hexp, hwf, hent⟩ := dictExpandIfNeeded_spec h
  unfold dictKeyIndex
  rw [hexp, ← hent]
  simp only
  rcases hwf.search hr key with ⟨pos, b, e, hsome, hb, he, hin, hkey⟩ |
    ⟨hnone, hre, pos, b, e, hsome, hb, he, hin, hkey⟩ | ⟨hnone, hnone1, hno⟩
  · exact ⟨none, d', by rw [hsome]; rfl, hwf, rfl, e, hin, hkey⟩
  · rw [hnone]
    simp only [Except.bind, if_pos hre]
    exact ⟨none, d', by rw [hsome], hwf, rfl, e, hin, hkey⟩
  · rw [hnone]
    simp only [Except.bind]
    -- the slot is in the table new entries go to
    split
    · next hre =>
      exact ⟨some _, d', by rw [hnone1 hre], hwf, rfl, hno, by rw [if_pos hre]⟩
    · next hidle => exact ⟨some _, d', rfl, hwf, rfl, hno, by rw [if_neg hidle]⟩

omit [DecidableEq K] in
/-- Overwriting the value of the entry at a place of one table. -/
theorem setValIn_spec {ht : Dictht K V} (h : ht.Wf type) {idx pos : Nat}
    {b : List (DictEntry K V)} {e : DictEntry K V} (hb : ht.table[idx]? = some b)
    (he : b[pos]? = some e) (v : V) :
    (setValIn ht idx pos v).Wf type ∧ ∃ rest, ht.entries.Perm (e :: rest) ∧
      (setValIn ht idx pos v).entries.Perm ({ e with val := v } :: rest) := by
  have heq : setValIn ht idx pos v =
      { ht with table := ht.table.set idx (b.set pos { e with val := v }) } := by
    simp [setValIn, hb, he]
  obtain ⟨hidx, -⟩ := List.getElem?_eq_some_iff.mp hb
  obtain ⟨hpos, rfl⟩ := List.getElem?_eq_some_iff.mp he
  have hold : ht.entries.Perm (b[pos] :: (b.eraseIdx pos ++ (ht.table.eraseIdx idx).flatten)) :=
    (flatten_perm_bucket hb).trans
      ((List.getElem_cons_eraseIdx_perm hpos).symm.append_right _)
  have hnew : (setValIn ht idx pos v).entries.Perm
      ({ b[pos] with val := v } :: (b.eraseIdx pos ++ (ht.table.eraseIdx idx).flatten)) := by
    rw [heq]
    exact (flatten_set_perm _ hidx).trans
      ((List.set_perm_cons_eraseIdx hpos _).append_right _)
  refine ⟨⟨?_, ?_, ?_, ?_, ?_⟩, _, hold, hnew⟩
  · rw [heq]; simpa using h.pow
  · rw [heq]; simpa using h.size
  · rw [heq]; exact h.mask
  · rw [hnew.length_eq, List.length_cons, ← List.length_cons (a := b[pos]), ← hold.length_eq, heq]
    exact h.used
  · intro i c hc f hf
    rw [heq] at hc ⊢
    change dictIndex type ht f.key = i
    rcases eq_or_ne i idx with rfl | hne
    · simp only [List.getElem?_set_self hidx, Option.some.injEq] at hc
      subst hc
      -- the bucket keeps its keys
      rcases List.mem_or_eq_of_mem_set hf with hf | rfl
      · exact h.place _ b hb f hf
      · exact h.place _ b hb b[pos] (List.getElem_mem hpos)
    · simp only [List.getElem?_set_ne hne.symm] at hc
      exact h.place i c hc f hf

omit [DecidableEq K] in
theorem dictSetVal_spec {d : Dict K V} (h : d.Wf type kc) {r : EntryRef} {e : DictEntry K V}
    (he : entryAt d r = some e) (v : V) :
    (dictSetVal d r v).Wf type kc ∧ ∃ rest, d.entries.Perm (e :: rest) ∧
      (dictSetVal d r v).entries.Perm ({ e with val := v } :: rest) := by
  obtain ⟨inHt1, idx, pos⟩ := r
  obtain ⟨b, hb, hpos⟩ := Option.bind_eq_some_iff.mp he
  have hdistinct : ∀ {d' : Dict K V} {rest : List (DictEntry K V)}, d.entries.Perm (e :: rest) →
      d'.entries.Perm ({ e with val := v } :: rest) →
      (d'.entries.map fun e => kc e.key).Nodup := by
    intro d' rest hold hnew
    have hsame : ((e :: rest).map fun e => kc e.key) =
        ({ e with val := v } :: rest).map fun e => kc e.key := rfl
    rw [(hnew.map _).nodup_iff, ← hsame, ← (hold.map _).nodup_iff]
    exact h.distinct
  cases inHt1 with
  | false =>
    obtain ⟨hwf, rest, hold, hnew⟩ := setValIn_spec h.ht0 hb hpos v
    have hold' : d.entries.Perm (e :: (rest ++ d.ht1.entries)) := hold.append_right _
    have hnew' : (dictSetVal d ⟨false, idx, pos⟩ v).entries.Perm
        ({ e with val := v } :: (rest ++ d.ht1.entries)) := hnew.append_right _
    refine ⟨⟨hwf, h.idle, ?_, hdistinct hold' hnew', h.iterators⟩, _, hold', hnew'⟩
    intro i hi
    refine ⟨(h.busy i hi).1, fun j c hj hc => ?_⟩
    -- the bucket written to is not empty, so it does not lie below `rehashidx`
    have hne : j ≠ idx := by
      rintro rfl
      have := (h.busy i hi).2 j b hj hb
      rw [this] at hpos
      simp at hpos
    apply (h.busy i hi).2 j c hj
    have hb' : d.ht0.table[idx]? = some b := hb
    simp only [dictSetVal, setValIn, hb', hpos, Bool.false_eq_true, if_false,
      List.getElem?_set_ne hne.symm] at hc
    exact hc
  | true =>
    have hre : ∃ i, d.rehashidx = some i := by
      rcases hidx : d.rehashidx with _ | i
      · rw [if_pos rfl, h.idle hidx] at hb
        simp [dictReset] at hb
      · exact ⟨i, rfl⟩
    obtain ⟨i, hi⟩ := hre
    obtain ⟨hwf, rest, hold, hnew⟩ := setValIn_spec (h.busy i hi).1 hb hpos v
    have hold' : d.entries.Perm (e :: (d.ht0.entries ++ rest)) :=
      (hold.append_left _).trans List.perm_middle
    have hnew' : (dictSetVal d ⟨true, idx, pos⟩ v).entries.Perm
        ({ e with val := v } :: (d.ht0.entries ++ rest)) :=
      (hnew.append_left _).trans List.perm_middle
    refine ⟨⟨h.ht0, fun hn => ?_, fun j hj => ⟨hwf, (h.busy j hj).2⟩, hdistinct hold' hnew',
      h.iterators⟩, _, hold', hnew'⟩
    have : d.rehashidx = none := hn
    rw [hi] at this
    simp at this

/-- Adding an entry to the table new keys go to. -/
theorem dictAddRaw_spec [Inhabited V] (hr : type.Reads kc) {d : Dict K V} (h : d.Wf type kc)
    (key : K) :
    ∃ r d', dictAddRaw type d key = .ok (r, d') ∧ d'.Wf type kc ∧
      match r with
      | none => (∃ e ∈ d.entries, kc e.key = kc key) ∧ d'.entries.Perm d.entries
      | some ref => (∀ e ∈ d.entries, kc e.key ≠ kc key) ∧
          entryAt d' ref = some ⟨key, default⟩ ∧
          d'.entries.Perm (⟨key, default⟩ :: d.entries) := by
  obtain ⟨d₁, hstep, hwf₁, hperm₁⟩ := dictRehashStep_spec h
  obtain ⟨r, d₂, hkey, hwf₂, hent₂, hr₂⟩ := dictKeyIndex_spec hr hwf₁ key
  have hmem : ∀ {e : DictEntry K V}, e ∈ d.entries ↔ e ∈ d₁.entries := hperm₁.mem_iff.symm
  unfold dictAddRaw
  rw [hstep]
  simp only [Except.bind]
  rw [hkey]
  rcases r with _ | i
  · obtain ⟨e, he, hek⟩ := hr₂
    exact ⟨none, d₂, rfl, hwf₂, ⟨e, hmem.mpr he, hek⟩, hent₂ ▸ hperm₁⟩
  obtain ⟨hnew, hi⟩ := hr₂
  have hfresh : ∀ e ∈ d.entries, kc e.key ≠ kc key := fun e he => hnew e (hmem.mp he)
  have hdistinct : ∀ {d' : Dict K V}, d'.entries.Perm (⟨key, default⟩ :: d₂.entries) →
      (d'.entries.map fun e => kc e.key).Nodup ∧
        d'.entries.Perm (⟨key, default⟩ :: d.entries) := by
    intro d' hp
    rw [hent₂] at hp
    refine ⟨?_, hp.trans (hperm₁.cons _)⟩
    rw [(hp.map _).nodup_iff, List.map_cons, List.nodup_cons]
    refine ⟨fun hk => ?_, hwf₁.distinct⟩
    obtain ⟨e, he, hek⟩ := List.mem_map.mp hk
    exact hnew e he hek
  -- what `linkEntry` leaves at the head of the bucket
  have hhead : ∀ {ht ht' : Dictht K V}, linkEntry ht i ⟨key, default⟩ = .ok ht' →
      (ht'.table[i]?).bind (fun b => b[0]?) = some ⟨key, default⟩ := by
    intro ht ht' hlink
    unfold linkEntry at hlink
    split at hlink
    · simp at hlink
    · next b hb =>
      simp only [Except.ok.injEq] at hlink
      subst hlink
      have hlt := (List.getElem?_eq_some_iff.mp hb).1
      simp [hlt]
  simp only
  split
  · next hre =>
    rw [if_pos hre] at hi
    obtain ⟨ht', hlink, hwf', hperm'⟩ := linkEntry_spec (hwf₂.ht1_wf hre) (⟨key, default⟩ : DictEntry K V)
    have hp : ({ d₂ with ht1 := ht' } : Dict K V).entries.Perm (⟨key, default⟩ :: d₂.entries) :=
      (hperm'.append_left _).trans List.perm_middle
    have hlink' : linkEntry d₂.ht1 i ⟨key, default⟩ = .ok ht' := by rw [hi]; exact hlink
    refine ⟨some ⟨true, i, 0⟩, { d₂ with ht1 := ht' }, by rw [hlink'], ?_, hfresh,
      hhead hlink', (hdistinct hp).2⟩
    refine ⟨hwf₂.ht0, fun hn => ?_, fun j hj => ⟨hwf', (hwf₂.busy j hj).2⟩, (hdistinct hp).1,
      hwf₂.iterators⟩
    have hn' : d₂.rehashidx = none := hn
    simp [dictIsRehashing, hn'] at hre
  · next hidle =>
    rw [if_neg hidle] at hi
    obtain ⟨ht', hlink, hwf', hperm'⟩ := linkEntry_spec hwf₂.ht0 (⟨key, default⟩ : DictEntry K V)
    have hp : ({ d₂ with ht0 := ht' } : Dict K V).entries.Perm (⟨key, default⟩ :: d₂.entries) :=
      hperm'.append_right _
    have hlink' : linkEntry d₂.ht0 i ⟨key, default⟩ = .ok ht' := by rw [hi]; exact hlink
    refine ⟨some ⟨false, i, 0⟩, { d₂ with ht0 := ht' }, by rw [hlink'], ?_, hfresh,
      hhead hlink', (hdistinct hp).2⟩
    refine ⟨hwf', hwf₂.idle, fun j hj => ?_, (hdistinct hp).1, hwf₂.iterators⟩
    have hj' : d₂.rehashidx = some j := hj
    simp [dictIsRehashing, hj'] at hidle

/-- **`dictAdd` is insertion of an absent key**, and fails on a present one. -/
theorem dictAdd_spec [Inhabited V] (hr : type.Reads kc) {d : Dict K V} (h : d.Wf type kc)
    (key : K) (val : V) :
    ∃ r d', dictAdd type d key val = .ok (r, d') ∧ d'.Wf type kc ∧
      match r with
      | .err => (∃ e ∈ d.entries, kc e.key = kc key) ∧ d'.entries.Perm d.entries
      | .ok => (∀ e ∈ d.entries, kc e.key ≠ kc key) ∧
          d'.entries.Perm (⟨key, val⟩ :: d.entries) := by
  obtain ⟨r, d₁, hadd, hwf, hr₁⟩ := dictAddRaw_spec hr h key
  unfold dictAdd
  rw [hadd]
  rcases r with _ | ref
  · exact ⟨.err, d₁, rfl, hwf, hr₁⟩
  · obtain ⟨hfresh, hat, hperm⟩ := hr₁
    obtain ⟨hwf', rest, hold, hnew⟩ := dictSetVal_spec hwf hat val
    have hrest : rest.Perm d.entries := List.Perm.cons_inv (hold.symm.trans hperm)
    exact ⟨.ok, dictSetVal d₁ ref val, rfl, hwf', hfresh, hnew.trans (hrest.cons _)⟩

/-- **`dictReplace` of a present key is update**: the entry keeps its own
    key and gets the new value, and the old value is handed back. -/
theorem dictReplace_spec [Inhabited V] (hr : type.Reads kc) {d : Dict K V} (h : d.Wf type kc)
    (key : K) (val : V) {e : DictEntry K V} (he : e ∈ d.entries) (hek : kc e.key = kc key) :
    ∃ d' rest, dictReplace type d key val = .ok (0, some e.val, d') ∧ d'.Wf type kc ∧
      d.entries.Perm (e :: rest) ∧ d'.entries.Perm ({ e with val := val } :: rest) := by
  obtain ⟨r, d₁, hadd, hwf₁, hr₁⟩ := dictAdd_spec hr h key val
  rcases r with _ | _
  · exact absurd hek (hr₁.1 e he)
  obtain ⟨f, d₂, hfind, hwf₂, hperm₂, hf⟩ := dictFind_spec hr hwf₁ key
  have hperm : d₂.entries.Perm d.entries := hperm₂.trans hr₁.2
  rcases f with _ | ref
  · exact absurd hek (hf e (hr₁.2.mem_iff.mpr he))
  obtain ⟨e', hat, he', hek'⟩ := hf
  -- entries with the same key content are the same entry
  have hsame : e' = e := by
    have he₁ : e' ∈ d.entries := hr₁.2.mem_iff.mp he'
    exact List.inj_on_of_nodup_map h.distinct he₁ he (hek'.trans hek.symm)
  subst hsame
  obtain ⟨hwf', rest, hold, hnew⟩ := dictSetVal_spec hwf₂ hat val
  refine ⟨dictSetVal d₂ ref val, rest, ?_, hwf', hperm.symm.trans hold, hnew⟩
  unfold dictReplace
  rw [hadd]
  simp only [Except.bind]
  rw [hfind]
  simp only [hat]

/-! ## Section 6: The dict of a new server, and reading keys elsewhere -/

omit [DecidableEq K] in
/-- `dictExpand` of a dict just created. -/
theorem dictExpand_dictCreate_wf (size : Nat) :
    (dictExpand (dictCreate : Dict K V) size).2.Wf type kc ∧
      (dictExpand (dictCreate : Dict K V) size).2.entries = [] := by
  obtain ⟨m, hm, -⟩ := dictNextPower_spec size
  have hne : dictNextPower size ≠ 0 := by rw [hm]; exact (Nat.two_pow_pos m).ne'
  have heq : (dictExpand (dictCreate : Dict K V) size).2 =
      { (dictCreate : Dict K V) with ht0 :=
        { table := List.replicate (dictNextPower size) [], size := dictNextPower size,
          sizemask := dictNextPower size - 1, used := 0 } } := by
    simp [dictExpand, dictCreate, dictReset, dictIsRehashing, hne]
  rw [heq, hm]
  refine ⟨⟨freshTable_wf m, fun _ => rfl, fun i hi => ?_, ?_, rfl⟩, ?_⟩
  · simp [dictCreate] at hi
  · simp [Dict.entries, Dictht.entries, dictCreate, dictReset]
  · simp [Dict.entries, Dictht.entries, dictCreate, dictReset]

omit [DecidableEq K] in
/-- The invariant looks at a key only through its hash and its content. -/
theorem Dict.Wf.congr {type' : DictType K} {kc' : K → C} {d : Dict K V} (h : d.Wf type kc)
    (hsame : ∀ e ∈ d.entries, type'.hashFunction e.key = type.hashFunction e.key ∧
      kc' e.key = kc e.key) : d.Wf type' kc' := by
  have hplace : ∀ {ht : Dictht K V}, ht.Wf type → (∀ e ∈ ht.entries, e ∈ d.entries) →
      ht.Wf type' := by
    intro ht hwf hsub
    refine ⟨hwf.pow, hwf.size, hwf.mask, hwf.used, fun i b hb e he => ?_⟩
    have hmem : e ∈ ht.entries := List.mem_flatten.mpr ⟨b, List.mem_of_getElem? hb, he⟩
    rw [dictIndex, (hsame e (hsub e hmem)).1]
    exact hwf.place i b hb e he
  refine ⟨hplace h.ht0 fun e he => List.mem_append_left _ he, h.idle, fun idx hidx => ?_, ?_,
    h.iterators⟩
  · exact ⟨hplace (h.busy idx hidx).1 fun e he => List.mem_append_right _ he, (h.busy idx hidx).2⟩
  · have : (d.entries.map fun e => kc' e.key) = d.entries.map fun e => kc e.key :=
      List.map_congr_left fun e he => (hsame e he).2
    rw [this]
    exact h.distinct

end BoAtom
