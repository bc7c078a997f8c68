import BoAtom.Lib.Machine
import BoAtom.RedisDict.DictMap

/-! # redis_dict/dict.c, the rest of its interface

    Removal, emptying, resizing and the timed rehash, over the same `Dict`,
    with one spec lemma for each: what it does to the entries, and that it
    keeps `Dict.Wf`. -/

namespace BoAtom

variable {K V C : Type}

/-! ## Section 1: The functions -/

def dictSize (d : Dict K V) : Nat := d.ht0.used + d.ht1.used

def dictResize (d : Dict K V) : DictStatus × Dict K V :=
  if ¬ dictCanResize ∨ dictIsRehashing d then (.err, d)
  else
    let minimal := if d.ht0.used < dictHtInitialSize then dictHtInitialSize else d.ht0.used
    dictExpand d minimal

/-- `prevHe->next = he->next`, or the head of the bucket; `ht->used--`. -/
def unlinkEntry (ht : Dictht K V) (idx pos : Nat) : Dictht K V :=
  match ht.table[idx]? with
  | none => ht
  | some b => { ht with table := ht.table.set idx (b.eraseIdx pos), used := ht.used - 1 }

/-- The rounds of `_dictClear` that are left, from bucket `size - rounds` on:
    `for (; i < ht->size && ht->used > 0; i++)`.  The entries are freed in
    the order of the result. -/
def clearFrom (ht : Dictht K V) : Nat → Nat → Except Fault (List (DictEntry K V))
  | 0, _ => .ok []
  | rounds + 1, used =>
    if used = 0 then .ok []
    else
      match ht.table[ht.size - (rounds + 1)]? with
      | none => .error .overrun
      | some b => (clearFrom ht rounds (used - b.length)).map (b ++ ·)

/-- `_dictClear`. -/
def dictClear (ht : Dictht K V) : Except Fault (List (DictEntry K V) × Dictht K V) :=
  (clearFrom ht ht.size ht.used).map fun freed => (freed, dictReset)

/-- `dictEmpty`, with the entries whose keys and values it frees. -/
def dictEmpty (d : Dict K V) : Except Fault (List (DictEntry K V) × Dict K V) :=
  (dictClear d.ht0).bind fun r0 =>
    (dictClear d.ht1).bind fun r1 =>
      .ok (r0.1 ++ r1.1, { ht0 := r0.2, ht1 := r1.2, rehashidx := none, iterators := 0 })

/-- `dictRelease`; the dict is gone, only what it frees is left. -/
def dictRelease (d : Dict K V) : Except Fault (List (DictEntry K V)) :=
  (dictClear d.ht0).bind fun r0 => (dictClear d.ht1).bind fun r1 => .ok (r0.1 ++ r1.1)

variable (type : DictType K) [DecidableEq K]

/-- `dictGenericDelete`.  The second result is the entry whose key and value
    are passed to the destructors, which `nofree` leaves to the caller. -/
def dictGenericDelete (d : Dict K V) (key : K) (nofree : Bool) :
    Except Fault (DictStatus × Option (DictEntry K V) × Dict K V) :=
  if d.ht0.size = 0 then .ok (.err, none, d)
  else
    (dictRehashStep type d).bind fun d =>
      (findInTable type d.ht0 key).bind fun
        | some pos =>
          let idx := dictIndex type d.ht0 key
          let freed := if nofree then none else entryAt d ⟨false, idx, pos⟩
          .ok (.ok, freed, { d with ht0 := unlinkEntry d.ht0 idx pos })
        | none =>
          if dictIsRehashing d then
            (findInTable type d.ht1 key).bind fun
              | some pos =>
                let idx := dictIndex type d.ht1 key
                let freed := if nofree then none else entryAt d ⟨true, idx, pos⟩
                .ok (.ok, freed, { d with ht1 := unlinkEntry d.ht1 idx pos })
              | none => .ok (.err, none, d)
          else .ok (.err, none, d)

def dictDelete (d : Dict K V) (key : K) :
    Except Fault (DictStatus × Option (DictEntry K V) × Dict K V) :=
  dictGenericDelete type d key false

def dictDeleteNoFree (d : Dict K V) (key : K) :
    Except Fault (DictStatus × Option (DictEntry K V) × Dict K V) :=
  dictGenericDelete type d key true

def dictFetchValue (d : Dict K V) (key : K) : Except Fault (Option V × Dict K V) :=
  (dictFind type d key).bind fun
    | (none, d) => .ok (none, d)
    | (some he, d) =>
      match entryAt d he with
      | none => .error .nullDeref
      | some e => .ok (some e.val, d)

def dictReplaceRaw [Inhabited V] (d : Dict K V) (key : K) :
    Except Fault (Option EntryRef × Dict K V) :=
  (dictFind type d key).bind fun
    | (some entry, d) => .ok (some entry, d)
    | (none, d) => dictAddRaw type d key

omit [DecidableEq K] in
/-- The rounds of `dictRehashMilliseconds`; `clock i` is the `i`-th reading
    of the time, the one at the start included. -/
def rehashMsLoop (ms : Int) (clock : Nat → Int) :
    Nat → Nat → Dict K V → Except Fault (Int × Dict K V)
  | 0, _, _ => .error .diverge
  | fuel + 1, round, d =>
    (dictRehash type d 100).bind fun r =>
      if r.1 = 0 then .ok (100 * (round : Int), r.2)
      else if clock (round + 1) - clock 0 > ms then .ok (100 * ((round : Int) + 1), r.2)
      else rehashMsLoop ms clock fuel (round + 1) r.2

omit [DecidableEq K] in
/-- A round moves `rehashidx` on, so `size` of them are enough. -/
def dictRehashMilliseconds (d : Dict K V) (ms : Int) (clock : Nat → Int) :
    Except Fault (Int × Dict K V) :=
  rehashMsLoop type ms clock (d.ht0.size + 1) 0 d

/-! ## Section 2: Expanding and rehashing keep the entries -/

variable {type} {kc : K → C}

omit [DecidableEq K]

theorem Dict.Wf.idle_none {d : Dict K V} (hidle : ¬ dictIsRehashing d) : d.rehashidx = none := by
  simpa [dictIsRehashing] using hidle

/-- A table the second one is set to when a rehash begins. -/
theorem Dict.Wf.begin_rehash {d : Dict K V} (h : d.Wf type kc) (hidle : ¬ dictIsRehashing d)
    (m : Nat) :
    ({ d with
        ht1 := { table := List.replicate (2 ^ m) [], size := 2 ^ m, sizemask := 2 ^ m - 1, used := 0 },
        rehashidx := some 0 } : Dict K V).Wf type kc := by
  refine ⟨h.ht0, fun hn => by simp at hn, fun idx hidx => ?_, ?_, h.iterators⟩
  · simp only [Option.some.injEq] at hidx
    subst hidx
    exact ⟨freshTable_wf m, fun i b hi => by omega⟩
  · have hold := h.distinct
    simpa [Dict.entries, Dictht.entries, h.idle (Dict.Wf.idle_none hidle), dictReset] using hold

/-- `dictExpand` may refuse; otherwise it only starts a rehash. -/
theorem dictExpand_spec {d : Dict K V} (h : d.Wf type kc) (size : Nat) :
    ∃ r d', dictExpand d size = (r, d') ∧ d'.Wf type kc ∧ d'.entries = d.entries := by
  unfold dictExpand
  simp only
  split
  · exact ⟨_, _, rfl, h, rfl⟩
  next hcan =>
    split
    · exact ⟨_, _, rfl, h, rfl⟩
    · have hidle : ¬ dictIsRehashing d := fun hre => hcan (Or.inl hre)
      have htable : ¬ d.ht0.table.isEmpty := by
        rw [List.isEmpty_iff]
        exact h.ht0.table_ne_nil
      obtain ⟨m, hm, -⟩ := dictNextPower_spec size
      rw [if_neg htable, hm]
      refine ⟨_, _, rfl, h.begin_rehash hidle m, ?_⟩
      simp [Dict.entries, Dictht.entries, h.idle (Dict.Wf.idle_none hidle), dictReset]

theorem dictRehash_spec {d : Dict K V} (h : d.Wf type kc) (n : Nat) :
    ∃ r d', dictRehash type d n = .ok (r, d') ∧ d'.Wf type kc ∧ d'.entries.Perm d.entries := by
  unfold dictRehash
  rcases hidx : d.rehashidx with _ | idx
  · exact ⟨_, _, rfl, h, List.Perm.refl _⟩
  · rcases n with _ | n
    · exact ⟨_, _, rfl, rehashEnd_spec h hidx⟩
    · exact rehashLoop_spec (n + 1) ((n + 1) * 10) idx d (by omega) h hidx

/-! ## Section 3: Rehashing ends -/

/-- The buckets of the old table that a running rehash has not passed. -/
def Dict.toMove (d : Dict K V) : Nat :=
  match d.rehashidx with
  | none => 0
  | some idx => d.ht0.size - idx

/-- The size of the table new keys go to. -/
def Dict.target (d : Dict K V) : Nat := if dictIsRehashing d then d.ht1.size else d.ht0.size

@[simp] theorem Dict.toMove_idle {d : Dict K V} (h : d.rehashidx = none) : d.toMove = 0 := by
  simp [Dict.toMove, h]

@[simp] theorem Dict.toMove_at {d : Dict K V} {idx : Nat} (h : d.rehashidx = some idx) :
    d.toMove = d.ht0.size - idx := by
  simp [Dict.toMove, h]

theorem Dict.target_idle {d : Dict K V} (h : d.rehashidx = none) : d.target = d.ht0.size := by
  simp [Dict.target, dictIsRehashing, h]

theorem Dict.target_at {d : Dict K V} {idx : Nat} (h : d.rehashidx = some idx) :
    d.target = d.ht1.size := by
  simp [Dict.target, dictIsRehashing, h]

theorem linkEntry_size {ht ht' : Dictht K V} {i : Nat} {e : DictEntry K V}
    (h : linkEntry ht i e = .ok ht') : ht'.size = ht.size := by
  unfold linkEntry at h
  split at h
  · simp at h
  · simp only [Except.ok.injEq] at h
    rw [← h]

theorem moveBucket_size {es : List (DictEntry K V)} :
    ∀ {ht ht' : Dictht K V}, moveBucket type ht es = .ok ht' → ht'.size = ht.size := by
  induction es with
  | nil =>
    intro ht ht' h
    simp only [moveBucket, Except.ok.injEq] at h
    rw [h]
  | cons e es ih =>
    intro ht ht' h
    obtain ⟨ht₁, hlink, hrest⟩ := Machine.ok_of_bind h
    rw [ih hrest, linkEntry_size hlink]

/-- A scan that gives up has visited a bucket. -/
theorem skipEmpty_exhausted_lt {table : List (List (DictEntry K V))} :
    ∀ {emptyVisits idx i : Nat}, skipEmpty table emptyVisits idx = .ok (.exhausted i) → idx < i := by
  intro ev
  induction ev with
  | zero =>
    intro idx i h
    rw [skipEmpty.eq_def] at h
    rcases hb : table[idx]? with _ | (_ | ⟨e, es⟩) <;> simp [hb] at h
  | succ n ih =>
    intro idx i h
    rw [skipEmpty.eq_def] at h
    rcases hb : table[idx]? with _ | (_ | ⟨e, es⟩) <;> simp only [hb] at h
    · cases h
    · rcases n with _ | n
      · simp only [Except.ok.injEq, Skip.exhausted.injEq] at h
        omega
      · have := ih h
        omega
    · cases h

/-- What a rehash leaves behind: it is over, or it has gone on. -/
theorem rehashEnd_moved {d : Dict K V} {idx : Nat} (hidx : d.rehashidx = some idx) :
    (rehashEnd d).2.target = d.target ∧ ((rehashEnd d).1 = 0 ↔ (rehashEnd d).2.rehashidx = none) ∧
      (rehashEnd d).2.toMove ≤ d.toMove := by
  unfold rehashEnd
  split
  · refine ⟨?_, by simp, by simp [Dict.toMove]⟩
    rw [Dict.target_at hidx, Dict.target_idle rfl]
  · exact ⟨rfl, by simp [hidx], le_refl _⟩

/-- A rehash that goes on is still about the same table. -/
theorem rehashEnd_size {d : Dict K V} (hne : (rehashEnd d).2.rehashidx ≠ none) :
    (rehashEnd d).2.ht0.size = d.ht0.size := by
  unfold rehashEnd at hne ⊢
  split at hne
  · exact absurd rfl hne
  · next hused => rw [if_neg hused]

theorem rehashLoop_moved : ∀ (n emptyVisits idx : Nat) (d : Dict K V), 1 ≤ emptyVisits →
    d.Wf type kc → d.rehashidx = some idx →
    ∃ r d', rehashLoop type n emptyVisits idx d = .ok (r, d') ∧ d'.target = d.target ∧
      (r = 0 ↔ d'.rehashidx = none) ∧ d'.toMove ≤ d.toMove ∧
      (0 < n → d'.rehashidx ≠ none → d'.toMove < d.toMove) ∧
      (d'.rehashidx ≠ none → d'.ht0.size = d.ht0.size) := by
  intro n
  induction n with
  | zero =>
    intro ev idx d _ h hidx
    obtain ⟨htarget, hzero, hmove⟩ := rehashEnd_moved hidx
    exact ⟨_, _, rfl, htarget, hzero, hmove, fun hn => absurd hn (lt_irrefl 0), rehashEnd_size⟩
  | succ n ih =>
    intro ev idx d hev h hidx
    rw [rehashLoop]
    split
    · next hused =>
      obtain ⟨htarget, hzero, hmove⟩ := rehashEnd_moved hidx
      have hover : (rehashEnd d).2.rehashidx = none := by
        simp [rehashEnd, hused]
      exact ⟨_, _, rfl, htarget, hzero, hmove, fun _ hne => absurd hover hne, rehashEnd_size⟩
    next hused =>
      have hahead := h.entry_ahead hidx hused
      have hsize : d.ht0.size > idx := by
        obtain ⟨j, e, es, hij, hj⟩ := hahead
        have := (List.getElem?_eq_some_iff.mp hj).1
        rw [h.ht0.size]; omega
      rw [if_neg (by simpa using hsize)]
      rcases skipEmpty_spec hev hahead with
        ⟨i, heq, hle, hemp⟩ | ⟨i, ev', b, heq, hev', hle, hb, hemp⟩
      · -- only empty buckets were visited, at least the first one
        have hlt := skipEmpty_exhausted_lt heq
        refine ⟨1, { d with rehashidx := some i }, by rw [heq]; rfl, ?_, by simp, ?_, fun _ _ => ?_,
          fun _ => rfl⟩
        · rw [Dict.target_at hidx, Dict.target_at rfl]
        · rw [Dict.toMove_at hidx, Dict.toMove_at rfl]
          exact Nat.sub_le_sub_left hle _
        · rw [Dict.toMove_at hidx, Dict.toMove_at rfl]
          simp only
          omega
      · obtain ⟨ht1, hmove, hwf1, hperm1⟩ := moveBucket_spec (h.busy idx hidx).1 b
        obtain ⟨hwf', hperm'⟩ := moved_wf h hidx hle hb hemp hwf1 hperm1
        obtain ⟨r, d', hloop, htarget, hzero, hto, -, hsame⟩ := ih ev' (i + 1) _ hev' hwf' rfl
        have hbound : i < d.ht0.size := by
          rw [h.ht0.size]
          exact (List.getElem?_eq_some_iff.mp hb).1
        have hto' : d'.toMove ≤ d.ht0.size - (i + 1) := hto
        refine ⟨r, d', ?_, ?_, hzero, ?_, fun _ _ => ?_, hsame⟩
        · rw [heq]
          simp only [Except.bind, hmove]
          exact hloop
        · rw [htarget, Dict.target_at rfl, Dict.target_at hidx]
          exact moveBucket_size hmove
        · rw [Dict.toMove_at hidx]; omega
        · rw [Dict.toMove_at hidx]; omega

theorem dictRehash_moved {d : Dict K V} (h : d.Wf type kc) {n : Nat} (hn : 0 < n) :
    ∃ r d', dictRehash type d n = .ok (r, d') ∧ d'.target = d.target ∧
      (r = 0 ↔ d'.rehashidx = none) ∧ (d'.rehashidx ≠ none → d'.toMove < d.toMove) ∧
      (d'.rehashidx ≠ none → d'.ht0.size = d.ht0.size) := by
  unfold dictRehash
  rcases hidx : d.rehashidx with _ | idx
  · exact ⟨0, d, rfl, rfl, by simp [hidx], fun hne => absurd hidx hne, fun _ => rfl⟩
  · obtain ⟨r, d', heq, htarget, hzero, -, hlt, hsame⟩ :=
      rehashLoop_moved n (n * 10) idx d (by omega) h hidx
    exact ⟨r, d', heq, htarget, hzero, hlt hn, hsame⟩

/-- A return within the time given leaves no rehash running. -/
theorem rehashMsLoop_spec (ms : Int) (clock : Nat → Int) :
    ∀ (fuel round : Nat) (d : Dict K V), d.Wf type kc → d.toMove < fuel →
      ∃ r d', rehashMsLoop type ms clock fuel round d = .ok (r, d') ∧ d'.Wf type kc ∧
        d'.entries.Perm d.entries ∧
        (d'.rehashidx = none ∨ ∃ i, round ≤ i ∧ clock (i + 1) - clock 0 > ms) := by
  intro fuel
  induction fuel with
  | zero => intro round d _ hlt; omega
  | succ fuel ih =>
    intro round d h hlt
    obtain ⟨r, d₁, heq, hwf, hperm⟩ := dictRehash_spec h 100
    obtain ⟨r', d₁', heq', -, hzero, hmove, -⟩ := dictRehash_moved h (Nat.succ_pos 99)
    obtain ⟨rfl, rfl⟩ := Prod.mk.inj (Except.ok.inj (heq.symm.trans heq'))
    unfold rehashMsLoop
    rw [heq]
    simp only [Except.bind]
    split
    · next hr => exact ⟨_, d₁, rfl, hwf, hperm, Or.inl (hzero.mp hr)⟩
    next hr =>
      split
      · next hlate => exact ⟨_, d₁, rfl, hwf, hperm, Or.inr ⟨round, le_refl _, hlate⟩⟩
      · -- 100 rounds have moved `rehashidx` on
        have hlt₁ := hmove fun hn => hr (hzero.mpr hn)
        obtain ⟨r₂, d₂, heq₂, hwf₂, hperm₂, hend⟩ := ih (round + 1) d₁ hwf (by omega)
        refine ⟨r₂, d₂, heq₂, hwf₂, hperm₂.trans hperm, hend.imp_right ?_⟩
        rintro ⟨i, hi, hlate⟩
        exact ⟨i, by omega, hlate⟩

theorem Dict.toMove_le (d : Dict K V) : d.toMove ≤ d.ht0.size := by
  unfold Dict.toMove
  split
  · exact Nat.zero_le _
  · exact Nat.sub_le _ _

/-- **The timed rehash ends**: with every entry kept, and over unless the
    clock has run past the limit. -/
theorem dictRehashMilliseconds_spec {d : Dict K V} (h : d.Wf type kc) (ms : Int)
    (clock : Nat → Int) :
    ∃ r d', dictRehashMilliseconds type d ms clock = .ok (r, d') ∧ d'.Wf type kc ∧
      d'.entries.Perm d.entries ∧
      (d'.rehashidx = none ∨ ∃ i, clock (i + 1) - clock 0 > ms) := by
  obtain ⟨r, d', heq, hwf, hperm, hend⟩ :=
    rehashMsLoop_spec ms clock (d.ht0.size + 1) 0 d h (Nat.lt_succ_of_le d.toMove_le)
  exact ⟨r, d', heq, hwf, hperm, hend.imp_right fun ⟨i, _, hlate⟩ => ⟨i, hlate⟩⟩

/-! ## Section 4: Removing -/

/-- Unlinking the entry at a place of one table. -/
theorem unlinkEntry_spec {ht : Dictht K V} (h : ht.Wf type) {idx pos : Nat}
    {b : List (DictEntry K V)} {e : DictEntry K V} (hb : ht.table[idx]? = some b)
    (he : b[pos]? = some e) :
    (unlinkEntry ht idx pos).Wf type ∧ ht.entries.Perm (e :: (unlinkEntry ht idx pos).entries) := by
  have heq : unlinkEntry ht idx pos =
      { ht with table := ht.table.set idx (b.eraseIdx pos), used := ht.used - 1 } := by
    simp [unlinkEntry, hb]
  obtain ⟨hidx, -⟩ := List.getElem?_eq_some_iff.mp hb
  obtain ⟨hpos, rfl⟩ := List.getElem?_eq_some_iff.mp he
  have hperm : ht.entries.Perm (b[pos] :: (unlinkEntry ht idx pos).entries) := by
    rw [heq]
    calc ht.entries.Perm (b ++ (ht.table.eraseIdx idx).flatten) := flatten_perm_bucket hb
      List.Perm _ (b[pos] :: (b.eraseIdx pos ++ (ht.table.eraseIdx idx).flatten)) :=
        (List.getElem_cons_eraseIdx_perm hpos).symm.append_right _
      List.Perm _ (b[pos] :: (ht.table.set idx (b.eraseIdx pos)).flatten) :=
        (flatten_set_perm _ hidx).symm.cons _
  refine ⟨⟨?_, ?_, ?_, ?_, ?_⟩, hperm⟩
  · rw [heq]; simpa using h.pow
  · rw [heq]; simpa using h.size
  · rw [heq]; exact h.mask
  · have hlen := hperm.length_eq
    rw [List.length_cons, ← h.used] at hlen
    rw [heq] at hlen ⊢
    simp only at hlen ⊢
    omega
  · intro i c hc f hf
    rw [heq] at hc ⊢
    change dictIndex type ht f.key = i
    rcases eq_or_ne i idx with rfl | hne
    · simp only [List.getElem?_set_self hidx, Option.some.injEq] at hc
      subst hc
      exact h.place _ b hb f (List.mem_of_mem_eraseIdx hf)
    · simp only [List.getElem?_set_ne hne.symm] at hc
      exact h.place i c hc f hf

theorem Dict.Wf.distinct_rest {d d' : Dict K V} (h : d.Wf type kc) {e : DictEntry K V}
    (hperm : d.entries.Perm (e :: d'.entries)) :
    (d'.entries.map fun e => kc e.key).Nodup := by
  have := (hperm.map fun e => kc e.key).nodup_iff.mp h.distinct
  exact (List.nodup_cons.mp this).2

theorem Dict.Wf.unlink0 {d : Dict K V} (h : d.Wf type kc) {idx pos : Nat}
    {b : List (DictEntry K V)} {e : DictEntry K V} (hb : d.ht0.table[idx]? = some b)
    (he : b[pos]? = some e) :
    ({ d with ht0 := unlinkEntry d.ht0 idx pos } : Dict K V).Wf type kc ∧
      d.entries.Perm (e :: ({ d with ht0 := unlinkEntry d.ht0 idx pos } : Dict K V).entries) := by
  obtain ⟨hwf, hperm⟩ := unlinkEntry_spec h.ht0 hb he
  have hall : d.entries.Perm
      (e :: ({ d with ht0 := unlinkEntry d.ht0 idx pos } : Dict K V).entries) :=
    hperm.append_right _
  refine ⟨⟨hwf, h.idle, fun i hi => ⟨(h.busy i hi).1, fun j c hj hc => ?_⟩,
    h.distinct_rest hall, h.iterators⟩, hall⟩
  -- the bucket unlinked from is not empty, so it does not lie below `rehashidx`
  have hne : j ≠ idx := by
    rintro rfl
    rw [(h.busy i hi).2 j b hj hb] at he
    simp at he
  apply (h.busy i hi).2 j c hj
  simpa [unlinkEntry, hb, List.getElem?_set_ne hne.symm] using hc

theorem Dict.Wf.unlink1 {d : Dict K V} (h : d.Wf type kc) (hre : dictIsRehashing d)
    {idx pos : Nat} {b : List (DictEntry K V)} {e : DictEntry K V}
    (hb : d.ht1.table[idx]? = some b) (he : b[pos]? = some e) :
    ({ d with ht1 := unlinkEntry d.ht1 idx pos } : Dict K V).Wf type kc ∧
      d.entries.Perm (e :: ({ d with ht1 := unlinkEntry d.ht1 idx pos } : Dict K V).entries) := by
  obtain ⟨hwf, hperm⟩ := unlinkEntry_spec (h.ht1_wf hre) hb he
  have hall : d.entries.Perm
      (e :: ({ d with ht1 := unlinkEntry d.ht1 idx pos } : Dict K V).entries) :=
    (hperm.append_left _).trans List.perm_middle
  refine ⟨⟨h.ht0, fun hn => ?_, fun i hi => ⟨hwf, (h.busy i hi).2⟩, h.distinct_rest hall,
    h.iterators⟩, hall⟩
  have hn' : d.rehashidx = none := hn
  simp [dictIsRehashing, hn'] at hre

variable [DecidableEq K]

/-- **Removal.**  The one entry with the key's content is unlinked and its
    key and value are freed, or no entry has that content. -/
theorem dictGenericDelete_spec (hr : type.Reads kc) {d : Dict K V} (h : d.Wf type kc) (key : K)
    (nofree : Bool) :
    ∃ r freed d', dictGenericDelete type d key nofree = .ok (r, freed, d') ∧ d'.Wf type kc ∧
      match r with
      | .err => freed = none ∧ (∀ e ∈ d.entries, kc e.key ≠ kc key) ∧ d'.entries.Perm d.entries
      | .ok => ∃ e, kc e.key = kc key ∧ freed = (if nofree then none else some e) ∧
          d.entries.Perm (e :: d'.entries) := by
  have hsize : d.ht0.size ≠ 0 := by
    rw [h.ht0.size]
    exact fun hnil => h.ht0.table_ne_nil (List.eq_nil_of_length_eq_zero hnil)
  obtain ⟨d₁, hstep, hwf, hperm⟩ := dictRehashStep_spec h
  unfold dictGenericDelete
  rw [if_neg hsize, hstep]
  simp only [Except.bind]
  rcases hwf.search hr key with ⟨pos, b, e, hsome, hb, he, hin, hkey⟩ |
    ⟨hnone, hre, pos, b, e, hsome, hb, he, hin, hkey⟩ | ⟨hnone, hnone1, hno⟩
  · rw [hsome]
    obtain ⟨hwf', hall⟩ := hwf.unlink0 hb he
    refine ⟨.ok, _, _, rfl, hwf', e, hkey, ?_, hperm.symm.trans hall⟩
    simp [entryAt, hb, he]
  · rw [hnone]
    simp only [if_pos hre]
    obtain ⟨hwf', hall⟩ := hwf.unlink1 hre hb he
    refine ⟨.ok, _, _, by rw [hsome], hwf', e, hkey, ?_, hperm.symm.trans hall⟩
    simp [entryAt, hb, he]
  · refine ⟨.err, none, d₁, ?_, hwf, rfl, fun e he => hno e (hperm.mem_iff.mpr he), hperm⟩
    rw [hnone]
    simp only
    split
    · next hre => rw [hnone1 hre]
    · rfl

/-! ## Section 5: Finding or adding -/

/-- `dictReplaceRaw` always gives an entry with the key's content. -/
theorem dictReplaceRaw_spec [Inhabited V] (hr : type.Reads kc) {d : Dict K V} (h : d.Wf type kc)
    (key : K) :
    ∃ ref d', dictReplaceRaw type d key = .ok (some ref, d') ∧ d'.Wf type kc ∧
      ((∃ e, entryAt d' ref = some e ∧ e ∈ d.entries ∧ kc e.key = kc key ∧
          d'.entries.Perm d.entries) ∨
        ((∀ e ∈ d.entries, kc e.key ≠ kc key) ∧ entryAt d' ref = some ⟨key, default⟩ ∧
          d'.entries.Perm (⟨key, default⟩ :: d.entries))) := by
  obtain ⟨r, d₁, hfind, hwf, hperm, hr'⟩ := dictFind_spec hr h key
  unfold dictReplaceRaw
  rw [hfind]
  rcases r with _ | ref
  · obtain ⟨r, d₂, hadd, hwf₂, hr₂⟩ := dictAddRaw_spec hr hwf key
    rcases r with _ | ref
    · obtain ⟨⟨e, he, hkey⟩, -⟩ := hr₂
      exact absurd hkey (hr' e (hperm.mem_iff.mp he))
    · obtain ⟨-, hat, hperm₂⟩ := hr₂
      exact ⟨ref, d₂, hadd, hwf₂, Or.inr ⟨hr', hat, hperm₂.trans (hperm.cons _)⟩⟩
  · obtain ⟨e, hat, he, hkey⟩ := hr'
    exact ⟨ref, d₁, rfl, hwf, Or.inl ⟨e, hat, he, hkey, hperm⟩⟩

/-! ## Section 6: Emptying -/

omit [DecidableEq K] in
/-- From bucket `i` on, clearing frees the entries of the buckets left, in
    their order; the early exit skips empty buckets only. -/
theorem clearFrom_spec {ht : Dictht K V} (hsize : ht.size = ht.table.length) :
    ∀ (rounds : Nat), rounds ≤ ht.size →
      clearFrom ht rounds ((ht.table.drop (ht.size - rounds)).flatten.length) =
        .ok (ht.table.drop (ht.size - rounds)).flatten := by
  intro rounds
  induction rounds with
  | zero =>
    intro _
    simp [clearFrom, hsize]
  | succ rounds ih =>
    intro hle
    have hlt : ht.size - (rounds + 1) < ht.table.length := by omega
    have hdrop : ht.table.drop (ht.size - (rounds + 1)) =
        ht.table[ht.size - (rounds + 1)] :: ht.table.drop (ht.size - rounds) := by
      rw [List.drop_eq_getElem_cons hlt]
      congr 2
      omega
    rw [hdrop, List.flatten_cons, List.length_append]
    unfold clearFrom
    split
    · next hused =>
      have hnil : ht.table[ht.size - (rounds + 1)] ++ (ht.table.drop (ht.size - rounds)).flatten = [] := by
        apply List.eq_nil_of_length_eq_zero
        rw [List.length_append]
        exact hused
      rw [hnil]
    · rw [List.getElem?_eq_getElem hlt]
      simp only [Nat.add_sub_cancel_left, ih (by omega), Except.map]

omit [DecidableEq K] in
theorem dictClear_spec {ht : Dictht K V} (hsize : ht.size = ht.table.length)
    (hused : ht.used = ht.entries.length) : dictClear ht = .ok (ht.entries, dictReset) := by
  have h := clearFrom_spec hsize ht.size (le_refl _)
  rw [Nat.sub_self, List.drop_zero] at h
  rw [dictClear, hused, Dictht.entries, h]
  rfl

omit [DecidableEq K] in
theorem dictClear_reset : dictClear (dictReset : Dictht K V) = .ok ([], dictReset) := rfl

omit [DecidableEq K] in
/-- **Emptying frees every entry once** and leaves a new dict. -/
theorem dictEmpty_spec {d : Dict K V} (h : d.Wf type kc) :
    dictEmpty d = .ok (d.entries, dictCreate) ∧ dictRelease d = .ok d.entries := by
  have h0 := dictClear_spec h.ht0.size h.ht0.used
  have h1 : dictClear d.ht1 = .ok (d.ht1.entries, dictReset) := by
    by_cases hre : dictIsRehashing d
    · exact dictClear_spec (h.ht1_wf hre).size (h.ht1_wf hre).used
    · rw [h.idle (Dict.Wf.idle_none hre)]
      exact dictClear_reset
  constructor
  · simp only [dictEmpty, h0, h1, Except.bind]
    rfl
  · simp only [dictRelease, h0, h1, Except.bind]
    rfl

end BoAtom
