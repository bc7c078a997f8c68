import BoAtom.Mem.Invariant

/-! # Executing a command

    `SET_cmd` and `GET_cmd` on memory that represents a store act on it as
    `Request.effect` and answer as `Request.answer`.  They give up the
    blocks of the command's arguments: SET hands two of them to the store
    and frees the rest, along with the value it replaces; GET frees its
    own.  Every other block survives (`Spares`). -/

namespace BoAtom

open Memory

/-! ## Section 1: Blocks change hands -/

def Ghost.give (g : Ghost) (a : Addr) (o : Owner) : Ghost :=
  { g with block := Function.update g.block a o }

@[simp] theorem Ghost.give_self (g : Ghost) (a : Addr) (o : Owner) : (g.give a o).block a = o := by
  simp [give]

theorem Ghost.give_ne {a a' : Addr} (g : Ghost) (o : Owner) (h : a' ≠ a) :
    (g.give a o).block a' = g.block a' := by simp [give, h]

/-- Only blocks whose owner is in `gone` are given up. -/
def Spares (gone : Owner → Prop) (g : Ghost) (h : Heap) (g' : Ghost) (h' : Heap) : Prop :=
  ∀ a o n bs, Owns g h a o n bs → ¬ gone o → Owns g' h' a o n bs

section blocks

variable {g g' g'' : Ghost} {h h' h'' : Heap} {a a' : Addr} {o o' : Owner} {n n' : Nat}
  {bs bs' : Bytes} {gone gone' : Owner → Prop}

theorem Owns.ne (ho : Owns g h a o n bs) (ho' : Owns g h a' o' n' bs') (hne : o ≠ o') : a ≠ a' := by
  rintro rfl
  exact hne (ho.1.symm.trans ho'.1)

theorem Owns.other (ho : Owns g h a' o' n bs) (hne : a' ≠ a)
    (hb : h'.blocks[a']? = h.blocks[a']?) : Owns (g.give a o) h' a' o' n bs := by
  refine ⟨(g.give_ne o hne).trans ho.1, ?_⟩
  unfold Heap.Holds
  rw [hb]
  exact ho.2

theorem Spares.trans (hs : Spares gone g h g' h') (hs' : Spares gone g' h' g'' h'') :
    Spares gone g h g'' h'' :=
  fun a o n bs ho hgone => hs' a o n bs (hs a o n bs ho hgone) hgone

theorem Spares.weaken (hs : Spares gone g h g' h') (hsub : ∀ o, gone o → gone' o) :
    Spares gone' g h g' h' :=
  fun a o n bs ho hgone => hs a o n bs ho fun hg => hgone (hsub o hg)

theorem Spares.keepsStore (hs : Spares gone g h g' h') (hkey : ∀ k, ¬ gone (.key k))
    (hval : ∀ k, ¬ gone (.val k)) : KeepsStore g h g' h' :=
  ⟨fun a k n bs ho => hs a _ n bs ho (hkey k), fun a k n bs ho => hs a _ n bs ho (hval k)⟩

/-- A block gets a new owner. -/
theorem Owns.spares_give (ho : Owns g h a o n bs) (o' : Owner) :
    Spares (· = o) g h (g.give a o') h := by
  intro b p m cs hb hp
  exact hb.other (hb.ne ho hp) rfl

end blocks

/-- Freeing an owned block. -/
theorem freeItem_spec (env : Env) {g : Ghost} {w : World} {a : Addr} {o : Owner} {n : Nat}
    {bs : Bytes} (ho : Owns g w.heap a o n bs) :
    ∃ h', freeItem env w (some a) = .ok { w with heap := h' } ∧
      h'.blocks[a]? = some ⟨n, env.released a bs, false⟩ ∧
      (∀ a', a' ≠ a → h'.blocks[a']? = w.heap.blocks[a']?) ∧
      Spares (· = o) g w.heap (g.give a .nobody) h' := by
  have hlt := ho.lt
  have hother : ∀ a', a' ≠ a →
      (Heap.mk (w.heap.blocks.set a ⟨n, env.released a bs, false⟩)).blocks[a']? =
        w.heap.blocks[a']? := fun a' hne => Heap.set_other hne
  refine ⟨_, by rw [freeItem, Heap.free_eq ho.2], by simp [hlt], hother, ?_⟩
  intro b p m cs hb hp
  exact hb.other (hb.ne ho hp) (hother b (hb.ne ho hp))

theorem freeItem_dead {env : Env} {w : World} {a : Addr} {n : Nat} {bs : Bytes}
    (hdead : w.heap.blocks[a]? = some ⟨n, bs, false⟩) :
    freeItem env w (some a) = .error .doubleFree := by
  simp [freeItem, Heap.free, hdead]

/-- Argument `i` of a command is an owned block that holds `bs`. -/
def ArgRep (g : Ghost) (h : Heap) (me : ClientId) (cmd : Cmd) (i : Fin cmdArgsMax) (bs : Bytes) :
    Prop :=
  ∃ a, cmd.value i = some a ∧ Owns g h a (.arg me i) bs.length bs ∧
    cmd.itemLength i = bs.length ∧ cmd.itemPos i = bs.length

/-! ## Section 2: Fresh responses -/

theorem respRep_literal (g : Ghost) (h : Heap) (s : Bytes) :
    RespRep g h (literalResponse s) ⟨[s], none, true, 0⟩ := by
  refine ⟨rfl, by simp, fun i item hi => ?_, by simp [literalResponse], fun i _ => by
    simp [literalResponse], fun i _ => rfl, fun i _ => by simp [literalResponse]⟩
  have hi0 : i.val = 0 := by
    have hlt : i.val < 1 := (List.getElem?_eq_some_iff.mp hi).1
    omega
  have hi' : i = 0 := Fin.ext hi0
  subst hi'
  simp only [Fin.val_zero, List.getElem?_cons_zero, Option.some.injEq] at hi
  subst hi
  exact ⟨Or.inl rfl, rfl⟩

theorem items_literal (h : Heap) (s : Bytes) : Response.items h (literalResponse s) = [s] := by
  simp [Response.items, Response.item, literalResponse, loadChars, cmdArgsMax]

theorem respRep_value {g : Ghost} {h : Heap} {a : Addr} {k v : Bytes}
    (ho : Owns g h a (.val k) v.length v) :
    RespRep g h (valueResponse ⟨some a, v.length⟩) ⟨[num1, v], some k, true, 0⟩ := by
  refine ⟨rfl, by simp, fun i item hi => ?_, by simp [valueResponse], fun i _ => by
    simp [valueResponse], fun i _ => rfl, fun i _ => by simp [valueResponse]⟩
  have hlt : i.val < 2 := (List.getElem?_eq_some_iff.mp hi).1
  by_cases hi0 : i.val = 0
  · have hi' : i = 0 := Fin.ext hi0
    subst hi'
    simp only [Fin.val_zero, List.getElem?_cons_zero, Option.some.injEq] at hi
    subst hi
    exact ⟨Or.inl rfl, rfl⟩
  · have hi1 : i.val = 1 := by omega
    have hi' : i = 1 := Fin.ext hi1
    subst hi'
    have hitem : v = item := by simpa using hi
    subst hitem
    exact ⟨Or.inr ⟨a, k, rfl, rfl, fun _ => ho⟩, rfl⟩

theorem items_value {g : Ghost} {h : Heap} {a : Addr} {k v : Bytes}
    (ho : Owns g h a (.val k) v.length v) :
    Response.items h (valueResponse ⟨some a, v.length⟩) = [num1, v] := by
  have hload : h.load a v.length = v := Heap.load_of_holds ho.2
  simp [Response.items, Response.item, valueResponse, loadChars, charPtr, cmdArgsMax,
    List.range_succ, hload]

/-! ## Section 3: SET_cmd -/

/-- What SET gives up: the arguments, and the value it replaces. -/
def SetGone (me : ClientId) (key : Bytes) (o : Owner) : Prop := (∃ i, o = .arg me i) ∨ o = .val key

/-- A key that is not stored yet. -/
theorem StoreRep.insert {env : Env} {g : Ghost} {h : Heap} {d d' : Dict DictItem DictItem}
    {store : Store} {me : ClientId} {i j : Nat} {ka va : Addr} {key value : Bytes}
    (hr : StoreRep env g h d store) (hwf : d'.Wf (dicttype env h) (keyOf h))
    (hk : Owns g h ka (.arg me i) key.length key) (hv : Owns g h va (.arg me j) value.length value)
    (hne : i ≠ j) (hnew : ∀ e ∈ d.entries, keyOf h e.key ≠ key)
    (hperm : d'.entries.Perm (⟨⟨some ka, key.length⟩, ⟨some va, value.length⟩⟩ :: d.entries)) :
    let g' := (g.give ka (.key key)).give va (.val key)
    StoreRep env g' h d' (Function.update store key (some value)) ∧
      Spares (fun o => ∃ i, o = .arg me i) g h g' h := by
  intro g'
  have hkv : ka ≠ va := hk.ne hv (by simp [hne])
  have hk' : Owns (g.give ka (.key key)) h ka (.key key) key.length key := ⟨by simp, hk.2⟩
  have hv' : Owns (g.give ka (.key key)) h va (.arg me j) value.length value := hv.other hkv.symm rfl
  -- two blocks change hands, both were arguments of this client
  have hsp : Spares (fun o => ∃ i, o = .arg me i) g h g' h :=
    ((hk.spares_give _).weaken fun o ho => ⟨i, ho⟩).trans
      ((hv'.spares_give _).weaken fun o ho => ⟨j, ho⟩)
  have hkey : Owns g' h ka (.key key) key.length key := hk'.other hkv rfl
  have hval : Owns g' h va (.val key) value.length value := ⟨by simp [g'], hv.2⟩
  refine ⟨⟨hwf, fun e he => ?_, fun k v hkv => ?_⟩, hsp⟩
  · rcases List.mem_cons.mp (hperm.mem_iff.mp he) with rfl | he
    · exact ⟨key, value, ka, va, rfl, rfl, hkey, hval, by simp⟩
    · -- an old entry: its key is another one, and its blocks were not arguments
      obtain ⟨k, v, ka', va', hk₁, hv₁, hown, hown', hst⟩ := hr.entry e he
      have hkne : k ≠ key := by
        rintro rfl
        apply hnew e he
        rw [hk₁, keyOf_some hown]
      exact ⟨k, v, ka', va', hk₁, hv₁, hsp _ _ _ _ hown (by simp), hsp _ _ _ _ hown' (by simp),
        by rw [Function.update_of_ne hkne]; exact hst⟩
  · by_cases hkey' : k = key
    · subst hkey'
      exact ⟨_, hperm.mem_iff.mpr List.mem_cons_self, keyOf_some hkey⟩
    · rw [Function.update_of_ne hkey'] at hkv
      obtain ⟨e, he, hek⟩ := hr.complete k v hkv
      exact ⟨e, hperm.mem_iff.mpr (List.mem_cons_of_mem _ he), hek⟩

/-- A key that is stored: the entry keeps its key block and gets the new
    value block. -/
theorem StoreRep.replace {env : Env} {g g' : Ghost} {h h' : Heap} {d d' : Dict DictItem DictItem}
    {store : Store} {va : Addr} {key value : Bytes} {e : DictEntry DictItem DictItem}
    {rest : List (DictEntry DictItem DictItem)} (hr : StoreRep env g h d store)
    (hwf : d'.Wf (dicttype env h) (keyOf h)) (hek : keyOf h e.key = key)
    (hold : d.entries.Perm (e :: rest))
    (hnew : d'.entries.Perm ({ e with val := ⟨some va, value.length⟩ } :: rest))
    (hkeys : ∀ a k n bs, Owns g h a (.key k) n bs → Owns g' h' a (.key k) n bs)
    (hvals : ∀ a k n bs, k ≠ key → Owns g h a (.val k) n bs → Owns g' h' a (.val k) n bs)
    (hv : Owns g' h' va (.val key) value.length value) :
    StoreRep env g' h' d' (Function.update store key (some value)) := by
  have hmem : ∀ f ∈ d'.entries, ∃ f' ∈ d.entries, f'.key = f.key := by
    intro f hf
    rcases List.mem_cons.mp (hnew.mem_iff.mp hf) with rfl | hf
    · exact ⟨e, hold.mem_iff.mpr List.mem_cons_self, rfl⟩
    · exact ⟨f, hold.mem_iff.mpr (List.mem_cons_of_mem _ hf), rfl⟩
  have hkey : ∀ f ∈ d'.entries, keyOf h' f.key = keyOf h f.key := by
    intro f hf
    obtain ⟨f', hf', heq⟩ := hmem f hf
    rw [← heq]
    exact (hr.entry f' hf').keyOf_eq hkeys
  -- the other entries have other keys
  have hother : ∀ f ∈ rest, keyOf h f.key ≠ key := by
    have hnd := hr.dict.distinct
    rw [(hold.map _).nodup_iff, List.map_cons, List.nodup_cons] at hnd
    intro f hf hfk
    exact hnd.1 (List.mem_map.mpr ⟨f, hf, hfk.trans hek.symm⟩)
  refine ⟨wf_dicttype_congr hwf hkey, fun f hf => ?_, fun k v hkv => ?_⟩
  · rcases List.mem_cons.mp (hnew.mem_iff.mp hf) with rfl | hf
    · obtain ⟨k, v, ka, va', hk₁, -, hown, -, -⟩ := hr.entry e (hold.mem_iff.mpr List.mem_cons_self)
      have hkk : k = key := by rw [← hek, hk₁, keyOf_some hown]
      subst hkk
      exact ⟨k, value, ka, va, hk₁, rfl, hkeys _ _ _ _ hown, hv, by simp⟩
    · obtain ⟨k, v, ka, va', hk₁, hv₁, hown, hown', hst⟩ :=
        hr.entry f (hold.mem_iff.mpr (List.mem_cons_of_mem _ hf))
      have hkne : k ≠ key := by
        rintro rfl
        apply hother f hf
        rw [hk₁, keyOf_some hown]
      exact ⟨k, v, ka, va', hk₁, hv₁, hkeys _ _ _ _ hown, hvals _ _ _ _ hkne hown',
        by rw [Function.update_of_ne hkne]; exact hst⟩
  · by_cases hkey' : k = key
    · subst hkey'
      refine ⟨_, hnew.mem_iff.mpr List.mem_cons_self, ?_⟩
      exact (hkey _ (hnew.mem_iff.mpr List.mem_cons_self)).trans hek
    · rw [Function.update_of_ne hkey'] at hkv
      obtain ⟨f, hf, hfk⟩ := hr.complete k v hkv
      rcases List.mem_cons.mp (hold.mem_iff.mp hf) with rfl | hf
      · exact absurd (hfk.symm.trans hek) hkey'
      · have hf' : f ∈ d'.entries := hnew.mem_iff.mpr (List.mem_cons_of_mem _ hf)
        exact ⟨f, hf', (hkey f hf').trans hfk⟩

/-- The entries are stored in another order. -/
theorem StoreRep.perm {env : Env} {g : Ghost} {h : Heap} {d d' : Dict DictItem DictItem} {store : Store}
    (hr : StoreRep env g h d store) (hwf : d'.Wf (dicttype env h) (keyOf h))
    (hperm : d'.entries.Perm d.entries) : StoreRep env g h d' store := by
  refine ⟨hwf, fun e he => hr.entry e (hperm.mem_iff.mp he), fun k v hkv => ?_⟩
  obtain ⟨e, he, hek⟩ := hr.complete k v hkv
  exact ⟨e, hperm.mem_iff.mpr he, hek⟩

/-- **SET stores.**  It answers OK, and the store maps the key to the value
    from now on, whether the key was there or not. -/
theorem setCmd_spec {env : Env} {g : Ghost} {w : World} {store : Store} {me : ClientId} {cmd : Cmd}
    {name key value : Bytes} (hr : StoreRep env g w.heap w.dict store) (hargs : cmd.argsNum = 3)
    (h0 : ArgRep g w.heap me cmd 0 name) (h1 : ArgRep g w.heap me cmd 1 key)
    (h2 : ArgRep g w.heap me cmd 2 value) :
    ∃ g' h' d', setCmd env cmd w = .ok (getOkResponse, { w with heap := h', dict := d' }) ∧
      g'.cmd = g.cmd ∧ StoreRep env g' h' d' (Function.update store key (some value)) ∧
      Spares (SetGone me key) g w.heap g' h' ∧
      ∃ a, cmd.value 0 = some a ∧ ∃ n, h'.blocks[a]? = some ⟨n, env.released a name, false⟩ := by
  obtain ⟨a0, hv0, ho0, hl0, -⟩ := h0
  obtain ⟨a1, hv1, ho1, hl1, -⟩ := h1
  obtain ⟨a2, hv2, ho2, hl2, -⟩ := h2
  obtain ⟨hp1, hfree0, hdead0, hother0, hsp0⟩ := freeItem_spec env ho0
  have ho1' := hsp0 _ _ _ _ ho1 (by simp)
  have ho2' := hsp0 _ _ _ _ ho2 (by simp)
  have hr1 : StoreRep env (g.give a0 .nobody) hp1 w.dict store :=
    hr.mono (hsp0.keepsStore (by simp) (by simp))
  have hkey : keyOf hp1 ⟨some a1, key.length⟩ = key := keyOf_some ho1'
  have hgone0 : Spares (SetGone me key) g w.heap (g.give a0 .nobody) hp1 :=
    hsp0.weaken fun o ho => Or.inl ⟨0, ho⟩
  obtain ⟨r, d₁, hadd, hwf₁, hr₁⟩ := dictAdd_spec (dicttype_reads env hp1) hr1.dict
    ⟨some a1, key.length⟩ ⟨some a2, value.length⟩
  rw [hkey] at hr₁
  rcases r with _ | _
  · -- the key is new
    obtain ⟨hnew, hperm⟩ := hr₁
    obtain ⟨hrep, hsp⟩ := hr1.insert hwf₁ ho1' ho2' (by decide) hnew hperm
    refine ⟨((g.give a0 .nobody).give a1 (.key key)).give a2 (.val key), hp1, d₁, ?_, rfl, hrep, hgone0.trans (hsp.weaken fun o ho => Or.inl ho),
      a0, hv0, _, hdead0⟩
    simp only [setCmd, hargs, hv0, hv1, hv2, hl1, hl2, ne_eq, not_true_eq_false, if_false,
      bind, Except.bind, hfree0, hadd]
  · -- the key is stored: `dictAdd` fails, `dictReplace` updates
    obtain ⟨⟨e, he, hek⟩, hperm⟩ := hr₁
    have he₁ : e ∈ d₁.entries := hperm.mem_iff.mpr he
    have hr1' : StoreRep env (g.give a0 .nobody) hp1 d₁ store := hr1.perm hwf₁ hperm
    obtain ⟨d₂, rest, hrepl, hwf₂, hold, hnew⟩ := dictReplace_spec (dicttype_reads env hp1) hwf₁
      ⟨some a1, key.length⟩ ⟨some a2, value.length⟩ he₁ (hek.trans hkey.symm)
    obtain ⟨k, v, ka, va, hk, hv, hown, hown', -⟩ := hr1.entry e he
    have hkk : k = key := by rw [← hek, hk, keyOf_some hown]
    subst hkk
    -- the replaced value and the key that was passed in are freed
    obtain ⟨hp2, hfree2, -, hother2, hsp2⟩ := freeItem_spec env
      (w := { w with heap := hp1, dict := d₂ }) hown'
    have ho1₂ := hsp2 _ _ _ _ ho1' (by simp)
    have ho2₂ := hsp2 _ _ _ _ ho2' (by simp)
    obtain ⟨hp3, hfree3, -, hother3, hsp3⟩ := freeItem_spec env
      (w := { w with heap := hp2, dict := d₂ }) ho1₂
    have ho2₃ := hsp3 _ _ _ _ ho2₂ (fun h => absurd (Owner.arg.inj h).2 (by decide))
    have hsp4 := ho2₃.spares_give (.val k)
    have hall : Spares (SetGone me k) (g.give a0 .nobody) hp1
        (((((g.give a0 .nobody).give va .nobody).give a1 .nobody)).give a2 (.val k)) hp3 :=
      ((hsp2.weaken fun o ho => Or.inr ho).trans (hsp3.weaken fun o ho => Or.inl ⟨1, ho⟩)).trans
        (hsp4.weaken fun o ho => Or.inl ⟨2, ho⟩)
    have hrep : StoreRep env (((((g.give a0 .nobody).give va .nobody).give a1 .nobody)).give a2
        (.val k)) hp3 d₂ (Function.update store k (some value)) :=
      hr1'.replace hwf₂ hek hold hnew (fun a k' n bs ho => hall _ _ _ _ ho (by simp [SetGone]))
        (fun a k' n bs hne ho => hall _ _ _ _ ho (by simp [SetGone, hne]))
        ⟨by simp, ho2₃.2⟩
    have hdead : hp3.blocks[a0]? = some ⟨name.length, env.released a0 name, false⟩ := by
      rw [hother3 a0 (ho0.ne ho1 (by simp)), hother2 a0 ?_, hdead0]
      rintro rfl
      have := hown'.2
      unfold Heap.Holds at this
      rw [hdead0] at this
      simp at this
    refine ⟨(((g.give a0 .nobody).give va .nobody).give a1 .nobody).give a2 (.val k), hp3, d₂, ?_,
      rfl, hrep, hgone0.trans hall, a0, hv0, _, hdead⟩
    simp only [setCmd, hargs, hv0, hv1, hv2, hl1, hl2, ne_eq, not_true_eq_false, if_false,
      bind, Except.bind, hfree0, hadd, hrepl, myItemfree, hv, hfree2, hfree3]

/-! ## Section 4: GET_cmd -/

/-- **GET looks up.** -/
theorem getCmd_spec {env : Env} {g : Ghost} {w : World} {store : Store} {me : ClientId} {cmd : Cmd}
    {name key : Bytes} (hr : StoreRep env g w.heap w.dict store)
    (hargs : cmd.argsNum = 2 ∨ cmd.argsNum = 3) (h0 : ArgRep g w.heap me cmd 0 name)
    (h1 : ArgRep g w.heap me cmd 1 key) :
    ∃ g' h' d' r p, getCmd env cmd w = .ok (r, { w with heap := h', dict := d' }) ∧
      g'.cmd = g.cmd ∧ StoreRep env g' h' d' store ∧
      Spares (fun o => ∃ i, o = .arg me i) g w.heap g' h' ∧
      RespRep g' h' r p ∧ p.intact = true ∧ p.sent = 0 ∧
      (Request.get key).answer store = some p.items ∧ p.key = (Request.get key).source store ∧
      Response.items h' r = p.items := by
  obtain ⟨a0, hv0, ho0, -, -⟩ := h0
  obtain ⟨a1, hv1, ho1, hl1, -⟩ := h1
  obtain ⟨hp1, hfree0, hdead0, hother0, hsp0⟩ := freeItem_spec env ho0
  have ho1' := hsp0 _ _ _ _ ho1 (by simp)
  have hr1 : StoreRep env (g.give a0 .nobody) hp1 w.dict store :=
    hr.mono (hsp0.keepsStore (by simp) (by simp))
  have hkey : keyOf hp1 ⟨some a1, key.length⟩ = key := keyOf_some ho1'
  -- the lookup may rehash, so the dictionary changes, but not its entries
  obtain ⟨f, d₁, hfind, hwf₁, hperm, hf⟩ := dictFind_spec (dicttype_reads env hp1) hr1.dict
    ⟨some a1, key.length⟩
  rw [hkey] at hf
  have hr1' : StoreRep env (g.give a0 .nobody) hp1 d₁ store := hr1.perm hwf₁ hperm
  obtain ⟨hp2, hfree1, -, hother1, hsp1⟩ := freeItem_spec env
    (w := { w with heap := hp1, dict := d₁ }) ho1'
  have hr2 : StoreRep env ((g.give a0 .nobody).give a1 .nobody) hp2 d₁ store :=
    hr1'.mono (hsp1.keepsStore (by simp) (by simp))
  have hsp : Spares (fun o => ∃ i, o = .arg me i) g w.heap
      ((g.give a0 .nobody).give a1 .nobody) hp2 :=
    (hsp0.weaken fun o ho => ⟨0, ho⟩).trans (hsp1.weaken fun o ho => ⟨1, ho⟩)
  have hnargs : ¬ (cmd.argsNum ≠ 2 ∧ cmd.argsNum ≠ 3) := by
    rintro ⟨h2, h3⟩
    rcases hargs with h | h
    · exact h2 h
    · exact h3 h
  rcases f with _ | ref
  · -- NULL: the store has no such key
    have hnone : store key = none := by
      rcases hs : store key with _ | v
      · rfl
      · obtain ⟨e, he, hek⟩ := hr1.complete key v hs
        exact absurd hek (hf e he)
    refine ⟨(g.give a0 .nobody).give a1 .nobody, hp2, d₁, getErrResponse, ⟨[setErrStr], none, true, 0⟩, ?_, rfl, hr2, hsp,
      respRep_literal _ _ _, rfl, rfl, by simp [Request.answer, hnone],
      by simp [Request.source, hnone], items_literal _ _⟩
    simp only [getCmd, if_neg hnargs, hv0, hv1, hl1, bind, Except.bind, hfree0, hfind, myItemfree,
      hfree1]
  · -- found: the answer points at the stored value, which both frees left alone
    obtain ⟨e, hat, he, hek⟩ := hf
    obtain ⟨k, v, ka, va, hk, hv, hown, hown', hst⟩ := hr1.entry e he
    have hkk : k = key := by rw [← hek, hk, keyOf_some hown]
    subst hkk
    have hown₂ := hsp1 _ _ _ _ hown' (by simp)
    refine ⟨(g.give a0 .nobody).give a1 .nobody, hp2, d₁, _, ⟨[num1, v], some k, true, 0⟩, ?_, rfl, hr2, hsp,
      respRep_value hown₂, rfl, rfl, by simp [Request.answer, hst],
      by simp [Request.source, hst], items_value hown₂⟩
    simp only [getCmd, if_neg hnargs, hv0, hv1, hl1, bind, Except.bind, hfree0, hfind, myItemfree,
      hfree1, hat, hv]

end BoAtom
