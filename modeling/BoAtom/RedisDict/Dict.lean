import BoAtom.Fault
import BoAtom.Lib.CString

/-! # redis_dict/dict.c

    The hash table with incremental rehashing: two tables, and an index
    `rehashidx` below which the buckets of the first have been moved to the
    second.  Keys and values are opaque; the hash and the comparison come
    in a `DictType`, as the `void *` code takes them from `d->type`.

    A bucket is the list its `next` pointers form, a pointer to an entry is
    its place (`EntryRef`), and `rehashidx == -1` is `none`.  The type has
    no `keyDup` and no `valDup`, and allocation succeeds.

    Sizes and indices are natural numbers.  They are those of the code for
    tables below 2^31 buckets: `_dictNextPower` then stops before `LONG_MAX`,
    the size asked of `calloc` does not wrap, and an index is an `int`.  What
    is proved of sequences of calls says so (`Dict.Bounded`). -/

namespace BoAtom

/-! ## Section 1: Data -/

/-- The functions of a `dictType` the table works with. -/
structure DictType (K : Type) where
  hashFunction : K → UInt32
  keyCompare : K → K → Bool

structure DictEntry (K V : Type) where
  key : K
  val : V
  deriving DecidableEq, Repr

structure Dictht (K V : Type) where
  table : List (List (DictEntry K V))
  size : Nat
  sizemask : Nat
  used : Nat
  deriving DecidableEq, Repr

structure Dict (K V : Type) where
  ht0 : Dictht K V
  ht1 : Dictht K V
  rehashidx : Option Nat
  iterators : Nat
  deriving DecidableEq, Repr

/-- `DICT_OK` and `DICT_ERR`. -/
inductive DictStatus where
  | ok
  | err
  deriving DecidableEq, Repr

/-- A `dictEntry *`: which table, which bucket, which position in it. -/
structure EntryRef where
  inHt1 : Bool
  idx : Nat
  pos : Nat
  deriving DecidableEq, Repr

def dictHtInitialSize : Nat := 4

/-- `dict_can_resize`, which nothing in the repository changes. -/
def dictCanResize : Bool := true

def dictForceResizeRatio : Nat := 5

/-! ## Section 2: Creating and expanding -/

variable {K V : Type}

/-- `_dictReset`. -/
def dictReset : Dictht K V := { table := [], size := 0, sizemask := 0, used := 0 }

def dictCreate : Dict K V :=
  { ht0 := dictReset, ht1 := dictReset, rehashidx := none, iterators := 0 }

def dictIsRehashing (d : Dict K V) : Bool := d.rehashidx.isSome

/-- The doubling loop of `_dictNextPower`. -/
def nextPowerFrom (size : Nat) : Nat → Nat → Nat
  | 0, i => i
  | fuel + 1, i => if i ≥ size then i else nextPowerFrom size fuel (i * 2)

/-- `_dictNextPower`; `i` grows by one at least each round, so `size` rounds
    are enough. -/
def dictNextPower (size : Nat) : Nat := nextPowerFrom size size dictHtInitialSize

/-- `dictExpand`, up to a `realsize` of 2^31. -/
def dictExpand (d : Dict K V) (size : Nat) : DictStatus × Dict K V :=
  let realsize := dictNextPower size
  if dictIsRehashing d ∨ d.ht0.used > size then (.err, d)
  else if realsize = d.ht0.size then (.err, d)
  else
    let n : Dictht K V :=
      { table := List.replicate realsize [], size := realsize, sizemask := realsize - 1, used := 0 }
    if d.ht0.table.isEmpty then (.ok, { d with ht0 := n })
    else (.ok, { d with ht1 := n, rehashidx := some 0 })

/-- `_dictExpandIfNeeded`. -/
def dictExpandIfNeeded (d : Dict K V) : DictStatus × Dict K V :=
  if dictIsRehashing d then (.ok, d)
  else if d.ht0.size = 0 then dictExpand d dictHtInitialSize
  else if d.ht0.used ≥ d.ht0.size ∧
      (dictCanResize ∨ d.ht0.used / d.ht0.size > dictForceResizeRatio) then
    dictExpand d (d.ht0.used * 2)
  else (.ok, d)

/-! ## Section 3: Rehashing -/

variable (type : DictType K)

/-- `dictHashKey(d, key) & ht->sizemask`. -/
def dictIndex (ht : Dictht K V) (key : K) : Nat := (type.hashFunction key).toNat &&& ht.sizemask

/-- Where the scan for a bucket to move ends. -/
inductive Skip (K V : Type) where
  /-- Every allowed empty bucket has been visited; `rehashidx` is here. -/
  | exhausted (idx : Nat)
  /-- A bucket to move, and the empty visits left. -/
  | found (idx emptyVisits : Nat) (bucket : List (DictEntry K V))

/-- `while (table[rehashidx] == NULL) { rehashidx++; if (--empty_visits == 0) return 1; }` -/
def skipEmpty (table : List (List (DictEntry K V))) : Nat → Nat → Except Fault (Skip K V)
  | emptyVisits, idx =>
    match table[idx]? with
    | none => .error .overrun
    | some (e :: es) => .ok (.found idx emptyVisits (e :: es))
    | some [] =>
      match emptyVisits with
      | 0 => .error .diverge
      | 1 => .ok (.exhausted (idx + 1))
      | n + 2 => skipEmpty table (n + 1) (idx + 1)

/-- `e->next = ht->table[index]; ht->table[index] = e; ht->used++`. -/
def linkEntry (ht : Dictht K V) (index : Nat) (e : DictEntry K V) : Except Fault (Dictht K V) :=
  match ht.table[index]? with
  | none => .error .overrun
  | some b => .ok { ht with table := ht.table.set index (e :: b), used := ht.used + 1 }

/-- Move the keys of one bucket to the new table, `de = nextde` until NULL. -/
def moveBucket : Dictht K V → List (DictEntry K V) → Except Fault (Dictht K V)
  | ht, [] => .ok ht
  | ht, e :: es => (linkEntry ht (dictIndex type ht e.key) e).bind fun ht => moveBucket ht es

/-- After the loop of `dictRehash`: did it empty the first table? -/
def rehashEnd (d : Dict K V) : Int × Dict K V :=
  if d.ht0.used = 0 then
    (0, { d with ht0 := d.ht1, ht1 := dictReset, rehashidx := none })
  else (1, d)

/-- `while (n-- && d->ht[0].used != 0)`. -/
def rehashLoop : Nat → Nat → Nat → Dict K V → Except Fault (Int × Dict K V)
  | 0, _, _, d => .ok (rehashEnd d)
  | n + 1, emptyVisits, rehashidx, d =>
    if d.ht0.used = 0 then .ok (rehashEnd d)
    else if ¬ d.ht0.size > rehashidx then .error .assertion
    else (skipEmpty d.ht0.table emptyVisits rehashidx).bind fun
      | .exhausted idx => .ok (1, { d with rehashidx := some idx })
      | .found idx emptyVisits bucket =>
        (moveBucket type d.ht1 bucket).bind fun ht1 =>
          let ht0 := { d.ht0 with
            table := d.ht0.table.set idx [], used := d.ht0.used - bucket.length }
          rehashLoop n emptyVisits (idx + 1)
            { d with ht0 := ht0, ht1 := ht1, rehashidx := some (idx + 1) }

def dictRehash (d : Dict K V) (n : Nat) : Except Fault (Int × Dict K V) :=
  match d.rehashidx with
  | none => .ok (0, d)
  | some idx => rehashLoop type n (n * 10) idx d

/-- `_dictRehashStep`, guarded as its callers guard it. -/
def dictRehashStep (d : Dict K V) : Except Fault (Dict K V) :=
  if dictIsRehashing d ∧ d.iterators = 0 then (dictRehash type d 1).map Prod.snd else .ok d

/-! ## Section 4: Looking up and adding -/

variable [DecidableEq K]

/-- `key == he->key || dictCompareKeys(d, key, he->key)`. -/
def dictSameKey (key key' : K) : Bool := key = key' || type.keyCompare key key'

/-- Position of the key in its bucket of one table. -/
def findInTable (ht : Dictht K V) (key : K) : Except Fault (Option Nat) :=
  match ht.table[dictIndex type ht key]? with
  | none => .error .overrun
  | some b => .ok (b.findIdx? fun e => dictSameKey type key e.key)

/-- `_dictKeyIndex`; `none` is -1, and the index is below 2^31. -/
def dictKeyIndex (d : Dict K V) (key : K) : Except Fault (Option Nat × Dict K V) :=
  match dictExpandIfNeeded d with
  | (.err, d) => .ok (none, d)
  | (.ok, d) =>
    (findInTable type d.ht0 key).bind fun
      | some _ => .ok (none, d)
      | none =>
        if dictIsRehashing d then
          (findInTable type d.ht1 key).bind fun
            | some _ => .ok (none, d)
            | none => .ok (some (dictIndex type d.ht1 key), d)
        else .ok (some (dictIndex type d.ht0 key), d)

/-- `dictAddRaw`; the value of the new entry is not set yet. -/
def dictAddRaw [Inhabited V] (d : Dict K V) (key : K) :
    Except Fault (Option EntryRef × Dict K V) :=
  (dictRehashStep type d).bind fun d =>
    (dictKeyIndex type d key).bind fun
      | (none, d) => .ok (none, d)
      | (some index, d) =>
        let e : DictEntry K V := { key := key, val := default }
        if dictIsRehashing d then
          (linkEntry d.ht1 index e).bind fun ht =>
            .ok (some ⟨true, index, 0⟩, { d with ht1 := ht })
        else
          (linkEntry d.ht0 index e).bind fun ht =>
            .ok (some ⟨false, index, 0⟩, { d with ht0 := ht })

/-- The entry a reference points to. -/
def entryAt (d : Dict K V) (r : EntryRef) : Option (DictEntry K V) :=
  ((if r.inHt1 then d.ht1 else d.ht0).table[r.idx]?).bind fun b => b[r.pos]?

def setValIn (ht : Dictht K V) (idx pos : Nat) (v : V) : Dictht K V :=
  match ht.table[idx]? with
  | none => ht
  | some b =>
    match b[pos]? with
    | none => ht
    | some e => { ht with table := ht.table.set idx (b.set pos { e with val := v }) }

/-- `dictSetVal` for a type without `valDup`. -/
def dictSetVal (d : Dict K V) (r : EntryRef) (v : V) : Dict K V :=
  if r.inHt1 then { d with ht1 := setValIn d.ht1 r.idx r.pos v }
  else { d with ht0 := setValIn d.ht0 r.idx r.pos v }

def dictAdd [Inhabited V] (d : Dict K V) (key : K) (val : V) :
    Except Fault (DictStatus × Dict K V) :=
  (dictAddRaw type d key).bind fun
    | (none, d) => .ok (.err, d)
    | (some entry, d) => .ok (.ok, dictSetVal d entry val)

def dictFind (d : Dict K V) (key : K) : Except Fault (Option EntryRef × Dict K V) :=
  if d.ht0.used + d.ht1.used = 0 then .ok (none, d)
  else
    (dictRehashStep type d).bind fun d =>
      (findInTable type d.ht0 key).bind fun
        | some pos => .ok (some ⟨false, dictIndex type d.ht0 key, pos⟩, d)
        | none =>
          if dictIsRehashing d then
            (findInTable type d.ht1 key).bind fun
              | some pos => .ok (some ⟨true, dictIndex type d.ht1 key, pos⟩, d)
              | none => .ok (none, d)
          else .ok (none, d)

/-- `dictReplace`: 1 when the key was added, 0 when only the value was
    updated.  The value that `dictFreeVal` is then called on is returned to
    the caller, who owns the memory. -/
def dictReplace [Inhabited V] (d : Dict K V) (key : K) (val : V) :
    Except Fault (Int × Option V × Dict K V) :=
  (dictAdd type d key val).bind fun
    | (.ok, d) => .ok (1, none, d)
    | (.err, d) =>
      (dictFind type d key).bind fun
        | (none, _) => .error .nullDeref
        | (some entry, d) =>
          match entryAt d entry with
          | none => .error .nullDeref
          | some auxentry => .ok (0, some auxentry.val, dictSetVal d entry val)

/-! ## Section 5: The default hash function -/

/-- `dict_hash_function_seed`. -/
def dictHashFunctionSeed : UInt32 := 5381

/-- The multiplier `m`. -/
def murmurM : UInt32 := 0x5bd1e995

/-- One round of `while (len >= 4)`; the four bytes are read little-endian. -/
def murmurRound (h : UInt32) (b0 b1 b2 b3 : UInt8) : UInt32 :=
  let k := b0.toUInt32 ||| (b1.toUInt32 <<< 8) ||| (b2.toUInt32 <<< 16) ||| (b3.toUInt32 <<< 24)
  let k := k * murmurM
  let k := k ^^^ (k >>> 24)
  let k := k * murmurM
  (h * murmurM) ^^^ k

/-- The word loop and the `switch` on what is left. -/
def murmurBody (h : UInt32) : Bytes → UInt32
  | b0 :: b1 :: b2 :: b3 :: data => murmurBody (murmurRound h b0 b1 b2 b3) data
  | [b0, b1, b2] =>
    (h ^^^ (b2.toUInt32 <<< 16) ^^^ (b1.toUInt32 <<< 8) ^^^ b0.toUInt32) * murmurM
  | [b0, b1] => (h ^^^ (b1.toUInt32 <<< 8) ^^^ b0.toUInt32) * murmurM
  | [b0] => (h ^^^ b0.toUInt32) * murmurM
  | [] => h

def dictGenHashFunction (key : Bytes) : UInt32 :=
  let h := murmurBody (dictHashFunctionSeed ^^^ UInt32.ofNat key.length) key
  let h := h ^^^ (h >>> 13)
  let h := h * murmurM
  h ^^^ (h >>> 15)

end BoAtom
