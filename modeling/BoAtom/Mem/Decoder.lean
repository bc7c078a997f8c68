import BoAtom.Mem.TcpServer

/-! # The decoder without memory

    The receiving side of a connection as a function of the bytes read: the
    buffer, how far the current command is, and the commands handed over so
    far.  The two scans are the server's; what is gone is the heap, the
    pools, the queue and everything the clients share.  `Simulation` proves
    that the callbacks follow it. -/

namespace BoAtom

open CString

/-! ## Section 1: State -/

/-- The current command: its argument count, the items received in full,
    and of the item being received the size and the bytes so far. -/
structure DecCmd where
  argc : Int
  items : List Bytes
  part : Option (Nat × Bytes)
  deriving DecidableEq, Repr

structure Dec where
  buf : RecvBuf
  pos : Nat
  cur : Option DecCmd
  /-- Everything read so far. -/
  got : Bytes
  /-- The commands completed so far. -/
  handed : List (List Bytes)

/-- A connection just accepted. -/
def Dec.fresh : Dec := { buf := .zero, pos := 0, cur := none, got := [], handed := [] }

def DecCmd.start (num : Int) : DecCmd := { argc := num, items := [], part := none }

/-- What argument `i` holds: its size and the bytes received. -/
def DecCmd.slotAt (d : DecCmd) (i : Nat) : Option (Nat × Bytes) :=
  if i < d.items.length then (d.items[i]?).map fun bs => (bs.length, bs)
  else if i = d.items.length then d.part else none

/-- The command after `xs` has been read into its current item. -/
def DecCmd.extend (dc : DecCmd) (n : Nat) (bs xs : Bytes) : DecCmd :=
  if bs.length + xs.length ≥ n then { dc with items := dc.items ++ [bs ++ xs], part := none }
  else { dc with part := some (n, bs ++ xs) }

theorem bound_data {r : ReadResult} {asked : Nat} {xs : Bytes} (h : r.bound asked = .data xs) :
    xs ≠ [] ∧ xs.length ≤ asked := by
  unfold ReadResult.bound at h
  split at h
  · split at h
    · simp at h
    · next hne =>
      simp only [ReadResult.data.injEq] at h
      subst h
      exact ⟨hne, by simp⟩
  · next hnot => exact absurd h (hnot xs)

theorem bound_of_le {xs : Bytes} {asked : Nat} (hne : xs ≠ []) (hle : xs.length ≤ asked) :
    (ReadResult.data xs).bound asked = .data xs := by
  simp only [ReadResult.bound, List.take_of_length_le hle, hne, if_false]

theorem scanItem_size {buf : RecvBuf} {total pre num : Nat} (h : scanItem buf total pre = .size num) :
    pre < total ∧ 5 < num := by
  unfold scanItem at h
  split at h
  · simp at h
  · next hlt =>
    split at h
    · simp at h
    · split at h
      · simp at h
      · simp only at h
        split at h
        · simp at h
        · next hnum =>
          simp only [ItemScan.size.injEq] at h
          omega

namespace Dec

def keepFrom (d : Dec) (total pre : Nat) : Dec :=
  if pre ≠ 0 then { d with buf := d.buf.write 0 (d.buf.slice pre total), pos := total - pre } else d

/-! ## Section 2: Decoding the buffer -/

def headerStage (total pre : Nat) (d : Dec) : Flow Dec :=
  match scanHeader d.buf total pre with
  | .skipped => .ret 0 { d with pos := 0 }
  | .partLine pre => .ret 0 (d.keepFrom total pre)
  | .noStar => .ret (-1) d
  | .zero stop => .ret (-1) { d with buf := d.buf.write stop [0] }
  | .count num stop => .next (stop + 2) { d with buf := d.buf.write stop [0], cur := some (.start num) }

def itemLoop (total : Nat) : Nat → Nat → Dec → Except Fault (Flow Dec)
  | 0, _, _ => .error .diverge
  | fuel + 1, pre, d =>
    match d.cur with
    | none => .error .nullDeref
    | some dc =>
      if ¬ (dc.items.length : Int) < dc.argc then .ok (.next pre d)
      else
        match scanItem d.buf total pre with
        | .empty => .ok (.ret 0 { d with pos := 0 })
        | .noDollar => .ok (.ret (-1) d)
        | .partLine => .ok (.ret 0 (d.keepFrom total pre))
        | .short => .ok (.ret (-1) d)
        | .size num =>
          if dc.items.length ≥ cmdArgsMax then .error (.cmdIndex dc.items.length)
          else if pre + num > total then
            .ok (.ret 0 { d with
              pos := 0, cur := some { dc with part := some (num, d.buf.slice pre total) } })
          else
            itemLoop total fuel (pre + num)
              { d with cur := some { dc with
                items := dc.items ++ [d.buf.slice pre (pre + num)], part := none } }

/-- The command is complete; one with a negative count faults here. -/
def complete (dc : DecCmd) (d : Dec) : Except Fault Dec :=
  if dc.argc < 0 then .error (.cmdIndex (dc.argc - 1))
  else .ok { d with cur := none, handed := d.handed ++ [dc.items] }

def completeIfFull (d : Dec) : Except Fault Dec :=
  match d.cur with
  | none => .error .nullDeref
  | some dc => if (dc.items.length : Int) ≥ dc.argc then complete dc d else .ok d

/-- Is a header to be read next? -/
def wantsHeader (d : Dec) : Bool :=
  match d.cur with
  | none => true
  | some dc => decide ((dc.items.length : Int) ≥ dc.argc)

def decodeCmd (total pre : Nat) (d : Dec) : Except Fault (Flow Dec) :=
  (if d.wantsHeader then headerStage total pre d else .next pre d).andThen
    (itemLoop total (clientRecvCmdLength + 1))

def checkLoop (total : Nat) : Nat → Nat → Dec → Except Fault (Int × Dec)
  | 0, _, _ => .error .diverge
  | fuel + 1, pre, d =>
    (decodeCmd total pre d).bind fun
      | .ret code d => .ok (code, d)
      | .next pre d =>
        (completeIfFull d).bind fun d =>
          if pre ≥ total then .ok (0, { d with pos := 0 }) else checkLoop total fuel pre d

def check (d : Dec) (total : Nat) : Except Fault (Int × Dec) :=
  checkLoop total (clientRecvCmdLength + 1) 0 d

/-- A current command is still waiting for an item. -/
def Open (d : Dec) : Prop := ∀ dc, d.cur = some dc → (dc.items.length : Int) < dc.argc

theorem Open.wantsHeader {d : Dec} (h : d.Open) : d.wantsHeader = d.cur.isNone := by
  unfold Dec.wantsHeader
  rcases hdc : d.cur with _ | dc
  · rfl
  · simpa using h dc hdc

/-! ## Section 3: One pass -/

/-- Freeing the arguments visits every index below the count. -/
def freeable (dc : DecCmd) : Except Fault Unit :=
  if dc.argc ≤ cmdArgsMax then .ok () else .error (.cmdIndex cmdArgsMax)

/-- `_free_client_cur_cmd`; without a current command it returns early. -/
def reject (d : Dec) : Except Fault Dec :=
  match d.cur with
  | none => .ok d
  | some dc => (freeable dc).bind fun _ => .ok { d with cur := none, pos := 0 }

/-- The state once `xs` has been read into the buffer. -/
def read (d : Dec) (xs : Bytes) : Dec :=
  { d with buf := d.buf.write d.pos xs, pos := d.pos + xs.length, got := d.got ++ xs }

def recvItem (dc : DecCmd) (n : Nat) (bs : Bytes) (r : ReadResult) (d : Dec) :
    Except Fault (PassEnd × Dec) :=
  match r.bound (n - bs.length) with
  | .eagain => .ok (.returned, d)
  | .eof | .error => .ok (.disconnect, d)
  | .data xs =>
    let pos := if bs.length + xs.length ≥ n then 0 else d.pos
    (completeIfFull { d with pos := pos, cur := some (dc.extend n bs xs), got := d.got ++ xs }).bind
      fun d => .ok (.again, d)

def recvHeader (r : ReadResult) (d : Dec) : Except Fault (PassEnd × Dec) :=
  match r.bound (clientRecvCmdLength - d.pos) with
  | .eagain => .ok (.returned, d)
  | .eof | .error => .ok (.disconnect, d)
  | .data xs =>
    (check (d.read xs) (d.pos + xs.length)).bind fun (code, d) =>
      (if code < 0 then reject d else .ok d).bind fun d => .ok (.again, d)

def pass (d : Dec) (r : ReadResult) : Except Fault (PassEnd × Dec) :=
  match d.cur with
  | none => recvHeader r d
  | some dc =>
    if dc.items.length ≥ cmdArgsMax then .error (.cmdIndex dc.items.length)
    else
      match dc.part with
      | some (n, bs) => recvItem dc n bs r d
      | none => recvHeader r d

/-- `clientDelete` frees the current command. -/
def close (d : Dec) : Except Fault Unit :=
  match d.cur with
  | none => .ok ()
  | some dc => freeable dc

/-- A pass, and the end of the connection where it comes to one. -/
def step (d : Dec) (r : ReadResult) : Except Fault (PassEnd × Dec) :=
  (d.pass r).bind fun
    | (.disconnect, d) => d.close.map fun _ => (.disconnect, d)
    | out => .ok out

/-! ## Section 4: A command that is not complete stays open -/

theorem completeIfFull_open {d d' : Dec} (h : d.completeIfFull = .ok d') : d'.Open := by
  unfold completeIfFull at h
  split at h
  · simp at h
  · next dc hdc =>
    split at h
    · unfold complete at h
      split at h
      · simp at h
      · simp only [Except.ok.injEq] at h
        subst h
        intro dc' hdc'
        simp at hdc'
    · next hmore =>
      simp only [Except.ok.injEq] at h
      subst h
      intro dc' hdc'
      rw [hdc] at hdc'
      simp only [Option.some.injEq] at hdc'
      subst hdc'
      exact Int.lt_of_not_ge hmore

end Dec

end BoAtom
