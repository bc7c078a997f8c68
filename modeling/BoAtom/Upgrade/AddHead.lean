import Mathlib.Data.List.TakeDrop
import BoAtom.Lib.Layout

/-! # Adding the firmware header

    `add_hisiHead` of `test_client.c`: the header goes to a second file, the
    original is copied behind it, the header is written once more with the
    checksum of what has been read, and the second file takes the place of
    the original.

    The copy loop ends at a failed `read` as it does at the end of the file,
    and what its `write` returns is not looked at; nor are the results of
    `unlink` and `rename`.  Section 3 says when the file ends up whole. -/

namespace BoAtom.Upgrade

open Memory Layout CString

/-! ## Section 1: `add_hisiHead` -/

/-- `upgrade_head_t`: the offsets of its fields and its size. -/
structure UpgradeHead where
  magic : Nat := 0
  hardware_version : Nat := 8
  md5 : Nat := 40
  rev : Nat := 56
  size : Nat := 128

def upgradeHead : UpgradeHead := {}

/-- `"DVO-IPCS"`. -/
def magicStringHeader : Bytes := [68, 86, 79, 45, 73, 80, 67, 83]

/-- `BLOCK_SIZE`. -/
def copyBlockSize : Nat := 1 * 1024 * 1024

/-- `MD5_Init`, `MD5_Update` and `MD5_Final`: the digest of all updates, one
    after the other. -/
structure Md5 where
  Ctx : Type
  init : Ctx
  update : Ctx → Bytes → Ctx
  final : Ctx → Bytes
  digest : Bytes → Bytes
  length_digest : ∀ bs, (digest bs).length = 16
  final_updates : ∀ bss : List Bytes, final (bss.foldl update init) = digest bss.flatten

/-- `strcat` to the string at `off`. -/
def strcat (buf : Bytes) (off : Nat) (src : Bytes) : Bytes :=
  overlay buf (off + strlen (buf.drop off)) (src ++ [0])

/-- What `write` takes of `bs`: nothing when it fails, else `n` bytes at most. -/
def accepted (w : Option Nat) (bs : Bytes) : Bytes := bs.take (w.getD 0)

/-- One pass through the copy loop. -/
inductive Copy where
  | readFailed
  /-- `read` gives `n + 1` bytes at most; `w` is what `write` does with them. -/
  | read (n : Nat) (w : Option Nat)

/-- How the operations go, in the order of the calls. -/
structure FileOps where
  malloc : Bool := true
  openSrc : Bool := true
  openDst : Bool := true
  firstHead : Option Nat := some upgradeHead.size
  copies : List Copy
  lseek : Bool := true
  secondHead : Option Nat := some upgradeHead.size
  unlink : Bool := true
  rename : Bool := true

/-- The file at the given name, and the one at the name with `_tmp`. -/
structure Files where
  file : Option Bytes
  tmp : Option Bytes
  deriving DecidableEq, Repr

/-- The block that one `read` gives. -/
def blockOf (n : Nat) (rest : Bytes) : Bytes := rest.take (min (n + 1) copyBlockSize)

/-- The copy loop: `rest` is still to be read, `dst` has been written.  The
    result is missing while the loop goes on. -/
def copyLoop (M : Md5) : List Copy → Bytes → M.Ctx → Bytes → Option (M.Ctx × Bytes)
  | [], _, _, _ => none
  | .readFailed :: _, _, ctx, dst => some (ctx, dst)
  | .read n w :: copies, rest, ctx, dst =>
    let buf := blockOf n rest
    if buf = [] then some (ctx, dst)
    else copyLoop M copies (rest.drop buf.length) (M.update ctx buf) (dst ++ accepted w buf)

def addHisiHead (M : Md5) (hdversion : Bytes) (ops : FileOps) (fs : Files) : Option (Int × Files) :=
  let hisi_head := List.replicate upgradeHead.size 0
  let hisi_head := strcat hisi_head upgradeHead.magic magicStringHeader
  let hisi_head := strcat hisi_head upgradeHead.hardware_version hdversion
  if !ops.malloc then some (-1, fs)
  else
    match fs.file with
    | none => some (-1, fs)
    | some content =>
      if !ops.openSrc then some (-1, fs)
      else if !ops.openDst then some (-1, fs)
      else
        let dst := accepted ops.firstHead hisi_head
        if dst.length ≠ upgradeHead.size then some (-1, { fs with tmp := some dst })
        else
          match copyLoop M ops.copies content M.init dst with
          | none => none
          | some (ctx, dst) =>
            let hisi_head := overlay hisi_head upgradeHead.md5 (M.final ctx)
            if !ops.lseek then some (-1, { fs with tmp := some dst })
            else
              let head := accepted ops.secondHead hisi_head
              let dst := overlay dst 0 head
              if head.length ≠ upgradeHead.size then some (-1, { fs with tmp := some dst })
              else
                let fs := if ops.unlink then { fs with file := none } else fs
                let fs := if ops.rename then { file := some dst, tmp := none } else { fs with tmp := some dst }
                some (0, fs)

/-! ## Section 2: The header -/

variable {M : Md5} {hdversion digest content rest dst : Bytes} {ops : FileOps} {fs fs' : Files}
  {copies : List Copy} {ctx : M.Ctx} {w : Option Nat}

/-- The header: magic, padded version, checksum and 72 zero bytes. -/
def header (hdversion digest : Bytes) : Bytes :=
  magicStringHeader ++ (hdversion ++ List.replicate (32 - hdversion.length) 0) ++ digest ++
    List.replicate 72 0

theorem length_header (hlen : hdversion.length < 32) (hdigest : digest.length = 16) :
    (header hdversion digest).length = upgradeHead.size := by
  simp only [header, List.length_append, List.length_replicate, hdigest, magicStringHeader,
    List.length_cons, List.length_nil, upgradeHead]
  omega

theorem strlen_replicate (n : Nat) : strlen (List.replicate n 0) = 0 := by
  cases n with
  | zero => rfl
  | succ n => simp [strlen, chars, List.replicate_succ]

/-- `strcat` to an empty string that is followed by zeros. -/
theorem strcat_zeros (a src : Bytes) {n : Nat} (h : src.length < n) :
    strcat (a ++ List.replicate n 0) a.length src = a ++ (src ++ List.replicate (n - src.length) 0) := by
  have hfits : a.length + (src ++ [0]).length ≤ (a ++ List.replicate n 0).length := by
    simp only [List.length_append, List.length_replicate, List.length_cons, List.length_nil]
    omega
  have hzeros : [0] ++ List.replicate (n - (src ++ [0]).length) 0 = List.replicate (n - src.length) (0 : UInt8) := by
    rw [← List.replicate_one, List.replicate_append_replicate, List.length_append, List.length_replicate]
    congr 1
    omega
  rw [strcat, List.drop_left, strlen_replicate, Nat.add_zero, overlay_eq hfits, List.take_left,
    List.drop_append, List.drop_replicate]
  simp only [List.append_assoc, Nat.add_sub_cancel_left]
  rw [List.drop_eq_nil_of_le (Nat.le_add_right ..), List.nil_append, hzeros]

/-- The header with the checksum still zero. -/
theorem strcat_header (hlen : hdversion.length < 32) :
    strcat (strcat (List.replicate upgradeHead.size 0) upgradeHead.magic magicStringHeader)
      upgradeHead.hardware_version hdversion = header hdversion (List.replicate 16 0) := by
  have hmagic := strcat_zeros [] magicStringHeader (n := upgradeHead.size) (by decide)
  have hversion := strcat_zeros magicStringHeader hdversion (n := 120) (by omega)
  have hzeros : List.replicate (120 - hdversion.length) (0 : UInt8) =
      List.replicate (32 - hdversion.length) 0 ++ List.replicate 16 0 ++ List.replicate 72 0 := by
    rw [List.replicate_append_replicate, List.replicate_append_replicate]
    congr 1
    omega
  rw [List.nil_append, List.nil_append] at hmagic
  rw [hzeros] at hversion
  calc strcat (strcat (List.replicate upgradeHead.size 0) upgradeHead.magic magicStringHeader)
        upgradeHead.hardware_version hdversion
      = strcat (magicStringHeader ++ List.replicate 120 0) magicStringHeader.length hdversion := by
        exact congrArg (fun b => strcat b 8 hdversion) hmagic
    _ = header hdversion (List.replicate 16 0) := by
        rw [hversion, header]
        simp only [List.append_assoc]

/-- `MD5_Final` fills the checksum in. -/
theorem overlay_header (hlen : hdversion.length < 32) (hdigest : digest.length = 16) :
    overlay (header hdversion (List.replicate 16 0)) upgradeHead.md5 digest = header hdversion digest := by
  have hfront : (magicStringHeader ++ (hdversion ++ List.replicate (32 - hdversion.length) 0)).length =
      upgradeHead.md5 := by
    simp only [List.length_append, List.length_replicate, magicStringHeader, List.length_cons,
      List.length_nil, upgradeHead]
    omega
  rw [header, header, ← hfront]
  exact overlay_middle _ _ (by rw [hdigest, List.length_replicate])

/-! ## Section 3: The copy -/

/-- The copy is whole: no `read` fails before the end of the file, and each
    `write` takes its block. -/
def CopiesAll : List Copy → Bytes → Prop
  | [], _ => False
  | .readFailed :: _, rest => rest = []
  | .read n w :: copies, rest =>
    rest = [] ∨ (blockOf n rest).length ≤ w.getD 0 ∧ CopiesAll copies (rest.drop (blockOf n rest).length)

theorem blockOf_eq_nil {n : Nat} : blockOf n rest = [] ↔ rest = [] := by
  rw [blockOf, List.take_eq_nil_iff]
  constructor
  · rintro (hzero | hnil)
    · exact absurd hzero (by rw [copyBlockSize]; omega)
    · exact hnil
  · exact Or.inr

theorem blockOf_append_drop (n : Nat) (rest : Bytes) :
    blockOf n rest ++ rest.drop (blockOf n rest).length = rest :=
  List.prefix_iff_eq_append.mp (List.take_prefix _ _)

theorem length_accepted_le (w : Option Nat) (bs : Bytes) : (accepted w bs).length ≤ bs.length :=
  List.length_take_le' ..

theorem accepted_eq_iff {bs : Bytes} : accepted w bs = bs ↔ bs.length ≤ w.getD 0 := by
  rw [accepted, List.take_eq_self_iff]

/-- **The copy loop**: the checksum is taken over a first part of the file,
    and what is written is the whole file just when the copy is whole. -/
theorem copyLoop_spec (bss : List Bytes) (hctx : ctx = bss.foldl M.update M.init) {ctx' : M.Ctx} {dst' : Bytes}
    (hloop : copyLoop M copies rest ctx dst = some (ctx', dst')) :
    ∃ read out, M.final ctx' = M.digest (bss.flatten ++ read) ∧ read <+: rest ∧ dst' = dst ++ out ∧
      out.length ≤ read.length ∧ (out = rest ↔ CopiesAll copies rest) := by
  induction copies generalizing rest ctx dst bss with
  | nil => cases hloop
  | cons copy copies ih =>
    -- the loop ends here
    have hstop : ctx = ctx' → dst = dst' → (rest = [] ↔ CopiesAll (copy :: copies) rest) →
        ∃ read out, M.final ctx' = M.digest (bss.flatten ++ read) ∧ read <+: rest ∧ dst' = dst ++ out ∧
          out.length ≤ read.length ∧ (out = rest ↔ CopiesAll (copy :: copies) rest) := by
      rintro rfl rfl hall
      refine ⟨[], [], ?_, List.nil_prefix, (List.append_nil dst).symm, Nat.le_refl _, ?_⟩
      · rw [hctx, M.final_updates, List.append_nil]
      · rw [← hall, eq_comm]
    cases copy with
    | readFailed =>
      rw [copyLoop, Option.some.injEq, Prod.mk.injEq] at hloop
      exact hstop hloop.1 hloop.2 (by rw [CopiesAll])
    | read n w =>
      rw [copyLoop] at hloop
      by_cases hnil : rest = []
      · rw [if_pos (blockOf_eq_nil.mpr hnil), Option.some.injEq, Prod.mk.injEq] at hloop
        exact hstop hloop.1 hloop.2 (by rw [CopiesAll]; exact ⟨Or.inl, fun _ => hnil⟩)
      rw [if_neg fun hblock => hnil (blockOf_eq_nil.mp hblock)] at hloop
      have hctx' : M.update ctx (blockOf n rest) = (bss ++ [blockOf n rest]).foldl M.update M.init := by
        rw [List.foldl_append, ← hctx, List.foldl_cons, List.foldl_nil]
      obtain ⟨read, out, hfinal, ⟨t, ht⟩, hdst, hle, hall⟩ := ih _ hctx' hloop
      have hsplit := blockOf_append_drop n rest
      have htaken := length_accepted_le w (blockOf n rest)
      have hread : read.length ≤ (rest.drop (blockOf n rest).length).length := by
        rw [← ht, List.length_append]
        exact Nat.le_add_right ..
      refine ⟨blockOf n rest ++ read, accepted w (blockOf n rest) ++ out, ?_, ⟨t, ?_⟩, ?_, ?_, ?_⟩
      · rw [hfinal, List.flatten_append, List.flatten_singleton, List.append_assoc]
      · rw [List.append_assoc, ht, hsplit]
      · rw [hdst, List.append_assoc]
      · rw [List.length_append, List.length_append]
        exact Nat.add_le_add htaken hle
      · rw [CopiesAll, or_iff_right hnil, ← hall, ← accepted_eq_iff]
        constructor
        · -- nothing that one block lacks is made up for by the others
          intro heq
          have hboth : accepted w (blockOf n rest) ++ out =
              blockOf n rest ++ rest.drop (blockOf n rest).length := heq.trans hsplit.symm
          have hlen := congrArg List.length hboth
          rw [List.length_append, List.length_append] at hlen
          exact List.append_inj hboth (by omega)
        · rintro ⟨hblock, hout⟩
          rw [hblock, hout, hsplit]

/-- A copy with more passes than the file has bytes comes to its end. -/
theorem copyLoop_returns (hmany : rest.length < copies.length) :
    (copyLoop M copies rest ctx dst).isSome := by
  induction copies generalizing rest ctx dst with
  | nil => exact absurd hmany (Nat.not_lt_zero _)
  | cons copy copies ih =>
    cases copy with
    | readFailed => rfl
    | read n w =>
      rw [copyLoop]
      by_cases hblock : blockOf n rest = []
      · rw [if_pos hblock]
        rfl
      · rw [if_neg hblock]
        apply ih
        have hpos := List.length_pos_iff.mpr hblock
        have hle : (blockOf n rest).length ≤ rest.length := List.length_take_le' ..
        rw [List.length_drop]
        rw [List.length_cons] at hmany
        omega

/-! ## Section 4: The file at the given name -/

/-- `add_hisiHead` gives up before it unlinks the original. -/
def FileOps.Stops (ops : FileOps) : Prop :=
  ops.malloc = false ∨ ops.openSrc = false ∨ ops.openDst = false ∨
    ops.firstHead.getD 0 < upgradeHead.size ∨ ops.lseek = false ∨ ops.secondHead.getD 0 < upgradeHead.size

/-- What is found at the name when the second file is complete. -/
def FileOps.placed (ops : FileOps) (content dst : Bytes) : Option Bytes :=
  if ops.rename then some dst else if ops.unlink then none else some content

theorem length_accepted_head {head : Bytes} (hhead : head.length = upgradeHead.size) :
    (accepted w head).length = upgradeHead.size ↔ ¬ w.getD 0 < upgradeHead.size := by
  rw [accepted, List.length_take, hhead]
  omega

/-- The two ways through the function. -/
theorem addHisiHead_spec (hlen : hdversion.length < 32) (hfile : fs.file = some content) {ret : Int}
    (hret : addHisiHead M hdversion ops fs = some (ret, fs')) :
    (ops.Stops ∧ ret = -1 ∧ fs'.file = some content) ∨
      (¬ ops.Stops ∧ ret = 0 ∧ ∃ read out, read <+: content ∧ out.length ≤ read.length ∧
        (out = content ↔ CopiesAll ops.copies content) ∧
        fs'.file = ops.placed content (header hdversion (M.digest read) ++ out)) := by
  have hzero : (header hdversion (List.replicate 16 0)).length = upgradeHead.size :=
    length_header hlen List.length_replicate
  have hstop : ∀ t : Files, t.file = some content → ops.Stops → some ((-1 : Int), t) = some (ret, fs') →
      ops.Stops ∧ ret = -1 ∧ fs'.file = some content := by
    intro t ht hstops heq
    rw [Option.some.injEq, Prod.mk.injEq] at heq
    exact ⟨hstops, heq.1.symm, heq.2 ▸ ht⟩
  rw [addHisiHead, strcat_header hlen, hfile] at hret
  dsimp only at hret
  rcases hmalloc : ops.malloc with _ | _
  · rw [hmalloc] at hret
    exact Or.inl (hstop fs hfile (Or.inl hmalloc) hret)
  rcases hsrc : ops.openSrc with _ | _
  · rw [hmalloc, hsrc] at hret
    exact Or.inl (hstop fs hfile (Or.inr (Or.inl hsrc)) hret)
  rcases hdst : ops.openDst with _ | _
  · rw [hmalloc, hsrc, hdst] at hret
    exact Or.inl (hstop fs hfile (Or.inr (Or.inr (Or.inl hdst))) hret)
  simp only [hmalloc, hsrc, hdst, Bool.not_true, Bool.false_eq_true, if_false, ite_not] at hret
  by_cases hfirst : ops.firstHead.getD 0 < upgradeHead.size
  · rw [if_neg fun heq => (length_accepted_head hzero).mp heq hfirst] at hret
    exact Or.inl (hstop _ rfl (Or.inr (Or.inr (Or.inr (Or.inl hfirst)))) hret)
  rw [if_pos ((length_accepted_head hzero).mpr hfirst)] at hret
  rcases hloop : copyLoop M ops.copies content M.init
      (accepted ops.firstHead (header hdversion (List.replicate 16 0))) with _ | ⟨ctx, dst⟩
  · rw [hloop] at hret
    cases hret
  simp only [hloop] at hret
  rcases hlseek : ops.lseek with _ | _
  · rw [hlseek] at hret
    exact Or.inl (hstop _ rfl (Or.inr (Or.inr (Or.inr (Or.inr (Or.inl hlseek))))) hret)
  -- the checksum goes into the header
  obtain ⟨read, out, hfinal, hread, rfl, hle, hall⟩ := copyLoop_spec [] rfl hloop
  rw [List.flatten_nil, List.nil_append] at hfinal
  rw [hfinal, overlay_header hlen (M.length_digest read), hlseek] at hret
  simp only [Bool.not_true, Bool.false_eq_true, if_false] at hret
  have hhead : (header hdversion (M.digest read)).length = upgradeHead.size :=
    length_header hlen (M.length_digest read)
  by_cases hsecond : ops.secondHead.getD 0 < upgradeHead.size
  · rw [if_neg fun heq => (length_accepted_head hhead).mp heq hsecond] at hret
    exact Or.inl (hstop _ rfl (Or.inr (Or.inr (Or.inr (Or.inr (Or.inr hsecond))))) hret)
  rw [if_pos ((length_accepted_head hhead).mpr hsecond), Option.some.injEq, Prod.mk.injEq] at hret
  have hgo : ¬ ops.Stops := by
    rintro (h | h | h | h | h | h)
    · exact absurd h (by rw [hmalloc]; decide)
    · exact absurd h (by rw [hsrc]; decide)
    · exact absurd h (by rw [hdst]; decide)
    · exact hfirst h
    · exact absurd h (by rw [hlseek]; decide)
    · exact hsecond h
  -- and takes the place of the first one
  have hwhole : ∀ {w : Option Nat} {head : Bytes}, head.length = upgradeHead.size →
      ¬ w.getD 0 < upgradeHead.size → accepted w head = head := by
    intro w head hhead hw
    rw [accepted_eq_iff, hhead]
    exact Nat.le_of_not_lt hw
  have hplace : overlay (header hdversion (List.replicate 16 0) ++ out) 0 (header hdversion (M.digest read)) =
      header hdversion (M.digest read) ++ out :=
    overlay_middle [] out (hhead.trans hzero.symm)
  rw [hwhole hzero hfirst, hwhole hhead hsecond, hplace] at hret
  refine Or.inr ⟨hgo, hret.1.symm, read, out, hread, hle, hall, ?_⟩
  rw [← hret.2, FileOps.placed]
  rcases ops.rename with _ | _ <;> rcases ops.unlink with _ | _ <;> first | rfl | exact hfile

/-- The file at the name is the original, or the header and the original
    behind it; it is the latter when 0 is returned. -/
structure AllOrNothing (M : Md5) (hdversion content : Bytes) (ret : Int) (fs : Files) : Prop where
  either : fs.file = some content ∨ fs.file = some (header hdversion (M.digest content) ++ content)
  success : ret = 0 → fs.file = some (header hdversion (M.digest content) ++ content)

/-- A file with the header in front of part of it is the whole one just when
    the part is. -/
theorem header_append_eq_iff {read out : Bytes} (hlen : hdversion.length < 32) (hread : read <+: content)
    (hle : out.length ≤ read.length) :
    header hdversion (M.digest read) ++ out = header hdversion (M.digest content) ++ content ↔
      out = content := by
  have hlength : (header hdversion (M.digest read)).length = (header hdversion (M.digest content)).length := by
    rw [length_header hlen (M.length_digest _), length_header hlen (M.length_digest _)]
  constructor
  · intro heq
    exact (List.append_inj heq hlength).2
  · rintro rfl
    rw [hread.eq_of_length_le hle]

/-- **The header is added to all of the file or not at all** just when the
    function gives up in time, or nothing goes wrong in the copy and in
    `rename`. -/
theorem addHisiHead_whole_iff (hlen : hdversion.length < 32) (hfile : fs.file = some content) {ret : Int}
    (hret : addHisiHead M hdversion ops fs = some (ret, fs')) :
    AllOrNothing M hdversion content ret fs' ↔
      ops.Stops ∨ (CopiesAll ops.copies content ∧ ops.rename = true) := by
  rcases addHisiHead_spec hlen hfile hret with
    ⟨hstops, rfl, hkept⟩ | ⟨hgo, rfl, read, out, hread, hle, hall, hplaced⟩
  · exact ⟨fun _ => Or.inl hstops, fun _ => ⟨Or.inl hkept, fun h => absurd h (by decide)⟩⟩
  rw [or_iff_right hgo, ← hall, ← header_append_eq_iff (M := M) hlen hread hle]
  have hpos : 0 < (header hdversion (M.digest content)).length := by
    rw [length_header hlen (M.length_digest _)]
    decide
  constructor
  · intro h
    have hnew := h.success rfl
    rw [hplaced, FileOps.placed] at hnew
    rcases hrename : ops.rename with _ | _
    · -- the original is unlinked, or still there without the header
      exfalso
      rw [hrename, if_neg Bool.false_ne_true] at hnew
      by_cases hunlink : ops.unlink = true
      · rw [if_pos hunlink] at hnew
        cases hnew
      · rw [if_neg hunlink] at hnew
        have hlength := congrArg List.length (Option.some.inj hnew)
        rw [List.length_append] at hlength
        omega
    · rw [hrename, if_pos rfl] at hnew
      exact ⟨Option.some.inj hnew, rfl⟩
  · rintro ⟨hwhole, hrename⟩
    have hnew : fs'.file = some (header hdversion (M.digest content) ++ content) := by
      rw [hplaced, FileOps.placed, if_pos hrename, hwhole]
    exact ⟨Or.inr hnew, fun _ => hnew⟩

/-- The checksums of nothing and of `"a"`. -/
def sampleDigest (bs : Bytes) : Bytes :=
  if bs = [97] then
    [0x0c, 0xc1, 0x75, 0xb9, 0xc0, 0xf1, 0xb6, 0xa8, 0x31, 0xc3, 0x99, 0xe2, 0x69, 0x77, 0x26, 0x61]
  else
    [0xd4, 0x1d, 0x8c, 0xd9, 0x8f, 0x00, 0xb2, 0x04, 0xe9, 0x80, 0x09, 0x98, 0xec, 0xf8, 0x42, 0x7e]

def sampleMd5 : Md5 where
  Ctx := Bytes
  init := []
  update := (· ++ ·)
  final := sampleDigest
  digest := sampleDigest
  length_digest bs := by
    rw [sampleDigest]
    split <;> rfl
  final_updates bss := by
    have hcat : ∀ ctx : Bytes, bss.foldl (· ++ ·) ctx = ctx ++ bss.flatten := by
      induction bss with
      | nil => intro ctx; simp
      | cons bs bss ih => intro ctx; simp [ih]
    rw [hcat, List.nil_append]

/-- All of the file `"a"` is copied. -/
def copied : FileOps := { copies := [.read 1023 (some 1), .read 1023 none] }

theorem addHisiHead_whole_iff_copied :
    AllOrNothing sampleMd5 [49, 46, 48] [97] 0
        ⟨some (header [49, 46, 48] (sampleMd5.digest [97]) ++ [97]), none⟩ ↔
      copied.Stops ∨ (CopiesAll copied.copies [97] ∧ copied.rename = true) := by
  have hret : addHisiHead sampleMd5 [49, 46, 48] copied ⟨some [97], none⟩ =
      some (0, ⟨some (header [49, 46, 48] (sampleMd5.digest [97]) ++ [97]), none⟩) := by
    decide +kernel
  exact addHisiHead_whole_iff (by decide) rfl hret

/-- The first `read` of the file `"a"` fails: 0 is returned, and the file is
    the header alone. -/
theorem addHisiHead_truncates :
    addHisiHead sampleMd5 [49, 46, 48] { copies := [.readFailed] } ⟨some [97], none⟩ =
        some (0, ⟨some (header [49, 46, 48] (sampleMd5.digest [])), none⟩) ∧
      ¬ AllOrNothing sampleMd5 [49, 46, 48] [97] 0
        ⟨some (header [49, 46, 48] (sampleMd5.digest [])), none⟩ := by
  refine ⟨by decide +kernel, ?_⟩
  intro h
  exact absurd (h.success rfl) (by decide +kernel)

end BoAtom.Upgrade
