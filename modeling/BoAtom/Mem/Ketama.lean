import BoAtom.Fault
import BoAtom.Lib.Layout
import BoAtom.Lib.Loop

/-! # Z_my_work_mem/test_client/ketama.c

    The client puts points of every server on a circle and sends a key to
    the server of the next point behind the hash of the key.

    `ketama_get_server` searches the sorted points.  The search keeps the
    place of the next point between its two bounds (`Splits`, `Within`).

    What the circle is for: a new server takes keys over, and no key moves
    from one of the other servers to another (`adding_server_moves_to_it`).
    MD5 is a parameter; the number of points of a server, which the code
    computes in floating point, is given with the server.  Addresses have at
    most 21 bytes, which is what an `mcs` has room for. -/

namespace BoAtom

open Memory Layout Loop CString

/-! ## Section 1: The circle -/

structure Mcs where
  point : UInt32
  ip : Bytes
  deriving DecidableEq, Repr

/-- `digest[3+h*4] << 24 | digest[2+h*4] << 16 | digest[1+h*4] << 8 | digest[h*4]`. -/
def digestPoint (digest : Bytes) (h : Nat) : UInt32 := word32 .little (digest.drop (h * 4))

def ketamaHashi (md5 : Bytes → Bytes) (inString : Bytes) : UInt32 := digestPoint (md5 inString) 0

/-- `"%s-%d"`. -/
def pointName (addr : Bytes) (k : Nat) : Bytes := addr ++ 45 :: decimal k

/-- The points of one server: `ks` digests, four points each. -/
def serverPoints (md5 : Bytes → Bytes) (addr : Bytes) (ks : Nat) : List Mcs :=
  (List.range ks).flatMap fun k =>
    (List.range 4).map fun h => ⟨digestPoint (md5 (pointName addr k)) h, addr⟩

def allPoints (md5 : Bytes → Bytes) (servers : List (Bytes × Nat)) : List Mcs :=
  servers.flatMap fun s => serverPoints md5 s.1 s.2

def ketamaCompare (a b : Mcs) : Int :=
  if a.point < b.point then -1 else if a.point > b.point then 1 else 0

/-- What `qsort` leaves in the array. -/
structure IsContinuum (md5 : Bytes → Bytes) (servers : List (Bytes × Nat)) (array : List Mcs) : Prop where
  perm : array.Perm (allPoints md5 servers)
  sorted : array.Pairwise fun a b => ketamaCompare a b ≤ 0

/-! ## Section 2: The search -/

def pointAt (array : List Mcs) (i : Int) : Except Fault UInt32 :=
  if i < 0 then .error .overrun
  else match array[i.toNat]? with
    | none => .error .overrun
    | some x => .ok x.point

/-- `midp == 0 ? 0 : (*mcsarr)[midp-1].point`. -/
def pointBefore (array : List Mcs) (midp : Int) : Except Fault UInt32 :=
  if midp = 0 then .ok 0 else pointAt array (midp - 1)

/-- `if (lowp > highp) return &((*mcsarr)[0])`, or the next turn. -/
def narrow (lowp highp : Int) : Except Fault (Turn (Int × Int) Nat) :=
  if lowp > highp then .ok (.leaves 0) else .ok (.goes (lowp, highp))

/-- One turn of `while (1)`, from `lowp` and `highp`; the result is the index
    of the point whose address is returned. -/
def ketamaTurn (array : List Mcs) (h : UInt32) (s : Int × Int) : Except Fault (Turn (Int × Int) Nat) :=
  let midp := (s.1 + s.2).tdiv 2
  if midp = array.length then .ok (.leaves 0)
  else do
    let midval ← pointAt array midp
    let midval1 ← pointBefore array midp
    if h ≤ midval ∧ h > midval1 then .ok (.leaves midp.toNat)
    else if midval < h then narrow (midp + 1) s.2
    else narrow s.1 (midp - 1)

/-- The search of `ketama_get_server` for the hash `h`; the bounds close in
    with every turn. -/
def ketamaSearch (array : List Mcs) (h : UInt32) : Except Fault Nat :=
  iterate (ketamaTurn array h) (.error .diverge) (array.length + 2) (0, array.length)

/-- `ketama_get_server(key, cont)->ip`. -/
def ketamaGetServer (md5 : Bytes → Bytes) (array : List Mcs) (key : Bytes) : Except Fault Bytes :=
  (ketamaSearch array (ketamaHashi md5 key)).bind fun i =>
    match array[i]? with
    | none => .error .overrun
    | some x => .ok x.ip

/-! ## Section 3: The search finds the next point -/

variable {array array' : List Mcs} {h : UInt32} {r : Nat} {x y : Mcs}

/-- The points before `r` are below `h`, those from `r` on are not. -/
structure Splits (array : List Mcs) (h : UInt32) (r : Nat) : Prop where
  le : r ≤ array.length
  below : ∀ i x, array[i]? = some x → i < r → x.point < h
  above : ∀ i x, array[i]? = some x → r ≤ i → h ≤ x.point

theorem compare_le (a b : Mcs) : ketamaCompare a b ≤ 0 ↔ a.point ≤ b.point := by
  unfold ketamaCompare
  split
  · next hlt => exact ⟨fun _ => UInt32.le_of_lt hlt, fun _ => by decide⟩
  · split
    · next hgt =>
      constructor
      · intro hle
        exact absurd hle (by decide)
      · intro hle
        exact absurd hle (UInt32.not_le.mpr hgt)
    · next hgt => exact ⟨fun _ => UInt32.not_lt.mp hgt, fun _ => le_refl _⟩

theorem exists_splits (hsorted : array.Pairwise fun a b => ketamaCompare a b ≤ 0) (h : UInt32) :
    ∃ r, Splits array h r := by
  -- the points are sorted, so those below `h` come first
  induction array with
  | nil => exact ⟨0, le_refl 0, fun i x hx => by simp at hx, fun i x hx => by simp at hx⟩
  | cons a array ih =>
    obtain ⟨hhead, htail⟩ := List.pairwise_cons.mp hsorted
    by_cases ha : a.point < h
    · obtain ⟨r, hr⟩ := ih htail
      refine ⟨r + 1, Nat.succ_le_succ hr.le, ?_, ?_⟩
      · intro i x hx hi
        cases i with
        | zero =>
          obtain rfl : a = x := Option.some.inj hx
          exact ha
        | succ i => exact hr.below i x hx (Nat.lt_of_succ_lt_succ hi)
      · intro i x hx hi
        cases i with
        | zero => omega
        | succ i => exact hr.above i x hx (Nat.le_of_succ_le_succ hi)
    · -- the first point is the next one already
      have hle : h ≤ a.point := UInt32.not_lt.mp ha
      refine ⟨0, Nat.zero_le _, fun i x _ hi => absurd hi (Nat.not_lt_zero i), ?_⟩
      intro i x hx _
      cases i with
      | zero =>
        obtain rfl : a = x := Option.some.inj hx
        exact hle
      | succ i =>
        have hmem : x ∈ array := List.mem_of_getElem? hx
        exact UInt32.le_trans hle ((compare_le a x).mp (hhead x hmem))

/-- The bounds of the search, and the number of turns that are left at most. -/
structure Within (r m : Nat) (s : Int × Int) : Prop where
  low : 0 ≤ s.1
  lower : s.1 ≤ r
  upper : (r : Int) ≤ s.2
  measure : s.2 - s.1 = m

/-- The index that is returned. -/
def wrapped (array : List Mcs) (r : Nat) : Nat := if r = array.length then 0 else r

theorem pointAt_some {i : Nat} (hx : array[i]? = some x) : pointAt array i = .ok x.point := by
  rw [pointAt, if_neg (by omega), Int.toNat_natCast, hx]

/-- The point before `mid`, or 0. -/
theorem pointBefore_spec {mid : Nat} (hmid : mid < array.length) :
    ∃ v, pointBefore array mid = .ok v ∧
      ((mid = 0 ∧ v = 0) ∨ ∃ y, 0 < mid ∧ array[mid - 1]? = some y ∧ y.point = v) := by
  by_cases hzero : mid = 0
  · refine ⟨0, ?_, Or.inl ⟨hzero, rfl⟩⟩
    rw [pointBefore, if_pos (by omega)]
  · have hlt : mid - 1 < array.length := by omega
    have hy : array[mid - 1]? = some (array.get ⟨mid - 1, hlt⟩) := List.getElem?_eq_getElem hlt
    have hcast : (mid : Int) - 1 = ((mid - 1 : Nat) : Int) := by omega
    refine ⟨_, ?_, Or.inr ⟨_, by omega, hy, rfl⟩⟩
    rw [pointBefore, if_neg (by omega), hcast, pointAt_some hy]

/-- A turn in the middle of the points. -/
theorem ketamaTurn_at {s : Int × Int} {mid : Nat} {v : UInt32} (hmid : (s.1 + s.2).tdiv 2 = mid)
    (hend : (mid : Int) ≠ array.length) (hx : array[mid]? = some x) (hv : pointBefore array mid = .ok v) :
    ketamaTurn array h s =
      if h ≤ x.point ∧ h > v then .ok (.leaves mid)
      else if x.point < h then narrow (mid + 1) s.2
      else narrow s.1 (mid - 1) := by
  simp only [ketamaTurn, hmid, if_neg hend, pointAt_some hx, hv, Int.toNat_natCast]
  rfl

/-- One turn of the search: the place stays between the bounds, or is found. -/
theorem ketamaTurn_spec (hr : Splits array h r) {m : Nat} {s : Int × Int} (hs : Within r m s)
    (hhigh : s.2 ≤ array.length) :
    (∃ s' m', Goes (ketamaTurn array h) s s' ∧ (Within r m' s' ∧ s'.2 ≤ array.length) ∧ m' < m) ∨
      ∃ i, ketamaTurn array h s = .ok (.leaves i) ∧ i = wrapped array r := by
  obtain ⟨lowp, highp⟩ := s
  obtain ⟨hlow, hlower, hupper, hmeasure⟩ := hs
  simp only at hlow hlower hupper hmeasure hhigh
  obtain ⟨mid, hmid⟩ : ∃ mid : Nat, (lowp + highp).tdiv 2 = mid := by
    refine ⟨((lowp + highp).tdiv 2).toNat, ?_⟩
    rw [Int.tdiv_eq_ediv_of_nonneg (by omega)]
    omega
  have hdiv : (mid : Int) = (lowp + highp) / 2 := by
    rw [← hmid, Int.tdiv_eq_ediv_of_nonneg (by omega)]
  have hlowmid : lowp ≤ mid := by omega
  have hmidhigh : (mid : Int) ≤ highp := by omega
  have hrle := hr.le
  unfold Goes
  by_cases hend : (mid : Int) = array.length
  · -- both bounds are at the end
    right
    refine ⟨0, ?_, ?_⟩
    · simp only [ketamaTurn, hmid, if_pos hend]
    · rw [wrapped, if_pos (by omega)]
  have hlt : mid < array.length := by omega
  have hx : array[mid]? = some (array.get ⟨mid, hlt⟩) := List.getElem?_eq_getElem hlt
  generalize array.get ⟨mid, hlt⟩ = x at hx
  obtain ⟨v, hv, hbefore⟩ := pointBefore_spec hlt
  rw [ketamaTurn_at hmid hend hx hv]
  by_cases hfound : h ≤ x.point ∧ h > v
  · -- the point is the next one: those before it are below
    right
    refine ⟨mid, if_pos hfound, ?_⟩
    have hge : r ≤ mid := by
      by_contra hlt'
      exact absurd hfound.1 (UInt32.not_le.mpr (hr.below mid x hx (by omega)))
    have hle : mid ≤ r := by
      rcases hbefore with ⟨hzero, -⟩ | ⟨y, hpos, hy, rfl⟩
      · omega
      · by_contra hlt'
        exact absurd hfound.2 (UInt32.not_lt.mpr (hr.above (mid - 1) y hy (by omega)))
    rw [wrapped, if_neg (by omega)]
    omega
  by_cases hbelow : x.point < h
  · left
    -- the point is too low: the place is behind it
    have hgt : mid < r := by
      by_contra hge
      exact absurd hbelow (UInt32.not_lt.mpr (hr.above mid x hx (by omega)))
    refine ⟨(mid + 1, highp), (highp - (mid + 1)).toNat, ?_, ⟨⟨?_, ?_, ?_, ?_⟩, hhigh⟩, ?_⟩
    · rw [if_neg hfound, if_pos hbelow, narrow, if_neg (by omega)]
    all_goals omega
  -- the point is high enough, but the one before it is too
  · have hge : r ≤ mid := by
      by_contra hlt'
      exact hbelow (hr.below mid x hx (by omega))
    have hnot : ¬ h > v := fun hgt => hfound ⟨UInt32.not_lt.mp hbelow, hgt⟩
    rcases hbefore with ⟨hzero, rfl⟩ | ⟨y, hpos, hy, rfl⟩
    · -- the hash is 0 and so are both bounds
      right
      refine ⟨0, ?_, ?_⟩
      · rw [if_neg hfound, if_neg hbelow, narrow, if_pos (by omega)]
      · rw [wrapped]
        split <;> omega
    · left
      have hgt : r < mid := by
        by_contra hge'
        exact hnot (hr.below (mid - 1) y hy (by omega))
      refine ⟨(lowp, mid - 1), (mid - 1 - lowp).toNat, ?_, ⟨⟨?_, ?_, ?_, ?_⟩, ?_⟩, ?_⟩
      · rw [if_neg hfound, if_neg hbelow, narrow, if_neg (by omega)]
      all_goals omega

/-- **The search** ends, without an access outside of the array, at the next
    point, or at the first one when all points are below the hash. -/
theorem ketamaSearch_spec (hr : Splits array h r) : ketamaSearch array h = .ok (wrapped array r) := by
  have hstart : Within r array.length (0, array.length) := by
    refine ⟨le_refl 0, ?_, ?_, ?_⟩
    · exact Int.natCast_nonneg r
    · exact Int.ofNat_le.mpr hr.le
    · exact Int.sub_zero _
  have hfinds : ∃ i, ketamaSearch array h = .ok i ∧ i = wrapped array r :=
    iterate_total (I := fun m s => Within r m s ∧ s.2 ≤ array.length) (P := fun i => i = wrapped array r)
      (fun m s hs => ketamaTurn_spec hr hs.1 hs.2) (array.length + 2) array.length (0, array.length)
      ⟨hstart, le_refl _⟩ (by omega)
  obtain ⟨i, hi, rfl⟩ := hfinds
  exact hi

/-! ## Section 4: Clockwise -/

/-- The points whose server a hash belongs to: the nearest from `h` on, or the
    lowest when there is none. -/
def Clockwise (array : List Mcs) (h : UInt32) (x : Mcs) : Prop :=
  x ∈ array ∧ ((h ≤ x.point ∧ ∀ y ∈ array, h ≤ y.point → x.point ≤ y.point) ∨
    ∀ y ∈ array, y.point < h ∧ x.point ≤ y.point)

/-- On a larger circle the point is the same, unless it is one of the new. -/
theorem clockwise_point (hsub : array ⊆ array') (hx : Clockwise array h x) (hy : Clockwise array' h y)
    (hmem : y ∈ array) : y.point = x.point := by
  obtain ⟨hxmem, hx⟩ := hx
  obtain ⟨-, hy⟩ := hy
  rcases hx with ⟨hxh, hxmin⟩ | hxlow
  · rcases hy with ⟨hyh, hymin⟩ | hylow
    · exact UInt32.le_antisymm (hymin x (hsub hxmem) hxh) (hxmin y hmem hyh)
    · exact absurd hxh (UInt32.not_le.mpr (hylow x (hsub hxmem)).1)
  · rcases hy with ⟨hyh, -⟩ | hylow
    · exact absurd hyh (UInt32.not_le.mpr (hxlow y hmem).1)
    · exact UInt32.le_antisymm (hylow x (hsub hxmem)).2 (hxlow y hmem).2

/-- **Lookup**: the entry found is a clockwise one. -/
theorem ketamaSearch_clockwise (hsorted : array.Pairwise fun a b => ketamaCompare a b ≤ 0) (hne : array ≠ [])
    (h : UInt32) : ∃ i x, ketamaSearch array h = .ok i ∧ array[i]? = some x ∧ Clockwise array h x := by
  obtain ⟨r, hr⟩ := exists_splits hsorted h
  have hle : ∀ (i j : Nat) (x y : Mcs), array[i]? = some x → array[j]? = some y → i ≤ j → x.point ≤ y.point := by
    intro i j x y hx hy hij
    obtain ⟨hi, rfl⟩ := List.getElem?_eq_some_iff.mp hx
    obtain ⟨hj, rfl⟩ := List.getElem?_eq_some_iff.mp hy
    rcases Nat.lt_or_eq_of_le hij with hlt | rfl
    · exact (compare_le _ _).mp (List.pairwise_iff_getElem.mp hsorted i j hi hj hlt)
    · exact UInt32.le_refl _
  have hpos : 0 < array.length := List.length_pos_of_ne_nil hne
  -- a point at or above the hash, or none: then the first
  rcases Nat.lt_or_eq_of_le hr.le with hlt | hend
  · have hx : array[r]? = some (array.get ⟨r, hlt⟩) := List.getElem?_eq_getElem hlt
    refine ⟨r, _, ?_, hx, List.mem_of_getElem? hx, Or.inl ⟨hr.above r _ hx (le_refl r), ?_⟩⟩
    · rw [ketamaSearch_spec hr, wrapped, if_neg (by omega)]
    · intro y hy hhy
      obtain ⟨j, hj⟩ := List.mem_iff_getElem?.mp hy
      by_cases hjr : r ≤ j
      · exact hle r j _ y hx hj hjr
      · exact absurd hhy (UInt32.not_le.mpr (hr.below j y hj (by omega)))
  · have hx : array[0]? = some (array.get ⟨0, hpos⟩) := List.getElem?_eq_getElem hpos
    refine ⟨0, _, ?_, hx, List.mem_of_getElem? hx, Or.inr ?_⟩
    · rw [ketamaSearch_spec hr, wrapped, if_pos hend]
    · intro y hy
      obtain ⟨j, hj⟩ := List.mem_iff_getElem?.mp hy
      have hjlt : j < array.length := (List.getElem?_eq_some_iff.mp hj).1
      exact ⟨hr.below j y hj (by omega), hle 0 j _ y hx hj (Nat.zero_le j)⟩

theorem ketamaGetServer_clockwise (hsorted : array.Pairwise fun a b => ketamaCompare a b ≤ 0) (hne : array ≠ [])
    (md5 : Bytes → Bytes) (key : Bytes) :
    ∃ x, ketamaGetServer md5 array key = .ok x.ip ∧ Clockwise array (ketamaHashi md5 key) x := by
  obtain ⟨i, x, hsearch, hx, hclock⟩ := ketamaSearch_clockwise hsorted hne (ketamaHashi md5 key)
  refine ⟨x, ?_, hclock⟩
  rw [ketamaGetServer, hsearch, Except.bind, hx]

/-! ## Section 5: Main results -/

variable {md5 : Bytes → Bytes} {servers pre post : List (Bytes × Nat)} {new : Bytes × Nat}

theorem ip_of_mem (hx : x ∈ allPoints md5 servers) : ∃ s ∈ servers, s.1 = x.ip := by
  obtain ⟨s, hs, hx⟩ := List.mem_flatMap.mp hx
  obtain ⟨k, -, hx⟩ := List.mem_flatMap.mp hx
  obtain ⟨i, -, rfl⟩ := List.mem_map.mp hx
  exact ⟨s, hs, rfl⟩

/-- **A key goes clockwise** to the next point, and so to one of the servers,
    whatever its hash and however often points coincide, as long as there is
    a point at all. -/
theorem ketama_goes_clockwise (hcont : IsContinuum md5 servers array) (hne : array ≠ []) (key : Bytes) :
    ∃ x, ketamaGetServer md5 array key = .ok x.ip ∧ Clockwise array (ketamaHashi md5 key) x ∧
      ∃ s ∈ servers, s.1 = x.ip := by
  obtain ⟨x, hget, hclock⟩ := ketamaGetServer_clockwise hcont.sorted hne md5 key
  exact ⟨x, hget, hclock, ip_of_mem (hcont.perm.subset hclock.1)⟩

/-- MD5 of `"a-0"`, of `"b-0"` and of the key `"k"`. -/
def fewDigests (bs : Bytes) : Bytes :=
  if bs = [97, 45, 48] then
    [161, 101, 239, 209, 150, 225, 123, 161, 149, 173, 77, 197, 0, 40, 179, 154]
  else if bs = [98, 45, 48] then
    [52, 242, 95, 111, 89, 110, 14, 74, 71, 17, 54, 224, 7, 38, 9, 59]
  else if bs = [107] then
    [140, 228, 177, 107, 34, 181, 136, 148, 170, 134, 196, 33, 232, 117, 157, 243]
  else []

/-- The points of the server `"a"`, and those of `"a"` and `"b"`. -/
def circleA : List Mcs :=
  [⟨2595432448, [97]⟩, ⟨2709250454, [97]⟩, ⟨3310202261, [97]⟩, ⟨3522127265, [97]⟩]

def circleAB : List Mcs :=
  [⟨990455303, [98]⟩, ⟨1242459737, [98]⟩, ⟨1868558900, [98]⟩, ⟨2595432448, [97]⟩, ⟨2709250454, [97]⟩,
   ⟨3310202261, [97]⟩, ⟨3522127265, [97]⟩, ⟨3761639751, [98]⟩]

theorem circleA_continuum : IsContinuum fewDigests [([97], 1)] circleA := ⟨by decide, by decide⟩

theorem circleAB_continuum : IsContinuum fewDigests [([97], 1), ([98], 1)] circleAB := ⟨by decide, by decide⟩

theorem ketama_goes_clockwise_two : ∃ x, ketamaGetServer fewDigests circleAB [107] = .ok x.ip ∧
    Clockwise circleAB (ketamaHashi fewDigests [107]) x ∧ ∃ s ∈ [([97], 1), ([98], 1)], s.1 = x.ip :=
  ketama_goes_clockwise circleAB_continuum (List.cons_ne_nil _ _) [107]

theorem mem_allPoints_insert :
    x ∈ allPoints md5 (pre ++ new :: post) ↔ x ∈ allPoints md5 (pre ++ post) ∨ x ∈ serverPoints md5 new.1 new.2 := by
  simp only [allPoints, List.flatMap_append, List.flatMap_cons, List.mem_append]
  constructor
  · rintro (hx | hx | hx)
    · exact Or.inl (Or.inl hx)
    · exact Or.inr hx
    · exact Or.inl (Or.inr hx)
  · rintro ((hx | hx) | hx)
    · exact Or.inl hx
    · exact Or.inr (Or.inr hx)
    · exact Or.inr (Or.inl hx)

/-- **A new server** takes keys over; no key moves between the others.  Where
    points of two servers coincide, `qsort` may order them either way, and
    that is ruled out for the servers there were before. -/
theorem adding_server_moves_to_it (hcont : IsContinuum md5 (pre ++ post) array)
    (hcont' : IsContinuum md5 (pre ++ new :: post) array') (hne : array ≠ [])
    (hapart : ∀ x ∈ allPoints md5 (pre ++ post), ∀ y ∈ allPoints md5 (pre ++ post),
      x.point = y.point → x.ip = y.ip) (key : Bytes) :
    ∃ a b, ketamaGetServer md5 array key = .ok a ∧ ketamaGetServer md5 array' key = .ok b ∧ (b = a ∨ b = new.1) := by
  have hsub : array ⊆ array' := fun x hx =>
    hcont'.perm.symm.subset (mem_allPoints_insert.mpr (Or.inl (hcont.perm.subset hx)))
  have hne' : array' ≠ [] := by
    intro hnil
    rw [hnil] at hsub
    exact hne (List.eq_nil_of_subset_nil hsub)
  obtain ⟨x, hget, hclock⟩ := ketamaGetServer_clockwise hcont.sorted hne md5 key
  obtain ⟨y, hget', hclock'⟩ := ketamaGetServer_clockwise hcont'.sorted hne' md5 key
  refine ⟨x.ip, y.ip, hget, hget', ?_⟩
  rcases mem_allPoints_insert.mp (hcont'.perm.subset hclock'.1) with hold | hnew
  · -- one of the points there were: then it is the same one
    left
    have hmem : y ∈ array := hcont.perm.symm.subset hold
    exact hapart y hold x (hcont.perm.subset hclock.1) (clockwise_point hsub hclock hclock' hmem)
  · right
    obtain ⟨k, -, hy⟩ := List.mem_flatMap.mp hnew
    obtain ⟨i, -, rfl⟩ := List.mem_map.mp hy
    rfl

theorem adding_server_moves_to_it_two : ∃ a b, ketamaGetServer fewDigests circleA [107] = .ok a ∧
    ketamaGetServer fewDigests circleAB [107] = .ok b ∧ (b = a ∨ b = [98]) := by
  have hcont : IsContinuum fewDigests ([([97], 1)] ++ []) circleA := circleA_continuum
  have hcont' : IsContinuum fewDigests ([([97], 1)] ++ ([98], 1) :: []) circleAB := circleAB_continuum
  exact adding_server_moves_to_it hcont hcont' (List.cons_ne_nil _ _) (by decide) [107]

end BoAtom
