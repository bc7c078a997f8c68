import BoAtom.Ae.FileEvent
import Mathlib.Logic.Function.Basic

/-! # ae/ae.c, file events down to the kernel

    `aeCreateFileEvent`, `aeDeleteFileEvent` and `aeResizeSetSize` with the
    parts that `FileEvent` leaves out: `maxfd`, and the calls of the two
    backends `ae_epoll.c` and `ae_select.c`.  The kernel is not modelled: each
    call brings its own `epoll_ctl`, of which only what is documented is
    assumed (`EpollCtl.Documented`), so that it may refuse a new descriptor
    at one call and take it at the next.  `realloc` succeeds.

    The table, what the kernel watches and `maxfd` say the same after any
    calls (`Synced`).  A backend is what a loop needs of it (`Lawful`); epoll
    is one, and select is one as long as the table fits an `fd_set`.  An
    event without a mask is never created: epoll would add the descriptor and
    the table would not know. -/

namespace BoAtom

/-! ## Section 1: Masks -/

def AeMask.or (m m' : AeMask) : AeMask := ⟨m.readable || m'.readable, m.writable || m'.writable⟩

/-- `m & ~m'`. -/
def AeMask.without (m m' : AeMask) : AeMask := ⟨m.readable && !m'.readable, m.writable && !m'.writable⟩

theorem AeMask.or_ne_none {m m' : AeMask} (h : m' ≠ aeNone) : m.or m' ≠ aeNone := by
  obtain ⟨r, w⟩ := m
  obtain ⟨r', w'⟩ := m'
  cases r <;> cases w <;> cases r' <;> cases w' <;> simp_all [AeMask.or, aeNone]

/-! ## Section 2: The calls -/

variable {P D S E : Type}

/-- `aeApiAddEvent` and `aeApiDelEvent` on the data of the backend, and
    whether `aeApiResize` succeeds.  `E` is what a call finds of the kernel. -/
structure AeApi (P D S E : Type) where
  addEvent : E → AeEventLoop P D → S → Nat → AeMask → Option S
  delEvent : E → AeEventLoop P D → S → Nat → AeMask → S
  resize : Nat → Bool

/-- An event loop with its `maxfd` and `apidata`. -/
structure AePolled (P D S : Type) where
  loop : AeEventLoop P D
  maxfd : Int
  apidata : S

variable (api : AeApi P D S E)

def AePolled.createFileEvent (kernel : E) (s : AePolled P D S) (fd : Nat) (mask : AeMask) (proc : P)
    (clientData : D) : AeStatus × AePolled P D S :=
  if fd ≥ s.loop.setsize then (.err, s)
  else match api.addEvent kernel s.loop s.apidata fd mask with
    | none => (.err, s)
    | some apidata =>
      (.ok, { loop := (aeCreateFileEvent s.loop fd mask proc clientData).2
              maxfd := if (fd : Int) > s.maxfd then fd else s.maxfd
              apidata := apidata })

/-- `for (j = maxfd-1; j >= 0; j--) if (events[j].mask != AE_NONE) break`,
    from `j = n - 1` on. -/
def highestBelow (events : Nat → AeFileEvent P D) : Nat → Int
  | 0 => -1
  | j + 1 => if (events j).mask ≠ aeNone then j else highestBelow events j

def AePolled.deleteFileEvent (kernel : E) (s : AePolled P D S) (fd : Nat) (mask : AeMask) : AePolled P D S :=
  if fd ≥ s.loop.setsize then s
  else if (s.loop.events fd).mask = aeNone then s
  else
    let loop := aeDeleteFileEvent s.loop fd mask
    { loop := loop
      maxfd :=
        if (fd : Int) = s.maxfd ∧ (loop.events fd).mask = aeNone then highestBelow loop.events s.maxfd.toNat
        else s.maxfd
      apidata := api.delEvent kernel s.loop s.apidata fd mask }

/-- `fresh` is what `realloc` leaves in new entries. -/
def AePolled.resizeSetSize (s : AePolled P D S) (setsize : Nat) (fresh : Nat → AeFileEvent P D) :
    AeStatus × AePolled P D S :=
  if setsize = s.loop.setsize then (.ok, s)
  -- an entry in use would be cut off
  else if s.maxfd ≥ setsize then (.err, s)
  else if ¬ api.resize setsize then (.err, s)
  else
    let events := fun i => if i < s.loop.setsize then s.loop.events i else fresh i
    (.ok, { s with loop :=
      { setsize := setsize
        events := fun i => if s.maxfd < i ∧ i < setsize then { events i with mask := aeNone } else events i } })

/-- A call, with the kernel it finds. -/
inductive FileCall (P D E : Type) where
  | create (kernel : E) (fd : Nat) (mask : AeMask) (proc : P) (clientData : D)
  | delete (kernel : E) (fd : Nat) (mask : AeMask)
  | resize (setsize : Nat) (fresh : Nat → AeFileEvent P D)

def fileStep (s : AePolled P D S) : FileCall P D E → AePolled P D S
  | .create kernel fd mask proc clientData => (s.createFileEvent api kernel fd mask proc clientData).2
  | .delete kernel fd mask => s.deleteFileEvent api kernel fd mask
  | .resize setsize fresh => (s.resizeSetSize api setsize fresh).2

/-- A loop that `aeCreateEventLoop` has set up, before its last step: the
    registration of the signal pipe, a `create` like any other. -/
def aePolled (setsize : Nat) (apidata : S) : AePolled P D S := ⟨aeCreateEventLoop setsize, -1, apidata⟩

/-! ## Section 3: ae_epoll.c -/

inductive EpollOp where
  | add
  | mod
  | del

/-- `epoll_ctl` at one call: the descriptors watched, the operation and the
    events; `none` is -1. -/
abbrev EpollCtl := (Nat → Option AeMask) → EpollOp → Nat → AeMask → Option (Nat → Option AeMask)

/-- What is documented of it.  Adding a descriptor may fail at any call;
    changing and deleting one that is watched does not.  Nothing is assumed
    of an operation that would be answered with `EEXIST` or `ENOENT`. -/
structure EpollCtl.Documented (ctl : EpollCtl) : Prop where
  add : ∀ {interest fd events interest'}, ctl interest .add fd events = some interest' →
    interest' = Function.update interest fd (some events)
  mod : ∀ {interest fd events}, (interest fd).isSome →
    ctl interest .mod fd events = some (Function.update interest fd (some events))
  del : ∀ {interest fd events}, (interest fd).isSome →
    ctl interest .del fd events = some (Function.update interest fd none)

/-- What `epoll_ctl` returns is not looked at in `aeApiDelEvent`. -/
def aeEpoll : AeApi P D (Nat → Option AeMask) EpollCtl where
  addEvent epollCtl loop interest fd mask :=
    -- the table tells whether the kernel has the descriptor
    let op := if (loop.events fd).mask = aeNone then EpollOp.add else .mod
    epollCtl interest op fd ((loop.events fd).mask.or mask)
  delEvent epollCtl loop interest fd delmask :=
    let mask := (loop.events fd).mask.without delmask
    if mask ≠ aeNone then (epollCtl interest .mod fd mask).getD interest
    else (epollCtl interest .del fd mask).getD interest
  resize _ := true

/-! ## Section 4: ae_select.c -/

/-- `FD_SETSIZE`. -/
def fdSetsize : Nat := 1024

/-- The bits of `aeApiState`: those of `rfds` and, right behind it, those of
    `wfds`. -/
structure FdSets where
  bits : Nat → Bool

def FdSets.rfds (sets : FdSets) (fd : Nat) : Bool := sets.bits fd

def FdSets.wfds (sets : FdSets) (fd : Nat) : Bool := sets.bits (fdSetsize + fd)

/-- `FD_SET` and `FD_CLR` on the set that begins at `base`; neither checks
    that the descriptor is below `FD_SETSIZE`. -/
def FdSets.put (sets : FdSets) (base fd : Nat) (bit : Bool) : FdSets :=
  { bits := Function.update sets.bits (base + fd) bit }

def aeSelect : AeApi P D FdSets E where
  addEvent _ _ sets fd mask :=
    let sets := if mask.readable then sets.put 0 fd true else sets
    some (if mask.writable then sets.put fdSetsize fd true else sets)
  delEvent _ _ sets fd mask :=
    let sets := if mask.readable then sets.put 0 fd false else sets
    if mask.writable then sets.put fdSetsize fd false else sets
  resize setsize := setsize < fdSetsize

/-! ## Section 5: What is watched -/

/-- The masks of the table; nothing behind its end. -/
def AeEventLoop.watched (loop : AeEventLoop P D) (fd : Nat) : AeMask :=
  if fd < loop.setsize then (loop.events fd).mask else aeNone

variable {api} {loop : AeEventLoop P D} {kernel : E} {fd : Nat} {mask : AeMask} {s : AePolled P D S} {m : Nat → AeMask}

theorem watched_of_lt (h : fd < loop.setsize) : loop.watched fd = (loop.events fd).mask := if_pos h

theorem watched_update (h : fd < loop.setsize) (fe : AeFileEvent P D) :
    (loop.update fd fe).watched = Function.update loop.watched fd fe.mask := by
  funext i
  by_cases hi : i = fd
  · rw [hi, Function.update_self]
    show (if fd < loop.setsize then (if fd = fd then fe else loop.events fd).mask else aeNone) = fe.mask
    rw [if_pos h, if_pos rfl]
  · rw [Function.update_of_ne hi, AeEventLoop.watched, AeEventLoop.watched, AeEventLoop.update]
    simp only [if_neg hi]

theorem watched_create (h : fd < loop.setsize) (mask : AeMask) (proc : P) (clientData : D) :
    (aeCreateFileEvent loop fd mask proc clientData).2.watched =
      Function.update loop.watched fd ((loop.watched fd).or mask) := by
  rw [aeCreateFileEvent, if_neg (Nat.not_le.mpr h), watched_update h, watched_of_lt h]
  rfl

theorem watched_delete (h : fd < loop.setsize) (hmask : (loop.events fd).mask ≠ aeNone) (mask : AeMask) :
    (aeDeleteFileEvent loop fd mask).watched =
      Function.update loop.watched fd ((loop.watched fd).without mask) := by
  rw [aeDeleteFileEvent, if_neg (Nat.not_le.mpr h)]
  simp only [if_neg hmask]
  rw [watched_update h, watched_of_lt h]
  rfl

/-- `maxfd` is the highest descriptor watched, -1 when there is none. -/
def Highest (m : Nat → AeMask) (maxfd : Int) : Prop :=
  (maxfd = -1 ∧ ∀ fd, m fd = aeNone) ∨ ∃ top : Nat, maxfd = top ∧ m top ≠ aeNone ∧ ∀ fd, m fd ≠ aeNone → fd ≤ top

theorem Highest.le {maxfd : Int} (h : Highest m maxfd) (hfd : m fd ≠ aeNone) : (fd : Int) ≤ maxfd := by
  rcases h with ⟨-, hnone⟩ | ⟨top, rfl, -, hall⟩
  · exact absurd (hnone fd) hfd
  · exact Int.ofNat_le.mpr (hall fd hfd)

theorem Highest.add {maxfd : Int} (h : Highest m maxfd) {v : AeMask} (hv : v ≠ aeNone) :
    Highest (Function.update m fd v) (if (fd : Int) > maxfd then fd else maxfd) := by
  have hself : Function.update m fd v fd ≠ aeNone := by rwa [Function.update_self]
  split
  · next hgt =>
    -- `fd` is the new highest
    refine Or.inr ⟨fd, rfl, hself, fun i hi => ?_⟩
    by_cases heq : i = fd
    · exact Nat.le_of_eq heq
    · rw [Function.update_of_ne heq] at hi
      have := h.le hi
      omega
  · next hle =>
    -- not above the highest, so there is one, and it stays
    rcases h with ⟨hmax, -⟩ | ⟨top, rfl, htop, hall⟩
    · omega
    · refine Or.inr ⟨top, rfl, ?_, fun i hi => ?_⟩
      · by_cases heq : top = fd
        · rwa [heq]
        · rwa [Function.update_of_ne heq]
      · by_cases heq : i = fd
        · omega
        · rw [Function.update_of_ne heq] at hi
          exact hall i hi

theorem highestBelow_spec (events : Nat → AeFileEvent P D) (n : Nat) :
    (highestBelow events n = -1 ∧ ∀ j < n, (events j).mask = aeNone) ∨
      ∃ top : Nat, highestBelow events n = top ∧ top < n ∧ (events top).mask ≠ aeNone ∧
        ∀ j < n, (events j).mask ≠ aeNone → j ≤ top := by
  induction n with
  | zero => exact Or.inl ⟨rfl, fun j hj => absurd hj (Nat.not_lt_zero j)⟩
  | succ n ih =>
    rw [highestBelow]
    by_cases hn : (events n).mask = aeNone
    · rw [if_neg (not_not_intro hn)]
      -- the loop goes on below `n`
      rcases ih with ⟨heq, hnone⟩ | ⟨top, heq, hlt, htop, hall⟩
      · refine Or.inl ⟨heq, fun j hj => ?_⟩
        rcases Nat.lt_succ_iff_lt_or_eq.mp hj with hj | rfl
        · exact hnone j hj
        · exact hn
      · refine Or.inr ⟨top, heq, Nat.lt_succ_of_lt hlt, htop, fun j hj hmask => ?_⟩
        rcases Nat.lt_succ_iff_lt_or_eq.mp hj with hj | rfl
        · exact hall j hj hmask
        · exact absurd hn hmask
    · rw [if_pos hn]
      exact Or.inr ⟨n, rfl, Nat.lt_succ_self n, hn, fun j hj _ => Nat.le_of_lt_succ hj⟩

/-- `maxfd` after a deletion: the highest one is gone, or another. -/
theorem Highest.del {maxfd : Int} (h : Highest loop.watched maxfd) (hbound : maxfd < loop.setsize)
    (hfd : fd < loop.setsize) (hmask : (loop.events fd).mask ≠ aeNone) (mask : AeMask) :
    Highest (aeDeleteFileEvent loop fd mask).watched
      (if (fd : Int) = maxfd ∧ ((aeDeleteFileEvent loop fd mask).events fd).mask = aeNone then
        highestBelow (aeDeleteFileEvent loop fd mask).events maxfd.toNat
      else maxfd) := by
  have hwatched := watched_delete hfd hmask mask
  have hsize : (aeDeleteFileEvent loop fd mask).setsize = loop.setsize := by
    rw [aeDeleteFileEvent, if_neg (Nat.not_le.mpr hfd)]
    simp only [if_neg hmask]
    rfl
  generalize aeDeleteFileEvent loop fd mask = loop' at hwatched hsize ⊢
  -- a descriptor still watched was watched before
  have hold : ∀ i, loop'.watched i ≠ aeNone → loop.watched i ≠ aeNone := by
    intro i hi
    rw [hwatched] at hi
    by_cases heq : i = fd
    · rw [heq, watched_of_lt hfd]
      exact hmask
    · rwa [Function.update_of_ne heq] at hi
  split
  · next hgone =>
    obtain ⟨rfl, hnone⟩ := hgone
    have hself : loop'.watched fd = aeNone := by rw [watched_of_lt (hsize ▸ hfd), hnone]
    have hbelow : ∀ i, loop'.watched i ≠ aeNone → i < fd ∧ (loop'.events i).mask ≠ aeNone := by
      intro i hi
      have hle := h.le (hold i hi)
      have hne : i ≠ fd := fun heq => hi (heq ▸ hself)
      have hlt : i < fd := by omega
      rw [watched_of_lt (by omega)] at hi
      exact ⟨hlt, hi⟩
    rw [Int.toNat_natCast]
    rcases highestBelow_spec loop'.events fd with ⟨heq, hall⟩ | ⟨top, heq, hlt, htop, hall⟩
    · refine Or.inl ⟨heq, fun i => ?_⟩
      by_contra hi
      exact (hbelow i hi).2 (hall i (hbelow i hi).1)
    · refine Or.inr ⟨top, heq, ?_, fun i hi => hall i (hbelow i hi).1 (hbelow i hi).2⟩
      rwa [watched_of_lt (by omega)]
  · next hstays =>
    rcases h with ⟨rfl, hnone⟩ | ⟨top, rfl, htop, hall⟩
    · exact absurd (watched_of_lt hfd ▸ hnone fd) hmask
    · refine Or.inr ⟨top, rfl, ?_, fun i hi => hall i (hold i hi)⟩
      by_cases heq : top = fd
      · subst heq
        rw [watched_of_lt (by omega)]
        exact fun hnone => hstays ⟨rfl, hnone⟩
      · rwa [hwatched, Function.update_of_ne heq]

/-! ## Section 6: Backends -/

/-- What a loop needs of its backend: `Rep` says that the data stand for a
    table of masks, `Accepts` that the kernel takes a new descriptor at this
    call, and `Limit` which sizes of the table the backend can serve. -/
structure AeApi.Lawful (api : AeApi P D S E) (Kernel : E → Prop) (Rep : S → (Nat → AeMask) → Prop)
    (Accepts : E → S → Nat → AeMask → Prop) (Limit : Nat → Prop) : Prop where
  add : ∀ {kernel loop data fd mask data'}, Kernel kernel → Limit loop.setsize → Rep data loop.watched →
    fd < loop.setsize → mask ≠ aeNone → api.addEvent kernel loop data fd mask = some data' →
    Rep data' (Function.update loop.watched fd ((loop.watched fd).or mask))
  added : ∀ {kernel loop data fd mask}, Kernel kernel → Rep data loop.watched → fd < loop.setsize →
    ((api.addEvent kernel loop data fd mask).isSome ↔
      loop.watched fd ≠ aeNone ∨ Accepts kernel data fd mask)
  del : ∀ {kernel loop data fd mask}, Kernel kernel → Limit loop.setsize → Rep data loop.watched →
    fd < loop.setsize → loop.watched fd ≠ aeNone →
    Rep (api.delEvent kernel loop data fd mask) (Function.update loop.watched fd ((loop.watched fd).without mask))
  resize : ∀ {setsize}, api.resize setsize = true → Limit setsize

/-- The kernel watches what has a mask, for that. -/
def Interest (interest : Nat → Option AeMask) (m : Nat → AeMask) : Prop :=
  ∀ fd, interest fd = if m fd = aeNone then none else some (m fd)

theorem Interest.update {interest : Nat → Option AeMask} (h : Interest interest m) (fd : Nat) (v : AeMask) :
    Interest (Function.update interest fd (if v = aeNone then none else some v)) (Function.update m fd v) := by
  intro i
  by_cases hi : i = fd
  · rw [hi, Function.update_self, Function.update_self]
  · rw [Function.update_of_ne hi, Function.update_of_ne hi]
    exact h i

theorem Interest.isSome_iff {interest : Nat → Option AeMask} (h : Interest interest m) :
    (interest fd).isSome ↔ m fd ≠ aeNone := by
  rw [h fd]
  split <;> simp_all

/-- The kernel adds the descriptor, which is new to it. -/
def TakesNew (ctl : EpollCtl) (interest : Nat → Option AeMask) (fd : Nat) (mask : AeMask) : Prop :=
  (ctl interest .add fd mask).isSome

/-- **epoll**: a descriptor is added when the kernel does not have it, modified
    or deleted when it does. -/
theorem epoll_lawful :
    (aeEpoll : AeApi P D _ _).Lawful EpollCtl.Documented Interest TakesNew fun _ => True where
  add := by
    intro ctl loop interest fd mask interest' hctl _ hrep hfd hmask hadd
    have hnew := hrep.update fd ((loop.watched fd).or mask)
    rw [if_neg (AeMask.or_ne_none hmask)] at hnew
    have hadd : ctl interest (if loop.watched fd = aeNone then .add else .mod) fd
        ((loop.watched fd).or mask) = some interest' := by
      rw [watched_of_lt hfd]
      exact hadd
    split at hadd
    · exact hctl.add hadd ▸ hnew
    · next hsome =>
      rw [hctl.mod (hrep.isSome_iff.mpr hsome)] at hadd
      exact Option.some.inj hadd ▸ hnew
  added := by
    intro ctl loop interest fd mask hctl hrep hfd
    show (ctl interest (if (loop.events fd).mask = aeNone then .add else .mod) fd
      ((loop.events fd).mask.or mask)).isSome ↔ _
    rw [← watched_of_lt hfd]
    split
    · next hnone =>
      have hor : (loop.watched fd).or mask = mask := by simp [hnone, AeMask.or, aeNone]
      rw [hor]
      exact ⟨Or.inr, fun h => h.resolve_left fun hne => hne hnone⟩
    · next hsome =>
      rw [hctl.mod (hrep.isSome_iff.mpr hsome)]
      exact ⟨fun _ => Or.inl hsome, fun _ => rfl⟩
  del := by
    intro ctl loop interest fd mask hctl _ hrep hfd hsome
    have hnew := hrep.update fd ((loop.watched fd).without mask)
    have hthere := hrep.isSome_iff.mpr hsome
    show Interest (if (loop.events fd).mask.without mask ≠ aeNone then _ else _) _
    rw [← watched_of_lt hfd]
    split
    · next hleft =>
      rw [if_neg hleft] at hnew
      rw [hctl.mod hthere]
      exact hnew
    · next hgone =>
      rw [if_pos (not_not.mp hgone)] at hnew
      rw [hctl.del hthere]
      exact hnew
  resize _ := trivial

/-- The two sets are the table, as far as they go. -/
def InSets (sets : FdSets) (m : Nat → AeMask) : Prop :=
  ∀ fd < fdSetsize, sets.rfds fd = (m fd).readable ∧ sets.wfds fd = (m fd).writable

theorem FdSets.put_rfds (sets : FdSets) {fd i : Nat} (hi : i < fdSetsize) (bit : Bool) :
    (sets.put 0 fd bit).rfds i = (if i = fd then bit else sets.rfds i) ∧
      (sets.put fdSetsize fd bit).rfds i = sets.rfds i := by
  simp only [FdSets.put, FdSets.rfds, Function.update_apply, Nat.zero_add, true_and]
  exact if_neg (by omega)

theorem FdSets.put_wfds (sets : FdSets) {fd : Nat} (hfd : fd < fdSetsize) (i : Nat) (bit : Bool) :
    (sets.put 0 fd bit).wfds i = sets.wfds i ∧
      (sets.put fdSetsize fd bit).wfds i = if i = fd then bit else sets.wfds i := by
  simp only [FdSets.put, FdSets.wfds, Function.update_apply, Nat.zero_add, Nat.add_left_cancel_iff,
    and_true]
  exact if_neg (by omega)

/-- One bit of each set is put as the mask says, and no other. -/
theorem put_both (sets : FdSets) {fd i : Nat} (hfd : fd < fdSetsize) (hi : i < fdSetsize) (mask : AeMask)
    (bit : Bool) :
    let sets' := if mask.readable then sets.put 0 fd bit else sets
    let sets'' := if mask.writable then sets'.put fdSetsize fd bit else sets'
    sets''.rfds i = (if i = fd ∧ mask.readable then bit else sets.rfds i) ∧
      sets''.wfds i = (if i = fd ∧ mask.writable then bit else sets.wfds i) := by
  intro sets' sets''
  have hr' : sets'.rfds i = (if i = fd ∧ mask.readable then bit else sets.rfds i) ∧
      sets'.wfds i = sets.wfds i := by
    simp only [sets']
    cases mask.readable
    · simp
    · simp [(sets.put_rfds hi bit).1, (sets.put_wfds hfd i bit).1]
  simp only [sets'']
  cases mask.writable
  · simpa using hr'
  · simp [(sets'.put_rfds hi bit).2, (sets'.put_wfds hfd i bit).2, hr'.1, hr'.2]

/-- **select**: the sets follow the table as long as it has no descriptor
    beyond them. -/
theorem select_lawful :
    (aeSelect : AeApi P D _ E).Lawful (fun _ => True) InSets (fun _ _ _ _ => True) (· ≤ fdSetsize) where
  add := by
    intro _ loop sets fd mask sets' _ hsize hrep hfd _ hadd i hi
    obtain ⟨hr, hw⟩ := put_both sets (Nat.lt_of_lt_of_le hfd hsize) hi mask true
    have hold := hrep i hi
    rw [← Option.some.inj hadd, hr, hw, hold.1, hold.2]
    by_cases heq : i = fd
    · subst heq
      rw [Function.update_self]
      cases hmr : mask.readable <;> cases hmw : mask.writable <;> simp [AeMask.or, hmr, hmw]
    · rw [Function.update_of_ne heq]
      simp [heq]
  added := by
    intro _ loop sets fd mask _ _ _
    exact ⟨fun _ => Or.inr trivial, fun _ => rfl⟩
  del := by
    intro _ loop sets fd mask _ hsize hrep hfd _ i hi
    obtain ⟨hr, hw⟩ := put_both sets (Nat.lt_of_lt_of_le hfd hsize) hi mask false
    have hold := hrep i hi
    show (if mask.writable then _ else _ : FdSets).rfds i = _ ∧ (if mask.writable then _ else _ : FdSets).wfds i = _
    rw [hr, hw, hold.1, hold.2]
    by_cases heq : i = fd
    · subst heq
      rw [Function.update_self]
      cases hmr : mask.readable <;> cases hmw : mask.writable <;> simp [AeMask.without, hmr, hmw]
    · rw [Function.update_of_ne heq]
      simp [heq]
  resize := by
    intro setsize hresize
    exact Nat.le_of_lt (of_decide_eq_true hresize)

/-! ## Section 7: Runs -/

/-- The table, the kernel and `maxfd` say the same. -/
structure Synced (Rep : S → (Nat → AeMask) → Prop) (Limit : Nat → Prop) (s : AePolled P D S) : Prop where
  limit : Limit s.loop.setsize
  apidata : Rep s.apidata s.loop.watched
  bounded : s.maxfd < s.loop.setsize
  highest : Highest s.loop.watched s.maxfd

/-- An event that is created has a mask. -/
def FileCall.Watches : FileCall P D E → Prop
  | .create _ _ mask _ _ => mask ≠ aeNone
  | _ => True

/-- The kernel a call finds is as documented. -/
def FileCall.Finds (Kernel : E → Prop) : FileCall P D E → Prop
  | .create kernel _ _ _ _ | .delete kernel _ _ => Kernel kernel
  | .resize _ _ => True

variable {Kernel : E → Prop} {Rep : S → (Nat → AeMask) → Prop} {Accepts : E → S → Nat → AeMask → Prop}
  {Limit : Nat → Prop}

theorem setsize_create (loop : AeEventLoop P D) (fd : Nat) (mask : AeMask) (proc : P) (clientData : D) :
    (aeCreateFileEvent loop fd mask proc clientData).2.setsize = loop.setsize := by
  unfold aeCreateFileEvent
  split <;> rfl

theorem setsize_delete (loop : AeEventLoop P D) (fd : Nat) (mask : AeMask) :
    (aeDeleteFileEvent loop fd mask).setsize = loop.setsize := by
  unfold aeDeleteFileEvent
  split
  · rfl
  · simp only
    split <;> rfl

/-- A creation succeeds just when there is room and the kernel takes the
    descriptor; it has those that are watched. -/
theorem createFileEvent_status (hapi : api.Lawful Kernel Rep Accepts Limit) (h : Synced Rep Limit s)
    (hkernel : Kernel kernel) (fd : Nat) (mask : AeMask) (proc : P) (clientData : D) :
    (s.createFileEvent api kernel fd mask proc clientData).1 = .ok ↔
      fd < s.loop.setsize ∧ (s.loop.watched fd ≠ aeNone ∨ Accepts kernel s.apidata fd mask) := by
  rw [AePolled.createFileEvent]
  by_cases hfd : fd < s.loop.setsize
  · have hadded : (api.addEvent kernel s.loop s.apidata fd mask).isSome ↔ _ := hapi.added hkernel h.apidata hfd
    rw [if_neg (Nat.not_le.mpr hfd), ← hadded]
    cases api.addEvent kernel s.loop s.apidata fd mask with
    | none => exact ⟨fun h => AeStatus.noConfusion h, fun h => by simp at h⟩
    | some data' => exact ⟨fun _ => ⟨hfd, rfl⟩, fun _ => rfl⟩
  · rw [if_pos (Nat.not_lt.mp hfd)]
    exact ⟨fun h => AeStatus.noConfusion h, fun h => absurd h.1 hfd⟩

theorem Synced.create (hapi : api.Lawful Kernel Rep Accepts Limit) (h : Synced Rep Limit s)
    (hkernel : Kernel kernel) (hmask : mask ≠ aeNone) (fd : Nat) (proc : P) (clientData : D) :
    Synced Rep Limit (s.createFileEvent api kernel fd mask proc clientData).2 := by
  rw [AePolled.createFileEvent]
  by_cases hfd : fd < s.loop.setsize
  · rw [if_neg (Nat.not_le.mpr hfd)]
    cases hadd : api.addEvent kernel s.loop s.apidata fd mask with
    | none => exact h
    | some data' =>
      -- the backend and the table take the same mask
      have hrep := hapi.add hkernel h.limit h.apidata hfd hmask hadd
      have hbound := h.bounded
      constructor
      · show Limit (aeCreateFileEvent s.loop fd mask proc clientData).2.setsize
        rw [setsize_create]
        exact h.limit
      · rw [watched_create hfd]
        exact hrep
      · show (if (fd : Int) > s.maxfd then (fd : Int) else s.maxfd) < _
        rw [setsize_create]
        split <;> omega
      · rw [watched_create hfd]
        exact h.highest.add (AeMask.or_ne_none hmask)
  · rw [if_pos (Nat.not_lt.mp hfd)]
    exact h

theorem Synced.delete (hapi : api.Lawful Kernel Rep Accepts Limit) (h : Synced Rep Limit s)
    (hkernel : Kernel kernel) (fd : Nat) (mask : AeMask) :
    Synced Rep Limit (s.deleteFileEvent api kernel fd mask) := by
  rw [AePolled.deleteFileEvent]
  by_cases hfd : fd < s.loop.setsize
  · rw [if_neg (Nat.not_le.mpr hfd)]
    by_cases hnone : (s.loop.events fd).mask = aeNone
    · rw [if_pos hnone]
      exact h
    · rw [if_neg hnone]
      have hhighest := h.highest.del h.bounded hfd hnone mask
      constructor
      · rw [setsize_delete]
        exact h.limit
      · rw [watched_delete hfd hnone]
        exact hapi.del hkernel h.limit h.apidata hfd (by rwa [watched_of_lt hfd])
      · -- `maxfd` does not grow
        rw [setsize_delete]
        have hbound := h.bounded
        show (if (fd : Int) = s.maxfd ∧ _ then _ else s.maxfd) < _
        split
        · rcases highestBelow_spec (aeDeleteFileEvent s.loop fd mask).events s.maxfd.toNat with
            ⟨heq, -⟩ | ⟨top, heq, hlt, -⟩
          · rw [heq]
            omega
          · rw [heq]
            omega
        · exact hbound
      · exact hhighest
  · rw [if_pos (Nat.not_lt.mp hfd)]
    exact h

theorem Synced.resize (hapi : api.Lawful Kernel Rep Accepts Limit) (h : Synced Rep Limit s) (setsize : Nat)
    (fresh : Nat → AeFileEvent P D) : Synced Rep Limit (s.resizeSetSize api setsize fresh).2 := by
  rw [AePolled.resizeSetSize]
  split
  · exact h
  split
  · exact h
  next hmax =>
    split
    · exact h
    · next hresize =>
      have hbound := h.bounded
      -- no entry that is watched is cut off or written over
      have hwatched : AeEventLoop.watched
          { setsize := setsize
            events := fun i =>
              if s.maxfd < i ∧ i < setsize then
                { (if i < s.loop.setsize then s.loop.events i else fresh i) with mask := aeNone }
              else if i < s.loop.setsize then s.loop.events i else fresh i } = s.loop.watched := by
        funext i
        by_cases hi : (i : Int) ≤ s.maxfd
        · have hnew : i < setsize := by omega
          have hold : i < s.loop.setsize := by omega
          have hnot : ¬ (s.maxfd < i ∧ i < setsize) := by omega
          rw [AeEventLoop.watched, watched_of_lt hold]
          simp only [if_pos hnew, if_neg hnot, if_pos hold]
        · have hnone : s.loop.watched i = aeNone := by
            by_contra hmask
            exact hi (h.highest.le hmask)
          rw [hnone, AeEventLoop.watched]
          by_cases hnew : i < setsize
          · have hin : s.maxfd < i ∧ i < setsize := by omega
            simp only [if_pos hnew, if_pos hin]
          · simp only [if_neg hnew]
      constructor
      · exact hapi.resize (not_not.mp hresize)
      · show Rep s.apidata _
        rw [hwatched]
        exact h.apidata
      · show s.maxfd < (setsize : Int)
        omega
      · show Highest _ s.maxfd
        rw [hwatched]
        exact h.highest

theorem Synced.run (hapi : api.Lawful Kernel Rep Accepts Limit) (h : Synced Rep Limit s)
    {calls : List (FileCall P D E)} (hcalls : ∀ call ∈ calls, call.Watches ∧ call.Finds Kernel) :
    Synced Rep Limit (calls.foldl (fileStep api) s) := by
  induction calls generalizing s with
  | nil => exact h
  | cons call calls ih =>
    have hrest : ∀ call ∈ calls, call.Watches ∧ call.Finds Kernel :=
      fun c hc => hcalls c (List.mem_cons_of_mem _ hc)
    obtain ⟨hmask, hkernel⟩ := hcalls call List.mem_cons_self
    refine ih ?_ hrest
    cases call with
    | create kernel fd mask proc clientData => exact h.create hapi hkernel hmask fd proc clientData
    | delete kernel fd mask => exact h.delete hapi hkernel fd mask
    | resize setsize fresh => exact h.resize hapi setsize fresh

theorem Synced.start {data : S} (hdata : Rep data fun _ => aeNone) {setsize : Nat} (hlimit : Limit setsize) :
    Synced Rep Limit (aePolled setsize data : AePolled P D S) := by
  have hnone : (aePolled setsize data : AePolled P D S).loop.watched = fun _ => aeNone := by
    funext fd
    exact ite_self aeNone
  constructor
  · exact hlimit
  · rw [hnone]
    exact hdata
  · show (-1 : Int) < (setsize : Int)
    omega
  · exact Or.inl ⟨rfl, fun fd => congrFun hnone fd⟩

/-- **The kernel watches what the table says**, and `maxfd` is the highest
    descriptor watched, after any calls.  With epoll a creation fails for want
    of room or by the kernel's refusal of a new descriptor only, so the choice
    between `ADD` and `MOD` is right; with select a table that fits the sets
    at first always does, and the sets say the same. -/
theorem kernel_watches_table (setsize : Nat) {calls : List (FileCall P D EpollCtl)}
    (hcalls : ∀ call ∈ calls, call.Watches ∧ call.Finds EpollCtl.Documented) :
    let s := calls.foldl (fileStep aeEpoll) (aePolled setsize fun _ => none)
    let t := calls.foldl (fileStep aeSelect) (aePolled setsize ⟨fun _ => false⟩)
    Synced Interest (fun _ => True) s ∧
      (∀ ctl fd mask proc clientData, EpollCtl.Documented ctl →
        ((s.createFileEvent aeEpoll ctl fd mask proc clientData).1 = .ok ↔
          fd < s.loop.setsize ∧ (s.loop.watched fd ≠ aeNone ∨ TakesNew ctl s.apidata fd mask))) ∧
      (setsize ≤ fdSetsize → Synced InSets (· ≤ fdSetsize) t) := by
  intro s t
  have hs : Synced Interest (fun _ => True) s := (Synced.start (fun _ => rfl) trivial).run epoll_lawful hcalls
  refine ⟨hs, fun ctl fd mask proc clientData hctl => ?_, fun hsize => ?_⟩
  · exact createFileEvent_status epoll_lawful hs hctl fd mask proc clientData
  · -- select finds nothing in its way
    have hany : ∀ call ∈ calls, call.Watches ∧ call.Finds fun _ => True := by
      intro call hmem
      refine ⟨(hcalls call hmem).1, ?_⟩
      cases call <;> trivial
    have hstart : Synced InSets (· ≤ fdSetsize) (aePolled setsize ⟨fun _ => false⟩ : AePolled P D FdSets) :=
      Synced.start (fun _ _ => ⟨rfl, rfl⟩) hsize
    exact hstart.run select_lawful hany

/-- An `epoll_ctl` that has room for a new descriptor or has none. -/
def epollCtl (room : Bool) : EpollCtl
  | interest, .add, fd, events =>
    if (interest fd).isSome ∨ ¬ room then none else some (Function.update interest fd (some events))
  | interest, .mod, fd, events =>
    if (interest fd).isNone then none else some (Function.update interest fd (some events))
  | interest, .del, fd, _ => if (interest fd).isNone then none else some (Function.update interest fd none)

theorem epollCtl_documented (room : Bool) : EpollCtl.Documented (epollCtl room) where
  add := by
    intro interest fd events interest' h
    simp only [epollCtl] at h
    split at h
    · cases h
    · exact (Option.some.inj h).symm
  mod h := if_neg (by simp [Option.isNone_iff_eq_none, Option.isSome_iff_ne_none.mp h])
  del h := if_neg (by simp [Option.isNone_iff_eq_none, Option.isSome_iff_ne_none.mp h])

/-- The kernel refuses descriptor 3, takes it at the next call and changes it
    while it has no room; the table grows. -/
def refusedOnce : List (FileCall Nat Nat EpollCtl) :=
  [.create (epollCtl false) 3 aeReadable 7 8, .create (epollCtl true) 3 aeReadable 7 8,
    .create (epollCtl false) 3 aeWritable 7 8, .delete (epollCtl false) 3 aeReadable,
    .resize 20 fun _ => ⟨aeNone, none, none, none⟩, .create (epollCtl true) 15 aeReadable 7 8]

theorem kernel_watches_table_refusedOnce :
    (∀ call ∈ refusedOnce, call.Watches ∧ call.Finds EpollCtl.Documented) ∧
      Synced Interest (fun _ => True) (refusedOnce.foldl (fileStep aeEpoll) (aePolled 10 fun _ => none)) ∧
      Synced InSets (· ≤ fdSetsize) (refusedOnce.foldl (fileStep aeSelect) (aePolled 10 ⟨fun _ => false⟩)) := by
  have hcalls : ∀ call ∈ refusedOnce, call.Watches ∧ call.Finds EpollCtl.Documented := by
    simp [refusedOnce, FileCall.Watches, FileCall.Finds, aeReadable, aeWritable, aeNone, epollCtl_documented]
  obtain ⟨hepoll, -, hselect⟩ := kernel_watches_table 10 hcalls
  exact ⟨hcalls, hepoll, hselect (by decide)⟩

end BoAtom
