import FbBroker.Data.Dllist
import FbBroker.Lib.Command

/-!
Contract: the keep-alive tables of `keep_alive.c`.

Owns the hash tables of the workers, the fields of the clients they use and the
three operations on them, with the static variable `last_t` that all calls of
`ka_run` share. `ka_run` is stated over any state that holds these data, with
any callback for the clients it drops.

Owns the refinement of the operations to sequences of clients, one for each
bucket, when the callback leaves the tables alone. Does not own the times at
which the broker calls them.
-/

set_option autoImplicit false

namespace FbBroker.KeepAlive

open FbBroker.Lib FbBroker.Dllist

variable {Ref : Type} {bound : Nat} {i : Nat × Nat}

def hashTableSize : Nat := 101

def hashValue (t : Nat) : Nat := t % hashTableSize

/-- The times `client_st` has for the keep-alive. -/
structure Timer where
  recvAt : Nat
  lastKaUpdateAt : Nat
  expiresAt : Nat
deriving DecidableEq, Repr

/-- `keep_alive_st`. -/
structure Table (Ref : Type) where
  cnt : Int
  kickCnt : Nat
  hashTable : Nat → Option Ref

/-- The times and the nodes `ka_node` of all clients, the tables of the workers,
and `last_t`. -/
structure Wheel (Ref : Type) where
  timer : Ref → Timer
  node : Heap Ref
  table : Nat → Table Ref
  lastT : Nat

/-- The data before the first client: all bytes zero. -/
def Wheel.initial : Wheel Ref where
  timer := fun _ => ⟨0, 0, 0⟩
  node := fun _ => ⟨none, none, none⟩
  table := fun _ => ⟨0, 0, fun _ => none⟩
  lastT := 0

/-- `ka_init` of a worker's table. The callback it sets is an argument of `ka_run`
here. -/
def kaInit (wheel : Wheel Ref) (w : Nat) : Wheel Ref :=
  { wheel with table := Function.update wheel.table w ⟨0, 0, fun _ => none⟩ }

theorem kaInit_initial (w : Nat) : kaInit (Wheel.initial : Wheel Ref) w = .initial := by
  simp [kaInit, Wheel.initial]

/-- The fields of a new client, all zero. -/
def Wheel.clear [DecidableEq Ref] (wheel : Wheel Ref) (pc : Ref) : Wheel Ref :=
  { wheel with
    timer := Function.update wheel.timer pc ⟨0, 0, 0⟩
    node := Function.update wheel.node pc ⟨none, none, none⟩ }

/-- How long a client may be silent. -/
def interval (keepAlive : Nat) : Nat :=
  keepAlive + (keepAlive + 1) / 2

section Operations

variable [DecidableEq Ref] (wheel : Wheel Ref) (w : Nat)

def Wheel.setBucket (k : Nat) (node : Heap Ref) (head : Option Ref) : Wheel Ref :=
  { wheel with
    node
    table := Function.update wheel.table w { wheel.table w with
      hashTable := Function.update (wheel.table w).hashTable k head } }

def Wheel.addCnt (change : Int) : Wheel Ref :=
  { wheel with
    table := Function.update wheel.table w { wheel.table w with
      cnt := (wheel.table w).cnt + change } }

/-- `++ka->kick_cnt`. -/
def Wheel.kick : Wheel Ref :=
  { wheel with
    table := Function.update wheel.table w { wheel.table w with
      kickCnt := (wheel.table w).kickCnt + 1 } }

/-- Remove the client's node from the bucket of `expires_at`. -/
def Wheel.unlink (pc : Ref) : Wheel Ref :=
  let k := hashValue (wheel.timer pc).expiresAt
  let (node, head) := dllistRemoveRef wheel.node ((wheel.table w).hashTable k) pc
  wheel.setBucket w k node head

/-- Insert the client's node at the head of the bucket of `expires_at`. -/
def Wheel.link (pc : Ref) : Wheel Ref :=
  let k := hashValue (wheel.timer pc).expiresAt
  let (node, head) := dllistInsertHead wheel.node ((wheel.table w).hashTable k) pc
  wheel.setBucket w k node head

def Wheel.setTimer (pc : Ref) (timer : Timer) : Wheel Ref :=
  { wheel with timer := Function.update wheel.timer pc timer }

/-- `ka_update` on the table of a worker, for a client with the given
`keep_alive`. -/
def kaUpdate (pc : Ref) (keepAlive now : Nat) : Wheel Ref :=
  if keepAlive = 0 then wheel
  -- optimize for bursty pattern
  else if (wheel.timer pc).lastKaUpdateAt = now then wheel
  else
    let wheel :=
      if (wheel.node pc).p.isSome then wheel.unlink w pc
      else ({ wheel with node := wheel.node.setP pc (some pc) } : Wheel Ref).addCnt w 1
    let wheel := wheel.setTimer pc { wheel.timer pc with expiresAt := now + interval keepAlive }
    let wheel := wheel.link w pc
    wheel.setTimer pc { wheel.timer pc with lastKaUpdateAt := now }

/-- `ka_remove`; the node keeps its `p`. -/
def kaRemove (pc : Ref) (keepAlive : Nat) : Except Fault (Wheel Ref) :=
  if keepAlive ≠ 0 ∧ (wheel.node pc).p.isSome then
    let wheel := (wheel.unlink w pc).addCnt w (-1)
    if 0 ≤ (wheel.table w).cnt then .ok wheel else .error .assertion
  else .ok wheel

variable {wheel w} in
/-- Without a keep-alive, or in a burst, `ka_update` does nothing. -/
theorem kaUpdate_idle {pc : Ref} {keepAlive now : Nat}
    (idle : keepAlive = 0 ∨ (wheel.timer pc).lastKaUpdateAt = now) :
    kaUpdate wheel w pc keepAlive now = wheel := by
  unfold kaUpdate
  rcases idle with none | burst
  · rw [if_pos none]
  · rw [if_pos burst, ite_self]

variable {wheel w} in
theorem kaRemove_error {pc : Ref} {keepAlive : Nat} {fault : Fault}
    (failed : kaRemove wheel w pc keepAlive = .error fault) : fault = .assertion := by
  unfold kaRemove at failed
  split at failed
  · dsimp only at failed
    split at failed
    · simp at failed
    · exact (Except.error.inj failed).symm
  · simp at failed

end Operations

/-! ### Tables at rest -/

/-- No client has been entered and no time has been taken. -/
structure Wheel.Idle (wheel : Wheel Ref) : Prop where
  timer : ∀ pc, wheel.timer pc = ⟨0, 0, 0⟩
  node : ∀ pc, (wheel.node pc).p = none
  bucket : ∀ w k, (wheel.table w).hashTable k = none

namespace Wheel.Idle

theorem initial : (Wheel.initial : Wheel Ref).Idle :=
  ⟨fun _ => rfl, fun _ => rfl, fun _ _ => rfl⟩

variable [DecidableEq Ref] {wheel : Wheel Ref}

theorem clear (idle : wheel.Idle) (pc : Ref) : (wheel.clear pc).Idle where
  timer d := by
    by_cases same : d = pc
    · simp [Wheel.clear, same]
    · simp [Wheel.clear, same, idle.timer d]
  node d := by
    by_cases same : d = pc
    · simp [Wheel.clear, same]
    · simp [Wheel.clear, same, idle.node d]
  bucket := idle.bucket

/-- An update at the time zero takes the burst shortcut. -/
theorem kaUpdate (idle : wheel.Idle) (w : Nat) (pc : Ref) (keepAlive : Nat) :
    KeepAlive.kaUpdate wheel w pc keepAlive (wheel.timer pc).recvAt = wheel := by
  simp [KeepAlive.kaUpdate, idle.timer pc]

theorem kaRemove (idle : wheel.Idle) (w : Nat) (pc : Ref) (keepAlive : Nat) :
    KeepAlive.kaRemove wheel w pc keepAlive = .ok wheel := by
  simp [KeepAlive.kaRemove, idle.node pc]

end Wheel.Idle

/-! ### `ka_run` -/

/-- Where a program keeps the data: the wheel and the `keep_alive` of the clients
that have not been freed. -/
structure Keeper (State Ref : Type) where
  wheel : State → Wheel Ref
  put : State → Wheel Ref → State
  keepAlive : State → Ref → Option Nat

section Run

variable {State : Type} [DecidableEq Ref] (keeper : Keeper State Ref)
  (drop : Ref → Cmd Fault State Unit) (w t : Nat)

/-- Read a field of a client. -/
def Keeper.client (p : Ref) : Cmd Fault State Nat := do
  match keeper.keepAlive (← get) p with
  | some keepAlive => pure keepAlive
  | none => Cmd.fail .useAfterFree

/-- What `ka_run` does to an expired client. -/
def kaExpire (p : Ref) : Cmd Fault State Unit := do
  let keepAlive ← keeper.client p
  match kaRemove (keeper.wheel (← get)) w p keepAlive with
  | .error fault => Cmd.fail fault
  | .ok wheel => do
      modify fun state => keeper.put state wheel
      drop p
      modify fun state => keeper.put state ((keeper.wheel state).kick w)

/-- What the walk does at a client. -/
def kaVisit (p : Ref) : Cmd Fault State Unit := do
  let _ ← keeper.client p
  if ((keeper.wheel (← get)).timer p).expiresAt ≤ t then kaExpire keeper drop w p else pure ()

/-- The walk of `ka_run` over a bucket, with at most `bound` rounds. The node is
part of the client, which the callback may have freed when `next` is read. -/
def kaWalk : Nat → Option Ref → Cmd Fault State Unit
  | _, none => pure ()
  | 0, some _ => Cmd.fail .unbounded
  | bound + 1, some lp => do
      let _ ← keeper.client lp
      match ((keeper.wheel (← get)).node lp).p with
      | none => Cmd.fail .nullPointer
      | some p => do
          kaVisit keeper drop w t p
          let _ ← keeper.client lp
          kaWalk bound ((keeper.wheel (← get)).node lp).next

/-- The values of `i` in the loop of `ka_run`. -/
def window (lastT t : Nat) : List Nat :=
  if lastT = 0 then [t] else List.range' (lastT + 1) (t - lastT)

/-- One round of that loop. -/
def kaBucket (bound i : Nat) : Cmd Fault State Unit := do
  let lp := ((keeper.wheel (← get)).table w).hashTable (hashValue i)
  kaWalk keeper drop w t bound lp

def kaRun (bound : Nat) : Cmd Fault State Unit := do
  if t = 0 then Cmd.fail .assertion
  else do
    let lastT := (keeper.wheel (← get)).lastT
    if lastT = t then pure ()
    else do
      Cmd.each (kaBucket keeper drop w t bound) (window lastT t)
      modify fun state => keeper.put state { keeper.wheel state with lastT := t }

variable {keeper drop w t}

private theorem each_kaBucket_idle {state : State} (idle : (keeper.wheel state).Idle) (bound : Nat)
    (times : List Nat) :
    (Cmd.each (kaBucket keeper drop w t bound) times).run state = (.ok (), state) := by
  induction times with
  | nil => rfl
  | cons i times inductionHypothesis =>
      have empty : (kaBucket keeper drop w t bound i).run state = (.ok (), state) := by
        simp [kaBucket, idle.bucket w (hashValue i), kaWalk]
      exact Cmd.each_cons_ok empty inductionHypothesis

/-- With tables at rest only `last_t` is set. -/
theorem kaRun_idle {state : State} (idle : (keeper.wheel state).Idle) (positive : 0 < t)
    (bound : Nat) :
    (kaRun keeper drop w t bound).run state = (.ok (),
      if (keeper.wheel state).lastT = t then state
      else keeper.put state { keeper.wheel state with lastT := t }) := by
  have notZero : t ≠ 0 := Nat.ne_of_gt positive
  have swept : (Cmd.each (kaBucket keeper drop w t bound) (window (keeper.wheel state).lastT t)).run
      state = (.ok (), state) := each_kaBucket_idle idle bound _
  unfold kaRun
  rw [if_neg notZero, Cmd.run_get_bind]
  dsimp only
  by_cases done : (keeper.wheel state).lastT = t
  · rw [if_pos done, if_pos done, Cmd.run_pure]
  · rw [if_neg done, if_neg done, Cmd.bind_ok swept, Cmd.run_modify]

end Run

/-! ### What the operations leave alone -/

section Frames

variable (wheel : Wheel Ref) (w v k : Nat)

@[simp] theorem setBucket_cnt (node : Heap Ref) (head : Option Ref) :
    ((wheel.setBucket w k node head).table v).cnt = (wheel.table v).cnt := by
  by_cases same : v = w
  · subst v
    simp [Wheel.setBucket]
  · simp [Wheel.setBucket, same]

/-- One bucket of one table is set. -/
theorem setBucket_heads (node : Heap Ref) (head : Option Ref) :
    (fun i : Nat × Nat => ((wheel.setBucket w k node head).table i.1).hashTable i.2) =
      Function.update (fun i : Nat × Nat => (wheel.table i.1).hashTable i.2) (w, k) head := by
  funext ⟨v, j⟩
  by_cases sameTable : v = w
  · subst v
    by_cases sameBucket : j = k
    · subst j
      simp [Wheel.setBucket]
    · have different : (w, j) ≠ (w, k) := by simpa using sameBucket
      simp [Wheel.setBucket, Function.update_of_ne sameBucket, Function.update_of_ne different]
  · have different : (v, j) ≠ (w, k) := fun same => sameTable (Prod.mk.inj same).1
    simp [Wheel.setBucket, Function.update_of_ne sameTable, Function.update_of_ne different]

@[simp] theorem unlink_cnt [DecidableEq Ref] (c : Ref) :
    ((wheel.unlink w c).table v).cnt = (wheel.table v).cnt :=
  setBucket_cnt _ _ _ _ _ _

@[simp] theorem link_cnt [DecidableEq Ref] (c : Ref) :
    ((wheel.link w c).table v).cnt = (wheel.table v).cnt :=
  setBucket_cnt _ _ _ _ _ _

@[simp] theorem addCnt_hashTable (change : Int) :
    ((wheel.addCnt w change).table v).hashTable = (wheel.table v).hashTable := by
  by_cases same : v = w
  · subst v
    simp [Wheel.addCnt]
  · simp [Wheel.addCnt, same]

private theorem addCnt_cnt (change : Int) :
    ((wheel.addCnt w change).table v).cnt =
      (wheel.table v).cnt + if v = w then change else 0 := by
  by_cases same : v = w
  · subst v
    simp [Wheel.addCnt]
  · simp [Wheel.addCnt, same]

@[simp] theorem kick_hashTable : ((wheel.kick w).table v).hashTable = (wheel.table v).hashTable := by
  by_cases same : v = w
  · subst v
    simp [Wheel.kick]
  · simp [Wheel.kick, same]

@[simp] theorem kick_cnt : ((wheel.kick w).table v).cnt = (wheel.table v).cnt := by
  by_cases same : v = w
  · subst v
    simp [Wheel.kick]
  · simp [Wheel.kick, same]

@[simp] theorem setBucket_kickCnt (node : Heap Ref) (head : Option Ref) :
    ((wheel.setBucket w k node head).table v).kickCnt = (wheel.table v).kickCnt := by
  by_cases same : v = w
  · subst v
    simp [Wheel.setBucket]
  · simp [Wheel.setBucket, same]

@[simp] theorem unlink_kickCnt [DecidableEq Ref] (c : Ref) :
    ((wheel.unlink w c).table v).kickCnt = (wheel.table v).kickCnt :=
  setBucket_kickCnt _ _ _ _ _ _

@[simp] theorem link_kickCnt [DecidableEq Ref] (c : Ref) :
    ((wheel.link w c).table v).kickCnt = (wheel.table v).kickCnt :=
  setBucket_kickCnt _ _ _ _ _ _

private theorem setTimer_table [DecidableEq Ref] (c : Ref) (timer : Timer) :
    (wheel.setTimer c timer).table = wheel.table :=
  rfl

@[simp] theorem addCnt_kickCnt (change : Int) :
    ((wheel.addCnt w change).table v).kickCnt = (wheel.table v).kickCnt := by
  by_cases same : v = w
  · subst v
    simp [Wheel.addCnt]
  · simp [Wheel.addCnt, same]

@[simp] theorem kick_kickCnt : ((wheel.kick w).table w).kickCnt = (wheel.table w).kickCnt + 1 := by
  simp [Wheel.kick]

@[simp] theorem kaUpdate_kickCnt [DecidableEq Ref] (c : Ref) (keepAlive now : Nat) :
    ((kaUpdate wheel w c keepAlive now).table v).kickCnt = (wheel.table v).kickCnt := by
  unfold kaUpdate
  split
  · rfl
  split
  · rfl
  · simp only [setTimer_table, link_kickCnt]
    split
    · exact unlink_kickCnt _ _ _ _
    · exact addCnt_kickCnt _ _ _ _

theorem kaRemove_kickCnt [DecidableEq Ref] {wheel wheel' : Wheel Ref} {c : Ref} {keepAlive : Nat}
    (removed : kaRemove wheel w c keepAlive = .ok wheel') :
    (wheel'.table v).kickCnt = (wheel.table v).kickCnt := by
  unfold kaRemove at removed
  split at removed
  · dsimp only at removed
    split at removed
    · obtain rfl := Except.ok.inj removed
      exact (addCnt_kickCnt _ _ _ _).trans (unlink_kickCnt _ _ _ _)
    · simp at removed
  · exact Except.ok.inj removed ▸ rfl

end Frames

/-! ### Buckets as sequences -/

/-- The clients in each bucket of each table, and the clients of each table. -/
structure Rings (Ref : Type) where
  bucket : Nat × Nat → List Ref
  members : Nat → List Ref

def Rings.empty : Rings Ref :=
  ⟨fun _ => [], fun _ => []⟩

def Rings.without [DecidableEq Ref] (rings : Rings Ref) (c : Ref) : Rings Ref where
  bucket i := (rings.bucket i).erase c
  members w := (rings.members w).erase c

def Rings.insert [DecidableEq Ref] (rings : Rings Ref) (i : Nat × Nat) (c : Ref) : Rings Ref where
  bucket := Function.update rings.bucket i (c :: rings.bucket i)
  members := Function.update rings.members i.1 (c :: rings.members i.1)

theorem Rings.mem_insert [DecidableEq Ref] {rings : Rings Ref} {i j : Nat × Nat} {c d : Ref} :
    d ∈ (rings.insert i c).bucket j ↔ j = i ∧ d = c ∨ d ∈ rings.bucket j := by
  by_cases same : j = i
  · subst j
    simp [Rings.insert]
  · simp [Rings.insert, same]

theorem Rings.mem_insert_members [DecidableEq Ref] {rings : Rings Ref} {w : Nat} {c d : Ref} :
    d ∈ (rings.insert i c).members w ↔ w = i.1 ∧ d = c ∨ d ∈ rings.members w := by
  by_cases same : w = i.1
  · subst w
    simp [Rings.insert]
  · simp [Rings.insert, same]

/-- The buckets hold these sequences: each client in the table of its worker,
under the hash of its `expires_at`, with a node that points to it. -/
structure Linked (keepAlive owner : Ref → Nat) (wheel : Wheel Ref) (rings : Rings Ref) : Prop where
  lists : DLists wheel.node (fun i : Nat × Nat => (wheel.table i.1).hashTable i.2) rings.bucket
  home : ∀ {i c}, c ∈ rings.bucket i → i = (owner c, hashValue (wheel.timer c).expiresAt)
  self : ∀ {i c}, c ∈ rings.bucket i → (wheel.node c).p = some c
  timed : ∀ {i c}, c ∈ rings.bucket i → keepAlive c ≠ 0
  members : ∀ {w c}, c ∈ rings.members w ↔ ∃ k, c ∈ rings.bucket (w, k)
  distinct : ∀ w, (rings.members w).Nodup

/-- So they do, and the counters agree. -/
structure Tracks (keepAlive owner : Ref → Nat) (wheel : Wheel Ref) (rings : Rings Ref) : Prop
    extends Linked keepAlive owner wheel rings where
  cnt : ∀ w, (wheel.table w).cnt = (rings.members w).length

variable {keepAlive owner : Ref → Nat} {wheel wheel' : Wheel Ref} {rings : Rings Ref} {c : Ref}

theorem Tracks.initial : Tracks keepAlive owner (Wheel.initial : Wheel Ref) .empty where
  lists := ⟨fun _ => DList.empty _, fun member => by simp [Rings.empty] at member⟩
  home member := by simp [Rings.empty] at member
  self member := by simp [Rings.empty] at member
  timed member := by simp [Rings.empty] at member
  members := by simp [Rings.empty]
  distinct := by simp [Rings.empty]
  cnt := by simp [Wheel.initial, Rings.empty]

namespace Linked

theorem nodup (linked : Linked keepAlive owner wheel rings) (i : Nat × Nat) :
    (rings.bucket i).Nodup :=
  (linked.lists.lists i).nodup

/-- Only the times, the nodes and the heads of the buckets matter. -/
theorem congr (linked : Linked keepAlive owner wheel rings) (timer : wheel'.timer = wheel.timer)
    (node : wheel'.node = wheel.node)
    (heads : ∀ w, (wheel'.table w).hashTable = (wheel.table w).hashTable) :
    Linked keepAlive owner wheel' rings where
  lists := by
    rw [node]
    simp only [heads]
    exact linked.lists
  home := by
    rw [timer]
    exact linked.home
  self := by
    rw [node]
    exact linked.self
  timed := linked.timed
  members := linked.members
  distinct := linked.distinct

/-- The bucket of a client depends on its `expires_at` only. -/
theorem setTimer [DecidableEq Ref] (linked : Linked keepAlive owner wheel rings) {timer : Timer}
    (same : ∀ i, c ∈ rings.bucket i → timer.expiresAt = (wheel.timer c).expiresAt) :
    Linked keepAlive owner (wheel.setTimer c timer) rings where
  lists := linked.lists
  home {i d} member := by
    by_cases here : d = c
    · subst d
      simpa [Wheel.setTimer, same i member] using linked.home member
    · simpa [Wheel.setTimer, Function.update_of_ne here] using linked.home member
  self := linked.self
  timed := linked.timed
  members := linked.members
  distinct := linked.distinct

/-- Writing the `p` of a client that is in no bucket. -/
theorem setP [DecidableEq Ref] (linked : Linked keepAlive owner wheel rings)
    (outside : ∀ i, c ∉ rings.bucket i) (p : Option Ref) :
    Linked keepAlive owner { wheel with node := wheel.node.setP c p } rings where
  lists := ⟨fun i => (linked.lists.lists i).congr fun _ _ => by simp, linked.lists.apart⟩
  home := linked.home
  self {i d} member := by
    have different : d ≠ c := by
      rintro rfl
      exact outside i member
    exact (congrArg Node.p (Heap.setP_of_ne _ _ different)).trans (linked.self member)
  timed := linked.timed
  members := linked.members
  distinct := linked.distinct

variable [DecidableEq Ref]

theorem mem_without (linked : Linked keepAlive owner wheel rings) {d : Ref} :
    d ∈ (rings.without c).bucket i ↔ d ≠ c ∧ d ∈ rings.bucket i :=
  (linked.nodup i).mem_erase_iff

theorem mem_without_members (linked : Linked keepAlive owner wheel rings) {d : Ref} {w : Nat} :
    d ∈ (rings.without c).members w ↔ d ≠ c ∧ d ∈ rings.members w :=
  (linked.distinct w).mem_erase_iff

/-- Taking out a client that is in no bucket changes nothing. -/
theorem without_of_outside (linked : Linked keepAlive owner wheel rings)
    (outside : ∀ i, c ∉ rings.bucket i) : rings.without c = rings := by
  have buckets : (rings.without c).bucket = rings.bucket :=
    funext fun i => List.erase_of_not_mem (outside i)
  have members : (rings.without c).members = rings.members := by
    funext w
    apply List.erase_of_not_mem
    intro member
    obtain ⟨k, here⟩ := linked.members.mp member
    exact outside _ here
  cases rings
  simp only [Rings.without] at buckets members
  simp only [Rings.without, buckets, members]

/-- Unlinking a client takes it out of its bucket. -/
theorem unlink (linked : Linked keepAlive owner wheel rings)
    (member : c ∈ rings.bucket (owner c, hashValue (wheel.timer c).expiresAt)) :
    Linked keepAlive owner (wheel.unlink (owner c) c) (rings.without c) where
  lists := by
    have removed := linked.lists.removeRef member
    have buckets : (rings.without c).bucket =
        Function.update rings.bucket (owner c, hashValue (wheel.timer c).expiresAt)
          ((rings.bucket (owner c, hashValue (wheel.timer c).expiresAt)).erase c) := by
      funext i
      by_cases same : i = (owner c, hashValue (wheel.timer c).expiresAt)
      · subst i
        simp [Rings.without]
      · rw [Function.update_of_ne same]
        exact List.erase_of_not_mem fun elsewhere => same (linked.home elsewhere)
    rw [buckets]
    simp only [Wheel.unlink, setBucket_heads]
    exact removed
  home inside := linked.home (linked.mem_without.mp inside).2
  self inside := by
    have kept := ((linked.lists.lists _).removeRef member).2.2
    rw [show (wheel.unlink (owner c) c).node = _ from rfl]
    exact (kept _).trans (linked.self (linked.mem_without.mp inside).2)
  timed inside := linked.timed (linked.mem_without.mp inside).2
  members := by
    intro w d
    rw [linked.mem_without_members, linked.members]
    simp only [linked.mem_without]
    tauto
  distinct w := (linked.distinct w).erase c

/-- Linking a client that is in no bucket puts it at the head of one. -/
theorem link (linked : Linked keepAlive owner wheel rings) (outside : ∀ i, c ∉ rings.bucket i)
    (self : (wheel.node c).p = some c) (timed : keepAlive c ≠ 0) :
    Linked keepAlive owner (wheel.link (owner c) c)
      (rings.insert (owner c, hashValue (wheel.timer c).expiresAt) c) where
  lists := by
    simp only [Wheel.link, setBucket_heads]
    exact linked.lists.insertHead (owner c, hashValue (wheel.timer c).expiresAt) outside
  home inside := by
    rcases Rings.mem_insert.mp inside with ⟨here, same⟩ | old
    · rw [here, same]
      rfl
    · exact linked.home old
  self inside := by
    refine (DList.insertHead_p _ _ _ _).trans ?_
    rcases Rings.mem_insert.mp inside with ⟨-, same⟩ | old
    · rw [same, self]
    · exact linked.self old
  timed inside := by
    rcases Rings.mem_insert.mp inside with ⟨-, same⟩ | old
    · rw [same]
      exact timed
    · exact linked.timed old
  members := by
    intro w d
    simp only [Rings.mem_insert_members, Rings.mem_insert, linked.members, Prod.mk.injEq]
    constructor
    · rintro (⟨here, same⟩ | ⟨k, old⟩)
      · exact ⟨_, .inl ⟨⟨here, rfl⟩, same⟩⟩
      · exact ⟨k, .inr old⟩
    · rintro ⟨k, ⟨⟨here, -⟩, same⟩ | old⟩
      · exact .inl ⟨here, same⟩
      · exact .inr ⟨k, old⟩
  distinct w := by
    by_cases here : w = owner c
    · subst w
      simp only [Rings.insert, Function.update_self, List.nodup_cons]
      refine ⟨fun member => ?_, linked.distinct _⟩
      obtain ⟨k, inside⟩ := linked.members.mp member
      exact outside _ inside
    · simpa [Rings.insert, Function.update_of_ne here] using linked.distinct w

end Linked

/-! ### The operations on the sequences -/

variable [DecidableEq Ref]

/-- `ka_remove` of a client in a bucket takes it out; its times, its `p` and its
successor stay. -/
theorem Tracks.kaRemove (tracks : Tracks keepAlive owner wheel rings) (member : c ∈ rings.bucket i) :
    ∃ wheel', KeepAlive.kaRemove wheel i.1 c (keepAlive c) = .ok wheel' ∧
      Tracks keepAlive owner wheel' (rings.without c) ∧ wheel'.timer = wheel.timer ∧
      (∀ d, (wheel'.node d).p = (wheel.node d).p) ∧ wheel'.lastT = wheel.lastT ∧
      (wheel'.node c).next = (wheel.node c).next := by
  have home := tracks.home member
  have listed : c ∈ rings.members (owner c) := tracks.members.mpr ⟨_, home ▸ member⟩
  have counted : ∀ w, (((wheel.unlink (owner c) c).addCnt (owner c) (-1)).table w).cnt =
      ((rings.without c).members w).length := by
    intro w
    rw [addCnt_cnt, unlink_cnt, tracks.cnt]
    by_cases here : w = owner c
    · subst w
      have positive := List.length_pos_of_mem listed
      simp only [if_true, Rings.without, List.length_erase_of_mem listed]
      omega
    · have absent : c ∉ rings.members w := by
        intro elsewhere
        obtain ⟨k, inside⟩ := tracks.members.mp elsewhere
        exact here (Prod.mk.inj (tracks.home inside)).1
      simp [here, Rings.without, List.erase_of_not_mem absent]
  have unlinked : Linked keepAlive owner ((wheel.unlink (owner c) c).addCnt (owner c) (-1))
      (rings.without c) :=
    (tracks.toLinked.unlink (home ▸ member)).congr rfl rfl fun w => addCnt_hashTable _ _ _ _
  refine ⟨_, ?_, ⟨unlinked, counted⟩, rfl, ?_, rfl, ?_⟩
  · rw [KeepAlive.kaRemove, if_pos ⟨tracks.timed member, by simp [tracks.self member]⟩, home]
    dsimp only
    rw [if_pos]
    rw [counted]
    omega
  · exact ((tracks.lists.lists _).removeRef (home ▸ member)).2.2
  · exact (tracks.lists.lists _).removeRef_next (home ▸ member)

/-- A client is in a bucket exactly if `ka_update` finds it there. -/
def Entered (wheel : Wheel Ref) (rings : Rings Ref) (c : Ref) : Prop :=
  (wheel.node c).p.isSome ↔ ∃ i, c ∈ rings.bucket i

/-- A client that was moved is in its new bucket; the others are where they were. -/
theorem Entered.moved (linked : Linked keepAlive owner wheel rings) {d : Ref}
    (self : (wheel'.node c).p = some c) (others : d ≠ c → (wheel'.node d).p = (wheel.node d).p)
    (before : Entered wheel rings d) : Entered wheel' ((rings.without c).insert i c) d := by
  unfold Entered at before ⊢
  by_cases same : d = c
  · subst d
    simp only [self, Option.isSome_some, true_iff]
    exact ⟨i, Rings.mem_insert.mpr (.inl ⟨rfl, rfl⟩)⟩
  · rw [others same, before]
    simp only [Rings.mem_insert, same, and_false, false_or, linked.mem_without, ne_eq,
      not_false_eq_true, true_and]

/-- The first part of `ka_update`: the client is in no bucket and the counter is
ahead of it. -/
theorem Tracks.detach (tracks : Tracks keepAlive owner wheel rings) (entered : Entered wheel rings c) :
    ∃ wheel', (if (wheel.node c).p.isSome then wheel.unlink (owner c) c
        else ({ wheel with node := wheel.node.setP c (some c) } : Wheel Ref).addCnt (owner c) 1) =
          wheel' ∧
      Linked keepAlive owner wheel' (rings.without c) ∧ (wheel'.node c).p = some c ∧
      (∀ w k, (wheel'.table w).cnt =
        (((rings.without c).insert (owner c, k) c).members w).length) ∧
      wheel'.timer = wheel.timer ∧ (∀ d, d ≠ c → (wheel'.node d).p = (wheel.node d).p) ∧
      wheel'.lastT = wheel.lastT := by
  by_cases linked : (wheel.node c).p.isSome = true
  · obtain ⟨i, member⟩ := entered.mp linked
    have home := tracks.home member
    rw [home] at member
    have listed : c ∈ rings.members (owner c) := tracks.members.mpr ⟨_, member⟩
    have kept : ∀ d, ((wheel.unlink (owner c) c).node d).p = (wheel.node d).p :=
      ((tracks.lists.lists _).removeRef member).2.2
    refine ⟨wheel.unlink (owner c) c, if_pos linked, tracks.toLinked.unlink member,
      (kept c).trans (tracks.self member), fun w k => ?_, rfl, fun d _ => kept d, rfl⟩
    rw [unlink_cnt, tracks.cnt]
    by_cases here : w = owner c
    · subst w
      have positive := List.length_pos_of_mem listed
      simp only [Rings.insert, Rings.without, Function.update_self, List.length_cons,
        List.length_erase_of_mem listed]
      omega
    · have absent : c ∉ rings.members w := by
        intro elsewhere
        obtain ⟨k, inside⟩ := tracks.members.mp elsewhere
        exact here (Prod.mk.inj (tracks.home inside)).1
      simp [Rings.insert, Rings.without, here, List.erase_of_not_mem absent]
  · have outside : ∀ i, c ∉ rings.bucket i := fun i member => linked (entered.mpr ⟨i, member⟩)
    rw [tracks.toLinked.without_of_outside outside]
    refine ⟨_, if_neg linked, ?_, ?_, fun w k => ?_, rfl, fun d different => ?_, rfl⟩
    · exact (tracks.toLinked.setP outside (some c)).congr rfl rfl fun w => addCnt_hashTable _ _ _ _
    · exact Heap.setP_self _ _
    · rw [addCnt_cnt, tracks.cnt]
      by_cases here : w = owner c
      · subst w
        simp [Rings.insert]
      · simp [Rings.insert, here]
    · exact congrArg Node.p (Heap.setP_of_ne _ _ different)

/-- `ka_update` of a client with a keep-alive, not yet updated at this time, moves
it to the bucket of its new `expires_at`. -/
theorem Tracks.kaUpdate (tracks : Tracks keepAlive owner wheel rings)
    (entered : Entered wheel rings c) (timed : keepAlive c ≠ 0) {now : Nat}
    (later : (wheel.timer c).lastKaUpdateAt ≠ now) :
    ∃ wheel', KeepAlive.kaUpdate wheel (owner c) c (keepAlive c) now = wheel' ∧
      Tracks keepAlive owner wheel' ((rings.without c).insert
        (owner c, hashValue (now + interval (keepAlive c))) c) ∧
      wheel'.timer = Function.update wheel.timer c
        ⟨(wheel.timer c).recvAt, now, now + interval (keepAlive c)⟩ ∧
      (wheel'.node c).p = some c ∧ (∀ d, d ≠ c → (wheel'.node d).p = (wheel.node d).p) ∧
      wheel'.lastT = wheel.lastT := by
  obtain ⟨detached, first, linked, self, counted, timer, others, lastT⟩ := tracks.detach entered
  rw [KeepAlive.kaUpdate, if_neg timed, if_neg later]
  dsimp only
  rw [first]
  have outside : ∀ i, c ∉ (rings.without c).bucket i :=
    fun i member => (tracks.toLinked.mem_without.mp member).1 rfl
  have moved : Linked keepAlive owner (detached.setTimer c { detached.timer c with
      expiresAt := now + interval (keepAlive c) }) (rings.without c) :=
    linked.setTimer fun i member => absurd member (outside i)
  have bucket : ((detached.setTimer c { detached.timer c with
      expiresAt := now + interval (keepAlive c) }).timer c).expiresAt =
        now + interval (keepAlive c) := by
    simp [Wheel.setTimer]
  have joined := moved.link outside self timed
  rw [bucket] at joined
  refine ⟨_, rfl, ⟨joined.setTimer fun i _ => rfl, fun w => ?_⟩, ?_, ?_, fun d different => ?_, lastT⟩
  · exact (link_cnt _ _ _ _).trans (counted w _)
  · simp [Wheel.setTimer, Wheel.link, Wheel.setBucket, timer]
  · exact (DList.insertHead_p _ _ _ _).trans self
  · exact (DList.insertHead_p _ _ _ _).trans (others d different)

/-! ### `ka_run` with a callback that leaves the tables alone -/

/-- The tables and the clients dropped so far, each with its table. -/
structure Observed (Ref : Type) where
  wheel : Wheel Ref
  dropped : List (Nat × Ref)

/-- No client is freed. -/
def observer (keepAlive : Ref → Nat) : Keeper (Observed Ref) Ref where
  wheel := Observed.wheel
  put observed wheel := { observed with wheel }
  keepAlive _ c := some (keepAlive c)

/-- The observer's callback. -/
def recordDrop (w : Nat) (c : Ref) : Cmd Fault (Observed Ref) Unit :=
  modify fun observed => { observed with dropped := observed.dropped ++ [(w, c)] }

/-- Some clients are dropped and taken out of the buckets; nothing else
changes. -/
structure Sweeps (keepAlive owner : Ref → Nat) (w : Nat) (drops : List Ref)
    (before after : Observed Ref) (rings rings' : Rings Ref) : Prop where
  tracks : Tracks keepAlive owner after.wheel rings'
  bucket : ∀ i, rings'.bucket i = (rings.bucket i).filter fun c => decide (c ∉ drops)
  timer : after.wheel.timer = before.wheel.timer
  p : ∀ d, (after.wheel.node d).p = (before.wheel.node d).p
  lastT : after.wheel.lastT = before.wheel.lastT
  dropped : after.dropped = before.dropped ++ drops.map fun c => (w, c)

variable {w t : Nat} {observed middle after : Observed Ref} {rings' rings'' : Rings Ref}
  {drops drops' : List Ref}

theorem Sweeps.refl (tracks : Tracks keepAlive owner observed.wheel rings) :
    Sweeps keepAlive owner w [] observed observed rings rings where
  tracks := tracks
  bucket := by simp
  timer := rfl
  p _ := rfl
  lastT := rfl
  dropped := by simp

theorem Sweeps.trans (first : Sweeps keepAlive owner w drops observed middle rings rings')
    (second : Sweeps keepAlive owner w drops' middle after rings' rings'') :
    Sweeps keepAlive owner w (drops ++ drops') observed after rings rings'' where
  tracks := second.tracks
  bucket i := by
    rw [second.bucket, first.bucket, List.filter_filter]
    refine List.filter_congr fun c _ => ?_
    simp [Bool.and_comm]
  timer := second.timer.trans first.timer
  p d := (second.p d).trans (first.p d)
  lastT := second.lastT.trans first.lastT
  dropped := by rw [second.dropped, first.dropped]; simp

/-- An expired client is taken out and reported. -/
theorem kaExpire_run (tracks : Tracks keepAlive owner observed.wheel rings) {k : Nat}
    (member : c ∈ rings.bucket (w, k)) :
    ∃ after, (kaExpire (observer keepAlive) (recordDrop w) w c).run observed = (.ok (), after) ∧
      Sweeps keepAlive owner w [c] observed after rings (rings.without c) ∧
      (after.wheel.node c).next = (observed.wheel.node c).next := by
  obtain ⟨wheel', removed, tracks', timer, p, lastT, next⟩ := tracks.kaRemove member
  refine ⟨⟨wheel'.kick w, observed.dropped ++ [(w, c)]⟩, ?_, ⟨⟨?_, ?_⟩, ?_, timer, p, lastT, rfl⟩, next⟩
  · simp only [kaExpire, Keeper.client, observer, Cmd.run_bind, Cmd.run_get, Cmd.run_pure, removed,
      recordDrop, Cmd.run_modify]
  · exact tracks'.toLinked.congr rfl rfl fun v => kick_hashTable _ _ _
  · intro v
    rw [kick_cnt]
    exact tracks'.cnt v
  · intro i
    show (rings.bucket i).erase c = _
    rw [(tracks.nodup i).erase_eq_filter]
    refine List.filter_congr fun d _ => ?_
    rw [Bool.eq_iff_iff]
    simp

/-- One round of the walk, at a client that points to itself. -/
theorem kaWalk_succ (self : (observed.wheel.node c).p = some c) {next : Observed Ref}
    (visited : (if (observed.wheel.timer c).expiresAt ≤ t then
      kaExpire (observer keepAlive) (recordDrop w) w c else pure ()).run observed = (.ok (), next))
    (bound : Nat) :
    (kaWalk (observer keepAlive) (recordDrop w) w t (bound + 1) (some c)).run observed =
      (kaWalk (observer keepAlive) (recordDrop w) w t bound (next.wheel.node c).next).run next := by
  have visit : (kaVisit (observer keepAlive) (recordDrop w) w t c).run observed = (.ok (), next) :=
    visited
  have read : ∀ state : Observed Ref,
      ((observer keepAlive).client c).run state = (.ok (keepAlive c), state) := fun _ => rfl
  rw [kaWalk, Cmd.bind_ok (read observed), Cmd.run_get_bind]
  rw [show (((observer keepAlive).wheel observed).node c).p = some c from self]
  dsimp only
  rw [Cmd.bind_ok visit, Cmd.bind_ok (read next), Cmd.run_get_bind]
  rfl

/-- The walk over what is left of a bucket drops the expired clients in it. -/
theorem kaWalk_run {k : Nat} {kept rest : List Ref}
    (tracks : Tracks keepAlive owner observed.wheel rings)
    (here : rings.bucket (w, k) = kept ++ rest) (enough : rest.length ≤ bound) :
    ∃ after rings', (kaWalk (observer keepAlive) (recordDrop w) w t bound rest.head?).run observed =
        (.ok (), after) ∧
      Sweeps keepAlive owner w
        (rest.filter fun c => decide ((observed.wheel.timer c).expiresAt ≤ t)) observed after
        rings rings' := by
  induction rest generalizing kept bound observed rings with
  | nil => exact ⟨observed, rings, by cases bound <;> rfl, .refl tracks⟩
  | cons c rest inductionHypothesis =>
      obtain ⟨bound, rfl⟩ := Nat.exists_eq_succ_of_ne_zero
        (by simp at enough; omega : bound ≠ 0)
      have shorter : rest.length ≤ bound := by simpa using enough
      have member : c ∈ rings.bucket (w, k) := by simp [here]
      have next : (observed.wheel.node c).next = rest.head? := by
        have chain := (tracks.lists.lists (w, k)).chain
        rw [here] at chain
        exact chain.suffix_of_append.2.head_eq
      by_cases due : (observed.wheel.timer c).expiresAt ≤ t
      · obtain ⟨middle, expired, swept, same⟩ := kaExpire_run tracks member
        have left : (rings.without c).bucket (w, k) = kept ++ rest := by
          have distinct := tracks.nodup (w, k)
          rw [here] at distinct
          have notKept : c ∉ kept := fun inKept =>
            (List.nodup_append.mp distinct).2.2 c inKept c (by simp) rfl
          simp [Rings.without, here, List.erase_append_right _ notKept]
        obtain ⟨after, rings', walked, later⟩ := inductionHypothesis swept.tracks left shorter
        refine ⟨after, rings', ?_, ?_⟩
        · rw [List.head?_cons, kaWalk_succ (tracks.self member) (by rw [if_pos due]; exact expired),
            same, next]
          exact walked
        · rw [List.filter_cons_of_pos (by simpa using due)]
          rw [swept.timer] at later
          exact swept.trans later
      · obtain ⟨after, rings', walked, later⟩ := inductionHypothesis tracks
          (show rings.bucket (w, k) = (kept ++ [c]) ++ rest by simp [here]) shorter
        refine ⟨after, rings', ?_, ?_⟩
        · rw [List.head?_cons, kaWalk_succ (tracks.self member) (by rw [if_neg due]; rfl), next]
          exact walked
        · rw [List.filter_cons_of_neg (by simpa using due)]
          exact later

/-- The loop of `ka_run` drops the expired clients of the buckets it visits. -/
theorem each_kaBucket_run (visits : List Nat) (tracks : Tracks keepAlive owner observed.wheel rings)
    (enough : ∀ k, (rings.bucket (w, k)).length ≤ bound) :
    ∃ after rings' drops,
      (Cmd.each (kaBucket (observer keepAlive) (recordDrop w) w t bound) visits).run observed =
        (.ok (), after) ∧
      Sweeps keepAlive owner w drops observed after rings rings' ∧ drops.Nodup ∧
      ∀ c, c ∈ drops ↔ (∃ i ∈ visits, c ∈ rings.bucket (w, hashValue i)) ∧
        (observed.wheel.timer c).expiresAt ≤ t := by
  induction visits generalizing observed rings with
  | nil => exact ⟨observed, rings, [], rfl, .refl tracks, List.nodup_nil, by simp⟩
  | cons i visits inductionHypothesis =>
      have whole : rings.bucket (w, hashValue i) = [] ++ rings.bucket (w, hashValue i) := rfl
      obtain ⟨middle, rings₁, walked, first⟩ :=
        kaWalk_run (t := t) tracks whole (enough (hashValue i))
      have visited : (kaBucket (observer keepAlive) (recordDrop w) w t bound i).run observed =
          (.ok (), middle) := by
        rw [← (tracks.lists.lists (w, hashValue i)).head_eq] at walked
        exact walked
      have still : ∀ k, (rings₁.bucket (w, k)).length ≤ bound := by
        intro k
        rw [first.bucket]
        exact (List.length_filter_le _ _).trans (enough k)
      obtain ⟨after, rings', drops, swept, second, distinct, exactly⟩ :=
        inductionHypothesis first.tracks still
      rw [first.timer] at exactly
      refine ⟨after, rings', _, Cmd.each_cons_ok visited swept, first.trans second, ?_, ?_⟩
      · refine List.nodup_append.mpr ⟨(tracks.nodup _).filter _, distinct, ?_⟩
        rintro c early d late rfl
        obtain ⟨⟨j, -, inside⟩, -⟩ := (exactly c).mp late
        rw [first.bucket, List.mem_filter, decide_eq_true_eq] at inside
        exact inside.2 early
      · intro c
        rw [List.mem_append, List.mem_filter, exactly]
        simp only [first.bucket, List.mem_filter, decide_eq_true_eq, List.mem_cons, not_and]
        constructor
        · rintro (⟨inside, due⟩ | ⟨⟨j, visited, inside, -⟩, due⟩)
          · exact ⟨⟨i, .inl rfl, inside⟩, due⟩
          · exact ⟨⟨j, .inr visited, inside⟩, due⟩
        · rintro ⟨⟨j, rfl | visited, inside⟩, due⟩
          · exact .inl ⟨inside, due⟩
          · by_cases early : c ∈ rings.bucket (w, hashValue i)
            · exact .inl ⟨early, due⟩
            · exact .inr ⟨⟨j, visited, inside, fun here => absurd here early⟩, due⟩

/-- `ka_run` at a new time drops the expired clients of the buckets since the last
call on any table. -/
theorem kaRun_run (tracks : Tracks keepAlive owner observed.wheel rings)
    (enough : ∀ k, (rings.bucket (w, k)).length ≤ bound) (positive : t ≠ 0)
    (later : observed.wheel.lastT ≠ t) :
    ∃ after rings' drops,
      (kaRun (observer keepAlive) (recordDrop w) w t bound).run observed =
        (.ok (), { after with wheel.lastT := t }) ∧
      Sweeps keepAlive owner w drops observed after rings rings' ∧ drops.Nodup ∧
      ∀ c, c ∈ drops ↔
        (∃ i ∈ window observed.wheel.lastT t, c ∈ rings.bucket (w, hashValue i)) ∧
          (observed.wheel.timer c).expiresAt ≤ t := by
  obtain ⟨after, rings', drops, swept, rest⟩ :=
    each_kaBucket_run (t := t) (window observed.wheel.lastT t) tracks enough
  refine ⟨after, rings', drops, ?_, rest⟩
  rw [kaRun, if_neg positive, Cmd.run_get_bind]
  rw [show (observer keepAlive).wheel observed = observed.wheel from rfl, if_neg later,
    Cmd.bind_ok swept]
  rfl

theorem kaRun_again (positive : t ≠ 0) (again : observed.wheel.lastT = t) (bound : Nat) :
    (kaRun (observer keepAlive) (recordDrop w) w t bound).run observed = (.ok (), observed) := by
  rw [kaRun, if_neg positive, Cmd.run_get_bind]
  rw [show (observer keepAlive).wheel observed = observed.wheel from rfl, if_pos again]
  rfl

/-! ### `ka_run` when nobody is due -/

section NobodyDue

variable {State : Type} {keeper : Keeper State Ref} {drop : Ref → Cmd Fault State Unit}
  {state : State}

/-- The walk over what is left of a bucket in which no client is due, with any
callback. -/
theorem kaWalk_nobody {k : Nat} {kept rest : List Ref}
    (tracks : Tracks keepAlive owner (keeper.wheel state) rings)
    (here : rings.bucket (w, k) = kept ++ rest) (enough : rest.length ≤ bound)
    (present : ∀ c ∈ rest, keeper.keepAlive state c = some (keepAlive c))
    (later : ∀ c ∈ rest, t < ((keeper.wheel state).timer c).expiresAt) :
    (kaWalk keeper drop w t bound rest.head?).run state = (.ok (), state) := by
  induction rest generalizing kept bound with
  | nil => cases bound <;> rfl
  | cons c rest inductionHypothesis =>
      obtain ⟨bound, rfl⟩ := Nat.exists_eq_succ_of_ne_zero
        (by simp at enough; omega : bound ≠ 0)
      have member : c ∈ rings.bucket (w, k) := by simp [here]
      have next : ((keeper.wheel state).node c).next = rest.head? := by
        have chain := (tracks.lists.lists (w, k)).chain
        rw [here] at chain
        exact chain.suffix_of_append.2.head_eq
      have read : (keeper.client c).run state = (.ok (keepAlive c), state) := by
        simp [Keeper.client, present c (by simp)]
      have notDue := Nat.not_le.mpr (later c (by simp))
      have visited : (kaVisit keeper drop w t c).run state = (.ok (), state) := by
        rw [kaVisit, Cmd.bind_ok read, Cmd.run_get_bind, if_neg notDue, Cmd.run_pure]
      rw [List.head?_cons, kaWalk, Cmd.bind_ok read, Cmd.run_get_bind, tracks.self member]
      dsimp only
      rw [Cmd.bind_ok visited, Cmd.bind_ok read, Cmd.run_get_bind, next]
      exact inductionHypothesis (show rings.bucket (w, k) = (kept ++ [c]) ++ rest by simp [here])
        (by simpa using enough) (fun d inside => present d (by simp [inside]))
        fun d inside => later d (by simp [inside])

/-- A run that comes to no client that is due sets `last_t` only. -/
theorem kaRun_nobody (tracks : Tracks keepAlive owner (keeper.wheel state) rings)
    (enough : ∀ k, (rings.bucket (w, k)).length ≤ bound) (positive : t ≠ 0)
    (present : ∀ k, ∀ c ∈ rings.bucket (w, k), keeper.keepAlive state c = some (keepAlive c))
    (later : (keeper.wheel state).lastT ≠ t → ∀ i ∈ window (keeper.wheel state).lastT t,
      ∀ c ∈ rings.bucket (w, hashValue i), t < ((keeper.wheel state).timer c).expiresAt) :
    (kaRun keeper drop w t bound).run state = (.ok (),
      if (keeper.wheel state).lastT = t then state
      else keeper.put state { keeper.wheel state with lastT := t }) := by
  rw [kaRun, if_neg positive, Cmd.run_get_bind]
  dsimp only
  by_cases again : (keeper.wheel state).lastT = t
  · rw [if_pos again, if_pos again, Cmd.run_pure]
  have swept : ∀ times : List Nat, (∀ i ∈ times, i ∈ window (keeper.wheel state).lastT t) →
      (Cmd.each (kaBucket keeper drop w t bound) times).run state = (.ok (), state) := by
    intro times visited
    induction times with
    | nil => rfl
    | cons i times inductionHypothesis =>
        have walked : (kaBucket keeper drop w t bound i).run state = (.ok (), state) := by
          rw [kaBucket, Cmd.run_get_bind, (tracks.lists.lists (w, hashValue i)).head_eq]
          exact kaWalk_nobody tracks (List.nil_append _).symm (enough _) (present _)
            (later again i (visited i (by simp)))
        exact Cmd.each_cons_ok walked
          (inductionHypothesis fun j inside => visited j (by simp [inside]))
  rw [if_neg again, if_neg again, Cmd.bind_ok (swept _ fun _ inside => inside), Cmd.run_modify]

end NobodyDue

end FbBroker.KeepAlive
