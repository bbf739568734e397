import Mathlib.Data.List.Basic
import FbBroker.Data.Queue
import FbBroker.Lib.System

/-!
Contract: the worker threads of `worker.c` and the messages they share.

Owns the interleaving model of `workers_queue_message`, `w_deliver` and `w_gc`.
A step of a thread is one access to shared memory: setting or clearing one
`not_done` flag, one locked push or pop, or reading one flag in `message_done`.

A message is named by an identifier that is never given to a second message
while the first is linked; its memory holds arbitrary values when it is
allocated. `mp->client->worker` is the worker the message was allocated with,
or none for the pseudo client of `$SYS` messages. Assertions are recorded in
the history, they do not stop the run.

Does not own what `sub_search` does between the pop of a message and its end,
apart from nested calls of `workers_queue_message`.
-/

set_option autoImplicit false

namespace FbBroker.Worker

open FbBroker.Lib FbBroker.Queue

abbrev Msg := Nat

/-- `message_state_et`; `unknown` is memory that was never allocated. -/
inductive MState where
  | unknown
  | inUse
  | free
deriving DecidableEq, Repr

/-- Where a thread stands outside `workers_queue_message`. -/
inductive Phase where
  /-- between two statements of `w_run` -/
  | idle
  /-- in `w_deliver`, inside `sub_search` on a popped message -/
  | searching (mp : Msg)
  /-- in `w_deliver`, after `mp->not_done[p->index] = 0` -/
  | cleared (mp : Msg)
  /-- in `message_done`, before reading `not_done[i]` -/
  | scanning (mp : Msg) (i : Nat) (notDone : Bool)
deriving DecidableEq, Repr

/-- A call of `workers_queue_message` in progress: the message, the loop index
and whether `w_message_push` has set the flag already. -/
structure Pushing where
  mp : Msg
  i : Nat
  marked : Bool
deriving DecidableEq, Repr

structure Thread where
  pushing : Option Pushing
  phase : Phase
deriving DecidableEq, Repr

/-- What an observer of the threads records. -/
inductive Event where
  /-- a thread enters `workers_queue_message` -/
  | queued (t : Nat) (mp : Msg)
  /-- a thread pushed a message to a worker -/
  | pushed (t i : Nat) (mp : Msg)
  /-- a worker popped a message, which was in this state -/
  | popped (i : Nat) (mp : Msg) (state : MState)
  /-- a worker finished `sub_search` on a message -/
  | finished (i : Nat) (mp : Msg)
  /-- a worker put a message on its `gc_q` -/
  | collected (i : Nat) (mp : Msg)
  /-- a worker freed a message, which was in this state -/
  | freed (i : Nat) (mp : Msg) (state : MState)
  /-- a null pointer was followed in a `msg_q` -/
  | fault (t : Nat)
  /-- a null pointer was followed in a `gc_q` -/
  | gcFault (t : Nat)
deriving DecidableEq, Repr

/-! ### Reading a history -/

/-- The messages thread `t` called `workers_queue_message` with, in order. -/
def callsOf (t : Nat) (log : List Event) : List Msg :=
  log.filterMap fun
    | .queued t' mp => if t' = t then some mp else none
    | _ => none

/-- The messages pushed to worker `i`, in order. -/
def pushedTo (i : Nat) (log : List Event) : List Msg :=
  log.filterMap fun
    | .pushed _ i' mp => if i' = i then some mp else none
    | _ => none

/-- The messages worker `i` popped, in order. -/
def poppedBy (i : Nat) (log : List Event) : List Msg :=
  log.filterMap fun
    | .popped i' mp _ => if i' = i then some mp else none
    | _ => none

/-- The messages worker `i` finished its search on, in order. -/
def finishedBy (i : Nat) (log : List Event) : List Msg :=
  log.filterMap fun
    | .finished i' mp => if i' = i then some mp else none
    | _ => none

/-- The messages worker `i` put on its `gc_q`, in order. -/
def collectedBy (i : Nat) (log : List Event) : List Msg :=
  log.filterMap fun
    | .collected i' mp => if i' = i then some mp else none
    | _ => none

/-- The messages worker `i` freed, in order. -/
def freedBy (i : Nat) (log : List Event) : List Msg :=
  log.filterMap fun
    | .freed i' mp _ => if i' = i then some mp else none
    | _ => none

section History

variable (log : List Event) (j t i : Nat) (mp : Msg) (state : MState)

@[simp] theorem callsOf_queued :
    callsOf j (log ++ [.queued t mp]) = if t = j then callsOf j log ++ [mp] else callsOf j log := by
  by_cases same : t = j <;> simp [callsOf, same]

@[simp] theorem callsOf_pushed : callsOf j (log ++ [.pushed t i mp]) = callsOf j log := by
  simp [callsOf]

@[simp] theorem callsOf_popped : callsOf j (log ++ [.popped i mp state]) = callsOf j log := by
  simp [callsOf]

@[simp] theorem pushedTo_queued : pushedTo j (log ++ [.queued t mp]) = pushedTo j log := by
  simp [pushedTo]

@[simp] theorem pushedTo_pushed :
    pushedTo j (log ++ [.pushed t i mp]) =
      if i = j then pushedTo j log ++ [mp] else pushedTo j log := by
  by_cases same : i = j <;> simp [pushedTo, same]

@[simp] theorem pushedTo_popped : pushedTo j (log ++ [.popped i mp state]) = pushedTo j log := by
  simp [pushedTo]

@[simp] theorem poppedBy_queued : poppedBy j (log ++ [.queued t mp]) = poppedBy j log := by
  simp [poppedBy]

@[simp] theorem poppedBy_pushed : poppedBy j (log ++ [.pushed t i mp]) = poppedBy j log := by
  simp [poppedBy]

@[simp] theorem poppedBy_popped :
    poppedBy j (log ++ [.popped i mp state]) =
      if i = j then poppedBy j log ++ [mp] else poppedBy j log := by
  by_cases same : i = j <;> simp [poppedBy, same]

@[simp] theorem pushedTo_collected : pushedTo j (log ++ [.collected t mp]) = pushedTo j log := by
  simp [pushedTo]

@[simp] theorem poppedBy_collected : poppedBy j (log ++ [.collected t mp]) = poppedBy j log := by
  simp [poppedBy]

@[simp] theorem poppedBy_freed : poppedBy j (log ++ [.freed t mp state]) = poppedBy j log := by
  simp [poppedBy]

@[simp] theorem collectedBy_collected :
    collectedBy j (log ++ [.collected t mp]) =
      if t = j then collectedBy j log ++ [mp] else collectedBy j log := by
  by_cases same : t = j <;> simp [collectedBy, same]

@[simp] theorem collectedBy_freed : collectedBy j (log ++ [.freed t mp state]) = collectedBy j log := by
  simp [collectedBy]

@[simp] theorem freedBy_collected : freedBy j (log ++ [.collected t mp]) = freedBy j log := by
  simp [freedBy]

@[simp] theorem freedBy_freed :
    freedBy j (log ++ [.freed t mp state]) =
      if t = j then freedBy j log ++ [mp] else freedBy j log := by
  by_cases same : t = j <;> simp [freedBy, same]

theorem mem_collectedBy_collected {other : Msg} :
    other ∈ collectedBy j (log ++ [.collected t mp]) ↔ other ∈ collectedBy j log ∨ j = t ∧ other = mp := by
  rw [collectedBy_collected]
  by_cases same : t = j
  · simp [same]
  · simp [same, Ne.symm same]

/-- What was popped stays on record. -/
theorem mem_poppedBy_append {other : Msg} (member : other ∈ poppedBy j log) (entries : List Event) :
    other ∈ poppedBy j (log ++ entries) := by
  rw [poppedBy, List.filterMap_append]
  exact List.mem_append_left _ member

end History

structure State where
  /-- `mp->nodes[i]` -/
  nodes : Items (Msg × Nat) Msg
  /-- `mp->gc_node` -/
  gcNode : Items Msg Msg
  /-- `mp->not_done[i] != 0` -/
  notDone : Msg → Nat → Bool
  mstate : Msg → MState
  /-- the index of `mp->client->worker` -/
  owner : Msg → Option Nat
  msgQ : Nat → QueueSt (Msg × Nat)
  gcQ : Nat → QueueSt Msg
  thread : Nat → Thread
  /-- history -/
  log : List Event

/-- One access of a thread to shared memory. -/
inductive Op where
  | call (mp : Msg) (owned : Bool)
  | mark
  | push
  | ret
  | pop
  | clear
  | collect
  | peek
  | scan
  | reclaim
deriving DecidableEq, Repr

structure Act where
  t : Nat
  op : Op
deriving DecidableEq, Repr

namespace State

variable (s : State) (t : Nat)

def setPushing (pushing : Option Pushing) : State :=
  { s with thread := Function.update s.thread t { s.thread t with pushing } }

def setPhase (phase : Phase) : State :=
  { s with thread := Function.update s.thread t { s.thread t with phase } }

def record (event : Event) : State :=
  { s with log := s.log ++ [event] }

theorem setPushing_pushing (pushing : Option Pushing) (j : Nat) :
    ((s.setPushing t pushing).thread j).pushing = if j = t then pushing else (s.thread j).pushing := by
  by_cases same : j = t
  · subst j
    simp [setPushing]
  · simp [setPushing, same]

@[simp] theorem setPushing_phase (pushing : Option Pushing) (j : Nat) :
    ((s.setPushing t pushing).thread j).phase = (s.thread j).phase := by
  by_cases same : j = t
  · subst j
    simp [setPushing]
  · simp [setPushing, same]

@[simp] theorem setPhase_pushing (phase : Phase) (j : Nat) :
    ((s.setPhase t phase).thread j).pushing = (s.thread j).pushing := by
  by_cases same : j = t
  · subst j
    simp [setPhase]
  · simp [setPhase, same]

theorem setPhase_phase (phase : Phase) (j : Nat) :
    ((s.setPhase t phase).thread j).phase = if j = t then phase else (s.thread j).phase := by
  by_cases same : j = t
  · subst j
    simp [setPhase]
  · simp [setPhase, same]

/-- A phase other than the one just entered is that of another thread. -/
theorem phase_of_setPhase {s : State} {t j : Nat} {entered phase : Phase}
    (here : ((s.setPhase t entered).thread j).phase = phase) (different : entered ≠ phase) :
    j ≠ t ∧ (s.thread j).phase = phase := by
  rw [setPhase_phase] at here
  split at here
  · exact absurd here different
  · rename_i other
    exact ⟨other, here⟩

end State

/-! ### `workers_queue_message` -/

/-- Entry with a newly allocated message. -/
def enter (s : State) (t : Nat) (mp : Msg) (owned : Bool) : State :=
  State.record
    { s with
      mstate := Function.update s.mstate mp .inUse
      owner := Function.update s.owner mp (if owned then some t else none)
      thread := Function.update s.thread t { s.thread t with pushing := some ⟨mp, 0, false⟩ } }
    (.queued t mp)

/-- `w_message_push` up to the lock. -/
def markNotDone (s : State) (t : Nat) (mp : Msg) (i : Nat) : State :=
  State.setPushing
    { s with
      notDone := Function.update s.notDone mp (Function.update (s.notDone mp) i true)
      nodes := s.nodes.setP (mp, i) (some mp) }
    t (some ⟨mp, i, true⟩)

/-- The locked part of `w_message_push`. -/
def wMessagePush (s : State) (t : Nat) (mp : Msg) (i : Nat) : State :=
  match queuePush s.nodes (s.msgQ i) (mp, i) with
  | none => s.record (.fault t)
  | some (nodes, q) =>
      State.record
        (State.setPushing { s with nodes, msgQ := Function.update s.msgQ i q } t
          (some ⟨mp, i + 1, false⟩))
        (.pushed t i mp)

/-! ### `w_deliver` -/

/-- `w_message_pop`; on an empty queue the loop of `w_deliver` ends. -/
def wMessagePop (s : State) (t : Nat) : State :=
  match queuePop s.nodes (s.msgQ t) with
  | (none, _) => s
  | (some item, q) =>
      match (s.nodes item).p with
      | none => s.record (.fault t)
      | some rv =>
          State.record
            (State.setPhase { s with msgQ := Function.update s.msgQ t q } t (.searching rv))
            (.popped t rv (s.mstate rv))

/-- The end of `sub_search` and `mp->not_done[p->index] = 0`. -/
def clearNotDone (s : State) (t : Nat) (mp : Msg) : State :=
  State.record
    (State.setPhase
      { s with notDone := Function.update s.notDone mp (Function.update (s.notDone mp) t false) }
      t (.cleared mp))
    (.finished t mp)

/-- The owner of the message keeps it for collection. -/
def collectOwned (s : State) (t : Nat) (mp : Msg) : State :=
  if s.owner mp = some t then
    match queuePush (s.gcNode.setP mp (some mp)) (s.gcQ t) mp with
    | none => s.record (.gcFault t)
    | some (gcNode, q) =>
        State.record (State.setPhase { s with gcNode, gcQ := Function.update s.gcQ t q } t .idle)
          (.collected t mp)
  else s.setPhase t .idle

/-! ### `w_gc` -/

/-- `queue_peek` of the loop condition; on an empty queue the loop ends. -/
def gcPeek (s : State) (t : Nat) : State :=
  match queuePeek (s.gcQ t) with
  | none => s
  | some item =>
      match (s.gcNode item).p with
      | none => s.record (.gcFault t)
      | some mp => s.setPhase t (.scanning mp 0 false)

/-- The end of `message_done`, and the loop body where it returns true. -/
def gcReclaim (s : State) (t : Nat) (mp : Msg) (notDone : Bool) : State :=
  if notDone then s.setPhase t .idle
  else
    State.record
      (State.setPhase
        { s with
          gcQ := Function.update s.gcQ t (queuePop s.gcNode (s.gcQ t)).2
          mstate := Function.update s.mstate mp .free }
        t .idle)
      (.freed t mp (s.mstate mp))

/-- One step of a worker thread, for `numWorkers` workers and `numServers`
configured servers. A nested call of `workers_queue_message` happens inside
`sub_search`, where a failed delivery closes its client. -/
def step (numWorkers numServers : Nat) (s : State) (act : Act) : Option State :=
  if act.t < numWorkers then
    match act.op, (s.thread act.t).pushing, (s.thread act.t).phase with
    | .call mp owned, none, .idle
    | .call mp owned, none, .searching _ =>
        if s.mstate mp = .unknown then some (enter s act.t mp owned) else none
    | .mark, some ⟨mp, i, false⟩, _ =>
        if i < numWorkers then some (markNotDone s act.t mp i) else none
    | .push, some ⟨mp, i, true⟩, _ => some (wMessagePush s act.t mp i)
    | .ret, some ⟨_, i, false⟩, _ =>
        if i < numWorkers then none else some (s.setPushing act.t none)
    | .pop, none, .idle => some (wMessagePop s act.t)
    | .clear, none, .searching mp => some (clearNotDone s act.t mp)
    | .collect, none, .cleared mp => some (collectOwned s act.t mp)
    | .peek, none, .idle => some (gcPeek s act.t)
    | .scan, none, .scanning mp i notDone =>
        if i < numServers then
          some (s.setPhase act.t (.scanning mp (i + 1) (notDone || s.notDone mp i)))
        else none
    | .reclaim, none, .scanning mp i notDone =>
        if i < numServers then none else some (gcReclaim s act.t mp notDone)
    | _, _, _ => none
  else none

/-- What a step can do, with the conditions under which it does it. -/
inductive Step (numWorkers numServers : Nat) (s : State) (t : Nat) : Op → State → Prop
  | call {mp : Msg} {owned : Bool} (outside : (s.thread t).pushing = none)
      (here : (s.thread t).phase = .idle ∨ ∃ other, (s.thread t).phase = .searching other)
      (fresh : s.mstate mp = .unknown) : Step numWorkers numServers s t (.call mp owned)
        (enter s t mp owned)
  | mark {mp : Msg} {i : Nat} (inside : (s.thread t).pushing = some ⟨mp, i, false⟩)
      (more : i < numWorkers) : Step numWorkers numServers s t .mark (markNotDone s t mp i)
  | push {mp : Msg} {i : Nat} (inside : (s.thread t).pushing = some ⟨mp, i, true⟩) :
      Step numWorkers numServers s t .push (wMessagePush s t mp i)
  | ret {mp : Msg} {i : Nat} (inside : (s.thread t).pushing = some ⟨mp, i, false⟩)
      (all : numWorkers ≤ i) : Step numWorkers numServers s t .ret (s.setPushing t none)
  | pop (outside : (s.thread t).pushing = none) (here : (s.thread t).phase = .idle) :
      Step numWorkers numServers s t .pop (wMessagePop s t)
  | clear {mp : Msg} (outside : (s.thread t).pushing = none)
      (here : (s.thread t).phase = .searching mp) :
      Step numWorkers numServers s t .clear (clearNotDone s t mp)
  | collect {mp : Msg} (outside : (s.thread t).pushing = none)
      (here : (s.thread t).phase = .cleared mp) :
      Step numWorkers numServers s t .collect (collectOwned s t mp)
  | peek (outside : (s.thread t).pushing = none) (here : (s.thread t).phase = .idle) :
      Step numWorkers numServers s t .peek (gcPeek s t)
  | scan {mp : Msg} {i : Nat} {notDone : Bool} (outside : (s.thread t).pushing = none)
      (here : (s.thread t).phase = .scanning mp i notDone) (more : i < numServers) :
      Step numWorkers numServers s t .scan
        (s.setPhase t (.scanning mp (i + 1) (notDone || s.notDone mp i)))
  | reclaim {mp : Msg} {i : Nat} {notDone : Bool} (outside : (s.thread t).pushing = none)
      (here : (s.thread t).phase = .scanning mp i notDone) (all : numServers ≤ i) :
      Step numWorkers numServers s t .reclaim (gcReclaim s t mp notDone)

theorem step_inv {numWorkers numServers : Nat} {s next : State} {act : Act}
    (stepped : step numWorkers numServers s act = some next) :
    act.t < numWorkers ∧ Step numWorkers numServers s act.t act.op next := by
  obtain ⟨t, op⟩ := act
  unfold step at stepped
  split at stepped
  · rename_i active
    refine ⟨active, ?_⟩
    split at stepped <;> simp_all only [Option.ite_none_right_eq_some, Option.some.injEq,
      Option.ite_none_left_eq_some, reduceCtorEq, Nat.not_lt]
    · exact stepped.2 ▸ .call ‹_› (.inl ‹_›) stepped.1
    · exact stepped.2 ▸ .call ‹_› (.inr ⟨_, ‹_›⟩) stepped.1
    · exact stepped.2 ▸ .mark ‹_› stepped.1
    · exact stepped ▸ .push ‹_›
    · exact stepped.2 ▸ .ret ‹_› stepped.1
    · exact stepped ▸ .pop ‹_› ‹_›
    · exact stepped ▸ .clear ‹_› ‹_›
    · exact stepped ▸ .collect ‹_› ‹_›
    · exact stepped ▸ .peek ‹_› ‹_›
    · exact stepped.2 ▸ .scan ‹_› ‹_› stepped.1
    · exact stepped.2 ▸ .reclaim ‹_› ‹_› stepped.1
  · cases stepped

/-- The workers right after `workers_init`; the memory of later messages is
arbitrary. -/
structure Initial (s : State) : Prop where
  mstate : ∀ mp, s.mstate mp = .unknown
  msgQ : ∀ i, s.msgQ i = queueInit
  gcQ : ∀ i, s.gcQ i = queueInit
  thread : ∀ t, s.thread t = ⟨none, .idle⟩
  log : s.log = []

/-- An initial state, with cleared memory. -/
def start : State where
  nodes := fun _ => ⟨none, none⟩
  gcNode := fun _ => ⟨none, none⟩
  notDone := fun _ _ => false
  mstate := fun _ => .unknown
  owner := fun _ => none
  msgQ := fun _ => queueInit
  gcQ := fun _ => queueInit
  thread := fun _ => ⟨none, .idle⟩
  log := []

theorem start_initial : Initial start :=
  ⟨fun _ => rfl, fun _ => rfl, fun _ => rfl, fun _ => rfl, rfl⟩

/-- The system of `numWorkers` worker threads. -/
def workers (numWorkers numServers : Nat) : System State Act where
  init := Initial
  step := step numWorkers numServers

end FbBroker.Worker
