import FbBroker.Broker.KeepAlive
import FbBroker.KeepAlive.Expiry

/-!
Contract: a keep-alive table with the callback that `ka_init` sets.

Owns sequences of `ka_update`, `ka_remove` and `ka_run` calls on the table of a
worker when expired clients are dropped by `default_drop_callback`. That callback
closes the client, which calls `ka_remove` a second time and frees the node the
walk stands on; and `ka_remove` leaves the `p` of a node set, which is what tells
`ka_update` and `ka_remove` that it is linked. The counter is right as long as
nobody is found due and nobody is used behind its removal.
-/

set_option autoImplicit false

namespace FbBroker.Broker

open FbBroker.Lib FbBroker.Packet FbBroker.Parser FbBroker.Dllist
open FbBroker.KeepAlive (Use Wheel Rings Tracks Entered hashValue hashTableSize kaInit)

/-! ### The calls -/

def defaultDropCallback (cfg : Config) (c : ClientId) : Code Unit :=
  cDisconnect cfg c (lit "keep-alive timeout")

/-- A call on the table of the worker, with a bound for the length of a bucket. -/
def kaCall (cfg : Config) (w bound : Nat) : Use ClientId → Code Unit
  | .update c now => do
      let p ← client c
      modify fun b => { b with ka := KeepAlive.kaUpdate b.ka p.worker c p.session.keepAlive now }
  | .remove c => kaRemove c
  | .run t => KeepAlive.kaRun keeper (defaultDropCallback cfg) w t bound

/-- The broker, the clients that were ever updated, those `ka_remove` took out, and
the fault that ended the run, if one did. -/
structure TimeoutRun where
  state : State
  known : List ClientId
  removed : List ClientId
  fault : Option Fault

/-- The clients are there and belong to the worker, and time is positive. -/
def Usable (w : Nat) (b : State) : Use ClientId → Prop
  | .update c _ | .remove c => ∃ p ∈ b.clients c, p.worker = w
  | .run t => 0 < t

instance (w : Nat) (b : State) : DecidablePred (Usable w b)
  | .update c _ | .remove c => inferInstanceAs (Decidable (∃ p ∈ b.clients c, p.worker = w))
  | .run _ => inferInstanceAs (Decidable (0 < _))

def TimeoutRun.knownAfter (run : TimeoutRun) : Use ClientId → List ClientId
  | .update c _ => run.known.insert c
  | _ => run.known

/-- A client that was never entered is not taken out. -/
def TimeoutRun.removedAfter (run : TimeoutRun) : Use ClientId → List ClientId
  | .remove c =>
      if (run.state.ka.node c).p.isSome then run.removed.insert c else run.removed
  | _ => run.removed

def timeoutStep (cfg : Config) (w : Nat) (run : TimeoutRun) (call : Use ClientId) :
    Option TimeoutRun :=
  if run.fault = none ∧ Usable w run.state call then
    let ran := (kaCall cfg w run.known.length call).run run.state
    some {
      state := ran.2
      known := run.knownAfter call
      removed := run.removedAfter call
      fault := match ran.1 with
        | .ok _ => none
        | .error fault => some fault }
  else none

/-- Any clients, with the table as `ka_init` leaves it. -/
def timeoutTable (cfg : Config) (w : Nat) : System TimeoutRun (Use ClientId) where
  init run := ∃ b : State, run = ⟨{ b with ka := kaInit .initial w }, [], [], none⟩
  step := timeoutStep cfg w

/-- No call has stopped, the counter is the number of the clients linked in the
buckets, and these are the clients that were entered and not removed. -/
structure TimeoutRun.Accurate (w : Nat) (run : TimeoutRun) : Prop where
  runs : run.fault = none
  counts : ∃ (linked : List ClientId) (ring : Nat → List ClientId),
    (∀ k, DList run.state.ka.node ((run.state.ka.table w).hashTable k) (ring k)) ∧
    linked.Nodup ∧ (∀ c, c ∈ linked ↔ ∃ k < hashTableSize, c ∈ ring k) ∧
    (run.state.ka.table w).cnt = linked.length ∧
    ∀ c, c ∈ linked ↔ (run.state.ka.node c).p.isSome ∧ c ∉ run.removed

/-- A removed client is not used again, and a run comes to no client that is
due. -/
def LeavesTable (run : TimeoutRun) : Use ClientId → Prop
  | .update c _ | .remove c => c ∉ run.removed
  | .run t => ∀ c ∈ run.known, c ∉ run.removed → (run.state.ka.node c).p.isSome →
      ¬ Finds run.state c t

instance (b : State) (c : ClientId) (t : Nat) : Decidable (Finds b c t) :=
  inferInstanceAs (Decidable (_ ∧ _ ∧ _))

instance (run : TimeoutRun) : DecidablePred (LeavesTable run)
  | .update c _ | .remove c => inferInstanceAs (Decidable (c ∉ run.removed))
  | .run _ => inferInstanceAs (Decidable (∀ _ ∈ _, _))

/-! ### The invariant -/

variable {cfg : Config} {w : Nat} {run : TimeoutRun} {rings : Rings ClientId} {c : ClientId}

/-- The `keep_alive` of a client that is there. -/
def State.keepAliveOf (b : State) (c : ClientId) : Nat :=
  (keeper.keepAlive b c).getD 0

private theorem keepAliveOf_eq {b : State} {p : Client} (present : b.clients c = some p) :
    b.keepAliveOf c = p.session.keepAlive := by
  simp [State.keepAliveOf, keeper, present]

/-- The buckets hold the clients that were entered and not removed. -/
structure TimeoutRun.Kept (w : Nat) (run : TimeoutRun) (rings : Rings ClientId) : Prop where
  runs : run.fault = none
  tracks : Tracks run.state.keepAliveOf (fun _ => w) run.state.ka rings
  entered : ∀ c ∉ run.removed, Entered run.state.ka rings c
  out : ∀ c ∈ run.removed, ∀ i, c ∉ rings.bucket i
  known : ∀ {i c}, c ∈ rings.bucket i → c ∈ run.known
  present : ∀ {i c}, c ∈ rings.bucket i → (run.state.clients c).isSome

namespace TimeoutRun.Kept

theorem initial (b : State) :
    TimeoutRun.Kept w ⟨{ b with ka := kaInit .initial w }, [], [], none⟩ .empty := by
  rw [KeepAlive.kaInit_initial]
  exact {
    runs := rfl
    tracks := .initial
    entered := fun c _ => by simp [Entered, Wheel.initial, Rings.empty]
    out := by simp
    known := by simp [Rings.empty]
    present := by simp [Rings.empty] }

private theorem accurate (kept : run.Kept w rings) : run.Accurate w := by
  have home : ∀ {i c}, c ∈ rings.bucket i → i.1 = w ∧ i.2 < hashTableSize := by
    intro i c member
    rw [kept.tracks.home member]
    exact ⟨rfl, Nat.mod_lt _ (by decide)⟩
  refine ⟨kept.runs, rings.members w, fun k => rings.bucket (w, k),
    fun k => kept.tracks.lists.lists (w, k), kept.tracks.distinct w, fun c => ?_, kept.tracks.cnt w,
    fun c => ?_⟩
  · rw [kept.tracks.members]
    constructor
    · rintro ⟨k, member⟩
      exact ⟨k, (home member).2, member⟩
    · rintro ⟨k, -, member⟩
      exact ⟨k, member⟩
  · rw [kept.tracks.members]
    constructor
    · rintro ⟨k, member⟩
      have staying : c ∉ run.removed := fun gone => kept.out c gone _ member
      exact ⟨(kept.entered c staying).mpr ⟨_, member⟩, staying⟩
    · rintro ⟨linked, staying⟩
      obtain ⟨⟨v, k⟩, member⟩ := (kept.entered c staying).mp linked
      obtain rfl : v = w := (home member).1
      exact ⟨k, member⟩

/-! ### One call -/

theorem update (kept : run.Kept w rings) {now : Nat} {p : Client}
    (present : run.state.clients c = some p) (staying : c ∉ run.removed) :
    ∃ rings', TimeoutRun.Kept w { run with
      state.ka := KeepAlive.kaUpdate run.state.ka w c p.session.keepAlive now
      known := run.known.insert c } rings' := by
  by_cases idle : p.session.keepAlive = 0 ∨ (run.state.ka.timer c).lastKaUpdateAt = now
  · rw [KeepAlive.kaUpdate_idle idle]
    exact ⟨rings, {
      runs := kept.runs
      tracks := kept.tracks
      entered := kept.entered
      out := kept.out
      known := fun member => List.mem_insert_of_mem (kept.known member)
      present := kept.present }⟩
  · obtain ⟨timed, later⟩ := not_or.mp idle
    rw [← keepAliveOf_eq present] at timed ⊢
    obtain ⟨wheel, updated, tracks, -, self, others, -⟩ :=
      kept.tracks.kaUpdate (kept.entered c staying) timed later
    rw [updated]
    refine ⟨_, {
      runs := kept.runs
      tracks := tracks
      entered := fun d stays => .moved kept.tracks.toLinked self (others d) (kept.entered d stays)
      out := fun d gone i member => ?_
      known := fun {i d} member => ?_
      present := fun {i d} member => ?_ }⟩
    · rcases Rings.mem_insert.mp member with ⟨-, rfl⟩ | old
      · exact staying gone
      · exact kept.out d gone i (kept.tracks.toLinked.mem_without.mp old).2
    · rcases Rings.mem_insert.mp member with ⟨-, rfl⟩ | old
      · exact List.mem_insert_self
      · exact List.mem_insert_of_mem (kept.known (kept.tracks.toLinked.mem_without.mp old).2)
    · rcases Rings.mem_insert.mp member with ⟨-, rfl⟩ | old
      · exact Option.isSome_of_mem present
      · exact kept.present (kept.tracks.toLinked.mem_without.mp old).2

/-- A client that was entered is taken out, one that was not stays as it is. -/
theorem remove (kept : run.Kept w rings) {p : Client}
    (present : run.state.clients c = some p) (staying : c ∉ run.removed) :
    ∃ wheel rings', KeepAlive.kaRemove run.state.ka w c p.session.keepAlive = .ok wheel ∧
      TimeoutRun.Kept w { run with
        state.ka := wheel
        removed := run.removedAfter (.remove c) } rings' := by
  rw [← keepAliveOf_eq present]
  by_cases linked : (run.state.ka.node c).p.isSome = true
  · obtain ⟨⟨v, k⟩, member⟩ := (kept.entered c staying).mp linked
    obtain rfl : v = w := (Prod.mk.inj (kept.tracks.home member)).1
    obtain ⟨wheel, removed, tracks, -, p, -, -⟩ := kept.tracks.kaRemove member
    have inside : ∀ {i d}, d ∈ (rings.without c).bucket i ↔ d ≠ c ∧ d ∈ rings.bucket i :=
      kept.tracks.toLinked.mem_without
    have goneNow : ∀ d, d ∈ run.removedAfter (.remove c) ↔ d = c ∨ d ∈ run.removed := by
      simp [removedAfter, linked]
    refine ⟨wheel, rings.without c, removed, {
      runs := kept.runs
      tracks := tracks
      entered := fun d stays => ?_
      out := fun d gone i member => ?_
      known := fun member => kept.known (inside.mp member).2
      present := fun member => kept.present (inside.mp member).2 }⟩
    · obtain ⟨different, stayed⟩ := not_or.mp ((goneNow d).not.mp stays)
      have before := kept.entered d stayed
      unfold Entered at before ⊢
      rw [p d, before]
      simp only [inside, ne_eq, different, not_false_eq_true, true_and]
    · obtain ⟨different, before⟩ := inside.mp member
      exact kept.out d (((goneNow d).mp gone).resolve_left different) i before
  · refine ⟨run.state.ka, rings, ?_, ?_⟩
    · rw [KeepAlive.kaRemove, if_neg fun both => linked both.2]
    · rw [removedAfter, if_neg linked]
      exact kept

/-- A run that comes to nobody who is due only sets the time. -/
theorem sweep (kept : run.Kept w rings) {t : Nat} (positive : 0 < t)
    (nobody : LeavesTable run (.run t)) :
    ∃ wheel, (KeepAlive.kaRun keeper (defaultDropCallback cfg) w t run.known.length).run
        run.state = (.ok (), { run.state with ka := wheel }) ∧
      TimeoutRun.Kept w { run with state.ka := wheel } rings := by
  have size : ∀ k, (rings.bucket (w, k)).length ≤ run.known.length := fun k =>
    (List.subperm_of_subset (kept.tracks.nodup (w, k)) fun _ member => kept.known member).length_le
  have there : ∀ k, ∀ c ∈ rings.bucket (w, k),
      keeper.keepAlive run.state c = some (run.state.keepAliveOf c) := by
    intro k c member
    obtain ⟨p, present⟩ := Option.isSome_iff_exists.mp (kept.present member)
    rw [keepAliveOf_eq present]
    simp [keeper, present]
  have later : run.state.ka.lastT ≠ t → ∀ i ∈ KeepAlive.window run.state.ka.lastT t,
      ∀ c ∈ rings.bucket (w, hashValue i), t < (run.state.ka.timer c).expiresAt := by
    intro new i visited c member
    have staying : c ∉ run.removed := fun gone => kept.out c gone _ member
    have linked := (kept.entered c staying).mpr ⟨_, member⟩
    apply Nat.lt_of_not_le
    intro due
    exact nobody c (kept.known member) staying linked
      ⟨new, due, i, visited, (Prod.mk.inj (kept.tracks.home member)).2⟩
  have ran : (KeepAlive.kaRun keeper (defaultDropCallback cfg) w t run.known.length).run
      run.state = _ :=
    KeepAlive.kaRun_nobody kept.tracks size (Nat.ne_of_gt positive) there later
  by_cases again : (keeper.wheel run.state).lastT = t
  · exact ⟨run.state.ka, ran.trans (by rw [if_pos again]), kept⟩
  · refine ⟨{ run.state.ka with lastT := t }, ran.trans (by rw [if_neg again]; rfl),
      ⟨kept.runs, ?_, kept.entered, kept.out, kept.known, kept.present⟩⟩
    exact ⟨kept.tracks.toLinked.congr rfl rfl fun _ => rfl, kept.tracks.cnt⟩

theorem step (kept : run.Kept w rings) {call : Use ClientId} {next : TimeoutRun}
    (leaves : LeavesTable run call) (stepped : timeoutStep cfg w run call = some next) :
    ∃ rings', next.Kept w rings' := by
  rw [timeoutStep, Option.ite_none_right_eq_some] at stepped
  obtain ⟨⟨-, usable⟩, same⟩ := stepped
  obtain rfl := Option.some.inj same
  cases call with
  | update c now =>
      obtain ⟨p, present, rfl⟩ := usable
      rw [kaCall, Cmd.bind_ok (client_run present), Cmd.run_modify]
      exact kept.runs ▸ kept.update present leaves
  | remove c =>
      obtain ⟨p, present, rfl⟩ := usable
      obtain ⟨wheel, rings', removed, after⟩ := kept.remove present leaves
      rw [kaCall, kaRemove_ok present removed]
      exact ⟨rings', kept.runs ▸ after⟩
  | run t =>
      obtain ⟨wheel, ran, after⟩ := kept.sweep usable leaves
      rw [kaCall, ran]
      exact ⟨rings, kept.runs ▸ after⟩

end TimeoutRun.Kept

/-! ### Whole runs -/

/-- As long as nobody is found due and no removed client is used again, the counter
is the number of the linked clients and no call stops. -/
theorem counter_accurate
    (reached : ((timeoutTable cfg w).restrict LeavesTable).Reachable run) :
    run.Accurate w := by
  have initially : ∀ run, ((timeoutTable cfg w).restrict LeavesTable).init run →
      ∃ rings, run.Kept w rings := by
    intro run initial
    obtain ⟨b, rfl⟩ := initial
    exact ⟨.empty, .initial b⟩
  have invariant : ∃ rings, run.Kept w rings := by
    apply reached.invariant initially
    intro run call next _ kept stepped
    obtain ⟨rings, kept⟩ := kept
    obtain ⟨leaves, steps⟩ := System.restrict_step.mp stepped
    exact kept.step leaves steps
  obtain ⟨rings, kept⟩ := invariant
  exact kept.accurate

/-- A connected client with a keep-alive of two seconds. -/
def twoSeconds : Client :=
  { cNew 0 false false [] with state := .connected, session.keepAlive := 2 }

/-- Two such clients, and the table of their worker. -/
def twoSilent : TimeoutRun :=
  ⟨{ (start.state.putClient 0 twoSeconds).putClient 1 twoSeconds with
    ka := kaInit .initial 0 }, [], [], none⟩

/-- The second is monitored, the first no longer. -/
def oneLeft : Option TimeoutRun :=
  ((timeoutTable ⟨1, 1, true, []⟩ 0).restrict LeavesTable).run twoSilent
    [.update 0 10, .update 1 11, .remove 0, .run 12]

theorem counter_accurate_one_left :
    ∃ run, oneLeft = some run ∧ run.removed = [0] ∧ run.Accurate 0 := by
  have removed : oneLeft.map TimeoutRun.removed = some [0] := by decide +kernel
  obtain ⟨run, ran, gone⟩ := Option.map_eq_some_iff.mp removed
  have start : ((timeoutTable ⟨1, 1, true, []⟩ 0).restrict LeavesTable).Reachable twoSilent :=
    .start ⟨_, rfl⟩
  exact ⟨run, ran, gone, counter_accurate (start.run ran)⟩

/-- A counter of zero with a client at the head of a bucket. -/
theorem not_accurate {k : Nat} (within : k < hashTableSize)
    (zero : (run.state.ka.table w).cnt = 0)
    (head : (run.state.ka.table w).hashTable k = some c) : ¬ run.Accurate w := by
  intro accurate
  obtain ⟨linked, ring, lists, -, inside, cnt, -⟩ := accurate.counts
  have first : some c = (ring k).head? := head.symm.trans (lists k).chain.head_eq
  have member : c ∈ linked := (inside c).mpr ⟨k, within, List.mem_of_head? first.symm⟩
  have positive := List.length_pos_of_mem member
  omega

/-- The callback's second `ka_remove` makes the counter negative, and a client that
is monitored again behind its removal is not counted. -/
theorem counter_not_accurate :
    (∃ run, (timeoutTable ⟨1, 1, true, []⟩ 0).run twoSilent [.update 0 10, .run 13] =
        some run ∧ run.fault = some .assertion ∧ ¬ run.Accurate 0) ∧
      ∃ run, (timeoutTable ⟨1, 1, true, []⟩ 0).run twoSilent
          [.update 0 10, .remove 0, .update 0 20] = some run ∧
        run.fault = none ∧ (run.state.ka.table 0).cnt = 0 ∧
          (run.state.ka.table 0).hashTable 23 = some 0 ∧ ¬ run.Accurate 0 := by
  constructor
  · have stops : (((timeoutTable ⟨1, 1, true, []⟩ 0).run twoSilent [.update 0 10, .run 13]).map
        TimeoutRun.fault) = some (some .assertion) := by
      decide +kernel
    obtain ⟨run, ran, fault⟩ := Option.map_eq_some_iff.mp stops
    refine ⟨run, ran, fault, fun accurate => ?_⟩
    simp [accurate.runs] at fault
  · have counts : (((timeoutTable ⟨1, 1, true, []⟩ 0).run twoSilent
        [.update 0 10, .remove 0, .update 0 20]).map fun run =>
          (run.fault, (run.state.ka.table 0).cnt, (run.state.ka.table 0).hashTable 23)) =
        some (none, 0, some 0) := by
      decide +kernel
    obtain ⟨run, ran, parts⟩ := Option.map_eq_some_iff.mp counts
    simp only [Prod.mk.injEq] at parts
    obtain ⟨runs, cnt, head⟩ := parts
    exact ⟨run, ran, runs, cnt, head, not_accurate (by decide) cnt head⟩

end FbBroker.Broker
