import Mathlib.Data.List.Perm.Subperm
import FbBroker.KeepAlive.Wheel
import FbBroker.Lib.System

/-!
Contract: one keep-alive table over its whole life.

Owns sequences of `ka_update`, `ka_remove` and `ka_run` calls on a table behind
`ka_init`, with a callback that only records what is dropped, and the balance of
the clients that were added, removed, dropped and are still monitored.

The invariant that makes `ka_run` exact relates every `expires_at` to `last_t`: no
monitored client expires at or before the last second that was scanned.
-/

set_option autoImplicit false

namespace FbBroker.KeepAlive

open FbBroker.Lib FbBroker.Dllist

variable {Ref : Type} [DecidableEq Ref]

/-! ### A table in use -/

/-- The tables with the clients dropped so far, the clients that were ever
updated and those that were removed by a call of `ka_remove`. -/
structure Watch (Ref : Type) where
  observed : Observed Ref
  known : List Ref
  removed : List Ref

inductive Use (Ref : Type) where
  | update (c : Ref) (now : Nat)
  | remove (c : Ref)
  | run (t : Nat)
deriving DecidableEq

namespace Watch

variable (watch : Watch Ref)

def wheel : Wheel Ref :=
  watch.observed.wheel

/-- The clients that are not to be used any more. -/
def gone : List Ref :=
  watch.observed.dropped.map Prod.snd ++ watch.removed

/-- The clients the table is there for. -/
def monitored : List Ref :=
  watch.known.filter fun c => decide (c ∉ watch.gone)

private theorem mem_monitored {c : Ref} : c ∈ watch.monitored ↔ c ∈ watch.known ∧ c ∉ watch.gone := by
  simp [monitored]

end Watch

section Uses

variable (keepAlive : Ref → Nat) (w : Nat)

/-- A call on the table. A bucket holds at most the clients that were updated. -/
def use (watch : Watch Ref) : Use Ref → Except Fault (Watch Ref)
  | .update c now => .ok { watch with
      observed.wheel := kaUpdate watch.wheel w c (keepAlive c) now
      known := watch.known.insert c }
  | .remove c => do
      let wheel ← kaRemove watch.wheel w c (keepAlive c)
      return { watch with observed.wheel := wheel, removed := watch.removed ++ [c] }
  | .run t =>
      match (kaRun (observer keepAlive) (recordDrop w) w t watch.known.length).run
        watch.observed with
      | (.ok (), observed) => .ok { watch with observed }
      | (.error fault, _) => .error fault

/-- The calls a table is meant for. Before the first `ka_run` there is no last
second to scan from: that run comes before any client is overdue. -/
def Proper (watch : Watch Ref) : Use Ref → Prop
  | .update c now => keepAlive c ≠ 0 ∧ 0 < now ∧ watch.wheel.lastT ≤ now ∧ c ∉ watch.gone
  | .remove c => c ∈ watch.monitored
  | .run t => 0 < t ∧ watch.wheel.lastT ≤ t ∧
      (watch.wheel.lastT = 0 → ∀ c ∈ watch.monitored, t ≤ (watch.wheel.timer c).expiresAt)

instance (watch : Watch Ref) : DecidablePred (Proper keepAlive watch)
  | .update _ _ => inferInstanceAs (Decidable (_ ∧ _))
  | .remove _ => inferInstanceAs (Decidable (_ ∈ _))
  | .run _ => inferInstanceAs (Decidable (_ ∧ _))

/-- The table behind `ka_init`, in any order of calls. -/
def tableLife : System (Watch Ref) (Use Ref) where
  init watch := watch = ⟨⟨kaInit .initial w, []⟩, [], []⟩
  step watch call := (use keepAlive w watch call).toOption

end Uses

/-- Each monitored client sits in the bucket of its `expires_at`, and the counters
balance. -/
structure Watch.Accounted (w : Nat) (watch : Watch Ref) : Prop where
  sits : ∀ c ∈ watch.monitored, ∃ ring, c ∈ ring ∧ DList watch.wheel.node
    ((watch.wheel.table w).hashTable ((watch.wheel.timer c).expiresAt % 101)) ring
  cnt : (watch.wheel.table w).cnt = watch.monitored.length
  balance : (watch.wheel.table w).cnt + (watch.wheel.table w).kickCnt + watch.removed.length =
    watch.known.length

/-- A run at `t` drops the monitored clients with `expires_at <= t`, once each, and
no other; those still monitored expire later. -/
structure Watch.Expires (w t : Nat) (watch next : Watch Ref) : Prop where
  drops : ∃ drops : List Ref, next.observed.dropped = watch.observed.dropped ++ drops.map (w, ·) ∧
    drops.Nodup ∧ ∀ c, c ∈ drops ↔ c ∈ watch.monitored ∧ (watch.wheel.timer c).expiresAt ≤ t
  later : ∀ c ∈ next.monitored, t < (next.wheel.timer c).expiresAt

/-! ### The invariant -/

variable {keepAlive : Ref → Nat} {w : Nat} {watch next : Watch Ref} {rings : Rings Ref}

/-- The buckets hold the monitored clients, all of them ahead of `last_t`. -/
structure Watch.Exact (keepAlive : Ref → Nat) (w : Nat) (watch : Watch Ref) (rings : Rings Ref) :
    Prop where
  tracks : Tracks keepAlive (fun _ => w) watch.wheel rings
  members : ∀ c, c ∈ rings.members w ↔ c ∈ watch.monitored
  fresh : ∀ c, c ∉ watch.known →
    (watch.wheel.node c).p = none ∧ (watch.wheel.timer c).lastKaUpdateAt = 0
  ahead : ∀ c ∈ watch.monitored, watch.wheel.lastT < (watch.wheel.timer c).expiresAt
  kicks : (watch.wheel.table w).kickCnt = watch.observed.dropped.length
  known : watch.known.Nodup
  gone : watch.gone.Nodup
  left : ∀ c ∈ watch.gone, c ∈ watch.known

namespace Watch.Exact

/-- A monitored client stands in the bucket of its `expires_at`. -/
theorem bucket (exact : watch.Exact keepAlive w rings) {c : Ref} :
    c ∈ watch.monitored ↔
      c ∈ rings.bucket (w, hashValue (watch.wheel.timer c).expiresAt) := by
  rw [← exact.members, exact.tracks.members]
  constructor
  · rintro ⟨k, member⟩
    exact exact.tracks.home member ▸ member
  · intro member
    exact ⟨_, member⟩

theorem outside (exact : watch.Exact keepAlive w rings) {c : Ref} (absent : c ∉ watch.monitored)
    (i : Nat × Nat) : c ∉ rings.bucket i := by
  intro member
  exact absent (exact.bucket.mpr (exact.tracks.home member ▸ member))

/-- The members of the table are the monitored clients, in some order. -/
theorem members_perm (exact : watch.Exact keepAlive w rings) :
    (rings.members w).Perm watch.monitored :=
  (List.perm_ext_iff_of_nodup (exact.tracks.distinct w) (exact.known.filter _)).mpr exact.members

theorem size (exact : watch.Exact keepAlive w rings) (k : Nat) :
    (rings.bucket (w, k)).length ≤ watch.known.length := by
  have inside : rings.bucket (w, k) ⊆ watch.known := by
    intro c member
    have listed : c ∈ watch.monitored := (exact.members c).mp (exact.tracks.members.mpr ⟨k, member⟩)
    exact (watch.mem_monitored.mp listed).1
  exact (List.subperm_of_subset (exact.tracks.nodup (w, k)) inside).length_le

/-- Who was ever updated is monitored or gone. -/
theorem monitored_add_gone (exact : watch.Exact keepAlive w rings) :
    watch.monitored.length + watch.gone.length = watch.known.length := by
  have goneOf : (watch.known.filter fun c => decide (c ∈ watch.gone)).Perm watch.gone := by
    refine (List.perm_ext_iff_of_nodup (exact.known.filter _) exact.gone).mpr fun c => ?_
    rw [List.mem_filter, decide_eq_true_eq]
    exact ⟨fun both => both.2, fun member => ⟨exact.left c member, member⟩⟩
  rw [← goneOf.length_eq, Nat.add_comm, List.length_eq_length_filter_add
    (fun c => decide (c ∈ watch.gone)) (l := watch.known)]
  simp [monitored]

private theorem accounted (exact : watch.Exact keepAlive w rings) : watch.Accounted w where
  sits c member := ⟨_, exact.bucket.mp member,
    exact.tracks.lists.lists (w, hashValue (watch.wheel.timer c).expiresAt)⟩
  cnt := by rw [exact.tracks.cnt, exact.members_perm.length_eq]
  balance := by
    have parts := exact.monitored_add_gone
    rw [Watch.gone, List.length_append, List.length_map] at parts
    rw [exact.tracks.cnt, exact.members_perm.length_eq, exact.kicks]
    omega

theorem initial :
    Watch.Exact keepAlive w (⟨⟨kaInit .initial w, []⟩, [], []⟩ : Watch Ref) .empty := by
  rw [kaInit_initial]
  exact {
    tracks := .initial
    members := by simp [Rings.empty, monitored]
    fresh := fun c _ => ⟨rfl, rfl⟩
    ahead := by simp [monitored]
    kicks := rfl
    known := List.nodup_nil
    gone := by simp [Watch.gone]
    left := by simp [Watch.gone] }

/-! ### One call -/

/-- A client that may be updated is in a bucket exactly if it has been updated. -/
theorem entered (exact : watch.Exact keepAlive w rings) {c : Ref} (usable : c ∉ watch.gone) :
    Entered watch.wheel rings c := by
  unfold Entered
  by_cases old : c ∈ watch.known
  · have member := exact.bucket.mp (watch.mem_monitored.mpr ⟨old, usable⟩)
    simp only [exact.tracks.self member, Option.isSome_some, true_iff]
    exact ⟨_, member⟩
  · have absent : c ∉ watch.monitored := fun listed => old (watch.mem_monitored.mp listed).1
    simp only [(exact.fresh c old).1, Option.isSome_none, Bool.false_eq_true, false_iff, not_exists]
    exact exact.outside absent

theorem update (exact : watch.Exact keepAlive w rings) {c : Ref} {now : Nat}
    (proper : Proper keepAlive watch (.update c now)) :
    ∃ next rings', use keepAlive w watch (.update c now) = .ok next ∧
      next.Exact keepAlive w rings' := by
  obtain ⟨timed, positive, notBefore, usable⟩ := proper
  by_cases burst : (watch.wheel.timer c).lastKaUpdateAt = now
  · have old : c ∈ watch.known := by
      by_contra new
      have zero := (exact.fresh c new).2
      omega
    refine ⟨watch, rings, ?_, exact⟩
    rw [use, kaUpdate_idle (.inr burst), List.insert_of_mem old]
    rfl
  · obtain ⟨wheel, updated, tracks, timer, self, others, lastT⟩ :=
      exact.tracks.kaUpdate (exact.entered usable) timed burst
    have listed : ∀ d, d ∈ (watch.known.insert c).filter (fun d => decide (d ∉ watch.gone)) ↔
        d = c ∨ d ∈ watch.monitored := by
      intro d
      rw [List.mem_filter, List.mem_insert_iff, decide_eq_true_eq, watch.mem_monitored]
      constructor
      · rintro ⟨rfl | old, notGone⟩
        · exact .inl rfl
        · exact .inr ⟨old, notGone⟩
      · rintro (rfl | ⟨old, notGone⟩)
        · exact ⟨.inl rfl, usable⟩
        · exact ⟨.inr old, notGone⟩
    refine ⟨{ watch with observed.wheel := wheel, known := watch.known.insert c },
      (rings.without c).insert (w, hashValue (now + interval (keepAlive c))) c,
      by rw [use, updated], ?_⟩
    exact {
      tracks := tracks
      members := by
        intro d
        rw [Rings.mem_insert_members, exact.tracks.toLinked.mem_without_members, exact.members]
        refine Iff.trans ?_ (listed d).symm
        tauto
      fresh := by
        intro d new
        rw [List.mem_insert_iff, not_or] at new
        have before := exact.fresh d new.2
        have untouched : wheel.timer d = watch.wheel.timer d := by
          rw [timer, Function.update_of_ne new.1]
        exact ⟨(others d new.1).trans before.1, untouched ▸ before.2⟩
      ahead := by
        intro d member
        show wheel.lastT < (wheel.timer d).expiresAt
        rw [lastT, timer]
        by_cases here : d = c
        · subst d
          simp only [Function.update_self, interval]
          omega
        · rw [Function.update_of_ne here]
          exact exact.ahead d (((listed d).mp member).resolve_left here)
      kicks := by
        rw [← exact.kicks, ← kaUpdate_kickCnt watch.wheel w w c (keepAlive c) now, updated]
        rfl
      known := exact.known.insert
      gone := exact.gone
      left := fun d member => List.mem_insert_of_mem (exact.left d member) }

theorem remove (exact : watch.Exact keepAlive w rings) {c : Ref}
    (proper : Proper keepAlive watch (.remove c)) :
    ∃ next rings', use keepAlive w watch (.remove c) = .ok next ∧
      next.Exact keepAlive w rings' := by
  obtain ⟨old, usable⟩ := watch.mem_monitored.mp proper
  obtain ⟨wheel, removed, tracks, timer, p, lastT, -⟩ := exact.tracks.kaRemove (exact.bucket.mp proper)
  have goneNow : ∀ d, d ∈ watch.observed.dropped.map Prod.snd ++ (watch.removed ++ [c]) ↔
      d ∈ watch.gone ∨ d = c := by
    intro d
    rw [← List.append_assoc, List.mem_append, List.mem_singleton]
    rfl
  have listed : ∀ d, d ∈ watch.known.filter (fun d =>
      decide (d ∉ watch.observed.dropped.map Prod.snd ++ (watch.removed ++ [c]))) ↔
        d ≠ c ∧ d ∈ watch.monitored := by
    intro d
    rw [List.mem_filter, decide_eq_true_eq, goneNow, watch.mem_monitored]
    tauto
  refine ⟨{ watch with observed.wheel := wheel, removed := watch.removed ++ [c] }, rings.without c,
    ?_, ?_⟩
  · rw [use, removed]
    rfl
  · exact {
      tracks := tracks
      members := by
        intro d
        rw [exact.tracks.toLinked.mem_without_members, exact.members]
        exact (listed d).symm
      fresh := by
        intro d new
        have before := exact.fresh d new
        exact ⟨(p d).trans before.1, (congrFun timer d) ▸ before.2⟩
      ahead := by
        intro d member
        show wheel.lastT < (wheel.timer d).expiresAt
        rw [lastT, timer]
        exact exact.ahead d ((listed d).mp member).2
      kicks := (kaRemove_kickCnt w w removed).trans exact.kicks
      known := exact.known
      gone := by
        show (watch.observed.dropped.map Prod.snd ++ (watch.removed ++ [c])).Nodup
        rw [← List.append_assoc]
        exact List.concat_eq_append ▸ exact.gone.concat usable
      left := by
        intro d member
        rcases (goneNow d).mp member with before | rfl
        · exact exact.left d before
        · exact old }

/-- The seconds a run scans include every `expires_at` that has come. -/
theorem scanned (exact : watch.Exact keepAlive w rings) {c : Ref} {t : Nat}
    (proper : Proper keepAlive watch (.run t)) (member : c ∈ watch.monitored)
    (due : (watch.wheel.timer c).expiresAt ≤ t) :
    (watch.wheel.timer c).expiresAt ∈ window watch.wheel.lastT t := by
  obtain ⟨-, -, first⟩ := proper
  have ahead := exact.ahead c member
  unfold window
  by_cases none : watch.wheel.lastT = 0
  · have notOverdue := first none c member
    rw [if_pos none, List.mem_singleton]
    omega
  · rw [if_neg none, List.mem_range'_1]
    omega

end Watch.Exact

/-- A drop is a kick. -/
theorem kaExpire_kicks (c : Ref) :
    Cmd.Preserves (fun observed => (observed.wheel.table w).kickCnt = observed.dropped.length)
      (kaExpire (observer keepAlive) (recordDrop w) w c) := by
  intro observed kicks
  cases removed : kaRemove observed.wheel w c (keepAlive c) with
  | error fault =>
      simp only [kaExpire, Keeper.client, observer, Cmd.run_bind, Cmd.run_get, Cmd.run_pure, removed,
        Cmd.run_fail, Cmd.Leads]
  | ok wheel =>
      simp only [kaExpire, Keeper.client, observer, Cmd.run_bind, Cmd.run_get, Cmd.run_pure, removed,
        recordDrop, Cmd.run_modify, Cmd.Leads, kick_kickCnt, kaRemove_kickCnt w w removed, kicks,
        List.length_append, List.length_singleton]

private theorem kaWalk_kicks {t : Nat} (bound : Nat) (lp : Option Ref) :
    Cmd.Preserves (fun observed => (observed.wheel.table w).kickCnt = observed.dropped.length)
      (kaWalk (observer keepAlive) (recordDrop w) w t bound lp) := by
  induction bound generalizing lp with
  | zero =>
      cases lp with
      | none => exact .pure ()
      | some lp => exact .fail _
  | succ bound inductionHypothesis =>
      cases lp with
      | none => exact .pure ()
      | some lp =>
          refine .bind (fun _ kept => kept) fun _ => .bind (fun _ kept => kept) fun observed => ?_
          split
          · exact .fail _
          · refine .bind ?_ fun _ => .bind (fun _ kept => kept) fun _ =>
              .bind (fun _ kept => kept) fun _ => inductionHypothesis _
            refine .bind (fun _ kept => kept) fun _ => .bind (fun _ kept => kept) fun _ => ?_
            split
            · exact kaExpire_kicks _
            · exact .pure ()

/-- A run kicks as often as it drops. -/
theorem kaRun_kicks {t : Nat} (bound : Nat) :
    Cmd.Preserves (fun observed => (observed.wheel.table w).kickCnt = observed.dropped.length)
      (kaRun (observer keepAlive) (recordDrop w) w t bound) := by
  unfold kaRun
  split
  · exact .fail _
  refine .bind (fun _ kept => kept) fun observed => ?_
  dsimp only
  split
  · exact .pure ()
  · refine .bind (.each (fun i => ?_) _) fun _ _ kept => kept
    exact .bind (fun _ kept => kept) fun _ => kaWalk_kicks bound _

namespace Watch.Exact

/-- A run drops exactly what is due, and what it leaves is ahead of it. -/
theorem run (exact : watch.Exact keepAlive w rings) {t : Nat}
    (proper : Proper keepAlive watch (.run t)) :
    ∃ next rings', use keepAlive w watch (.run t) = .ok next ∧ next.Exact keepAlive w rings' ∧
      watch.Expires w t next := by
  have ⟨positive, notBefore, first⟩ := proper
  by_cases again : watch.wheel.lastT = t
  · have nothing : (kaRun (observer keepAlive) (recordDrop w) w t watch.known.length).run
        watch.observed = (.ok (), watch.observed) :=
      kaRun_again (Nat.ne_of_gt positive) again _
    refine ⟨watch, rings, by rw [use, nothing], exact, ⟨[], by simp, List.nodup_nil, ?_⟩, ?_⟩
    · intro c
      simp only [List.not_mem_nil, false_iff, not_and, Nat.not_le]
      exact fun member => again ▸ exact.ahead c member
    · exact fun c member => again ▸ exact.ahead c member
  · obtain ⟨after, rings', drops, ran, swept, distinct, exactly⟩ :=
      kaRun_run exact.tracks exact.size (Nat.ne_of_gt positive) again
    have due : ∀ c, c ∈ drops ↔ c ∈ watch.monitored ∧ (watch.wheel.timer c).expiresAt ≤ t := by
      intro c
      rw [exactly]
      constructor
      · rintro ⟨⟨i, -, member⟩, expired⟩
        exact ⟨(exact.members c).mp (exact.tracks.members.mpr ⟨_, member⟩), expired⟩
      · rintro ⟨member, expired⟩
        exact ⟨⟨_, exact.scanned proper member expired, exact.bucket.mp member⟩, expired⟩
    have goneNow : (after.dropped.map Prod.snd ++ watch.removed).Perm (watch.gone ++ drops) := by
      have named : drops.map (Prod.snd ∘ (w, ·)) = drops := List.map_id drops
      rw [swept.dropped, List.map_append, List.map_map, named, Watch.gone, List.append_assoc,
        List.append_assoc]
      exact List.perm_append_comm.append_left _
    have listed : ∀ d, d ∈ watch.known.filter (fun d =>
        decide (d ∉ after.dropped.map Prod.snd ++ watch.removed)) ↔
          d ∈ watch.monitored ∧ d ∉ drops := by
      intro d
      rw [List.mem_filter, decide_eq_true_eq, goneNow.mem_iff, List.mem_append, watch.mem_monitored]
      tauto
    have later : ∀ d ∈ watch.known.filter (fun d =>
        decide (d ∉ after.dropped.map Prod.snd ++ watch.removed)),
          t < (after.wheel.timer d).expiresAt := by
      intro d member
      obtain ⟨before, kept⟩ := (listed d).mp member
      rw [swept.timer]
      exact Nat.lt_of_not_le fun expired => kept ((due d).mpr ⟨before, expired⟩)
    have kicks : Cmd.Leads _ _
        ((kaRun (observer keepAlive) (recordDrop w) w t watch.known.length).run watch.observed) :=
      kaRun_kicks _ _ exact.kicks
    rw [ran] at kicks
    refine ⟨{ watch with observed := { after with wheel.lastT := t } }, rings', by rw [use, ran],
      ?_, ⟨drops, swept.dropped, distinct, due⟩, later⟩
    exact {
      tracks := ⟨swept.tracks.toLinked.congr rfl rfl fun _ => rfl, swept.tracks.cnt⟩
      members := by
        intro d
        rw [swept.tracks.members]
        refine Iff.trans ?_ (listed d).symm
        simp only [swept.bucket, List.mem_filter, decide_eq_true_eq, ← exact.members,
          exact.tracks.members, exists_and_right]
      fresh := by
        intro d new
        have before := exact.fresh d new
        exact ⟨(swept.p d).trans before.1, (congrFun swept.timer d) ▸ before.2⟩
      ahead := later
      kicks := kicks
      known := exact.known
      gone := by
        refine goneNow.nodup_iff.mpr (List.nodup_append.mpr ⟨exact.gone, distinct, ?_⟩)
        rintro d before _ now rfl
        exact (watch.mem_monitored.mp ((due d).mp now).1).2 before
      left := by
        intro d member
        rcases List.mem_append.mp (goneNow.mem_iff.mp member) with before | now
        · exact exact.left d before
        · exact (watch.mem_monitored.mp ((due d).mp now).1).1 }

end Watch.Exact

/-! ### Whole runs -/

private theorem use_exact (exact : watch.Exact keepAlive w rings) {call : Use Ref}
    (proper : Proper keepAlive watch call) :
    ∃ next rings', use keepAlive w watch call = .ok next ∧ next.Exact keepAlive w rings' ∧
      ∀ t, call = .run t → watch.Expires w t next := by
  cases call with
  | update c now =>
      obtain ⟨next, rings', used, after⟩ := exact.update proper
      exact ⟨next, rings', used, after, by simp⟩
  | remove c =>
      obtain ⟨next, rings', used, after⟩ := exact.remove proper
      exact ⟨next, rings', used, after, by simp⟩
  | run t =>
      obtain ⟨next, rings', used, after, expires⟩ := exact.run proper
      refine ⟨next, rings', used, after, fun t' same => ?_⟩
      obtain rfl := Use.run.inj same
      exact expires

private theorem reachable_exact
    (reached : ((tableLife keepAlive w).restrict (Proper keepAlive)).Reachable watch) :
    ∃ rings, watch.Exact keepAlive w rings := by
  have initially : ∀ watch, ((tableLife keepAlive w).restrict (Proper keepAlive)).init watch →
      ∃ rings, watch.Exact keepAlive w rings := by
    intro watch initial
    obtain rfl : watch = _ := initial
    exact ⟨.empty, .initial⟩
  apply reached.invariant initially
  intro watch call next _ invariant stepped
  obtain ⟨rings, exact⟩ := invariant
  obtain ⟨proper, steps⟩ := System.restrict_step.mp stepped
  obtain ⟨next', rings', used, after, -⟩ := use_exact exact proper
  have same : (use keepAlive w watch call).toOption = some next := steps
  rw [used] at same
  obtain rfl : next' = next := Option.some.inj same
  exact ⟨rings', after⟩

/-- The table balances in every run, no call stops, and every `ka_run` drops exactly
the clients that are due. -/
theorem expires_exactly_the_due
    (reached : ((tableLife keepAlive w).restrict (Proper keepAlive)).Reachable watch) :
    watch.Accounted w ∧ ∀ call, Proper keepAlive watch call →
      ∃ next, use keepAlive w watch call = .ok next ∧ next.Accounted w ∧
        ∀ t, call = .run t → watch.Expires w t next := by
  obtain ⟨rings, exact⟩ := reachable_exact reached
  refine ⟨exact.accounted, fun call proper => ?_⟩
  obtain ⟨next, rings', used, after, expires⟩ := use_exact exact proper
  exact ⟨next, used, after.accounted, expires⟩

/-- Two clients with a keep-alive of two seconds, the first of them due at 13. -/
def firstDue : Option (Watch Nat) :=
  ((tableLife (fun _ => 2) 0).restrict (Proper fun _ => 2)).run ⟨⟨kaInit .initial 0, []⟩, [], []⟩
    [.update 1 10, .update 2 11, .run 13]

theorem expires_exactly_the_due_first :
    ∃ watch, firstDue = some watch ∧ watch.observed.dropped = [(0, 1)] ∧ watch.Accounted 0 ∧
      ∃ next, use (fun _ => 2) 0 watch (.run 200) = .ok next ∧ next.Accounted 0 ∧
        watch.Expires 0 200 next := by
  have ran : firstDue = some (firstDue.get (by decide)) := by simp
  have reached : ((tableLife (fun _ => 2) 0).restrict (Proper fun _ => 2)).Reachable
      (firstDue.get (by decide)) :=
    (System.Reachable.start rfl).run ran
  have proper : Proper (fun _ => 2) (firstDue.get (by decide)) (.run 200) := by decide
  obtain ⟨accounted, calls⟩ := expires_exactly_the_due reached
  obtain ⟨next, used, after, expires⟩ := calls _ proper
  exact ⟨_, ran, by decide, accounted, next, used, after, expires 200 rfl⟩

end FbBroker.KeepAlive
