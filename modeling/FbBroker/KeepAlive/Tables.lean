import Mathlib.Data.Fintype.Basic
import FbBroker.KeepAlive.Wheel

/-!
Contract: keep-alive tables of several workers used in turn.

Owns sequences of `ka_update` and `ka_run` calls on any number of tables and the
comparison of what is dropped from one table with and without the calls on the
others. The tables share `last_t`, so they are independent only as long as a run
on another table does not skip buckets in which clients are due.
-/

set_option autoImplicit false

namespace FbBroker.KeepAlive

open FbBroker.Lib FbBroker.Dllist

variable {Ref : Type} [DecidableEq Ref]

/-- A call on a table; a client is updated in the table of its worker. -/
inductive Call (Ref : Type) where
  | update (c : Ref) (now : Nat)
  | run (w t : Nat)

def Call.time : Call Ref → Nat
  | .update _ now => now
  | .run _ t => t

def Call.table (owner : Ref → Nat) : Call Ref → Nat
  | .update c _ => owner c
  | .run w _ => w

def Observed.start : Observed Ref :=
  ⟨.initial, []⟩

section Calls

variable (keepAlive owner : Ref → Nat) (bound : Nat)

def perform : Call Ref → Cmd Fault (Observed Ref) Unit
  | .update c now => modify fun observed =>
      { observed with wheel := kaUpdate observed.wheel (owner c) c (keepAlive c) now }
  | .run w t => kaRun (observer keepAlive) (recordDrop w) w t bound

/-- Every call of the sequence meets a condition in the state it is made in. -/
def Along (meets : Observed Ref → Call Ref → Prop) : List (Call Ref) → Observed Ref → Prop
  | [], _ => True
  | call :: calls, observed =>
      meets observed call ∧ Along meets calls ((perform keepAlive owner bound call).run observed).2

end Calls

/-- The client has been dropped, from whatever table. -/
def Observed.Gone (observed : Observed Ref) (c : Ref) : Prop :=
  c ∈ observed.dropped.map Prod.snd

/-- A dropped client is not used again, and time is positive when `ka_run` reads
it. -/
def Valid (observed : Observed Ref) : Call Ref → Prop
  | .update c _ => ¬observed.Gone c
  | .run _ t => t ≠ 0

/-- A run on another table changes nothing, or some run was made before it and
no client monitored in the table is due. -/
def Spares (owner : Ref → Nat) (a : Nat) (observed : Observed Ref) : Call Ref → Prop
  | .update _ _ => True
  | .run w t => w = a ∨ observed.wheel.lastT = t ∨
      observed.wheel.lastT ≠ 0 ∧ ∀ c, owner c = a → (observed.wheel.node c).p.isSome →
        ¬observed.Gone c → t < (observed.wheel.timer c).expiresAt

section Decide

variable {keepAlive owner : Ref → Nat} {bound a : Nat}

instance (observed : Observed Ref) (c : Ref) : Decidable (observed.Gone c) :=
  inferInstanceAs (Decidable (c ∈ observed.dropped.map Prod.snd))

instance (observed : Observed Ref) : DecidablePred (Valid observed)
  | .update _ _ => inferInstanceAs (Decidable ¬_)
  | .run _ _ => inferInstanceAs (Decidable ¬_)

instance [Fintype Ref] (observed : Observed Ref) : DecidablePred (Spares owner a observed)
  | .update _ _ => isTrue trivial
  | .run _ _ => inferInstanceAs (Decidable (_ ∨ _ ∨ _))

instance instDecidableAlong {meets : Observed Ref → Call Ref → Prop} [∀ observed, DecidablePred (meets observed)] :
    ∀ calls observed, Decidable (Along keepAlive owner bound meets calls observed)
  | [], _ => isTrue trivial
  | _ :: calls, _ => @instDecidableAnd _ _ _ (instDecidableAlong calls _)

end Decide

/-- The clients dropped from a table. -/
def Observed.droppedFrom (observed : Observed Ref) (a : Nat) : List (Nat × Ref) :=
  observed.dropped.filter fun drop => drop.1 == a

omit [DecidableEq Ref] in
private theorem gone_append {observed after : Observed Ref} {w : Nat} {drops : List Ref}
    (dropped : after.dropped = observed.dropped ++ drops.map fun c => (w, c)) (c : Ref) :
    after.Gone c ↔ observed.Gone c ∨ c ∈ drops := by
  unfold Observed.Gone
  rw [dropped, List.map_append, List.mem_append, List.map_map]
  simp

/-! ### One call -/

/-- The values of `i` a call of `ka_run` goes through. -/
def visits (lastT t : Nat) : List Nat :=
  if lastT = t then [] else window lastT t

private theorem mem_visits {lastT t i : Nat} (some : lastT ≠ 0) :
    i ∈ visits lastT t ↔ lastT < i ∧ i ≤ t := by
  unfold visits window
  rw [if_neg some]
  split
  · simp only [List.not_mem_nil, false_iff]
    omega
  · rw [List.mem_range'_1]
    omega

/-- What every sequence of valid calls keeps. -/
structure Sound (keepAlive owner : Ref → Nat) (observed : Observed Ref) (rings : Rings Ref)
    (size : Nat) : Prop where
  tracks : Tracks keepAlive owner observed.wheel rings
  entered : ∀ c, ¬observed.Gone c → Entered observed.wheel rings c
  dropper : ∀ {w c}, (w, c) ∈ observed.dropped → w = owner c
  gone : ∀ {c}, observed.Gone c → ∀ i, c ∉ rings.bucket i
  size : ∀ i, (rings.bucket i).length ≤ size

namespace Sound

variable {keepAlive owner : Ref → Nat} {observed : Observed Ref} {rings : Rings Ref} {size : Nat}

omit [DecidableEq Ref] in
theorem start : Sound keepAlive owner (.start : Observed Ref) .empty 0 where
  tracks := .initial
  entered c _ := by simp [Entered, Observed.start, Wheel.initial, Rings.empty]
  dropper member := by simp [Observed.start] at member
  gone member := by simp [Observed.Gone, Observed.start] at member
  size := by simp [Rings.empty]

omit [DecidableEq Ref] in
theorem mono {more : Nat} (sound : Sound keepAlive owner observed rings size) (le : size ≤ more) :
    Sound keepAlive owner observed rings more :=
  ⟨sound.tracks, sound.entered, sound.dropper, sound.gone, fun i => (sound.size i).trans le⟩

/-- Whether `ka_update` does anything. -/
def Idle (keepAlive : Ref → Nat) (observed : Observed Ref) (c : Ref) (now : Nat) : Prop :=
  keepAlive c = 0 ∨ (observed.wheel.timer c).lastKaUpdateAt = now

private theorem update_idle {c : Ref} {now : Nat} (idle : Idle keepAlive observed c now) (bound : Nat) :
    (perform keepAlive owner bound (.update c now)).run observed = (.ok (), observed) := by
  simp only [perform, Cmd.run_modify, kaUpdate_idle idle]

/-- An update that does something moves the client to the bucket of its new
`expires_at`. -/
theorem update {c : Ref} {now : Nat} (sound : Sound keepAlive owner observed rings size)
    (usable : ¬observed.Gone c) (active : ¬Idle keepAlive observed c now)
    (bound : Nat) :
    ∃ after, (perform keepAlive owner bound (.update c now)).run observed = (.ok (), after) ∧
      Sound keepAlive owner after ((rings.without c).insert
        (owner c, hashValue (now + interval (keepAlive c))) c) (size + 1) ∧
      after.wheel.timer = Function.update observed.wheel.timer c
        ⟨(observed.wheel.timer c).recvAt, now, now + interval (keepAlive c)⟩ ∧
      after.wheel.lastT = observed.wheel.lastT ∧ after.dropped = observed.dropped := by
  obtain ⟨timed, later⟩ := not_or.mp active
  obtain ⟨wheel, updated, tracks, timer, self, others, lastT⟩ :=
    sound.tracks.kaUpdate (sound.entered c usable) timed later
  refine ⟨{ observed with wheel }, by simp only [perform, Cmd.run_modify, updated],
    ⟨tracks, fun d dropped => .moved sound.tracks.toLinked self (others d) (sound.entered d dropped),
      sound.dropper, fun {d} dropped i inside => ?_, fun i => ?_⟩,
    timer, lastT, rfl⟩
  · rcases Rings.mem_insert.mp inside with ⟨-, same⟩ | old
    · exact usable (same ▸ dropped)
    · exact sound.gone dropped i (sound.tracks.toLinked.mem_without.mp old).2
  · have shorter : ((rings.without c).bucket i).length ≤ size :=
      (List.length_erase_le).trans (sound.size i)
    by_cases here : i = (owner c, hashValue (now + interval (keepAlive c)))
    · subst i
      simp only [Rings.insert, Function.update_self, List.length_cons]
      omega
    · simp only [Rings.insert, Function.update_of_ne here]
      omega

/-- A run drops the due clients of the buckets it visits. -/
theorem run {w t bound : Nat} (sound : Sound keepAlive owner observed rings size)
    (positive : t ≠ 0) (enough : size ≤ bound) :
    ∃ (after : Observed Ref) (rings' : Rings Ref) (drops : List Ref),
      (perform keepAlive owner bound (.run w t)).run observed = (.ok (), after) ∧
      Sound keepAlive owner after rings' size ∧
      (∀ i, rings'.bucket i = (rings.bucket i).filter fun c => decide (c ∉ drops)) ∧
      after.wheel.timer = observed.wheel.timer ∧ after.wheel.lastT = t ∧
      after.dropped = observed.dropped ++ drops.map (fun c => (w, c)) ∧ drops.Nodup ∧
      ∀ c, c ∈ drops ↔ (∃ i ∈ visits observed.wheel.lastT t, c ∈ rings.bucket (w, hashValue i)) ∧
        (observed.wheel.timer c).expiresAt ≤ t := by
  by_cases again : observed.wheel.lastT = t
  · refine ⟨observed, rings, [], kaRun_again positive again bound, sound, by simp, rfl, again,
      by simp, List.nodup_nil, by simp [visits, again]⟩
  · obtain ⟨after, rings', drops, ran, swept, distinct, exactly⟩ :=
      kaRun_run sound.tracks (fun k => (sound.size (w, k)).trans enough) positive again
    have inTable : ∀ {c}, c ∈ drops → owner c = w := by
      intro c dropped
      obtain ⟨⟨i, -, inside⟩, -⟩ := (exactly c).mp dropped
      exact (Prod.mk.inj (sound.tracks.home inside)).1.symm
    refine ⟨_, rings', drops, ran, ⟨⟨swept.tracks.toLinked.congr rfl rfl fun _ => rfl,
      swept.tracks.cnt⟩, fun c usable => ?_, fun {v c} dropped => ?_, fun {c} dropped i => ?_,
      fun i => ?_⟩, swept.bucket, swept.timer, rfl, swept.dropped, distinct, by simpa [visits, again] using exactly⟩
    · have gone := (gone_append swept.dropped c).not.mp usable
      obtain ⟨remaining, notNow⟩ := not_or.mp gone
      have before := sound.entered c remaining
      unfold Entered at before ⊢
      rw [show ({ after with wheel.lastT := t } : Observed Ref).wheel.node = after.wheel.node from rfl,
        swept.p c, before]
      simp only [swept.bucket, List.mem_filter, notNow, not_false_eq_true, decide_true, and_true]
    · have listed : (v, c) ∈ after.dropped := dropped
      rw [swept.dropped, List.mem_append] at listed
      rcases listed with before | now
      · exact sound.dropper before
      · simp only [List.mem_map, Prod.mk.injEq] at now
        obtain ⟨d, droppedNow, here, rfl⟩ := now
        rw [inTable droppedNow, here]
    · intro inside
      rw [swept.bucket, List.mem_filter, decide_eq_true_eq] at inside
      rcases (gone_append swept.dropped c).mp dropped with before | now
      · exact sound.gone before i inside.1
      · exact inside.2 now
    · rw [swept.bucket]
      exact (List.length_filter_le _ _).trans (sound.size i)

end Sound

/-! ### With and without the calls on other tables -/

section Compare

variable {keepAlive owner : Ref → Nat} {a size size' : Nat} {observed alone : Observed Ref}
  {rings rings' : Rings Ref}

/-- Two states that agree on one table: its buckets, the times of its clients, and
the clients dropped from it up to order. -/
structure Agree (owner : Ref → Nat) (a : Nat) (observed alone : Observed Ref)
    (rings rings' : Rings Ref) : Prop where
  bucket : ∀ k, rings'.bucket (a, k) = rings.bucket (a, k)
  timer : ∀ c, owner c = a → alone.wheel.timer c = observed.wheel.timer c
  dropped : (observed.droppedFrom a).Perm (alone.droppedFrom a)

/-- The shared clock is that of the table, or it is ahead and no client of the
table is due by it. -/
def ClockAhead (a : Nat) (observed alone : Observed Ref) (rings : Rings Ref) : Prop :=
  alone.wheel.lastT = observed.wheel.lastT ∨
    alone.wheel.lastT ≠ 0 ∧ alone.wheel.lastT ≤ observed.wheel.lastT ∧
      ∀ k c, c ∈ rings.bucket (a, k) → observed.wheel.lastT < (observed.wheel.timer c).expiresAt

omit [DecidableEq Ref] in
theorem Agree.usable (agree : Agree owner a observed alone rings rings')
    (sound : Sound keepAlive owner alone rings' size) {c : Ref} (mine : owner c = a)
    (usable : ¬observed.Gone c) : ¬alone.Gone c := by
  intro gone
  obtain ⟨⟨w, d⟩, dropped, same⟩ := List.mem_map.mp gone
  obtain rfl : d = c := same
  have here : w = a := (sound.dropper dropped).trans mine
  have listed : (w, d) ∈ alone.droppedFrom a :=
    List.mem_filter.mpr ⟨dropped, by simpa using here⟩
  have alsoHere := List.mem_of_mem_filter (agree.dropped.symm.subset listed)
  exact usable (List.mem_map_of_mem alsoHere)

omit [DecidableEq Ref] in
private theorem droppedFrom_append {after : Observed Ref} {w : Nat} {drops : List Ref}
    (dropped : after.dropped = observed.dropped ++ drops.map fun c => (w, c)) :
    after.droppedFrom a =
      observed.droppedFrom a ++ if w = a then drops.map fun c => (w, c) else [] := by
  unfold Observed.droppedFrom
  rw [dropped, List.filter_append]
  congr 1
  split
  · rename_i here
    rw [List.filter_eq_self]
    simp [here]
  · rename_i elsewhere
    rw [List.filter_eq_nil_iff]
    simp [elsewhere]

omit [DecidableEq Ref] in
/-- Which clients of the table are dropped does not depend on how far the shared
clock is ahead. -/
theorem due_iff {t : Nat} {c : Ref} (sound : Sound keepAlive owner observed rings size)
    (agree : Agree owner a observed alone rings rings') (clock : ClockAhead a observed alone rings) :
    ((∃ i ∈ visits alone.wheel.lastT t, c ∈ rings'.bucket (a, hashValue i)) ∧
        (alone.wheel.timer c).expiresAt ≤ t) ↔
      (∃ i ∈ visits observed.wheel.lastT t, c ∈ rings.bucket (a, hashValue i)) ∧
        (observed.wheel.timer c).expiresAt ≤ t := by
  simp only [agree.bucket]
  have sameTimer : ∀ {k}, c ∈ rings.bucket (a, k) → alone.wheel.timer c = observed.wheel.timer c :=
    fun inside => agree.timer c (Prod.mk.inj (sound.tracks.home inside)).1.symm
  rcases clock with same | ⟨some, behind, ahead⟩
  · rw [same]
    constructor
    · rintro ⟨⟨i, visited, inside⟩, due⟩
      exact ⟨⟨i, visited, inside⟩, sameTimer inside ▸ due⟩
    · rintro ⟨⟨i, visited, inside⟩, due⟩
      exact ⟨⟨i, visited, inside⟩, (sameTimer inside).symm ▸ due⟩
  · -- both clocks are before the time at which the client is due, so both visit its bucket
    have visitedBy : ∀ {k}, c ∈ rings.bucket (a, k) → (observed.wheel.timer c).expiresAt ≤ t →
        ∀ lastT, lastT ≠ 0 → lastT ≤ observed.wheel.lastT →
          ∃ i ∈ visits lastT t, c ∈ rings.bucket (a, hashValue i) := by
      intro k inside due lastT positive le
      have late := ahead k c inside
      have home := sound.tracks.home inside
      refine ⟨(observed.wheel.timer c).expiresAt, (mem_visits positive).mpr ⟨by omega, due⟩, ?_⟩
      rwa [← (Prod.mk.inj home).2]
    constructor
    · rintro ⟨⟨i, -, inside⟩, due⟩
      rw [sameTimer inside] at due
      exact ⟨visitedBy inside due _ (by omega) le_rfl, due⟩
    · rintro ⟨⟨i, -, inside⟩, due⟩
      exact ⟨visitedBy inside due _ some behind, (sameTimer inside).symm ▸ due⟩

/-- The run with all calls and the one with the calls on the table only. -/
def Compared (keepAlive owner : Ref → Nat) (a size : Nat) (observed alone : Observed Ref) : Prop :=
  ∃ rings rings', Sound keepAlive owner observed rings size ∧
    Sound keepAlive owner alone rings' size ∧ Agree owner a observed alone rings rings' ∧
      ClockAhead a observed alone rings

variable {bound : Nat} {t now : Nat} {c : Ref}

/-- A run on the table brings the clocks together. -/
theorem Compared.run (compared : Compared keepAlive owner a size observed alone)
    (positive : t ≠ 0) (enough : size ≤ bound) :
    ∃ after after',
      (perform keepAlive owner bound (.run a t)).run observed = (.ok (), after) ∧
      (perform keepAlive owner bound (.run a t)).run alone = (.ok (), after') ∧
      Compared keepAlive owner a size after after' ∧ after.wheel.lastT = t := by
  obtain ⟨rings, rings', sound, sound', agree, clock⟩ := compared
  obtain ⟨after, next, drops, ran, kept, bucket, timer, lastT, dropped, distinct, exactly⟩ :=
    sound.run (w := a) positive enough
  obtain ⟨after', next', drops', ran', kept', bucket', timer', lastT', dropped', distinct',
    exactly'⟩ := sound'.run (w := a) positive enough
  have sameDrops : ∀ c, c ∈ drops' ↔ c ∈ drops := fun c => by
    rw [exactly', exactly, due_iff sound agree clock]
  refine ⟨after, after', ran, ran', ⟨next, next', kept, kept', ⟨fun k => ?_, fun c mine => ?_, ?_⟩,
    .inl (lastT'.trans lastT.symm)⟩, lastT⟩
  · rw [bucket', bucket, agree.bucket]
    simp only [sameDrops]
  · rw [timer', timer]
    exact agree.timer c mine
  · rw [droppedFrom_append dropped, droppedFrom_append dropped', if_pos rfl, if_pos rfl]
    refine agree.dropped.append (List.Perm.map _ ?_)
    exact (List.perm_ext_iff_of_nodup distinct distinct').mpr fun c => (sameDrops c).symm

/-- A client of the table is updated in both. -/
theorem Compared.update (compared : Compared keepAlive owner a size observed alone)
    (mine : owner c = a) (usable : ¬observed.Gone c)
    (past : observed.wheel.lastT ≤ now) (bound : Nat) :
    ∃ after after',
      (perform keepAlive owner bound (.update c now)).run observed = (.ok (), after) ∧
      (perform keepAlive owner bound (.update c now)).run alone = (.ok (), after') ∧
      Compared keepAlive owner a (size + 1) after after' ∧
      after.wheel.lastT = observed.wheel.lastT := by
  obtain ⟨rings, rings', sound, sound', agree, clock⟩ := compared
  have sameIdle : Sound.Idle keepAlive alone c now ↔ Sound.Idle keepAlive observed c now := by
    rw [Sound.Idle, Sound.Idle, agree.timer c mine]
  by_cases idle : Sound.Idle keepAlive observed c now
  · exact ⟨observed, alone, Sound.update_idle idle bound,
      Sound.update_idle (sameIdle.mpr idle) bound, ⟨rings, rings', sound.mono (Nat.le_succ _),
      sound'.mono (Nat.le_succ _), agree, clock⟩, rfl⟩
  obtain ⟨after, ran, kept, timer, lastT, dropped⟩ := sound.update usable idle bound
  obtain ⟨after', ran', kept', timer', lastT', dropped'⟩ := sound'.update
    (agree.usable sound' mine usable) (fun idle' => idle (sameIdle.mp idle')) bound
  refine ⟨after, after', ran, ran', ⟨_, _, kept, kept', ⟨fun k => ?_, fun d here => ?_, ?_⟩, ?_⟩, lastT⟩
  · subst mine
    by_cases here : k = hashValue (now + interval (keepAlive c))
    · subst k
      simp [Rings.insert, Rings.without, agree.bucket]
    · have different : (owner c, k) ≠ (owner c, hashValue (now + interval (keepAlive c))) := by
        simpa using here
      simp [Rings.insert, Rings.without, Function.update_of_ne different, agree.bucket]
  · rw [timer', timer]
    by_cases same : d = c
    · subst d
      simp [agree.timer c mine]
    · simp [Function.update_of_ne same, agree.timer d here]
  · unfold Observed.droppedFrom
    rw [dropped, dropped']
    exact agree.dropped
  · rcases clock with same | ⟨some, behind, ahead⟩
    · exact .inl (by rw [lastT, lastT', same])
    · refine .inr ⟨by rwa [lastT'], by rwa [lastT, lastT'], fun k d inside => ?_⟩
      rw [lastT, timer]
      by_cases same : d = c
      · -- the new time is later than any run so far
        subst d
        have timed : keepAlive c ≠ 0 := (not_or.mp idle).1
        simp only [Function.update_self, interval]
        omega
      · rw [Function.update_of_ne same]
        rcases Rings.mem_insert.mp inside with ⟨-, isNew⟩ | old
        · exact absurd isNew same
        · exact ahead k d (sound.tracks.toLinked.mem_without.mp old).2

/-- A client of another table is updated in one of them. -/
theorem Compared.updateOther (compared : Compared keepAlive owner a size observed alone)
    (other : owner c ≠ a) (usable : ¬observed.Gone c) (bound : Nat) :
    ∃ after, (perform keepAlive owner bound (.update c now)).run observed = (.ok (), after) ∧
      Compared keepAlive owner a (size + 1) after alone ∧
      after.wheel.lastT = observed.wheel.lastT := by
  obtain ⟨rings, rings', sound, sound', agree, clock⟩ := compared
  by_cases idle : Sound.Idle keepAlive observed c now
  · exact ⟨observed, Sound.update_idle idle bound, ⟨rings, rings', sound.mono (Nat.le_succ _),
      sound'.mono (Nat.le_succ _), agree, clock⟩, rfl⟩
  obtain ⟨after, ran, kept, timer, lastT, dropped⟩ := sound.update usable idle bound
  have sameBucket : ∀ k, ((rings.without c).insert
      (owner c, hashValue (now + interval (keepAlive c))) c).bucket (a, k) = rings.bucket (a, k) := by
    intro k
    have different : (a, k) ≠ (owner c, hashValue (now + interval (keepAlive c))) :=
      fun same => other (Prod.mk.inj same).1.symm
    have outside : c ∉ rings.bucket (a, k) := fun inside =>
      other (Prod.mk.inj (sound.tracks.home inside)).1.symm
    simp [Rings.insert, Function.update_of_ne different, Rings.without,
      List.erase_of_not_mem outside]
  have sameTimer : ∀ d, owner d = a → after.wheel.timer d = observed.wheel.timer d := by
    intro d mine
    rw [timer, Function.update_of_ne]
    rintro rfl
    exact other mine
  refine ⟨after, ran, ⟨_, rings', kept, sound'.mono (Nat.le_succ _),
    ⟨fun k => (agree.bucket k).trans (sameBucket k).symm,
      fun d mine => (agree.timer d mine).trans (sameTimer d mine).symm, ?_⟩, ?_⟩, lastT⟩
  · unfold Observed.droppedFrom
    rw [dropped]
    exact agree.dropped
  · rcases clock with same | ⟨some, behind, ahead⟩
    · exact .inl (by rw [lastT, same])
    · refine .inr ⟨some, by rwa [lastT], fun k d inside => ?_⟩
      rw [sameBucket] at inside
      rw [lastT, sameTimer d (Prod.mk.inj (sound.tracks.home inside)).1.symm]
      exact ahead k d inside

/-- A run on another table that spares this one. -/
theorem Compared.runOther {w : Nat} (compared : Compared keepAlive owner a size observed alone)
    (other : w ≠ a) (positive : t ≠ 0) (enough : size ≤ bound)
    (past : observed.wheel.lastT ≤ t) (spares : Spares owner a observed (.run w t)) :
    ∃ after, (perform keepAlive owner bound (.run w t)).run observed = (.ok (), after) ∧
      Compared keepAlive owner a size after alone ∧ after.wheel.lastT = t := by
  rcases spares with impossible | again | ⟨ranBefore, noneDue⟩
  · exact absurd impossible other
  · exact ⟨observed, kaRun_again positive again bound, compared, again⟩
  obtain ⟨rings, rings', sound, sound', agree, clock⟩ := compared
  obtain ⟨after, next, drops, ran, kept, bucket, timer, lastT, dropped, distinct, exactly⟩ :=
    sound.run (w := w) positive enough
  have sameBucket : ∀ k, next.bucket (a, k) = rings.bucket (a, k) := by
    intro k
    rw [bucket, List.filter_eq_self]
    intro c inside
    simp only [decide_eq_true_eq]
    intro droppedNow
    obtain ⟨⟨i, -, there⟩, -⟩ := (exactly c).mp droppedNow
    exact other (Prod.mk.inj (sound.tracks.lists.apart there inside)).1
  refine ⟨after, ran, ⟨next, rings', kept, sound',
    ⟨fun k => (agree.bucket k).trans (sameBucket k).symm, fun c mine => ?_, ?_⟩, ?_⟩, lastT⟩
  · rw [timer]
    exact agree.timer c mine
  · rw [droppedFrom_append dropped, if_neg other, List.append_nil]
    exact agree.dropped
  · have behind : alone.wheel.lastT ≠ 0 ∧ alone.wheel.lastT ≤ t := by
      rcases clock with same | ⟨some, behind, -⟩
      · exact ⟨same ▸ ranBefore, same ▸ past⟩
      · exact ⟨some, behind.trans past⟩
    refine .inr ⟨behind.1, by rw [lastT]; exact behind.2, fun k c inside => ?_⟩
    rw [sameBucket] at inside
    rw [lastT, timer]
    exact noneDue c (Prod.mk.inj (sound.tracks.home inside)).1.symm
      (by simp [sound.tracks.self inside]) fun gone => sound.gone gone _ inside

/-- The calls on one table. -/
def callsOn (owner : Ref → Nat) (a : Nat) (calls : List (Call Ref)) : List (Call Ref) :=
  calls.filter fun call => call.table owner == a

/-- The comparison over a whole sequence of calls. -/
theorem Compared.calls {calls : List (Call Ref)} {since : Nat}
    (compared : Compared keepAlive owner a size observed alone)
    (past : observed.wheel.lastT ≤ since) (ordered : (since :: calls.map Call.time).Pairwise (· ≤ ·))
    (valid : Along keepAlive owner bound Valid calls observed)
    (spares : Along keepAlive owner bound (Spares owner a) calls observed)
    (enough : size + calls.length ≤ bound) :
    ∃ after after', (Cmd.each (perform keepAlive owner bound) calls).run observed = (.ok (), after) ∧
      (Cmd.each (perform keepAlive owner bound) (callsOn owner a calls)).run alone =
        (.ok (), after') ∧
      (after.droppedFrom a).Perm (after'.droppedFrom a) := by
  induction calls generalizing observed alone size since with
  | nil =>
      obtain ⟨rings, rings', -, -, agree, -⟩ := compared
      exact ⟨observed, alone, rfl, rfl, agree.dropped⟩
  | cons call calls inductionHypothesis =>
      obtain ⟨here, validLater⟩ := valid
      obtain ⟨sparesHere, sparesLater⟩ := spares
      simp only [List.length_cons] at enough
      have room : size ≤ bound := by omega
      have before : since ≤ call.time := List.rel_of_pairwise_cons ordered (by simp)
      have orderedLater := (List.pairwise_cons.mp ordered).2
      -- it is enough that the call keeps the comparison, in one run or in both
      have goOn : ∀ {after after' : Observed Ref} {rest : List (Call Ref)},
          (perform keepAlive owner bound call).run observed = (.ok (), after) →
          Compared keepAlive owner a (size + 1) after after' → after.wheel.lastT ≤ call.time →
          (∀ final, (Cmd.each (perform keepAlive owner bound) (callsOn owner a calls)).run after' =
            (.ok (), final) → (Cmd.each (perform keepAlive owner bound) rest).run alone =
              (.ok (), final)) →
          ∃ final final',
            (Cmd.each (perform keepAlive owner bound) (call :: calls)).run observed =
              (.ok (), final) ∧
            (Cmd.each (perform keepAlive owner bound) rest).run alone = (.ok (), final') ∧
            (final.droppedFrom a).Perm (final'.droppedFrom a) := by
        intro after after' rest ran next pastLater continues
        rw [ran] at validLater sparesLater
        obtain ⟨final, final', all, only, same⟩ :=
          inductionHypothesis next pastLater orderedLater validLater sparesLater (by omega)
        exact ⟨final, final', Cmd.each_cons_ok ran all, continues final' only, same⟩
      by_cases mine : call.table owner = a
      · have kept : callsOn owner a (call :: calls) = call :: callsOn owner a calls :=
          List.filter_cons_of_pos (by simpa using mine)
        rw [kept]
        cases call with
        | update c now =>
            obtain ⟨after, after', ran, ran', next, lastT⟩ :=
              compared.update mine here (past.trans before) bound
            exact goOn ran next (by rw [lastT]; exact past.trans before)
              fun final rest => Cmd.each_cons_ok ran' rest
        | run w t =>
            subst mine
            obtain ⟨after, after', ran, ran', next, lastT⟩ := compared.run here room
            obtain ⟨rings, rings', sound, sound', rest⟩ := next
            exact goOn ran ⟨rings, rings', sound.mono (Nat.le_succ _), sound'.mono (Nat.le_succ _), rest⟩
              lastT.le fun final rest => Cmd.each_cons_ok ran' rest
      · have dropped : callsOn owner a (call :: calls) = callsOn owner a calls :=
          List.filter_cons_of_neg (by simpa using mine)
        rw [dropped]
        cases call with
        | update c now =>
            obtain ⟨after, ran, next, lastT⟩ := compared.updateOther mine here bound
            exact goOn ran next (by rw [lastT]; exact past.trans before) fun final rest => rest
        | run w t =>
            obtain ⟨after, ran, next, lastT⟩ :=
              compared.runOther mine here room (past.trans before) sparesHere
            obtain ⟨rings, rings', sound, sound', rest⟩ := next
            exact goOn ran ⟨rings, rings', sound.mono (Nat.le_succ _), sound'.mono (Nat.le_succ _), rest⟩
              lastT.le fun final rest => rest

/-- In every interleaving in which the runs on other tables spare a table, the
clients dropped from it are those dropped by its own calls alone. -/
theorem tables_independent {calls : List (Call Ref)}
    (ordered : (calls.map Call.time).Pairwise (· ≤ ·))
    (valid : Along keepAlive owner bound Valid calls .start)
    (spares : Along keepAlive owner bound (Spares owner a) calls .start)
    (enough : calls.length ≤ bound) :
    ∃ after after',
      (Cmd.each (perform keepAlive owner bound) calls).run .start = (.ok (), after) ∧
      (Cmd.each (perform keepAlive owner bound) (callsOn owner a calls)).run .start =
        (.ok (), after') ∧
      (after.droppedFrom a).Perm (after'.droppedFrom a) := by
  have compared : Compared keepAlive owner a 0 (.start : Observed Ref) .start :=
    ⟨.empty, .empty, .start, .start, ⟨fun _ => rfl, fun _ _ => rfl, .refl _⟩, .inl rfl⟩
  have fromStart : (0 :: calls.map Call.time).Pairwise (· ≤ ·) :=
    List.pairwise_cons.mpr ⟨fun _ _ => Nat.zero_le _, ordered⟩
  exact compared.calls le_rfl fromStart valid spares (by simpa using enough)

end Compare

/-- One client for each of two tables. -/
def pairOwner (c : Bool) : Nat :=
  if c then 1 else 0

/-- The other table is run while no client of this one is due. -/
theorem tables_independent_spared :
    ∃ after after',
      (Cmd.each (perform (fun _ => 2) pairOwner 5)
        [.update false 1, .run 0 2, .update true 2, .run 1 3, .run 0 4]).run .start =
          (.ok (), after) ∧
      (Cmd.each (perform (fun _ => 2) pairOwner 5) (callsOn pairOwner 0
        [.update false 1, .run 0 2, .update true 2, .run 1 3, .run 0 4])).run .start =
          (.ok (), after') ∧
      (after.droppedFrom 0).Perm (after'.droppedFrom 0) :=
  tables_independent (by decide) (by decide +kernel) (by decide +kernel) (by decide)

/-- A run on the other table at the time at which a client is due makes the run on
its own table return at once: the client is not dropped. -/
theorem tables_interfere :
    ((Cmd.each (perform (fun _ => 2) pairOwner 3) [.update false 1, .run 1 4, .run 0 4]).run
        .start).2.droppedFrom 0 = [] ∧
      ((Cmd.each (perform (fun _ => 2) pairOwner 3) (callsOn pairOwner 0
        [.update false 1, .run 1 4, .run 0 4])).run .start).2.droppedFrom 0 = [(0, false)] := by
  decide +kernel

end FbBroker.KeepAlive
