import FbBroker.Broker.Turns

/-!
Contract: the room in the subscription arrays.

Owns, over all histories of `on_recv_subscribe`, `on_recv_unsubscribe` and the removal
of clients, that no array holds more than `MAX_SUBS` entries and no element behind them
is touched. The code does not look whether a new entry fits, and the copies that close
a gap read one element behind the last, so histories are held to the room there is.

Does not own the trie.
-/

set_option autoImplicit false

namespace FbBroker.Broker

open FbBroker.Lib FbBroker.Packet FbBroker.Parser FbBroker.Dllist FbBroker.TrieMult
open FbBroker.Routing FbBroker.Auth

variable {cfg : Config} {closes : Bool} {c : ClientId} {b : State} {p : Client} {sub : SubscribeSt} {w : Nat}

/-! ### Bounded arrays -/

/-- No array holds more than `MAX_SUBS` entries. -/
def Bounded (b : State) : Prop :=
  ∀ c p, b.clients c = some p → p.numSubs ≤ maxSubs

theorem Bounded.update (bounded : Bounded b) {d : State}
    (clients : d.clients = Function.update b.clients c (some p)) (few : p.numSubs ≤ maxSubs) : Bounded d := by
  intro e q found
  rw [clients] at found
  by_cases same : e = c
  · obtain rfl : p = q := by simpa [same] using found
    exact few
  · exact bounded e q (by simpa [same] using found)

/-- Answering and closing a client add no entries. -/
theorem Bounded.talk {b' : State} (change : Change cfg closes .talk c b b') (bounded : Bounded b) :
    Bounded b' := by
  cases change with
  | client present updates edits => exact absurd rfl edits
  | close may present nodes subs unlinked =>
      intro d q found
      by_cases same : d = c
      · simp [same] at found
      · exact bounded d q (by simpa [same] using found)
  | _ => exact bounded

theorem Bounded.holds {Value : Type} {command : Code Value} {post : Value → Prop} (bounded : Bounded b)
    (talks : (contract cfg closes .talk c).Holds post command b) : Bounded (command.run b).2 :=
  Evolves.invariant (fun change => Bounded.talk change) talks.1 bounded

/-- Code that touches no element behind an array, and leaves all of them bounded. -/
def Inside {Value : Type} (command : Code Value) (b : State) : Prop :=
  Cmd.Leads (fun fault d => fault ≠ .outOfBounds ∧ Bounded d) (fun _ => Bounded) (command.run b)

theorem Inside.bounded {Value : Type} {command : Code Value} (inside : Inside command b) :
    Bounded (command.run b).2 := by
  unfold Inside at inside
  cases outcome : command.run b with
  | mk result d =>
      rw [outcome] at inside
      cases result with
      | ok value => exact inside
      | error fault => exact inside.2

/-! ### Subscribing -/

/-- The new filters of a packet fit behind the entries. -/
def HasRoom (p : Client) (sub : SubscribeSt) : Prop :=
  p.numSubs + ((requested sub sub.numFilters).toFinset \ p.filters.toFinset).card ≤ maxSubs

theorem HasRoom.turns (room : HasRoom p sub) {k : Nat} (early : k ≤ sub.numFilters) :
    (p.turns sub k).numSubs ≤ maxSubs := by
  refine (p.numSubs_turns_le sub early).trans ?_
  rw [Client.numSubs_turns]
  exact room

/-- No turn finds the array full. -/
theorem HasRoom.not_full (room : HasRoom p sub) {k : Nat} (early : k < sub.numFilters)
    (new : cstr (filterOf sub k) ∉ (p.turns sub k).filters) : ¬ maxSubs ≤ (p.turns sub k).numSubs := by
  intro full
  have larger := room.turns early
  rw [Client.turns, Client.subscribed, if_neg new] at larger
  exact absurd (full.trans_lt larger) (Nat.lt_irrefl _)

private theorem subscribe_inside (bounded : Bounded b) (present : b.clients c = some p) (room : HasRoom p sub) {m : Nat}
    (before : m ≤ sub.numFilters) : Inside (Cmd.each (subscribeOne c sub) (List.range m)) b := by
  have turns := subscribe_turns present sub m
  unfold Inside
  generalize (Cmd.each (subscribeOne c sub) (List.range m)).run b = result at turns
  cases turns with
  | done nodes subs only inside keeps => exact bounded.update rfl (room.turns before)
  | full nodes subs events early new full => exact absurd full (room.not_full (by omega) new)
  | endless nodes subs events early broken =>
      exact ⟨by simp, bounded.update rfl (room.turns (by omega))⟩

/-- With the room, and where the trie agrees with the arrays, all turns are made. -/
theorem subscribe_done (consistent : Consistent p.worker b) (present : b.clients c = some p)
    (room : HasRoom p sub) :
    ∃ nodes subs events, (∀ event ∈ events, event = .subscribed c) ∧
      (Cmd.each (subscribeOne c sub) (List.range sub.numFilters)).run b =
        (.ok (), b.turned c (p.turns sub sub.numFilters) nodes subs events) := by
  have turns := subscribe_turns present sub sub.numFilters
  generalize (Cmd.each (subscribeOne c sub) (List.range sub.numFilters)).run b = result at turns
  cases turns with
  | done nodes subs only inside keeps => exact ⟨nodes, subs, _, only, rfl⟩
  | full nodes subs events early new full => exact absurd full (room.not_full early new)
  | endless nodes subs events early broken => exact absurd consistent broken

/-- Where the trie agrees with the arrays, nothing less than the room keeps the loop inside. -/
theorem hasRoom_of_inside (consistent : Consistent p.worker b) (present : b.clients c = some p)
    (inside : Inside (Cmd.each (subscribeOne c sub) (List.range sub.numFilters)) b) : HasRoom p sub := by
  have turns := subscribe_turns present sub sub.numFilters
  unfold Inside at inside
  generalize (Cmd.each (subscribeOne c sub) (List.range sub.numFilters)).run b = result at turns inside
  cases turns with
  | done nodes subs only few keeps =>
      rw [Client.numSubs_turns, Nat.max_eq_right (consistent.clients c p present).2] at few
      exact few
  | full nodes subs events early new full => exact absurd rfl inside.1
  | endless nodes subs events early broken => exact absurd consistent broken

/-! ### Unsubscribing -/

/-- There is an element behind the entries, or no entry is taken out. -/
def HasSpare (p : Client) (sub : SubscribeSt) : Prop :=
  p.numSubs < maxSubs ∨ ∀ filter ∈ requested sub sub.numFilters, filter ∉ p.filters

/-- With an element behind the entries, a removal leaves one more. -/
theorem unsubscribeFrom_inside (present : b.clients c = some p) (room : p.numSubs < maxSubs)
    (filter : List Byte) (bound j : Nat) :
    ∃ d q, (unsubscribeFrom c filter bound j).run b = (.ok (), d) ∧
      d.clients = Function.update b.clients c (some q) ∧ q.numSubs ≤ p.numSubs := by
  induction bound generalizing b p j with
  | zero => exact ⟨b, p, rfl, by simp [← present], Nat.le_refl _⟩
  | succ bound inductionHypothesis =>
      rw [unsubscribeFrom, Cmd.bind_ok (client_run present)]
      split
      · by_cases same : cstr (p.subscriptions j).filter = cstr filter
        · have dropped : (onlyIf (cstr (p.subscriptions j).filter == cstr filter) (dropSub c p j)).run b =
              (.ok (), b.dropped c p j) := by
            simp [onlyIf, same, dropSub, room, State.dropped]
          obtain ⟨q, found, fewer⟩ : ∃ q, (b.dropped c p j).clients = Function.update b.clients c (some q) ∧
              q.numSubs ≤ p.numSubs :=
            ⟨_, rfl, Nat.sub_le _ _⟩
          obtain ⟨d, r, ran, clients, least⟩ := inductionHypothesis (b := b.dropped c p j) (p := q)
            (by simp [found]) (by omega) (j + 1)
          refine ⟨d, r, by rw [Cmd.bind_ok dropped, ran], ?_, least.trans fewer⟩
          rw [clients, found, Function.update_idem]
        · simp only [onlyIf, beq_iff_eq, same, if_false, Cmd.run_pure_bind]
          exact inductionHypothesis present room (j + 1)
      · exact ⟨b, p, rfl, by simp [← present], Nat.le_refl _⟩

/-- The loop of `on_recv_unsubscribe` over filters of a packet. -/
def unsubscribeEach (c : ClientId) (sub : SubscribeSt) (indices : List Nat) : Code Unit :=
  Cmd.each (fun i => unsubscribeFrom c (filterOf sub i) maxSubs 0) indices

private theorem unsubscribeEach_inside (present : b.clients c = some p) (room : p.numSubs < maxSubs)
    (sub : SubscribeSt) (indices : List Nat) :
    ∃ d q, (unsubscribeEach c sub indices).run b = (.ok (), d) ∧
      d.clients = Function.update b.clients c (some q) ∧ q.numSubs ≤ p.numSubs := by
  induction indices generalizing b p with
  | nil => exact ⟨b, p, rfl, by simp [← present], Nat.le_refl _⟩
  | cons i indices inductionHypothesis =>
      obtain ⟨d, q, ran, clients, fewer⟩ := unsubscribeFrom_inside present room (filterOf sub i) maxSubs 0
      obtain ⟨e, r, others, later, least⟩ := inductionHypothesis (b := d) (p := q) (by simp [clients]) (by omega)
      refine ⟨e, r, Cmd.each_cons_ok ran others, ?_, least.trans fewer⟩
      rw [later, clients, Function.update_idem]

/-- Filters that are not in the array take nothing out. -/
theorem unsubscribeEach_absent (present : b.clients c = some p) {indices : List Nat}
    (absent : ∀ i ∈ indices, cstr (filterOf sub i) ∉ p.filters) :
    (unsubscribeEach c sub indices).run b = (.ok (), b) := by
  induction indices with
  | nil => rfl
  | cons i indices inductionHypothesis =>
      refine Cmd.each_cons_ok ?_ (inductionHypothesis fun k member => absent k (by simp [member]))
      refine unsubscribeFrom_absent present fun k _ inside same => absent i (by simp) ?_
      exact Client.mem_filters.mpr ⟨k, inside, same⟩

private theorem unsubscribe_inside (bounded : Bounded b) (present : b.clients c = some p) (spare : HasSpare p sub) {m : Nat}
    (before : m ≤ sub.numFilters) : Inside (unsubscribeEach c sub (List.range m)) b := by
  unfold Inside
  rcases spare with room | absent
  · obtain ⟨d, q, ran, clients, fewer⟩ := unsubscribeEach_inside present room sub (List.range m)
    rw [ran]
    exact bounded.update clients (by omega)
  · rw [unsubscribeEach_absent present fun i member => absent _ ?_]
    · exact bounded
    · exact List.mem_map.mpr ⟨i, List.mem_range.mpr ((List.mem_range.mp member).trans_le before), rfl⟩

/-- With all elements in use, the first filter that is found reads behind them. -/
theorem unsubscribeFrom_full (present : b.clients c = some p) (full : p.numSubs = maxSubs) {filter : List Byte}
    {bound j last : Nat} (before : j ≤ last) (inside : last < p.numSubs) (enough : last < bound + j)
    (same : cstr (p.subscriptions last).filter = cstr filter)
    (absent : ∀ k, j ≤ k → k < last → cstr (p.subscriptions k).filter ≠ cstr filter) :
    ∃ d, (unsubscribeFrom c filter bound j).run b = (.error .outOfBounds, d) := by
  obtain ⟨left, skips⟩ := unsubscribeFrom_skip present before inside enough absent
  have stops : (onlyIf (cstr (p.subscriptions last).filter == cstr filter) (dropSub c p last)).run b =
      (.error .outOfBounds, b.removeSub c p last) := by
    simp [onlyIf, same, dropSub, full]
  exact ⟨_, skips.trans (Cmd.bind_error stops)⟩

/-- Nothing less than a spare element keeps the loop inside. -/
theorem hasSpare_of_inside (bounded : Bounded b) (present : b.clients c = some p)
    (inside : ∀ m ≤ sub.numFilters, Inside (unsubscribeEach c sub (List.range m)) b) : HasSpare p sub := by
  by_cases room : p.numSubs < maxSubs
  · exact .inl room
  · have full : p.numSubs = maxSubs := Nat.le_antisymm (bounded c p present) (by omega)
    have unknown : ∀ i < sub.numFilters, cstr (filterOf sub i) ∉ p.filters := by
      intro i
      induction i using Nat.strong_induction_on with
      | _ i inductionHypothesis =>
          intro early known
          -- the filters in front of this one took nothing out
          have front : (unsubscribeEach c sub (List.range i)).run b = (.ok (), b) :=
            unsubscribeEach_absent present fun k member =>
              inductionHypothesis k (List.mem_range.mp member) ((List.mem_range.mp member).trans early)
          cases found : findSub p (filterOf sub i) with
          | none => exact findSub_eq_none.mp found known
          | some last =>
              obtain ⟨few, same, first⟩ := findSub_some found
              have enough : last < maxSubs + 0 := by omega
              obtain ⟨d, stops⟩ := unsubscribeFrom_full present full (Nat.zero_le last) few enough same
                fun k _ => first k
              have failed : (unsubscribeEach c sub (List.range (i + 1))).run b = (.error .outOfBounds, d) := by
                rw [unsubscribeEach, List.range_succ, Cmd.each_append_run, ← unsubscribeEach,
                  Cmd.bind_ok front, Cmd.each, Cmd.bind_error stops]
              have stays := inside (i + 1) early
              rw [Inside, failed] at stays
              exact stays.1 rfl
    refine .inr fun filter asked => ?_
    obtain ⟨i, early, rfl⟩ := List.mem_map.mp asked
    exact unknown i (List.mem_range.mp early)

/-! ### Histories -/

/-- The packets of the client have room in its array; a SUBSCRIBE that the access check
refuses needs none. -/
def HasPlace (cfg : Config) (run : Run) : TableAction → Prop
  | .subscribe c sub answers => ∀ p ∈ run.state.clients c,
      (∀ i < sub.numFilters, allowed cfg answers.db p .sub (filterOf sub i) = true) → HasRoom p sub
  | .unsubscribe c sub _ => ∀ p ∈ run.state.clients c, HasSpare p sub
  | _ => True

/-- No call touches an element behind an array: after any number of turns of the loops none
has been touched, and `worker_rm_client` goes over the entries. -/
def KeepsInside (cfg : Config) (run : Run) : TableAction → Prop
  | .subscribe c sub answers => ∀ p ∈ run.state.clients c,
      (∀ i < sub.numFilters, allowed cfg answers.db p .sub (filterOf sub i) = true) →
        ∀ m ≤ sub.numFilters,
          Inside (Cmd.each (subscribeOne c sub) (List.range m)) (run.state.handing c p sub answers)
  | .unsubscribe c sub answers => ∀ p ∈ run.state.clients c, ∀ m ≤ sub.numFilters,
      Inside (unsubscribeEach c sub (List.range m)) (run.state.handing c p sub answers)
  | .remove c _ _ => ∀ p ∈ run.state.clients c, ∀ i ∈ List.range p.numSubs, i < maxSubs
  | .accept _ _ _ => True

instance (p : Client) (sub : SubscribeSt) : Decidable (HasRoom p sub) :=
  inferInstanceAs (Decidable (_ ≤ _))

instance (p : Client) (sub : SubscribeSt) : Decidable (HasSpare p sub) :=
  inferInstanceAs (Decidable (_ ∨ _))

instance (cfg : Config) (run : Run) : ∀ action, Decidable (HasPlace cfg run action)
  | .subscribe c _ _ => inferInstanceAs (Decidable (∀ p ∈ run.state.clients c, _))
  | .unsubscribe c _ _ => inferInstanceAs (Decidable (∀ p ∈ run.state.clients c, _))
  | .accept _ _ _ => isTrue trivial
  | .remove _ _ _ => isTrue trivial

theorem Bounded.handing (bounded : Bounded b) (present : b.clients c = some p) (sub : SubscribeSt)
    (answers : Answers) : Bounded (b.handing c p sub answers) :=
  bounded.update rfl (bounded c p present)

/-- A call for which there is room stays inside. -/
theorem Bounded.keepsInside {run : Run} {action : TableAction} (bounded : Bounded run.state)
    (fits : HasPlace cfg run action) : KeepsInside cfg run action := by
  cases action with
  | accept isTls isWs ipAddress => trivial
  | subscribe c sub answers =>
      intro p present grants m before
      exact subscribe_inside (bounded.handing present sub answers) (handing_present _ _ _ _ _)
        (fits p present grants) before
  | unsubscribe c sub answers =>
      intro p present m before
      exact unsubscribe_inside (bounded.handing present sub answers) (handing_present _ _ _ _ _)
        (fits p present) before
  | remove c reason answers =>
      intro p present i inside
      exact (List.mem_range.mp inside).trans_le (bounded c p present)

/-- Where the trie agrees with the arrays, the room is needed. -/
theorem Linked.hasPlace_of_keepsInside {run : Run} {action : TableAction} (linked : Linked w run.state)
    (inside : KeepsInside cfg run action) : HasPlace cfg run action := by
  have bounded : Bounded run.state := fun d q found => (linked.clients d q found).2.2
  cases action with
  | accept isTls isWs ipAddress => trivial
  | subscribe c sub answers =>
      intro p present grants
      have written := linked.handing present sub answers
      obtain ⟨here, -⟩ := linked.clients c p present
      subst w
      have room : HasRoom { p with session.subscribe := sub } sub :=
        hasRoom_of_inside written.consistent (handing_present _ _ _ _ _)
          (inside p present grants _ (Nat.le_refl _))
      exact room
  | unsubscribe c sub answers =>
      intro p present
      have spare : HasSpare { p with session.subscribe := sub } sub :=
        hasSpare_of_inside (bounded.handing present sub answers) (handing_present _ _ _ _ _)
          (inside p present)
      exact spare
  | remove c reason answers => trivial

theorem Inside.bind {Value Result : Type} {first : Code Value} {rest : Value → Code Result}
    (inside : Inside first b) (keeps : ∀ value d, Bounded d → Bounded ((rest value).run d).2) :
    Bounded ((first >>= rest).run b).2 := by
  unfold Inside at inside
  rw [Cmd.run_bind]
  cases outcome : first.run b with
  | mk result d =>
      rw [outcome] at inside
      cases result with
      | ok value => exact keeps value d inside
      | error fault => exact inside.2

/-- The callback of a SUBSCRIBE, when the loop over its filters stays inside. -/
theorem Bounded.onRecvSubscribe (bounded : Bounded b) (present : b.clients c = some p)
    (inside : (∀ i < p.session.subscribe.numFilters,
        allowed cfg b.answers.db p .sub (filterOf p.session.subscribe i) = true) →
      Inside (Cmd.each (subscribeOne c p.session.subscribe) (List.range p.session.subscribe.numFilters)) b) :
    Bounded ((onRecvSubscribe cfg c).run b).2 := by
  by_cases counted : p.session.subscribe.numFilters ≤ maxSubs
  · cases grants : (List.range p.session.subscribe.numFilters).all fun i =>
        allowed cfg b.answers.db p .sub (filterOf p.session.subscribe i) with
    | true =>
        rw [onRecvSubscribe_allowed present counted grants]
        refine (inside (by simpa using grants)).bind fun _ d bounded => ?_
        split
        · exact bounded
        · rename_i encoded
          have answers : (contract cfg true .talk c).Holds _ (reply cfg c _) d := holds_reply (.inl rfl)
            (.plain (headerOf_encodeSuback encoded) (by decide)) (.inl rfl)
          exact bounded.holds answers
    | false =>
        rw [onRecvSubscribe_refused present counted grants]
        have closing : (contract cfg true .talk c).Holds _ (cDisconnect cfg c (lit "auth sub failed")) b :=
          cDisconnect_keeps _ b (.inl rfl)
        have returns : (contract cfg true .talk c).Holds (fun _ => True)
            (cDisconnect cfg c (lit "auth sub failed") >>= fun _ => pure 1) b :=
          closing.bind fun _ _ _ _ => .pure trivial
        exact bounded.holds returns
  · rw [Broker.onRecvSubscribe, Cmd.bind_ok (client_run present), Cmd.bind_ok (database_run b)]
    simp only [assert, counted, decide_false]
    exact bounded

theorem Bounded.onRecvUnsubscribe (bounded : Bounded b) (present : b.clients c = some p)
    (inside : Inside (unsubscribeEach c p.session.subscribe (List.range p.session.subscribe.numFilters)) b) :
    Bounded ((onRecvUnsubscribe cfg c).run b).2 := by
  rw [Broker.onRecvUnsubscribe, Cmd.bind_ok (client_run present)]
  by_cases counted : p.session.subscribe.numFilters ≤ maxSubs
  · dsimp only
    rw [Cmd.bind_ok (assert_run (decide_eq_true counted) b)]
    refine inside.bind fun _ d bounded => ?_
    have answers : (contract cfg true .talk c).Holds _
        (reply cfg c (encodeUnsuback p.session.subscribe.packetId)) d :=
      holds_reply (.inl rfl) (.plain (headerOf_encodeUnsuback _) (by decide)) (.inl rfl)
    exact bounded.holds answers
  · simp only [assert, counted, decide_false]
    exact bounded

theorem Bounded.step {run next : Run} {action : TableAction} (bounded : Bounded run.state)
    (fits : HasPlace cfg run action) (stepped : tableStep cfg w run action = some next) :
    Bounded next.state := by
  have inside := bounded.keepsInside fits
  have step := tableStep_cases stepped
  generalize next.state = d at step ⊢
  cases step with
  | accept isTls isWs ipAddress => exact bounded.update (c := run.state.nextClient) rfl (Nat.zero_le _)
  | @subscribe c p present sub answers =>
      refine (bounded.handing present sub answers).onRecvSubscribe (handing_present _ _ _ _ _) fun grants => ?_
      exact inside p present grants _ (Nat.le_refl _)
  | @unsubscribe c p present sub answers =>
      exact (bounded.handing present sub answers).onRecvUnsubscribe (handing_present _ _ _ _ _)
        (inside p present _ (Nat.le_refl _))
  | @remove c p present reason answers =>
      have asked : Bounded { run.state with answers } := bounded
      have closing : (contract cfg true .talk c).Holds _ (cUnbind cfg c reason)
          { run.state with answers } := cUnbind_keeps reason _ (.inl rfl)
      exact asked.holds closing

private theorem bounded_reachable {run : Run} (reached : ((tableUses cfg w).restrict (HasPlace cfg)).Reachable run) :
    Bounded run.state := by
  have initially : ∀ run, ((tableUses cfg w).restrict (HasPlace cfg)).init run → Bounded run.state := by
    intro run initial
    rw [show run = start from initial]
    intro c p found
    simp [start] at found
  have preserved : ∀ run action next, ((tableUses cfg w).restrict (HasPlace cfg)).Reachable run →
      Bounded run.state → ((tableUses cfg w).restrict (HasPlace cfg)).step run action = some next →
      Bounded next.state := by
    intro run action next _ bounded stepped
    obtain ⟨fits, stepped⟩ := System.restrict_step.mp stepped
    exact bounded.step fits stepped
  exact reached.invariant initially preserved

/-- In every history in which each packet has room in the array of its client, no array holds
more than `MAX_SUBS` entries and no call for which there is room touches an element behind one.
Where the trie agrees with the arrays, this is all that has room. -/
theorem arrays_stay_inside {run : Run} (reached : ((tableUses cfg w).restrict (HasPlace cfg)).Reachable run) :
    Bounded run.state ∧ ∀ action, (HasPlace cfg run action → KeepsInside cfg run action) ∧
      (Linked w run.state → KeepsInside cfg run action → HasPlace cfg run action) :=
  ⟨bounded_reachable reached, fun _ =>
    ⟨fun fits => (bounded_reachable reached).keepsInside fits, fun linked inside =>
      linked.hasPlace_of_keepsInside inside⟩⟩

/-- A client fills its array, in two packets, and takes an entry that it does not have out. -/
theorem arrays_stay_inside_filled :
    ∃ run, ((tableUses (oneWorker true) 0).restrict (HasPlace (oneWorker true))).run start
        [.accept false false [],
          .subscribe 0 (filtering [lit "a", lit "b", lit "c", lit "d", lit "e", lit "f", lit "g"]) silent,
          .subscribe 0 (filtering [lit "g", lit "h", lit "i", lit "j", lit "k", lit "l"]) silent] = some run ∧
      Bounded run.state ∧
      KeepsInside (oneWorker true) run (.unsubscribe 0 (filtering [lit "m"]) silent) := by
  have ran : (((tableUses (oneWorker true) 0).restrict (HasPlace (oneWorker true))).run start
      [.accept false false [],
        .subscribe 0 (filtering [lit "a", lit "b", lit "c", lit "d", lit "e", lit "f", lit "g"]) silent,
        .subscribe 0 (filtering [lit "g", lit "h", lit "i", lit "j", lit "k", lit "l"]) silent]).map
      (fun run => decide (HasPlace (oneWorker true) run (.unsubscribe 0 (filtering [lit "m"]) silent))) =
      some true := by
    decide +kernel
  obtain ⟨run, ends, fits⟩ := Option.map_eq_some_iff.mp ran
  obtain ⟨bounded, inside⟩ := arrays_stay_inside (System.Reachable.run (.start rfl) ends)
  exact ⟨run, ends, bounded, (inside _).1 (of_decide_eq_true fits)⟩

/-- Whether code stopped behind an array. -/
def stopsOutside {Value : Type} : Except Fault Value × State → Bool
  | (.error .outOfBounds, _) => true
  | _ => false

private theorem not_inside {Value : Type} {command : Code Value} (stops : stopsOutside (command.run b) = true) :
    ¬ Inside command b := by
  intro inside
  unfold Inside at inside
  generalize command.run b = result at stops inside
  unfold stopsOutside at stops
  split at stops
  · exact inside.1 rfl
  · simp at stops

/-- With the array full, one more filter is written behind it, and taking a filter out reads
behind it. -/
theorem arrays_left :
    ∃ run, (tableUses (oneWorker true) 0).run start
        [.accept false false [],
          .subscribe 0 (filtering [lit "a", lit "b", lit "c", lit "d", lit "e", lit "f"]) silent,
          .subscribe 0 (filtering [lit "g", lit "h", lit "i", lit "j", lit "k", lit "l"]) silent] = some run ∧
      ¬ KeepsInside (oneWorker true) run (.subscribe 0 (filtering [lit "m"]) silent) ∧
      ¬ KeepsInside (oneWorker true) run (.unsubscribe 0 (filtering [lit "a"]) silent) := by
  have ran : ((tableUses (oneWorker true) 0).run start
      [.accept false false [],
        .subscribe 0 (filtering [lit "a", lit "b", lit "c", lit "d", lit "e", lit "f"]) silent,
        .subscribe 0 (filtering [lit "g", lit "h", lit "i", lit "j", lit "k", lit "l"]) silent]).map
      (fun run => (run.state.clients 0).map fun p =>
        (stopsOutside ((Cmd.each (subscribeOne 0 (filtering [lit "m"])) (List.range 1)).run
            (run.state.handing 0 p (filtering [lit "m"]) silent)),
          stopsOutside ((unsubscribeEach 0 (filtering [lit "a"]) (List.range 1)).run
            (run.state.handing 0 p (filtering [lit "a"]) silent)))) = some (some (true, true)) := by
    decide +kernel
  obtain ⟨run, ends, seen⟩ := Option.map_eq_some_iff.mp ran
  obtain ⟨p, present, stops⟩ := Option.map_eq_some_iff.mp seen
  obtain ⟨written, read⟩ := Prod.mk.inj stops
  refine ⟨run, ends, fun inside => ?_, fun inside => ?_⟩
  · exact not_inside written (inside p present (fun _ _ => rfl) 1 (Nat.le_refl 1))
  · exact not_inside read (inside p present 1 (Nat.le_refl 1))

end FbBroker.Broker
