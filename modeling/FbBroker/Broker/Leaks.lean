import FbBroker.Broker.Drafts

/-!
Contract: the messages of a run and their release.

Owns an audit of the runs, which counts the messages that were created for
PUBLISHes and lists those that `w_gc` freed, and the condition on the steps
under which every message of a PUBLISH is freed once. The messages of the broker
itself belong to a pseudo client without a worker, so no worker ever puts them
on its `gc_q`: they are never freed.

Does not own early release: a message that is freed is counted as such whether
or not another worker still holds it.
-/

set_option autoImplicit false

namespace FbBroker.Broker

open FbBroker.Lib FbBroker.Packet FbBroker.Parser FbBroker.TrieMult FbBroker.Routing

variable {cfg : Config} {closes : Bool} {c : ClientId} {b : State} {p : Client} {freed : List MsgId}
  {w : Nat} {b' : State}

/-! ### The audit -/

/-- A run, the messages created for the PUBLISHes of each client, and the messages
that were freed. -/
structure Audit where
  run : Run
  created : ClientId → Nat
  freed : List MsgId

/-- The message a round of `w_gc` frees. -/
def frees (cfg : Config) (w : Nat) (b : State) : Option MsgId :=
  match b.gcQ w with
  | [] => none
  | m :: _ =>
      match b.messages m with
      | some mp => if messageDone cfg mp then some m else none
      | none => none

/-- What a step adds to the audit. -/
def Audit.next (cfg : Config) (audit : Audit) (run : Run) : Action → Audit
  | .parse c buf answers =>
      { audit with
        run
        created := Function.update audit.created c
          (audit.created c + Broker.created cfg c buf { audit.run.state with answers }) }
  | .gc w => { audit with run, freed := audit.freed ++ (frees cfg w audit.run.state).toList }
  | _ => { audit with run }

def auditStart : Audit :=
  ⟨start, fun _ => 0, []⟩

def audited (cfg : Config) : System Audit Action where
  init audit := audit = auditStart
  step audit action := (step cfg audit.run action).map fun run => audit.next cfg run action

/-- The broker runs, all queues have been worked off, and no client is in the
middle of a PUBLISH. -/
structure Idle (cfg : Config) (run : Run) : Prop where
  going : run.ended = false
  msgQ : ∀ w < cfg.numWorkers, run.state.msgQ w = []
  gcQ : ∀ w < cfg.numWorkers, run.state.gcQ w = []
  between : ∀ c p, run.state.clients c = some p → ∀ state, p.session.state ≠ .publish state

/-- Every message that was created for a PUBLISH has been queued, and every message
that was queued, for a PUBLISH or an event, has been freed exactly once. -/
structure AllFreed (audit : Audit) : Prop where
  queued : ∀ c, audit.created c = published audit.run.state c
  once : ∀ m < audit.run.state.nextMsg, audit.freed.count m = 1

/-! ### Where messages are -/

/-- A message of a PUBLISH is on the `gc_q` of a worker or waits for the worker of
its publisher; the other messages are on no `gc_q`. -/
structure Kept (cfg : Config) (freed : List MsgId) (b : State) : Prop where
  homes : ∀ c w, (b.clients c).map Client.worker = some w → w < cfg.numWorkers
  known : ∀ m mp, b.messages m = some mp → m < b.nextMsg
  freed : ∀ m, m ∈ freed ↔ m < b.nextMsg ∧ b.messages m = none
  filed : ∀ w m, m ∈ b.gcQ w → m < b.nextMsg ∧
    ∀ mp, b.messages m = some mp → ∃ c, mp.owner = .client c
  kept : ∀ m mp c, b.messages m = some mp → mp.owner = .client c → ∃ w < cfg.numWorkers,
    m ∈ b.gcQ w ∨ m ∈ b.msgQ w ∧ (b.clients c).map Client.worker = some w

namespace Kept

/-- Only the queues and the workers of the clients matter. -/
theorem congr (same : SameQueues b b') (kept : Kept cfg freed b) : Kept cfg freed b' where
  homes c w home := kept.homes c w (same.workers c ▸ home)
  known m mp found := by
    rw [same.nextMsg]
    exact kept.known m mp (same.messages ▸ found)
  freed m := by
    rw [same.nextMsg, same.messages]
    exact kept.freed m
  filed w m member := by
    rw [same.nextMsg, same.messages]
    exact kept.filed w m (same.gcQ ▸ member)
  kept m mp c found owner := by
    rw [same.gcQ, same.msgQ, same.workers]
    exact kept.kept m mp c (same.messages ▸ found) owner

theorem answers (kept : Kept cfg freed b) (answers : Answers) : Kept cfg freed { b with answers } :=
  congr (b := b) ⟨rfl, rfl, rfl, rfl, fun _ => rfl⟩ kept

/-- A message that is queued. -/
theorem queue {owner : Owner} {mp : Message} (kept : Kept cfg freed b)
    (home : ∀ c, owner = .client c → ∃ w, (b.clients c).map Client.worker = some w) :
    Kept cfg freed (b.queueMessage cfg owner mp) where
  homes := kept.homes
  known m rec found := by
    by_cases new : m = b.nextMsg
    · simp [State.queueMessage, new]
    · exact Nat.lt_succ_of_lt (kept.known m rec (by simpa [State.queueMessage, new] using found))
  freed m := by
    rw [kept.freed m]
    by_cases new : m = b.nextMsg
    · simp [State.queueMessage, new]
    · simp only [State.queueMessage, Function.update_of_ne new]
      constructor
      · intro away
        exact ⟨Nat.lt_succ_of_lt away.1, away.2⟩
      · intro away
        exact ⟨Nat.lt_of_le_of_ne (Nat.le_of_lt_succ away.1) new, away.2⟩
  filed w m member := by
    obtain ⟨old, owned⟩ := kept.filed w m member
    have different : m ≠ b.nextMsg := Nat.ne_of_lt old
    refine ⟨Nat.lt_succ_of_lt old, fun rec found => owned rec ?_⟩
    simpa [State.queueMessage, different] using found
  kept m rec c found isOwner := by
    by_cases new : m = b.nextMsg
    · subst m
      have owned : owner = .client c := by
        have same : b.freshMessage cfg owner mp = rec := by
          simpa [State.queueMessage] using found
        exact (congrArg MsgRec.owner same).trans isOwner
      obtain ⟨w, here⟩ := home c owned
      have worker := kept.homes c w here
      exact ⟨w, worker, .inr ⟨by simp [State.queueMessage, worker], here⟩⟩
    · obtain ⟨w, worker, place⟩ := kept.kept m rec c (by simpa [State.queueMessage, new] using found) isOwner
      refine ⟨w, worker, place.imp_right fun waits => ⟨?_, waits.2⟩⟩
      simp [State.queueMessage, worker, waits.1]

/-- A client of whom nothing waits is closed. -/
theorem close (kept : Kept cfg freed b) (silence : quiet cfg c b = true)
    (clients : b'.clients = Function.update b.clients c none) (msgQ : b'.msgQ = b.msgQ)
    (gcQ : b'.gcQ = b.gcQ) (messages : b'.messages = b.messages) (nextMsg : b'.nextMsg = b.nextMsg) :
    Kept cfg freed b' := by
  have others : ∀ d w, (b'.clients d).map Client.worker = some w →
      (b.clients d).map Client.worker = some w := by
    intro d w here
    rw [clients] at here
    by_cases same : d = c
    · simp [same] at here
    · simpa [same] using here
  constructor
  · exact fun d w here => kept.homes d w (others d w here)
  · rw [messages, nextMsg]
    exact kept.known
  · rw [messages, nextMsg]
    exact kept.freed
  · rw [gcQ, messages, nextMsg]
    exact kept.filed
  · intro m mp d found owner
    rw [messages] at found
    obtain ⟨w, worker, place⟩ := kept.kept m mp d found owner
    refine ⟨w, worker, ?_⟩
    rw [gcQ, msgQ]
    refine place.imp_right fun ⟨waiting, here⟩ => ⟨waiting, ?_⟩
    have other : d ≠ c := by
      intro mine
      exact quiet_iff.mp silence w worker m waiting mp found (mine ▸ owner)
    simpa [clients, other] using here

theorem careful : Careful cfg (Kept cfg freed) where
  congr := congr
  change := by
    intro closes task c b b' working gentle change kept
    cases change with
    | client present updates => exact kept.congr (sameQueues_putClient present updates.worker)
    | @queue owner mp queues =>
        refine kept.queue fun d isClient => ?_
        subst isClient
        obtain ⟨p, present⟩ := Option.isSome_iff_exists.mp queues.2
        exact ⟨p.worker, by simp [present]⟩
    | retire serves =>
        obtain ⟨m, deliver⟩ := serves
        exact absurd deliver (working m)
    | close may present nodes subs =>
        exact kept.close (gentle.resolve_left (by simp [may])) rfl rfl rfl rfl rfl
    | _ => exact congr (b := b) ⟨rfl, rfl, rfl, rfl, fun _ => rfl⟩ kept

/-- A message has been taken off the queue of a worker, which collected it if it
is the worker of its publisher. -/
theorem deliver {m : MsgId} {rest : List MsgId} (kept : Kept cfg freed b)
    (queued : b.msgQ w = m :: rest) (msgQ : b'.msgQ = Function.update b.msgQ w rest)
    (workers : ∀ d, (b'.clients d).map Client.worker = (b.clients d).map Client.worker)
    (nextMsg : b'.nextMsg = b.nextMsg)
    (owners : ∀ m, (b'.messages m).map MsgRec.owner = (b.messages m).map MsgRec.owner)
    (grows : ∀ v n, n ∈ b.gcQ v → n ∈ b'.gcQ v)
    (new : ∀ v n, n ∈ b'.gcQ v → n ∈ b.gcQ v ∨ n = m ∧ ∃ c, (b.messages m).map MsgRec.owner = some (.client c))
    (collected : ∀ c, (b.messages m).map MsgRec.owner = some (.client c) →
      (b.clients c).map Client.worker = some w → m ∈ b'.gcQ w) : Kept cfg freed b' := by
  have before : ∀ n mp, b'.messages n = some mp → ∃ old, b.messages n = some old ∧ old.owner = mp.owner := by
    intro n mp found
    have same := owners n
    rw [found] at same
    exact Option.map_eq_some_iff.mp same.symm
  constructor
  · intro d v here
    exact kept.homes d v (workers d ▸ here)
  · intro n mp found
    obtain ⟨old, known, -⟩ := before n mp found
    exact nextMsg ▸ kept.known n old known
  · intro n
    have same : b'.messages n = none ↔ b.messages n = none := by
      rw [← Option.map_eq_none_iff (f := MsgRec.owner), owners n, Option.map_eq_none_iff]
    rw [nextMsg, same]
    exact kept.freed n
  · intro v n member
    rw [nextMsg]
    rcases new v n member with old | ⟨same, c, owner⟩
    · obtain ⟨known, owned⟩ := kept.filed v n old
      refine ⟨known, fun mp found => ?_⟩
      obtain ⟨rec, present, same⟩ := before n mp found
      exact same ▸ owned rec present
    · subst same
      obtain ⟨rec, present, isClient⟩ := Option.map_eq_some_iff.mp owner
      refine ⟨kept.known n rec present, fun mp found => ⟨c, ?_⟩⟩
      obtain ⟨rec', present', same⟩ := before n mp found
      obtain rfl : rec = rec' := Option.some.inj (present.symm.trans present')
      exact same.symm.trans isClient
  · intro n mp c found owner
    obtain ⟨old, present, same⟩ := before n mp found
    have isClient : old.owner = .client c := same.trans owner
    obtain ⟨v, worker, place⟩ := kept.kept n old c present isClient
    rcases place with filed | ⟨waiting, here⟩
    · exact ⟨v, worker, .inl (grows v n filed)⟩
    · by_cases taken : v = w ∧ n = m
      · obtain ⟨sameWorker, sameMessage⟩ := taken
        subst v n
        exact ⟨w, worker, .inl (collected c (by simp [present, isClient]) here)⟩
      · refine ⟨v, worker, .inr ⟨?_, (workers c).trans here⟩⟩
        rw [msgQ]
        by_cases sameWorker : v = w
        · subst v
          have different : n ≠ m := fun sameMessage => taken ⟨rfl, sameMessage⟩
          rw [queued] at waiting
          simpa [different] using waiting
        · simpa [sameWorker] using waiting

end Kept

/-- The search of a delivery in a table that agrees comes to an end, whatever the
message. -/
theorem wDeliverRound_kept {live : List (SubRef × List Byte)} (agrees : Agrees b w live)
    (bounded : ∀ c p, b.clients c = some p → c < b.nextClient ∧ p.numSubs ≤ maxSubs)
    (good : b.answers.Good) (kept : Kept cfg freed b) :
    Kept cfg freed ((wDeliverRound cfg w).run b).2 := by
  cases queued : b.msgQ w with
  | nil =>
      have popped : (wMessagePop w).run b = (.ok none, b) := by simp [wMessagePop, queued]
      rw [wDeliverRound, Cmd.bind_ok popped]
      exact kept
  | cons m rest =>
      let e : State := { b with msgQ := Function.update b.msgQ w rest }
      cases found : b.messages m with
      | none =>
          have popped : (wMessagePop w).run b = (.error .useAfterFree, e) := by
            simp [wMessagePop, queued, message, Cmd.run_bind, found, e]
          rw [wDeliverRound, Cmd.bind_error popped]
          exact kept.deliver queued rfl (fun _ => rfl) rfl (fun _ => rfl) (fun _ _ member => member)
            (fun _ _ member => .inl member) (by simp [found])
      | some mp =>
          have agrees' : Agrees e w live := ⟨agrees.holds, agrees.entries⟩
          obtain ⟨final, -, ⟨events, stamped⟩, searched⟩ := agrees'.holds.search_hits
            (serves_cDeliver cfg agrees' found) (agrees.length_le bounded)
            (zero_notMem_cstr mp.message.topic) ⟨[], Stamped.refl good⟩
          rw [subSearch_cstr] at searched
          rw [wDeliverRound_state cfg queued found searched,
            deliverDone_state w (stamped.messages ▸ found)]
          have workers : ∀ d, (final.clients d).map Client.worker = (b.clients d).map Client.worker := by
            intro d
            obtain ⟨msgId, same⟩ := stamped.clients d
            rw [same, Option.map_map]
            rfl
          have owners : ∀ n, ((final.putMessage m { mp with
              notDone := Function.update mp.notDone w false }).messages n).map MsgRec.owner =
              (b.messages n).map MsgRec.owner := by
            intro n
            by_cases same : n = m
            · simp [State.putMessage, same, found]
            · simp [State.putMessage, same, stamped.messages, e]
          have gcQ : final.gcQ = b.gcQ := stamped.gcQ
          dsimp only
          split
          · rename_i collecting
            refine kept.deliver queued stamped.msgQ workers stamped.nextMsg owners ?_ ?_ ?_
            · intro v n member
              by_cases same : v = w
              · simp [same, gcQ, same ▸ member]
              · simpa [same, gcQ] using member
            · intro v n member
              by_cases same : v = w
              · subst v
                have either : n ∈ b.gcQ w ∨ n = m := by simpa [gcQ] using member
                refine either.imp_right fun isMessage => ⟨isMessage, ?_⟩
                cases owner : mp.owner with
                | me worker => simp [collects, owner] at collecting
                | client c => exact ⟨c, by simp [found, owner]⟩
              · left
                simpa [same, gcQ] using member
            · intro c _ _
              simp
          · rename_i passing
            refine kept.deliver queued stamped.msgQ workers stamped.nextMsg owners ?_ ?_ ?_
            · intro v n member
              exact gcQ ▸ member
            · intro v n member
              exact .inl (gcQ ▸ member)
            · intro c owner here
              have isClient : mp.owner = .client c := by simpa [found] using owner
              exact absurd (by simp [collects, isClient, workers c, here]) passing

private theorem frees_eq_some {m : MsgId} (released : frees cfg w b = some m) :
    ∃ rest mp, b.gcQ w = m :: rest ∧ b.messages m = some mp ∧
      ((wGcRound cfg w).run b).2 = { b with
        gcQ := Function.update b.gcQ w rest, messages := Function.update b.messages m none } := by
  unfold frees at released
  cases queued : b.gcQ w with
  | nil => simp [queued] at released
  | cons n rest =>
      cases found : b.messages n with
      | none => simp [queued, found] at released
      | some mp =>
          obtain ⟨done, same⟩ : messageDone cfg mp = true ∧ n = m := by
            simpa [queued, found] using released
          subst n
          refine ⟨rest, mp, rfl, found, ?_⟩
          simp [wGcRound, queued, message, Cmd.run_bind, found, done]

private theorem frees_eq_none (keeps : frees cfg w b = none) : ((wGcRound cfg w).run b).2 = b := by
  unfold frees at keeps
  cases queued : b.gcQ w with
  | nil => simp [wGcRound, queued]
  | cons m rest =>
      cases found : b.messages m with
      | none => simp [wGcRound, queued, message, Cmd.run_bind, found]
      | some mp =>
          have waits : messageDone cfg mp = false := by simpa [queued, found] using keeps
          simp [wGcRound, queued, message, Cmd.run_bind, found, waits]

/-- The message at the head of a `gc_q` is freed. -/
theorem Kept.free {m : MsgId} {rest : List MsgId} {mp : MsgRec} (kept : Kept cfg freed b)
    (queued : b.gcQ w = m :: rest) (found : b.messages m = some mp) :
    Kept cfg (freed ++ [m]) { b with
      gcQ := Function.update b.gcQ w rest, messages := Function.update b.messages m none } := by
  have before : ∀ n rec, Function.update b.messages m none n = some rec →
      n ≠ m ∧ b.messages n = some rec := by
    intro n rec present
    by_cases same : n = m
    · simp [same] at present
    · exact ⟨same, by simpa [same] using present⟩
  refine ⟨kept.homes, ?_, ?_, ?_, ?_⟩
  · intro n rec present
    exact kept.known n rec (before n rec present).2
  · intro n
    by_cases same : n = m
    · simp [same, kept.known m mp found]
    · simpa [same] using kept.freed n
  · intro v n member
    have old : n ∈ b.gcQ v := by
      by_cases same : v = w
      · subst v
        rw [queued]
        exact List.mem_cons_of_mem m (by simpa using member)
      · simpa [same] using member
    obtain ⟨known, owned⟩ := kept.filed v n old
    exact ⟨known, fun rec present => owned rec (before n rec present).2⟩
  · intro n rec c present owner
    obtain ⟨different, present⟩ := before n rec present
    obtain ⟨v, worker, place⟩ := kept.kept n rec c present owner
    refine ⟨v, worker, place.imp_left fun filed => ?_⟩
    by_cases same : v = w
    · subst v
      rw [queued] at filed
      simpa [different] using filed
    · simpa [same] using filed

/-- A round of `w_gc` frees a message at most, and none twice. -/
theorem wGcRound_kept (w : Nat) (kept : Kept cfg freed b) (distinct : freed.Nodup) :
    Kept cfg (freed ++ (frees cfg w b).toList) ((wGcRound cfg w).run b).2 ∧
      (freed ++ (frees cfg w b).toList).Nodup := by
  cases released : frees cfg w b with
  | none =>
      rw [frees_eq_none released]
      simpa using ⟨kept, distinct⟩
  | some m =>
      obtain ⟨rest, mp, queued, found, runs⟩ := frees_eq_some released
      have fresh : m ∉ freed := by
        intro member
        simp [((kept.freed m).mp member).2] at found
      rw [runs]
      refine ⟨kept.free queued found, ?_⟩
      exact List.nodup_append.mpr ⟨distinct, List.nodup_singleton m, by
        intro n member other isMessage same
        exact fresh (List.mem_singleton.mp isMessage ▸ same ▸ member)⟩

/-! ### Runs -/

/-- Whether a round completes a CONNECT. -/
def roundConnects (cfg : Config) (c : ClientId) (b : State) (byte : Byte) : Bool :=
  match b.clients c with
  | none => false
  | some p =>
      match parsing cfg b p byte with
      | .call _ .connect => true
      | _ => false

/-- The worker's table agrees with the subscriptions of its clients, which have at
most `MAX_SUBS` each. -/
def TableAgrees (w : Nat) (b : State) : Prop :=
  (∃ live, Agrees b w live) ∧ ∀ c p, b.clients c = some p → p.numSubs ≤ maxSubs

/-- All writes are taken, `auth_acl` denies no PUBLISH, a client's session ends only
while none of its messages waits and none is being received, and the tables in
which deliveries are made agree with the subscriptions. -/
def Thrifty (cfg : Config) (audit : Audit) : Action → Prop
  | .accept _ _ _ _ => True
  | .parse c buf answers =>
      answers.Good ∧ Along cfg c (fun b byte => roundEnds cfg c b byte = true → quiet cfg c b = true)
        buf { audit.run.state with answers } ∧
      Along cfg c (fun b byte => roundDenied cfg c b byte = false) buf { audit.run.state with answers }
  | .drop c _ _ => quiet cfg c audit.run.state = true ∧ drafts audit.run.state c = 0
  | .deliver w answers => answers.Good ∧ TableAgrees w audit.run.state
  | .gc _ => True

/-- No CONNECT is completed. -/
def Unconnected (cfg : Config) (audit : Audit) : Action → Prop
  | .parse c buf answers =>
      Along cfg c (fun b byte => roundConnects cfg c b byte = false) buf { audit.run.state with answers }
  | _ => True

noncomputable instance (audit : Audit) (action : Action) : Decidable (Thrifty cfg audit action) :=
  Classical.propDecidable _

instance (audit : Audit) : ∀ action, Decidable (Unconnected cfg audit action)
  | .parse c buf answers =>
      decidableAlong cfg c (fun b byte => roundConnects cfg c b byte = false) buf
        { audit.run.state with answers }
  | .accept _ _ _ _ => isTrue trivial
  | .drop _ _ _ => isTrue trivial
  | .deliver _ _ => isTrue trivial
  | .gc _ => isTrue trivial

/-- What the audit says of the state. -/
structure Balanced (cfg : Config) (audit : Audit) : Prop where
  kept : Kept cfg audit.freed audit.run.state
  distinct : audit.freed.Nodup
  drafts : audit.run.ended = false →
    ∀ c, audit.created c = published audit.run.state c + drafts audit.run.state c

theorem Sound.fresh (sound : Sound b) : b.clients b.nextClient = none := by
  by_contra there
  obtain ⟨p, present⟩ := Option.ne_none_iff_exists'.mp there
  exact Nat.lt_irrefl _ (sound.known b.nextClient p present)

theorem Kept.accept (kept : Kept cfg freed b) (sound : Sound b) (worker : w < cfg.numWorkers)
    (isTls isWs : Bool) (ipAddress : List Byte) :
    Kept cfg freed ((workersAddClient w isTls isWs ipAddress).run b).2 := by
  refine ⟨fun c v here => ?_, kept.known, kept.freed, kept.filed, fun m mp c found owner => ?_⟩
  · by_cases same : c = b.nextClient
    · have isWorker : w = v := by simpa [workersAddClient, same, cNew] using here
      exact isWorker ▸ worker
    · exact kept.homes c v (by simpa [workersAddClient, same] using here)
  · obtain ⟨v, isWorker, place⟩ := kept.kept m mp c found owner
    refine ⟨v, isWorker, place.imp_right fun waits => ⟨waits.1, ?_⟩⟩
    have here := waits.2
    have different : c ≠ b.nextClient := by
      intro same
      simp [same, sound.fresh] at here
    simpa [workersAddClient, different] using here

private theorem drafts_accept (sound : Sound b) (w : Nat) (isTls isWs : Bool) (ipAddress : List Byte)
    (c : ClientId) : drafts ((workersAddClient w isTls isWs ipAddress).run b).2 c = drafts b c := by
  by_cases same : c = b.nextClient
  · subst same
    rw [drafts_none sound.fresh]
    simp [drafts, workersAddClient, cNew, mqttParserInit, PState.drafting]
  · simp [drafts, workersAddClient, same]

/-- Every client has published what it had and holds what it held. -/
def SameCounts (b b' : State) : Prop :=
  ∀ c, published b' c = published b c ∧ drafts b' c = drafts b c

private theorem wDeliverRound_counts (w : Nat) (calm : Calm b) : SameCounts b ((wDeliverRound cfg w).run b).2 := by
  have preserved : ∀ {c d d'}, Change cfg false (.deliver ((b.msgQ w).headD 0)) c d d' →
      SameCounts b d → SameCounts b d' := by
    intro c d d' change same e
    exact ⟨(change.published (by simp)).trans (same e).1, (change.drafts e).trans (same e).2⟩
  exact (holds_wDeliverRound w (.inr calm)).1.invariant preserved fun _ => ⟨rfl, rfl⟩

private theorem wGcRound_counts (w : Nat) : SameCounts b ((wGcRound cfg w).run b).2 := by
  have preserved : ∀ {d d'}, Change cfg false (.deliver 0) 0 d d' → SameCounts b d → SameCounts b d' := by
    intro d d' change same e
    exact ⟨(change.published (by simp)).trans (same e).1, (change.drafts e).trans (same e).2⟩
  exact (wGcRound_evolves w 0 b).invariant preserved fun _ => ⟨rfl, rfl⟩

/-- A step that meets the condition keeps the balance. -/
theorem balanced_step {audit : Audit} {next : Run} {action : Action} (sound : Sound audit.run.state)
    (going : audit.run.ended = false) (balanced : Balanced cfg audit)
    (thrifty : Thrifty cfg audit action) (steps : Steps cfg audit.run.state action next) :
    Balanced cfg (audit.next cfg next action) := by
  have counted := balanced.drafts going
  cases steps with
  | @accept w isTls isWs ipAddress worker =>
      refine ⟨?_, balanced.distinct, fun _ c => ?_⟩
      · show Kept cfg audit.freed (after _ _).state
        rw [after_state]
        exact balanced.kept.accept sound worker _ _ _
      · show audit.created c = published (after _ _).state c + drafts (after _ _).state c
        rw [after_state, drafts_accept sound]
        exact counted c
  | @parse c buf answers p present =>
      obtain ⟨good, gentle, granted⟩ := thrifty
      have sound : Sound { audit.run.state with answers } := sound.answers answers
      have there : (({ audit.run.state with answers } : State).clients c).isSome :=
        Option.isSome_iff_exists.mpr ⟨p, present⟩
      refine ⟨?_, balanced.distinct, fun goesOn d => ?_⟩
      · show Kept cfg audit.freed (after _ _).state
        rw [after_state]
        exact Kept.careful.cParse sound there good.taken (balanced.kept.answers answers) gentle
      · show Function.update audit.created c _ d = published (after _ _).state d + drafts (after _ _).state d
        rw [after_state]
        by_cases same : d = c
        · subst d
          rw [Function.update_self, counted c]
          exact (balance_cParse sound there good granted goesOn).symm
        · have unchanged : Same d { audit.run.state with answers }
              ((cParse cfg c buf).run { audit.run.state with answers }).2 := same_cParse same sound there
          rw [Function.update_of_ne same, counted d, unchanged.2]
          unfold drafts
          rw [unchanged.1]
          rfl
  | @drop c reason answers p present =>
      obtain ⟨silence, empty⟩ := thrifty
      have regular := (sound.answers answers).regular
      have chain : Evolves cfg true .idle c { audit.run.state with answers } _ :=
        cDisconnect_evolves reason _
      refine ⟨?_, balanced.distinct, fun goesOn d => ?_⟩
      · show Kept cfg audit.freed (after _ _).state
        rw [after_state]
        exact Kept.careful.cDisconnect (balanced.kept.answers answers) silence reason
      · show audit.created d = published (after _ _).state d + drafts (after _ _).state d
        rw [after_state, counted d, chain.published (by simp)]
        by_cases same : d = c
        · subst d
          rw [drafts_none (cDisconnect_gone regular reason goesOn), empty]
          rfl
        · unfold drafts
          rw [chain.other same]
          rfl
  | @deliver w answers worker =>
      obtain ⟨good, ⟨live, agrees⟩, few⟩ := thrifty
      have agrees : Agrees { audit.run.state with answers } w live := ⟨agrees.holds, agrees.entries⟩
      have sound : Sound { audit.run.state with answers } := sound.answers answers
      refine ⟨?_, balanced.distinct, fun _ d => ?_⟩
      · show Kept cfg audit.freed (after _ _).state
        rw [after_state]
        exact wDeliverRound_kept agrees (fun c p found => ⟨sound.known c p found, few c p found⟩) good
          (balanced.kept.answers answers)
      · show audit.created d = published (after _ _).state d + drafts (after _ _).state d
        have same : SameCounts { audit.run.state with answers } ((wDeliverRound cfg w).run _).2 :=
          wDeliverRound_counts w ⟨good.taken, sound.regular⟩
        obtain ⟨samePublished, sameDrafts⟩ := same d
        rw [after_state, samePublished, sameDrafts]
        exact counted d
  | @gc w worker =>
      obtain ⟨kept, distinct⟩ := wGcRound_kept w balanced.kept balanced.distinct
      refine ⟨?_, distinct, fun _ d => ?_⟩
      · show Kept cfg _ (after _ _).state
        rw [after_state]
        exact kept
      · show audit.created d = published (after _ _).state d + drafts (after _ _).state d
        have same : SameCounts audit.run.state ((wGcRound cfg w).run _).2 := wGcRound_counts w
        obtain ⟨samePublished, sameDrafts⟩ := same d
        rw [after_state, samePublished, sameDrafts]
        exact counted d

private theorem audited_step {audit next : Audit} {action : Action}
    (stepped : (audited cfg).step audit action = some next) :
    audit.run.ended = false ∧ Steps cfg audit.run.state action next.run ∧
      next = audit.next cfg next.run action := by
  obtain ⟨run, runs, same⟩ := Option.map_eq_some_iff.mp stepped
  have isRun : next.run = run := by
    rw [← same]
    cases action <;> rfl
  obtain ⟨going, steps⟩ := step_steps runs
  exact ⟨going, isRun ▸ steps, isRun ▸ same.symm⟩

private theorem audited_sound {audit : Audit} (reached : (audited cfg).Reachable audit) :
    Sound audit.run.state := by
  have initially : ∀ audit, (audited cfg).init audit → Sound audit.run.state := by
    intro audit initial
    obtain rfl : audit = auditStart := initial
    have reached : (broker cfg).Reachable start := .start rfl
    exact reachable_sound reached
  exact reached.invariant initially fun audit action next _ sound stepped =>
    sound_steps sound (audited_step stepped).2.1

private theorem balanced_reached {audit : Audit}
    (reached : ((audited cfg).restrict (Thrifty cfg)).Reachable audit) : Balanced cfg audit := by
  have initially : ∀ audit, ((audited cfg).restrict (Thrifty cfg)).init audit → Balanced cfg audit := by
    intro audit initial
    obtain rfl : audit = auditStart := initial
    refine ⟨⟨?_, ?_, ?_, ?_, ?_⟩, List.nodup_nil, ?_⟩ <;>
      simp [auditStart, start, published, drafts]
  refine reached.invariant initially fun audit action next reached balanced stepped => ?_
  obtain ⟨thrifty, stepped⟩ := System.restrict_step.mp stepped
  obtain ⟨going, steps, same⟩ := audited_step stepped
  rw [same]
  exact balanced_step (audited_sound reached.of_restrict) going balanced thrifty steps

/-! ### Events -/

/-- Nobody is connected, and no message is about an event. -/
structure NoEvents (b : State) : Prop where
  apart : ∀ c p, b.clients c = some p → p.state ≠ .connected
  none : ∀ m mp w, b.messages m = some mp → mp.owner ≠ .me w

namespace NoEvents

theorem change {task : Task} (working : ∀ d, ¬ task.Connects d)
    (change : Change cfg closes task c b b') (quiet : NoEvents b) : NoEvents b' := by
  refine ⟨fun d p' found => ?_, fun m mp w found => ?_⟩
  · obtain ⟨p, present, updates⟩ := change.client_before found
    rcases updates.state with same | ⟨connects, -⟩
    · exact same ▸ quiet.apart d p present
    · exact absurd connects (working d)
  · cases change with
    | @queue owner message queues =>
        by_cases new : m = b.nextMsg
        · subst m
          have same : b.freshMessage cfg owner message = mp := by
            simpa [State.queueMessage] using found
          intro isEvent
          have owned : owner = .me w := by
            exact (congrArg MsgRec.owner same).trans isEvent
          subst owned
          obtain ⟨-, p, present, connected⟩ := queues
          exact quiet.apart c p present connected
        · exact quiet.none m mp w (by simpa [State.queueMessage, new] using found)
    | retire serves fewer kept =>
        obtain ⟨old, before, sameOwner, -⟩ := kept m mp found
        exact sameOwner ▸ quiet.none m old w before
    | _ => exact quiet.none m mp w found

theorem putClient {p' : Client} (quiet : NoEvents b) (apart : p'.state ≠ .connected) :
    NoEvents (b.putClient c p') := by
  refine ⟨fun d q found => ?_, quiet.none⟩
  by_cases same : d = c
  · subst d
    obtain rfl : p' = q := by simpa [State.putClient] using found
    exact apart
  · exact quiet.apart d q (by simpa [State.putClient, same] using found)

theorem round {byte : Byte} (sound : Sound b) (there : (b.clients c).isSome) (quiet : NoEvents b)
    (unconnected : roundConnects cfg c b byte = false) :
    RoundEnds NoEvents NoEvents (fun _ => NoEvents) ((parserRound cfg c byte).run b) := by
  obtain ⟨p, present⟩ := Option.isSome_iff_exists.mp there
  have round := sound.round present cfg byte
  have parsed : ∀ s, NoEvents (b.parsed c p s) := by
    intro s
    have asked : NoEvents { b with answers.mallocs := b.answers.mallocs.tail } :=
      ⟨quiet.apart, quiet.none⟩
    exact asked.putClient (quiet.apart c p present)
  have called : ∀ {s request d}, parsing cfg b p byte = .call s request →
      Evolves cfg true (taskOf c s request) c (b.parsed c p s) d → NoEvents d := by
    intro s request d parses chain
    have other : request ≠ .connect := by
      intro isConnect
      subst isConnect
      simp [roundConnects, present, parses] at unconnected
    refine chain.invariant (NoEvents.change fun e => ?_) (parsed s)
    cases request with
    | connect => exact absurd rfl other
    | publish => cases drafted : s.publish.mp <;> simp [taskOf, drafted, Task.Connects]
    | _ => simp [taskOf, Task.Connects]
  generalize (parserRound cfg c byte).run b = outcome at round
  cases round with
  | next parses => exact parsed _
  | @refused s rv parses fails => exact ⟨fails, ⟨(parsed s).apart, (parsed s).none⟩⟩
  | @returned s request d p' parses chain decided found =>
      have later := called parses chain
      have apart : p'.state ≠ .connected := later.apart c p' found
      exact later.putClient apart
  | failed may parses chain => exact ⟨by decide, called parses chain⟩
  | broken parses chain fails => exact called parses chain
  | left may parses chain fails =>
      exact chain.invariant (NoEvents.change (by simp [Task.Connects])) (parsed _)
  | stopped other => exact ⟨quiet.apart, quiet.none⟩

theorem persistent : Persistent cfg NoEvents where
  answers _ quiet := ⟨quiet.apart, quiet.none⟩
  accept {b} w isTls isWs ipAddress quiet := by
    have new : (cNew w isTls isWs ipAddress).state ≠ .connected := by simp [cNew]
    have put := quiet.putClient (c := b.nextClient) new
    exact ⟨put.apart, put.none⟩
  change idle change quiet := by
    refine quiet.change (fun d => ?_) change
    rcases idle with rfl | ⟨m, rfl⟩ <;> simp [Task.Connects]

end NoEvents

/-! ### The balance of idle states -/

/-- In an idle state whatever is left is about an event. -/
theorem allFreed_iff {audit : Audit} (balanced : Balanced cfg audit) (idle : Idle cfg audit.run) :
    AllFreed audit ↔ ∀ m mp w, audit.run.state.messages m = some mp → mp.owner ≠ .me w := by
  constructor
  · intro all m mp w found _
    have once := all.once m (balanced.kept.known m mp found)
    have member : m ∈ audit.freed := List.count_pos_iff.mp (by rw [once]; decide)
    simp [((balanced.kept.freed m).mp member).2] at found
  · intro none
    refine ⟨fun c => ?_, fun m old => ?_⟩
    · rw [balanced.drafts idle.going c]
      cases present : audit.run.state.clients c with
      | none => rw [drafts_none present, Nat.add_zero]
      | some p =>
          have between := idle.between c p present
          have empty : p.session.state.drafting = false := by
            cases here : p.session.state with
            | publish state => exact absurd here (between state)
            | _ => rfl
          rw [drafts_some present, empty]
          rfl
    · have gone : audit.run.state.messages m = Option.none := by
        by_contra there
        obtain ⟨mp, found⟩ := Option.ne_none_iff_exists'.mp there
        cases owner : mp.owner with
        | me w => exact none m mp w found owner
        | client c =>
            obtain ⟨w, worker, place⟩ := balanced.kept.kept m mp c found owner
            rw [idle.gcQ w worker, idle.msgQ w worker] at place
            simp at place
      exact List.count_eq_one_of_mem balanced.distinct ((balanced.kept.freed m).mpr ⟨old, gone⟩)

/-- A run in which no client connects has no message about an event. -/
theorem noEvents_reached {audit : Audit}
    (reached : ((audited cfg).restrict (Unconnected cfg)).Reachable audit) :
    NoEvents audit.run.state := by
  have initially : ∀ audit, ((audited cfg).restrict (Unconnected cfg)).init audit →
      NoEvents audit.run.state := by
    intro audit initial
    obtain rfl : audit = auditStart := initial
    constructor <;> simp [auditStart, start]
  refine reached.invariant initially fun audit action next reached quiet stepped => ?_
  obtain ⟨unconnected, stepped⟩ := System.restrict_step.mp stepped
  refine NoEvents.persistent.steps (fun sound there quiet => quiet.round sound there)
    (audited_sound reached.of_restrict) quiet (fun c buf answers parses => ?_) (audited_step stepped).2.1
  subst parses
  exact unconnected

/-- The audit of a run. -/
def auditOf (cfg : Config) (actions : List Action) : Audit :=
  ((audited cfg).run auditStart actions).getD auditStart

/-- One more step of a run. -/
theorem auditOf_next {allowed : Audit → Action → Prop} [∀ audit action, Decidable (allowed audit action)]
    {actions : List Action} (action : Action)
    (reached : ((audited cfg).restrict allowed).Reachable (auditOf cfg actions))
    (meets : allowed (auditOf cfg actions) action)
    (runs : ((audited cfg).run auditStart (actions ++ [action])).isSome) :
    ((audited cfg).restrict allowed).Reachable (auditOf cfg (actions ++ [action])) := by
  obtain ⟨final, ran⟩ := Option.isSome_iff_exists.mp runs
  have ends : auditOf cfg (actions ++ [action]) = final := by simp [auditOf, ran]
  rw [System.run, List.foldlM_append] at ran
  obtain ⟨before, earlier, later⟩ := Option.bind_eq_some_iff.mp ran
  have here : auditOf cfg actions = before := by
    rw [auditOf, System.run, earlier]
    rfl
  rw [here] at reached meets
  rw [ends]
  exact reached.next (System.restrict_step.mpr ⟨meets, by simpa using later⟩)

private theorem auditOf_reachable {actions : List Action}
    (runs : ((audited cfg).run auditStart actions).isSome) :
    (audited cfg).Reachable (auditOf cfg actions) := by
  obtain ⟨final, ran⟩ := Option.isSome_iff_exists.mp runs
  have ends : auditOf cfg actions = final := by simp [auditOf, ran]
  rw [ends]
  exact System.Reachable.run (.start rfl) ran

/-- `Idle`, computed over the clients there have been. -/
def idleNow (cfg : Config) (run : Run) : Bool :=
  !run.ended &&
    (List.range cfg.numWorkers).all (fun w =>
      (run.state.msgQ w).isEmpty && (run.state.gcQ w).isEmpty) &&
    (List.range run.state.nextClient).all fun c =>
      match (run.state.clients c).map fun p => p.session.state with
      | some (PState.publish _) => false
      | _ => true

private theorem idle_of_idleNow {run : Run} (sound : Sound run.state) (now : idleNow cfg run = true) :
    Idle cfg run := by
  simp only [idleNow, Bool.and_eq_true, Bool.not_eq_true', List.all_eq_true, List.mem_range,
    List.isEmpty_iff] at now
  obtain ⟨⟨going, queues⟩, clients⟩ := now
  refine ⟨going, fun w worker => (queues w worker).1, fun w worker => (queues w worker).2, ?_⟩
  intro c p present state publishing
  have between := clients c (sound.known c p present)
  simp [present, publishing] at between

/-- A table without subscriptions. -/
theorem tableAgrees_empty (sound : Sound b) (empty : b.subs w = .nil)
    (unsubscribed : (List.range b.nextClient).all fun c =>
      (b.clients c).all fun p => p.numSubs == 0) : TableAgrees w b := by
  have none : ∀ c p, b.clients c = some p → p.numSubs = 0 := by
    intro c p present
    have here := List.all_eq_true.mp unsubscribed c (List.mem_range.mpr (sound.known c p present))
    simpa [present] using here
  refine ⟨⟨[], empty ▸ Holds.empty b.nodes, fun ref filter => ?_⟩, fun c p present => ?_⟩
  · constructor
    · intro member
      cases member
    · intro ⟨p, present, _, inside, _⟩
      rw [none ref.1 p present] at inside
      cases inside
  · rw [none c p present]
    exact Nat.zero_le _

/-- A client publishes without a CONNECT. -/
def publishAlone : List Action :=
  [.accept 0 false false [], .parse 0 ([0x30, 4, 0, 1] ++ lit "ax") silent]

end FbBroker.Broker
