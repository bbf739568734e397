import FbBroker.Broker.Effects

/-!
Contract: every function of the client code keeps the contract of its task.

One theorem per function, in the order of the code: queueing, closing, sending,
the callbacks. Where the code may close the client although all its writes are
taken, the theorem asks for the condition under which it does not.
-/

set_option autoImplicit false

namespace FbBroker.Broker

open FbBroker.Lib FbBroker.Packet FbBroker.Parser FbBroker.Dllist FbBroker.TrieMult
open FbBroker.Routing FbBroker.Auth

variable {cfg : Config} {closes : Bool} {task : Task} {c : ClientId} {b : State}
  {p : Client} {buf : List Byte} {sub : SubscribeSt}

/-! ### Queueing and closing -/

private theorem holds_workersQueueMessage {owner : Owner} {mp : Message} (queues : Queues task b c mp owner)
    (dup : closes = true ∨ mp.dup ≤ 1) :
    (contract cfg closes task c).Holds (fun _ => True) (workersQueueMessage cfg owner mp) b :=
  holds_assert_bind (dup.imp_right decide_eq_true) fun _ =>
    .modify (evolves_one (.queue queues)) trivial

/-- The system message that code of a worker queues about an event. -/
def State.announce (cfg : Config) (about : Event) (worker : Nat) (mp : Message) (b : State) : State :=
  ({ b with answers.mallocs := b.answers.mallocs.tail } : State).emit about
    |>.queueMessage cfg (.me worker) mp

theorem pubSys_run (about : Event) (worker topicLen : Nat) (topic payload : List Byte) (b : State) :
    (pubSys cfg about worker topicLen topic payload).run b =
      if b.answers.mallocs.headD true then
        if payload.length ≤ 256 then
          (.ok (), b.announce cfg about worker (sysMessage topicLen topic payload))
        else (.error .outOfBounds, { b with answers.mallocs := b.answers.mallocs.tail })
      else (.ok (), { b with answers.mallocs := b.answers.mallocs.tail }) := by
  have asked : malloc.run b = (.ok (b.answers.mallocs.headD true),
      { b with answers.mallocs := b.answers.mallocs.tail }) := rfl
  unfold pubSys
  rw [Cmd.bind_ok asked]
  split
  · split <;> rfl
  · rfl

/-- The messages of the broker are about connected clients. -/
theorem holds_cPubConnected (before : (contract cfg closes task c).pre b)
    (connects : task.Connects c) (present : b.clients c = some p) (connected : p.state = .connected) :
    (contract cfg closes task c).Holds (fun _ => True) (cPubConnected cfg c) b := by
  refine holds_client before fun _ _ => .get_bind (holds_malloc_bind fun allocated => ?_)
  cases allocated with
  | false => exact .pure trivial
  | true =>
      simp only [if_true]
      split
      · refine holds_modify_bind ((contract cfg closes task c).keeps before (.single asksMalloc))
          (.emit connects) fun _ => ?_
        exact holds_workersQueueMessage ⟨⟨rfl, rfl⟩, p, present, connected⟩ (.inr (Nat.zero_le 1))
      · exact .fail (.inr ⟨by decide, by decide⟩)

/-- Taking the subscriptions out reads and changes the table only. -/
theorem foldl_removeSub (p : Client) (indices : List Nat) {b b' : State} (nodes : b'.nodes = b.nodes)
    (subs : b'.subs = b.subs) :
    indices.foldl (State.removeSub c p) b' = { b' with
      nodes := (indices.foldl (State.removeSub c p) b).nodes
      subs := (indices.foldl (State.removeSub c p) b).subs } := by
  induction indices generalizing b b' with
  | nil =>
      rw [List.foldl_nil, List.foldl_nil, ← nodes, ← subs]
  | cons index indices inductionHypothesis =>
      have sameNodes : (b'.removeSub c p index).nodes = (b.removeSub c p index).nodes := by
        simp [State.removeSub, nodes, subs]
      have sameSubs : (b'.removeSub c p index).subs = (b.removeSub c p index).subs := by
        simp [State.removeSub, nodes, subs]
      rw [List.foldl_cons, List.foldl_cons, inductionHypothesis sameNodes sameSubs]
      rfl

/-- A client is freed alike in two states with the same table. -/
theorem freeClient_eq (p : Client) (b b' : State) (nodes : b'.nodes = b.nodes)
    (subs : b'.subs = b.subs) :
    b'.freeClient c { p with state := .closing } = { b' with
      nodes := ((List.range p.numSubs).foldl (State.removeSub c p) b).nodes
      subs := ((List.range p.numSubs).foldl (State.removeSub c p) b).subs
      clients := Function.update b'.clients c none
      log := b'.log ++ [.closed c] } := by
  change (fun e : State => { e with
    clients := Function.update e.clients c none, log := e.log ++ [Event.closed c] })
    ((List.range p.numSubs).foldl (State.removeSub c p) b') = _
  rw [foldl_removeSub p _ nodes subs]

/-- Freeing the client, behind what has been told about it. -/
theorem freeClient_change (told : List Event) {b' : State}
    (present : b.clients c = some p) (tells : Tells b c p told) (same : b' = { b with log := b.log ++ told }) :
    Change cfg true task c b (b'.freeClient c { p with state := .closing }) := by
  subst same
  rw [freeClient_eq p b { b with log := b.log ++ told } rfl rfl]
  simp only [List.append_assoc]
  exact .close rfl present _ _ (foldl_removeSub p _ rfl rfl) tells

/-- `c_unbind` behind its message. -/
def release (c : ClientId) : Code Unit := do
  let p ← client c
  assert (p.state ≠ .closing)
  kaRemove c
  modify (·.freeClient c { p with state := .closing })

theorem release_run (present : b.clients c = some p) (opened : p.state ≠ .closing) :
    (release c).run b =
      match KeepAlive.kaRemove b.ka p.worker c p.session.keepAlive with
      | .ok ka => (.ok (), ({ b with ka } : State).freeClient c { p with state := .closing })
      | .error fault => (.error fault, b) := by
  have asserted : (assert (decide (p.state ≠ .closing))).run b = (.ok (), b) := by
    simp [assert, opened]
  rw [release, Cmd.bind_ok (client_run present), Cmd.bind_ok asserted]
  cases removed : KeepAlive.kaRemove b.ka p.worker c p.session.keepAlive with
  | ok ka => rw [Cmd.bind_ok (kaRemove_ok present removed), Cmd.run_modify]
  | error fault => rw [Cmd.bind_error (kaRemove_failed present removed)]

private theorem kaRemove_rests {ka : KeepAlive.Wheel ClientId}
    (removed : KeepAlive.kaRemove b.ka p.worker c p.session.keepAlive = .ok ka) :
    b.ka.Idle → ka = b.ka :=
  fun idle => Except.ok.inj (removed.symm.trans (idle.kaRemove _ _ _))

/-- A client of which nothing is said is freed, or the assertion of `ka_remove`
fails. -/
theorem holds_release (present : b.clients c = some p) (tells : Tells b c p []) :
    (contract cfg true task c).Holds (fun _ => True) (release c) b := by
  refine holds_client (.inl rfl) fun q found => holds_assert_bind (.inl rfl) fun _ => ?_
  obtain rfl : p = q := Option.some.inj (present.symm.trans found)
  refine holds_kaRemove_bind present fun ka => ?_
  have frees : Change cfg true task c { b with ka }
      (({ b with ka } : State).freeClient c { p with state := .closing }) :=
    freeClient_change [] present tells (by simp)
  exact .modify (evolves_one frees) trivial

theorem cPubDisconnected_run (present : b.clients c = some p) (reason : List Byte) :
    ∃ topicLen topic payload, (cPubDisconnected cfg c reason).run b =
      (pubSys cfg (.offline c) p.worker topicLen topic payload).run b :=
  ⟨_, _, _, (Cmd.bind_ok (client_run present)).trans (Cmd.run_get_bind _ b)⟩

/-- Behind its message a connected client is freed. -/
theorem holds_announced (present : b.clients c = some p) (connected : p.state = .connected)
    (topicLen : Nat) (topic payload : List Byte) :
    Evolves cfg true task c b ((release c).run
        (b.announce cfg (.offline c) p.worker (sysMessage topicLen topic payload))).2 ∧
      (contract cfg true task c).Ends (fun _ => True) ((release c).run
        (b.announce cfg (.offline c) p.worker (sysMessage topicLen topic payload))) := by
  have found : (b.announce cfg (.offline c) p.worker (sysMessage topicLen topic payload)).clients c =
      some p := present
  rw [release_run found (by simp [connected])]
  have removing : (b.announce cfg (.offline c) p.worker (sysMessage topicLen topic payload)).ka = b.ka :=
    rfl
  have queues : Queues task { b with answers.mallocs := b.answers.mallocs.tail } c
      (sysMessage topicLen topic payload) (.me p.worker) := ⟨⟨rfl, rfl⟩, p, present, connected⟩
  rw [removing]
  cases removed : KeepAlive.kaRemove b.ka p.worker c p.session.keepAlive with
  | ok ka =>
      -- what is told belongs to the close, so it is left out of the queueing
      refine ⟨?_, trivial⟩
      refine .tail (.tail (.tail (.single asksMalloc) (.queue queues))
        (.keepAlive (kaRemove_rests removed))) ?_
      exact freeClient_change [.offline c] present (.inl ⟨rfl, connected⟩) rfl
  | error fault =>
      obtain rfl : fault = .assertion := KeepAlive.kaRemove_error removed
      have busy : ¬ b.ka.Idle := fun idle => by
        simp [idle.kaRemove] at removed
      refine ⟨?_, .inl ⟨rfl, by simp⟩⟩
      refine .tail (.tail (.single asksMalloc) ?_) (.queue ⟨⟨rfl, rfl⟩, p, present, connected⟩)
      exact .emit (show Emits cfg task _ (.offline c) from busy)

/-- Without memory for the message a connected client is freed all the same. -/
theorem holds_unannounced (present : b.clients c = some p) (connected : p.state = .connected)
    (starved : ¬ b.answers.mallocs.headD true = true) :
    Evolves cfg true task c b
        ((release c).run { b with answers.mallocs := b.answers.mallocs.tail }).2 ∧
      (contract cfg true task c).Ends (fun _ => True)
        ((release c).run { b with answers.mallocs := b.answers.mallocs.tail }) := by
  have found : ({ b with answers.mallocs := b.answers.mallocs.tail } : State).clients c = some p :=
    present
  have unspoken : Tells b c p [] := by
    refine .inr ⟨rfl, fun _ plenty => starved ?_⟩
    cases mallocs : b.answers.mallocs with
    | nil => rfl
    | cons answer rest => exact plenty answer (by simp [mallocs])
  rw [release_run found (by simp [connected])]
  dsimp only
  cases removed : KeepAlive.kaRemove b.ka p.worker c p.session.keepAlive with
  | ok ka =>
      have frees : Change cfg true task c { b with ka }
          (({ b with ka } : State).freeClient c { p with state := .closing }) :=
        freeClient_change [] present unspoken (by simp)
      -- the answer is taken last, so that the close still sees it
      rw [freeClient_eq p b { b with ka } rfl rfl] at frees
      dsimp only
      rw [freeClient_eq p b { b with answers.mallocs := b.answers.mallocs.tail, ka } rfl rfl]
      exact ⟨.tail (.tail (.single (.keepAlive (kaRemove_rests removed))) frees) asksMalloc, trivial⟩
  | error fault =>
      obtain rfl : fault = .assertion := KeepAlive.kaRemove_error removed
      exact ⟨.single asksMalloc, .inl ⟨rfl, by simp⟩⟩

/-- Closing a connected client: the message is queued and the client is freed. -/
theorem holds_farewell (present : b.clients c = some p) (connected : p.state = .connected)
    (reason : List Byte) :
    (contract cfg true task c).Holds (fun _ => True)
      (cPubDisconnected cfg c reason >>= fun _ => release c) b := by
  obtain ⟨topicLen, topic, payload, runs⟩ :
      ∃ topicLen topic payload, (cPubDisconnected cfg c reason).run b = _ :=
    cPubDisconnected_run present reason
  rw [pubSys_run] at runs
  unfold Contract.Holds
  rw [Cmd.run_bind, runs]
  by_cases allocated : b.answers.mallocs.headD true = true
  · by_cases fits : payload.length ≤ 256
    · simp only [allocated, fits, if_true]
      exact holds_announced present connected topicLen topic payload
    · simp only [allocated, fits, if_true, if_false]
      exact ⟨.single asksMalloc, .inr ⟨by decide, by decide⟩⟩
  · simp only [allocated]
    exact holds_unannounced present connected allocated

theorem cUnbind_keeps (reason : List Byte) :
    (contract cfg true task c).Keeps (fun _ => True) (cUnbind cfg c reason) := by
  refine keeps_client fun p b before present => ?_
  by_cases connected : p.state = .connected
  · simp only [onlyIf, connected, decide_true, if_true]
    exact holds_farewell present connected reason
  · simp only [onlyIf, connected, decide_false, Bool.false_eq_true, if_false]
    exact holds_release present (.inr ⟨rfl, fun same => absurd same connected⟩)

theorem cDisconnect_keeps (reason : List Byte) :
    (contract cfg true task c).Keeps (fun _ => True) (cDisconnect cfg c reason) :=
  keeps_client fun _ b before _ => holds_onlyIf fun _ => cUnbind_keeps reason b before

theorem cDisconnectNormal_keeps (reason : List Byte) :
    (contract cfg true task c).Keeps (fun _ => True) (cDisconnectNormal cfg c reason) :=
  keeps_client fun _ b before _ => cUnbind_keeps reason b before

/-! ### Sending -/

/-- The next answer is like all the others. -/
theorem headD_of_forall {Answer : Type} (holds : Answer → Prop) {answers : List Answer} {default : Answer}
    (all : ∀ answer ∈ answers, holds answer) (ends : holds default) : holds (answers.headD default) := by
  cases answers with
  | nil => exact ends
  | cons answer rest => exact all answer List.mem_cons_self

private theorem send_keeps (buf : List Byte) :
    (contract cfg closes task c).Keeps (fun sent => closes = true ∨ sent.takes = true) (send c buf) := by
  intro b before
  have asked : Change cfg closes task c b { b with answers.sends := b.answers.sends.tail } :=
    .ask ⟨fun _ => List.mem_of_mem_tail, List.Subset.refl _⟩ (List.Subset.refl _) rfl
  refine .get_bind (holds_modify_bind before (by exact asked) fun _ => ?_)
  have takes : closes = true ∨ (b.answers.sends.headD .full).takes = true :=
    before.imp_right fun ready => headD_of_forall (Sent.takes · = true) ready.1.taken.1 rfl
  cases head : b.answers.sends.headD .full with
  | full => exact .bind (holds_emit trivial) fun _ _ _ _ => .pure (.inr rfl)
  | short n => exact .bind (holds_emit trivial) fun _ _ _ _ => .pure (head ▸ takes)
  | error reason => exact .pure (head ▸ takes)

private theorem sendLoop_keeps (bound : Nat) (buf : List Byte) (off : Nat) :
    (contract cfg closes task c).Keeps (fun n => closes = true ∨ n = off + buf.length)
      (sendLoop cfg c bound buf off) := by
  induction bound generalizing buf off with
  | zero =>
      intro b before
      cases buf with
      | nil => exact .pure (.inr rfl)
      | cons byte buf => exact .fail (.inr ⟨by decide, by decide⟩)
  | succ bound inductionHypothesis =>
      cases buf with
      | nil => exact fun b _ => .pure (.inr rfl)
      | cons byte buf =>
          refine keeps_client fun p b before _ => ?_
          refine .bind (send_keeps _ b before) fun sent b' moved takes => ?_
          have before' := (contract cfg closes task c).keeps before moved
          cases sent with
          | full => exact .pure (.inr rfl)
          | short n =>
              cases n with
              | zero => exact .pure (.inl (by simpa [Sent.takes] using takes))
              | succ n =>
                  refine (inductionHypothesis _ _ b' before').mono fun sum all => all.imp_right fun all => ?_
                  rw [all, List.length_drop]
                  omega
          | error reason =>
              obtain rfl : closes = true := by simpa [Sent.takes] using takes
              exact .bind (cDisconnect_keeps reason b' before') fun _ _ _ _ => .pure (.inl rfl)

theorem cSendDataWire_keeps (buf : List Byte) :
    (contract cfg closes task c).Keeps (fun n => closes = true ∨ n = buf.length)
      (cSendDataWire cfg c buf) := by
  refine keeps_client fun p b before present => ?_
  refine holds_assert_bind (before.imp_right fun ready => ?_) fun _ => ?_
  · exact decide_eq_true (ready.1.regular.states c p present)
  · exact (sendLoop_keeps buf.length buf 0 b before).mono fun n sent => by simpa using sent

private theorem cSendDataWs_keeps (short : closes = true ∨ buf.length < 2 ^ 16) :
    (contract cfg closes task c).Keeps (fun n => closes = true ∨ n = buf.length)
      (cSendDataWs cfg c buf) := by
  unfold cSendDataWs
  split
  · exact .bind (cSendDataWire_keeps _) fun _ _ =>
      .bind (cSendDataWire_keeps _) fun _ _ _ _ => .pure (.inr rfl)
  · rename_i long
    obtain rfl : closes = true := short.resolve_right long
    exact .bind (cDisconnect_keeps _) fun _ _ _ _ => .pure (.inl rfl)

private theorem sendRecords_keeps (records : List (List Byte)) :
    (contract cfg closes task c).Keeps (fun _ => True) (sendRecords cfg c records) := by
  induction records with
  | nil => exact keeps_client fun _ _ _ _ => .pure trivial
  | cons record records inductionHypothesis =>
      refine keeps_client fun p b before _ => ?_
      refine .bind (cSendDataWire_keeps record b before) fun _ b' moved _ => ?_
      exact inductionHypothesis b' ((contract cfg closes task c).keeps before moved)

private theorem sslWrite_keeps (buf : List Byte) :
    (contract cfg closes task c).Keeps (fun write => closes = true ∨ write.takes = true)
      (sslWrite c buf) := by
  intro b before
  have asked : Change cfg closes task c b { b with answers.tlsWrites := b.answers.tlsWrites.tail } :=
    .ask ⟨List.Subset.refl _, fun _ => List.mem_of_mem_tail⟩ (List.Subset.refl _) rfl
  refine .get_bind (holds_modify_bind before (by exact asked) fun _ => ?_)
  have takes : closes = true ∨ (b.answers.tlsWrites.headD (.full [])).takes = true :=
    before.imp_right fun ready => headD_of_forall (TlsWrite.takes · = true) ready.1.taken.2 rfl
  cases head : b.answers.tlsWrites.headD (.full []) with
  | full records => exact .bind (holds_emit trivial) fun _ _ _ _ => .pure (.inr rfl)
  | short n records => exact .bind (holds_emit trivial) fun _ _ _ _ => .pure (head ▸ takes)
  | unfinished => exact .pure (head ▸ takes)
  | error => exact .pure (head ▸ takes)
  | nothing => exact .pure (head ▸ takes)

private theorem tlsWrite_keeps (some : 0 < buf.length) :
    (contract cfg closes task c).Keeps (fun n => closes = true ∨ 0 < n) (tlsWrite cfg c buf) := by
  refine keeps_client fun p b before _ => ?_
  refine .bind (sslWrite_keeps buf b before) fun write b' moved takes => ?_
  have before' := (contract cfg closes task c).keeps before moved
  cases write with
  | full records => exact .bind (sendRecords_keeps records b' before') fun _ _ _ _ => .pure (.inr some)
  | short n records =>
      have positive : closes = true ∨ 0 < min n buf.length := takes.imp_right fun takes =>
        Nat.lt_min.mpr ⟨Nat.pos_of_ne_zero (by simpa [TlsWrite.takes] using takes), some⟩
      exact .bind (holds_onlyIf fun _ => sendRecords_keeps records b' before') fun _ _ _ _ =>
        .pure positive
  | unfinished => exact .pure (.inl (by simpa [TlsWrite.takes] using takes))
  | nothing => exact .pure (.inl (by simpa [TlsWrite.takes] using takes))
  | error =>
      obtain rfl : closes = true := by simpa [TlsWrite.takes] using takes
      exact .bind (cDisconnect_keeps _ b' before') fun _ _ _ _ => .pure (.inl rfl)

private theorem transportWrite_keeps (some : 0 < buf.length) (short : closes = true ∨ buf.length < 2 ^ 16) :
    (contract cfg closes task c).Keeps (fun n => closes = true ∨ 0 < n) (transportWrite cfg c buf) := by
  have positive : ∀ n, closes = true ∨ n = buf.length → closes = true ∨ 0 < n := by
    rintro n (may | rfl)
    · exact .inl may
    · exact .inr some
  refine keeps_client fun p b before _ => ?_
  split
  · exact tlsWrite_keeps some b before
  · split
    · exact (cSendDataWs_keeps short b before).mono positive
    · exact (cSendDataWire_keeps buf b before).mono positive

theorem sendDataLoop_keeps (short : closes = true ∨ buf.length < 2 ^ 16)
    (bound len : Nat) (inside : len ≤ buf.length) :
    (contract cfg closes task c).Keeps (fun rv => closes = true ∨ rv = 0)
      (sendDataLoop cfg c buf bound len) := by
  induction bound generalizing len with
  | zero =>
      intro b before
      cases len with
      | zero => exact .pure (.inr rfl)
      | succ len => exact .fail (.inr ⟨by decide, by decide⟩)
  | succ bound inductionHypothesis =>
      cases len with
      | zero => exact fun b _ => .pure (.inr rfl)
      | succ len =>
          have cut : (buf.take (len + 1)).length = len + 1 := by simpa using inside
          refine .bind (transportWrite_keeps (cut ▸ Nat.succ_pos len) (short.imp_right fun small => ?_))
            fun rv written => ?_
          · rw [cut]
            omega
          · cases rv with
            | zero => exact fun b _ => .pure (.inl (by simpa using written))
            | succ rv => exact inductionHypothesis _ (by omega)

theorem holds_cSendData (before : (contract cfg closes task c).pre b)
    (packets : Packets task b c buf) (short : closes = true ∨ buf.length < 2 ^ 16) :
    (contract cfg closes task c).Holds (fun rv => closes = true ∨ rv = 0) (cSendData cfg c buf) b := by
  refine holds_client before fun p present => ?_
  refine holds_assert_bind (before.imp_right fun ready => ?_) fun _ => ?_
  · exact decide_eq_true (ready.1.regular.states c p present)
  · refine .bind (holds_emit packets) fun _ b' moved _ => ?_
    exact sendDataLoop_keeps short _ _ (Nat.le_refl _) b'
      ((contract cfg closes task c).keeps before moved)

theorem holds_reply (before : (contract cfg closes task c).pre b)
    (packets : Packets task b c buf) (short : closes = true ∨ buf.length < 2 ^ 16) :
    (contract cfg closes task c).Holds (fun rv => closes = true ∨ rv = 0) (reply cfg c buf) b := by
  refine .bind (holds_cSendData before packets short) fun rv b' moved sent => ?_
  cases rv with
  | zero =>
      exact .bind (holds_kaUpdate ((contract cfg closes task c).keeps before moved))
        fun _ _ _ _ => .pure (.inr rfl)
  | succ rv => exact .pure (.inl (by simpa using sent))

/-! ### The callbacks -/

/-- Whether `on_recv_connect` turns the client away. -/
def rejects (cfg : Config) (b : State) (p : Client) : Bool :=
  !(cfg.allowAnonymous && p.session.username 0 == 0) &&
    match authAuth b.answers.db p.principal (b.authQ p.worker)
      (idString p.session.connect.password) with
    | .ok result => result.rv ≠ 0
    | .error _ => false

private theorem authAuth_error_benign {db : Database} {p : Principal} {q password : List Byte} {fault : Fault}
    (stops : authAuth db p q password = .error fault) :
    fault ≠ .useAfterFree ∧ fault ≠ .assertion := by
  have fromRow : ∀ {numFields row q}, acceptRow numFields row q = .error fault →
      fault = .nullPointer ∨ fault = .outOfBounds := by
    intro numFields row q failed
    unfold acceptRow at failed
    split at failed
    · simp_all
    · split at failed
      · simp_all
      · split at failed
        · simp_all
        · split at failed <;> simp_all
  have kinds : fault = .nullPointer ∨ fault = .outOfBounds := by
    unfold authAuth at stops
    simp only at stops
    split at stops
    · simp at stops
    · split at stops
      · simp at stops
      · simp at stops
      · split at stops
        · simp at stops
        · split at stops
          · split at stops
            · exact fromRow stops
            · simp at stops
          · split at stops <;> simp at stops
  rcases kinds with rfl | rfl <;> decide

/-- Nothing but the rights of the client changes. -/
theorem updates_rights {isSuper : Bool} {userIdStr : List Byte}
    (granted : (isSuper = true → Event.accepted c ∈ b.log) ∧
      (userIdStr = p.userIdStr ∨ Event.accepted c ∈ b.log)) :
    Updates (.connect c) b c p { p with isSuper, userIdStr } where
  session := rfl
  worker := rfl
  state := .inl rfl
  rights := .inr ⟨rfl, granted⟩
  qos i := .inl ⟨i, rfl⟩
  msgId := .inl rfl

private theorem holds_authDecided {result : AuthResult} (before : (contract cfg closes (.connect c) c).pre b)
    (worker : Nat) (admitted : closes = true ∨ result.rv = 0) :
    (contract cfg closes (.connect c) c).Holds (fun ack => closes = true ∨ ack = 0)
      (authDecided c worker result) b := by
  refine holds_modify_bind before (.query _) fun before => ?_
  split
  · rename_i refused
    refine holds_modify_bind before (.emit rfl) fun before => ?_
    refine holds_updateClient_bind nofun before (fun p _ => updates_rights (by simp)) fun _ _ _ => ?_
    exact .pure (.inl (admitted.resolve_right refused))
  · refine holds_modify_bind before (.emit rfl) fun before => ?_
    have logged : ∀ b : State, Event.accepted c ∈ (b.emit (.accepted c)).log := fun b => by
      simp [State.emit]
    exact holds_updateClient_bind nofun before
      (fun p _ => updates_rights ⟨fun _ => logged _, .inr (logged _)⟩) fun _ _ _ => .pure (.inr rfl)

theorem holds_authenticate (before : (contract cfg closes (.connect c) c).pre b)
    (admitted : closes = true ∨ ∀ p, b.clients c = some p → rejects cfg b p = false) :
    (contract cfg closes (.connect c) c).Holds (fun ack => closes = true ∨ ack = 0)
      (authenticate cfg c) b := by
  refine holds_client before fun p present => ?_
  split
  · exact holds_updateClient_bind nofun before (fun p _ => updates_rights (by simp)) fun _ _ _ =>
      .pure (.inr rfl)
  · rename_i named
    refine .get_bind ?_
    cases decided : authAuth b.answers.db p.principal (b.authQ p.worker)
        (idString p.session.connect.password) with
    | error fault => exact .fail (.inr (authAuth_error_benign decided))
    | ok result =>
        refine holds_authDecided before p.worker (admitted.imp_right fun admits => ?_)
        have := admits p present
        simpa [rejects, named, decided] using this

/-- The client enters the connected state. -/
theorem updates_connected (connects : task.Connects c) (p : Client) :
    Updates task b c p { p with state := .connected } where
  session := rfl
  worker := rfl
  state := .inr ⟨connects, rfl⟩
  rights := .inl ⟨rfl, rfl⟩
  qos i := .inl ⟨i, rfl⟩
  msgId := .inl rfl

theorem connackSent_keeps {ack : Byte} (connects : task.Connects c)
    (admitted : closes = true ∨ ack = 0) :
    (contract cfg closes task c).Keeps (fun _ => True) (connackSent cfg c ack) := by
  intro b before
  have edits : task ≠ .talk := by
    rintro rfl
    simp [Task.Connects] at connects
  unfold connackSent
  split
  · refine holds_updateClient_bind edits before (fun p _ => updates_connected connects p)
      fun p _ before => ?_
    refine .bind (holds_cPubConnected before connects (Function.update_self _ _ _) rfl) fun _ b' moved _ => ?_
    exact holds_kaUpdate ((contract cfg closes task c).keeps before moved)
  · rename_i refused
    obtain rfl : closes = true := admitted.resolve_right refused
    exact cDisconnect_keeps _ b before

theorem conack_packet (task : Task) (b : State) (c : ClientId) (ack : Byte) :
    Packets task b c (encodeConack 0 ack) ∧ (encodeConack 0 ack).length < 2 ^ 16 :=
  ⟨.plain (headerOf_encodeConack 0 ack) (by decide), by simp [encodeConack, encodeRemLen_eq]⟩

theorem holds_onRecvConnect (before : (contract cfg closes (.connect c) c).pre b)
    (admitted : closes = true ∨ ∀ p, b.clients c = some p → rejects cfg b p = false) :
    (contract cfg closes (.connect c) c).Holds (fun rv => closes = true ∨ rv = 0)
      (onRecvConnect cfg c) b := by
  refine .bind (holds_authenticate before admitted) fun ack b' moved accepted => ?_
  have before' := (contract cfg closes (.connect c) c).keeps before moved
  obtain ⟨packets, short⟩ := conack_packet (.connect c) b' c ack
  refine .bind (holds_cSendData before' packets (.inr short)) fun rv b'' moved' sent => ?_
  have before'' := (contract cfg closes (.connect c) c).keeps before' moved'
  cases rv with
  | zero =>
      exact .bind (connackSent_keeps (.inl rfl) accepted b'' before'') fun _ _ _ _ => .pure (.inr rfl)
  | succ rv => exact .pure (.inl (by simpa using sent))

/-- The decision of `auth_acl` depends on the rights of the client only. -/
theorem allowed_congr {db : Database} {p p' : Client} (session : p'.session = p.session)
    (isSuper : p'.isSuper = p.isSuper) (userIdStr : p'.userIdStr = p.userIdStr) (access : Access)
    (filter : List Byte) : allowed cfg db p' access filter = allowed cfg db p access filter := by
  have decides : aclDecide db p'.principal access filter = aclDecide db p.principal access filter :=
    aclDecide_congr (congrArg Session.username session) userIdStr access filter
  have sameSuper : p'.principal.isSuper = p.principal.isSuper := isSuper
  unfold allowed authAcl
  rw [decides, sameSuper, isSuper]
  split <;> rfl

/-- The requested filters are allowed to the client. -/
def Permitted (cfg : Config) (b : State) (c : ClientId) (sub : SubscribeSt) : Prop :=
  ∀ p, b.clients c = some p → ∀ i < sub.numFilters,
    allowed cfg b.answers.db p .sub (filterOf sub i) = true

theorem Permitted.evolves {b' : State} (permitted : Permitted cfg b c sub)
    (chain : Evolves cfg closes (.subscribe c sub) c b b') : Permitted cfg b' c sub := by
  intro p' found i inside
  obtain ⟨p, present, session, isSuper, userIdStr⟩ := chain.rights (by simp) found
  rw [chain.db, allowed_congr session isSuper userIdStr]
  exact permitted p present i inside

private theorem holds_insertSub {filter : List Byte} {i : Nat} (inside : i < sub.numFilters)
    (before : (contract cfg closes (.subscribe c sub) c).pre b) (permitted : Permitted cfg b c sub) :
    (contract cfg closes (.subscribe c sub) c).Holds (fun _ => True)
      (insertSub c filter (min (sub.qos i) 1)) b := by
  refine holds_client before fun p present => ?_
  split
  · refine .get_bind ?_
    cases inserted : subInsert b.listBound b.nodes (b.subs p.worker) filter (c, p.numSubs) with
    | none => exact .fail (.inr ⟨by decide, by decide⟩)
    | some result =>
        refine holds_modify_bind before (.emit ⟨sub, p, rfl, present, permitted p present⟩) fun before => ?_
        refine holds_modify_bind before (.table _ _ nofun) fun before => ?_
        refine holds_updateClient nofun before fun p' _ =>
          ⟨rfl, rfl, .inl rfl, .inl ⟨rfl, rfl⟩, fun k => ?_, .inl rfl⟩
        by_cases added : k = p'.numSubs
        · exact .inr ⟨sub, i, rfl, inside, by simp [added]⟩
        · exact .inl ⟨k, by simp [added]⟩
  · exact .fail (.inr ⟨by decide, by decide⟩)

private theorem holds_subscribeOne {i : Nat} (inside : i < sub.numFilters)
    (before : (contract cfg closes (.subscribe c sub) c).pre b) (permitted : Permitted cfg b c sub) :
    (contract cfg closes (.subscribe c sub) c).Holds (fun _ => True) (subscribeOne c sub i) b := by
  refine holds_client before fun p present => ?_
  cases findSub p (filterOf sub i) with
  | none => exact holds_insertSub inside before permitted
  | some j =>
      refine holds_updateClient nofun before fun p' _ =>
        ⟨rfl, rfl, .inl rfl, .inl ⟨rfl, rfl⟩, fun k => ?_, .inl rfl⟩
      by_cases changed : k = i
      · exact .inr ⟨sub, i, rfl, inside, by simp [changed]⟩
      · exact .inl ⟨k, by simp [changed]⟩

/-- The loop over the filters; what has been checked stays allowed. -/
theorem holds_subscribeEach {indices : List Nat} (inside : ∀ i ∈ indices, i < sub.numFilters)
    (before : (contract cfg closes (.subscribe c sub) c).pre b) (permitted : Permitted cfg b c sub) :
    (contract cfg closes (.subscribe c sub) c).Holds (fun _ => True)
      (Cmd.each (subscribeOne c sub) indices) b := by
  induction indices generalizing b with
  | nil => exact .pure trivial
  | cons i indices inductionHypothesis =>
      refine .bind (holds_subscribeOne (inside i (by simp)) before permitted) fun _ b' moved _ => ?_
      exact inductionHypothesis (fun j member => inside j (by simp [member]))
        ((contract cfg closes (.subscribe c sub) c).keeps before moved) (permitted.evolves moved)

private theorem holds_database {Value : Type} {post : Value → Prop} {rest : Database → Code Value}
    (holds : (contract cfg closes task c).Holds post (rest b.answers.db) b) :
    (contract cfg closes task c).Holds post (database >>= rest) b :=
  holds

private theorem length_encodeSuback_lt {buflen packetid : Nat} {grantedQoss : List Nat}
    (few : grantedQoss.length ≤ maxSubs) : (encodeSuback buflen packetid grantedQoss).length < 2 ^ 16 := by
  rw [maxSubs] at few
  unfold encodeSuback
  split
  · simp
  · have := length_encodeRemLen_le (show 2 + grantedQoss.length < 128 ^ (1 + 1) by omega)
    simp [encodeShort]
    omega

theorem holds_onRecvSubscribe (present : b.clients c = some p)
    (before : (contract cfg closes (.subscribe c p.session.subscribe) c).pre b)
    (counted : closes = true ∨ p.session.subscribe.numFilters ≤ maxSubs)
    (granted : closes = true ∨ Permitted cfg b c p.session.subscribe) :
    (contract cfg closes (.subscribe c p.session.subscribe) c).Holds
      (fun rv => closes = true ∨ rv = 0) (onRecvSubscribe cfg c) b := by
  refine holds_client before fun p' found => holds_database ?_
  obtain rfl : p = p' := Option.some.inj (present.symm.trans found)
  refine holds_assert_bind (counted.imp_right decide_eq_true) fun few => ?_
  have counted := of_decide_eq_true few
  split
  · rename_i checked
    have permitted : Permitted cfg b c p.session.subscribe := by
      intro p' found i inside
      obtain rfl : p = p' := Option.some.inj (present.symm.trans found)
      exact List.all_eq_true.mp checked i (List.mem_range.mpr inside)
    refine .bind (holds_subscribeEach (fun i => List.mem_range.mp) before permitted)
      fun _ b' moved _ => ?_
    dsimp only
    split
    · exact .pure (.inr rfl)
    · rename_i encoded
      refine holds_reply ((contract cfg closes _ c).keeps before moved) (.plain (headerOf_encodeSuback ?_)
        (by decide)) (.inr (length_encodeSuback_lt ?_))
      · exact encoded
      · simpa using counted
  · rename_i denied
    have may : closes = true := by
      refine granted.resolve_right fun permitted => denied (List.all_eq_true.mpr fun i member => ?_)
      exact permitted p present i (List.mem_range.mp member)
    subst may
    exact .bind (cDisconnect_keeps _ b before) fun _ _ _ _ => .pure (.inl rfl)

private theorem holds_closeGap (edits : task ≠ .talk) (present : b.clients c = some p) (j : Nat) :
    (contract cfg closes task c).Holds (fun _ => True) (modify (closeGap c j p)) b := by
  refine .modify (.tail (.single (.client present ?_ edits)) (.table _ b.subs edits)) trivial
  refine ⟨rfl, rfl, .inl rfl, .inl ⟨rfl, rfl⟩, fun k => .inl ?_, .inl rfl⟩
  by_cases shifted : j ≤ k ∧ k < p.numSubs
  · exact ⟨k + 1, by simp [shifted]⟩
  · exact ⟨k, by simp [shifted]⟩

private theorem holds_dropSub (edits : task ≠ .talk) (present : b.clients c = some p)
    (before : (contract cfg closes task c).pre b) (j : Nat) :
    (contract cfg closes task c).Holds (fun _ => True) (dropSub c p j) b := by
  refine holds_modify_bind before (.table _ _ edits) fun _ => ?_
  split
  · exact holds_closeGap edits (show (b.removeSub c p j).clients c = some p from present) j
  · exact .fail (.inr ⟨by decide, by decide⟩)

private theorem unsubscribeFrom_keeps (edits : task ≠ .talk) (filter : List Byte) (bound j : Nat) :
    (contract cfg closes task c).Keeps (fun _ => True) (unsubscribeFrom c filter bound j) := by
  induction bound generalizing j with
  | zero => exact fun b _ => .pure trivial
  | succ bound inductionHypothesis =>
      refine keeps_client fun p b before present => ?_
      split
      · refine .bind (holds_onlyIf fun _ => holds_dropSub edits present before j) fun _ b' moved _ => ?_
        exact inductionHypothesis (j + 1) b' ((contract cfg closes task c).keeps before moved)
      · exact .pure trivial

theorem holds_onRecvUnsubscribe (edits : task ≠ .talk) (present : b.clients c = some p)
    (before : (contract cfg closes task c).pre b)
    (counted : closes = true ∨ p.session.subscribe.numFilters ≤ maxSubs) :
    (contract cfg closes task c).Holds (fun rv => closes = true ∨ rv = 0)
      (onRecvUnsubscribe cfg c) b := by
  refine holds_client before fun p' found => ?_
  obtain rfl : p = p' := Option.some.inj (present.symm.trans found)
  refine holds_assert_bind (counted.imp_right decide_eq_true) fun _ => ?_
  refine .bind (Contract.Keeps.each (fun i _ => unsubscribeFrom_keeps edits _ _ _) b before)
    fun _ b' moved _ => ?_
  exact holds_reply ((contract cfg closes task c).keeps before moved)
    (.plain (headerOf_encodeUnsuback _) (by decide))
    (.inr (by simp [encodeUnsuback, encodeShort, encodeRemLen_eq]))

theorem length_encodeAck_lt (len : Nat) (packettype : MsgType) (dup packetid : Nat) :
    (encodeAck len packettype dup packetid).length < 2 ^ 16 := by
  unfold encodeAck
  split <;> simp [encodeShort, encodeRemLen_eq]

theorem acknowledge_keeps (mp : Message) :
    (contract cfg closes (.publish c mp) c).Keeps (fun rv => closes = true ∨ rv = 0)
      (acknowledge cfg c mp) := by
  intro b before
  unfold acknowledge
  split
  · exact holds_reply before (.plain (headerOf_encodeAck (by decide) (by decide) _) (by simp))
      (.inr (length_encodeAck_lt _ _ _ _))
  · split
    · rename_i qos
      have header := headerOf_encodeAck (show 4 ≤ sendBufLen by decide)
        (show MsgType.pubrec ≠ .pubrel by decide) mp.packetId
      exact holds_reply before (.pubrec rfl qos (congrArg Header.msgType header))
        (.inr (length_encodeAck_lt _ _ _ _))
    · exact .bind (holds_kaUpdate before) fun _ _ _ _ => .pure (.inr rfl)

private theorem updates_authInfo {db : Database} {access : Access} {filter : List Byte} (p : Client) :
    Updates task b c p
      (if cfg.allowAnonymous || p.isSuper then p
      else { p with authInfo := (authAcl db p.principal access filter).2 }) := by
  split
  · exact .refl task b c p
  · exact ⟨rfl, rfl, .inl rfl, .inl ⟨rfl, rfl⟩, fun i => .inl ⟨i, rfl⟩, .inl rfl⟩

theorem holds_onRecvPublish {draft : Draft} (present : b.clients c = some p)
    (drafted : p.session.publish.mp = some draft)
    (before : (contract cfg closes (.publish c draft.message) c).pre b)
    (dup : closes = true ∨ draft.dup ≤ 1) :
    (contract cfg closes (.publish c draft.message) c).Holds (fun rv => closes = true ∨ rv = 0)
      (onRecvPublish cfg c) b := by
  refine holds_client before fun p' found => ?_
  obtain rfl : p = p' := Option.some.inj (present.symm.trans found)
  rw [drafted]
  refine holds_database ?_
  refine holds_updateClient_bind nofun before (fun p _ => updates_authInfo p) fun p' found before => ?_
  obtain rfl : p = p' := Option.some.inj (present.symm.trans found)
  split
  · rename_i granted
    refine holds_modify_bind before (.emit ⟨_, _, rfl, Function.update_self _ _ _, ?_⟩) fun before => ?_
    · exact (allowed_congr (by split <;> rfl) (by split <;> rfl) (by split <;> rfl) _ _).trans granted
    · refine .bind (holds_workersQueueMessage ⟨rfl, ?_⟩ dup) fun _ b' moved _ => ?_
      · simp [State.emit, State.putClient]
      · exact acknowledge_keeps _ b' ((contract cfg closes _ c).keeps before moved)
  · exact .pure (.inr rfl)

theorem onRecvPing_keeps :
    (contract cfg closes task c).Keeps (fun rv => closes = true ∨ rv = 0) (onRecvPing cfg c) :=
  fun _ before => holds_reply before (.plain headerOf_mqttPingResponse (by decide)) (.inr (by decide))

end FbBroker.Broker
