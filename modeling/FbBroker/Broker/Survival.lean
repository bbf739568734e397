import FbBroker.Broker.Delivery

/-!
Contract: deliveries in the course of which a subscriber is lost.

Owns what a call of `c_deliver` does under any answers of the environment, the
search of `w_deliver` over such calls, and the condition under which it comes to
its end. `found_list` reads the node of a subscription behind the call for it, and
a client whose send fails is freed together with its nodes, so the search survives
if and only if it loses nobody.

Does not own what the table looks like behind a loss.
-/

set_option autoImplicit false

namespace FbBroker.Broker

open FbBroker.Lib FbBroker.Packet FbBroker.Parser FbBroker.Dllist FbBroker.TrieMult
open FbBroker.Routing

variable {cfg : Config} {c : ClientId} {b d e : State} {p : Client} {m : MsgId} {mp : MsgRec}

/-- The packets that `c_send_data` was given for a client, in order. -/
def packetsTo (c : ClientId) (log : List Event) : List (List Byte) :=
  log.filterMap fun event =>
    match event with
    | .packet d bytes => if d = c then some bytes else none
    | _ => none

theorem packetsTo_append (c : ClientId) (log entries : List Event) :
    packetsTo c (log ++ entries) = packetsTo c log ++ packetsTo c entries :=
  List.filterMap_append ..

/-! ### Writing -/

/-- Bytes have been written, and nothing else has changed. -/
structure Wired (b d : State) : Prop where
  same : d = { b with answers := d.answers, log := d.log }
  packets : ∀ c, packetsTo c d.log = packetsTo c b.log

/-- Either so, or the client has been freed. -/
def Spoken (c : ClientId) (b d : State) : Prop :=
  d.clients c = none ∨ Wired b d

theorem Wired.refl (b : State) : Wired b b :=
  ⟨rfl, fun _ => rfl⟩

theorem Spoken.ask (spoken : Spoken c b d) (answers : Answers) : Spoken c b { d with answers } := by
  rcases spoken with gone | wired
  · exact .inl gone
  · refine .inr ⟨?_, wired.packets⟩
    rw [wired.same]

theorem Spoken.emit (spoken : Spoken c b d) {event : Event} (other : ∀ e, packetsTo e [event] = []) :
    Spoken c b (d.emit event) := by
  rcases spoken with gone | wired
  · exact .inl gone
  · refine .inr ⟨?_, fun e => ?_⟩
    · rw [wired.same]
      rfl
    · rw [State.emit, packetsTo_append, other, List.append_nil]
      exact wired.packets e

private theorem client_spoken : Cmd.Preserves (Spoken c b) (client c) := by
  intro d spoken
  cases present : d.clients c with
  | none =>
      rw [client_freed present]
      trivial
  | some p =>
      rw [client_run present]
      exact spoken

private theorem assert_spoken (condition : Bool) : Cmd.Preserves (Spoken c b) (assert condition) := by
  cases condition with
  | true => exact .pure ()
  | false => exact .fail _

/-- `c_unbind` returns only behind the `free`. -/
theorem cUnbind_gone {reason : List Byte} (returns : (cUnbind cfg c reason).run d = (.ok (), e)) :
    e.clients c = none := by
  obtain ⟨p, _, _, returns⟩ := Cmd.ok_of_bind returns
  obtain ⟨_, _, _, returns⟩ := Cmd.ok_of_bind returns
  obtain ⟨q, _, _, returns⟩ := Cmd.ok_of_bind returns
  obtain ⟨_, _, _, returns⟩ := Cmd.ok_of_bind returns
  obtain ⟨_, f, _, returns⟩ := Cmd.ok_of_bind returns
  obtain rfl : f.freeClient c { q with state := .closing } = e := (Prod.mk.inj returns).2
  simp [State.freeClient]

private theorem cDisconnect_spoken (reason : List Byte) :
    Cmd.Preserves (Spoken c b) (cDisconnect cfg c reason) := by
  refine .bind client_spoken fun p => ?_
  unfold onlyIf
  split
  · intro d _
    cases outcome : (cUnbind cfg c reason).run d with
    | mk result e =>
        cases result with
        | ok value => exact .inl (cUnbind_gone outcome)
        | error fault => trivial
  · exact .pure ()

private theorem send_spoken (buf : List Byte) : Cmd.Preserves (Spoken c b) (send c buf) := by
  intro d spoken
  have asked := spoken.ask { d.answers with sends := d.answers.sends.tail }
  rw [send, Cmd.run_get_bind, Cmd.run_modify_bind]
  split
  · exact asked.emit fun e => rfl
  · exact asked.emit fun e => rfl
  · exact asked

private theorem sslWrite_spoken (buf : List Byte) : Cmd.Preserves (Spoken c b) (sslWrite c buf) := by
  intro d spoken
  have asked := spoken.ask { d.answers with tlsWrites := d.answers.tlsWrites.tail }
  rw [sslWrite, Cmd.run_get_bind, Cmd.run_modify_bind]
  split
  · exact asked.emit fun e => rfl
  · exact asked.emit fun e => rfl
  · exact asked

private theorem sendLoop_spoken (bound : Nat) (buf : List Byte) (off : Nat) :
    Cmd.Preserves (Spoken c b) (sendLoop cfg c bound buf off) := by
  induction bound generalizing buf off with
  | zero =>
      cases buf with
      | nil => exact .pure off
      | cons byte buf => exact .fail _
  | succ bound inductionHypothesis =>
      cases buf with
      | nil => exact .pure off
      | cons byte buf =>
          refine .bind client_spoken fun _ => .bind (send_spoken _) fun sent => ?_
          cases sent with
          | full => exact .pure _
          | short n =>
              cases n with
              | zero => exact .pure off
              | succ n => exact inductionHypothesis _ _
          | error reason => exact .bind (cDisconnect_spoken reason) fun _ => .pure 0

private theorem cSendDataWire_spoken (buf : List Byte) :
    Cmd.Preserves (Spoken c b) (cSendDataWire cfg c buf) :=
  .bind client_spoken fun _ => .bind (assert_spoken _) fun _ => sendLoop_spoken _ _ _

private theorem cSendDataWs_spoken (buf : List Byte) : Cmd.Preserves (Spoken c b) (cSendDataWs cfg c buf) := by
  unfold cSendDataWs
  split
  · exact .bind (cSendDataWire_spoken _) fun _ => .bind (cSendDataWire_spoken _) fun _ => .pure _
  · exact .bind (cDisconnect_spoken _) fun _ => .pure 0

private theorem sendRecords_spoken (records : List (List Byte)) :
    Cmd.Preserves (Spoken c b) (sendRecords cfg c records) := by
  induction records with
  | nil => exact .bind client_spoken fun _ => .pure ()
  | cons record records inductionHypothesis =>
      exact .bind client_spoken fun _ => .bind (cSendDataWire_spoken record) fun _ => inductionHypothesis

private theorem tlsWrite_spoken (buf : List Byte) : Cmd.Preserves (Spoken c b) (tlsWrite cfg c buf) := by
  refine .bind client_spoken fun _ => .bind (sslWrite_spoken buf) fun write => ?_
  cases write with
  | unfinished => exact .pure 0
  | full records => exact .bind (sendRecords_spoken records) fun _ => .pure _
  | short n records =>
      refine .bind ?_ fun _ => .pure _
      unfold onlyIf
      split
      · exact sendRecords_spoken records
      · exact .pure ()
  | error => exact .bind (cDisconnect_spoken _) fun _ => .pure 0
  | nothing => exact .pure 0

private theorem transportWrite_spoken (buf : List Byte) :
    Cmd.Preserves (Spoken c b) (transportWrite cfg c buf) := by
  refine .bind client_spoken fun p => ?_
  split
  · exact tlsWrite_spoken buf
  · split
    · exact cSendDataWs_spoken buf
    · exact cSendDataWire_spoken buf

private theorem sendDataLoop_spoken (buf : List Byte) (bound len : Nat) :
    Cmd.Preserves (Spoken c b) (sendDataLoop cfg c buf bound len) := by
  induction bound generalizing len with
  | zero =>
      cases len with
      | zero => exact .pure 0
      | succ len => exact .fail _
  | succ bound inductionHypothesis =>
      cases len with
      | zero => exact .pure 0
      | succ len =>
          refine .bind (transportWrite_spoken _) fun rv => ?_
          cases rv with
          | zero => exact .pure 1
          | succ rv => exact inductionHypothesis _

/-- Behind `c_send_data` the packet is on record and bytes have been written, or the client
is gone. -/
theorem cSendData_spoken (d : State) (buf : List Byte) :
    Cmd.Leads (fun _ _ => True) (fun _ => Spoken c (d.emit (.packet c buf)))
      ((cSendData cfg c buf).run d) := by
  cases present : d.clients c with
  | none =>
      rw [cSendData, Cmd.bind_error (client_freed present)]
      trivial
  | some p =>
      rw [cSendData, Cmd.bind_ok (client_run present)]
      unfold assert
      split
      · rw [Cmd.run_pure_bind, Broker.emit, Cmd.run_modify_bind]
        exact sendDataLoop_spoken buf buf.length buf.length _ (.inr (.refl _))
      · trivial

/-! ### Calls of `c_deliver` -/

/-- The state behind some deliveries that lost nobody: packet ids have been given out and
these packets have been handed over. -/
structure Visited (b : State) (mp : Message) (d : State) (handed : List (SubRef × List Byte)) : Prop
    extends Renumbered b d where
  packets : ∀ c, packetsTo c d.log =
    packetsTo c b.log ++ (handed.filter fun entry => entry.1.1 = c).map Prod.snd
  packs : ∀ entry ∈ handed, Packs b mp entry.1 entry.2

variable {handed : List (SubRef × List Byte)} {ref : SubRef} {packet : List Byte}

theorem Visited.refl (b : State) (mp : Message) : Visited b mp b [] :=
  ⟨.refl b, by simp, by simp⟩

theorem Visited.stamp {mp : Message} (visited : Visited b mp d handed) {q : Client}
    (present : d.clients c = some q) (msgId : Nat) :
    Visited b mp (d.putClient c { q with msgId }) handed :=
  ⟨visited.count present msgId, visited.packets, visited.packs⟩

/-- A packet is handed over. -/
theorem Visited.hand {mp : Message} (visited : Visited b mp d handed) (packs : Packs b mp ref packet)
    (wired : Wired (d.emit (.packet ref.1 packet)) e) : Visited b mp e (handed ++ [(ref, packet)]) := by
  refine ⟨?_, fun c => ?_, ?_⟩
  · rw [wired.same]
    exact visited.logged _ _
  · rw [wired.packets, State.emit, packetsTo_append, visited.packets, List.append_assoc,
      List.filter_append, List.map_append]
    by_cases here : ref.1 = c
    · simp [packetsTo, here]
    · simp [packetsTo, here]
  · intro entry member
    rcases List.mem_append.mp member with old | new
    · exact visited.packs entry old
    · rw [List.mem_singleton.mp new]
      exact packs

/-- A delivery hands the packet over and loses nobody, or its client is gone. -/
theorem deliverTo_visited (visited : Visited b mp.message d handed) (present : b.clients ref.1 = some p)
    (found : b.messages m = some mp) :
    Cmd.Leads (fun _ _ => True) (fun _ e => e.clients ref.1 = none ∨ ∃ packet,
      Visited b mp.message e (handed ++ [(ref, packet)])) ((deliverTo cfg m ref).run d) := by
  obtain ⟨old, there⟩ := visited.clients ref.1
  rw [present, Option.map_some] at there
  have read : (message m).run d = (.ok mp, d) := message_run (by rw [visited.messages, found])
  -- the client's record may hold a new packet id when the packet is sent
  have sends : ∀ (f : State) (msgId : Nat), Visited b mp.message f handed → msgId < 2 ^ 16 →
      Cmd.Leads (fun _ _ => True) (fun _ e => e.clients ref.1 = none ∨ ∃ packet,
          Visited b mp.message e (handed ++ [(ref, packet)]))
        ((do let _ ← cSendData cfg ref.1 (encodePublish sendBufLen mp.message
              (min mp.message.origQos (p.subscriptions ref.2).qos) msgId) : Code Unit).run f) := by
    intro f msgId visited small
    refine (cSendData_spoken f _).bind _ fun _ e spoken => ?_
    rcases spoken with gone | wired
    · exact .inl gone
    · exact .inr ⟨_, visited.hand ⟨p, msgId, present, small, rfl⟩ wired⟩
  have counted := nextMsgId_run there (min mp.message.origQos (p.subscriptions ref.2).qos)
  rw [deliverTo, Cmd.bind_ok (client_run there), Cmd.bind_ok read]
  split at counted
  · rw [Cmd.bind_ok counted]
    exact sends _ _ (visited.stamp there _) (Nat.mod_lt _ (by decide))
  · rw [Cmd.bind_ok counted]
    exact sends d 0 visited (by decide)

private theorem cDeliver_visited (cfg : Config) (visited : Visited b mp.message d handed) (present : b.clients ref.1 = some p)
    (found : b.messages m = some mp) :
    if connectedAt b ref then
      Cmd.Leads (fun _ _ => True) (fun _ e => e.clients ref.1 = none ∨ ∃ packet,
        Visited b mp.message e (handed ++ [(ref, packet)])) ((cDeliver cfg m ref).run d)
    else (cDeliver cfg m ref).run d = (.ok (), d) := by
  obtain ⟨old, there⟩ := visited.clients ref.1
  rw [present, Option.map_some] at there
  rw [cDeliver, Cmd.bind_ok (client_run there)]
  by_cases connected : p.state = .connected
  · simp only [connectedAt, present, connected, onlyIf, decide_true, if_true]
    exact deliverTo_visited visited present found
  · simp [connectedAt, present, connected, onlyIf]

/-! ### The search -/

variable {w : Nat} {live : List (SubRef × List Byte)} {refs : List SubRef}

/-- One after the other the calls of `c_deliver` return and leave their client in place. -/
def Taken (cfg : Config) (m : MsgId) : List SubRef → State → Prop
  | [], _ => True
  | ref :: refs, b =>
      ∃ d, (cDeliver cfg m ref).run b = (.ok (), d) ∧ (d.clients ref.1).isSome ∧ Taken cfg m refs d

/-- Between two calls. -/
def Underway (b : State) (mp : Message) (d : State) : Prop :=
  ∃ handed, Visited b mp d handed

theorem Underway.present {mp : Message} (underway : Underway b mp d) (present : b.clients c = some p) :
    (d.clients c).isSome := by
  obtain ⟨handed, visited⟩ := underway
  obtain ⟨msgId, there⟩ := visited.clients c
  simp [there, present]

/-- A call that returns and leaves its client in place changes little else. -/
theorem cDeliver_underway (underway : Underway b mp.message d) (present : b.clients ref.1 = some p)
    (found : b.messages m = some mp) (returns : (cDeliver cfg m ref).run d = (.ok (), e))
    (stays : (e.clients ref.1).isSome) : Underway b mp.message e := by
  obtain ⟨handed, visited⟩ := underway
  have outcome := cDeliver_visited cfg visited present found
  split at outcome
  · rw [returns] at outcome
    rcases outcome with gone | ⟨packet, later⟩
    · simp [gone] at stays
    · exact ⟨_, later⟩
  · obtain rfl : e = d := (Prod.mk.inj (returns.symm.trans outcome)).2
    exact ⟨handed, visited⟩

private theorem passes_cDeliver (underway : Underway b mp.message d) (found : b.messages m = some mp)
    (there : ∀ ref ∈ refs, (b.clients ref.1).isSome) :
    Cmd.Passes (cDeliver cfg m) (Underway b mp.message) refs d ↔ Taken cfg m refs d := by
  induction refs generalizing d with
  | nil => exact Iff.rfl
  | cons ref refs inductionHypothesis =>
      obtain ⟨p, present⟩ := Option.isSome_iff_exists.mp (there ref (by simp))
      have others := fun other member => there other (List.mem_cons_of_mem ref member)
      constructor
      · intro passes
        obtain ⟨next, returns, kept, later⟩ := passes
        exact ⟨next, returns, kept.present present, (inductionHypothesis kept others).mp later⟩
      · intro taken
        obtain ⟨next, returns, stays, later⟩ := taken
        have kept := cDeliver_underway underway present found returns stays
        exact ⟨next, returns, kept, (inductionHypothesis kept others).mpr later⟩

/-- The packets handed over are those for the connected subscriptions, in order. -/
theorem Taken.hands (taken : Taken cfg m refs d) (visited : Visited b mp.message d handed)
    (found : b.messages m = some mp) (there : ∀ ref ∈ refs, (b.clients ref.1).isSome) :
    ∃ e more, (Cmd.each (cDeliver cfg m) refs).run d = (.ok (), e) ∧
      Visited b mp.message e (handed ++ more) ∧ more.map Prod.fst = refs.filter (connectedAt b) := by
  induction refs generalizing d handed with
  | nil => exact ⟨d, [], rfl, by simpa using visited, rfl⟩
  | cons ref refs inductionHypothesis =>
      obtain ⟨p, present⟩ := Option.isSome_iff_exists.mp (there ref (by simp))
      have others := fun other member => there other (List.mem_cons_of_mem ref member)
      obtain ⟨next, returns, stays, later⟩ := taken
      have outcome := cDeliver_visited cfg visited present found
      split at outcome
      · rename_i connected
        rw [returns] at outcome
        rcases outcome with gone | ⟨packet, visited'⟩
        · simp [gone] at stays
        · obtain ⟨e, more, ran, final, listed⟩ := inductionHypothesis later visited' others
          refine ⟨e, (ref, packet) :: more, Cmd.each_cons_ok returns ran, ?_, ?_⟩
          · simpa using final
          · simp [connected, listed]
      · rename_i apart
        obtain rfl : next = d := (Prod.mk.inj (returns.symm.trans outcome)).2
        obtain ⟨e, more, ran, final, listed⟩ := inductionHypothesis later visited others
        exact ⟨e, more, Cmd.each_cons_ok returns ran, final, by simp [apart, listed]⟩

private theorem visits_cDeliver (agrees : Agrees b w live) (found : b.messages m = some mp) :
    Visits (table w) (cDeliver cfg m) b.nodes (b.subs w) (entriesOf live)
      (Underway b mp.message) where
  head := by
    rintro d ⟨handed, visited⟩
    exact congrFun visited.subs w
  node := by
    rintro d path ref ⟨handed, visited⟩ member
    exact visited.node agrees member
  self := by
    intro path ref member
    obtain ⟨filter, listed, _⟩ := mem_entriesOf.mp member
    exact agrees.holds.self _ listed
  call := by
    intro d path ref underway member
    obtain ⟨filter, listed, _⟩ := mem_entriesOf.mp member
    obtain ⟨p, present, _⟩ := (agrees.entries ref filter).mp listed
    cases outcome : (cDeliver cfg m ref).run d with
    | mk result e =>
        cases result with
        | error fault => exact .inr (by simp [Breaks, outcome])
        | ok value =>
            cases stays : e.clients ref.1 with
            | none => exact .inr (by simp [Breaks, outcome, table, stays])
            | some q => exact .inl ⟨e, rfl, cDeliver_underway underway present found outcome (by simp [stays])⟩

/-! ### Survival -/

/-- The subscription is in the table under a filter that the topic matches by the level
rule; a topic that starts with `$` is matched behind that byte. -/
def Reaches (live : List (SubRef × List Byte)) (topic : List Byte) (ref : SubRef) : Prop :=
  ∃ filter, (ref, filter) ∈ live ∧
    if topic.head? = some dollar then
      ∃ rest, dropLocal filter = dollar :: rest ∧ Wildcard.Matches topicMarks rest topic.tail = true
    else filterMatches filter topic = true

private theorem mem_topicHits_iff {topic : List Byte} :
    ref ∈ topicHits (entriesOf live) topic ↔ Reaches live topic ref := by
  rw [mem_topicHits]
  unfold Reaches
  split
  · constructor
    · intro hit
      obtain ⟨rest, member, accepts⟩ := hit
      obtain ⟨filter, listed, path⟩ := mem_entriesOf.mp member
      exact ⟨filter, listed, rest, path, accepts⟩
    · intro reaches
      obtain ⟨filter, listed, rest, path, accepts⟩ := reaches
      exact ⟨rest, mem_entriesOf.mpr ⟨filter, listed, path⟩, accepts⟩
  · constructor
    · intro hit
      obtain ⟨path, member, accepts⟩ := hit
      obtain ⟨filter, listed, rfl⟩ := mem_entriesOf.mp member
      exact ⟨filter, listed, accepts⟩
    · intro reaches
      obtain ⟨filter, listed, accepts⟩ := reaches
      exact ⟨dropLocal filter, mem_entriesOf.mpr ⟨filter, listed, rfl⟩, accepts⟩

/-- The search of `w_deliver` comes to its end, and every connected client that is still
there has been handed one PUBLISH for each of its matching subscriptions. -/
def Survives (cfg : Config) (w : Nat) (m : MsgId) (mp : Message) (live : List (SubRef × List Byte))
    (b : State) : Prop :=
  ∃ count final, (subSearch (table w) (cDeliver cfg m) b.listBound mp.topic).run b = (.ok count, final) ∧
    ∀ c p, b.clients c = some p → p.state = .connected → (final.clients c).isSome →
      ∃ sent : List (Nat × List Byte),
        packetsTo c final.log = packetsTo c b.log ++ sent.map Prod.snd ∧
        (sent.map Prod.fst).Nodup ∧
        (∀ i, i ∈ sent.map Prod.fst ↔ Reaches live (cstr mp.topic) (c, i)) ∧
        ∀ entry ∈ sent, Packs b mp (c, entry.1) entry.2 ∧ entry.2 ≠ []

/-- The message fits the send buffer with the QoS of a subscription. -/
def FitsFor (b : State) (mp : Message) (ref : SubRef) : Prop :=
  ∀ p, b.clients ref.1 = some p →
    packetLen (publishLen (min mp.origQos (p.subscriptions ref.2).qos) mp.topic.length mp.payload.length) ≤
      sendBufLen

/-- No send to a matching subscription fails; the message fits; and the search meets no
subscription twice, as it does none for a topic without wildcards. -/
structure Unbroken (cfg : Config) (m : MsgId) (mp : Message) (hits : List SubRef) (b : State) : Prop where
  taken : Taken cfg m hits b
  fits : ∀ ref ∈ hits, connectedAt b ref = true → FitsFor b mp ref
  once : (hits.filter (connectedAt b)).Nodup

private theorem topicHits_there (agrees : Agrees b w live) {topic : List Byte} :
    ∀ ref ∈ topicHits (entriesOf live) topic, (b.clients ref.1).isSome := by
  intro ref member
  obtain ⟨path, listed⟩ := mem_entries_of_topicHits member
  obtain ⟨filter, entry, -⟩ := mem_entriesOf.mp listed
  obtain ⟨p, present, -⟩ := (agrees.entries ref filter).mp entry
  simp [present]

/-- While no call loses its client the search returns, and has handed over the packets for
the connected subscriptions. -/
theorem Taken.search (agrees : Agrees b w live)
    (bounded : ∀ c p, b.clients c = some p → c < b.nextClient ∧ p.numSubs ≤ maxSubs)
    (found : b.messages m = some mp)
    (taken : Taken cfg m (topicHits (entriesOf live) (cstr mp.message.topic)) b) :
    ∃ count final handed,
      (subSearch (table w) (cDeliver cfg m) b.listBound mp.message.topic).run b = (.ok count, final) ∧
        Visited b mp.message final handed ∧ handed.map Prod.fst =
          (topicHits (entriesOf live) (cstr mp.message.topic)).filter (connectedAt b) := by
  have begun : Underway b mp.message b := ⟨[], .refl b mp.message⟩
  obtain ⟨final, handed, ran, visited, listed⟩ := taken.hands (.refl b mp.message) found
    (topicHits_there agrees)
  rcases agrees.holds.search_visits (visits_cDeliver agrees found) (agrees.length_le bounded)
      mp.message.topic begun with ⟨-, final', calls, -, searched⟩ | ⟨breaks, -⟩
  · obtain rfl : final = final' := (Prod.mk.inj (ran.symm.trans calls)).2
    exact ⟨_, final, handed, searched, visited, listed⟩
  · exact absurd ((passes_cDeliver begun found (topicHits_there agrees)).mpr taken) breaks

/-- A search that returns has lost nobody. -/
theorem taken_of_search (agrees : Agrees b w live)
    (bounded : ∀ c p, b.clients c = some p → c < b.nextClient ∧ p.numSubs ≤ maxSubs)
    (found : b.messages m = some mp) {count : Nat} {final : State}
    (searched : (subSearch (table w) (cDeliver cfg m) b.listBound mp.message.topic).run b =
      (.ok count, final)) :
    Taken cfg m (topicHits (entriesOf live) (cstr mp.message.topic)) b := by
  have begun : Underway b mp.message b := ⟨[], .refl b mp.message⟩
  rcases agrees.holds.search_visits (visits_cDeliver agrees found) (agrees.length_le bounded)
      mp.message.topic begun with ⟨passes, -⟩ | ⟨-, fault, final', stops⟩
  · exact (passes_cDeliver begun found (topicHits_there agrees)).mp passes
  · simp [stops] at searched

section Handed

variable {hits : List SubRef}

/-- What was handed over for one client. -/
def handedTo (c : ClientId) (handed : List (SubRef × List Byte)) : List (Nat × List Byte) :=
  (handed.filter fun entry => entry.1.1 = c).map fun entry => (entry.1.2, entry.2)

private theorem mem_handedTo {i : Nat} : (i, packet) ∈ handedTo c handed ↔ ((c, i), packet) ∈ handed := by
  simp [handedTo]

private theorem mem_map_handedTo {i : Nat} :
    i ∈ (handedTo c handed).map Prod.fst ↔ (c, i) ∈ handed.map Prod.fst := by
  simp [handedTo]

theorem Visited.handedTo {mp : Message} (visited : Visited b mp d handed) (c : ClientId) :
    packetsTo c d.log = packetsTo c b.log ++ (handedTo c handed).map Prod.snd := by
  rw [visited.packets, Broker.handedTo, List.map_map]
  rfl

private theorem count_handedTo (ref : SubRef) :
    (handed.map Prod.fst).count ref = ((handedTo ref.1 handed).map Prod.fst).count ref.2 := by
  rw [handedTo, List.map_map, List.count, List.count, List.countP_map, List.countP_map,
    List.countP_filter]
  refine List.countP_congr fun entry _ => ?_
  obtain ⟨⟨c, i⟩, packet⟩ := entry
  obtain ⟨d, j⟩ := ref
  simp [and_comm]

/-- The share of a connected client: its matching subscriptions, each with its packet. -/
theorem Unbroken.handedTo (unbroken : Unbroken cfg m mp.message
      (topicHits (entriesOf live) (cstr mp.message.topic)) b)
    (visited : Visited b mp.message d handed)
    (listed : handed.map Prod.fst =
      (topicHits (entriesOf live) (cstr mp.message.topic)).filter (connectedAt b))
    (present : b.clients c = some p) (connected : p.state = .connected) :
    ∃ sent : List (Nat × List Byte), packetsTo c d.log = packetsTo c b.log ++ sent.map Prod.snd ∧
      (sent.map Prod.fst).Nodup ∧
      (∀ i, i ∈ sent.map Prod.fst ↔ Reaches live (cstr mp.message.topic) (c, i)) ∧
      ∀ entry ∈ sent, Packs b mp.message (c, entry.1) entry.2 ∧ entry.2 ≠ [] := by
  have online : ∀ i, connectedAt b (c, i) = true := by simp [connectedAt, present, connected]
  refine ⟨Broker.handedTo c handed, visited.handedTo c, ?_, fun i => ?_, fun entry member => ?_⟩
  · refine List.nodup_iff_count_le_one.mpr fun i => ?_
    rw [← count_handedTo (c, i), listed]
    exact List.nodup_iff_count_le_one.mp unbroken.once (c, i)
  · rw [mem_map_handedTo, listed, List.mem_filter, mem_topicHits_iff]
    simp [online i]
  · obtain ⟨i, packet⟩ := entry
    have given := mem_handedTo.mp member
    have packs := visited.packs _ given
    refine ⟨packs, ?_⟩
    have hit : (c, i) ∈ handed.map Prod.fst := List.mem_map.mpr ⟨_, given, rfl⟩
    rw [listed, List.mem_filter] at hit
    obtain ⟨q, msgId, there, -, isPacket⟩ := packs
    dsimp only at isPacket ⊢
    rw [isPacket]
    exact encodePublish_ne_nil_iff.mpr (unbroken.fits (c, i) hit.1 hit.2 q there)

/-- What every connected client has been handed shows that nothing was in the way. -/
theorem unbroken_of_handed (taken : Taken cfg m (topicHits (entriesOf live) (cstr mp.message.topic)) b)
    (visited : Visited b mp.message d handed)
    (listed : handed.map Prod.fst =
      (topicHits (entriesOf live) (cstr mp.message.topic)).filter (connectedAt b))
    (clients : ∀ c p, b.clients c = some p → p.state = .connected → (d.clients c).isSome →
      ∃ sent : List (Nat × List Byte), packetsTo c d.log = packetsTo c b.log ++ sent.map Prod.snd ∧
        (sent.map Prod.fst).Nodup ∧
        (∀ i, i ∈ sent.map Prod.fst ↔ Reaches live (cstr mp.message.topic) (c, i)) ∧
        ∀ entry ∈ sent, Packs b mp.message (c, entry.1) entry.2 ∧ entry.2 ≠ []) :
    Unbroken cfg m mp.message (topicHits (entriesOf live) (cstr mp.message.topic)) b := by
  have shares : ∀ ref, connectedAt b ref = true → ((handedTo ref.1 handed).map Prod.fst).Nodup ∧
      ∀ packet ∈ (handedTo ref.1 handed).map Prod.snd, packet ≠ [] := by
    intro ref connected
    obtain ⟨p, present, state⟩ : ∃ p, b.clients ref.1 = some p ∧ p.state = .connected := by
      unfold connectedAt at connected
      split at connected
      · rename_i p present
        exact ⟨p, present, of_decide_eq_true connected⟩
      · simp at connected
    have stays : (d.clients ref.1).isSome := Underway.present ⟨handed, visited⟩ present
    obtain ⟨sent, packets, distinct, indices, entries⟩ := clients ref.1 p present state stays
    rw [visited.handedTo] at packets
    have same : (handedTo ref.1 handed).map Prod.snd = sent.map Prod.snd := List.append_cancel_left packets
    constructor
    · have subset : sent.map Prod.fst ⊆ (handedTo ref.1 handed).map Prod.fst := by
        intro i member
        rw [mem_map_handedTo, listed, List.mem_filter, mem_topicHits_iff]
        exact ⟨(indices i).mp member, by simp [connectedAt, present, state]⟩
      have lengths : ((handedTo ref.1 handed).map Prod.fst).length ≤ (sent.map Prod.fst).length := by
        have := congrArg List.length same
        simp only [List.length_map] at this ⊢
        omega
      exact ((List.subperm_of_subset distinct subset).perm_of_length_le lengths).nodup distinct
    · intro packet member
      rw [same] at member
      obtain ⟨entry, inside, rfl⟩ := List.mem_map.mp member
      exact (entries entry inside).2
  refine ⟨taken, fun ref hit connected p present => ?_, ?_⟩
  · have member : ref ∈ handed.map Prod.fst := by
      rw [listed]
      exact List.mem_filter.mpr ⟨hit, connected⟩
    obtain ⟨⟨other, packet⟩, given, rfl⟩ := List.mem_map.mp member
    obtain ⟨q, msgId, there, -, isPacket⟩ := visited.packs _ given
    obtain rfl : p = q := Option.some.inj (present.symm.trans there)
    apply encodePublish_ne_nil_iff.mp
    rw [← isPacket]
    refine (shares other connected).2 packet (List.mem_map.mpr ⟨(other.2, packet), ?_, rfl⟩)
    exact mem_handedTo.mpr given
  · rw [← listed]
    refine List.nodup_iff_count_le_one.mpr fun ref => ?_
    by_cases member : ref ∈ handed.map Prod.fst
    · rw [count_handedTo]
      rw [listed] at member
      exact List.nodup_iff_count_le_one.mp (shares ref (List.mem_filter.mp member).2).1 ref.2
    · rw [List.count_eq_zero.mpr member]
      exact Nat.zero_le 1

end Handed

/-- The search of a delivery survives if and only if it loses no subscriber, for a message
that fits and a topic under which nobody is met twice. -/
theorem delivery_survives_iff (agrees : Agrees b w live)
    (bounded : ∀ c p, b.clients c = some p → c < b.nextClient ∧ p.numSubs ≤ maxSubs)
    (found : b.messages m = some mp) :
    Survives cfg w m mp.message live b ↔
      Unbroken cfg m mp.message (topicHits (entriesOf live) (cstr mp.message.topic)) b := by
  constructor
  · intro survives
    obtain ⟨count, final, searched, clients⟩ := survives
    have taken := taken_of_search agrees bounded found searched
    obtain ⟨_, final', handed, ran, visited, listed⟩ := taken.search agrees bounded found
    obtain rfl : final = final' := (Prod.mk.inj (searched.symm.trans ran)).2
    exact unbroken_of_handed taken visited listed clients
  · intro unbroken
    obtain ⟨count, final, handed, searched, visited, listed⟩ := unbroken.taken.search agrees bounded found
    exact ⟨count, final, searched, fun c p present connected _ =>
      unbroken.handedTo visited listed present connected⟩

/-- The subscribers of a run are connected and a message with the topic `a` waits for them. -/
def waiting (sends : List Sent) (run : Run) : State :=
  { run.state with
    clients := fun c => (run.state.clients c).map fun p => { p with state := .connected }
    messages := fun _ => some ⟨⟨0, 1, 0, 7, [97], [98]⟩, .client 0, fun _ => true⟩
    answers := { silent with sends } }

theorem Linked.waiting {run : Run} (linked : Linked w run.state) (sends : List Sent) :
    Linked w (waiting sends run) := by
  obtain ⟨⟨live, agrees⟩, own⟩ := linked
  refine ⟨⟨live, agrees.holds, fun ref filter => (agrees.entries ref filter).trans ?_⟩, fun c p found => ?_⟩
  · simp [Broker.waiting]
  · obtain ⟨q, there, rfl⟩ := Option.map_eq_some_iff.mp found
    exact own c q there

/-- The search for that message. -/
def searching (sends : List Sent) (run : Run) : Except Fault Nat × State :=
  (subSearch (table 0) (cDeliver (oneWorker true) 0) (waiting sends run).listBound [97]).run
    (waiting sends run)

/-- Two clients subscribe to `a`. -/
def twoSubscribers : Option Run :=
  ((tableUses (oneWorker true) 0).restrict Tidy).run start
    [.accept false false [], .accept false false [], .subscribe 0 (filtering [lit "a"]) silent,
      .subscribe 1 (filtering [lit "a"]) silent]

/-- A client whose first subscription is `a` is one of those the message is for. -/
theorem waiting_reaches {run : Run} {sends : List Sent} (linked : Linked w (waiting sends run))
    (agrees : Agrees (waiting sends run) w live)
    (subscribed : (run.state.clients c).map (fun p => (p.numSubs, (p.subscriptions 0).filter)) =
      some (1, lit "a")) : Reaches live [97] (c, 0) := by
  obtain ⟨p, present, entry⟩ := Option.map_eq_some_iff.mp subscribed
  obtain ⟨one, filter⟩ := Prod.mk.inj entry
  have there : (waiting sends run).clients c = some { p with state := .connected } := by
    simp [waiting, present]
  refine ⟨_, agrees.mem there (linked.clients c _ there).1 (show 0 < p.numSubs by omega), ?_⟩
  show filterMatches (cstr (p.subscriptions 0).filter) [97] = true
  rw [filter]
  decide

/-- Both sends succeed. -/
theorem delivery_survives_iff_both :
    ∃ b live mp, b.messages 0 = some mp ∧ Reaches live [97] (0, 0) ∧ Reaches live [97] (1, 0) ∧
      Survives (oneWorker true) 0 0 mp.message live b := by
  have ran : twoSubscribers.map (fun run => ((searching [] run).1.toOption,
        (run.state.clients 0).map fun p => (p.numSubs, (p.subscriptions 0).filter),
        (run.state.clients 1).map fun p => (p.numSubs, (p.subscriptions 0).filter))) =
      some (some 2, some (1, lit "a"), some (1, lit "a")) := by
    decide +kernel
  obtain ⟨run, reached, seen⟩ := Option.map_eq_some_iff.mp ran
  obtain ⟨searched, subscribers⟩ := Prod.mk.inj seen
  obtain ⟨first, second⟩ := Prod.mk.inj subscribers
  have linked := (linked_reachable (System.Reachable.run (.start rfl) reached)).waiting []
  obtain ⟨live, agrees⟩ := linked.agrees
  have bounded := fun c p found => (linked.clients c p found).2
  refine ⟨waiting [] run, live, _, rfl, waiting_reaches linked agrees first,
    waiting_reaches linked agrees second, ?_⟩
  refine (delivery_survives_iff agrees bounded rfl).mpr ⟨?_, ?_, ?_⟩
  · cases outcome : searching [] run with
    | mk result final =>
        rw [outcome] at searched
        cases result with
        | ok count => exact taken_of_search agrees bounded rfl outcome
        | error fault => simp [Except.toOption] at searched
  · intro ref _ _ p _
    unfold packetLen publishLen sendBufLen
    dsimp only
    split_ifs <;> decide
  · have perm := agrees.holds.topicHits_perm (show plus ∉ [97] by decide) (by decide) (by decide)
    refine (perm.nodup_iff.mpr ?_).filter _
    exact agrees.holds.distinct.sublist (List.filter_sublist.map Prod.fst)

/-- The send to the first client fails: `found_list` reads the node in the freed client, and
the second one, which is connected too, is sent nothing. -/
theorem delivery_stops_at_lost_subscriber :
    ∃ b live mp final, Agrees b 0 live ∧ b.messages 0 = some mp ∧
      (subSearch (table 0) (cDeliver (oneWorker true) 0) b.listBound mp.message.topic).run b =
        (.error .useAfterFree, final) ∧
      (final.clients 1).map (fun p => p.state) = some .connected ∧ Reaches live [97] (1, 0) ∧
      packetsTo 1 final.log = packetsTo 1 b.log ∧
      ¬ Survives (oneWorker true) 0 0 mp.message live b := by
  have ran : twoSubscribers.map (fun run => ((searching [.error []] run).1,
        ((searching [.error []] run).2.clients 1).map fun p => p.state,
        (run.state.clients 1).map fun p => (p.numSubs, (p.subscriptions 0).filter))) =
      some (.error .useAfterFree, some .connected, some (1, lit "a")) := by
    decide +kernel
  have silence : twoSubscribers.map (fun run => decide
      (packetsTo 1 (searching [.error []] run).2.log = packetsTo 1 (waiting [.error []] run).log)) =
      some true := by
    decide +kernel
  obtain ⟨run, reached, seen⟩ := Option.map_eq_some_iff.mp ran
  rw [reached, Option.map_some, Option.some.injEq, decide_eq_true_eq] at silence
  simp only [Prod.mk.injEq] at seen
  obtain ⟨stops, connected, subscribed⟩ := seen
  have linked := (linked_reachable (System.Reachable.run (.start rfl) reached)).waiting [.error []]
  obtain ⟨live, agrees⟩ := linked.agrees
  refine ⟨waiting [.error []] run, live, _, _, agrees, rfl, Prod.ext stops rfl, connected,
    waiting_reaches linked agrees subscribed, silence, ?_⟩
  intro survives
  obtain ⟨count, final, searched, -⟩ := survives
  have returned : Except.ok count = Except.error Fault.useAfterFree :=
    (congrArg Prod.fst searched).symm.trans stops
  cases returned

end FbBroker.Broker
