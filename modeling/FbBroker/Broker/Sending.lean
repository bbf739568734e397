import FbBroker.Broker.Conduct

/-!
Contract: what `c_send_data` puts on the wire while all writes are taken.

Owns the exact events of a packet on each of the three transports, and that
nothing else of the state changes.
-/

set_option autoImplicit false

namespace FbBroker.Broker

open FbBroker.Lib FbBroker.Packet FbBroker.Parser

variable (cfg : Config) {c : ClientId} {b b' b'' : State} {p : Client} {buf : List Byte}

/-- A state that differs by the answers taken and these events at the end of the log. -/
structure Heard (b b' : State) (events : List Event) : Prop where
  same : b' = { b with answers := b'.answers, log := b.log ++ events }
  good : b'.answers.Good
  db : b'.answers.db = b.answers.db

theorem Heard.refl (good : b.answers.Good) : Heard b b [] :=
  ⟨by simp, good, rfl⟩

theorem Heard.trans {first second : List Event} (left : Heard b b' first) (right : Heard b' b'' second) :
    Heard b b'' (first ++ second) := by
  refine ⟨?_, right.good, right.db.trans left.db⟩
  rw [right.same, left.same]
  simp

theorem Heard.clients {events : List Event} (heard : Heard b b' events) : b'.clients = b.clients := by
  rw [heard.same]

theorem Heard.emit (good : b.answers.Good) (event : Event) : Heard b (b.emit event) [event] :=
  ⟨rfl, good, rfl⟩

/-- The events of a packet on the client's transport: the bytes themselves, a frame around
them, or what the SSL layer made of them. -/
inductive Carried (c : ClientId) (p : Client) (buf : List Byte) : List Event → Prop
  | wire (noTls : p.isTls = false) (noWs : p.isWs = false) :
      Carried c p buf [.packet c buf, .wire c buf]
  | frame (noTls : p.isTls = false) (ws : p.isWs = true) :
      Carried c p buf [.packet c buf, .wire c (wsHeader buf.length), .wire c buf]
  | tls (secure : p.isTls = true) (records : List (List Byte)) :
      Carried c p buf (.packet c buf :: .plain c buf :: records.map (.wire c))

private theorem send_heard (good : b.answers.Good) (buf : List Byte) :
    ∃ b', (send c buf).run b = (.ok .full, b') ∧ Heard b b' [.wire c buf] := by
  refine ⟨{ b with
      answers := { b.answers with sends := b.answers.sends.tail }, log := b.log ++ [.wire c buf] },
    ?_, rfl, good.subset ⟨fun _ => List.mem_of_mem_tail, List.Subset.refl _⟩, rfl⟩
  unfold send
  simp only [Cmd.run_get_bind, Cmd.run_modify_bind, headD_of_forall (· = Sent.full) good.1 rfl]
  rfl

private theorem cSendDataWire_heard (present : b.clients c = some p) (notClosing : p.state ≠ .closing)
    (good : b.answers.Good) (some : buf ≠ []) :
    ∃ b', (cSendDataWire cfg c buf).run b = (.ok buf.length, b') ∧ Heard b b' [.wire c buf] := by
  obtain ⟨b', sent, heard⟩ := send_heard (c := c) good buf
  refine ⟨b', ?_, heard⟩
  rw [cSendDataWire, Cmd.bind_ok (client_run present)]
  cases buf with
  | nil => exact absurd rfl some
  | cons byte buf =>
      simp only [assert, notClosing, ne_eq, not_false_eq_true, decide_true, if_true, Cmd.run_pure_bind,
        List.length_cons, sendLoop]
      rw [Cmd.bind_ok (client_run present), Cmd.bind_ok sent]
      simp

private theorem cSendDataWs_heard (present : b.clients c = some p) (notClosing : p.state ≠ .closing)
    (good : b.answers.Good) (some : buf ≠ []) (short : buf.length < 2 ^ 16) :
    ∃ b', (cSendDataWs cfg c buf).run b = (.ok buf.length, b') ∧
      Heard b b' [.wire c (wsHeader buf.length), .wire c buf] := by
  have header : wsHeader buf.length ≠ [] := by
    unfold wsHeader
    split <;> simp
  obtain ⟨middle, framed, first⟩ := cSendDataWire_heard cfg present notClosing good header
  obtain ⟨b', sent, second⟩ := cSendDataWire_heard cfg
    (first.clients ▸ present) notClosing first.good some
  refine ⟨b', ?_, first.trans second⟩
  rw [cSendDataWs, if_pos short, Cmd.bind_ok framed, Cmd.bind_ok sent, Cmd.run_pure]

private theorem sendRecords_heard (present : b.clients c = some p) (notClosing : p.state ≠ .closing)
    (good : b.answers.Good) (records : List (List Byte)) :
    ∃ b', (sendRecords cfg c records).run b = (.ok (), b') ∧
      Heard b b' ((records.filter (· ≠ [])).map (.wire c)) := by
  induction records generalizing b with
  | nil =>
      refine ⟨b, ?_, .refl good⟩
      rw [sendRecords, Cmd.bind_ok (client_run present), Cmd.run_pure]
  | cons record records inductionHypothesis =>
      rw [sendRecords, Cmd.bind_ok (client_run present)]
      by_cases empty : record = []
      · obtain ⟨b', ran, heard⟩ := inductionHypothesis present good
        refine ⟨b', ?_, by simpa [empty] using heard⟩
        have skipped : (cSendDataWire cfg c record).run b = (.ok 0, b) := by
          rw [cSendDataWire, Cmd.bind_ok (client_run present)]
          simp [assert, notClosing, empty, sendLoop]
        rw [Cmd.bind_ok skipped, ran]
      · obtain ⟨middle, sent, first⟩ := cSendDataWire_heard cfg present notClosing good empty
        obtain ⟨b', ran, second⟩ := inductionHypothesis (first.clients ▸ present) first.good
        refine ⟨b', by rw [Cmd.bind_ok sent, ran], ?_⟩
        simpa [empty] using first.trans second

private theorem tlsWrite_heard (present : b.clients c = some p) (notClosing : p.state ≠ .closing)
    (good : b.answers.Good) (buf : List Byte) :
    ∃ (b' : State) (records : List (List Byte)), (tlsWrite cfg c buf).run b = (.ok buf.length, b') ∧
      Heard b b' (.plain c buf :: records.map (.wire c)) := by
  obtain ⟨records, full⟩ : ∃ records, b.answers.tlsWrites.headD (.full []) = .full records := by
    have := @headD_of_forall _ (TlsWrite.isFull · = true) _ (.full []) good.2 rfl
    revert this
    cases b.answers.tlsWrites.headD (.full []) <;> simp [TlsWrite.isFull]
  have written : ∃ middle, (sslWrite c buf).run b = (.ok (.full records), middle) ∧
      Heard b middle [.plain c buf] := by
    refine ⟨{ b with
        answers := { b.answers with tlsWrites := b.answers.tlsWrites.tail }
        log := b.log ++ [.plain c buf] }, ?_, rfl, good.subset ⟨List.Subset.refl _, fun _ => List.mem_of_mem_tail⟩, rfl⟩
    unfold sslWrite
    simp only [Cmd.run_get_bind, Cmd.run_modify_bind, full]
    rfl
  obtain ⟨middle, wrote, first⟩ := written
  obtain ⟨b', sent, second⟩ := sendRecords_heard cfg (first.clients ▸ present) notClosing
    first.good records
  refine ⟨b', records.filter (· ≠ []), ?_, first.trans second⟩
  rw [tlsWrite, Cmd.bind_ok (client_run present), Cmd.bind_ok wrote]
  dsimp only
  rw [Cmd.bind_ok sent, Cmd.run_pure]

/-- A packet is put on the client's transport once and as a whole. -/
theorem cSendData_carried (present : b.clients c = some p) (notClosing : p.state ≠ .closing)
    (good : b.answers.Good) (some : buf ≠ []) (short : buf.length < 2 ^ 16) :
    ∃ b' events, (cSendData cfg c buf).run b = (.ok 0, b') ∧ Heard b b' events ∧
      Carried c p buf events := by
  have packet := Heard.emit good (.packet c buf)
  have there : (b.emit (.packet c buf)).clients c = .some p := present
  -- one round of the loop takes the whole buffer
  have round : ∃ b' events, (transportWrite cfg c buf).run (b.emit (.packet c buf)) =
      (.ok buf.length, b') ∧ Heard (b.emit (.packet c buf)) b' events ∧
      Carried c p buf (.packet c buf :: events) := by
    rw [transportWrite, Cmd.bind_ok (client_run there)]
    cases tls : p.isTls with
    | true =>
        obtain ⟨b', records, wrote, heard⟩ := tlsWrite_heard cfg there notClosing packet.good buf
        exact ⟨b', _, wrote, heard, .tls tls records⟩
    | false =>
        cases ws : p.isWs with
        | true =>
            obtain ⟨b', sent, heard⟩ := cSendDataWs_heard cfg there notClosing packet.good some
              short
            exact ⟨b', _, sent, heard, .frame tls ws⟩
        | false =>
            obtain ⟨b', sent, heard⟩ := cSendDataWire_heard cfg there notClosing packet.good some
            exact ⟨b', _, sent, heard, .wire tls ws⟩
  obtain ⟨b', events, wrote, heard, carried⟩ := round
  refine ⟨b', .packet c buf :: events, ?_, packet.trans heard, carried⟩
  rw [cSendData, Cmd.bind_ok (client_run present)]
  cases buf with
  | nil => exact absurd rfl some
  | cons byte buf =>
      simp only [assert, notClosing, ne_eq, not_false_eq_true, decide_true, if_true, Cmd.run_pure_bind,
        emit, Cmd.run_modify_bind, List.length_cons, sendDataLoop]
      rw [← List.length_cons (a := byte), List.take_length, Cmd.bind_ok wrote]
      simp [sendDataLoop]

/-- Sending an empty buffer puts nothing on the wire. -/
theorem cSendData_heard (present : b.clients c = some p) (notClosing : p.state ≠ .closing)
    (good : b.answers.Good) (short : buf.length < 2 ^ 16) :
    ∃ b' events, (cSendData cfg c buf).run b = (.ok 0, b') ∧ Heard b b' events ∧
      (buf ≠ [] → Carried c p buf events) := by
  cases buf with
  | nil =>
      refine ⟨b.emit (.packet c []), [.packet c []], ?_, .emit good _, fun some => absurd rfl some⟩
      rw [cSendData, Cmd.bind_ok (client_run present)]
      simp [assert, notClosing, emit, sendDataLoop]
  | cons byte buf =>
      obtain ⟨b', events, sent, heard, carried⟩ := cSendData_carried cfg present notClosing good
        (List.cons_ne_nil byte buf) short
      exact ⟨b', events, sent, heard, fun _ => carried⟩

end FbBroker.Broker
