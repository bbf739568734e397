import FbBroker.Broker.Rounds
import FbBroker.Ws.Messages

/-!
Contract: what `c_send_data` writes, under any behaviour of `send`.

Owns the bytes and the result of a call on the plain and the WebSocket transport as
a function of the answers of `send`, the condition under which a call writes all or
reports that it did not, and that the frames `c_send_data_ws` writes are received as
they were sent.

Two things go wrong. `c_send_data` goes on behind a part of the buffer with what is
left of the length but from the start of the buffer, and `c_send_data_ws` does not
look at what became of its header and its payload.
-/

set_option autoImplicit false

namespace FbBroker.Broker

open FbBroker.Lib FbBroker.Packet FbBroker.Parser FbBroker.Ws

variable {cfg : Config} {c : ClientId} {b d : State} {p : Client} {buf : List Byte}

/-! ### The answers of `send` -/

/-- How a call of `c_send_data_wire` comes to its end. -/
inductive Halt where
  | done
  | stalled
  | failed (reason : List Byte)
deriving DecidableEq, Repr

/-- How many bytes were taken, how the call ended, and the answers that are left. -/
structure Transfer where
  taken : Nat
  halt : Halt
  rest : List Sent

/-- What the answers make of a call of `c_send_data_wire`. -/
def transfer : List Sent → Nat → Transfer
  | sends, 0 => ⟨0, .done, sends⟩
  | [], len + 1 => ⟨len + 1, .done, []⟩
  | .full :: sends, len + 1 => ⟨len + 1, .done, sends⟩
  | .short 0 :: sends, _ + 1 => ⟨0, .stalled, sends⟩
  | .short (n + 1) :: sends, len + 1 =>
      let later := transfer sends (len - n)
      { later with taken := min (n + 1) (len + 1) + later.taken }
  | .error reason :: sends, _ + 1 => ⟨0, .failed reason, sends⟩

private theorem transfer_taken (sends : List Sent) (len : Nat) :
    (transfer sends len).taken ≤ len ∧
      ((transfer sends len).taken = len ↔ (transfer sends len).halt = .done) := by
  fun_induction transfer sends len with
  | case1 sends => simp
  | case2 len => simp
  | case3 sends len => simp
  | case4 sends len => simp
  | case5 n sends len later inductionHypothesis =>
      obtain ⟨le, all⟩ := inductionHypothesis
      refine ⟨?_, ?_⟩
      · show min (n + 1) (len + 1) + (transfer sends (len - n)).taken ≤ len + 1
        omega
      · rw [← all]
        show min (n + 1) (len + 1) + (transfer sends (len - n)).taken = len + 1 ↔
          (transfer sends (len - n)).taken = len - n
        omega
  | case6 reason sends len => simp

/-- Answers were taken from the front, with an error among them or not. -/
def Consumes (sends rest : List Sent) (failed : Prop) : Prop :=
  ∃ used, sends = used ++ rest ∧ ((∃ reason, .error reason ∈ used) ↔ failed)

theorem Consumes.trans {sends middle rest : List Sent} {first second : Prop}
    (left : Consumes sends middle first) (right : Consumes middle rest second) :
    Consumes sends rest (first ∨ second) := by
  obtain ⟨used, rfl, failed⟩ := left
  obtain ⟨used', rfl, failed'⟩ := right
  refine ⟨used ++ used', (List.append_assoc _ _ _).symm, ?_⟩
  rw [← failed, ← failed']
  simp only [List.mem_append, exists_or]

theorem Consumes.none (sends : List Sent) : Consumes sends sends False :=
  ⟨[], rfl, by simp⟩

theorem Consumes.congr {sends rest : List Sent} {failed failed' : Prop}
    (consumes : Consumes sends rest failed) (same : failed ↔ failed') :
    Consumes sends rest failed' := by
  obtain ⟨used, split, fails⟩ := consumes
  exact ⟨used, split, fails.trans same⟩

/-- A call ends with an error exactly if it has come to one among the answers. -/
theorem transfer_consumes (sends : List Sent) (len : Nat) :
    Consumes sends (transfer sends len).rest (∃ reason, (transfer sends len).halt = .failed reason) := by
  fun_induction transfer sends len with
  | case1 sends => exact ⟨[], rfl, by simp⟩
  | case2 len => exact ⟨[], rfl, by simp⟩
  | case3 sends len => exact ⟨[.full], rfl, by simp⟩
  | case4 sends len => exact ⟨[.short 0], rfl, by simp⟩
  | case5 n sends len later inductionHypothesis =>
      obtain ⟨used, split, failed⟩ := inductionHypothesis
      refine ⟨.short (n + 1) :: used, congrArg _ split, ?_⟩
      rw [← failed]
      simp
  | case6 reason sends len => exact ⟨[.error reason], rfl, by simp⟩

/-! ### `c_send_data_wire` -/

/-- Bytes have been written to a client, and these answers are left. -/
def State.wrote (b : State) (c : ClientId) (pieces : List (List Byte)) (sends : List Sent) : State :=
  { b with answers.sends := sends, log := b.log ++ pieces.map (.wire c) }

private theorem wrote_wrote (b : State) (c : ClientId) (first second : List (List Byte))
    (sends sends' : List Sent) :
    (b.wrote c first sends).wrote c second sends' = b.wrote c (first ++ second) sends' := by
  simp [State.wrote]

private theorem wrote_nothing (b : State) (c : ClientId) : b.wrote c [] b.answers.sends = b := by
  simp [State.wrote]

private theorem send_run (c : ClientId) (buf : List Byte) (b : State) :
    (send c buf).run b =
      match b.answers.sends.headD .full with
      | .full => (.ok .full, b.wrote c [buf] b.answers.sends.tail)
      | .short n => (.ok (.short n), b.wrote c [buf.take n] b.answers.sends.tail)
      | .error reason => (.ok (.error reason), b.wrote c [] b.answers.sends.tail) := by
  rw [send, Cmd.run_get_bind, Cmd.run_modify_bind]
  cases b.answers.sends.headD .full with
  | full => rfl
  | short n => rfl
  | error reason => simp [State.wrote]

/-- What the code does behind the last `send`. -/
def ended (cfg : Config) (c : ClientId) (off : Nat) (result : Transfer) : Code Nat :=
  match result.halt with
  | .failed reason => do
      cDisconnect cfg c reason
      pure 0
  | _ => pure (off + result.taken)

/-- A piece and what comes behind it. -/
theorem take_append_take_drop (buf : List Byte) (n k : Nat) :
    buf.take n ++ (buf.drop n).take k = buf.take (min n buf.length + k) := by
  rcases Nat.le_total n buf.length with within | beyond
  · rw [Nat.min_eq_left within, List.take_add]
  · rw [Nat.min_eq_right beyond, List.take_of_length_le beyond, List.drop_of_length_le beyond,
      List.take_of_length_le (Nat.le_add_right _ _), List.take_nil, List.append_nil]

private theorem sendLoop_run (cfg : Config) (present : b.clients c = some p) {bound off : Nat}
    (enough : buf.length ≤ bound) :
    ∃ pieces, pieces.flatten = buf.take (transfer b.answers.sends buf.length).taken ∧
      (sendLoop cfg c bound buf off).run b =
        (ended cfg c off (transfer b.answers.sends buf.length)).run
          (b.wrote c pieces (transfer b.answers.sends buf.length).rest) := by
  induction bound generalizing b buf off with
  | zero =>
      obtain rfl : buf = [] := List.length_eq_zero_iff.mp (Nat.le_zero.mp enough)
      refine ⟨[], by simp [transfer], ?_⟩
      simp [transfer, ended, sendLoop, wrote_nothing]
  | succ bound inductionHypothesis =>
      cases buf with
      | nil =>
          refine ⟨[], by simp [transfer], ?_⟩
          simp [transfer, ended, sendLoop, wrote_nothing]
      | cons byte buf =>
          have sent := send_run c (byte :: buf) b
          simp only [sendLoop]
          rw [Cmd.bind_ok (client_run present)]
          cases sends : b.answers.sends with
          | nil =>
              rw [sends] at sent
              refine ⟨[byte :: buf], by simp [transfer], ?_⟩
              rw [Cmd.bind_ok sent]
              rfl
          | cons answer sends' =>
              rw [sends] at sent
              cases answer with
              | full =>
                  refine ⟨[byte :: buf], by simp [transfer], ?_⟩
                  rw [Cmd.bind_ok sent]
                  rfl
              | short n =>
                  cases n with
                  | zero =>
                      refine ⟨[[]], by simp [transfer], ?_⟩
                      rw [Cmd.bind_ok sent]
                      rfl
                  | succ n =>
                      have left : ((byte :: buf).drop (n + 1)).length = buf.length - n := by simp
                      have shorter : ((byte :: buf).drop (n + 1)).length ≤ bound := by
                        rw [left]
                        simp at enough
                        omega
                      have there : (b.wrote c [(byte :: buf).take (n + 1)] sends').clients c = some p :=
                        present
                      obtain ⟨pieces, written, ran⟩ :=
                        @inductionHypothesis _ _ there (off + min (n + 1) (buf.length + 1)) shorter
                      rw [left, show (b.wrote c _ sends').answers.sends = sends' from rfl] at written ran
                      refine ⟨(byte :: buf).take (n + 1) :: pieces, ?_, ?_⟩
                      · rw [List.flatten_cons, written, take_append_take_drop]
                        rfl
                      · rw [Cmd.bind_ok sent]
                        refine ran.trans ?_
                        rw [wrote_wrote, List.singleton_append, List.length_cons, transfer]
                        simp only [ended, Nat.add_assoc]
              | error reason =>
                  refine ⟨[], by simp [transfer], ?_⟩
                  rw [Cmd.bind_ok sent]
                  rfl

private theorem cSendDataWire_run (cfg : Config) (present : b.clients c = some p)
    (notClosing : p.state ≠ .closing) (buf : List Byte) :
    ∃ pieces, pieces.flatten = buf.take (transfer b.answers.sends buf.length).taken ∧
      (cSendDataWire cfg c buf).run b =
        (ended cfg c 0 (transfer b.answers.sends buf.length)).run
          (b.wrote c pieces (transfer b.answers.sends buf.length).rest) := by
  obtain ⟨pieces, written, ran⟩ := sendLoop_run cfg present (Nat.le_refl buf.length)
  refine ⟨pieces, written, ?_⟩
  rw [cSendDataWire, Cmd.bind_ok (client_run present)]
  simp only [assert, notClosing, ne_eq, not_false_eq_true, decide_true, if_true, Cmd.run_pure_bind]
  exact ran

/-! ### Closing -/

/-- The bytes that were written to a client. -/
def wireTo (c : ClientId) (log : List Event) : List Byte :=
  log.flatMap fun event =>
    match event with
    | .wire d bytes => if d = c then bytes else []
    | _ => []

private theorem wireTo_append (c : ClientId) (log entries : List Event) :
    wireTo c (log ++ entries) = wireTo c log ++ wireTo c entries :=
  List.flatMap_append

private theorem wireTo_wrote (b : State) (c : ClientId) (pieces : List (List Byte)) (sends : List Sent) :
    wireTo c (b.wrote c pieces sends).log = wireTo c b.log ++ pieces.flatten := by
  rw [State.wrote, wireTo_append, wireTo, wireTo, List.flatMap_map]
  simp [List.flatMap_id']

theorem length_timeText_le (t : Nat) : (timeText t).length ≤ 19 := by
  rw [timeText, List.length_map, Nat.length_toDigits_le_iff (by decide) (by decide)]
  exact (Nat.mod_lt t (by decide)).trans (by decide)

/-- The text of the message about a client that was disconnected. -/
def farewell (p : Client) (recvAt : Nat) (reason : List Byte) : List Byte :=
  lit "\x7b\"client_id\":\"" ++ idString p.session.clientId ++ lit "\",\"reason\":\"" ++ reason ++
    lit "\",\"ts\":" ++ timeText recvAt ++ lit "\x7d"

/-- The message about the end of a client fits its buffer, or there is none. -/
def Announces (b : State) (c : ClientId) (p : Client) (reason : List Byte) : Prop :=
  p.state = .connected → b.answers.mallocs.headD true = true →
    (farewell p (b.ka.timer c).recvAt reason).length ≤ 256

instance (b : State) (c : ClientId) (p : Client) (reason : List Byte) :
    Decidable (Announces b c p reason) :=
  inferInstanceAs (Decidable (_ → _ → _))

/-- Nothing is written, and no answer of `send` is taken. -/
structure Silent (b d : State) : Prop where
  sends : d.answers.sends = b.answers.sends
  wires : ∀ c, wireTo c d.log = wireTo c b.log

/-- What `c_unbind` tells about a connected client comes first. -/
theorem cDisconnect_eq (present : b.clients c = some p) (opened : p.state ≠ .closing) (reason : List Byte) :
    (cDisconnect cfg c reason).run b =
      (onlyIf (p.state = .connected) (cPubDisconnected cfg c reason) >>= fun _ => release c).run b := by
  rw [cDisconnect, Cmd.bind_ok (client_run present)]
  simp only [onlyIf, ne_eq, opened, not_false_eq_true, decide_true, if_true]
  rw [cUnbind, Cmd.bind_ok (client_run present)]
  rfl

/-- What the message of `c_unbind` leaves as it was. -/
structure Told (c : ClientId) (b d : State) : Prop where
  clients : d.clients = b.clients
  ka : d.ka = b.ka
  nodes : d.nodes = b.nodes
  subs : d.subs = b.subs
  sends : d.answers.sends = b.answers.sends
  log : d.log = b.log ∨ d.log = b.log ++ [.offline c]

/-- The client is freed and its subscriptions are out of the trie of its worker. -/
structure Unbinds (c : ClientId) (p : Client) (b d : State) : Prop where
  clients : d.clients = Function.update b.clients c none
  nodes : d.nodes = ((List.range p.numSubs).foldl (State.removeSub c p) b).nodes
  subs : d.subs = ((List.range p.numSubs).foldl (State.removeSub c p) b).subs
  sends : d.answers.sends = b.answers.sends
  log : d.log = b.log ++ [.closed c] ∨ d.log = b.log ++ [.offline c, .closed c]

theorem Unbinds.silent (unbinds : Unbinds c p b d) : Silent b d := by
  refine ⟨unbinds.sends, fun e => ?_⟩
  rcases unbinds.log with log | log <;> rw [log, wireTo_append] <;> simp [wireTo]

theorem Told.release (told : Told c b d) (present : b.clients c = some p) (opened : p.state ≠ .closing)
    {ka : KeepAlive.Wheel ClientId}
    (removed : KeepAlive.kaRemove b.ka p.worker c p.session.keepAlive = .ok ka) :
    ∃ e, (release c).run d = (.ok (), e) ∧ Unbinds c p b e := by
  have found : d.clients c = some p := (congrFun told.clients c).trans present
  rw [release_run found opened, told.ka, removed]
  refine ⟨_, rfl, ?_⟩
  rw [freeClient_eq p b { d with ka } told.nodes told.subs]
  refine ⟨congrArg (Function.update · c none) told.clients, rfl, rfl, told.sends, ?_⟩
  rcases told.log with log | log
  · exact .inl (congrArg (· ++ [Event.closed c]) log)
  · exact .inr ((congrArg (· ++ [Event.closed c]) log).trans (List.append_assoc _ _ _))

theorem cPubDisconnected_eq (cfg : Config) (present : b.clients c = some p) (reason : List Byte) :
    (cPubDisconnected cfg c reason).run b =
      (pubSys cfg (.offline c) p.worker (sysTopicLen cfg p (lit "/disconnected"))
        (sysTopic cfg (idString p.session.clientId) (lit "/disconnected"))
        (farewell p (b.ka.timer c).recvAt reason)).run b := by
  rw [cPubDisconnected, Cmd.bind_ok (client_run present)]
  rfl

/-- The message about the end of the client, if it is connected. -/
theorem told_run (cfg : Config) (present : b.clients c = some p) (reason : List Byte) :
    (Announces b c p reason ∧
        ∃ d, (onlyIf (p.state = .connected) (cPubDisconnected cfg c reason)).run b = (.ok (), d) ∧ Told c b d) ∨
      ¬Announces b c p reason ∧ (onlyIf (p.state = .connected) (cPubDisconnected cfg c reason)).run b =
        (.error .outOfBounds, { b with answers.mallocs := b.answers.mallocs.tail }) := by
  by_cases connected : p.state = .connected
  · have told := cPubDisconnected_eq cfg present reason
    rw [pubSys_run] at told
    simp only [onlyIf, connected, decide_true, if_true]
    by_cases memory : b.answers.mallocs.headD true = true
    · rw [if_pos memory] at told
      by_cases fits : (farewell p (b.ka.timer c).recvAt reason).length ≤ 256
      · rw [if_pos fits] at told
        exact .inl ⟨fun _ _ => fits, _, told, rfl, rfl, rfl, rfl, rfl, .inr rfl⟩
      · rw [if_neg fits] at told
        exact .inr ⟨fun announces => fits (announces connected memory), told⟩
    · rw [if_neg memory] at told
      exact .inl ⟨fun _ there => absurd there memory, _, told, rfl, rfl, rfl, rfl, rfl, .inl rfl⟩
  · refine .inl ⟨fun there => absurd there connected, b, ?_, rfl, rfl, rfl, rfl, rfl, .inl rfl⟩
    simp only [onlyIf, connected, decide_false, Bool.false_eq_true, if_false, Cmd.run_pure]

/-- `c_disconnect` unbinds the client, unless its message does not fit. -/
theorem cDisconnect_unbinds (cfg : Config) (present : b.clients c = some p) (opened : p.state ≠ .closing)
    {ka : KeepAlive.Wheel ClientId}
    (removed : KeepAlive.kaRemove b.ka p.worker c p.session.keepAlive = .ok ka) (reason : List Byte) :
    (Announces b c p reason ∧
        ∃ d, (cDisconnect cfg c reason).run b = (.ok (), d) ∧ Unbinds c p b d) ∨
      ¬Announces b c p reason ∧ (cDisconnect cfg c reason).run b =
        (.error .outOfBounds, { b with answers.mallocs := b.answers.mallocs.tail }) := by
  rw [cDisconnect_eq present opened]
  rcases told_run cfg present reason with ⟨announces, d, ran, told⟩ | ⟨overflows, stops⟩
  · obtain ⟨e, released, unbinds⟩ := told.release present opened removed
    exact .inl ⟨announces, e, by rw [Cmd.bind_ok ran, released], unbinds⟩
  · exact .inr ⟨overflows, Cmd.bind_error stops⟩

/-- `c_disconnect` writes nothing and frees the client, unless its message does not fit. -/
theorem cDisconnect_run (present : b.clients c = some p) (regular : Regular b) (reason : List Byte) :
    ∃ d, (cDisconnect cfg c reason).run b =
        (if Announces b c p reason then .ok () else .error .outOfBounds, d) ∧
      Silent b d ∧ (Announces b c p reason → d.clients c = none) := by
  rcases cDisconnect_unbinds cfg present (regular.states c p present)
    (regular.idle.kaRemove p.worker c p.session.keepAlive) reason with
    ⟨announces, d, ran, unbinds⟩ | ⟨overflows, stops⟩
  · exact ⟨d, by rw [ran, if_pos announces], unbinds.silent, fun _ => by simp [unbinds.clients]⟩
  · rw [stops, if_neg overflows]
    exact ⟨_, rfl, ⟨rfl, fun _ => rfl⟩, fun announces => absurd announces overflows⟩

/-! ### All or reported -/

/-- The answers of `send` a call has taken. -/
def usedSends (b d : State) : List Sent :=
  b.answers.sends.take (b.answers.sends.length - d.answers.sends.length)

private theorem usedSends_failed {failed : Prop} (consumes : Consumes b.answers.sends d.answers.sends failed) :
    (∃ reason, .error reason ∈ usedSends b d) ↔ failed := by
  obtain ⟨used, split, fails⟩ := consumes
  rw [usedSends, split, List.length_append, Nat.add_sub_cancel, List.take_left]
  exact fails

/-- The bytes of a buffer on the client's transport: the buffer itself, or one
unmasked binary frame around it. -/
def Client.Transports (p : Client) (buf bytes : List Byte) : Prop :=
  if p.isWs then ∃ frame : WsFrame, CarriesMessage frame buf ∧ frame.mask = none ∧ bytes = frame.encode
  else bytes = buf

/-- A result of 0 means that the buffer was written once; if a `send` failed the
result is another one, and the freed client is not used. -/
structure AllOrReported (cfg : Config) (c : ClientId) (p : Client) (b : State) (buf : List Byte) :
    Prop where
  all : ((cSendData cfg c buf).run b).1 = .ok 0 → ∃ bytes, p.Transports buf bytes ∧
    wireTo c ((cSendData cfg c buf).run b).2.log = wireTo c b.log ++ bytes
  reported : (∃ reason, .error reason ∈ usedSends b ((cSendData cfg c buf).run b).2) →
    ∃ rv, rv ≠ 0 ∧ ((cSendData cfg c buf).run b).1 = .ok rv

theorem AllOrReported.of_nonzero {rv : Nat}
    (ran : (cSendData cfg c buf).run b = (.ok rv, d)) (notZero : rv ≠ 0) :
    AllOrReported cfg c p b buf := by
  constructor
  · intro zero
    rw [ran] at zero
    exact absurd (Except.ok.inj zero) notZero
  · intro _
    exact ⟨rv, notZero, by rw [ran]⟩

/-- Without a failed `send` the result of 0 is all there is to keep. -/
theorem allOrReported_zero (ran : (cSendData cfg c buf).run b = (.ok 0, d))
    (quiet : ¬ ∃ reason, .error reason ∈ usedSends b d) :
    AllOrReported cfg c p b buf ↔
      ∃ bytes, p.Transports buf bytes ∧ wireTo c d.log = wireTo c b.log ++ bytes := by
  constructor
  · intro promise
    have sent := promise.all (by rw [ran])
    rwa [ran] at sent
  · intro sent
    refine ⟨fun _ => by rwa [ran], fun failed => ?_⟩
    rw [ran] at failed
    exact absurd failed quiet

private theorem not_allOrReported {outcome : Except Fault Nat} (ran : (cSendData cfg c buf).run b = (outcome, d))
    (used : ∃ reason, .error reason ∈ usedSends b d) (hidden : ∀ rv, rv ≠ 0 → outcome ≠ .ok rv) :
    ¬ AllOrReported cfg c p b buf := by
  intro promise
  obtain ⟨rv, notZero, returned⟩ := promise.reported (by rw [ran]; exact used)
  rw [ran] at returned
  exact hidden rv notZero returned

private theorem cSendData_eq (present : b.clients c = some p) (notClosing : p.state ≠ .closing)
    (buf : List Byte) :
    (cSendData cfg c buf).run b =
      (sendDataLoop cfg c buf buf.length buf.length).run (b.emit (.packet c buf)) := by
  rw [cSendData, Cmd.bind_ok (client_run present)]
  simp only [assert, notClosing, ne_eq, not_false_eq_true, decide_true, if_true, Cmd.run_pure_bind]
  rfl

private theorem wireTo_packet (b : State) (c : ClientId) (buf : List Byte) :
    wireTo c (b.emit (.packet c buf)).log = wireTo c b.log := by
  simp [State.emit, wireTo]

/-! ### The plain transport -/

/-- How many bytes each round of `c_send_data` has written, how the last one ended,
and the answers that are left. -/
structure Effort where
  rounds : List Nat
  halt : Halt
  rest : List Sent

/-- What the answers make of the loop of `c_send_data`: a round that comes to a halt
behind a part of the buffer is followed by another. -/
def effort : Nat → List Sent → Nat → Effort
  | 0, sends, _ => ⟨[], .done, sends⟩
  | _ + 1, sends, 0 => ⟨[], .done, sends⟩
  | bound + 1, sends, len + 1 =>
      let round := transfer sends (len + 1)
      if round.halt = .stalled ∧ 0 < round.taken then
        let later := effort bound round.rest (len + 1 - round.taken)
        { later with rounds := round.taken :: later.rounds }
      else ⟨[round.taken], round.halt, round.rest⟩

private theorem effort_consumes (bound : Nat) (sends : List Sent) (len : Nat) :
    Consumes sends (effort bound sends len).rest
      (∃ reason, (effort bound sends len).halt = .failed reason) := by
  fun_induction effort bound sends len with
  | case1 sends len => exact (Consumes.none sends).congr (by simp)
  | case2 bound sends => exact (Consumes.none sends).congr (by simp)
  | case3 bound sends len round stalls later inductionHypothesis =>
      refine ((transfer_consumes sends (len + 1)).trans inductionHypothesis).congr ?_
      have notFailed : ¬ ∃ reason, (transfer sends (len + 1)).halt = .failed reason := by
        rw [show (transfer sends (len + 1)).halt = .stalled from stalls.1]
        simp
      simp only [notFailed, false_or]
      rfl
  | case4 bound sends len round _ => exact transfer_consumes sends (len + 1)

/-- What `c_send_data` does behind its last round. -/
def reports (cfg : Config) (c : ClientId) : Halt → Code Nat
  | .done => pure 0
  | .stalled => pure 1
  | .failed reason => do
      cDisconnect cfg c reason
      pure 1

private theorem transportWrite_plain (present : b.clients c = some p) (noTls : p.isTls = false)
    (noWs : p.isWs = false) (buf : List Byte) :
    (transportWrite cfg c buf).run b = (cSendDataWire cfg c buf).run b := by
  rw [transportWrite, Cmd.bind_ok (client_run present), noTls, noWs]
  rfl

private theorem sendDataLoop_run (present : b.clients c = some p) (notClosing : p.state ≠ .closing)
    (noTls : p.isTls = false) (noWs : p.isWs = false) {bound len : Nat}
    (within : len ≤ buf.length) (enough : len ≤ bound) :
    ∃ pieces, pieces.flatten = (effort bound b.answers.sends len).rounds.flatMap (buf.take ·) ∧
      (sendDataLoop cfg c buf bound len).run b =
        (reports cfg c (effort bound b.answers.sends len).halt).run
          (b.wrote c pieces (effort bound b.answers.sends len).rest) := by
  induction bound generalizing b len with
  | zero =>
      obtain rfl : len = 0 := Nat.le_zero.mp enough
      exact ⟨[], rfl, by simp [sendDataLoop, effort, reports, wrote_nothing]⟩
  | succ bound inductionHypothesis =>
      cases len with
      | zero => exact ⟨[], rfl, by simp [sendDataLoop, effort, reports, wrote_nothing]⟩
      | succ len =>
          obtain ⟨pieces, written, ran⟩ :=
            cSendDataWire_run cfg present notClosing (buf.take (len + 1))
          rw [List.length_take, Nat.min_eq_left within] at written ran
          obtain ⟨most, all⟩ := transfer_taken b.answers.sends (len + 1)
          rw [List.take_take, Nat.min_eq_left most] at written
          rw [← transportWrite_plain present noTls noWs] at ran
          simp only [sendDataLoop, effort]
          rw [Cmd.run_bind, ran]
          cases halt : (transfer b.answers.sends (len + 1)).halt with
          | done =>
              have whole := all.mpr halt
              refine ⟨pieces, by simp [written], ?_⟩
              simp [ended, halt, whole, sendDataLoop, reports]
          | stalled =>
              by_cases some : 0 < (transfer b.answers.sends (len + 1)).taken
              · have there : (b.wrote c pieces (transfer b.answers.sends (len + 1)).rest).clients c =
                    .some p := present
                obtain ⟨more, continued, later⟩ := @inductionHypothesis _ there
                  (len + 1 - (transfer b.answers.sends (len + 1)).taken) (by omega) (by omega)
                refine ⟨pieces ++ more, ?_, ?_⟩
                · simp [written, continued, some, State.wrote]
                · obtain ⟨taken, isTaken⟩ := Nat.exists_eq_succ_of_ne_zero (Nat.ne_of_gt some)
                  simp only [ended, halt, Nat.zero_add, Cmd.run_pure, some, and_self, if_true]
                  rw [← wrote_wrote]
                  rw [isTaken] at later ⊢
                  exact later
              · have none : (transfer b.answers.sends (len + 1)).taken = 0 := Nat.eq_zero_of_not_pos some
                refine ⟨pieces, by simp [written, none], ?_⟩
                simp [ended, halt, none, reports]
          | failed reason =>
              refine ⟨pieces, by simp [written], ?_⟩
              simp only [ended, halt, reports, Cmd.run_bind, reduceCtorEq, false_and, if_false]
              cases (cDisconnect cfg c reason).run _ with
              | mk outcome d => cases outcome <;> rfl

/-- On the plain transport a call keeps its promise exactly if its rounds, when they
come to the end of the length, have written the buffer, and if a failure can be told. -/
theorem plain_allOrReported (present : b.clients c = some p) (regular : Regular b)
    (noTls : p.isTls = false) (noWs : p.isWs = false) (buf : List Byte) :
    AllOrReported cfg c p b buf ↔
      ((effort buf.length b.answers.sends buf.length).halt = .done →
        (effort buf.length b.answers.sends buf.length).rounds.flatMap (buf.take ·) = buf) ∧
      ∀ reason, (effort buf.length b.answers.sends buf.length).halt = .failed reason →
        Announces b c p reason := by
  have notClosing := regular.states c p present
  have there : (b.emit (.packet c buf)).clients c = some p := present
  obtain ⟨pieces, written, ran⟩ : ∃ pieces, _ ∧ (sendDataLoop cfg c buf buf.length buf.length).run _ = _ :=
    sendDataLoop_run there notClosing noTls noWs (Nat.le_refl _) (Nat.le_refl _)
  rw [← cSendData_eq present notClosing, show (b.emit (.packet c buf)).answers = b.answers from rfl] at ran
  rw [show (b.emit (.packet c buf)).answers = b.answers from rfl] at written
  have consumes := effort_consumes buf.length b.answers.sends buf.length
  generalize effort buf.length b.answers.sends buf.length = result at ran written consumes ⊢
  have wires : wireTo c ((b.emit (.packet c buf)).wrote c pieces result.rest).log =
      wireTo c b.log ++ result.rounds.flatMap (buf.take ·) := by
    rw [wireTo_wrote, wireTo_packet, written]
  cases halt : result.halt with
  | done =>
      rw [halt] at ran consumes
      have quiet : ¬ ∃ reason, .error reason ∈ usedSends b
          ((b.emit (.packet c buf)).wrote c pieces result.rest) := by
        rw [usedSends_failed consumes]
        simp
      rw [allOrReported_zero ran quiet]
      constructor
      · rintro ⟨bytes, transports, wrote⟩
        rw [Client.Transports, noWs] at transports
        have same := List.append_cancel_left (wires.symm.trans wrote)
        exact ⟨fun _ => same.trans transports, by simp⟩
      · rintro ⟨whole, -⟩
        exact ⟨buf, by simp [Client.Transports, noWs], wires.trans (by rw [whole rfl])⟩
  | stalled =>
      rw [halt] at ran
      exact ⟨fun _ => ⟨by simp, by simp⟩, fun _ => .of_nonzero ran Nat.one_ne_zero⟩
  | failed reason =>
      rw [halt] at ran consumes
      have still : Regular ((b.emit (.packet c buf)).wrote c pieces result.rest) :=
        ⟨regular.states, regular.idle⟩
      have found : ((b.emit (.packet c buf)).wrote c pieces result.rest).clients c = some p := present
      obtain ⟨d, closed, silent, -⟩ :
          ∃ d, (cDisconnect cfg c reason).run _ = _ ∧ _ := cDisconnect_run found still reason
      replace closed : (cDisconnect cfg c reason).run
          ((b.emit (.packet c buf)).wrote c pieces result.rest) =
            (if Announces b c p reason then .ok () else .error .outOfBounds, d) := closed
      rw [reports, Cmd.run_bind, closed] at ran
      by_cases announces : Announces b c p reason
      · rw [if_pos announces] at ran
        exact ⟨fun _ => ⟨by simp, fun other same => Halt.failed.inj same ▸ announces⟩,
          fun _ => .of_nonzero ran Nat.one_ne_zero⟩
      · rw [if_neg announces] at ran
        have used : ∃ reason, .error reason ∈ usedSends b d := by
          have rest : d.answers.sends = result.rest := silent.sends
          rw [usedSends_failed (rest ▸ consumes)]
          exact ⟨reason, rfl⟩
        exact ⟨fun promise => absurd promise (not_allOrReported ran used (by simp)),
          fun both => absurd (both.2 reason rfl) announces⟩

/-- Rounds that come to the end of the length: none, one, or several that begin with
a part. -/
theorem effort_done {bound : Nat} {sends : List Sent} {len : Nat} (enough : len ≤ bound)
    (done : (effort bound sends len).halt = .done) :
    len = 0 ∧ (effort bound sends len).rounds = [] ∨ (effort bound sends len).rounds = [len] ∨
      ∃ first second more, (effort bound sends len).rounds = first :: second :: more ∧
        0 < first ∧ first < len ∧ 0 < second := by
  fun_induction effort bound sends len with
  | case1 sends len => exact .inl ⟨Nat.le_zero.mp enough, rfl⟩
  | case2 bound sends => exact .inl ⟨rfl, rfl⟩
  | case3 bound sends len round stalls later inductionHypothesis =>
      have ⟨most, all⟩ := transfer_taken sends (len + 1)
      have part : (transfer sends (len + 1)).taken ≠ len + 1 := by
        rw [Ne, all, show (transfer sends (len + 1)).halt = .stalled from stalls.1]
        simp
      have some : 0 < (transfer sends (len + 1)).taken := stalls.2
      have shorter : len + 1 - (transfer sends (len + 1)).taken ≤ bound := by omega
      have lessThanAll : (transfer sends (len + 1)).taken < len + 1 := by omega
      refine .inr (.inr ?_)
      rcases inductionHypothesis shorter done with ⟨nothing, -⟩ | once | ⟨second, third, more, rounds, positive, -⟩
      · have left : len + 1 - (transfer sends (len + 1)).taken = 0 := nothing
        omega
      · exact ⟨_, _, [], congrArg _ once, some, lessThanAll, Nat.sub_pos_of_lt lessThanAll⟩
      · exact ⟨_, second, third :: more, congrArg _ rounds, some, lessThanAll, positive⟩
  | case4 bound sends len round _ =>
      have all := (transfer_taken sends (len + 1)).2.mpr done
      exact .inr (.inl (congrArg (fun taken => [taken]) all))

/-- Behind a part of the buffer the call went on until it had written as many bytes as
the buffer has. -/
def Resumes (sends : List Sent) (n : Nat) : Prop :=
  (effort n sends n).halt = .done ∧ 2 ≤ (effort n sends n).rounds.length

instance (sends : List Sent) (n : Nat) : Decidable (Resumes sends n) :=
  inferInstanceAs (Decidable (_ ∧ _))

/-- The buffer is written if the rounds are not more than one, and some buffer is not
written otherwise. -/
theorem writes_all_iff {sends : List Sent} {n : Nat} :
    (∀ buf : List Byte, buf.length = n → (effort n sends n).halt = .done →
      (effort n sends n).rounds.flatMap (buf.take ·) = buf) ↔ ¬ Resumes sends n := by
  constructor
  · rintro writes ⟨done, several⟩
    rcases effort_done (Nat.le_refl n) done with ⟨-, none⟩ | one | ⟨first, second, more, rounds, some, part, next⟩
    · simp [none] at several
    · simp [one] at several
    · -- the byte behind the first round is the first one again
      have length : ((0 : Byte) :: List.replicate (n - 1) 1).length = n := by
        rw [List.length_cons, List.length_replicate]
        omega
      have same := congrArg (·[first]?) (writes _ length done)
      obtain ⟨k, rfl⟩ := Nat.exists_eq_succ_of_ne_zero (Nat.ne_of_gt some)
      obtain ⟨j, rfl⟩ := Nat.exists_eq_succ_of_ne_zero (Nat.ne_of_gt next)
      have firstRound : (((0 : Byte) :: List.replicate (n - 1) 1).take k.succ).length = k.succ := by
        rw [List.length_take, length]
        omega
      have secondByte : k < n - 1 := by omega
      simp only [rounds, List.flatMap_cons] at same
      rw [List.getElem?_append_right (by rw [firstRound]), firstRound, Nat.sub_self] at same
      simp [secondByte] at same
  · intro once buf length done
    rcases effort_done (Nat.le_refl n) done with ⟨empty, none⟩ | one | ⟨first, second, more, rounds, -⟩
    · rw [none, List.flatMap_nil, List.length_eq_zero_iff.mp (length.trans empty)]
    · rw [one, List.flatMap_singleton, ← length, List.take_length]
    · exact absurd ⟨done, by simp [rounds]⟩ once

/-! ### The WebSocket transport -/

/-- The header `c_send_data_ws` writes is that of the frame around its buffer. -/
theorem encode_of_carries {frame : WsFrame} (carries : CarriesMessage frame buf)
    (noMask : frame.mask = none) (short : buf.length < 2 ^ 16) :
    frame.encode = wsHeader buf.length ++ buf := by
  obtain ⟨fin, opcode, rfl⟩ := carries
  have first : frame.firstByte = 0x82 := by
    rw [WsFrame.firstByte, fin, opcode]
    rfl
  have length : frame.firstByte :: frame.lengthBytes = wsHeader frame.payload.length := by
    rw [first, WsFrame.lengthBytes, wsHeader]
    split
    · simp [WsFrame.lengthByte, noMask]
    · rw [if_pos (show frame.payload.length < 65536 from short)]
      simp [WsFrame.lengthByte, noMask, bigEndian, Nat.shiftRight_eq_div_pow]
  rw [WsFrame.encode, WsFrame.maskBytes, WsFrame.maskedPayload, noMask, ← length]
  simp

private theorem transportWrite_ws (present : b.clients c = some p) (noTls : p.isTls = false)
    (ws : p.isWs = true) (buf : List Byte) :
    (transportWrite cfg c buf).run b = (cSendDataWs cfg c buf).run b := by
  rw [transportWrite, Cmd.bind_ok (client_run present), noTls, ws]
  rfl

/-- The header of a frame of this length. -/
def headerTransfer (sends : List Sent) (n : Nat) : Transfer :=
  transfer sends (wsHeader n).length

/-- The payload behind it. -/
def payloadTransfer (sends : List Sent) (n : Nat) : Transfer :=
  transfer (headerTransfer sends n).rest n

private theorem headerTransfer_taken (sends : List Sent) (n : Nat) :
    (headerTransfer sends n).taken ≤ (wsHeader n).length ∧
      ((headerTransfer sends n).taken = (wsHeader n).length ↔ (headerTransfer sends n).halt = .done) :=
  transfer_taken sends (wsHeader n).length

private theorem payloadTransfer_taken (sends : List Sent) (n : Nat) :
    (payloadTransfer sends n).taken ≤ n ∧
      ((payloadTransfer sends n).taken = n ↔ (payloadTransfer sends n).halt = .done) :=
  transfer_taken (headerTransfer sends n).rest n

/-- `c_send_data_ws` returns the length, whatever becomes of the frame, or does not
return. -/
inductive Framed (c : ClientId) (buf : List Byte) (b : State) : Except Fault Nat × State → Prop
  | failed {outcome : Except Fault Nat} {d : State}
      (failed : (∃ reason, (headerTransfer b.answers.sends buf.length).halt = .failed reason) ∨
        ∃ reason, (payloadTransfer b.answers.sends buf.length).halt = .failed reason)
      (used : ∃ reason, .error reason ∈ usedSends b d)
      (returns : outcome = .ok buf.length ∨ ∃ fault, outcome = .error fault) : Framed c buf b (outcome, d)
  | written {d : State}
      (held : ¬ ∃ reason, .error reason ∈ usedSends b d)
      (wires : wireTo c d.log = wireTo c b.log ++
        ((wsHeader buf.length).take (headerTransfer b.answers.sends buf.length).taken ++
          buf.take (payloadTransfer b.answers.sends buf.length).taken)) : Framed c buf b (.ok buf.length, d)

private theorem ended_failed (present : b.clients c = some p) (regular : Regular b) {off : Nat}
    {result : Transfer} {reason : List Byte} (failed : result.halt = .failed reason) :
    ∃ outcome d, (ended cfg c off result).run b = (outcome, d) ∧ Silent b d ∧
      (outcome = .ok 0 ∧ d.clients c = none ∨ outcome = .error .outOfBounds) := by
  obtain ⟨d, closed, silent, gone⟩ : ∃ d, (cDisconnect cfg c reason).run b = _ ∧ _ :=
    cDisconnect_run present regular reason
  rw [ended, failed]
  dsimp only
  rw [Cmd.run_bind, closed]
  by_cases announces : Announces b c p reason
  · rw [if_pos announces]
    exact ⟨_, d, rfl, silent, .inl ⟨rfl, gone announces⟩⟩
  · rw [if_neg announces]
    exact ⟨_, d, rfl, silent, .inr rfl⟩

private theorem ended_held {off : Nat} {result : Transfer}
    (held : ¬ ∃ reason, result.halt = .failed reason) (b : State) :
    (ended cfg c off result).run b = (.ok (off + result.taken), b) := by
  unfold ended
  split
  · rename_i reason failed
    exact absurd ⟨reason, failed⟩ held
  · rfl

private theorem cSendDataWire_failed (present : b.clients c = some p) (regular : Regular b)
    {reason : List Byte} (failed : (transfer b.answers.sends buf.length).halt = .failed reason) :
    ∃ outcome d, (cSendDataWire cfg c buf).run b = (outcome, d) ∧
      d.answers.sends = (transfer b.answers.sends buf.length).rest ∧
      (outcome = .ok 0 ∧ d.clients c = none ∨ outcome = .error .outOfBounds) := by
  obtain ⟨pieces, -, ran⟩ := cSendDataWire_run cfg present (regular.states c p present) buf
  have found : (b.wrote c pieces (transfer b.answers.sends buf.length).rest).clients c = some p := present
  obtain ⟨outcome, d, closed, silent, how⟩ : ∃ outcome d, (ended cfg c 0 _).run _ = _ ∧ _ :=
    ended_failed found ⟨regular.states, regular.idle⟩ failed
  exact ⟨outcome, d, ran.trans closed, silent.sends, how⟩

private theorem cSendDataWire_held (present : b.clients c = some p) (notClosing : p.state ≠ .closing)
    (held : ¬ ∃ reason, (transfer b.answers.sends buf.length).halt = .failed reason) :
    ∃ pieces, pieces.flatten = buf.take (transfer b.answers.sends buf.length).taken ∧
      (cSendDataWire cfg c buf).run b = (.ok (0 + (transfer b.answers.sends buf.length).taken),
        b.wrote c pieces (transfer b.answers.sends buf.length).rest) := by
  obtain ⟨pieces, written, ran⟩ := cSendDataWire_run cfg present notClosing buf
  exact ⟨pieces, written, ran.trans (ended_held held _)⟩

private theorem cSendDataWs_framed (cfg : Config) (present : b.clients c = some p) (regular : Regular b)
    (short : buf.length < 2 ^ 16) : Framed c buf b ((cSendDataWs cfg c buf).run b) := by
  have notClosing := regular.states c p present
  have headerUsed := transfer_consumes b.answers.sends (wsHeader buf.length).length
  rw [cSendDataWs, if_pos short]
  by_cases failed : ∃ reason, (headerTransfer b.answers.sends buf.length).halt = .failed reason
  · obtain ⟨reason, isFailed⟩ := failed
    obtain ⟨outcome, d, header, rest, how⟩ : ∃ outcome d, (cSendDataWire cfg c _).run b = _ ∧ _ :=
      cSendDataWire_failed present regular isFailed
    have used : ∃ reason, .error reason ∈ usedSends b d := by
      rw [usedSends_failed (rest ▸ headerUsed)]
      exact ⟨reason, isFailed⟩
    rw [Cmd.run_bind, header]
    rcases how with ⟨rfl, gone⟩ | rfl
    · -- the payload is sent on a client that has been freed
      have freed : (cSendDataWire cfg c buf).run d = (.error .useAfterFree, d) :=
        Cmd.bind_error (client_freed gone)
      dsimp only
      rw [Cmd.bind_error freed]
      exact .failed (.inl ⟨reason, isFailed⟩) used (.inr ⟨_, rfl⟩)
    · exact .failed (.inl ⟨reason, isFailed⟩) used (.inr ⟨_, rfl⟩)
  · obtain ⟨first, wroteHeader, header⟩ : ∃ first, _ ∧ (cSendDataWire cfg c _).run b = _ :=
      cSendDataWire_held present notClosing failed
    rw [show transfer b.answers.sends (wsHeader buf.length).length =
      headerTransfer b.answers.sends buf.length from rfl] at header
    have found : (b.wrote c first (headerTransfer b.answers.sends buf.length).rest).clients c = some p :=
      present
    have allUsed := headerUsed.trans
      (transfer_consumes (headerTransfer b.answers.sends buf.length).rest buf.length)
    rw [Cmd.bind_ok header]
    by_cases failedLater : ∃ reason, (payloadTransfer b.answers.sends buf.length).halt = .failed reason
    · obtain ⟨reason, isFailed⟩ := failedLater
      obtain ⟨outcome, d, payload, rest, how⟩ : ∃ outcome d, (cSendDataWire cfg c buf).run _ = _ ∧ _ :=
        cSendDataWire_failed found ⟨regular.states, regular.idle⟩ isFailed
      have used : ∃ reason, .error reason ∈ usedSends b d := by
        rw [usedSends_failed (rest ▸ allUsed)]
        exact .inr ⟨reason, isFailed⟩
      rw [Cmd.run_bind, payload]
      rcases how with ⟨rfl, -⟩ | rfl
      · exact .failed (.inr ⟨reason, isFailed⟩) used (.inl rfl)
      · exact .failed (.inr ⟨reason, isFailed⟩) used (.inr ⟨_, rfl⟩)
    · obtain ⟨second, wrotePayload, payload⟩ : ∃ second, _ ∧ (cSendDataWire cfg c buf).run _ = _ :=
        cSendDataWire_held found notClosing failedLater
      rw [wrote_wrote] at payload
      rw [Cmd.bind_ok payload, Cmd.run_pure]
      refine .written ?_ ?_
      · rw [usedSends_failed allUsed]
        exact not_or.mpr ⟨failed, failedLater⟩
      · rw [wireTo_wrote, List.flatten_append, wroteHeader, wrotePayload]
        rfl

/-- One round of `c_send_data` is enough for a frame. -/
theorem cSendData_ws (present : b.clients c = some p) (notClosing : p.state ≠ .closing)
    (noTls : p.isTls = false) (ws : p.isWs = true) (some : buf ≠ [])
    {outcome : Except Fault Nat}
    (framed : (cSendDataWs cfg c buf).run (b.emit (.packet c buf)) = (outcome, d)) :
    (∀ fault, outcome = .error fault → (cSendData cfg c buf).run b = (.error fault, d)) ∧
      (outcome = .ok buf.length → (cSendData cfg c buf).run b = (.ok 0, d)) ∧
      (outcome = .ok 0 → (cSendData cfg c buf).run b = (.ok 1, d)) := by
  have there : (b.emit (.packet c buf)).clients c = .some p := present
  obtain ⟨byte, rest, rfl⟩ := List.exists_cons_of_ne_nil some
  have whole : (transportWrite cfg c ((byte :: rest).take rest.length.succ)).run
      (b.emit (.packet c (byte :: rest))) = (outcome, d) := by
    rw [List.take_of_length_le (show (byte :: rest).length ≤ rest.length.succ from Nat.le_refl _),
      transportWrite_ws there noTls ws, framed]
  rw [cSendData_eq present notClosing, List.length_cons]
  simp only [sendDataLoop]
  rw [Cmd.run_bind, whole]
  refine ⟨?_, ?_, ?_⟩
  · rintro fault rfl
    rfl
  · rintro rfl
    simp [sendDataLoop]
  · rintro rfl
    rfl

/-- On the WebSocket transport a call with a buffer that fits a frame keeps its promise
exactly if the header and the payload are taken as a whole. -/
theorem framed_allOrReported (present : b.clients c = some p) (regular : Regular b)
    (noTls : p.isTls = false) (ws : p.isWs = true) (some : buf ≠ [])
    (short : buf.length < 2 ^ 16) :
    AllOrReported cfg c p b buf ↔
      (headerTransfer b.answers.sends buf.length).halt = .done ∧
        (payloadTransfer b.answers.sends buf.length).halt = .done := by
  have notClosing := regular.states c p present
  have there : (b.emit (.packet c buf)).clients c = .some p := present
  have still : Regular (b.emit (.packet c buf)) := ⟨regular.states, regular.idle⟩
  have framed := cSendDataWs_framed cfg there still short
  cases ran : (cSendDataWs cfg c buf).run (b.emit (.packet c buf)) with
  | mk outcome d =>
      obtain ⟨stops, returns, -⟩ := cSendData_ws present notClosing noTls ws some ran
      rw [ran] at framed
      cases framed with
      | failed failed used ends =>
          have hides : ¬ AllOrReported cfg c p b buf := by
            rcases ends with isLength | ⟨fault, stopped⟩
            · refine not_allOrReported (returns isLength) used ?_
              intro rv notZero returned
              exact notZero (Except.ok.inj returned).symm
            · exact not_allOrReported (stops fault stopped) used (by simp)
          refine ⟨fun promise => absurd promise hides, ?_⟩
          rintro ⟨header, payload⟩
          rcases failed with ⟨reason, isFailed⟩ | ⟨reason, isFailed⟩
          · exact absurd (header.symm.trans isFailed) (by simp)
          · exact absurd (payload.symm.trans isFailed) (by simp)
      | written held wires =>
          have ⟨mostHeader, allHeader⟩ := headerTransfer_taken b.answers.sends buf.length
          have ⟨mostPayload, allPayload⟩ := payloadTransfer_taken b.answers.sends buf.length
          rw [wireTo_packet, show (b.emit (.packet c buf)).answers = b.answers from rfl] at wires
          rw [allOrReported_zero (returns rfl) held]
          simp only [Client.Transports, ws, if_true]
          constructor
          · rintro ⟨bytes, ⟨frame, carries, noMask, rfl⟩, wrote⟩
            rw [encode_of_carries carries noMask short] at wrote
            -- what was written is as long as the frame
            have same := congrArg List.length (List.append_cancel_left (wires.symm.trans wrote))
            simp only [List.length_append, List.length_take] at same
            exact ⟨allHeader.mp (by omega), allPayload.mp (by omega)⟩
          · rintro ⟨header, payload⟩
            have carries : CarriesMessage (binaryFrame buf (Nat.lt_trans short (by decide))) buf :=
              ⟨rfl, rfl, rfl⟩
            refine ⟨_, ⟨_, carries, rfl, rfl⟩, ?_⟩
            rw [encode_of_carries carries rfl short, wires, allHeader.mpr header, allPayload.mpr payload,
              List.take_length, List.take_length]

/-- A buffer that does not fit a frame is not sent, and the result is 1. -/
theorem tooBig_allOrReported (present : b.clients c = some p) (regular : Regular b)
    (noTls : p.isTls = false) (ws : p.isWs = true) (big : 2 ^ 16 ≤ buf.length) :
    AllOrReported cfg c p b buf := by
  have notClosing := regular.states c p present
  have some : buf ≠ [] := by
    rintro rfl
    simp at big
  have there : (b.emit (.packet c buf)).clients c = .some p := present
  have still : Regular (b.emit (.packet c buf)) := ⟨regular.states, regular.idle⟩
  obtain ⟨d, closed, silent, -⟩ :
      ∃ d, (cDisconnect cfg c (lit "c_send_data_ws too big")).run _ = _ ∧ _ :=
    cDisconnect_run there still _
  have nothing : ¬ ∃ reason, .error reason ∈ usedSends b d := by
    have rest : Consumes b.answers.sends d.answers.sends False := by
      rw [silent.sends]
      exact .none _
    rw [usedSends_failed rest]
    exact not_false
  have notZero : ((cSendData cfg c buf).run b).1 ≠ .ok 0 ∧ ((cSendData cfg c buf).run b).2 = d := by
    by_cases announces :
        Announces (b.emit (.packet c buf)) c p (lit "c_send_data_ws too big")
    · rw [if_pos announces] at closed
      have framed : (cSendDataWs cfg c buf).run (b.emit (.packet c buf)) = (.ok 0, d) := by
        rw [cSendDataWs, if_neg (Nat.not_lt.mpr big), Cmd.bind_ok closed, Cmd.run_pure]
      rw [(cSendData_ws present notClosing noTls ws some framed).2.2 rfl]
      exact ⟨by simp, rfl⟩
    · rw [if_neg announces] at closed
      have framed : (cSendDataWs cfg c buf).run (b.emit (.packet c buf)) = (.error .outOfBounds, d) := by
        rw [cSendDataWs, if_neg (Nat.not_lt.mpr big), Cmd.bind_error closed]
      rw [(cSendData_ws present notClosing noTls ws some framed).1 _ rfl]
      exact ⟨by simp, rfl⟩
  exact ⟨fun zero => absurd zero notZero.1, fun failed => absurd (notZero.2 ▸ failed) nothing⟩

/-! ### Both transports -/

/-- What it takes of the answers of `send` for every buffer of a length to be sent all or
reported. On the plain transport a call that halts behind a part does not come to the
end of the length later, and the failure of a `send` can be told; on the WebSocket
transport the buffer is not empty, and it is too long for a frame or the header and the
payload are taken as a whole. -/
def Sendable (b : State) (c : ClientId) (p : Client) (n : Nat) : Prop :=
  if p.isWs then
    2 ^ 16 ≤ n ∨ 0 < n ∧ (headerTransfer b.answers.sends n).halt = .done ∧
      (payloadTransfer b.answers.sends n).halt = .done
  else
    ¬ Resumes b.answers.sends n ∧ ∀ reason, (effort n b.answers.sends n).halt = .failed reason →
      Announces b c p reason

private theorem empty_notReported (present : b.clients c = some p) (notClosing : p.state ≠ .closing)
    (ws : p.isWs = true) : ¬ AllOrReported cfg c p b [] := by
  intro promise
  have nothing : (cSendData cfg c []).run b = (.ok 0, b.emit (.packet c [])) :=
    cSendData_eq present notClosing []
  obtain ⟨bytes, transports, wrote⟩ := promise.all (by rw [nothing])
  rw [Client.Transports, ws, if_pos rfl] at transports
  obtain ⟨frame, -, -, rfl⟩ := transports
  rw [nothing, wireTo_packet] at wrote
  have none : frame.encode = [] := List.append_cancel_left (wrote.symm.trans (List.append_nil _).symm)
  simp [WsFrame.encode] at none

/-- Every buffer of a length is sent all or reported exactly under that condition. -/
theorem all_or_reported_iff (present : b.clients c = some p) (noTls : p.isTls = false)
    (regular : Regular b) (n : Nat) :
    (∀ buf : List Byte, buf.length = n → AllOrReported cfg c p b buf) ↔ Sendable b c p n := by
  have sample : (List.replicate n (0 : Byte)).length = n := List.length_replicate
  unfold Sendable
  cases ws : p.isWs with
  | false =>
      rw [if_neg (by simp), ← writes_all_iff]
      constructor
      · intro promises
        constructor
        · intro buf length
          have both := (plain_allOrReported present regular noTls ws buf).mp (promises buf length)
          rw [length] at both
          exact both.1
        · have both := (plain_allOrReported present regular noTls ws _).mp (promises _ sample)
          rw [sample] at both
          exact both.2
      · rintro ⟨writes, tells⟩ buf rfl
        exact (plain_allOrReported present regular noTls ws buf).mpr ⟨writes buf rfl, tells⟩
  | true =>
      rw [if_pos rfl]
      by_cases big : 2 ^ 16 ≤ n
      · refine ⟨fun _ => .inl big, fun _ buf length => ?_⟩
        exact tooBig_allOrReported present regular noTls ws (length ▸ big)
      · have short := Nat.lt_of_not_le big
        by_cases some : 0 < n
        · have framed : ∀ buf : List Byte, buf.length = n → (AllOrReported cfg c p b buf ↔
              (headerTransfer b.answers.sends n).halt = .done ∧
                (payloadTransfer b.answers.sends n).halt = .done) := by
            rintro buf rfl
            exact framed_allOrReported present regular noTls ws (List.ne_nil_of_length_pos some) short
          constructor
          · intro promises
            exact .inr ⟨some, (framed _ sample).mp (promises _ sample)⟩
          · rintro (tooBig | ⟨-, taken⟩) buf length
            · exact absurd tooBig big
            · exact (framed buf length).mpr taken
        · obtain rfl : n = 0 := Nat.eq_zero_of_not_pos some
          constructor
          · intro promises
            exact absurd (promises [] rfl)
              (empty_notReported present (regular.states c p present) ws)
          · rintro (tooBig | ⟨positive, -⟩)
            · exact absurd tooBig big
            · exact absurd positive some

/-- A client that has just been accepted, and the answers of `send` to come. -/
def sending (isWs : Bool) (sends : List Sent) : State :=
  { start.state.putClient 0 (cNew 0 false isWs []) with answers.sends := sends }

private theorem sending_regular (isWs : Bool) (sends : List Sent) : Regular (sending isWs sends) := by
  refine ⟨fun c p present => ?_, KeepAlive.Wheel.Idle.initial⟩
  by_cases here : c = 0
  · subst c
    obtain rfl : cNew 0 false isWs [] = p := Option.some.inj present
    simp [cNew]
  · simp [sending, State.putClient, here, start] at present

theorem all_or_reported_iff_parts :
    Sendable (sending false [.short 1, .full]) 0 (cNew 0 false false []) 2 ∧
      ∀ buf : List Byte, buf.length = 2 →
        AllOrReported ⟨1, 1, true, []⟩ 0 (cNew 0 false false []) (sending false [.short 1, .full]) buf := by
  have sendable : Sendable (sending false [.short 1, .full]) 0 (cNew 0 false false []) 2 := by
    have done : (effort 2 (sending false [.short 1, .full]).answers.sends 2).halt = .done := by decide
    refine ⟨by decide, fun reason failed => ?_⟩
    simp [done] at failed
  exact ⟨sendable, (all_or_reported_iff rfl rfl (sending_regular _ _) 2).mpr sendable⟩

/-- Two bytes of which the first is written twice, a frame whose payload is lost, and one
whose header fails, behind which the client is used. -/
theorem not_all_or_reported :
    (((cSendData ⟨1, 1, true, []⟩ 0 [0, 1]).run (sending false [.short 1, .short 0])).1 = .ok 0 ∧
      wireTo 0 ((cSendData ⟨1, 1, true, []⟩ 0 [0, 1]).run (sending false [.short 1, .short 0])).2.log =
        [0, 0]) ∧
    ((cSendData ⟨1, 1, true, []⟩ 0 [7]).run (sending true [.full, .error []])).1 = .ok 0 ∧
    ((cSendData ⟨1, 1, true, []⟩ 0 [7]).run (sending true [.error []])).1 = .error .useAfterFree ∧
    ¬ AllOrReported ⟨1, 1, true, []⟩ 0 (cNew 0 false false []) (sending false [.short 1, .short 0])
      [0, 1] ∧
    ¬ AllOrReported ⟨1, 1, true, []⟩ 0 (cNew 0 false true []) (sending true [.full, .error []]) [7] ∧
    ¬ AllOrReported ⟨1, 1, true, []⟩ 0 (cNew 0 false true []) (sending true [.error []]) [7] := by
  refine ⟨⟨by decide +kernel, by decide +kernel⟩, by decide +kernel, by decide +kernel, ?_, ?_, ?_⟩
  · rw [plain_allOrReported rfl (sending_regular _ _) rfl rfl]
    exact fun both => absurd (both.1 (by decide)) (by decide)
  · rw [framed_allOrReported rfl (sending_regular _ _) rfl rfl (by simp) (by decide)]
    decide
  · rw [framed_allOrReported rfl (sending_regular _ _) rfl rfl (by simp) (by decide)]
    decide

/-! ### What a receiver makes of it -/

/-- The `send` takes some bytes. -/
def Sent.succeeds : Sent → Bool
  | .full => true
  | .short n => 0 < n
  | .error _ => false

/-- While every `send` takes some bytes a call writes all of them. -/
theorem transfer_succeeds {sends : List Sent} (succeed : ∀ answer ∈ sends, answer.succeeds = true)
    (len : Nat) :
    (transfer sends len).halt = .done ∧
      ∀ answer ∈ (transfer sends len).rest, answer.succeeds = true := by
  fun_induction transfer sends len with
  | case1 sends => exact ⟨rfl, succeed⟩
  | case2 len => exact ⟨rfl, succeed⟩
  | case3 sends len => exact ⟨rfl, fun answer member => succeed answer (by simp [member])⟩
  | case4 sends len => exact absurd (succeed (.short 0) (by simp)) (by decide)
  | case5 n sends len later inductionHypothesis =>
      exact inductionHypothesis fun answer member => succeed answer (by simp [member])
  | case6 reason sends len => exact absurd (succeed (.error reason) (by simp)) (by simp [Sent.succeeds])

private theorem cSendDataWire_succeeds (cfg : Config) (present : b.clients c = some p)
    (notClosing : p.state ≠ .closing) (succeed : ∀ answer ∈ b.answers.sends, answer.succeeds = true)
    (buf : List Byte) :
    ∃ pieces rest, pieces.flatten = buf ∧ (∀ answer ∈ rest, answer.succeeds = true) ∧
      (cSendDataWire cfg c buf).run b = (.ok buf.length, b.wrote c pieces rest) := by
  obtain ⟨done, succeedBehind⟩ := transfer_succeeds succeed buf.length
  have all := (transfer_taken b.answers.sends buf.length).2.mpr done
  obtain ⟨pieces, written, sent⟩ := cSendDataWire_run cfg present notClosing buf
  refine ⟨pieces, _, ?_, succeedBehind, ?_⟩
  · rw [written, all, List.take_length]
  · rw [sent, ended_held (by simp [done]), all, Nat.zero_add]

/-- One frame is written. -/
theorem cSendDataWs_succeeds (cfg : Config) (present : b.clients c = some p)
    (notClosing : p.state ≠ .closing) (succeed : ∀ answer ∈ b.answers.sends, answer.succeeds = true)
    (short : buf.length < 2 ^ 16) :
    ∃ pieces rest, pieces.flatten = wsHeader buf.length ++ buf ∧
      (∀ answer ∈ rest, answer.succeeds = true) ∧
      (cSendDataWs cfg c buf).run b = (.ok buf.length, b.wrote c pieces rest) := by
  obtain ⟨first, middle, wroteHeader, succeedBehind, header⟩ :=
    cSendDataWire_succeeds cfg present notClosing succeed (wsHeader buf.length)
  have found : (b.wrote c first middle).clients c = some p := present
  obtain ⟨second, rest, wrotePayload, succeedLast, payload⟩ :=
    cSendDataWire_succeeds cfg found notClosing succeedBehind buf
  refine ⟨first ++ second, rest, ?_, succeedLast, ?_⟩
  · rw [List.flatten_append, wroteHeader, wrotePayload]
  · rw [cSendDataWs, if_pos short, Cmd.bind_ok header, Cmd.bind_ok payload, Cmd.run_pure, wrote_wrote]

/-- Send buffers one behind the other. -/
def sendFrames (cfg : Config) (c : ClientId) : List (List Byte) → Code Unit :=
  Cmd.each fun buf => do
    let _ ← cSendDataWs cfg c buf

private theorem sendFrames_run (present : b.clients c = some p) (notClosing : p.state ≠ .closing)
    (succeed : ∀ answer ∈ b.answers.sends, answer.succeeds = true) {bufs : List (List Byte)}
    (short : ∀ buf ∈ bufs, buf.length < 2 ^ 16) :
    ∃ pieces rest frames, (sendFrames cfg c bufs).run b = (.ok (), b.wrote c pieces rest) ∧
      pieces.flatten = encodeFrames frames ∧ List.Forall₂ CarriesMessage frames bufs := by
  induction bufs generalizing b with
  | nil =>
      refine ⟨[], b.answers.sends, [], ?_, rfl, .nil⟩
      rw [wrote_nothing]
      rfl
  | cons buf bufs inductionHypothesis =>
      have fits := short buf (by simp)
      obtain ⟨pieces, rest, written, succeedBehind, sent⟩ :=
        cSendDataWs_succeeds cfg present notClosing succeed fits
      have found : (b.wrote c pieces rest).clients c = some p := present
      obtain ⟨more, last, frames, ran, encoded, carry⟩ := inductionHypothesis found succeedBehind
        fun other member => short other (by simp [member])
      have carries : CarriesMessage (binaryFrame buf (Nat.lt_trans fits (by decide))) buf := ⟨rfl, rfl, rfl⟩
      refine ⟨pieces ++ more, last, binaryFrame buf (Nat.lt_trans fits (by decide)) :: frames, ?_, ?_,
        .cons carries carry⟩
      · have one : (do let _ ← cSendDataWs cfg c buf : Code Unit).run b = (.ok (), b.wrote c pieces rest) :=
          Cmd.bind_ok sent
        rw [← wrote_wrote b c pieces more rest last]
        exact Cmd.each_cons_ok one ran
      · rw [List.flatten_append, written, encoded, encodeFrames, encodeFrames, List.flatMap_cons,
          encode_of_carries carries rfl fits]

/-- What `c_send_data_ws` writes is received, however it is cut, without an error and as
one binary message for each buffer. -/
theorem sent_frames_received (present : b.clients c = some p) (notClosing : p.state ≠ .closing)
    (succeed : ∀ answer ∈ b.answers.sends, answer.succeeds = true) {bufs : List (List Byte)}
    (sized : ∀ buf ∈ bufs, 1 ≤ buf.length ∧ buf.length ≤ 65535) :
    ∃ d bytes, (sendFrames cfg c bufs).run b = (.ok (), d) ∧
      wireTo c d.log = wireTo c b.log ++ bytes ∧
      ∀ chunks : List (List Byte), chunks.flatten = bytes →
        ∃ codes calls, (executeChunks wsParserInit chunks :
            Cmd Fault (List WsCall) (List Int)).run [] = (.ok codes, calls) ∧
          (∀ code ∈ codes, code = 0) ∧
          readMessages none (calls.flatMap WsCall.events) =
            some (bufs.map fun buf => (wsFrameBinary, buf)) := by
  have short : ∀ buf ∈ bufs, buf.length < 2 ^ 16 := by
    intro buf member
    have := (sized buf member).2
    omega
  obtain ⟨pieces, rest, frames, ran, encoded, carry⟩ : ∃ _ _ _, (sendFrames cfg c bufs).run b = _ ∧ _ :=
    sendFrames_run present notClosing succeed short
  refine ⟨_, pieces.flatten, ran, wireTo_wrote _ _ _ _, fun chunks cut => ?_⟩
  exact receives_frames carry (cut.trans encoded)

theorem sent_frames_received_two :
    ∃ d bytes, (sendFrames ⟨1, 1, true, []⟩ 0 [[7], [1, 2, 3]]).run (sending true [.short 1]) =
        (.ok (), d) ∧
      wireTo 0 d.log = wireTo 0 (sending true [.short 1]).log ++ bytes ∧
      ∃ codes calls, (executeChunks wsParserInit [bytes.take 3, bytes.drop 3] :
          Cmd Fault (List WsCall) (List Int)).run [] = (.ok codes, calls) ∧
        (∀ code ∈ codes, code = 0) ∧
        readMessages none (calls.flatMap WsCall.events) =
          some [(wsFrameBinary, [7]), (wsFrameBinary, [1, 2, 3])] := by
  obtain ⟨d, bytes, ran, wires, received⟩ : ∃ _ _, (sendFrames ⟨1, 1, true, []⟩ 0 [[7], [1, 2, 3]]).run
      (sending true [.short 1]) = _ ∧ _ :=
    sent_frames_received rfl (by decide) (by decide) (by decide)
  exact ⟨d, bytes, ran, wires, received _ (by simp)⟩

end FbBroker.Broker
