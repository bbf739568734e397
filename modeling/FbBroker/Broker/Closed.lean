import FbBroker.Broker.Steps

/-!
Contract: a closed client inside a call of `c_parse`.

Owns the condition under which a call closes the client only as its last act,
and the calls in which the freed record is used: the loop of
`mqtt_parser_execute` goes on behind a DISCONNECT and behind a callback that
turned the client away, and `c_parse` disconnects behind a callback that failed.
-/

set_option autoImplicit false

namespace FbBroker.Broker

open FbBroker.Lib FbBroker.Parser

variable {cfg : Config} {c : ClientId} {b : State}

/-- A call that touched no freed record and failed no assertion. -/
def Clean : Except Fault Unit × State → Prop
  | (.ok _, _) => True
  | (.error fault, _) => fault ≠ .useAfterFree ∧ fault ≠ .assertion

/-- No byte of the buffer completes a packet on which the client is closed: a
DISCONNECT, a CONNECT that `auth_auth` fails, or a SUBSCRIBE with a filter that
`auth_acl` denies. -/
def StaysOpen (cfg : Config) (c : ClientId) : List Byte → State → Prop :=
  Along cfg c fun b byte => roundCloses cfg c b byte = false

instance (buf : List Byte) (b : State) : Decidable (StaysOpen cfg c buf b) :=
  decidableAlong cfg c _ buf b

/-- A round that does not close the client finds it at its end. -/
theorem open_round {byte : Byte} (sound : Sound b) (there : (b.clients c).isSome)
    (taken : b.answers.Taken) (stays : roundCloses cfg c b byte = false) :
    RoundEnds (fun d => d.answers.Taken) (fun d => (d.clients c).isSome)
      (fun fault _ => fault ≠ .useAfterFree ∧ fault ≠ .assertion)
      ((parserRound cfg c byte).run b) := by
  obtain ⟨p, present⟩ := Option.isSome_iff_exists.mp there
  have round : Round cfg false c b p byte ((parserRound cfg c byte).run b) :=
    parserRound_round present sound.regular (sound.sessions c p present) (.inr ⟨taken, stays⟩)
  generalize (parserRound cfg c byte).run b = outcome at round
  cases round with
  | next parses => exact taken
  | refused parses fails => exact ⟨fails, by simp [State.emit]⟩
  | returned parses chain decided found =>
      exact taken.subset chain.writes
  | failed may => simp at may
  | broken parses chain fails => exact fails.resolve_left (by simp)
  | left may => simp at may
  | stopped other => exact other

private theorem cDisconnect_clean (regular : Regular b) (there : (b.clients c).isSome) (reason : List Byte) :
    Clean ((cDisconnect cfg c reason).run b) := by
  obtain ⟨p, present⟩ := Option.isSome_iff_exists.mp there
  have freed : Freed c ((cDisconnect cfg c reason).run b) := cDisconnect_freed present regular reason
  generalize (cDisconnect cfg c reason).run b = outcome at freed
  cases freed with
  | closed gone => trivial
  | crashed => exact ⟨by decide, by decide⟩

/-- In every state a run reaches, a call of `c_parse` whose writes all take bytes
and whose bytes do not make the broker close the client uses no record behind its
close and fails no assertion. -/
theorem parse_uses_no_closed_client {run : Run} (reached : (broker cfg).Reachable run) {buf : List Byte}
    {answers : Answers} (present : (run.state.clients c).isSome) (taken : answers.Taken)
    (stays : StaysOpen cfg c buf { run.state with answers }) :
    Clean ((cParse cfg c buf).run { run.state with answers }) := by
  have sound : Sound { run.state with answers } := (reachable_sound reached).answers answers
  exact cParse_rule (fun d => d.answers.Taken) (fun d => (d.clients c).isSome)
    (fun fault _ => fault ≠ .useAfterFree ∧ fault ≠ .assertion) Clean
    (fun d byte sound there taken stays => open_round sound there taken stays)
    (fun d _ _ _ => trivial) (fun d sound there => cDisconnect_clean sound.regular there _)
    (fun fault d _ other => other) sound present taken stays

/-- The run in which a client has connected to the only worker. -/
def oneClient : Run :=
  after (workersAddClient 0 false false []) start.state

private theorem oneClient_reachable : (broker (oneWorker false)).Reachable oneClient :=
  .next (.start rfl)
    (show (broker (oneWorker false)).step start (.accept 0 false false []) = some oneClient from rfl)

/-- A PUBLISH and a SUBSCRIBE that every client is allowed, and a PINGREQ. -/
def allowedPackets : List Byte :=
  [0x30, 20, 0, 17] ++ lit "flameboss/relay/xy" ++ [0x82, 26, 0, 1, 0, 21] ++ lit "flameboss/5/send/time" ++
    [0, 0xC0, 0]

private theorem allowedPackets_stay :
    StaysOpen (oneWorker false) 0 allowedPackets { oneClient.state with answers := silent } := by
  decide +kernel

theorem parse_uses_no_closed_client_packets :
    Clean ((cParse (oneWorker false) 0 allowedPackets).run { oneClient.state with answers := silent }) := by
  have clean := @parse_uses_no_closed_client (oneWorker false) 0 oneClient oneClient_reachable
    allowedPackets silent (by decide) (by decide) allowedPackets_stay
  dsimp only at clean ⊢
  exact clean

/-- A DISCONNECT closes the client; `parser->state` is written behind that. -/
theorem disconnect_uses_closed_client :
    (broker (oneWorker false)).Reachable oneClient ∧ (oneClient.state.clients 0).isSome ∧ silent.Good ∧
      ((cParse (oneWorker false) 0 [0xE0, 0x00]).run { oneClient.state with answers := silent }).2.log =
        [.closed 0] ∧
      ((cParse (oneWorker false) 0 [0xE0, 0x00]).run { oneClient.state with answers := silent }).1 =
        .error .useAfterFree :=
  ⟨oneClient_reachable, by decide, by decide, by decide, by decide⟩

end FbBroker.Broker
