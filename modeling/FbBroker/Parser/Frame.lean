import FbBroker.Parser.Step

/-!
Contract: what a round of the parser leaves alone, and what it keeps in range.

A round over a byte of one packet type changes the fields of that type only and
stays within the states of the packet until it hands it to its callback. The
values the callbacks rely on are in range whenever one is called.
-/

set_option autoImplicit false

namespace FbBroker.Parser

open FbBroker.Packet

variable {allowAnonymous mallocOk : Bool} {s : Session} {b : Byte}

/-- The session is in the middle of a CONNECT. -/
def PState.isConnect : PState → Bool
  | .connect _ => true
  | _ => false

/-- Between two sessions nothing but the fields of a CONNECT differs. -/
structure ConnectFrame (s next : Session) : Prop where
  header : next.header = s.header
  subscribe : next.subscribe = s.subscribe
  publish : next.publish = s.publish

private theorem connectByte_frame {state : ConnectState} (here : s.state = .connect state) :
    (connectByte allowAnonymous mallocOk s b state).Ensures
      (fun next => ConnectFrame s next ∧ next.state.isConnect = true)
      fun last request => ConnectFrame s last ∧ last.state.isConnect = true ∧ request = .connect := by
  have inside : s.state.isConnect = true := by rw [here]; rfl
  cases state <;> simp only [connectByte, clientIdDone] <;>
    repeat' first
      | exact ⟨⟨rfl, rfl, rfl⟩, rfl⟩
      | exact ⟨⟨rfl, rfl, rfl⟩, inside⟩
      | exact ⟨⟨rfl, rfl, rfl⟩, inside, rfl⟩
      | trivial
      | refine ensures_store fun _ => ?_
      | refine meets_ite (fun _ => ?_) fun _ => ?_
      | split

/-- The values a callback relies on are in range. -/
structure Session.Ok (s : Session) : Prop where
  dup : s.header.dup ≤ 1
  qos : s.header.qos ≤ 3
  retain : s.header.retain ≤ 1
  filters : s.subscribe.numFilters ≤ maxNumTopics
  draft : ∀ mp, s.publish.mp = some mp → mp.dup ≤ 1 ∧ mp.origQos ≤ 3 ∧ mp.retain ≤ 1

theorem Session.Ok.toHeader (ok : s.Ok) : ({ s with state := .header } : Session).Ok :=
  ⟨ok.dup, ok.qos, ok.retain, ok.filters, ok.draft⟩

theorem mqttParserInit_ok : mqttParserInit.Ok :=
  ⟨by decide, by decide, by decide, by decide, by simp [mqttParserInit]⟩

theorem ConnectFrame.ok {s next : Session} (frame : ConnectFrame s next) (ok : s.Ok) : next.Ok := by
  obtain ⟨header, subscribe, publish⟩ := frame
  exact ⟨header ▸ ok.dup, header ▸ ok.qos, header ▸ ok.retain, subscribe ▸ ok.filters,
    publish ▸ ok.draft⟩

/-- A round outside a CONNECT: the header and the user name stay, and no CONNECT is
entered or completed. -/
structure Apart (s next : Session) : Prop where
  ok : next.Ok
  header : next.header = s.header
  username : next.username = s.username
  outside : next.state.isConnect = false

theorem Apart.of_frame {s next : Session} (ok : s.Ok) (header : next.header = s.header)
    (draft : next.publish.mp = s.publish.mp) (filters : next.subscribe.numFilters ≤ maxNumTopics)
    (username : next.username = s.username) (outside : next.state.isConnect = false) :
    Apart s next :=
  ⟨⟨header ▸ ok.dup, header ▸ ok.qos, header ▸ ok.retain, filters, draft ▸ ok.draft⟩,
    header, username, outside⟩

private theorem filterLength_apart {topic2 : PState} (ok : s.Ok)
    (outside : topic2.isConnect = false) {onCall : Session → Request → Prop} :
    (filterLength mallocOk s b topic2).Ensures (Apart s) onCall := by
  refine meets_ite (fun _ => trivial) fun _ => meets_ite (fun _ => trivial) fun _ =>
    meets_ite (fun _ => ?_) fun _ => trivial
  exact .of_frame ok rfl rfl ok.filters rfl outside

private theorem subscribeByte_apart {state : SubscribeState} (here : s.state = .subscribe state) (ok : s.Ok) :
    (subscribeByte mallocOk s b state).Ensures (Apart s)
      fun last request => Apart s last ∧ request ≠ .connect := by
  have outside : s.state.isConnect = false := by rw [here]; rfl
  cases state with
  | packetId0 => exact .of_frame ok rfl rfl ok.filters rfl rfl
  | packetId1 => exact .of_frame ok rfl rfl (Nat.zero_le _) rfl rfl
  | topic0 => exact .of_frame ok rfl rfl ok.filters rfl rfl
  | topic1 => exact filterLength_apart ok rfl
  | topic2 =>
      refine meets_ite (fun _ => ensures_store fun _ => meets_ite (fun _ => ?_) fun _ => ?_)
        fun _ => trivial
      · exact .of_frame ok rfl rfl ok.filters rfl rfl
      · exact .of_frame ok rfl rfl ok.filters rfl outside
  | topicQos =>
      refine meets_ite (fun _ => trivial) fun _ => meets_ite (fun room =>
        meets_ite (fun _ => ?_) fun _ => ⟨?_, by decide⟩) fun _ => trivial
      · exact .of_frame ok rfl rfl room rfl rfl
      · exact .of_frame ok rfl rfl room rfl outside

private theorem unsubscribeByte_apart {state : UnsubscribeState}
    (here : s.state = .unsubscribe state) (ok : s.Ok) :
    (unsubscribeByte mallocOk s b state).Ensures (Apart s)
      fun last request => Apart s last ∧ request ≠ .connect := by
  have outside : s.state.isConnect = false := by rw [here]; rfl
  cases state with
  | packetId0 => exact .of_frame ok rfl rfl ok.filters rfl rfl
  | packetId1 => exact .of_frame ok rfl rfl (Nat.zero_le _) rfl rfl
  | topic0 => exact .of_frame ok rfl rfl ok.filters rfl rfl
  | topic1 => exact filterLength_apart ok rfl
  | topic2 =>
      refine meets_ite (fun room => ensures_store fun _ => meets_ite (fun _ =>
        meets_ite (fun _ => ?_) fun _ => ⟨?_, by decide⟩) fun _ => ?_) fun _ => trivial
      · exact .of_frame ok rfl rfl room rfl rfl
      · exact .of_frame ok rfl rfl room rfl outside
      · exact .of_frame ok rfl rfl ok.filters rfl outside

/-- A message drafted from the header is in range. -/
theorem Apart.of_draft {s next : Session} {mp : Draft} (ok : s.Ok) (header : next.header = s.header)
    (drafted : next.publish.mp = some mp) (inRange : mp.dup ≤ 1 ∧ mp.origQos ≤ 3 ∧ mp.retain ≤ 1)
    (subscribe : next.subscribe = s.subscribe) (username : next.username = s.username)
    (outside : next.state.isConnect = false) : Apart s next := by
  refine ⟨⟨header ▸ ok.dup, header ▸ ok.qos, header ▸ ok.retain, subscribe ▸ ok.filters, ?_⟩,
    header, username, outside⟩
  intro mp' found
  obtain rfl : mp = mp' := Option.some.inj (drafted.symm.trans found)
  exact inRange

private theorem topicDone_apart (ok : s.Ok)
    {onCall : Session → Request → Prop} : (topicDone mallocOk s).Ensures (Apart s) onCall := by
  have inRange := And.intro ok.dup (And.intro ok.qos ok.retain)
  unfold topicDone
  by_cases withId : s.header.qos ≠ 0
  · simp only [if_pos withId]
    refine meets_ite (fun _ => trivial) fun _ => meets_ite (fun _ => ?_) fun _ => trivial
    exact .of_draft ok rfl rfl inRange rfl rfl rfl
  · simp only [if_neg withId]
    refine meets_ite (fun _ => trivial) fun _ => meets_ite (fun _ => ?_) fun _ => trivial
    exact .of_draft ok rfl rfl inRange rfl rfl rfl

private theorem publishByte_apart {state : PublishState} (here : s.state = .publish state) (ok : s.Ok) :
    (publishByte mallocOk s b state).Ensures (Apart s)
      fun last request => Apart s last ∧ request ≠ .connect := by
  have outside : s.state.isConnect = false := by rw [here]; rfl
  cases state with
  | topic0 => exact .of_frame ok rfl rfl ok.filters rfl rfl
  | topic1 =>
      refine meets_ite (fun _ => trivial) fun _ => ?_
      exact .of_frame ok rfl rfl ok.filters rfl rfl
  | topic2 =>
      simp only [publishByte]
      refine ensures_store fun _ => meets_ite (fun _ => ensures_store fun _ => ?_) fun _ => ?_
      · refine (topicDone_apart ?_).mono (fun next apart => ?_) fun _ _ done => done
        · exact ⟨ok.dup, ok.qos, ok.retain, ok.filters, ok.draft⟩
        · exact ⟨apart.ok, apart.header, apart.username, apart.outside⟩
      · exact .of_frame ok rfl rfl ok.filters rfl outside
  | packetId0 =>
      cases drafted : s.publish.mp with
      | none => simp [publishByte, drafted]
      | some mp =>
          simp only [publishByte, drafted]
          exact .of_draft ok rfl rfl (ok.draft mp drafted) rfl rfl rfl
  | packetId1 =>
      cases drafted : s.publish.mp with
      | none => simp [publishByte, drafted]
      | some mp =>
          simp only [publishByte, drafted]
          exact .of_draft ok rfl rfl (ok.draft mp drafted) rfl rfl rfl
  | payload =>
      cases drafted : s.publish.mp with
      | none => simp [publishByte, drafted]
      | some mp =>
          simp only [publishByte, drafted]
          refine ensures_store fun _ => meets_ite (fun _ => ensures_store fun _ => ⟨?_, by decide⟩)
            fun _ => ?_
          · exact .of_draft ok rfl rfl (ok.draft mp drafted) rfl rfl outside
          · exact .of_draft ok rfl rfl (ok.draft mp drafted) rfl rfl outside

theorem Session.Ok.header (ok : s.Ok) (b : Byte) :
    ({ s with header := Header.ofByte b } : Session).Ok := by
  refine ⟨?_, Nat.and_le_right, ?_, ok.filters, ok.draft⟩
  · dsimp only [Header.ofByte]
    split <;> decide
  · dsimp only [Header.ofByte]
    split <;> decide

private theorem headerByte_ok (ok : s.Ok) :
    (headerByte s b).Ensures
      (fun next => next.Ok ∧ next.username = s.username ∧ next.state = .remLen) fun _ _ => False := by
  obtain ⟨dup, qos, retain, filters, draft⟩ := ok.header b
  refine meets_ite (fun _ => trivial) fun _ => meets_ite (fun _ => trivial) fun _ => ?_
  exact ⟨⟨dup, qos, retain, filters, draft⟩, rfl, rfl⟩

private theorem remLenByte_ok (ok : s.Ok) :
    (remLenByte s b).Ensures (fun next => next.Ok ∧ next.username = s.username)
      fun last request => last.Ok ∧ last.username = s.username ∧ request = .ping := by
  have same : ∀ {next : Session}, next.header = s.header → next.subscribe = s.subscribe →
      next.publish = s.publish → next.Ok := fun header subscribe publish =>
    ConnectFrame.ok ⟨header, subscribe, publish⟩ ok
  refine meets_ite (fun _ => ?_) fun _ => ⟨same rfl rfl rfl, rfl⟩
  unfold dispatch
  split
  · exact ⟨same rfl rfl rfl, rfl⟩
  · trivial
  · exact ⟨same rfl rfl rfl, rfl, rfl⟩
  · exact ⟨same rfl rfl rfl, rfl⟩
  · exact ⟨same rfl rfl rfl, rfl⟩
  · exact ⟨same rfl rfl rfl, rfl⟩
  · trivial

/-- A round outside a CONNECT keeps the user name and completes none. -/
theorem parserByte_outside (ok : s.Ok) (outside : s.state.isConnect = false) :
    (parserByte allowAnonymous mallocOk s b).Ensures
      (fun next => next.Ok ∧ next.username = s.username)
      fun last request => last.Ok ∧ last.username = s.username ∧ request ≠ .connect := by
  unfold parserByte
  cases here : s.state with
  | header => exact (headerByte_ok ok).mono (fun _ kept => ⟨kept.1, kept.2.1⟩) fun _ _ never => never.elim
  | remLen =>
      exact (remLenByte_ok ok).mono (fun _ kept => kept) fun _ _ ⟨kept, username, ping⟩ =>
        ⟨kept, username, by simp [ping]⟩
  | connect state => simp [here, PState.isConnect] at outside
  | subscribe state =>
      exact (subscribeByte_apart here ok).mono (fun _ apart => ⟨apart.ok, apart.username⟩)
        fun _ _ ⟨apart, other⟩ => ⟨apart.ok, apart.username, other⟩
  | unsubscribe state =>
      exact (unsubscribeByte_apart here ok).mono (fun _ apart => ⟨apart.ok, apart.username⟩)
        fun _ _ ⟨apart, other⟩ => ⟨apart.ok, apart.username, other⟩
  | publish state =>
      exact (publishByte_apart here ok).mono (fun _ apart => ⟨apart.ok, apart.username⟩)
        fun _ _ ⟨apart, other⟩ => ⟨apart.ok, apart.username, other⟩

/-- A round inside a CONNECT stays inside until it completes it. -/
theorem parserByte_inside (ok : s.Ok) (inside : s.state.isConnect = true) :
    (parserByte allowAnonymous mallocOk s b).Ensures
      (fun next => next.Ok ∧ next.state.isConnect = true)
      fun last request => last.Ok ∧ last.state.isConnect = true ∧ request = .connect := by
  unfold parserByte
  cases here : s.state with
  | connect state =>
      exact (connectByte_frame here).mono (fun _ ⟨frame, stays⟩ => ⟨frame.ok ok, stays⟩)
        fun _ _ ⟨frame, stays, connecting⟩ => ⟨frame.ok ok, stays, connecting⟩
  | _ => simp [here, PState.isConnect] at inside

theorem parserByte_ok (ok : s.Ok) :
    (parserByte allowAnonymous mallocOk s b).Ensures Session.Ok fun last _ => last.Ok := by
  cases position : s.state.isConnect with
  | false => exact (parserByte_outside ok position).mono (fun _ kept => kept.1) fun _ _ kept => kept.1
  | true => exact (parserByte_inside ok position).mono (fun _ kept => kept.1) fun _ _ kept => kept.1

/-! ### Ends -/

/-- The session in which a round ends the loop satisfies a condition, what it
returns is an error, and a fault it stops with is none of the callbacks. -/
abbrev Outcome.OnEnd (ended : Session → Prop) : Outcome → Prop :=
  Outcome.Meets ⟨fun _ => True, fun s rv => rv ≠ 0 ∧ ended s, fun _ _ => True, ended,
    fun fault => fault ≠ .useAfterFree ∧ fault ≠ .assertion⟩

private theorem onEnd_store {size i : Nat} {array : Nat → Byte} {rest : (Nat → Byte) → Outcome}
    {ended : Session → Prop} (inside : (rest (Function.update array i b)).OnEnd ended) :
    (store size array i b rest).OnEnd ended :=
  meets_store (fun _ => inside) fun _ => ⟨by decide, by decide⟩

theorem Outcome.OnEnd.mono {outcome : Outcome} {ended weak : Session → Prop}
    (onEnd : outcome.OnEnd ended) (weaker : ∀ s, ended s → weak s) : outcome.OnEnd weak := by
  cases outcome with
  | ret s rv => exact ⟨onEnd.1, weaker s onEnd.2⟩
  | disconnect s => exact weaker s onEnd
  | stop fault => exact onEnd
  | _ => trivial

/-- What a round that ends the loop leaves. -/
structure EndFrame (s last : Session) : Prop where
  header : last.header = s.header
  filters : last.subscribe.numFilters = s.subscribe.numFilters
  draft : last.publish.mp = s.publish.mp

theorem EndFrame.ok {s last : Session} (frame : EndFrame s last) (ok : s.Ok) : last.Ok := by
  obtain ⟨header, filters, draft⟩ := frame
  exact ⟨header ▸ ok.dup, header ▸ ok.qos, header ▸ ok.retain, filters ▸ ok.filters,
    draft ▸ ok.draft⟩

private theorem connectByte_onEnd {state : ConnectState} :
    (connectByte allowAnonymous mallocOk s b state).OnEnd (EndFrame s) := by
  cases state <;> simp only [connectByte, clientIdDone] <;>
    repeat' first
      | exact ⟨by decide, rfl, rfl, rfl⟩
      | exact ⟨by decide, by decide⟩
      | trivial
      | refine onEnd_store ?_
      | refine meets_ite (fun _ => ?_) fun _ => ?_
      | split

private theorem subscribeByte_onEnd {state : SubscribeState} :
    (subscribeByte mallocOk s b state).OnEnd (EndFrame s) := by
  cases state <;> simp only [subscribeByte, filterLength, filterByte] <;>
    repeat' first
      | exact ⟨by decide, rfl, rfl, rfl⟩
      | exact ⟨by decide, by decide⟩
      | trivial
      | refine onEnd_store ?_
      | refine meets_ite (fun _ => ?_) fun _ => ?_

private theorem unsubscribeByte_onEnd {state : UnsubscribeState} :
    (unsubscribeByte mallocOk s b state).OnEnd (EndFrame s) := by
  cases state <;> simp only [unsubscribeByte, filterLength, filterByte] <;>
    repeat' first
      | exact ⟨by decide, rfl, rfl, rfl⟩
      | exact ⟨by decide, by decide⟩
      | trivial
      | refine onEnd_store ?_
      | refine meets_ite (fun _ => ?_) fun _ => ?_

private theorem topicDone_onEnd :
    (topicDone mallocOk s).OnEnd (EndFrame s) := by
  have ends : ∀ payloadLen i state,
      EndFrame s { s with publish.payloadLen := payloadLen, i := i, state := state } :=
    fun _ _ _ => ⟨rfl, rfl, rfl⟩
  unfold topicDone
  by_cases withId : s.header.qos ≠ 0
  · simp only [if_pos withId]
    generalize sub32 s.remLen (s.publish.topicLen + 4) = payloadLen
    exact meets_ite (fun _ => ⟨by decide, ends _ _ _⟩) fun _ =>
      meets_ite (fun _ => trivial) fun _ => ⟨by decide, ends _ _ _⟩
  · simp only [if_neg withId]
    generalize sub32 s.remLen (s.publish.topicLen + 2) = payloadLen
    exact meets_ite (fun _ => ⟨by decide, ends _ _ _⟩) fun _ =>
      meets_ite (fun _ => trivial) fun _ => ⟨by decide, ends _ _ _⟩

private theorem publishByte_onEnd {state : PublishState} :
    (publishByte mallocOk s b state).OnEnd (EndFrame s) := by
  cases state with
  | topic0 => trivial
  | topic1 => exact meets_ite (fun _ => ⟨by decide, rfl, rfl, rfl⟩) fun _ => trivial
  | topic2 =>
      simp only [publishByte]
      refine onEnd_store (meets_ite (fun _ => onEnd_store ?_) fun _ => trivial)
      exact topicDone_onEnd.mono fun last frame => ⟨frame.header, frame.filters, frame.draft⟩
  | packetId0 => cases drafted : s.publish.mp <;> simp [publishByte, drafted]
  | packetId1 => cases drafted : s.publish.mp <;> simp [publishByte, drafted]
  | payload =>
      cases drafted : s.publish.mp with
      | none => simp [publishByte, drafted]
      | some mp =>
          simp only [publishByte, drafted]
          exact onEnd_store (meets_ite (fun _ => onEnd_store trivial) fun _ => trivial)

/-- Behind the header, a round that ends the loop is still in its packet. -/
theorem parserByte_onEnd (behind : s.state ≠ .header) :
    (parserByte allowAnonymous mallocOk s b).OnEnd (EndFrame s) := by
  unfold parserByte
  cases here : s.state with
  | header => exact absurd here behind
  | remLen =>
      refine meets_ite (fun _ => ?_) fun _ => trivial
      unfold dispatch
      split <;> first | trivial | exact ⟨rfl, rfl, rfl⟩ | exact ⟨by decide, rfl, rfl, rfl⟩
  | connect state => exact connectByte_onEnd
  | subscribe state => exact subscribeByte_onEnd
  | unsubscribe state => exact unsubscribeByte_onEnd
  | publish state => exact publishByte_onEnd

private theorem headerByte_onEnd :
    (headerByte s b).OnEnd fun last => last = { s with header := Header.ofByte b } :=
  meets_ite (fun _ => ⟨by decide, rfl⟩) fun _ => meets_ite (fun _ => ⟨by decide, rfl⟩) fun _ => trivial

/-- A round that returns from the loop returns an error. -/
theorem parserByte_ret {s last : Session} {rv : Int}
    (returns : parserByte allowAnonymous mallocOk s b = .ret last rv) : rv ≠ 0 := by
  by_cases here : s.state = .header
  · have ends : (headerByte s b).OnEnd _ := headerByte_onEnd
    unfold parserByte at returns
    rw [here] at returns
    dsimp only at returns
    rw [returns] at ends
    exact ends.1
  · have ends : (parserByte allowAnonymous mallocOk s b).OnEnd _ := parserByte_onEnd here
    rw [returns] at ends
    exact ends.1

theorem parserByte_onEnd_ok (ok : s.Ok) :
    (parserByte allowAnonymous mallocOk s b).OnEnd Session.Ok := by
  by_cases here : s.state = .header
  · unfold parserByte
    rw [here]
    exact headerByte_onEnd.mono fun last same => same ▸ ok.header b
  · exact (parserByte_onEnd here).mono fun last frame => frame.ok ok

/-- Behind the header, the fixed header of the packet stays. -/
theorem parserByte_header (ok : s.Ok) (behind : s.state ≠ .header) :
    (parserByte allowAnonymous mallocOk s b).Ensures (fun next => next.header = s.header)
      fun last _ => last.header = s.header := by
  unfold parserByte
  cases here : s.state with
  | header => exact absurd here behind
  | remLen =>
      refine meets_ite (fun _ => ?_) fun _ => rfl
      unfold dispatch
      split <;> trivial
  | connect state =>
      exact (connectByte_frame here).mono (fun _ kept => kept.1.header) fun _ _ kept => kept.1.header
  | subscribe state =>
      exact (subscribeByte_apart here ok).mono (fun _ apart => apart.header)
        fun _ _ kept => kept.1.header
  | unsubscribe state =>
      exact (unsubscribeByte_apart here ok).mono (fun _ apart => apart.header)
        fun _ _ kept => kept.1.header
  | publish state =>
      exact (publishByte_apart here ok).mono (fun _ apart => apart.header)
        fun _ _ kept => kept.1.header

/-- The session of an outcome, if it has one. -/
def Outcome.session : Outcome → Option Session
  | .next s => some s
  | .ret s _ => some s
  | .call s _ => some s
  | .disconnect s => some s
  | .stop _ => none

/-- A round leaves the header of its packet, which is the byte it read at the start of
one. -/
theorem parserByte_headerOf {s last : Session} (ok : s.Ok)
    (left : (parserByte allowAnonymous mallocOk s b).session = some last) :
    last.header = if s.state = .header then Header.ofByte b else s.header := by
  split
  · rename_i here
    have reads : parserByte allowAnonymous mallocOk s b = headerByte s b := by
      unfold parserByte
      rw [here]
    rw [reads] at left
    unfold headerByte at left
    dsimp only at left
    split_ifs at left <;> (obtain rfl := Option.some.inj left; rfl)
  · rename_i behind
    have goes : (parserByte allowAnonymous mallocOk s b).Ensures _ _ := parserByte_header ok behind
    have ends : (parserByte allowAnonymous mallocOk s b).OnEnd _ := parserByte_onEnd behind
    cases outcome : parserByte allowAnonymous mallocOk s b with
    | next s' =>
        rw [outcome] at left goes
        exact Option.some.inj left ▸ goes
    | call s' request =>
        rw [outcome] at left goes
        exact Option.some.inj left ▸ goes
    | ret s' rv =>
        rw [outcome] at left ends
        exact Option.some.inj left ▸ ends.2.header
    | disconnect s' =>
        rw [outcome] at left ends
        exact Option.some.inj left ▸ ends.header
    | stop fault => simp [outcome, Outcome.session] at left

/-! ### The keep-alive of a client -/

/-- The session of an outcome satisfies a condition. -/
abbrev Outcome.Leaves (holds : Session → Prop) : Outcome → Prop :=
  Outcome.Meets ⟨holds, fun s _ => holds s, fun s _ => holds s, holds, fun _ => True⟩

/-- What a byte makes of `keep_alive`. -/
def keepAliveAfter (s : Session) (b : Byte) : Nat :=
  match s.state with
  | .connect .keepAlive0 => high b
  | .connect .keepAlive1 => low s.keepAlive b
  | _ => s.keepAlive

theorem parserByte_keepAlive :
    (parserByte allowAnonymous mallocOk s b).Leaves fun last => last.keepAlive = keepAliveAfter s b := by
  unfold parserByte keepAliveAfter
  cases here : s.state with
  | header => exact meets_ite (fun _ => rfl) fun _ => meets_ite (fun _ => rfl) fun _ => rfl
  | remLen =>
      refine meets_ite (fun _ => ?_) fun _ => rfl
      unfold dispatch
      dsimp only
      split <;> rfl
  | _ state =>
      -- every state of the four packets, down to the sessions its tests lead to
      cases state <;> simp only [connectByte, clientIdDone, subscribeByte, unsubscribeByte, filterLength,
          filterByte, publishByte, topicDone] <;>
        repeat' first
          | rfl
          | trivial
          | refine meets_store (fun _ => ?_) fun _ => trivial
          | refine meets_ite (fun _ => ?_) fun _ => ?_
          | split

/-! ### The message of a PUBLISH -/

/-- The message of a PUBLISH has been created and is not complete. -/
def PState.drafting : PState → Bool
  | .publish .packetId0 => true
  | .publish .packetId1 => true
  | .publish .payload => true
  | _ => false

/-- Whether a byte that leads from one session to another made `message_create`
return a message for a PUBLISH: the topic is complete. -/
def creates (s s' : Session) : Bool :=
  s.state = .publish .topic2 && s'.state ≠ .publish .topic2

/-- What becomes of the message of a PUBLISH: it stays until the callback, and no
byte ends the session while it is there. -/
abbrev Outcome.Accounts (s : Session) : Outcome → Prop :=
  Outcome.Meets {
    next := fun s' => s'.state.drafting = (s.state.drafting || creates s s')
    ret := fun _ _ => s.state.drafting = false
    call := fun last request => (request = .publish ↔ s.state.drafting = true) ∧
      (request = .publish → last.publish.mp.isSome)
    disconnect := fun _ => s.state.drafting = false
    stop := fun _ => True }

private theorem topicDone_accounts {s last : Session} (here : s.state = .publish .topic2) :
    (topicDone mallocOk last).Accounts s := by
  unfold topicDone
  by_cases withId : last.header.qos ≠ 0
  · simp only [if_pos withId]
    generalize sub32 last.remLen (last.publish.topicLen + 4) = payloadLen
    refine meets_ite (fun _ => ?_) fun _ => meets_ite (fun _ => ?_) fun _ => ?_ <;>
      simp [here, PState.drafting, creates]
  · simp only [if_neg withId]
    generalize sub32 last.remLen (last.publish.topicLen + 2) = payloadLen
    refine meets_ite (fun _ => ?_) fun _ => meets_ite (fun _ => ?_) fun _ => ?_ <;>
      simp [here, PState.drafting, creates]

theorem parserByte_accounts :
    (parserByte allowAnonymous mallocOk s b).Accounts s := by
  unfold parserByte
  cases here : s.state with
  | header =>
      refine meets_ite (fun _ => ?_) fun _ => meets_ite (fun _ => ?_) fun _ => ?_ <;>
        simp [here, PState.drafting, creates]
  | remLen =>
      refine meets_ite (fun _ => ?_) fun _ => by simp [here, PState.drafting, creates]
      unfold dispatch
      dsimp only
      split <;> simp [here, PState.drafting, creates]
  | _ state =>
      -- every state of the four packets, down to the sessions its tests lead to
      cases state <;> simp only [connectByte, clientIdDone, subscribeByte, unsubscribeByte, filterLength,
          filterByte, publishByte] <;>
        repeat' first
          | exact topicDone_accounts here
          | (simp [here, PState.drafting, creates]; done)
          | trivial
          | refine meets_store (fun _ => ?_) fun _ => trivial
          | refine meets_ite (fun _ => ?_) fun _ => ?_
          | split

end FbBroker.Parser
