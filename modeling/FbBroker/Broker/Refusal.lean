import FbBroker.Broker.Output
import FbBroker.Broker.Table

/-!
Contract: a SUBSCRIBE that the access check refuses.

Owns what is left of the tables of all workers behind `on_recv_subscribe` when
`auth_acl` denies one of the filters: the client is unbound and the searches find
what they found before, less the entries of that client.

Does not own which filters `auth_acl` denies.
-/

set_option autoImplicit false

namespace FbBroker.Broker

open FbBroker.Lib FbBroker.Packet FbBroker.Parser FbBroker.Dllist FbBroker.TrieMult
open FbBroker.Routing FbBroker.Auth

variable {cfg : Config} {c : ClientId} {b d : State} {p : Client} {w : Nat}
  {live : List (SubRef × List Byte)}

/-! ### Searches -/

/-- The subscriptions that `sub_search` calls back on for a topic, in this order. -/
def searchFinds (b : State) (w bound : Nat) (topic : List Byte) : Option (List SubRef) :=
  match (subSearch observe record bound topic).run ⟨⟨b.nodes, fun _ => [], b.subs w⟩, []⟩ with
  | (.ok _, observed) => some observed.calls
  | (.error _, _) => none

theorem Agrees.searchFinds (agrees : Agrees b w live) {bound : Nat} (enough : live.length ≤ bound)
    (topic : List Byte) :
    searchFinds b w bound topic = some (topicHits (entriesOf live) (cstr topic)) := by
  have held : Holds (⟨b.nodes, fun _ => [], b.subs w⟩ : Table SubRef).heap (b.subs w) live := agrees.holds
  have searched := subSearch_observed held enough (zero_notMem_cstr topic)
  rw [subSearch_cstr] at searched
  rw [Broker.searchFinds, searched]

/-- A search finds what it found before, less the entries of the client. -/
def FindsOthers (c : ClientId) (b d : State) (w bound : Nat) (topic : List Byte) : Prop :=
  ∃ calls, searchFinds b w bound topic = some calls ∧
    searchFinds d w bound topic = some (calls.filter fun ref => decide (ref.1 ≠ c))

theorem Agrees.findsOthers (before : Agrees b w live)
    (behind : Agrees d w (live.filter fun entry => decide (entry.1.1 ≠ c))) {bound : Nat}
    (enough : live.length ≤ bound) (topic : List Byte) : FindsOthers c b d w bound topic := by
  refine ⟨_, before.searchFinds enough topic, ?_⟩
  rw [behind.searchFinds ((List.length_filter_le _ _).trans enough), ← topicHits_filter]
  congr 2
  funext path
  exact entriesOf_filter (fun ref => decide (ref.1 ≠ c)) live path

/-! ### The refusal -/

/-- `ASSERT(ka->cnt >= 0)` fails for the client: it has been entered in the keep-alive table,
whose counter does not count it. -/
def Miscounted (c : ClientId) (b : State) (p : Client) : Prop :=
  p.session.keepAlive ≠ 0 ∧ (b.ka.node c).p.isSome ∧ (b.ka.table p.worker).cnt ≤ 0

private theorem kaRemove_cases (c : ClientId) (b : State) (p : Client) :
    (∃ ka, KeepAlive.kaRemove b.ka p.worker c p.session.keepAlive = .ok ka) ∨
      Miscounted c b p ∧ KeepAlive.kaRemove b.ka p.worker c p.session.keepAlive = .error .assertion := by
  unfold KeepAlive.kaRemove
  split
  · rename_i entered
    have counter : (((b.ka.unlink p.worker c).addCnt p.worker (-1)).table p.worker).cnt =
        (b.ka.table p.worker).cnt + -1 := by
      simp [KeepAlive.Wheel.addCnt, KeepAlive.Wheel.unlink, KeepAlive.Wheel.setBucket]
    dsimp only
    rw [counter]
    by_cases counts : 0 < (b.ka.table p.worker).cnt
    · rw [if_pos (by omega)]
      exact .inl ⟨_, rfl⟩
    · rw [if_neg (by omega)]
      exact .inr ⟨⟨entered.1, entered.2, by omega⟩, rfl⟩
  · exact .inl ⟨_, rfl⟩

/-- The message about a refused client always fits. -/
theorem announces_refused (b : State) (c : ClientId) (p : Client) :
    Announces b c p (lit "auth sub failed") := by
  intro _ _
  have short : (idString p.session.clientId).length ≤ Parser.maxIdLen + 1 := by
    refine (cstr_isPrefix _).length_le.trans ?_
    simp
  have parts : (lit "\x7b\"client_id\":\"").length = 14 ∧ (lit "\",\"reason\":\"").length = 12 ∧
      (lit "auth sub failed").length = 15 ∧ (lit "\",\"ts\":").length = 7 ∧ (lit "\x7d").length = 1 := by
    decide
  have digits := length_timeText_le (b.ka.timer c).recvAt
  simp only [farewell, List.length_append, parts]
  rw [Parser.maxIdLen] at short
  omega

/-- Behind a refusal the client is unbound, the tables of all workers agree without its entries
and the searches find the others. Nothing was inserted, no packet was sent and no byte written. -/
structure Refused (c : ClientId) (b d : State) : Prop where
  clients : d.clients = Function.update b.clients c none
  tables : ∀ w live, Agrees b w live → Agrees d w (live.filter fun entry => decide (entry.1.1 ≠ c))
  searches : ∀ w live, Agrees b w live → ∀ bound, live.length ≤ bound → ∀ topic,
    FindsOthers c b d w bound topic
  unanswered : ∃ events, d.log = b.log ++ events ∧ ∀ event ∈ events, event = .closed c ∨ event = .offline c

theorem Unbinds.refused (unbinds : Unbinds c p b d) (present : b.clients c = some p)
    (mine : Agrees b p.worker live) : Refused c b d := by
  have tables : ∀ w live, Agrees b w live →
      Agrees d w (live.filter fun entry => decide (entry.1.1 ≠ c)) := by
    intro w live agrees
    exact agrees.close mine present unbinds.clients unbinds.nodes unbinds.subs
  refine ⟨unbinds.clients, tables, fun w live agrees bound enough topic => ?_, ?_⟩
  · exact agrees.findsOthers (tables w live agrees) enough topic
  · rcases unbinds.log with log | log
    · exact ⟨_, log, by simp⟩
    · exact ⟨_, log, by simp⟩

/-- `c_disconnect` for a refused SUBSCRIBE unbinds the client, unless the assertion of
`ka_remove` stops it. -/
theorem cDisconnect_refused (cfg : Config) (present : b.clients c = some p) (opened : p.state ≠ .closing) :
    (∃ d, (cDisconnect cfg c (lit "auth sub failed")).run b = (.ok (), d) ∧ Unbinds c p b d) ∨
      Miscounted c b p ∧
        ∃ d, (cDisconnect cfg c (lit "auth sub failed")).run b = (.error .assertion, d) := by
  rcases kaRemove_cases c b p with ⟨ka, removed⟩ | ⟨miscounted, failed⟩
  · rcases cDisconnect_unbinds cfg present opened removed (lit "auth sub failed") with
      ⟨-, d, ran, unbinds⟩ | ⟨overflows, -⟩
    · exact .inl ⟨d, ran, unbinds⟩
    · exact absurd (announces_refused b c p) overflows
  · rcases told_run cfg present (lit "auth sub failed") with ⟨-, d, ran, told⟩ | ⟨overflows, -⟩
    · have found : d.clients c = some p := (congrFun told.clients c).trans present
      refine .inr ⟨miscounted, d, ?_⟩
      rw [cDisconnect_eq present opened, Cmd.bind_ok ran, release_run found opened, told.ka, failed]
    · exact absurd (announces_refused b c p) overflows

/-- Without anonymous access, a SUBSCRIBE of a plain user with a denied filter at any place
unbinds the client, and every search of every worker finds what it found before, less the
entries of this client. Only the assertion of `ka_remove` can stop it. -/
theorem refused_subscribe_spares_others (identified : cfg.allowAnonymous = false)
    (present : b.clients c = some p) (opened : p.state ≠ .closing) (plain : p.isSuper = false)
    (agrees : Agrees b p.worker live) (few : p.session.subscribe.numFilters ≤ maxNumTopics) {i : Nat}
    (inside : i < p.session.subscribe.numFilters)
    (denied : (authAcl b.answers.db p.principal .sub (filterOf p.session.subscribe i)).1 ≠ 0) :
    (∃ d, (onRecvSubscribe cfg c).run b = (.ok 1, d) ∧ Refused c b d) ∨
      Miscounted c b p ∧ ∃ d, (onRecvSubscribe cfg c).run b = (.error .assertion, d) := by
  have counted : p.session.subscribe.numFilters ≤ maxSubs := few.trans (by decide)
  have refuses : ((List.range p.session.subscribe.numFilters).all fun i =>
      allowed cfg b.answers.db p .sub (filterOf p.session.subscribe i)) = false := by
    rw [List.all_eq_false]
    refine ⟨i, List.mem_range.mpr inside, ?_⟩
    simp [allowed, identified, plain, denied]
  rw [onRecvSubscribe_refused present counted refuses]
  rcases cDisconnect_refused cfg present opened with ⟨d, ran, unbinds⟩ | ⟨miscounted, d, stopped⟩
  · exact .inl ⟨d, by rw [Cmd.bind_ok ran, Cmd.run_pure], unbinds.refused present agrees⟩
  · exact .inr ⟨miscounted, d, Cmd.bind_error stopped⟩

/-- Two clients have the filter everybody may have, and the second asks for it again, with
one behind it that nobody may have. -/
def refusing : Option State :=
  (((tableUses (oneWorker false) 0).restrict Tidy).run start
    [.accept false false [], .accept false false [],
      .subscribe 0 (filtering [lit "flameboss/+/send/time"]) silent,
      .subscribe 1 (filtering [lit "flameboss/+/send/time"]) silent]).bind fun run =>
    (run.state.clients 1).map fun p => run.state.putClient 1 { p with
      session.subscribe := filtering [lit "flameboss/+/send/time", lit "a"] }

private theorem linked_refusing (found : refusing = some b) : Linked 0 b := by
  obtain ⟨run, ran, handed⟩ := Option.bind_eq_some_iff.mp found
  obtain ⟨p, present, written⟩ := Option.map_eq_some_iff.mp handed
  rw [← written]
  exact (linked_reachable (System.Reachable.run (.start rfl) ran)).putClient present rfl rfl fun _ => rfl

/-- The search finds both clients before and the first one behind. -/
theorem refused_subscribe_spares_others_second :
    ∃ b d, refusing = some b ∧ (onRecvSubscribe (oneWorker false) 1).run b = (.ok 1, d) ∧
      searchFinds b 0 b.listBound (lit "flameboss/5/send/time") = some [(0, 0), (1, 0)] ∧
      searchFinds d 0 b.listBound (lit "flameboss/5/send/time") = some [(0, 0)] := by
  have seen : refusing.map (fun b =>
      (searchFinds b 0 b.listBound (lit "flameboss/5/send/time"), (b.clients 1).map fun p =>
        (p.state, p.isSuper, [p.worker, p.session.keepAlive, p.session.subscribe.numFilters,
          (authAcl b.answers.db p.principal .sub (filterOf p.session.subscribe 1)).1]))) =
      some (some [(0, 0), (1, 0)], some (.opened, false, [0, 0, 2, 1])) := by
    decide +kernel
  obtain ⟨b, found, seen⟩ := Option.map_eq_some_iff.mp seen
  obtain ⟨before, seen⟩ := Prod.mk.inj seen
  obtain ⟨p, present, fields⟩ := Option.map_eq_some_iff.mp seen
  simp only [Prod.mk.injEq, List.cons.injEq, and_true] at fields
  obtain ⟨opened, plain, here, keepAlive, count, denied⟩ := fields
  have linked := linked_refusing found
  obtain ⟨live, agrees⟩ := linked.agrees
  have enough : live.length ≤ b.listBound := agrees.length_le fun d q there => (linked.clients d q there).2
  have identified : (oneWorker false).allowAnonymous = false := rfl
  rcases refused_subscribe_spares_others (i := 1) identified present (by simp [opened]) plain
    (here ▸ agrees) (by simp [count, maxNumTopics]) (by omega) (by simp [denied]) with
    ⟨d, ran, refused⟩ | ⟨⟨monitored, _⟩, _⟩
  · obtain ⟨calls, old, new⟩ := refused.searches 0 live agrees _ enough (lit "flameboss/5/send/time")
    obtain rfl := Option.some.inj (old.symm.trans before)
    exact ⟨b, d, found, ran, before, new⟩
  · exact absurd keepAlive monitored

end FbBroker.Broker
