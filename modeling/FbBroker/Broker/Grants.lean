import FbBroker.Broker.Capacity
import FbBroker.Broker.Survival

/-!
Contract: the entries and the return codes a SUBSCRIBE is granted.

Owns when `on_recv_subscribe` leaves every requested filter with the QoS granted
last and the other entries as they were. For a filter the client has, the QoS is
written to the entry at the index of the filter in the packet, not to the entry of
the filter, so this is where both indices are the same.

Does not own the trie.
-/

set_option autoImplicit false

namespace FbBroker.Broker

open FbBroker.Lib FbBroker.Packet FbBroker.Parser FbBroker.Dllist FbBroker.TrieMult
open FbBroker.Routing FbBroker.Auth

variable {cfg : Config} {c : ClientId} {b : State} {p q : Client} {sub : SubscribeSt} {i j m n : Nat}

/-! ### The order of the filters -/

/-- The different filters of a table and a packet, in the order in which they come. -/
def listed (table asked : List (List Byte)) : List (List Byte) :=
  asked.foldl (fun table filter => if filter ∈ table then table else table ++ [filter]) table

theorem Client.filters_turns (p : Client) (sub : SubscribeSt) (m : Nat) :
    (p.turns sub m).filters = listed p.filters (requested sub m) := by
  induction m with
  | zero => rfl
  | succ m inductionHypothesis =>
      rw [Client.turns, Client.filters_subscribed, inductionHypothesis, requested_succ, listed, listed,
        List.foldl_append]
      rfl

theorem Client.filters_turns_succ (p : Client) (sub : SubscribeSt) (m : Nat) :
    (p.turns sub m).filters <+: (p.turns sub (m + 1)).filters := by
  rw [Client.turns, Client.filters_subscribed]
  split
  · exact List.prefix_rfl
  · exact List.prefix_append _ _

/-- Entries stay where they are. -/
theorem Client.filters_turns_prefix (p : Client) (sub : SubscribeSt) (before : m ≤ n) :
    (p.turns sub m).filters <+: (p.turns sub n).filters := by
  induction n, before using Nat.le_induction with
  | base => exact List.prefix_rfl
  | succ n _ inductionHypothesis => exact inductionHypothesis.trans (p.filters_turns_succ sub n)

theorem Client.nodup_filters_turns (distinct : p.filters.Nodup) (sub : SubscribeSt) (m : Nat) :
    (p.turns sub m).filters.Nodup := by
  induction m with
  | zero => exact distinct
  | succ m inductionHypothesis =>
      rw [Client.turns, Client.filters_subscribed]
      split
      · exact inductionHypothesis
      · rename_i new
        rw [← List.concat_eq_append]
        exact inductionHypothesis.concat new

theorem Client.filters_getElem? (p : Client) (j : Nat) (filter : List Byte) :
    p.filters[j]? = some filter ↔ j < p.numSubs ∧ cstr (p.subscriptions j).filter = filter := by
  rw [Client.filters, List.getElem?_map]
  by_cases inside : j < p.numSubs
  · simp [inside]
  · simp [inside]

/-- An entry is the only one with its filter. -/
theorem Client.entry_unique (distinct : p.filters.Nodup) (left : i < p.numSubs) (right : j < p.numSubs)
    (same : cstr (p.subscriptions i).filter = cstr (p.subscriptions j).filter) : i = j :=
  List.inj_on_of_nodup_map distinct (List.mem_range.mpr left) (List.mem_range.mpr right) same

theorem Client.entry_turns (p : Client) (sub : SubscribeSt) (before : m ≤ n)
    (inside : j < (p.turns sub m).numSubs) :
    j < (p.turns sub n).numSubs ∧
      cstr ((p.turns sub n).subscriptions j).filter = cstr ((p.turns sub m).subscriptions j).filter := by
  rw [← Client.filters_getElem?]
  obtain ⟨rest, longer⟩ := p.filters_turns_prefix sub before
  rw [← longer, List.getElem?_append_left (by rwa [Client.length_filters]), Client.filters_getElem?]
  exact ⟨inside, rfl⟩

/-! ### Where the turns write -/

/-- The index that a turn writes a QoS to. -/
def Client.target (p : Client) (sub : SubscribeSt) (i : Nat) : Nat :=
  if cstr (filterOf sub i) ∈ p.filters then i else p.numSubs

theorem Client.qos_target (p : Client) (sub : SubscribeSt) (i : Nat) :
    ((p.subscribed sub i).subscriptions (p.target sub i)).qos = min (sub.qos i) 1 := by
  unfold Client.subscribed Client.target
  split <;> simp

theorem Client.subscribed_of_ne (other : j ≠ p.target sub i) :
    (p.subscribed sub i).subscriptions j = p.subscriptions j := by
  unfold Client.target at other
  unfold Client.subscribed
  split at other
  · simp [*]
  · simp [*]

/-- Every filter that is known at its turn stands at the index that it has in the packet. -/
def Aligned (p : Client) (sub : SubscribeSt) : Prop :=
  ∀ i < sub.numFilters, cstr (filterOf sub i) ∈ p.filters ++ requested sub i →
    (listed p.filters (requested sub i))[i]? = some (cstr (filterOf sub i))

instance (p : Client) (sub : SubscribeSt) : Decidable (Aligned p sub) :=
  inferInstanceAs (Decidable (∀ i < _, _))

theorem Aligned.entry (aligned : Aligned p sub) (early : i < sub.numFilters)
    (known : cstr (filterOf sub i) ∈ (p.turns sub i).filters) :
    i < (p.turns sub i).numSubs ∧ cstr ((p.turns sub i).subscriptions i).filter = cstr (filterOf sub i) := by
  rw [← Client.filters_getElem?, Client.filters_turns]
  exact aligned i early (List.mem_append.mpr (Client.mem_filters_turns.mp known))

/-- A turn then writes to the entry of its filter. -/
theorem Aligned.target (aligned : Aligned p sub) (early : i < sub.numFilters) :
    (p.turns sub i).target sub i < (p.turns sub (i + 1)).numSubs ∧
      cstr ((p.turns sub (i + 1)).subscriptions ((p.turns sub i).target sub i)).filter =
        cstr (filterOf sub i) := by
  by_cases known : cstr (filterOf sub i) ∈ (p.turns sub i).filters
  · obtain ⟨inside, same⟩ := aligned.entry early known
    obtain ⟨inside', same'⟩ := p.entry_turns sub (Nat.le_succ i) inside
    rw [Client.target, if_pos known]
    exact ⟨inside', same'.trans same⟩
  · rw [Client.target, if_neg known, Client.turns, Client.subscribed, if_neg known]
    exact ⟨Nat.lt_succ_self _, by simp⟩

/-! ### What a SUBSCRIBE is to leave -/

/-- The table `q` holds what the first filters of a packet ask of the table `p`: each of them
once, with the QoS granted last, beside the other entries as they were. -/
structure Updated (sub : SubscribeSt) (m : Nat) (p q : Client) : Prop where
  once : ∀ filter ∈ requested sub m, q.filters.count filter = 1
  only : ∀ filter ∈ q.filters, filter ∈ p.filters ∨ filter ∈ requested sub m
  others : ∀ j < p.numSubs, cstr (p.subscriptions j).filter ∉ requested sub m →
    j < q.numSubs ∧ q.subscriptions j = p.subscriptions j
  qos : ∀ j < q.numSubs, ∀ i < m, cstr (q.subscriptions j).filter = cstr (filterOf sub i) →
    (∀ k, i < k → k < m → cstr (filterOf sub k) ≠ cstr (filterOf sub i)) →
      (q.subscriptions j).qos = min (sub.qos i) 1

/-- Entries that are not asked for are not written to. -/
theorem Aligned.others (aligned : Aligned p sub) (before : m ≤ sub.numFilters) (inside : j < p.numSubs)
    (unasked : cstr (p.subscriptions j).filter ∉ requested sub m) :
    (p.turns sub m).subscriptions j = p.subscriptions j := by
  induction m with
  | zero => rfl
  | succ m inductionHypothesis =>
      rw [requested_succ, List.mem_append, List.mem_singleton, not_or] at unasked
      have kept := inductionHypothesis (by omega) unasked.1
      rw [Client.turns, Client.subscribed_of_ne, kept]
      intro written
      unfold Client.target at written
      split at written
      · rename_i known
        obtain ⟨_, same⟩ := aligned.entry (by omega) known
        subst written
        rw [kept] at same
        exact unasked.2 same
      · have longer := p.numSubs_turns_le sub (Nat.zero_le m)
        rw [Client.turns] at longer
        omega

/-- An entry has the QoS that was granted last for its filter. -/
theorem Aligned.qos (aligned : Aligned p sub) (distinct : p.filters.Nodup) (before : m ≤ sub.numFilters)
    (inside : j < (p.turns sub m).numSubs) (early : i < m)
    (same : cstr ((p.turns sub m).subscriptions j).filter = cstr (filterOf sub i))
    (last : ∀ k, i < k → k < m → cstr (filterOf sub k) ≠ cstr (filterOf sub i)) :
    ((p.turns sub m).subscriptions j).qos = min (sub.qos i) 1 := by
  induction m with
  | zero => omega
  | succ m inductionHypothesis =>
      obtain ⟨room, there⟩ := aligned.target before
      by_cases now : i = m
      · subst i
        obtain rfl : j = (p.turns sub m).target sub m :=
          Client.entry_unique (Client.nodup_filters_turns distinct sub (m + 1)) inside room
            (same.trans there.symm)
        exact Client.qos_target _ sub m
      · -- the turn writes to the entry of another filter
        have other : j ≠ (p.turns sub m).target sub m := by
          rintro rfl
          exact last m (by omega) (Nat.lt_succ_self m) (there.symm.trans same)
        have old : j < (p.turns sub m).numSubs := by
          rw [Client.turns, Client.subscribed] at inside
          unfold Client.target at other
          split at inside
          · exact inside
          · rename_i new
            rw [if_neg new] at other
            dsimp only at inside
            omega
        rw [Client.turns, Client.subscribed_of_ne other] at same ⊢
        exact inductionHypothesis (by omega) old (by omega) same fun k after early => last k after (by omega)

/-- Where the indices are the same the loop leaves what is asked. -/
theorem Aligned.updated (aligned : Aligned p sub) (distinct : p.filters.Nodup) :
    Updated sub sub.numFilters p (p.turns sub sub.numFilters) where
  once _ asked :=
    List.count_eq_one_of_mem (Client.nodup_filters_turns distinct sub _)
      (Client.mem_filters_turns.mpr (.inr asked))
  only _ held := Client.mem_filters_turns.mp held
  others _ inside unasked :=
    ⟨inside.trans_le (p.numSubs_turns_le sub (Nat.zero_le _)),
      aligned.others (Nat.le_refl _) inside unasked⟩
  qos _ inside _ early same last := aligned.qos distinct (Nat.le_refl _) inside early same last

/-! ### Where the indices differ -/

private theorem exists_last_request (sub : SubscribeSt) (early : i < n) :
    ∃ last, i ≤ last ∧ last < n ∧ cstr (filterOf sub last) = cstr (filterOf sub i) ∧
      ∀ k, last < k → k < n → cstr (filterOf sub k) ≠ cstr (filterOf sub last) := by
  induction n, early using Nat.le_induction with
  | base => exact ⟨i, Nat.le_refl i, Nat.lt_succ_self i, rfl, fun k after before => by omega⟩
  | succ n before inductionHypothesis =>
      by_cases again : cstr (filterOf sub n) = cstr (filterOf sub i)
      · exact ⟨n, by omega, Nat.lt_succ_self n, again, fun k after early => by omega⟩
      · obtain ⟨last, low, high, same, behind⟩ := inductionHypothesis
        refine ⟨last, low, by omega, same, fun k after early => ?_⟩
        by_cases newest : k = n
        · rw [newest, same]
          exact again
        · exact behind k after (by omega)

/-- Only one request has a QoS, and the table had none. -/
structure Marked (p : Client) (sub : SubscribeSt) (i : Nat) : Prop where
  none : ∀ k, (p.subscriptions k).qos = 0
  others : ∀ k, k ≠ i → sub.qos k = 0
  one : sub.qos i = 1

/-- The mark is not written to the other entries. -/
theorem Marked.unwritten (marked : Marked p sub i) (elsewhere : (p.turns sub i).target sub i ≠ j) (m : Nat) :
    ((p.turns sub m).subscriptions j).qos = 0 := by
  induction m with
  | zero => exact marked.none j
  | succ m inductionHypothesis =>
      by_cases written : j = (p.turns sub m).target sub m
      · have different : m ≠ i := by
          rintro rfl
          exact elsewhere written.symm
        rw [written, Client.turns, Client.qos_target, marked.others m different]
        rfl
      · rw [Client.turns, Client.subscribed_of_ne written]
        exact inductionHypothesis

/-- The mark on an entry stays. -/
theorem Marked.written (marked : Marked p sub i) (known : cstr (filterOf sub i) ∈ (p.turns sub i).filters)
    (inside : i < (p.turns sub i).numSubs) (behind : i < m) : ((p.turns sub m).subscriptions i).qos = 1 := by
  induction m, behind using Nat.le_induction with
  | base =>
      have here := (p.turns sub i).qos_target sub i
      rw [Client.target, if_pos known, marked.one] at here
      exact here
  | succ m after inductionHypothesis =>
      have other : i ≠ (p.turns sub m).target sub m := by
        have longer := p.numSubs_turns_le sub (Nat.le_of_succ_le after)
        unfold Client.target
        split <;> omega
      rw [Client.turns, Client.subscribed_of_ne other]
      exact inductionHypothesis

/-- The entry at this index of the listing is an entry of the array behind the turns. -/
theorem Client.entry_of_listed (before : i ≤ n) {filter : List Byte}
    (entry : (listed p.filters (requested sub i))[j]? = some filter) :
    j < (p.turns sub i).numSubs ∧ j < (p.turns sub n).numSubs ∧
      cstr ((p.turns sub n).subscriptions j).filter = filter := by
  rw [← Client.filters_turns, Client.filters_getElem?] at entry
  obtain ⟨inside, same⟩ := entry
  obtain ⟨inside', kept⟩ := p.entry_turns sub before inside
  exact ⟨inside, inside', kept.trans same⟩

/-- A last request marked, the mark is on its entry only if both indices are the same. -/
theorem Updated.index_of_last (updated : Updated sub n p (p.turns sub n)) (marked : Marked p sub i)
    (early : i < n) (last : ∀ k, i < k → k < n → cstr (filterOf sub k) ≠ cstr (filterOf sub i))
    (entry : (listed p.filters (requested sub i))[j]? = some (cstr (filterOf sub i))) : j = i := by
  obtain ⟨_, inside, same⟩ := Client.entry_of_listed (Nat.le_of_lt early) entry
  have known : cstr (filterOf sub i) ∈ (p.turns sub i).filters := by
    rw [Client.filters_turns]
    exact List.mem_of_getElem? entry
  have granted := updated.qos j inside i early same last
  by_contra different
  have elsewhere : (p.turns sub i).target sub i ≠ j := by
    rw [Client.target, if_pos known]
    exact fun same => different same.symm
  rw [marked.unwritten elsewhere n, marked.one] at granted
  exact absurd granted (by decide)

/-- A request for an entry behind its own index leaves its mark on another entry. -/
theorem Updated.index_not_behind (updated : Updated sub n p (p.turns sub n)) (distinct : p.filters.Nodup)
    (marked : Marked p sub i) (early : i < n)
    (entry : (listed p.filters (requested sub i))[j]? = some (cstr (filterOf sub i))) : j ≤ i := by
  obtain ⟨inside, inside', same⟩ := Client.entry_of_listed (Nat.le_of_lt early) entry
  have known : cstr (filterOf sub i) ∈ (p.turns sub i).filters := by
    rw [Client.filters_turns]
    exact List.mem_of_getElem? entry
  have unique := Client.nodup_filters_turns distinct sub n
  by_contra behind
  have held : i < (p.turns sub n).numSubs := by omega
  have other : cstr ((p.turns sub n).subscriptions i).filter ≠ cstr (filterOf sub i) := by
    intro clash
    have := Client.entry_unique unique held inside' (clash.trans same.symm)
    omega
  have mark := marked.written known (by omega) early
  by_cases asked : cstr ((p.turns sub n).subscriptions i).filter ∈ requested sub n
  · obtain ⟨k, before, asks⟩ := List.mem_map.mp asked
    obtain ⟨last, _, high, again, behind'⟩ := exists_last_request sub (List.mem_range.mp before)
    have granted := updated.qos i held last high (asks.symm.trans again.symm) behind'
    have different : last ≠ i := by
      rintro rfl
      exact other (asks.symm.trans again.symm)
    rw [mark, marked.others last different] at granted
    exact absurd granted (by decide)
  · have old : cstr ((p.turns sub n).subscriptions i).filter ∈ p.filters :=
      (updated.only _ (Client.mem_filters.mpr ⟨i, held, rfl⟩)).resolve_right asked
    obtain ⟨k, few, stored⟩ := Client.mem_filters.mp old
    obtain ⟨few', kept⟩ := p.entry_turns sub (Nat.zero_le n) few
    obtain rfl : k = i := Client.entry_unique unique few' held (kept.trans stored)
    obtain ⟨_, stays⟩ := updated.others k few (by rwa [stored])
    rw [stays, marked.none] at mark
    exact absurd mark (by decide)

/-- The same filters with other QoS in the table and in the packet. -/
def Client.withQos (p : Client) (old new : Nat → Nat) : Client :=
  { p with
    session.subscribe.qos := new
    subscriptions := fun j => { p.subscriptions j with qos := old j } }

/-- A table that is right for all QoS had the same indices. -/
theorem aligned_of_updated (distinct : p.filters.Nodup)
    (updated : ∀ old new, Updated (p.withQos old new).session.subscribe p.session.subscribe.numFilters
      (p.withQos old new)
      ((p.withQos old new).turns (p.withQos old new).session.subscribe p.session.subscribe.numFilters)) :
    Aligned p p.session.subscribe := by
  intro i early known
  have listedKnown : cstr (filterOf p.session.subscribe i) ∈
      listed p.filters (requested p.session.subscribe i) := by
    rw [← Client.filters_turns]
    exact Client.mem_filters_turns.mpr (List.mem_append.mp known)
  obtain ⟨j, entry⟩ := List.mem_iff_getElem?.mp listedKnown
  have marks : ∀ t, Marked (p.withQos (fun _ => 0) fun k => if k = t then 1 else 0)
      (p.withQos (fun _ => 0) fun k => if k = t then 1 else 0).session.subscribe t := by
    intro t
    exact ⟨fun k => rfl, fun k different => if_neg different, if_pos rfl⟩
  obtain ⟨last, low, high, again, behind⟩ := exists_last_request p.session.subscribe early
  have later : (listed p.filters (requested p.session.subscribe last))[j]? =
      some (cstr (filterOf p.session.subscribe last)) := by
    obtain ⟨inside, _⟩ := Client.entry_of_listed (Nat.le_refl i) entry
    rw [← Client.filters_turns] at entry ⊢
    obtain ⟨rest, longer⟩ := p.filters_turns_prefix p.session.subscribe low
    rw [← longer, List.getElem?_append_left (by rwa [Client.length_filters]), entry, again]
  have atLast : j = last := (updated (fun _ => 0) fun k => if k = last then 1 else 0).index_of_last
    (marks last) high behind later
  have notBehind : j ≤ i := (updated (fun _ => 0) fun k => if k = i then 1 else 0).index_not_behind
    distinct (marks i) early entry
  obtain rfl : j = i := by omega
  exact entry

/-! ### The callback -/

/-- The SUBACK of a packet: a return code for each filter, in order. -/
def suback (sub : SubscribeSt) : List Byte :=
  [0x90, UInt8.ofNat (2 + sub.numFilters)] ++ encodeShort sub.packetId ++
    (List.range sub.numFilters).map fun i => UInt8.ofNat (min (sub.qos i) 1)

theorem encodeSuback_eq (few : sub.numFilters ≤ maxNumTopics) :
    encodeSuback sendBufLen sub.packetId ((List.range sub.numFilters).map fun i => min (sub.qos i) 1) =
      suback sub := by
  rw [maxNumTopics] at few
  have short : ¬ sendBufLen < 2 + sub.numFilters := by
    rw [sendBufLen]
    omega
  have length : encodeRemLen (2 + sub.numFilters) = [UInt8.ofNat (2 + sub.numFilters)] := by
    rw [encodeRemLen_eq, if_pos (by omega)]
  rw [encodeSuback, List.length_map, List.length_range, if_neg short, length, List.map_map]
  rfl

/-- What a SUBSCRIBE comes to: the turns, and the SUBACK. -/
theorem onRecvSubscribe_turns (present : b.clients c = some p) (consistent : Consistent p.worker b)
    (few : p.session.subscribe.numFilters ≤ maxNumTopics)
    (grants : ∀ i < p.session.subscribe.numFilters,
      allowed cfg b.answers.db p .sub (filterOf p.session.subscribe i) = true)
    (room : HasRoom p p.session.subscribe) :
    ∃ d, (onRecvSubscribe cfg c).run b = (reply cfg c (suback p.session.subscribe)).run d ∧
      d.clients c = some (p.turns p.session.subscribe p.session.subscribe.numFilters) ∧
      d.answers = b.answers ∧ packetsTo c d.log = packetsTo c b.log := by
  obtain ⟨nodes, subs, events, only, ran⟩ := subscribe_done consistent present room
  have quiet : packetsTo c events = [] := by
    refine List.filterMap_eq_nil_iff.mpr fun event member => ?_
    rw [only event member]
  refine ⟨b.turned c (p.turns p.session.subscribe p.session.subscribe.numFilters) nodes subs events, ?_,
    by simp [State.turned], rfl, ?_⟩
  · rw [onRecvSubscribe_allowed present (few.trans (by decide)) (by simpa using grants), Cmd.bind_ok ran,
      encodeSuback_eq few]
    rfl
  · show packetsTo c (b.log ++ events) = _
    rw [packetsTo_append, quiet, List.append_nil]

/-- Behind an answer that returns the client is gone, or it is as before and has been sent the
packet. -/
theorem reply_returns {buf : List Byte} {d e : State} {rv : Nat}
    (returns : (reply cfg c buf).run d = (.ok rv, e)) {q : Client} (there : e.clients c = some q) :
    d.clients c = some q ∧ packetsTo c e.log = packetsTo c d.log ++ [buf] := by
  obtain ⟨sent, middle, sends, rest⟩ := Cmd.ok_of_bind returns
  have spoken : Cmd.Leads (fun _ _ => True) (fun _ => Spoken c (d.emit (.packet c buf)))
      ((cSendData cfg c buf).run d) := cSendData_spoken d buf
  rw [sends] at spoken
  have after : e.clients c = middle.clients c ∧ e.log = middle.log := by
    cases sent with
    | zero =>
        obtain ⟨_, last, updated, ends⟩ := Cmd.ok_of_bind rest
        obtain rfl : last = e := (Prod.mk.inj ends).2
        cases present : middle.clients c with
        | none =>
            rw [kaUpdate, Cmd.bind_error (client_freed present)] at updated
            simp at updated
        | some q =>
            rw [kaUpdate_run present] at updated
            obtain rfl := (Prod.mk.inj updated).2
            exact ⟨present, rfl⟩
    | succ sent =>
        obtain rfl : middle = e := (Prod.mk.inj rest).2
        exact ⟨rfl, rfl⟩
  obtain ⟨clients, log⟩ := after
  rw [log]
  rw [clients] at there
  rcases spoken with gone | wired
  · exact absurd (gone.symm.trans there) (by simp)
  · rw [wired.same] at there
    refine ⟨there, ?_⟩
    rw [wired.packets, State.emit, packetsTo_append]
    simp [packetsTo]

/-- With all writes taken an answer returns 0 and the client stays. -/
theorem reply_good (cfg : Config) {d : State} {q : Client} (there : d.clients c = some q)
    (opened : q.state ≠ .closing) (good : d.answers.Good) {buf : List Byte} (some : buf ≠ [])
    (short : buf.length < 2 ^ 16) :
    ∃ e, (reply cfg c buf).run d = (.ok 0, e) ∧ e.clients c = .some q := by
  obtain ⟨e, events, sent, heard, _⟩ := cSendData_carried cfg there opened good some short
  have found : e.clients c = .some q := (congrFun heard.clients c).trans there
  refine ⟨{ e with
    ka := KeepAlive.kaUpdate e.ka q.worker c q.session.keepAlive (e.ka.timer c).recvAt }, ?_, found⟩
  rw [reply, Cmd.bind_ok sent]
  show (kaUpdate c >>= fun _ => pure 0).run e = _
  rw [Cmd.bind_ok (kaUpdate_run found)]
  rfl

theorem length_suback (few : sub.numFilters ≤ maxNumTopics) : (suback sub).length < 2 ^ 16 := by
  rw [maxNumTopics] at few
  simp only [suback, encodeShort, List.length_append, List.length_cons, List.length_nil, List.length_map,
    List.length_range]
  omega

/-- A SUBSCRIBE is granted: if the client is still there behind it, the table holds what was
asked and the SUBACK was sent; with all writes taken it is there. -/
structure Grants (cfg : Config) (c : ClientId) (b : State) (p : Client) : Prop where
  returns : b.answers.Good → ∃ d q, (onRecvSubscribe cfg c).run b = (.ok 0, d) ∧ d.clients c = some q
  table : ∀ rv d q, (onRecvSubscribe cfg c).run b = (.ok rv, d) → d.clients c = some q →
    Updated p.session.subscribe p.session.subscribe.numFilters p q
  answer : ∀ rv d q, (onRecvSubscribe cfg c).run b = (.ok rv, d) → d.clients c = some q →
    packetsTo c d.log = packetsTo c b.log ++ [suback p.session.subscribe]

section Call

variable (present : b.clients c = some p) (consistent : Consistent p.worker b)
  (few : p.session.subscribe.numFilters ≤ maxNumTopics)
  (grants : ∀ i < p.session.subscribe.numFilters,
    allowed cfg b.answers.db p .sub (filterOf p.session.subscribe i) = true)
  (room : HasRoom p p.session.subscribe)

include present consistent few grants room

private theorem grants_of_updated (opened : p.state ≠ .closing)
    (updated : Updated p.session.subscribe p.session.subscribe.numFilters p
      (p.turns p.session.subscribe p.session.subscribe.numFilters)) :
    Grants cfg c b p := by
  obtain ⟨d, ran, found, answers, packets⟩ := onRecvSubscribe_turns present consistent few grants room
  refine ⟨fun good => ?_, fun rv e q returns there => ?_, fun rv e q returns there => ?_⟩
  · obtain ⟨e, answered, there⟩ := reply_good cfg found (by rwa [Client.turns_eq]) (answers ▸ good)
      (List.cons_ne_nil _ _) (length_suback few)
    exact ⟨e, _, ran.trans answered, there⟩
  · rw [ran] at returns
    obtain ⟨kept, _⟩ := reply_returns returns there
    obtain rfl := Option.some.inj (found.symm.trans kept)
    exact updated
  · rw [ran] at returns
    obtain ⟨_, answer⟩ := reply_returns returns there
    rw [answer, packets]

theorem Grants.updated (granted : Grants cfg c b p) (good : b.answers.Good) :
    Updated p.session.subscribe p.session.subscribe.numFilters p
      (p.turns p.session.subscribe p.session.subscribe.numFilters) := by
  obtain ⟨d, ran, found, answers, packets⟩ := onRecvSubscribe_turns present consistent few grants room
  obtain ⟨e, q, returns, there⟩ := granted.returns good
  have right := granted.table 0 e q returns there
  rw [ran] at returns
  obtain ⟨kept, _⟩ := reply_returns returns there
  obtain rfl := Option.some.inj (found.symm.trans kept)
  exact right

end Call

/-- A SUBSCRIBE whose filters are allowed and fit is granted, if every filter that is known at
its turn stands in the table at its index in the packet; and with all writes taken, this is
the only way in which it is granted whatever the QoS in the table and in the packet are. -/
theorem subscribe_grants_iff (present : b.clients c = some p) (opened : p.state ≠ .closing)
    (consistent : Consistent p.worker b) (few : p.session.subscribe.numFilters ≤ maxNumTopics)
    (grants : ∀ i < p.session.subscribe.numFilters,
      allowed cfg b.answers.db p .sub (filterOf p.session.subscribe i) = true)
    (distinct : p.filters.Nodup) (room : HasRoom p p.session.subscribe) :
    (Aligned p p.session.subscribe → Grants cfg c b p) ∧
      (b.answers.Good → (∀ old new, Grants cfg c (b.putClient c (p.withQos old new)) (p.withQos old new)) →
        Aligned p p.session.subscribe) := by
  refine ⟨fun aligned => ?_, fun good granted => ?_⟩
  · exact grants_of_updated present consistent few grants room opened (aligned.updated distinct)
  · refine aligned_of_updated distinct fun old new => ?_
    have written : (b.putClient c (p.withQos old new)).clients c = some (p.withQos old new) := by
      simp [State.putClient]
    exact (granted old new).updated written (consistent.putClient present rfl rfl fun _ => rfl) few grants room
      good

/-- A client that has subscribed to `a` and `b` sends a SUBSCRIBE. -/
def subscribing (sub : SubscribeSt) : Option (State × Client) :=
  (((tableUses (oneWorker true) 0).restrict Tidy).run start
    [.accept false false [], .subscribe 0 (filtering [lit "a", lit "b"]) silent]).bind fun run =>
    (run.state.clients 0).map fun p =>
      (run.state.handing 0 p sub silent, { p with session.subscribe := sub })

private theorem subscribing_consistent (asks : subscribing sub = some (b, p)) :
    b.clients 0 = some p ∧ Consistent p.worker b ∧ p.session.subscribe = sub := by
  obtain ⟨run, ran, handed⟩ := Option.bind_eq_some_iff.mp asks
  obtain ⟨q, present, written⟩ := Option.map_eq_some_iff.mp handed
  obtain ⟨rfl, rfl⟩ := Prod.mk.inj written
  have linked := linked_reachable (System.Reachable.run (.start rfl) ran)
  obtain ⟨here, -⟩ := linked.clients 0 q present
  refine ⟨handing_present _ _ _ _ _, ?_, rfl⟩
  show Consistent q.worker _
  rw [here]
  exact (linked.handing present sub silent).consistent

/-- The filters and the QoS in the table of the client behind a SUBSCRIBE that returns 0. -/
def grantedTable (b : State) : Option (List (List Byte) × List Nat) :=
  match (onRecvSubscribe (oneWorker true) 0).run b with
  | (.ok 0, d) => (d.clients 0).map fun q =>
      (q.filters, (List.range q.numSubs).map fun j => (q.subscriptions j).qos)
  | _ => none

/-- `a` is asked for again, with a new filter behind it. -/
theorem subscribe_grants_iff_first :
    ∃ b p, subscribing { filtering [lit "a", lit "c"] with qos := fun _ => 1 } = some (b, p) ∧
      Grants (oneWorker true) 0 b p := by
  have seen : (subscribing { filtering [lit "a", lit "c"] with qos := fun _ => 1 }).map (fun asked =>
      (asked.2.state, asked.2.session.subscribe.numFilters, decide asked.2.filters.Nodup,
        decide (HasRoom asked.2 asked.2.session.subscribe),
        decide (Aligned asked.2 asked.2.session.subscribe))) =
      some (.opened, 2, true, true, true) := by
    decide +kernel
  obtain ⟨⟨b, p⟩, asks, fields⟩ := Option.map_eq_some_iff.mp seen
  simp only [Prod.mk.injEq, decide_eq_true_eq] at fields
  obtain ⟨opened, count, distinct, room, aligned⟩ := fields
  obtain ⟨present, consistent, -⟩ := subscribing_consistent asks
  refine ⟨b, p, asks, ?_⟩
  exact (subscribe_grants_iff present (by simp [opened]) consistent (by simp [count, maxNumTopics])
    (fun _ _ => rfl) distinct room).1 aligned

/-- `b` is asked for with QoS 1: `a` gets it. -/
theorem subscribe_not_granted :
    ∃ b p, subscribing { filtering [lit "b"] with qos := fun _ => 1 } = some (b, p) ∧ b.clients 0 = some p ∧
      Consistent p.worker b ∧ p.filters.Nodup ∧ HasRoom p p.session.subscribe ∧
      grantedTable b = some ([lit "a", lit "b"], [1, 0]) ∧ ¬ Grants (oneWorker true) 0 b p := by
  have seen : (subscribing { filtering [lit "b"] with qos := fun _ => 1 }).map (fun asked =>
      (decide asked.2.filters.Nodup, decide (HasRoom asked.2 asked.2.session.subscribe),
        decide (grantedTable asked.1 = some ([lit "a", lit "b"], [1, 0])))) = some (true, true, true) := by
    decide +kernel
  obtain ⟨⟨b, p⟩, asks, fields⟩ := Option.map_eq_some_iff.mp seen
  simp only [Prod.mk.injEq, decide_eq_true_eq] at fields
  obtain ⟨distinct, room, table⟩ := fields
  obtain ⟨present, consistent, packet⟩ := subscribing_consistent asks
  refine ⟨b, p, asks, present, consistent, distinct, room, table, fun granted => ?_⟩
  -- the entry of the requested filter has kept its QoS
  unfold grantedTable at table
  split at table
  · rename_i d returns
    obtain ⟨q, there, entries⟩ := Option.map_eq_some_iff.mp table
    obtain ⟨filters, qos⟩ := Prod.mk.inj entries
    have two : q.numSubs = 2 := by
      rw [← q.length_filters, filters]
      rfl
    obtain ⟨inside, second⟩ := (q.filters_getElem? 1 (lit "b")).mp (by rw [filters]; rfl)
    rw [two] at qos
    have unset : (q.subscriptions 0).qos = 1 ∧ (q.subscriptions 1).qos = 0 := by
      simpa [List.range_succ] using qos
    have set := (granted.table 0 d q returns there).qos 1 inside 0 (by rw [packet]; decide)
      (second.trans (by rw [packet]; decide +kernel)) fun k after early => by
        rw [packet] at early
        exact absurd early (by simp [filtering]; omega)
    rw [unset.2, packet] at set
    exact absurd set (by decide)
  · simp at table

end FbBroker.Broker
