import Mathlib.Data.List.ProdSigma
import Mathlib.Data.List.Perm.Subperm
import FbBroker.Broker.Steps

/-!
Contract: the subscription arrays of the clients and the trie of their worker.

Owns the agreement between the two over all histories of `on_recv_subscribe`,
`on_recv_unsubscribe` and the removal of clients. An UNSUBSCRIBE that takes out
an entry in front of others moves these without linking them anew, so histories
are held to take out last entries only.

Does not own the searches of the trie.
-/

set_option autoImplicit false

namespace FbBroker.Broker

open FbBroker.Lib FbBroker.Packet FbBroker.Parser FbBroker.Dllist FbBroker.TrieMult
open FbBroker.Routing FbBroker.Auth

variable {cfg : Config} {closes : Bool} {c : ClientId} {b : State} {p : Client} {w : Nat}
  {filter : List Byte}

/-! ### Agreement -/

/-- The worker's trie holds exactly the subscriptions in the arrays of its clients: each
under its filter, once, with a node that points to the entry. -/
structure Agrees (b : State) (w : Nat) (live : List (SubRef × List Byte)) : Prop where
  holds : Holds b.nodes (b.subs w) live
  entries : ∀ ref filter, (ref, filter) ∈ live ↔ ∃ p, b.clients ref.1 = some p ∧ p.worker = w ∧
    ref.2 < p.numSubs ∧ filter = cstr (p.subscriptions ref.2).filter

/-- The clients of one worker, with a table that agrees. -/
structure Linked (w : Nat) (b : State) : Prop where
  agrees : ∃ live, Agrees b w live
  clients : ∀ c p, b.clients c = some p → p.worker = w ∧ c < b.nextClient ∧ p.numSubs ≤ maxSubs

/-- The entries of a client are live. -/
theorem Agrees.mem {live : List (SubRef × List Byte)} (agrees : Agrees b w live)
    (present : b.clients c = some p) (here : p.worker = w) {i : Nat} (inside : i < p.numSubs) :
    ((c, i), cstr (p.subscriptions i).filter) ∈ live :=
  (agrees.entries _ _).mpr ⟨p, present, here, inside, rfl⟩

/-- There are never more entries than a search or an insertion looks at. -/
theorem Agrees.length_le {live : List (SubRef × List Byte)} (agrees : Agrees b w live)
    (bounded : ∀ c p, b.clients c = some p → c < b.nextClient ∧ p.numSubs ≤ maxSubs) :
    live.length ≤ b.listBound := by
  have inside : live.map Prod.fst ⊆ (List.range b.nextClient) ×ˢ (List.range maxSubs) := by
    intro ref member
    obtain ⟨filter, present⟩ := mem_map_fst.mp member
    obtain ⟨p, found, _, index, _⟩ := (agrees.entries ref filter).mp present
    obtain ⟨known, few⟩ := bounded ref.1 p found
    exact List.mem_product.mpr ⟨List.mem_range.mpr known, List.mem_range.mpr (index.trans_le few)⟩
  have shorter := (List.subperm_of_subset agrees.holds.distinct inside).length_le
  rw [List.length_map, List.length_product, List.length_range, List.length_range] at shorter
  exact shorter.trans_eq (Nat.mul_comm _ _)

/-- Agreement does not depend on the rest of the state. -/
theorem Linked.congr {b' : State} (linked : Linked w b) (clients : b'.clients = b.clients)
    (nodes : b'.nodes = b.nodes) (subs : b'.subs = b.subs) (nextClient : b'.nextClient = b.nextClient) :
    Linked w b' := by
  obtain ⟨⟨live, holds, entries⟩, own⟩ := linked
  refine ⟨⟨live, ?_, ?_⟩, ?_⟩
  · rw [nodes, subs]
    exact holds
  · rw [clients]
    exact entries
  · rw [clients, nextClient]
    exact own

/-- What a write to a client's record may change: anything but its subscriptions. -/
theorem Agrees.putClient {live : List (SubRef × List Byte)} (agrees : Agrees b w live)
    (present : b.clients c = some p) {p' : Client} (worker : p'.worker = p.worker)
    (numSubs : p'.numSubs = p.numSubs)
    (filters : ∀ i, (p'.subscriptions i).filter = (p.subscriptions i).filter) :
    Agrees (b.putClient c p') w live := by
  refine ⟨agrees.holds, fun ref filter => (agrees.entries ref filter).trans ?_⟩
  by_cases same : ref.1 = c
  · simp [State.putClient, same, present, worker, numSubs, filters]
  · simp [State.putClient, same]

theorem Linked.putClient (linked : Linked w b) (present : b.clients c = some p) {p' : Client}
    (worker : p'.worker = p.worker) (numSubs : p'.numSubs = p.numSubs)
    (filters : ∀ i, (p'.subscriptions i).filter = (p.subscriptions i).filter) :
    Linked w (b.putClient c p') := by
  obtain ⟨⟨live, agrees⟩, own⟩ := linked
  refine ⟨⟨live, agrees.putClient present worker numSubs filters⟩, fun d q found => ?_⟩
  by_cases same : d = c
  · subst d
    obtain rfl : p' = q := by simpa [State.putClient] using found
    rw [worker, numSubs]
    exact own c p present
  · exact own d q (by simpa [State.putClient, same] using found)

/-! ### Removal of a client -/

/-- Taking entries of a client out of the trie, one by one. -/
theorem holds_foldl_removeSub {live : List (SubRef × List Byte)} (c : ClientId) {indices : List Nat}
    (distinct : indices.Nodup) (holds : Holds b.nodes (b.subs p.worker) live)
    (present : ∀ i ∈ indices, ((c, i), cstr (p.subscriptions i).filter) ∈ live) :
    Holds (indices.foldl (State.removeSub c p) b).nodes
        ((indices.foldl (State.removeSub c p) b).subs p.worker)
        (live.filter fun entry => !(entry.1.1 == c && indices.contains entry.1.2)) ∧
      ∀ ref, ref ∉ live.map Prod.fst → (indices.foldl (State.removeSub c p) b).nodes ref = b.nodes ref := by
  induction indices generalizing b live with
  | nil => exact ⟨by simpa using holds, fun _ _ => rfl⟩
  | cons i indices inductionHypothesis =>
      obtain ⟨fresh, others⟩ := List.nodup_cons.mp distinct
      have here := present i (by simp)
      have removed : Holds (b.removeSub c p i).nodes ((b.removeSub c p i).subs p.worker)
          (live.filter fun entry => decide (entry.1 ≠ (c, i))) := by
        have taken := holds.remove here
        rw [subRemove_cstr] at taken
        convert taken using 1
        · simp [State.removeSub]
        · simp [State.removeSub]
        · exact List.filter_congr fun entry _ => by rw [Bool.eq_iff_iff]; simp
      have framed : ∀ ref, ref ∉ live.map Prod.fst → (b.removeSub c p i).nodes ref = b.nodes ref := by
        intro ref outside
        have frame := holds.remove_frame here outside
        rw [subRemove_cstr] at frame
        exact frame
      obtain ⟨rest, frame⟩ := inductionHypothesis others removed fun k member => by
        refine List.mem_filter.mpr ⟨present k (by simp [member]), ?_⟩
        have different : k ≠ i := by
          intro same
          exact fresh (same ▸ member)
        simpa using different
      refine ⟨?_, fun ref outside => ?_⟩
      · rw [List.filter_filter] at rest
        refine (congrArg (Holds _ _) (List.filter_congr fun entry _ => ?_)).mp rest
        obtain ⟨⟨d, k⟩, filter⟩ := entry
        by_cases sameClient : d = c <;> by_cases sameIndex : k = i <;>
          simp [sameClient, sameIndex]
      · have behind : ref ∉ (live.filter fun entry => decide (entry.1 ≠ (c, i))).map Prod.fst :=
          fun inside => outside ((List.filter_sublist.map Prod.fst).subset inside)
        exact (frame ref behind).trans (framed ref outside)

/-- The tries of the other workers stay. -/
theorem foldl_removeSub_subs (c : ClientId) (indices : List Nat) (other : w ≠ p.worker) :
    (indices.foldl (State.removeSub c p) b).subs w = b.subs w := by
  induction indices generalizing b with
  | nil => rfl
  | cons i indices inductionHypothesis =>
      rw [List.foldl_cons, inductionHypothesis]
      simp [State.removeSub, other]

/-- When a client goes, the tables of all workers agree without its entries. -/
theorem Agrees.close {live own : List (SubRef × List Byte)} (agrees : Agrees b w live)
    (mine : Agrees b p.worker own) (present : b.clients c = some p) {d : State}
    (clients : d.clients = Function.update b.clients c none)
    (nodes : d.nodes = ((List.range p.numSubs).foldl (State.removeSub c p) b).nodes)
    (subs : d.subs = ((List.range p.numSubs).foldl (State.removeSub c p) b).subs) :
    Agrees d w (live.filter fun entry => decide (entry.1.1 ≠ c)) := by
  have owner : ∀ entry ∈ live, ∃ q, b.clients entry.1.1 = some q ∧ q.worker = w ∧ entry.1.2 < q.numSubs := by
    intro entry member
    obtain ⟨q, found, here, inside, _⟩ := (agrees.entries entry.1 entry.2).mp member
    exact ⟨q, found, here, inside⟩
  refine ⟨?_, fun ref filter => ?_⟩
  · rw [nodes, subs]
    by_cases here : w = p.worker
    · subst w
      obtain ⟨removed, -⟩ := holds_foldl_removeSub c List.nodup_range agrees.holds
        fun i inside => agrees.mem present rfl (List.mem_range.mp inside)
      refine (congrArg (Holds _ _) (List.filter_congr fun entry member => ?_)).mp removed
      obtain ⟨q, found, _, inside⟩ := owner entry member
      by_cases same : entry.1.1 = c
      · rw [same, present] at found
        obtain rfl := Option.some.inj found
        simp [same, inside]
      · simp [same]
    · -- the client has no entry in this trie
      have elsewhere : ∀ entry ∈ live, entry.1.1 ≠ c := by
        intro entry member same
        obtain ⟨q, found, worker, _⟩ := owner entry member
        rw [same, present] at found
        obtain rfl := Option.some.inj found
        exact here worker.symm
      obtain ⟨-, frame⟩ := holds_foldl_removeSub c List.nodup_range mine.holds
        fun i inside => mine.mem present rfl (List.mem_range.mp inside)
      rw [foldl_removeSub_subs c _ here,
        List.filter_eq_self.mpr fun entry member => decide_eq_true (elsewhere entry member)]
      refine agrees.holds.congr fun entry member => frame entry.1 fun both => ?_
      obtain ⟨filter, shared⟩ := mem_map_fst.mp both
      obtain ⟨q, found, worker, _⟩ := (mine.entries _ _).mp shared
      obtain ⟨q', found', worker', _⟩ := owner entry member
      obtain rfl := Option.some.inj (found.symm.trans found')
      exact here (worker'.symm.trans worker)
  · rw [List.mem_filter, agrees.entries, clients]
    by_cases same : ref.1 = c
    · simp [same]
    · simp [same]

theorem Linked.close (linked : Linked w b) (present : b.clients c = some p) {nodes : Heap SubRef}
    {subs : Nat → Trie SubRef}
    (unlinked : (List.range p.numSubs).foldl (State.removeSub c p) b = { b with nodes, subs })
    (log : List Event) :
    Linked w { b with nodes, subs, clients := Function.update b.clients c none, log } := by
  obtain ⟨⟨live, agrees⟩, own⟩ := linked
  obtain ⟨rfl, _, _⟩ := own c p present
  refine ⟨⟨_, agrees.close agrees present rfl ?_ ?_⟩, fun d q found => ?_⟩
  · rw [unlinked]
  · rw [unlinked]
  · by_cases same : d = c
    · simp [same] at found
    · exact own d q (by simpa [same] using found)

/-- Answering and closing a client keep the table in agreement. -/
theorem Linked.talk {b' : State} (change : Change cfg closes .talk c b b') (linked : Linked w b) :
    Linked w b' := by
  cases change with
  | client present updates edits => exact absurd rfl edits
  | table nodes subs edits => exact absurd rfl edits
  | close may present nodes subs unlinked => exact linked.close present unlinked _
  | _ => exact linked.congr rfl rfl rfl rfl

/-! ### Histories -/

/-- The contract of code that keeps the table in agreement. -/
def linking (w : Nat) : Contract Fault State where
  rel b b' := Linked w b → Linked w b'
  pre := Linked w
  fault _ _ := True
  refl _ linked := linked
  trans first second linked := second (first linked)
  keeps linked moves := moves linked

private theorem linking_fault {Value : Type} (result : Except Fault Value × State) :
    (linking w).Ends (fun _ => True) result := by
  cases result with
  | mk outcome b => cases outcome <;> trivial

/-- Code that only answers or closes a client keeps the table in agreement. -/
theorem linking_talk {Value : Type} {command : Code Value} {post : Value → Prop}
    (holds : (contract cfg closes .talk c).Holds post command b) :
    (linking w).Holds (fun _ => True) command b :=
  ⟨fun linked => Evolves.invariant (fun change => Linked.talk change) holds.1 linked,
    linking_fault _⟩

/-- The state behind a new entry. -/
def State.inserted (b : State) (c : ClientId) (p : Client) (filter : List Byte) (qos : Nat)
    (nodes : Heap SubRef) (head : Trie SubRef) : State :=
  { b with
    nodes
    subs := Function.update b.subs p.worker head
    log := b.log ++ [.subscribed c]
    clients := Function.update b.clients c (some { p with
      subscriptions := Function.update p.subscriptions p.numSubs ⟨filter, qos⟩
      numSubs := p.numSubs + 1 }) }

/-- A new entry behind the others of its client is linked. -/
theorem Agrees.insert {live : List (SubRef × List Byte)} (agrees : Agrees b p.worker live)
    (present : b.clients c = some p) {bound : Nat} (enough : live.length ≤ bound) (filter : List Byte)
    (qos : Nat) :
    ∃ nodes head, subInsert bound b.nodes (b.subs p.worker) filter (c, p.numSubs) = some (nodes, head) ∧
      Agrees (b.inserted c p filter qos nodes head) p.worker (live ++ [((c, p.numSubs), cstr filter)]) := by
  have fresh : (c, p.numSubs) ∉ live.map Prod.fst := by
    intro member
    obtain ⟨other, entry⟩ := mem_map_fst.mp member
    obtain ⟨q, found, _, inside, _⟩ := (agrees.entries _ _).mp entry
    obtain rfl : p = q := Option.some.inj (present.symm.trans found)
    exact absurd inside (Nat.lt_irrefl _)
  obtain ⟨nodes, head, inserted, holds⟩ := agrees.holds.insert fresh (zero_notMem_cstr filter) enough
  rw [subInsert_cstr] at inserted
  refine ⟨nodes, head, inserted, by simpa [State.inserted] using holds, fun ref other => ?_⟩
  obtain ⟨d, i⟩ := ref
  rw [List.mem_append, agrees.entries, List.mem_singleton, Prod.mk.injEq, Prod.mk.injEq]
  by_cases same : d = c
  · subst d
    by_cases last : i = p.numSubs
    · simp [State.inserted, present, last]
    · have before : i < p.numSubs + 1 ↔ i < p.numSubs := by omega
      simp [State.inserted, present, last, before]
  · simp [State.inserted, same]

theorem Linked.insert (linked : Linked w b) (present : b.clients c = some p) (room : p.numSubs < maxSubs)
    (filter : List Byte) (qos : Nat) :
    ∃ nodes head,
      subInsert b.listBound b.nodes (b.subs p.worker) filter (c, p.numSubs) = some (nodes, head) ∧
        Linked w (b.inserted c p filter qos nodes head) := by
  obtain ⟨rfl, known, few⟩ := linked.clients c p present
  obtain ⟨live, agrees⟩ := linked.agrees
  obtain ⟨nodes, head, inserted, agrees'⟩ := agrees.insert present
    (agrees.length_le fun d q found => (linked.clients d q found).2) filter qos
  refine ⟨nodes, head, inserted, ⟨_, agrees'⟩, fun d q found => ?_⟩
  by_cases same : d = c
  · subst d
    simp only [State.inserted, Function.update_self, Option.some.injEq] at found
    subst q
    exact ⟨rfl, known, room⟩
  · exact linked.clients d q (by simpa [State.inserted, same] using found)

/-- `on_recv_subscribe` puts a new entry behind the others and links it. -/
theorem insertSub_linking (filter : List Byte) (qos : Nat) :
    (linking w).Keeps (fun _ => True) (insertSub c filter qos) := by
  intro b linked
  refine holds_client_bind (fun _ => trivial) fun p present => ?_
  split
  · rename_i room
    obtain ⟨nodes, head, inserted, linked'⟩ := linked.insert present room filter qos
    refine .get_bind ?_
    rw [inserted]
    refine ⟨fun _ => ?_, linking_fault _⟩
    simp only [emit, Cmd.run_modify_bind]
    rw [updateClient_run (p := p) (by exact present)]
    exact linked'
  · exact ⟨id, trivial⟩

private theorem subscribeOne_linking (sub : SubscribeSt) (i : Nat) :
    (linking w).Keeps (fun _ => True) (subscribeOne c sub i) := by
  intro b linked
  refine holds_client_bind (fun _ => trivial) fun p present => ?_
  dsimp only
  split
  · refine holds_client_bind (fun _ => trivial) fun p present => ⟨fun _ => ?_, trivial⟩
    refine linked.putClient present rfl rfl fun k => ?_
    by_cases changed : k = i
    · simp [changed]
    · simp [changed]
  · exact insertSub_linking _ _ b linked

private theorem onRecvSubscribe_linking :
    (linking w).Keeps (fun _ => True) (onRecvSubscribe cfg c) := by
  intro b linked
  refine holds_client_bind (fun _ => trivial) fun p present => .get_bind ?_
  have asserted : ∀ condition, (linking w).Keeps (fun _ => True) (assert condition) := by
    intro condition b _
    cases condition <;> exact ⟨id, trivial⟩
  refine Contract.Keeps.bind (asserted _) (fun _ _ b linked => ?_) b linked
  split
  · refine Contract.Keeps.bind (Contract.Keeps.each fun i _ => subscribeOne_linking _ i)
      (fun _ _ b linked => ?_) b linked
    dsimp only
    split
    · exact ⟨id, trivial⟩
    · rename_i encoded
      have replies : (contract cfg true .talk c).Holds _ (reply cfg c _) b := holds_reply (.inl rfl)
        (.plain (headerOf_encodeSuback encoded) (by decide)) (.inl rfl)
      exact linking_talk replies
  · have closing : (contract cfg true .talk c).Holds _ (cDisconnect cfg c (lit "auth sub failed")) b :=
      cDisconnect_keeps _ b (.inl rfl)
    exact (linking_talk closing).bind fun _ _ _ _ => ⟨id, trivial⟩

section Outcome

variable (present : b.clients c = some p) (counted : p.session.subscribe.numFilters ≤ maxSubs)

include present counted

/-- All filters are allowed: each has its turn, and the SUBACK is sent. -/
theorem onRecvSubscribe_allowed
    (grants : ((List.range p.session.subscribe.numFilters).all fun i =>
      allowed cfg b.answers.db p .sub (filterOf p.session.subscribe i)) = true) :
    (onRecvSubscribe cfg c).run b =
      (Cmd.each (subscribeOne c p.session.subscribe) (List.range p.session.subscribe.numFilters) >>= fun _ =>
        match encodeSuback sendBufLen p.session.subscribe.packetId
            ((List.range p.session.subscribe.numFilters).map fun i => min (p.session.subscribe.qos i) 1) with
        | [] => pure 0
        | suback => reply cfg c suback).run b := by
  rw [onRecvSubscribe, Cmd.bind_ok (client_run present), Cmd.bind_ok (database_run b),
    Cmd.bind_ok (assert_run (decide_eq_true counted) b)]
  exact congrArg (fun command : Code Nat => command.run b) (if_pos grants)

/-- A filter is denied: the client is disconnected. -/
theorem onRecvSubscribe_refused
    (refuses : ((List.range p.session.subscribe.numFilters).all fun i =>
      allowed cfg b.answers.db p .sub (filterOf p.session.subscribe i)) = false) :
    (onRecvSubscribe cfg c).run b =
      (cDisconnect cfg c (lit "auth sub failed") >>= fun _ => pure 1).run b := by
  rw [onRecvSubscribe, Cmd.bind_ok (client_run present), Cmd.bind_ok (database_run b),
    Cmd.bind_ok (assert_run (decide_eq_true counted) b)]
  exact congrArg (fun command : Code Nat => command.run b) (if_neg (by simp [refuses]))

end Outcome

/-! ### Unsubscribing -/

/-- Whether these filters, unsubscribed in turn, take out nothing but the last entry each
time, with an element behind it; the table has the given number of entries. -/
def lastOnly (p : Client) : Nat → List (List Byte) → Bool
  | _, [] => true
  | numSubs, filter :: filters =>
      match findSub { p with numSubs } filter with
      | none => lastOnly p numSubs filters
      | some j => j + 1 == numSubs && decide (numSubs < maxSubs) && lastOnly p j filters

/-- The state behind the removal of an entry. -/
def State.dropped (b : State) (c : ClientId) (p : Client) (j : Nat) : State :=
  closeGap c j p (b.removeSub c p j)

/-- Where the entry is the last one, nothing is moved. -/
theorem Linked.dropLast (linked : Linked w b) (present : b.clients c = some p) {j : Nat}
    (last : j + 1 = p.numSubs) : Linked w (b.dropped c p j) := by
  obtain ⟨rfl, known, few⟩ := linked.clients c p present
  obtain ⟨live, agrees⟩ := linked.agrees
  obtain ⟨removed, -⟩ := holds_foldl_removeSub c (List.nodup_singleton j) agrees.holds
    fun i inside => by
      obtain rfl := List.mem_singleton.mp inside
      exact agrees.mem present rfl (by omega)
  refine ⟨⟨_, removed.congr ?_, fun ref filter => ?_⟩, fun d q found => ?_⟩
  · intro entry member
    have kept := (List.mem_filter.mp member).2
    have outside : ¬ (entry.1.1 = c ∧ j ≤ entry.1.2 ∧ entry.1.2 < p.numSubs) := by
      rintro ⟨same, low, high⟩
      have : entry.1.2 = j := by omega
      simp [same, this] at kept
    simp [State.dropped, closeGap, outside]
  · rw [List.mem_filter, agrees.entries]
    obtain ⟨d, i⟩ := ref
    by_cases same : d = c
    · subst d
      by_cases here : i = j
      · have gone : ¬ j < p.numSubs - 1 := by omega
        simp [State.dropped, closeGap, here, gone]
      · have before : i < p.numSubs - 1 ↔ i < p.numSubs := by omega
        have fixed : ¬ (j ≤ i ∧ i < p.numSubs) := by omega
        simp [State.dropped, closeGap, here, present, before, fixed]
    · simp [State.dropped, closeGap, State.removeSub, same]
  · by_cases same : d = c
    · subst d
      simp only [State.dropped, closeGap, Function.update_self, Option.some.injEq] at found
      subst q
      exact ⟨rfl, known, by dsimp only; omega⟩
    · exact linked.clients d q (by simpa [State.dropped, closeGap, State.removeSub, same] using found)

/-- No entry from `j` on has the filter: nothing happens. -/
theorem unsubscribeFrom_absent (present : b.clients c = some p) {bound j : Nat}
    (absent : ∀ k, j ≤ k → k < p.numSubs → cstr (p.subscriptions k).filter ≠ cstr filter) :
    (unsubscribeFrom c filter bound j).run b = (.ok (), b) := by
  induction bound generalizing j with
  | zero => rfl
  | succ bound inductionHypothesis =>
      rw [unsubscribeFrom, Cmd.bind_ok (client_run present)]
      split
      · rename_i inside
        have different := absent j (Nat.le_refl j) inside
        simp only [onlyIf, beq_iff_eq, different, if_false, Cmd.run_pure_bind]
        exact inductionHypothesis fun k behind => absent k (by omega)
      · rfl

/-- The loop goes past the entries with other filters. -/
theorem unsubscribeFrom_skip (present : b.clients c = some p) {bound j first : Nat}
    (before : j ≤ first) (inside : first < p.numSubs) (enough : first < bound + j)
    (absent : ∀ k, j ≤ k → k < first → cstr (p.subscriptions k).filter ≠ cstr filter) :
    ∃ left, (unsubscribeFrom c filter bound j).run b = (do
      onlyIf (cstr (p.subscriptions first).filter == cstr filter) (dropSub c p first)
      unsubscribeFrom c filter left (first + 1)).run b := by
  induction bound generalizing j with
  | zero => omega
  | succ bound inductionHypothesis =>
      rw [unsubscribeFrom, Cmd.bind_ok (client_run present), if_pos (by omega)]
      by_cases here : j = first
      · subst j
        exact ⟨bound, rfl⟩
      · have other : (onlyIf (cstr (p.subscriptions j).filter == cstr filter) (dropSub c p j)).run b =
            (.ok (), b) := by
          simp [onlyIf, absent j (Nat.le_refl j) (by omega)]
        rw [Cmd.bind_ok other]
        exact inductionHypothesis (by omega) (by omega) fun k behind => absent k (by omega)

/-- The first entry with the filter is the last of all: it is taken out. -/
theorem unsubscribeFrom_last (present : b.clients c = some p) {bound j last : Nat}
    (isLast : last + 1 = p.numSubs) (room : p.numSubs < maxSubs) (before : j ≤ last)
    (enough : last < bound + j) (same : cstr (p.subscriptions last).filter = cstr filter)
    (absent : ∀ k, j ≤ k → k < last → cstr (p.subscriptions k).filter ≠ cstr filter) :
    (unsubscribeFrom c filter bound j).run b = (.ok (), b.dropped c p last) := by
  obtain ⟨left, skips⟩ := unsubscribeFrom_skip present before (by omega) enough absent
  have dropped : (onlyIf (cstr (p.subscriptions last).filter == cstr filter) (dropSub c p last)).run b =
      (.ok (), b.dropped c p last) := by
    simp [onlyIf, same, dropSub, room, State.dropped]
  have shorter : (b.dropped c p last).clients c = some { p with
      subscriptions := fun k =>
        if last ≤ k ∧ k < p.numSubs then p.subscriptions (k + 1) else p.subscriptions k
      numSubs := p.numSubs - 1 } := by
    simp [State.dropped, closeGap]
  rw [skips, Cmd.bind_ok dropped]
  exact unsubscribeFrom_absent shorter fun k behind inside => by dsimp only at inside; omega

private theorem findSub_none (none : findSub p filter = none) {k : Nat}
    (inside : k < p.numSubs) : cstr (p.subscriptions k).filter ≠ cstr filter := by
  have different := List.find?_eq_none.mp none k (List.mem_range.mpr inside)
  simpa using different

theorem findSub_some {j : Nat} (found : findSub p filter = some j) :
    j < p.numSubs ∧ cstr (p.subscriptions j).filter = cstr filter ∧
      ∀ k < j, cstr (p.subscriptions k).filter ≠ cstr filter := by
  obtain ⟨same, inside, first⟩ := List.find?_range_eq_some.mp found
  refine ⟨List.mem_range.mp inside, by simpa using same, fun k before => ?_⟩
  simpa using first k before

/-- Only the entries that are left matter. -/
theorem lastOnly_congr {q : Client} {numSubs : Nat}
    (same : ∀ k < numSubs, p.subscriptions k = q.subscriptions k) (filters : List (List Byte)) :
    lastOnly p numSubs filters = lastOnly q numSubs filters := by
  induction filters generalizing numSubs with
  | nil => rfl
  | cons filter filters inductionHypothesis =>
      have searched : findSub { p with numSubs } filter = findSub { q with numSubs } filter := by
        rw [findSub, findSub, ← List.head?_filter, ← List.head?_filter]
        refine congrArg List.head? (List.filter_congr fun k inside => ?_)
        rw [same k (List.mem_range.mp inside)]
      rw [lastOnly, lastOnly, searched]
      cases found : findSub { q with numSubs } filter with
      | none => exact inductionHypothesis same
      | some j =>
          have inside := (findSub_some found).1
          dsimp only at inside ⊢
          rw [inductionHypothesis fun k before => same k (by omega)]

/-- The loop of `on_recv_unsubscribe` over its filters. -/
theorem unsubscribeEach_linked {sub : SubscribeSt} {indices : List Nat} (linked : Linked w b)
    (present : b.clients c = some p) (tidy : lastOnly p p.numSubs (indices.map (filterOf sub)) = true) :
    ∃ b', (Cmd.each (fun i => unsubscribeFrom c (filterOf sub i) maxSubs 0) indices).run b = (.ok (), b') ∧
      Linked w b' := by
  induction indices generalizing b p with
  | nil => exact ⟨b, rfl, linked⟩
  | cons i indices inductionHypothesis =>
      obtain ⟨here, known, few⟩ := linked.clients c p present
      rw [List.map_cons, lastOnly] at tidy
      cases found : findSub p (filterOf sub i) with
      | none =>
          rw [show findSub { p with numSubs := p.numSubs } (filterOf sub i) = none from found] at tidy
          obtain ⟨b', ran, linked'⟩ := inductionHypothesis linked present tidy
          refine ⟨b', Cmd.each_cons_ok ?_ ran, linked'⟩
          exact unsubscribeFrom_absent present fun k _ inside => findSub_none found inside
      | some j =>
          rw [show findSub { p with numSubs := p.numSubs } (filterOf sub i) = some j from found] at tidy
          simp only [Bool.and_eq_true, beq_iff_eq, decide_eq_true_eq] at tidy
          obtain ⟨⟨isLast, room⟩, rest⟩ := tidy
          obtain ⟨inside, same, first⟩ := findSub_some found
          have shorter : (b.dropped c p j).clients c = some { p with
              subscriptions := fun k =>
                if j ≤ k ∧ k < p.numSubs then p.subscriptions (k + 1) else p.subscriptions k
              numSubs := p.numSubs - 1 } := by
            simp [State.dropped, closeGap]
          have left : p.numSubs - 1 = j := by omega
          obtain ⟨b', ran, linked'⟩ := inductionHypothesis (linked.dropLast present isLast) shorter (by
            dsimp only
            rw [left, lastOnly_congr (q := p) (fun k before => if_neg (by omega))]
            exact rest)
          refine ⟨b', Cmd.each_cons_ok ?_ ran, linked'⟩
          exact unsubscribeFrom_last present isLast room (Nat.zero_le j) (by omega) same
            fun k _ before => first k before

private theorem onRecvUnsubscribe_linked (linked : Linked w b) (present : b.clients c = some p)
    (tidy : lastOnly p p.numSubs
      ((List.range p.session.subscribe.numFilters).map (filterOf p.session.subscribe)) = true) :
    (linking w).Holds (fun _ => True) (onRecvUnsubscribe cfg c) b := by
  refine holds_client_bind (fun _ => trivial) fun q found => ?_
  obtain rfl : p = q := Option.some.inj (present.symm.trans found)
  dsimp only
  by_cases counted : p.session.subscribe.numFilters ≤ maxSubs
  · obtain ⟨b', ran, linked'⟩ := unsubscribeEach_linked linked present tidy
    have answers : (contract cfg true .talk c).Holds _
        (reply cfg c (encodeUnsuback p.session.subscribe.packetId)) b' :=
      holds_reply (.inl rfl) (.plain (headerOf_encodeUnsuback _) (by decide)) (.inl rfl)
    have replies := linking_talk (w := w) answers
    unfold Contract.Holds at replies ⊢
    simp only [assert, counted, decide_true, if_true, Cmd.run_pure_bind]
    rw [Cmd.bind_ok ran]
    exact ⟨fun _ => replies.1 linked', replies.2⟩
  · simp only [assert, counted, decide_false]
    exact ⟨id, trivial⟩

/-! ### Runs -/

inductive TableAction where
  /-- a client of the worker is created -/
  | accept (isTls isWs : Bool) (ipAddress : List Byte)
  | subscribe (c : ClientId) (sub : SubscribeSt) (answers : Answers)
  | unsubscribe (c : ClientId) (sub : SubscribeSt) (answers : Answers)
  /-- `c_unbind`, which calls `worker_rm_client` -/
  | remove (c : ClientId) (reason : List Byte) (answers : Answers)

/-- A callback is handed the packet in the parser record. -/
def handed (c : ClientId) (sub : SubscribeSt) (callback : Code Nat) : Code Nat := do
  updateClient c fun p => { p with session.subscribe := sub }
  callback

def tableStep (cfg : Config) (w : Nat) (run : Run) (action : TableAction) : Option Run :=
  if run.ended then none
  else
    let b := run.state
    match action with
    | .accept isTls isWs ipAddress => some (after (workersAddClient w isTls isWs ipAddress) b)
    | .subscribe c sub answers =>
        if (b.clients c).isSome then
          some (after (handed c sub (onRecvSubscribe cfg c)) { b with answers })
        else none
    | .unsubscribe c sub answers =>
        if (b.clients c).isSome then
          some (after (handed c sub (onRecvUnsubscribe cfg c)) { b with answers })
        else none
    | .remove c reason answers =>
        if (b.clients c).isSome then some (after (cUnbind cfg c reason) { b with answers }) else none

/-- The calls that clients of one worker make to its table. -/
def tableUses (cfg : Config) (w : Nat) : System Run TableAction where
  init run := run = start
  step := tableStep cfg w

/-- An UNSUBSCRIBE takes out last entries only. -/
def Tidy (run : Run) : TableAction → Prop
  | .unsubscribe c sub _ => ∀ p, run.state.clients c = some p →
      lastOnly p p.numSubs ((List.range sub.numFilters).map (filterOf sub)) = true
  | _ => True

instance (run : Run) : ∀ action, Decidable (Tidy run action)
  | .unsubscribe c sub _ =>
      match found : run.state.clients c with
      | none => isTrue (by simp [Tidy, found])
      | some p => decidable_of_iff
          (lastOnly p p.numSubs ((List.range sub.numFilters).map (filterOf sub)) = true)
          (by simp [Tidy, found])
  | .accept _ _ _ => isTrue trivial
  | .subscribe _ _ _ => isTrue trivial
  | .remove _ _ _ => isTrue trivial

theorem Linked.accept (linked : Linked w b) (isTls isWs : Bool) (ipAddress : List Byte) :
    Linked w ((workersAddClient w isTls isWs ipAddress).run b).2 := by
  obtain ⟨⟨live, agrees⟩, own⟩ := linked
  have older : ∀ {ref : SubRef} {p : Client}, b.clients ref.1 = some p → ref.1 ≠ b.nextClient := by
    intro ref p found
    exact (own ref.1 p found).2.1.ne
  refine ⟨⟨live, agrees.holds.congr ?_, fun ref filter => (agrees.entries ref filter).trans ?_⟩,
    fun d q found => ?_⟩
  · intro entry member
    obtain ⟨p, found, _⟩ := (agrees.entries entry.1 entry.2).mp member
    exact if_neg (older found)
  · by_cases new : ref.1 = b.nextClient
    · constructor
      · rintro ⟨p, found, _⟩
        exact absurd new (older found)
      · rintro ⟨p, found, _, inside, _⟩
        obtain rfl : cNew w isTls isWs ipAddress = p := by
          simpa [workersAddClient, new] using found
        exact absurd inside (Nat.not_lt_zero _)
    · simp [workersAddClient, new]
  · by_cases new : d = b.nextClient
    · obtain rfl : cNew w isTls isWs ipAddress = q := by simpa [workersAddClient, new] using found
      exact ⟨rfl, by rw [new]; exact Nat.lt_succ_self _, Nat.zero_le _⟩
    · obtain ⟨here, known, few⟩ := own d q (by simpa [workersAddClient, new] using found)
      exact ⟨here, known.trans (Nat.lt_succ_self _), few⟩

/-- The state in which the callback for a packet finds the client. -/
def State.handing (b : State) (c : ClientId) (p : Client) (sub : SubscribeSt) (answers : Answers) : State :=
  ({ b with answers } : State).putClient c { p with session.subscribe := sub }

theorem handing_present (b : State) (c : ClientId) (p : Client) (sub : SubscribeSt) (answers : Answers) :
    (b.handing c p sub answers).clients c = some { p with session.subscribe := sub } := by
  simp [State.handing, State.putClient]

theorem Linked.handing (linked : Linked w b) (present : b.clients c = some p) (sub : SubscribeSt)
    (answers : Answers) : Linked w (b.handing c p sub answers) := by
  have asked : Linked w { b with answers } := linked.congr rfl rfl rfl rfl
  exact asked.putClient present rfl rfl fun _ => rfl

/-- What a call of the system can be, and the state behind it. -/
inductive TableStep (cfg : Config) (w : Nat) (b : State) : TableAction → State → Prop
  | accept (isTls isWs : Bool) (ipAddress : List Byte) :
      TableStep cfg w b (.accept isTls isWs ipAddress) ((workersAddClient w isTls isWs ipAddress).run b).2
  | subscribe {c : ClientId} {p : Client} (present : b.clients c = some p) (sub : SubscribeSt) (answers : Answers) :
      TableStep cfg w b (.subscribe c sub answers) ((onRecvSubscribe cfg c).run (b.handing c p sub answers)).2
  | unsubscribe {c : ClientId} {p : Client} (present : b.clients c = some p) (sub : SubscribeSt)
      (answers : Answers) :
      TableStep cfg w b (.unsubscribe c sub answers) ((onRecvUnsubscribe cfg c).run (b.handing c p sub answers)).2
  | remove {c : ClientId} {p : Client} (present : b.clients c = some p) (reason : List Byte) (answers : Answers) :
      TableStep cfg w b (.remove c reason answers) ((cUnbind cfg c reason).run { b with answers }).2

private theorem handed_run (present : b.clients c = some p) (sub : SubscribeSt) (answers : Answers) (callback : Code Nat) :
    (handed c sub callback).run { b with answers } = callback.run (b.handing c p sub answers) := by
  have asked : ({ b with answers } : State).clients c = some p := present
  rw [handed, Cmd.bind_ok (updateClient_run asked _)]
  rfl

theorem tableStep_cases {run next : Run} {action : TableAction}
    (stepped : tableStep cfg w run action = some next) : TableStep cfg w run.state action next.state := by
  unfold tableStep at stepped
  split at stepped
  · simp at stepped
  · cases action with
    | accept isTls isWs ipAddress =>
        obtain rfl := Option.some.inj stepped
        rw [after_state]
        exact .accept isTls isWs ipAddress
    | subscribe c sub answers =>
        simp only [Option.ite_none_right_eq_some, Option.some.injEq] at stepped
        obtain ⟨there, rfl⟩ := stepped
        obtain ⟨p, present⟩ := Option.isSome_iff_exists.mp there
        rw [after_state, handed_run present]
        exact .subscribe present sub answers
    | unsubscribe c sub answers =>
        simp only [Option.ite_none_right_eq_some, Option.some.injEq] at stepped
        obtain ⟨there, rfl⟩ := stepped
        obtain ⟨p, present⟩ := Option.isSome_iff_exists.mp there
        rw [after_state, handed_run present]
        exact .unsubscribe present sub answers
    | remove c reason answers =>
        simp only [Option.ite_none_right_eq_some, Option.some.injEq] at stepped
        obtain ⟨there, rfl⟩ := stepped
        obtain ⟨p, present⟩ := Option.isSome_iff_exists.mp there
        rw [after_state]
        exact .remove present reason answers

/-- One call keeps the table in agreement. -/
theorem Linked.step {run next : Run} {action : TableAction} (linked : Linked w run.state)
    (tidy : Tidy run action) (stepped : tableStep cfg w run action = some next) :
    Linked w next.state := by
  have step := tableStep_cases stepped
  generalize next.state = d at step ⊢
  cases step with
  | accept isTls isWs ipAddress => exact linked.accept isTls isWs ipAddress
  | subscribe present sub answers =>
      have written := linked.handing present sub answers
      exact (onRecvSubscribe_linking _ written).1 written
  | @unsubscribe c p present sub answers =>
      have written := linked.handing present sub answers
      have same : ∀ filters, lastOnly { p with session.subscribe := sub } p.numSubs filters =
          lastOnly p p.numSubs filters := by
        intro filters
        apply lastOnly_congr
        intros
        rfl
      exact (onRecvUnsubscribe_linked written (handing_present _ _ _ _ _)
        ((same _).trans (tidy p present))).1 written
  | @remove c p present reason answers =>
      have asked : Linked w { run.state with answers } := linked.congr rfl rfl rfl rfl
      have closing : (contract cfg true .talk c).Holds _ (cUnbind cfg c reason)
          { run.state with answers } := cUnbind_keeps reason _ (.inl rfl)
      exact (linking_talk closing).1 asked

private theorem linked_start : Linked w start.state where
  agrees := ⟨[], .empty _, by simp [start]⟩
  clients := by simp [start]

theorem linked_reachable {run : Run} (reached : ((tableUses cfg w).restrict Tidy).Reachable run) :
    Linked w run.state := by
  have initially : ∀ run, ((tableUses cfg w).restrict Tidy).init run → Linked w run.state := by
    intro run initial
    rw [show run = start from initial]
    exact linked_start
  have preserved : ∀ run action next, ((tableUses cfg w).restrict Tidy).Reachable run →
      Linked w run.state → ((tableUses cfg w).restrict Tidy).step run action = some next →
      Linked w next.state := by
    intro run action next _ linked stepped
    obtain ⟨tidy, stepped⟩ := System.restrict_step.mp stepped
    exact linked.step tidy stepped
  exact reached.invariant initially preserved

/-- In every history in which UNSUBSCRIBEs take out last entries only, the trie of the
worker holds exactly the entries of its clients' subscription arrays. -/
theorem table_agrees_with_subscriptions {run : Run}
    (reached : ((tableUses cfg w).restrict Tidy).Reachable run) :
    ∃ live, Agrees run.state w live :=
  (linked_reachable reached).agrees

/-- A SUBSCRIBE or UNSUBSCRIBE of these filters. -/
def filtering (filters : List (List Byte)) : SubscribeSt where
  packetId := 1
  u16 := 0
  numFilters := filters.length
  filterLengths i := (filters.getD i []).length
  filters i k := (filters.getD i []).getD k 0
  qos _ := 0

/-- A client subscribes to two filters and unsubscribes the second. -/
theorem table_agrees_with_subscriptions_last :
    ∃ run live,
      ((tableUses (oneWorker true) 0).restrict Tidy).run start
        [.accept false false [], .subscribe 0 (filtering [lit "a", lit "b"]) silent,
          .unsubscribe 0 (filtering [lit "b"]) silent] = some run ∧
      Agrees run.state 0 live := by
  have ran : (((tableUses (oneWorker true) 0).restrict Tidy).run start
      [.accept false false [], .subscribe 0 (filtering [lit "a", lit "b"]) silent,
        .unsubscribe 0 (filtering [lit "b"]) silent]).isSome = true := by
    decide +kernel
  obtain ⟨run, ends⟩ := Option.isSome_iff_exists.mp ran
  obtain ⟨live, agrees⟩ := table_agrees_with_subscriptions (System.Reachable.run (.start rfl) ends)
  exact ⟨run, live, ends, agrees⟩

/-- Behind the UNSUBSCRIBE of the first of two filters the trie still links the second
array element, which is no longer in use. -/
theorem table_loses_moved_subscription :
    ∃ run, (tableUses (oneWorker true) 0).run start
        [.accept false false [], .subscribe 0 (filtering [lit "a", lit "b"]) silent,
          .unsubscribe 0 (filtering [lit "a"]) silent] = some run ∧
      ¬ ∃ live, Agrees run.state 0 live := by
  have ran : ((tableUses (oneWorker true) 0).run start
      [.accept false false [], .subscribe 0 (filtering [lit "a", lit "b"]) silent,
        .unsubscribe 0 (filtering [lit "a"]) silent]).map (fun run =>
          ((run.state.subs 0).listAt (lit "b"), (run.state.clients 0).map Client.numSubs)) =
      some (some (0, 1), some 1) := by
    decide +kernel
  obtain ⟨run, reached, seen⟩ := Option.map_eq_some_iff.mp ran
  obtain ⟨linked, few⟩ := Prod.mk.inj seen
  obtain ⟨p, present, count⟩ := Option.map_eq_some_iff.mp few
  refine ⟨run, reached, ?_⟩
  rintro ⟨live, agrees⟩
  have list := agrees.holds.contents.lists (lit "b")
  have head := list.head_eq
  rw [linked] at head
  obtain ⟨filter, entry, _⟩ := mem_entriesOf.mp (List.mem_of_mem_head? head.symm)
  obtain ⟨q, found, _, inside, _⟩ := (agrees.entries _ _).mp entry
  obtain rfl : p = q := Option.some.inj (present.symm.trans found)
  rw [count] at inside
  exact absurd inside (by decide)

end FbBroker.Broker
