import Mathlib.Algebra.Order.BigOperators.Group.List
import FbBroker.Parser.Fields

/-!
Contract: how the parser decodes SUBSCRIBE and UNSUBSCRIBE packets.

Owns the reading of one filter, which both packets share, and the induction over
the filters of a packet. A SUBSCRIBE is handed over with its filters in order. An
UNSUBSCRIBE is checked for the byte of a requested QoS that its last filter does
not have, and is rejected there, whatever its filters are.

Does not own what the callbacks do with the filters.
-/

set_option autoImplicit false

namespace FbBroker.Parser

open FbBroker.Packet FbBroker.Lib
open Host (Parses)

variable {allowAnonymous mallocOk : Bool} {packetId : Nat} {length : Nat}

/-! ### One filter -/

/-- The session while a filter is copied. -/
def copying (s : Session) (length : Nat) (read : List Byte) (state : PState) : Session :=
  let n := s.subscribe.numFilters
  { s with
    subscribe.filterLengths := Function.update s.subscribe.filterLengths n length
    subscribe.filters := Function.update s.subscribe.filters n (fill (fun _ => 0) read)
    subscribe.u16 := read.length
    state }

private theorem filterLength_copying {s : Session} {b : Byte} {topic2 : PState}
    (value : low s.subscribe.u16 b = length) (fits : length + 3 ≤ s.remLen)
    (room : s.subscribe.numFilters < maxNumTopics) :
    filterLength true s b topic2 = .next (copying s length [] topic2) := by
  have inside : ¬ length + 3 > s.remLen := by omega
  simp [filterLength, copying, value, inside, room]

private theorem filterByte_copying {s : Session} {b : Byte} {topic2 : PState}
    {read : List Byte} {done : Session → Outcome} (room : s.subscribe.numFilters < maxNumTopics)
    (inside : read.length < length) (short : length < 2 ^ 16) :
    filterByte (copying s length read topic2) b done =
      if read.length + 1 = length then done (copying s length (read ++ [b]) topic2)
      else .next (copying s length (read ++ [b]) topic2) := by
  have index : incr16 read.length = read.length + 1 := incr16_of_lt (by omega)
  have within : read.length < length + 1 := by omega
  simp [filterByte, copying, room, store, within, index, update_fill]

/-- The length of a filter and its bytes. -/
theorem parses_filter {s : Session} (topic1 topic2 : PState) (done : Session → Outcome)
    {filter : List Byte}
    (atLength : ∀ b, parserByte allowAnonymous true s b =
      .next { s with subscribe.u16 := high b, state := topic1 })
    (atSecond : ∀ s b, s.state = topic1 →
      parserByte allowAnonymous true s b = filterLength true s b topic2)
    (atByte : ∀ s b, s.state = topic2 →
      parserByte allowAnonymous true s b = filterByte s b done)
    (room : s.subscribe.numFilters < maxNumTopics) (nonempty : filter ≠ [])
    (short : filter.length < 2 ^ 16) (fits : filter.length + 3 ≤ s.remLen) :
    Parses allowAnonymous true s (encodeString filter)
      (done (copying s filter.length filter topic2)) := by
  have length : Parses allowAnonymous true s (encodeShort filter.length)
      (.next (copying s filter.length [] topic2)) := by
    refine parses_short (atLength _) ?_
    rw [atSecond _ _ rfl]
    exact filterLength_copying (low_high_encodeShort short) fits room
  have bytes : Parses allowAnonymous true (copying s filter.length [] topic2) filter
      (done (copying s filter.length filter topic2)) := by
    refine parses_copied (fun read => copying s filter.length read topic2) ?_ ?_ nonempty
    · intro read b more
      rw [atByte _ _ rfl, filterByte_copying room (by omega) short, if_neg (by omega)]
    · intro read b whole
      have last : read.length + 1 = filter.length := by rw [← whole]; simp
      rw [atByte _ _ rfl, filterByte_copying room (by omega) short, if_pos last, whole]
  exact length.append bytes

/-- The bytes in front of the filters, which both packets share. -/
theorem parses_front_of_filters {s : Session} (atHeader : s.state = .header) {type : MsgType}
    {packetId0 : PState} (packetId1 topic0 : PState) (body : bodyState type = some packetId0)
    (atFirst : ∀ s b, s.state = packetId0 → parserByte allowAnonymous mallocOk s b =
      .next { s with subscribe.packetId := high b, state := packetId1 })
    (atSecond : ∀ s b, s.state = packetId1 → parserByte allowAnonymous mallocOk s b =
      .next { s with
        subscribe.packetId := low s.subscribe.packetId b, subscribe.numFilters := 0
        remLen := sub32 s.remLen 2, state := topic0 })
    {packetId : Nat} (idBits : packetId < 2 ^ 16) {length : Nat} (small : 2 + length < 2 ^ 28) :
    ∃ multiplier, Parses allowAnonymous mallocOk s
      ((encodeHeaderByte type 0 1 0 :: encodeRemLen (2 + length)) ++ encodeShort packetId)
      (.next { s with
        header := ⟨type, 0, 1, 0⟩, remLen := length, multiplier
        subscribe.packetId := packetId, subscribe.numFilters := 0, state := topic0 }) := by
  obtain ⟨multiplier, fixedHeader⟩ : ∃ multiplier, Parses allowAnonymous mallocOk s _ _ :=
    parses_fixedHeader atHeader body (Nat.zero_le 1) (show 1 ≤ 3 by decide)
      (show 2 + length < 2 ^ 32 by omega)
  have rest : sub32 (2 + length) 2 = length := by
    rw [sub32_of_le (by omega) (by omega)]
    omega
  refine ⟨multiplier, fixedHeader.append (parses_short (atFirst _ _ rfl) ?_)⟩
  rw [atSecond _ _ rfl]
  simp only [low_high_encodeShort idBits, rest]

/-- Ten filters do not exceed what four bytes of remaining length can tell. -/
theorem sum_lengths_small {lengths : List Nat} (each : ∀ length ∈ lengths, length ≤ 65538)
    (room : lengths.length ≤ maxNumTopics) : 2 + lengths.sum < 2 ^ 28 := by
  have bound : lengths.sum ≤ lengths.length * 65538 := List.sum_le_card_nsmul lengths 65538 each
  rw [maxNumTopics] at room
  omega

/-! ### SUBSCRIBE -/

/-- A filter of a SUBSCRIBE with the QoS requested for it. -/
structure FilterEntry where
  filter : List Byte
  qos : Nat
deriving DecidableEq, Repr

/-- The filters are in the arrays of the parser in order, each with its length, its QoS
and a NUL behind its bytes. -/
structure Recorded (entries : List FilterEntry) (sub : SubscribeSt) : Prop where
  numFilters : sub.numFilters = entries.length
  entry : ∀ n entry, entries[n]? = some entry →
    sub.filterLengths n = entry.filter.length ∧
      bytes entry.filter.length (sub.filters n) = entry.filter ∧
      sub.filters n entry.filter.length = 0 ∧ sub.qos n = entry.qos

/-- Filters of lengths 1 to 65535 with QoS 0, 1 or 2. -/
def ValidEntries (entries : List FilterEntry) : Prop :=
  ∀ entry ∈ entries, entry.filter ≠ [] ∧ entry.filter.length < 2 ^ 16 ∧ entry.qos ≤ 2

def encodeEntry (entry : FilterEntry) : List Byte :=
  encodeString entry.filter ++ [UInt8.ofNat entry.qos]

def entriesLen (entries : List FilterEntry) : Nat :=
  (entries.map fun entry => 3 + entry.filter.length).sum

/-- A SUBSCRIBE packet. -/
def subscribePacket (packetId : Nat) (entries : List FilterEntry) : List Byte :=
  (encodeHeaderByte .subscribe 0 1 0 :: encodeRemLen (2 + entriesLen entries)) ++
    encodeShort packetId ++ entries.flatMap encodeEntry

/-- The parser is in front of a filter, behind some of the packet's filters. -/
structure AtEntry (packetId : Nat) (behind ahead : List FilterEntry) (s : Session) : Prop where
  state : s.state = .subscribe .topic0
  packetId : s.subscribe.packetId = packetId
  recorded : Recorded behind s.subscribe
  remLen : s.remLen = entriesLen ahead

/-- What the byte of the requested QoS adds to the arrays. -/
theorem Recorded.concat {entries : List FilterEntry} {sub : SubscribeSt} {entry : FilterEntry}
    (recorded : Recorded entries sub) :
    Recorded (entries ++ [entry])
      { sub with
        filterLengths := Function.update sub.filterLengths sub.numFilters entry.filter.length
        filters := Function.update sub.filters sub.numFilters (fill (fun _ => 0) entry.filter)
        u16 := length
        qos := Function.update sub.qos sub.numFilters entry.qos
        numFilters := sub.numFilters + 1 } := by
  obtain ⟨count, old⟩ := recorded
  refine ⟨by simp [count], fun n found known => ?_⟩
  dsimp only
  by_cases last : n = sub.numFilters
  · subst n
    rw [count, List.getElem?_append_right (Nat.le_refl _)] at known
    obtain rfl : entry = found := by simpa using known
    simp [fill_of_le]
  · have inside : n < entries.length := by
      have bound := (List.getElem?_eq_some_iff.mp known).1
      rw [List.length_append, List.length_singleton] at bound
      omega
    rw [List.getElem?_append_left inside] at known
    simp only [Function.update_of_ne last]
    exact old n found known

private theorem entriesLen_cons (entry : FilterEntry) (entries : List FilterEntry) :
    entriesLen (entry :: entries) = 3 + entry.filter.length + entriesLen entries := by
  simp [entriesLen]

private theorem entriesLen_pos {entries : List FilterEntry} (nonempty : entries ≠ []) :
    0 < entriesLen entries := by
  cases entries with
  | nil => exact absurd rfl nonempty
  | cons entry entries =>
      rw [entriesLen_cons]
      omega

/-- The session behind the QoS of a filter. -/
def recordEntry (s : Session) (entry : FilterEntry) (remLen : Nat) : Session :=
  let n := s.subscribe.numFilters
  { copying s entry.filter.length entry.filter (.subscribe .topicQos) with
    subscribe.qos := Function.update s.subscribe.qos n entry.qos
    connect.password := overlayQos n (UInt8.ofNat entry.qos) s.connect.password
    subscribe.numFilters := n + 1
    remLen }

private theorem parserByte_topicQos {s : Session} {entry : FilterEntry} {left : Nat}
    (room : s.subscribe.numFilters < maxNumTopics) (qosBits : entry.qos ≤ 2)
    (counted : s.remLen = 3 + entry.filter.length + left) (small : s.remLen < 2 ^ 32) :
    parserByte allowAnonymous true (copying s entry.filter.length entry.filter (.subscribe .topicQos))
        (UInt8.ofNat entry.qos) =
      if left > 0 then .next { recordEntry s entry left with state := .subscribe .topic0 }
      else .call (recordEntry s entry left) .subscribe := by
  have value : (UInt8.ofNat entry.qos).toNat = entry.qos := by
    rw [UInt8.toNat_ofNat', Nat.mod_eq_of_lt (by omega)]
  have known : ¬ entry.qos > 2 := by omega
  have rest : sub32 s.remLen (entry.filter.length + 3) = left := by
    rw [sub32_of_le small (by omega)]
    omega
  simp [parserByte, copying, subscribeByte, value, known, room, rest, recordEntry]

/-- One filter of a SUBSCRIBE: the parser goes on to the next one, or hands the packet
over behind the last one. -/
theorem parses_entry {behind ahead : List FilterEntry} {entry : FilterEntry}
    {s : Session} (here : AtEntry packetId behind (entry :: ahead) s)
    (room : behind.length < maxNumTopics) (nonempty : entry.filter ≠ [])
    (short : entry.filter.length < 2 ^ 16) (qosBits : entry.qos ≤ 2)
    (small : entriesLen (entry :: ahead) < 2 ^ 32) :
    Parses allowAnonymous true s (encodeEntry entry)
      (if entriesLen ahead > 0 then
        .next { recordEntry s entry (entriesLen ahead) with state := .subscribe .topic0 }
      else .call (recordEntry s entry (entriesLen ahead)) .subscribe) := by
  obtain ⟨state, _, recorded, counted⟩ := here
  rw [← counted] at small
  rw [entriesLen_cons] at counted
  have free : s.subscribe.numFilters < maxNumTopics := recorded.numFilters ▸ room
  have filter : Parses allowAnonymous true s (encodeString entry.filter)
      (.next (copying s entry.filter.length entry.filter (.subscribe .topicQos))) := by
    refine parses_filter (.subscribe .topic1) (.subscribe .topic2)
      (fun s => .next { s with state := .subscribe .topicQos }) ?_ ?_ ?_ free nonempty short (by omega)
    · intro b
      simp [parserByte, state, subscribeByte]
    · intro s b there
      simp [parserByte, there, subscribeByte]
    · intro s b there
      simp [parserByte, there, subscribeByte]
  exact filter.append (.last (parserByte_topicQos free qosBits counted small))

/-- The filters of a SUBSCRIBE from one of them on. -/
theorem parses_entries {behind ahead : List FilterEntry} {s : Session}
    (here : AtEntry packetId behind ahead s) (more : ahead ≠ []) (valid : ValidEntries ahead)
    (room : behind.length + ahead.length ≤ maxNumTopics) (small : entriesLen ahead < 2 ^ 32) :
    ∃ called, Parses allowAnonymous true s (ahead.flatMap encodeEntry) (.call called .subscribe) ∧
      called.subscribe.packetId = packetId ∧ Recorded (behind ++ ahead) called.subscribe := by
  -- over the filters ahead, those behind being recorded
  induction ahead generalizing behind s with
  | nil => exact absurd rfl more
  | cons entry ahead inductionHypothesis =>
      obtain ⟨nonempty, short, qosBits⟩ := valid entry List.mem_cons_self
      rw [List.length_cons] at room
      have read : Parses allowAnonymous true s (encodeEntry entry) _ :=
        parses_entry here (by omega) nonempty short qosBits small
      rw [entriesLen_cons] at small
      rw [List.flatMap_cons]
      by_cases last : ahead = []
      · subst last
        refine ⟨recordEntry s entry 0, ?_, here.packetId, here.recorded.concat⟩
        rw [List.flatMap_nil, List.append_nil]
        exact read
      · rw [if_pos (entriesLen_pos last)] at read
        have there : AtEntry packetId (behind ++ [entry]) ahead
            { recordEntry s entry (entriesLen ahead) with state := .subscribe .topic0 } :=
          ⟨rfl, here.packetId, here.recorded.concat, rfl⟩
        obtain ⟨called, rest, sameId, recorded⟩ := inductionHypothesis there last
          (fun other member => valid other (List.mem_cons_of_mem entry member))
          (by rw [List.length_append, List.length_singleton]; omega) (by omega)
        rw [List.append_assoc] at recorded
        exact ⟨called, read.append rest, sameId, recorded⟩

private theorem parses_subscribePacket {s : Session} (atHeader : s.state = .header)
    (idBits : packetId < 2 ^ 16) {entries : List FilterEntry} (nonempty : entries ≠ [])
    (room : entries.length ≤ maxNumTopics) (valid : ValidEntries entries) :
    ∃ called, Parses allowAnonymous true s (subscribePacket packetId entries) (.call called .subscribe) ∧
      called.subscribe.packetId = packetId ∧ Recorded entries called.subscribe := by
  have small : 2 + entriesLen entries < 2 ^ 28 := by
    apply sum_lengths_small
    · intro length member
      obtain ⟨entry, inside, rfl⟩ := List.mem_map.mp member
      have short := (valid entry inside).2.1
      omega
    · rw [List.length_map]
      exact room
  obtain ⟨multiplier, front⟩ : ∃ multiplier, Parses allowAnonymous true s _ _ :=
    parses_front_of_filters atHeader (.subscribe .packetId1) (.subscribe .topic0)
      (show bodyState .subscribe = some _ from rfl)
      (fun s b there => by simp [parserByte, there, subscribeByte])
      (fun s b there => by simp [parserByte, there, subscribeByte]) idBits small
  have start : AtEntry packetId [] entries { s with
      header := ⟨.subscribe, 0, 1, 0⟩, remLen := entriesLen entries, multiplier
      subscribe.packetId := packetId, subscribe.numFilters := 0, state := .subscribe .topic0 } :=
    ⟨rfl, rfl, ⟨rfl, fun _ _ known => absurd known (by simp)⟩, rfl⟩
  obtain ⟨called, filters, sameId, recorded⟩ : ∃ called, Parses allowAnonymous true _ _ _ ∧ _ :=
    parses_entries start nonempty valid (by simpa using room) (by omega)
  exact ⟨called, front.append filters, sameId, recorded⟩

section Decoding

variable {State : Type} {host : Host State} {At : Session → State → Prop} {s : Session} {state : State}

/-- A SUBSCRIBE with one to ten filters is decoded: over any host that serves the
allocations its bytes up to the last call nothing, and its last byte calls
`on_recv_subscribe` once, with the packet id and the filters in order. The callback's
failure is returned; behind its success the next packet is awaited. -/
theorem subscribe_decoded (answers : host.Answers true At) (stored : At s state) (atHeader : s.state = .header)
    {packetId : Nat} (idBits : packetId < 2 ^ 16) {entries : List FilterEntry} (nonempty : entries ≠ [])
    (room : entries.length ≤ maxNumTopics) (valid : ValidEntries entries) :
    ∃ called quiet, called.subscribe.packetId = packetId ∧ Recorded entries called.subscribe ∧
      (host.traced.mqttParserExecute (subscribePacket packetId entries).dropLast).run (state, []) =
        (.ok 0, quiet, []) ∧
      ∀ rv, host.CallbackReturns At called .subscribe rv →
        ∃ later, (host.traced.mqttParserExecute (subscribePacket packetId entries)).run (state, []) =
            (.ok (if rv = 0 then 0 else 1), later, [.callback called .subscribe]) ∧
          (rv = 0 → ∃ last, At last later ∧ last.state = .header) := by
  obtain ⟨called, parses, sameId, recorded⟩ :
      ∃ called, Parses host.allowAnonymous true s _ (.call called .subscribe) ∧ _ :=
    parses_subscribePacket atHeader idBits nonempty room valid
  obtain ⟨quiet, front⟩ := answers.execute_dropLast stored parses
  refine ⟨called, quiet, sameId, recorded, front, fun rv returns => ?_⟩
  exact answers.execute_call stored parses returns

/-- A SUBSCRIBE with two filters. -/
theorem subscribe_decoded_two :
    ∃ called later, Recorded [⟨[97], 0⟩, ⟨[98, 99], 2⟩] called.subscribe ∧
      ((Host.recorder false).traced.mqttParserExecute
        [0x82, 11, 0, 7, 0, 1, 97, 0, 0, 2, 98, 99, 2]).run (mqttParserInit, []) =
          (.ok 0, later, [.callback called .subscribe]) := by
  have packet : subscribePacket 7 [⟨[97], 0⟩, ⟨[98, 99], 2⟩] =
      [0x82, 11, 0, 7, 0, 1, 97, 0, 0, 2, 98, 99, 2] := by
    decide +kernel
  have valid : ValidEntries [⟨[97], 0⟩, ⟨[98, 99], 2⟩] := by
    unfold ValidEntries
    decide
  obtain ⟨called, _, _, recorded, _, calls⟩ := subscribe_decoded (Host.recorder_answers false)
    (Eq.refl mqttParserInit) rfl (show 7 < 2 ^ 16 by decide)
    (show [⟨[97], 0⟩, ⟨[98, 99], 2⟩] ≠ [] by simp) (by decide) valid
  obtain ⟨later, runs, _⟩ := calls 0 (Host.recorder_returns false called .subscribe)
  rw [packet] at runs
  exact ⟨called, later, recorded, runs⟩

end Decoding

/-! ### UNSUBSCRIBE -/

def filtersLen (filters : List (List Byte)) : Nat :=
  (filters.map fun filter => 2 + filter.length).sum

/-- An UNSUBSCRIBE packet. -/
def unsubscribePacket (packetId : Nat) (filters : List (List Byte)) : List Byte :=
  (encodeHeaderByte .unsubscribe 0 1 0 :: encodeRemLen (2 + filtersLen filters)) ++
    encodeShort packetId ++ filters.flatMap encodeString

/-- Filters that are not empty, of lengths a two-byte number can tell. -/
def ValidFilters (filters : List (List Byte)) : Prop :=
  ∀ filter ∈ filters, filter ≠ [] ∧ filter.length < 2 ^ 16

/-- The parser is in front of a filter of an UNSUBSCRIBE. -/
structure AtFilter (behind : Nat) (ahead : List (List Byte)) (s : Session) : Prop where
  state : s.state = .unsubscribe .topic0
  numFilters : s.subscribe.numFilters = behind
  remLen : s.remLen = filtersLen ahead

private theorem filtersLen_cons (filter : List Byte) (filters : List (List Byte)) :
    filtersLen (filter :: filters) = 2 + filter.length + filtersLen filters := by
  simp [filtersLen]

private theorem filtersLen_pos {filters : List (List Byte)} (nonempty : filters ≠ []) :
    0 < filtersLen filters := by
  cases filters with
  | nil => exact absurd rfl nonempty
  | cons filter filters =>
      rw [filtersLen_cons]
      omega

/-- A filter is rejected at its length where the remaining length does not also take the
byte of a requested QoS, or where it cannot be allocated. -/
theorem parses_filterLength_rejected {s : Session} (here : s.state = .unsubscribe .topic0)
    (short : length < 2 ^ 16) (rejected : length + 3 > s.remLen ∨ mallocOk = false) :
    ∃ refused, Parses allowAnonymous mallocOk s (encodeShort length) (.ret refused 1) := by
  have first : parserByte allowAnonymous mallocOk s (UInt8.ofNat (length / 256)) =
      .next { s with
        subscribe.u16 := high (UInt8.ofNat (length / 256)), state := .unsubscribe .topic1 } := by
    simp [parserByte, here, unsubscribeByte]
  refine ⟨{ s with subscribe.u16 := length, state := .unsubscribe .topic1 }, parses_short first ?_⟩
  simp only [parserByte, unsubscribeByte, filterLength, low_high_encodeShort short]
  by_cases overlong : length + 3 > s.remLen
  · rw [if_pos overlong]
  · rw [if_neg overlong, if_pos (by simp [rejected.resolve_left overlong])]

/-- A filter that leaves more than the byte of a requested QoS is read, and another one
follows. -/
theorem parses_filter_more {behind : Nat} {ahead : List (List Byte)} {filter : List Byte} {s : Session}
    (here : AtFilter behind (filter :: ahead) s) (room : behind < maxNumTopics)
    (nonempty : filter ≠ []) (short : filter.length < 2 ^ 16) (more : ahead ≠ [])
    (small : filtersLen (filter :: ahead) < 2 ^ 32) :
    ∃ next, Parses allowAnonymous true s (encodeString filter) (.next next) ∧
      AtFilter (behind + 1) ahead next := by
  obtain ⟨state, count, counted⟩ := here
  rw [← counted] at small
  rw [filtersLen_cons] at counted
  have positive := filtersLen_pos more
  have rest : sub32 s.remLen (filter.length + 2) = filtersLen ahead := by
    rw [sub32_of_le small (by omega)]
    omega
  refine ⟨{ copying s filter.length filter (.unsubscribe .topic0) with
      remLen := filtersLen ahead, subscribe.numFilters := s.subscribe.numFilters + 1 }, ?_,
    ⟨rfl, congrArg (· + 1) count, rfl⟩⟩
  have read : Parses allowAnonymous true s (encodeString filter) _ :=
    parses_filter (.unsubscribe .topic1) (.unsubscribe .topic2)
      (fun s =>
        let n := s.subscribe.numFilters
        let s := { s with
          remLen := sub32 s.remLen (s.subscribe.filterLengths n + 2)
          subscribe.numFilters := n + 1 }
        if s.remLen > 0 then .next { s with state := .unsubscribe .topic0 }
        else .call s .unsubscribe)
      (fun b => by simp [parserByte, state, unsubscribeByte])
      (fun s b there => by simp [parserByte, there, unsubscribeByte])
      (fun s b there => by simp [parserByte, there, unsubscribeByte])
      (count ▸ room) nonempty short (by omega)
  simp only [copying, Function.update_self, rest] at read
  rw [if_pos positive] at read
  exact read

/-- The filters of an UNSUBSCRIBE are not all read: the last one at the latest is
rejected. -/
theorem parses_filters_rejected {behind : Nat} {ahead : List (List Byte)} {s : Session}
    (here : AtFilter behind ahead s) (more : ahead ≠ []) (valid : ValidFilters ahead)
    (room : behind + ahead.length ≤ maxNumTopics) (small : filtersLen ahead < 2 ^ 32) :
    ∃ front rest refused, ahead.flatMap encodeString = front ++ rest ∧
      Parses allowAnonymous mallocOk s front (.ret refused 1) := by
  induction ahead generalizing behind s with
  | nil => exact absurd rfl more
  | cons filter ahead inductionHypothesis =>
      obtain ⟨nonempty, short⟩ := valid filter List.mem_cons_self
      rw [List.length_cons] at room
      rw [List.flatMap_cons]
      by_cases goesOn : ahead ≠ [] ∧ mallocOk = true
      · obtain ⟨another, served⟩ := goesOn
        subst served
        obtain ⟨next, read, there⟩ : ∃ next, Parses allowAnonymous true s _ (.next next) ∧ _ :=
          parses_filter_more here (by omega) nonempty short another small
        rw [filtersLen_cons] at small
        obtain ⟨front, rest, refused, parts, parses⟩ := inductionHypothesis there another
          (fun other member => valid other (List.mem_cons_of_mem filter member)) (by omega) (by omega)
        refine ⟨encodeString filter ++ front, rest, refused, ?_, read.append parses⟩
        rw [parts, List.append_assoc]
      · have rejected : filter.length + 3 > s.remLen ∨ mallocOk = false := by
          by_cases last : ahead = []
          · left
            rw [here.remLen, last, filtersLen_cons]
            simp [filtersLen]
            omega
          · right
            simpa [last] using goesOn
        obtain ⟨refused, parses⟩ : ∃ refused, Parses allowAnonymous mallocOk s _ (.ret refused 1) :=
          parses_filterLength_rejected here.state short rejected
        refine ⟨encodeShort filter.length, filter ++ ahead.flatMap encodeString, refused, ?_, parses⟩
        rw [encodeString, List.append_assoc]

private theorem parses_unsubscribePacket {s : Session} (atHeader : s.state = .header)
    (idBits : packetId < 2 ^ 16) {filters : List (List Byte)} (nonempty : filters ≠ [])
    (room : filters.length ≤ maxNumTopics) (valid : ValidFilters filters) :
    ∃ front rest refused, unsubscribePacket packetId filters = front ++ rest ∧
      Parses allowAnonymous mallocOk s front (.ret refused 1) := by
  have small : 2 + filtersLen filters < 2 ^ 28 := by
    apply sum_lengths_small
    · intro length member
      obtain ⟨filter, inside, rfl⟩ := List.mem_map.mp member
      have short := (valid filter inside).2
      omega
    · rw [List.length_map]
      exact room
  obtain ⟨multiplier, begun⟩ : ∃ multiplier, Parses allowAnonymous mallocOk s _ _ :=
    parses_front_of_filters atHeader (.unsubscribe .packetId1) (.unsubscribe .topic0)
      (show bodyState .unsubscribe = some _ from rfl)
      (fun s b there => by simp [parserByte, there, unsubscribeByte])
      (fun s b there => by simp [parserByte, there, unsubscribeByte]) idBits small
  have start : AtFilter 0 filters { s with
      header := ⟨.unsubscribe, 0, 1, 0⟩, remLen := filtersLen filters, multiplier
      subscribe.packetId := packetId, subscribe.numFilters := 0, state := .unsubscribe .topic0 } :=
    ⟨rfl, rfl, rfl⟩
  obtain ⟨front, rest, refused, parts, parses⟩ :
      ∃ front rest refused, _ ∧ Parses allowAnonymous mallocOk _ front (.ret refused 1) :=
    parses_filters_rejected start nonempty valid (by omega) (by omega)
  refine ⟨_, rest, refused, ?_, begun.append parses⟩
  rw [unsubscribePacket, parts]
  simp only [List.append_assoc, List.cons_append]

section Rejection

variable {State : Type} {host : Host State} {At : Session → State → Prop} {s : Session} {state : State}

/-- No UNSUBSCRIBE with one to ten filters is accepted: over any host, whether or not it
serves the allocations, the packet is rejected with 1 and `on_recv_unsubscribe` is not
called. -/
theorem unsubscribe_rejected (answers : host.Answers mallocOk At) (stored : At s state)
    (atHeader : s.state = .header)
    (refuses : ∀ s state, At s state → ∃ later, (host.refused s).run state = (.ok (), later))
    {packetId : Nat} (idBits : packetId < 2 ^ 16) {filters : List (List Byte)} (nonempty : filters ≠ [])
    (room : filters.length ≤ maxNumTopics) (valid : ValidFilters filters) :
    ∃ later, (host.traced.mqttParserExecute (unsubscribePacket packetId filters)).run (state, []) =
      (.ok 1, later, []) := by
  obtain ⟨front, rest, refused, parts, parses⟩ :
      ∃ front rest refused, _ ∧ Parses host.allowAnonymous mallocOk s front (.ret refused 1) :=
    parses_unsubscribePacket atHeader idBits nonempty room valid
  rw [parts]
  exact answers.execute_ret stored parses (refuses refused) rest

/-- An UNSUBSCRIBE with two filters, rejected at the second. -/
theorem unsubscribe_rejected_two :
    ∃ later, ((Host.recorder false).traced.mqttParserExecute
        (unsubscribePacket 7 [[97], [98, 99]])).run (mqttParserInit, []) = (.ok 1, later, []) :=
  unsubscribe_rejected (Host.recorder_answers false) (Eq.refl mqttParserInit) rfl
    (fun _ state _ => ⟨state, rfl⟩) (by decide) (by simp) (by decide)
    (by unfold ValidFilters; decide)

/-- The shortest UNSUBSCRIBE. -/
theorem unsubscribe_not_accepted :
    ∃ later, ((Host.recorder false).traced.mqttParserExecute [0xa2, 5, 0, 1, 0, 1, 97]).run
      (mqttParserInit, []) = (.ok 1, later, []) :=
  ⟨_, rfl⟩

end Rejection

end FbBroker.Parser
