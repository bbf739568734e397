import FbBroker.Auth.AuthFb

/-!
Contract: exactly which topics the access check grants.

Owns, for a device, the user names that confine it to its own topics, and for a
user the topics it may publish to, whatever was asked before. The cache
`auth_info` is modelled here with its keys.

Does not own what a granted subscription receives.
-/

set_option autoImplicit false

namespace FbBroker.Auth

open FbBroker.Packet

variable {access : Access} {id : List Byte} {p : Principal}

/-! ### Devices -/

/-- A device client that is not a superuser. -/
structure IsDevice (p : Principal) : Prop where
  letter : p.username 0 = 'D'.toUInt8
  plain : p.isSuper = false

/-- The topics of the device with the given id. -/
def OwnTopic : Access → List Byte → List Byte → Prop
  | .sub, id, topic => topic = lit "flameboss/" ++ id ++ lit "/recv"
  | .pub, id, topic => ∃ level, level ≠ [] ∧ slash ∉ level ∧
      topic = lit "flameboss/" ++ id ++ lit "/send/" ++ level

/-- The longest id for which the pattern is not truncated. -/
def idRoom : Access → Nat
  | .sub => 112
  | .pub => 110

/-- The id has no wildcard and its pattern fits. -/
def PlainId (access : Access) (id : List Byte) : Prop :=
  plus ∉ id ∧ hash ∉ id ∧ id.length ≤ idRoom access

instance (access : Access) (id : List Byte) : Decidable (PlainId access id) :=
  inferInstanceAs (Decidable (_ ∧ _))

/-- Among the first 116 bytes of the id is a `#`, or a `+` that a byte of its level
follows. -/
def InertId (id : List Byte) : Prop :=
  ∃ i < 116, id[i]? = some hash ∨ id[i]? = some plus ∧ id[i + 1]?.any (· != slash) = true

/-- The id has no wildcard and its pattern fits, or it has one where it matches
nothing. -/
def Confined (access : Access) (id : List Byte) : Prop :=
  InertId id ∨ PlainId access id

/-- The part of a device's pattern behind the id. -/
def deviceEnd : Access → List Byte
  | .sub => lit "/recv"
  | .pub => lit "/send/+"

private theorem deviceTopic_eq (access : Access) (id : List Byte) :
    deviceTopic access id = (lit "flameboss/" ++ id ++ deviceEnd access).take 127 := by
  cases access <;> rfl

private theorem deviceTopic_of_room (room : id.length ≤ idRoom access) :
    deviceTopic access id = lit "flameboss/" ++ id ++ deviceEnd access := by
  rw [deviceTopic_eq]
  apply List.take_of_length_le
  have front : (lit "flameboss/").length = 10 := by decide
  have back : (deviceEnd access).length + idRoom access = 117 := by cases access <;> decide
  simp only [List.length_append]
  omega

theorem Principal.zero_notMem_id (p : Principal) : (0 : Byte) ∉ p.id :=
  zero_notMem_cstr _

private theorem cstr_deviceTopic (nulFree : (0 : Byte) ∉ id) (access : Access) :
    cstr (deviceTopic access id) = deviceTopic access id := by
  apply cstr_eq_self
  intro member
  rw [deviceTopic_eq] at member
  have whole := List.mem_of_mem_take member
  simp only [List.mem_append] at whole
  rcases whole with (front | inId) | back
  · exact absurd front (by decide)
  · exact nulFree inId
  · cases access <;> exact absurd back (by decide)

/-- The check of a device is one match. -/
theorem granted_device_iff {db : Database} (device : IsDevice p) {filter : List Byte} :
    (authAcl db p access filter).1 = 0 ↔
      topicMatchesLoop (deviceTopic access p.id) (dropLocal filter) = true := by
  have check : mqttTopicMatches (deviceTopic access p.id) filter =
      topicMatchesLoop (deviceTopic access p.id) (dropLocal filter) := by
    rw [mqttTopicMatches, cstr_deviceTopic p.zero_notMem_id]
  simp [authAcl, device.plain, aclDecide, device.letter, check]

/-- A pattern that fits and has no wildcard from the id matches the topics of
the device. -/
theorem matches_iff_ownTopic {id topic : List Byte} (plain : PlainId access id) :
    topicMatchesLoop (deviceTopic access id) topic = true ↔ OwnTopic access id topic := by
  obtain ⟨noPlus, noHash, room⟩ := plain
  have frontPlus : plus ∉ lit "flameboss/" ++ id := by
    rw [List.mem_append, not_or]
    exact ⟨by decide, noPlus⟩
  have frontHash : hash ∉ lit "flameboss/" ++ id := by
    rw [List.mem_append, not_or]
    exact ⟨by decide, noHash⟩
  rw [deviceTopic_of_room room]
  cases access with
  | sub =>
      have allPlus : plus ∉ lit "flameboss/" ++ id ++ lit "/recv" := by
        rw [List.mem_append, not_or]
        exact ⟨frontPlus, by decide⟩
      have allHash : hash ∉ lit "flameboss/" ++ id ++ lit "/recv" := by
        rw [List.mem_append, not_or]
        exact ⟨frontHash, by decide⟩
      exact topicMatchesLoop_plain allPlus allHash
  | pub =>
      have allPlus : plus ∉ lit "flameboss/" ++ id ++ lit "/send/" := by
        rw [List.mem_append, not_or]
        exact ⟨frontPlus, by decide⟩
      have allHash : hash ∉ lit "flameboss/" ++ id ++ lit "/send/" := by
        rw [List.mem_append, not_or]
        exact ⟨frontHash, by decide⟩
      have split : lit "flameboss/" ++ id ++ deviceEnd .pub =
          lit "flameboss/" ++ id ++ lit "/send/" ++ [plus] := by
        rw [List.append_assoc _ (lit "/send/")]
        rfl
      rw [split, topicMatchesLoop_lastLevel allPlus allHash]
      exact Iff.rfl

private theorem blocked_iff {pattern : List Byte} : blocked pattern = true ↔ ∃ i,
    pattern[i]? = some hash ∧ i + 1 < pattern.length ∨
      pattern[i]? = some plus ∧ pattern[i + 1]?.any (· != slash) = true := by
  induction pattern with
  | nil => simp [blocked]
  | cons f pattern inductionHypothesis =>
      rw [← Nat.or_exists_add_one]
      cases pattern with
      | nil => simp [blocked]
      | cons next rest =>
          simp only [List.getElem?_cons_succ, List.length_cons, Nat.add_lt_add_iff_right]
            at inductionHypothesis ⊢
          simp [blocked, ← inductionHypothesis]
          grind

/-- Whether the pattern of a device matches anything is up to its id: in front of it is no
wildcard, and behind it only one at the end. -/
theorem blocked_deviceTopic_iff :
    blocked (deviceTopic access id) = true ↔ InertId id := by
  have front : (lit "flameboss/").length = 10 := by decide
  have plain : ∀ i : Nat, i < 10 →
      (lit "flameboss/")[i]? ≠ some hash ∧ (lit "flameboss/")[i]? ≠ some plus := by decide
  have starts : (deviceEnd access)[0]? = some slash := by cases access <;> rfl
  have back : ∀ i : Nat, (deviceEnd access)[i]? ≠ some hash ∧
      ((deviceEnd access)[i]? = some plus → (deviceEnd access)[i + 1]? = none) := by
    intro i
    rcases Nat.lt_or_ge i 7 with inside | outside
    · cases access <;> revert i <;> decide
    · have short : (deviceEnd access).length ≤ i := by
        cases access
        · exact Nat.le_trans (by decide) outside
        · exact outside
      simp [List.getElem?_eq_none short]
  rw [deviceTopic_eq, blocked_iff, InertId]
  simp only [List.getElem?_take, List.append_assoc, List.getElem?_append, List.length_take,
    List.length_append, front]
  constructor
  · rintro ⟨i, holds⟩
    by_cases early : i < 10
    · grind
    obtain ⟨j, rfl⟩ : ∃ j, i = j + 10 := ⟨i - 10, by omega⟩
    have next : j + 10 + 1 - 10 = j + 1 := by omega
    rw [if_neg early, if_neg (show ¬j + 10 + 1 < 10 by omega), next, Nat.add_sub_cancel] at holds
    have here := back (j - id.length)
    by_cases last : j + 1 = id.length
    · rw [if_pos (show j < id.length by omega), if_neg (show ¬j + 1 < id.length by omega), last,
        Nat.sub_self, starts] at holds
      grind
    · by_cases inside : j < id.length <;> grind
  · rintro ⟨i, small, holds⟩
    refine ⟨i + 10, ?_⟩
    grind

private theorem length_ownTopic {id topic : List Byte}
    (own : OwnTopic access id topic) : id.length + 127 ≤ topic.length + idRoom access := by
  have front : (lit "flameboss/").length = 10 := by decide
  have recv : (lit "/recv").length = 5 := by decide
  have send : (lit "/send/").length = 6 := by decide
  cases access with
  | sub =>
      rw [show topic = _ from own]
      simp only [List.length_append, idRoom]
      omega
  | pub =>
      obtain ⟨level, some, -, rfl⟩ := own
      have := List.length_pos_iff.mpr some
      simp only [List.length_append, idRoom]
      omega

/-- With a level wildcard from the id doubled the topic is not the device's. -/
theorem not_ownTopic_doubled {front back : List Byte} :
    ¬OwnTopic access (front ++ plus :: back)
      (lit "flameboss/" ++ front ++ plus :: plus :: (back ++ deviceEnd access)) := by
  intro own
  cases access with
  | sub =>
      have lengths := congrArg List.length (show _ = _ from own)
      simp only [List.length_append, List.length_cons, deviceEnd] at lengths
      omega
  | pub =>
      obtain ⟨level, -, single, same⟩ := own
      -- the last level of the topic is one byte long, the level the device adds would be two
      have lengths := congrArg List.length same
      have two : level.length = 2 := by
        have send : (lit "/send/").length = 6 := by decide
        have back : (deviceEnd .pub).length = 7 := by decide
        simp only [List.length_append, List.length_cons] at lengths
        omega
      have ends : lit "flameboss/" ++ front ++ plus :: plus :: (back ++ deviceEnd .pub) =
          (lit "flameboss/" ++ front ++ plus :: plus :: (back ++ lit "/send")) ++ [slash, plus] := by
        simp [deviceEnd, lit, slash, plus]
      rw [ends] at same
      have last := (List.append_inj' same (by rw [two]; rfl)).2
      rw [← last] at single
      exact single (by simp)

/-- The check confines a device to its own topics exactly for these ids. -/
theorem confined_iff (access : Access) (id : List Byte) :
    (∀ topic, topicMatchesLoop (deviceTopic access id) topic = true → OwnTopic access id topic) ↔
      Confined access id := by
  rw [Confined, ← @blocked_deviceTopic_iff access]
  constructor
  · intro own
    by_cases isBlocked : blocked (deviceTopic access id) = true
    · exact .inl isBlocked
    rw [Bool.not_eq_true] at isBlocked
    -- a truncated pattern matches itself, which is too short for the device
    have room : id.length ≤ idRoom access := by
      by_contra tooLong
      have short := length_ownTopic (own _ (matches_self isBlocked))
      have cut : (deviceTopic access id).length ≤ 127 := by
        rw [deviceTopic_eq]
        exact List.length_take_le _ _
      omega
    refine .inr ⟨?_, ?_, room⟩
    · intro hasPlus
      obtain ⟨front, back, rfl⟩ := List.append_of_mem hasPlus
      rw [deviceTopic_of_room room] at isBlocked own
      have pattern : lit "flameboss/" ++ (front ++ plus :: back) ++ deviceEnd access =
          lit "flameboss/" ++ front ++ plus :: (back ++ deviceEnd access) := by simp
      rw [pattern] at isBlocked own
      exact not_ownTopic_doubled (own _ (matches_doubled isBlocked))
    · intro hasHash
      obtain ⟨i, inside, isHash⟩ := List.mem_iff_getElem.mp hasHash
      have short : i < 116 := by
        have : idRoom access ≤ 112 := by cases access <;> decide
        omega
      have inert : InertId id := ⟨i, short, .inl (List.getElem?_eq_some_iff.mpr ⟨inside, isHash⟩)⟩
      rw [blocked_deviceTopic_iff.mpr inert] at isBlocked
      cases isBlocked
  · intro confined topic matched
    rcases confined with isBlocked | plain
    · rw [not_matches_of_blocked isBlocked] at matched
      cases matched
    · exact (matches_iff_ownTopic plain).mp matched

/-- What follows the last separator is determined. -/
theorem append_slash_inj {left right level next : List Byte}
    (same : left ++ slash :: level = right ++ slash :: next) (single : slash ∉ level)
    (nextSingle : slash ∉ next) : left = right ∧ level = next := by
  have reversed := congrArg List.reverse same
  simp only [List.reverse_append, List.reverse_cons, List.append_assoc, List.singleton_append]
    at reversed
  have cut := congrArg (List.takeWhile (· != slash)) reversed
  have levelKept : ∀ byte ∈ level.reverse, (byte != slash) = true := by
    intro byte member
    simp only [List.mem_reverse, bne_iff_ne] at member ⊢
    rintro rfl
    exact single member
  have nextKept : ∀ byte ∈ next.reverse, (byte != slash) = true := by
    intro byte member
    simp only [List.mem_reverse, bne_iff_ne] at member ⊢
    rintro rfl
    exact nextSingle member
  rw [List.takeWhile_append_of_pos levelKept, List.takeWhile_append_of_pos nextKept] at cut
  have sameLevel : level = next := by simpa using cut
  subst sameLevel
  exact ⟨List.append_cancel_right same, rfl⟩

/-- A topic of two devices: their ids are the same, or one receives what the
other one sends. -/
theorem ownTopic_unique {access access' : Access} {id id' topic : List Byte}
    (own : OwnTopic access id topic) (own' : OwnTopic access' id' topic) :
    id = id' ∨ id = id' ++ lit "/send" ∨ id' = id ++ lit "/send" := by
  have send : lit "/send/" = lit "/send" ++ [slash] := by decide
  have recv : lit "/recv" = slash :: lit "recv" := by decide
  have crossed : ∀ {id id' : List Byte}, OwnTopic .sub id topic → OwnTopic .pub id' topic →
      id = id' ++ lit "/send" := by
    intro id id' receives sends
    obtain ⟨level, -, single, sends⟩ := sends
    have same : lit "flameboss/" ++ id ++ slash :: lit "recv" =
        lit "flameboss/" ++ (id' ++ lit "/send") ++ slash :: level := by
      rw [← recv, ← show topic = _ from receives, sends, send]
      simp
    have fronts := (append_slash_inj same (by decide) single).1
    exact List.append_cancel_left fronts
  cases access with
  | sub =>
      cases access' with
      | sub =>
          have same := (show topic = _ from own).symm.trans own'
          exact .inl (List.append_cancel_left (List.append_cancel_right same))
      | pub => exact .inr (.inl (crossed own own'))
  | pub =>
      cases access' with
      | sub => exact .inr (.inr (crossed own' own))
      | pub =>
          obtain ⟨level, -, single, sends⟩ := own
          obtain ⟨level', -, single', sends'⟩ := own'
          have same : lit "flameboss/" ++ id ++ lit "/send" ++ slash :: level =
              lit "flameboss/" ++ id' ++ lit "/send" ++ slash :: level' := by
            rw [send] at sends sends'
            simpa using sends.symm.trans sends'
          have fronts := (append_slash_inj same single single').1
          exact .inl (List.append_cancel_left (List.append_cancel_right fronts))

/-- The first device is granted to receive what the second one sends. -/
def Overhears (id id' : List Byte) : Prop :=
  id = id' ++ lit "/send" ∧ PlainId .sub id

instance (id id' : List Byte) : Decidable (Overhears id id') :=
  inferInstanceAs (Decidable (_ ∧ _))

/-- What a device overhears is a topic of both. -/
theorem Overhears.shared {id id' : List Byte} (overhears : Overhears id id') :
    ∃ topic, topicMatchesLoop (deviceTopic .sub id) topic = true ∧
      topicMatchesLoop (deviceTopic .pub id') topic = true := by
  obtain ⟨rfl, plain⟩ := overhears
  have send : (lit "/send").length = 5 := by decide
  have publishes : PlainId .pub id' := by
    obtain ⟨noPlus, noHash, room⟩ := plain
    simp only [List.mem_append, not_or, List.length_append, idRoom] at noPlus noHash room
    exact ⟨noPlus.1, noHash.1, by rw [idRoom]; omega⟩
  refine ⟨_, (matches_iff_ownTopic plain).mpr rfl, (matches_iff_ownTopic publishes).mpr ?_⟩
  refine ⟨lit "recv", by decide, by decide, ?_⟩
  have ends : lit "/send" ++ lit "/recv" = lit "/send/" ++ lit "recv" := by decide
  simp only [List.append_assoc, ends]

/-- A device is granted its own topics only, for each kind of access exactly if
its id is confined for it; a topic is granted to two confined devices exactly if
one of them overhears the other. -/
theorem device_isolation (db : Database) {p : Principal} (device : IsDevice p) :
    (∀ access, (∀ filter, (authAcl db p access filter).1 = 0 →
        OwnTopic access p.id (dropLocal filter)) ↔ Confined access p.id) ∧
      ∀ {p' : Principal}, IsDevice p' → p'.id ≠ p.id →
        (∀ access, Confined access p.id ∧ Confined access p'.id) →
        ((∃ access access' filter, (authAcl db p access filter).1 = 0 ∧
            (authAcl db p' access' filter).1 = 0) ↔ Overhears p.id p'.id ∨ Overhears p'.id p.id) := by
  constructor
  · intro access
    rw [← confined_iff]
    constructor
    · intro own topic matched
      have granted := own (lit "$local/" ++ topic)
      rw [granted_device_iff device, dropLocal_append] at granted
      exact granted matched
    · intro own filter granted
      exact own _ ((granted_device_iff device).mp granted)
  · intro p' device' different confined
    constructor
    · rintro ⟨access, access', filter, granted, granted'⟩
      rw [granted_device_iff device] at granted
      rw [granted_device_iff device'] at granted'
      have own := (confined_iff access p.id).mpr (confined access).1 _ granted
      have own' := (confined_iff access' p'.id).mpr (confined access').2 _ granted'
      -- a pattern that matches is not that of an inert id
      have alive : ∀ {id access topic}, topicMatchesLoop (deviceTopic access id) topic = true →
          ¬InertId id := by
        intro id access topic matched inert
        rw [not_matches_of_blocked (blocked_deviceTopic_iff.mpr inert)] at matched
        cases matched
      rcases ownTopic_unique own own' with same | longer | longer
      · exact absurd same.symm different
      · exact .inl ⟨longer, (confined .sub).1.resolve_left (alive granted)⟩
      · exact .inr ⟨longer, (confined .sub).2.resolve_left (alive granted')⟩
    · rintro (overhears | overhears)
      · obtain ⟨topic, receives, sends⟩ := overhears.shared
        refine ⟨.sub, .pub, lit "$local/" ++ topic, ?_, ?_⟩
        · rwa [granted_device_iff device, dropLocal_append]
        · rwa [granted_device_iff device', dropLocal_append]
      · obtain ⟨topic, receives, sends⟩ := overhears.shared
        refine ⟨.pub, .sub, lit "$local/" ++ topic, ?_, ?_⟩
        · rwa [granted_device_iff device, dropLocal_append]
        · rwa [granted_device_iff device', dropLocal_append]

/-- The client of a device with the user name `D-` and an id. -/
def deviceClient (id : List Byte) : Principal where
  username := fun i => (lit "D-" ++ id).getD i 0
  isSuper := false
  userIdStr := lit "0"
  ipAddress := []
  authInfo := false

/-- Two devices with ids as they are assigned. -/
theorem device_isolation_seven :
    (∀ filter, (authAcl (fun _ => .none) (deviceClient (lit "7")) .pub filter).1 = 0 →
        OwnTopic .pub (deviceClient (lit "7")).id (dropLocal filter)) ∧
      ¬∃ access access' filter,
        (authAcl (fun _ => .none) (deviceClient (lit "7")) access filter).1 = 0 ∧
          (authAcl (fun _ => .none) (deviceClient (lit "8")) access' filter).1 = 0 := by
  have plain : ∀ access, PlainId access (deviceClient (lit "7")).id ∧
      PlainId access (deviceClient (lit "8")).id := by
    intro access
    cases access <;> decide
  obtain ⟨own, shared⟩ := device_isolation (fun _ => .none)
    (⟨by decide, rfl⟩ : IsDevice (deviceClient (lit "7")))
  refine ⟨(own .pub).mpr (.inr (plain .pub).1), ?_⟩
  rw [shared (⟨by decide, rfl⟩ : IsDevice (deviceClient (lit "8"))) (by decide)
    fun access => ⟨.inr (plain access).1, .inr (plain access).2⟩]
  decide

/-- A device whose id is the wildcard is granted the topic of every other one; one
whose id fills the buffer is granted a topic with an empty level; and the device
`a/send` is granted what the device `a` sends. -/
theorem device_granted_foreign_topic :
    ((authAcl (fun _ => .none) (deviceClient (lit "+")) .sub (lit "flameboss/7/recv")).1 = 0 ∧
      (authAcl (fun _ => .none) (deviceClient (lit "7")) .sub (lit "flameboss/7/recv")).1 = 0) ∧
    (authAcl (fun _ => .none) (deviceClient (List.replicate 111 'x'.toUInt8)) .pub
      (lit "flameboss/" ++ List.replicate 111 'x'.toUInt8 ++ lit "/send/")).1 = 0 ∧
    (authAcl (fun _ => .none) (deviceClient (lit "a/send")) .sub (lit "flameboss/a/send/recv")).1 = 0 ∧
      (authAcl (fun _ => .none) (deviceClient (lit "a")) .pub (lit "flameboss/a/send/recv")).1 = 0 := by
  decide +kernel

/-! ### Users -/

/-- `p->auth_info`: no set, or the keys of the set. The keys are addresses of
topics, not their bytes. -/
abbrev AuthInfo := Option (List Nat)

def setCreate : List Nat := []

def setExists (keys : List Nat) (k : Nat) : Bool :=
  keys.contains k

/-- `auth_acl` with its cache, for a filter at the given address. -/
def authAclCached (db : Database) (p : Principal) (authInfo : AuthInfo) (access : Access)
    (address : Nat) (filter : List Byte) : Nat × AuthInfo :=
  if p.isSuper then (0, authInfo)
  else
    match access, authInfo with
    | .pub, none => (aclDecide db p access filter, some setCreate)
    | .pub, some keys =>
        if setExists keys address then (0, some keys)
        else (aclDecide db p access filter, some keys)
    | .sub, authInfo => (aclDecide db p access filter, authInfo)

/-- An earlier call for the same client. -/
structure Call where
  db : Database
  access : Access
  address : Nat
  filter : List Byte

/-- The cache after a sequence of calls. -/
def authInfoAfter (p : Principal) (authInfo : AuthInfo) (calls : List Call) : AuthInfo :=
  calls.foldl (fun authInfo call =>
    (authAclCached call.db p authInfo call.access call.address call.filter).2) authInfo

/-- Nothing was ever added. -/
def Unfilled (authInfo : AuthInfo) : Prop :=
  authInfo = none ∨ authInfo = some []

/-- A call with an unfilled cache decides as without one and adds nothing. -/
theorem authAclCached_unfilled {authInfo : AuthInfo} (unfilled : Unfilled authInfo)
    (db : Database) (access : Access) (address : Nat) (filter : List Byte) :
    (authAclCached db p authInfo access address filter).1 = (authAcl db p access filter).1 ∧
      Unfilled (authAclCached db p authInfo access address filter).2 := by
  unfold authAclCached authAcl
  split
  · exact ⟨rfl, unfilled⟩
  · cases access with
    | sub => exact ⟨rfl, unfilled⟩
    | pub =>
        rcases unfilled with rfl | rfl
        · exact ⟨rfl, .inr rfl⟩
        · exact ⟨rfl, .inr rfl⟩

private theorem authInfoAfter_unfilled {authInfo : AuthInfo}
    (unfilled : Unfilled authInfo) (calls : List Call) :
    Unfilled (authInfoAfter p authInfo calls) := by
  induction calls generalizing authInfo with
  | nil => exact unfilled
  | cons call calls inductionHypothesis =>
      exact inductionHypothesis
        (authAclCached_unfilled unfilled call.db call.access call.address call.filter).2

/-- A pattern around an id is matched by itself only. -/
theorem matches_row_iff {front id back filter : List Byte} (digits : DigitId 20 id)
    (room : front.length + back.length ≤ 100)
    (plain : ∀ byte ∈ front ++ back, byte ≠ 0 ∧ byte ≠ plus ∧ byte ≠ hash) :
    mqttTopicMatches (snprintf maxTopicLen (front ++ id ++ back)) filter = true ↔
      dropLocal filter = front ++ id ++ back := by
  have whole : snprintf maxTopicLen (front ++ id ++ back) = front ++ id ++ back := by
    apply List.take_of_length_le
    have short := digits.2
    simp only [List.length_append, maxTopicLen]
    omega
  have absent : ∀ {special : Byte}, ¬('0'.toUInt8 ≤ special ∧ special ≤ '9'.toUInt8) →
      special ∉ front ++ back → special ∉ front ++ id ++ back := by
    intro special notDigit outside
    simp only [List.mem_append, not_or] at outside ⊢
    exact ⟨⟨outside.1, digits.notMem notDigit⟩, outside.2⟩
  rw [whole, mqttTopicMatches, cstr_eq_self
    (absent (by decide) fun member => (plain 0 member).1 rfl)]
  exact topicMatchesLoop_plain (absent (by decide) fun member => (plain plus member).2.1 rfl)
    (absent (by decide) fun member => (plain hash member).2.2 rfl)

/-- The topics a user may publish to. -/
def PublishTopic (ids : List (List Byte)) (topic : List Byte) : Prop :=
  (∃ level, level ≠ [] ∧ slash ∉ level ∧ topic = lit "flameboss/relay/" ++ level) ∨
    ∃ id ∈ ids, topic = lit "flameboss/" ++ id ++ lit "/recv" ∨
      topic = lit "flameboss/mqttr/" ++ id ++ lit "/recv"

/-- The rows of a database answer with the ids in one column. -/
def idRows (ids : List (List Byte)) : Answer :=
  .result 1 (ids.map fun id => [some id])

private theorem deviceIds_idRows (ids : List (List Byte)) : deviceIds (idRows ids) = ids := by
  show (ids.map fun id => [some id]).map (fun row => columnText (row.headD none)) = ids
  rw [List.map_map]
  exact List.map_id ids

/-- The query fits into its buffer, so the rows are those of the database. -/
theorem userDevices_idRows {db : Database} {ids : List (List Byte)}
    (idFits : p.userIdStr.length < userIdSize) (rows : db (aclQuery p.userIdStr) = idRows ids) :
    userDevices db p = ids := by
  have queryLength : (aclQuery []).length = 52 := by decide
  have fits : ¬(aclQuery p.userIdStr).length ≥ maxQueryLen := by
    simp only [aclQuery, List.length_append, List.append_nil, userIdSize, maxQueryLen]
      at queryLength idFits ⊢
    omega
  simp only [userDevices, fits, if_false, rows, deviceIds_idRows]

private theorem matches_relay_iff (topic : List Byte) :
    mqttTopicMatches (lit "flameboss/relay/+") topic = true ↔
      ∃ level, level ≠ [] ∧ slash ∉ level ∧ dropLocal topic = lit "flameboss/relay/" ++ level := by
  have split : cstr (lit "flameboss/relay/+") = lit "flameboss/relay/" ++ [plus] := by decide
  rw [mqttTopicMatches, split]
  exact topicMatchesLoop_lastLevel (by decide) (by decide)

private theorem any_rowTopics_iff (digits : DigitId 20 id) (topic : List Byte) :
    ((rowTopics .pub id).any fun pattern => mqttTopicMatches pattern topic) = true ↔
      dropLocal topic = lit "flameboss/" ++ id ++ lit "/recv" ∨
        dropLocal topic = lit "flameboss/mqttr/" ++ id ++ lit "/recv" := by
  have recv : mqttTopicMatches (snprintf maxTopicLen (lit "flameboss/" ++ id ++ lit "/recv"))
      topic = true ↔ dropLocal topic = lit "flameboss/" ++ id ++ lit "/recv" :=
    matches_row_iff digits (by decide) (by decide +kernel)
  have mqttr : mqttTopicMatches
      (snprintf maxTopicLen (lit "flameboss/mqttr/" ++ id ++ lit "/recv")) topic = true ↔
        dropLocal topic = lit "flameboss/mqttr/" ++ id ++ lit "/recv" :=
    matches_row_iff digits (by decide) (by decide +kernel)
  rw [rowTopics, List.any_cons, List.any_cons, List.any_cons, List.any_nil, Bool.or_false,
    Bool.or_eq_true, Bool.or_eq_true, recv, mqttr, or_self_left]

/-- After any earlier calls for the client, publishing is granted to a user
exactly for the relay topics and the topics of the user's devices. -/
theorem user_publish_exact {db : Database} {p : Principal} {ids : List (List Byte)}
    (plain : p.isSuper = false) (user : p.username 0 ≠ 'D'.toUInt8)
    (idFits : p.userIdStr.length < userIdSize) (digits : ∀ id ∈ ids, DigitId 20 id)
    (rows : db (aclQuery p.userIdStr) = idRows ids) (calls : List Call) (address : Nat)
    (topic : List Byte) :
    (authAclCached db p (authInfoAfter p none calls) .pub address topic).1 = 0 ↔
      PublishTopic ids (dropLocal topic) := by
  rw [(authAclCached_unfilled (authInfoAfter_unfilled (.inl rfl) calls) db .pub address topic).1]
  have anyRow : (ids.any fun id => (rowTopics .pub id).any fun pattern =>
      mqttTopicMatches pattern topic) = true ↔
        ∃ id ∈ ids, dropLocal topic = lit "flameboss/" ++ id ++ lit "/recv" ∨
          dropLocal topic = lit "flameboss/mqttr/" ++ id ++ lit "/recv" := by
    rw [List.any_eq_true]
    constructor
    · rintro ⟨id, present, here⟩
      exact ⟨id, present, (any_rowTopics_iff (digits id present) topic).mp here⟩
    · rintro ⟨id, present, here⟩
      exact ⟨id, present, (any_rowTopics_iff (digits id present) topic).mpr here⟩
  unfold PublishTopic
  rw [← matches_relay_iff, ← anyRow, authAcl, plain, if_neg (by decide), aclDecide, if_neg user,
    userDevices_idRows idFits rows, publicTopics, List.any_cons, List.any_nil, Bool.or_false]
  generalize mqttTopicMatches _ topic = onRelay
  generalize List.any ids _ = inRow
  cases onRelay <;> cases inRow <;> simp

/-- The client of a user with the given user name and id. -/
def userClient (username userIdStr : List Byte) : Principal where
  username := fun i => username.getD i 0
  isSuper := false
  userIdStr := userIdStr
  ipAddress := []
  authInfo := false

/-- A user with one device, asked twice. -/
theorem user_publish_exact_one_device :
    (authAclCached (fun _ => idRows [lit "12"]) (userClient (lit "U-a") (lit "5"))
      (authInfoAfter (userClient (lit "U-a") (lit "5")) none
        [⟨fun _ => idRows [lit "12"], .pub, 0, lit "flameboss/13/recv"⟩])
      .pub 0 (lit "flameboss/12/recv")).1 = 0 := by
  apply (user_publish_exact rfl (by decide) (by decide) (show ∀ id ∈ [lit "12"], DigitId 20 id by decide +kernel)
    rfl _ 0 (lit "flameboss/12/recv")).mpr
  exact .inr ⟨lit "12", by simp, .inl (by decide)⟩

end FbBroker.Auth
