import FbBroker.Packet.TopicMatches

/-!
Contract: authentication and access control of `auth_fb.c`.

Owns `auth_auth` and `auth_acl` over the answers of the database. A query is
the text the code builds; the database is any function from query texts to
answers.

Does not own the database connection, nor the set that caches publish rights:
`set_add` has no caller, so a set that exists is empty and `set_exists` is
always false.
-/

set_option autoImplicit false

namespace FbBroker.Auth

open FbBroker.Packet

def maxTopicLen : Nat := 127
def maxIdLen : Nat := 127
def maxQueryLen : Nat := 256

/-- `auth_access_et`. -/
inductive Access where
  | sub
  | pub
deriving DecidableEq, Repr

/-- The outcome of `mysql_query` and `mysql_store_result`; a column of a row may
be null. -/
inductive Answer where
  | error
  | none
  | result (numFields : Nat) (rows : List (List (Option (List Byte))))
deriving DecidableEq, Repr

abbrev Database := List Byte → Answer

/-- The fields of `client_st` that the module reads. -/
structure Principal where
  /-- the array `p->username` -/
  username : Nat → Byte
  isSuper : Bool
  /-- the string `p->user_id_str` -/
  userIdStr : List Byte
  /-- the string `p->ip_address` -/
  ipAddress : List Byte
  /-- `p->auth_info != NULL` -/
  authInfo : Bool

/-- The string that starts at an index of a byte array of the given size. -/
def stringAt (size : Nat) (buffer : Nat → Byte) (start : Nat) : List Byte :=
  cstr ((List.range (size - start)).map fun i => buffer (start + i))

/-- `&p->username[2]`. -/
def Principal.id (p : Principal) : List Byte :=
  stringAt (maxIdLen + 1) p.username 2

/-- What `snprintf` leaves in a buffer of the given size. -/
def snprintf (size : Nat) (text : List Byte) : List Byte :=
  text.take (size - 1)

/-- A column printed with `%s`. -/
def columnText : Option (List Byte) → List Byte
  | some text => text
  | none => lit "(null)"

/-! ### `auth_acl` -/

/-- The topics every user has access to. -/
def publicTopics : Access → List (List Byte)
  | .pub => [lit "flameboss/relay/+"]
  | .sub => [lit "flameboss/+/send/time", lit "flameboss/+/send/open"]

/-- The pattern a device is held to. -/
def deviceTopic : Access → List Byte → List Byte
  | .sub, id => snprintf (maxTopicLen + 1) (lit "flameboss/" ++ id ++ lit "/recv")
  | .pub, id => snprintf (maxTopicLen + 1) (lit "flameboss/" ++ id ++ lit "/send/+")

/-- The patterns tried for one device of a user, in order. -/
def rowTopics : Access → List Byte → List (List Byte)
  | .sub, id =>
      [snprintf maxTopicLen (lit "flameboss/" ++ id ++ lit "/send/+"),
        snprintf maxTopicLen (lit "flameboss/relay/" ++ id ++ lit "/recv"),
        snprintf maxTopicLen (lit "flameboss/mqttr/" ++ id ++ lit "/send")]
  | .pub, id =>
      [snprintf maxTopicLen (lit "flameboss/" ++ id ++ lit "/recv"),
        snprintf maxTopicLen (lit "flameboss/" ++ id ++ lit "/recv"),
        snprintf maxTopicLen (lit "flameboss/mqttr/" ++ id ++ lit "/recv")]

def aclQuery (userIdStr : List Byte) : List Byte :=
  lit "SELECT device_id FROM devices_users WHERE user_id = " ++ userIdStr

/-- The device ids a database answer gives the loop over its rows. -/
def deviceIds : Answer → List (List Byte)
  | .result 1 rows => rows.map fun row => columnText (row.headD none)
  | _ => []

/-- The ids the database returns for a user. -/
def userDevices (db : Database) (p : Principal) : List (List Byte) :=
  let q := aclQuery p.userIdStr
  if q.length ≥ maxQueryLen then [] else deviceIds (db q)

/-- A device id of the database: decimal digits, at most so many. -/
def DigitId (bound : Nat) (id : List Byte) : Prop :=
  (∀ byte ∈ id, '0'.toUInt8 ≤ byte ∧ byte ≤ '9'.toUInt8) ∧ id.length ≤ bound

instance (bound : Nat) (id : List Byte) : Decidable (DigitId bound id) :=
  inferInstanceAs (Decidable (_ ∧ _))

theorem DigitId.notMem {bound : Nat} {id : List Byte} (digits : DigitId bound id) {byte : Byte}
    (other : ¬('0'.toUInt8 ≤ byte ∧ byte ≤ '9'.toUInt8)) : byte ∉ id :=
  fun member => other (digits.1 byte member)

/-- The part of `auth_acl` behind the cache: 0 if the access is allowed. -/
def aclDecide (db : Database) (p : Principal) (access : Access) (filter : List Byte) : Nat :=
  if p.username 0 = 'D'.toUInt8 then
    if mqttTopicMatches (deviceTopic access p.id) filter then 0 else 1
  else if (publicTopics access).any fun topic => mqttTopicMatches topic filter then 0
  else if (userDevices db p).any fun id =>
      (rowTopics access id).any fun topic => mqttTopicMatches topic filter then 0
  else 1

/-- `auth_acl` for a filter or topic of the given bytes, `filter_len` of them:
0 if the access is allowed, and whether `p->auth_info` is allocated then. -/
def authAcl (db : Database) (p : Principal) (access : Access) (filter : List Byte) : Nat × Bool :=
  if p.isSuper then (0, p.authInfo)
  else (aclDecide db p access filter, p.authInfo || access = .pub)

/-- The decision depends on the user name and the user id only. -/
theorem aclDecide_congr {db : Database} {p p' : Principal} (username : p'.username = p.username)
    (userIdStr : p'.userIdStr = p.userIdStr) (access : Access) (filter : List Byte) :
    aclDecide db p' access filter = aclDecide db p access filter := by
  unfold aclDecide userDevices Principal.id
  rw [username, userIdStr]

/-! ### `auth_auth` -/

def device0Password : List Byte := lit "Icor6ekfmHO1"

def isDevice0 (p : Principal) : Bool :=
  p.username 0 = 'D'.toUInt8 && (p.username 2 = '0'.toUInt8 && p.username 3 = 0)

/-- The query for a user name; for a first letter without a case in the switch
the buffer keeps the previous query of the thread. -/
def authQuery (p : Principal) (q : List Byte) : List Byte :=
  if p.username 0 = 'U'.toUInt8 then
    snprintf maxQueryLen
      (lit "select api_token, admin, id from users where username = '" ++ p.id ++ lit "'")
  else if p.username 0 = 'D'.toUInt8 then
    if isDevice0 p then
      snprintf maxQueryLen (lit "SELECT '" ++ device0Password ++
        lit "', 0, 0 FROM production_ips WHERE address = '" ++ p.ipAddress ++ lit "'")
    else
      snprintf maxQueryLen
        (lit "SELECT SUBSTR(aes_key, 1, 12), 0, 0 FROM devices WHERE id = '" ++ p.id ++ lit "';")
  else if p.username 0 = 'T'.toUInt8 then
    snprintf maxQueryLen (lit "SELECT api_token, admin, id FROM users WHERE id = " ++ p.id)
  else q

/-- What `auth_auth` leaves behind when it returns. -/
structure AuthResult where
  rv : Nat
  isSuper : Bool
  userIdStr : List Byte
  /-- the thread's query buffer -/
  q : List Byte
deriving DecidableEq, Repr

def userIdSize : Nat := 20

/-- The row of a matching password: `is_super` from the second column and
`user_id_str` from the third. -/
def acceptRow (numFields : Nat) (row : List (Option (List Byte))) (q : List Byte) :
    Except Fault AuthResult :=
  match row.getD 1 none with
  | none => .error .nullPointer
  | some admin =>
      if numFields < 3 then .error .outOfBounds
      else
        match row.getD 2 none with
        | none => .error .nullPointer
        | some id =>
            if id.length < userIdSize then
              .ok { rv := 0, isSuper := admin = lit "1", userIdStr := id, q }
            else .error .outOfBounds

/-- `auth_auth`. -/
def authAuth (db : Database) (p : Principal) (q password : List Byte) : Except Fault AuthResult :=
  let failed (q : List Byte) : AuthResult :=
    { rv := 1, isSuper := p.isSuper, userIdStr := p.userIdStr, q }
  if p.username 0 = 0 ∨ p.username 1 ≠ '-'.toUInt8 ∨ p.username 2 = 0 ∨ password = [] then
    .ok (failed q)
  else
    let q := authQuery p q
    match db q with
    | .error => .ok (failed q)
    | .none => .ok (failed q)
    | .result numFields rows =>
        if numFields < 2 then .ok (failed q)
        else
          match rows with
          | row :: _ =>
              if row.headD none = some password then acceptRow numFields row q
              else .ok (failed q)
          | [] =>
              -- an unknown address of device 0 is logged and accepted
              if isDevice0 p then .ok { failed q with rv := 0 } else .ok (failed q)

end FbBroker.Auth
