import FbBroker.Auth.AuthFb

/-!
Contract: what earlier logins of a worker mean for the next one.

Owns sequences of `auth_auth` calls over the query buffer of one worker, and the
user names for which the outcome of a login does not depend on such a sequence.
For a first letter without a case in the switch the query of whoever logged in
before is sent again.

Does not own the database: it is any function from query texts to answers.
-/

set_option autoImplicit false

namespace FbBroker.Auth

/-- A call of `auth_auth` for a client. -/
structure Login where
  client : Principal
  password : List Byte

/-- The query buffer behind a sequence of logins. -/
def logins (db : Database) : List Byte → List Login → Except Fault (List Byte)
  | q, [] => .ok q
  | q, login :: rest =>
      match authAuth db login.client q login.password with
      | .ok result => logins db result.q rest
      | .error fault => .error fault

/-- What a login returns and stores for its client. -/
def stored (result : Except Fault AuthResult) : Except Fault (Nat × Bool × List Byte) :=
  result.map fun result => (result.rv, result.isSuper, result.userIdStr)

/-- The outcome of a login is the same behind any two sequences of logins that the
worker has served, whatever the buffer held at first. -/
def IndependentOfOthers (p : Principal) (password : List Byte) : Prop :=
  ∀ (db : Database) (initial first second : List Byte) (earlier earlier' : List Login),
    logins db initial earlier = .ok first → logins db initial earlier' = .ok second →
      stored (authAuth db p first password) = stored (authAuth db p second password)

/-- The switch has a case for the first letter. -/
def HasCase (p : Principal) : Prop :=
  p.username 0 = 'U'.toUInt8 ∨ p.username 0 = 'D'.toUInt8 ∨ p.username 0 = 'T'.toUInt8

instance (p : Principal) : Decidable (HasCase p) :=
  inferInstanceAs (Decidable (_ ∨ _))

/-- The user name has no name behind its letter, or the password is empty. -/
def RefusedUnasked (p : Principal) (password : List Byte) : Prop :=
  p.username 0 = 0 ∨ p.username 1 ≠ '-'.toUInt8 ∨ p.username 2 = 0 ∨ password = []

instance (p : Principal) (password : List Byte) : Decidable (RefusedUnasked p password) :=
  inferInstanceAs (Decidable (_ ∨ _))

/-- The login is refused without a query, or the user name has a query of its own. -/
def HasOwnQuery (p : Principal) (password : List Byte) : Prop :=
  RefusedUnasked p password ∨ HasCase p

instance (p : Principal) (password : List Byte) : Decidable (HasOwnQuery p password) :=
  inferInstanceAs (Decidable (_ ∨ _))

/-! ### Own queries -/

theorem authQuery_own {p : Principal} (letter : HasCase p) (q q' : List Byte) :
    authQuery p q = authQuery p q' := by
  unfold authQuery
  rcases letter with user | device | token
  · simp [user]
  · simp [device]
  · simp [token]

theorem authQuery_stale {p : Principal} (other : ¬HasCase p) (q : List Byte) : authQuery p q = q := by
  obtain ⟨user, rest⟩ := not_or.mp other
  obtain ⟨device, token⟩ := not_or.mp rest
  simp only [authQuery, user, device, token, if_false]

/-- The buffer matters through the query only. -/
theorem stored_authAuth_congr {db : Database} {p : Principal} {q q' password : List Byte}
    (same : authQuery p q = authQuery p q') :
    stored (authAuth db p q password) = stored (authAuth db p q' password) := by
  unfold authAuth
  simp only
  split
  · rfl
  · rw [same]

/-! ### Queries of others -/

/-- A user of a given name. -/
def userNamed (name : Byte) : Principal where
  username
    | 0 => 'U'.toUInt8
    | 1 => '-'.toUInt8
    | 2 => name
    | _ => 0
  isSuper := false
  userIdStr := []
  ipAddress := []
  authInfo := false

/-- The query of that user. -/
def queryNamed (name : Byte) : List Byte :=
  lit "select api_token, admin, id from users where username = '" ++ [name] ++ lit "'"

private theorem authQuery_userNamed {name : Byte} (letter : name = 97 ∨ name = 98) (q : List Byte) :
    authQuery (userNamed name) q = queryNamed name := by
  rw [authQuery_own (.inl rfl) q []]
  rcases letter with first | second
  · subst name
    decide +kernel
  · subst name
    decide +kernel

/-- A database that knows one user, an administrator. -/
def knowsOnly (name : Byte) (password : List Byte) : Database :=
  fun q => if q = queryNamed name then .result 3 [[some password, some (lit "1"), some (lit "7")]]
    else .result 3 []

section Stale

variable {p : Principal} {q password : List Byte} {name : Byte}

/-- A login that sends the query of the user whom the database knows. -/
theorem authAuth_known (checked : ¬RefusedUnasked p password) (asks : authQuery p q = queryNamed name) :
    authAuth (knowsOnly name password) p q password = .ok ⟨0, true, lit "7", queryNamed name⟩ := by
  have accepts : acceptRow 3 [some password, some (lit "1"), some (lit "7")] (queryNamed name) =
      .ok ⟨0, true, lit "7", queryNamed name⟩ := by
    unfold acceptRow
    rfl
  unfold RefusedUnasked at checked
  unfold authAuth
  simp [checked, asks, knowsOnly, accepts]

/-- A login that sends another query. -/
theorem authAuth_unknown (checked : ¬RefusedUnasked p password)
    (asks : authQuery p q ≠ queryNamed name) (user : p.username 0 ≠ 'D'.toUInt8) :
    authAuth (knowsOnly name password) p q password =
      .ok ⟨1, p.isSuper, p.userIdStr, authQuery p q⟩ := by
  have notDevice : isDevice0 p = false := by simp [isDevice0, user]
  unfold RefusedUnasked at checked
  unfold authAuth
  simp [checked, asks, knowsOnly, notDevice]

end Stale

/-- The outcome of a login does not depend on the logins of others exactly if it is
refused without a query or the user name has a query of its own. -/
theorem login_independent_iff (p : Principal) (password : List Byte) :
    IndependentOfOthers p password ↔ HasOwnQuery p password := by
  constructor
  · intro independent
    by_contra notOwn
    obtain ⟨checked, other⟩ := not_or.mp notOwn
    have nonempty : password ≠ [] := fun empty => checked (.inr (.inr (.inr empty)))
    have checkedUser : ∀ name : Byte, name = 97 ∨ name = 98 →
        ¬RefusedUnasked (userNamed name) password := by
      intro name letter
      rcases letter with first | second
      · subst name
        simp only [RefusedUnasked, nonempty, or_false]
        decide
      · subst name
        simp only [RefusedUnasked, nonempty, or_false]
        decide
    have different : queryNamed 98 ≠ queryNamed 97 := by decide
    have known : logins (knowsOnly 97 password) [] [⟨userNamed 97, password⟩] = .ok (queryNamed 97) := by
      rw [logins, authAuth_known (checkedUser 97 (.inl rfl)) (authQuery_userNamed (.inl rfl) [])]
      rfl
    have unknown : logins (knowsOnly 97 password) [] [⟨userNamed 98, password⟩] = .ok (queryNamed 98) := by
      have asks : authQuery (userNamed 98) [] = queryNamed 98 := authQuery_userNamed (.inr rfl) []
      rw [logins, authAuth_unknown (checkedUser 98 (.inr rfl)) (by rw [asks]; exact different) (by decide), asks]
      rfl
    have same := independent _ _ _ _ _ _ known unknown
    have notDevice : p.username 0 ≠ 'D'.toUInt8 := fun device => other (.inr (.inl device))
    rw [authAuth_known checked (authQuery_stale other _),
      authAuth_unknown checked (by rw [authQuery_stale other]; exact different) notDevice] at same
    simp [stored, Except.map] at same
  · intro own db initial first second earlier earlier' _ _
    rcases own with refused | letter
    · unfold RefusedUnasked at refused
      unfold authAuth
      simp only [if_pos refused]
      rfl
    · exact stored_authAuth_congr (authQuery_own letter first second)

/-- A client whose name has no case in the switch. -/
def stranger : Principal :=
  ⟨fun i => (lit "X-x").getD i 0, false, [], [], false⟩

/-- It becomes the administrator who failed to log in before. -/
theorem login_depends_on_others :
    (∃ q, logins (knowsOnly 97 (lit "p")) [] [⟨userNamed 97, lit "wrong"⟩] = .ok q ∧
      stored (authAuth (knowsOnly 97 (lit "p")) stranger q (lit "p")) = .ok (0, true, lit "7")) ∧
    ∃ q, logins (knowsOnly 97 (lit "p")) [] [⟨userNamed 98, lit "wrong"⟩] = .ok q ∧
      stored (authAuth (knowsOnly 97 (lit "p")) stranger q (lit "p")) = .ok (1, false, []) :=
  ⟨⟨queryNamed 97, by decide +kernel, by decide +kernel⟩,
    ⟨queryNamed 98, by decide +kernel, by decide +kernel⟩⟩

end FbBroker.Auth
