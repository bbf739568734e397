import FbBroker.Auth.Independence

/-!
Contract: what a login that `auth_auth` accepts has shown.

Owns the query of a user name, and the logins for which acceptance means that this
query was answered with the password in its first row. Two are accepted otherwise:
device 0 from an address the database does not list, and a name without a case in
the switch whose password answers the query of whoever logged in before.

Does not own what the database answers.
-/

set_option autoImplicit false

namespace FbBroker.Auth

/-- The query for a user name. -/
def ownQuery (p : Principal) : Option (List Byte) :=
  if HasCase p then some (authQuery p []) else none

/-- The first row of the answer has this password in its first column. -/
def Answer.Shows (password : List Byte) : Answer → Prop
  | .result _ (row :: _) => row.headD Option.none = some password
  | _ => False

/-- An acceptance means that the query for the client's own user name was answered with the
password it presented. -/
def ChecksPassword (db : Database) (p : Principal) (q password : List Byte) : Prop :=
  ∀ result, authAuth db p q password = .ok result → result.rv = 0 →
    ∃ query, ownQuery p = some query ∧ (db query).Shows password

/-- An answer that lists nobody: columns enough, and no row. -/
def Answer.unlisted : Answer → Bool
  | .result numFields [] => 2 ≤ numFields
  | _ => false

/-- The first row of an answer that is taken for a login with this password: its other two
columns can be read. -/
def Answer.admits (password : List Byte) : Answer → Bool
  | .result numFields (row :: _) =>
      2 ≤ numFields && row.headD Option.none = some password &&
        match acceptRow numFields row [] with
        | .ok _ => true
        | .error _ => false
  | _ => false

/-- The login is refused without a query; or the name has a query, which for device 0 lists
its address; or the query left in the buffer is not answered with this password. -/
def Asked (db : Database) (p : Principal) (q password : List Byte) : Prop :=
  RefusedUnasked p password ∨
    if HasCase p then ¬ (isDevice0 p = true ∧ (db (authQuery p [])).unlisted = true)
    else (db q).admits password = false

instance (db : Database) (p : Principal) (q password : List Byte) : Decidable (Asked db p q password) := by
  unfold Asked
  infer_instance

/-! ### Accepted logins -/

private theorem acceptRow_rv {numFields : Nat} {row : List (Option (List Byte))} {q : List Byte}
    {result : AuthResult} (accepted : acceptRow numFields row q = .ok result) : result.rv = 0 := by
  unfold acceptRow at accepted
  split at accepted
  · cases accepted
  · split at accepted
    · cases accepted
    · split at accepted
      · cases accepted
      · split at accepted
        · exact (Except.ok.inj accepted) ▸ rfl
        · cases accepted

/-- Whether a row can be read does not depend on the buffer. -/
theorem acceptRow_ok_iff {numFields : Nat} {row : List (Option (List Byte))} (q q' : List Byte) :
    (∃ result, acceptRow numFields row q = .ok result) ↔ ∃ result, acceptRow numFields row q' = .ok result := by
  unfold acceptRow
  split
  · simp
  · split
    · simp
    · split
      · simp
      · split <;> simp

private theorem admits_iff {password : List Byte} {answer : Answer} (q : List Byte) :
    answer.admits password = true ↔ ∃ numFields row rows, answer = .result numFields (row :: rows) ∧
      2 ≤ numFields ∧ row.headD none = some password ∧ ∃ result, acceptRow numFields row q = .ok result := by
  cases answer with
  | error => simp [Answer.admits]
  | none => simp [Answer.admits]
  | result numFields rows =>
      cases rows with
      | nil => simp [Answer.admits]
      | cons row rows =>
          have readable : (match acceptRow numFields row [] with | .ok _ => true | .error _ => false) = true ↔
              ∃ result, acceptRow numFields row q = .ok result := by
            rw [acceptRow_ok_iff q []]
            cases acceptRow numFields row [] <;> simp
          simp only [Answer.admits, Bool.and_eq_true, decide_eq_true_eq, readable]
          constructor
          · rintro ⟨⟨columns, shows⟩, reads⟩
            exact ⟨numFields, row, rows, rfl, columns, shows, reads⟩
          · rintro ⟨_, _, _, same, columns, shows, reads⟩
            obtain ⟨rfl, rfl, rfl⟩ : numFields = _ ∧ row = _ ∧ rows = _ := by simpa using same
            exact ⟨⟨columns, shows⟩, reads⟩

/-- What an accepted login comes from: a first row with the password, or no row for device 0. -/
theorem authAuth_accepts_iff {db : Database} {p : Principal} {q password : List Byte} :
    (∃ result, authAuth db p q password = .ok result ∧ result.rv = 0) ↔
      ¬ RefusedUnasked p password ∧ ((db (authQuery p q)).admits password = true ∨
        isDevice0 p = true ∧ (db (authQuery p q)).unlisted = true) := by
  by_cases refused : RefusedUnasked p password
  · have fails : authAuth db p q password = .ok ⟨1, p.isSuper, p.userIdStr, q⟩ := by
      unfold authAuth
      exact if_pos refused
    simp [fails, refused]
  · have asked := refused
    rw [RefusedUnasked] at asked
    rw [authAuth]
    dsimp only
    rw [if_neg asked, admits_iff (authQuery p q)]
    simp only [refused, not_false_eq_true, true_and]
    cases db (authQuery p q) with
    | error => simp [Answer.unlisted]
    | none => simp [Answer.unlisted]
    | result numFields rows =>
        by_cases columns : numFields < 2
        · cases rows <;> simp [columns, Answer.unlisted]
        · cases rows with
          | nil =>
              by_cases device : isDevice0 p = true
              · simp [columns, device, Answer.unlisted, Nat.le_of_not_lt columns]
              · simp [columns, device, Answer.unlisted]
          | cons row rows =>
              by_cases shows : row.headD none = some password
              · simp only [columns, if_false, shows, if_true, Answer.unlisted, Bool.false_eq_true, and_false,
                  or_false]
                constructor
                · rintro ⟨result, accepted, -⟩
                  exact ⟨numFields, row, rows, rfl, Nat.le_of_not_lt columns, shows, result, accepted⟩
                · rintro ⟨_, _, _, same, -, -, result, accepted⟩
                  obtain ⟨rfl, rfl, rfl⟩ : numFields = _ ∧ row = _ ∧ rows = _ := by simpa using same
                  exact ⟨result, accepted, acceptRow_rv accepted⟩
              · simp only [columns, if_false, shows, Answer.unlisted, Bool.false_eq_true, and_false, or_false,
                  Except.ok.injEq]
                constructor
                · rintro ⟨result, rfl, zero⟩
                  exact absurd zero Nat.one_ne_zero
                · rintro ⟨_, _, _, same, -, presents, -⟩
                  obtain ⟨rfl, rfl, rfl⟩ : numFields = _ ∧ row = _ ∧ rows = _ := by simpa using same
                  exact absurd presents shows

private theorem shows_of_admits {password : List Byte} {answer : Answer} (admits : answer.admits password = true) :
    answer.Shows password := by
  obtain ⟨numFields, row, rows, rfl, -, shows, -⟩ := (admits_iff []).mp admits
  exact shows

private theorem not_shows_of_unlisted {password : List Byte} {answer : Answer} (unlisted : answer.unlisted = true) :
    ¬ answer.Shows password := by
  cases answer with
  | error => exact not_false
  | none => exact not_false
  | result numFields rows =>
      cases rows with
      | nil => exact not_false
      | cons row rows => simp [Answer.unlisted] at unlisted

/-- Device 0. -/
def deviceZero : Principal :=
  ⟨fun i => (lit "D-0").getD i 0, false, [], lit "10.0.0.1", false⟩

end FbBroker.Auth
