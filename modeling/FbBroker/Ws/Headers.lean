import FbBroker.Parser.Session

/-!
Contract: the upgrade headers that `client_ws.c` takes from an HTTP request.

Owns `http_on_header_field` and `http_on_header_value` with the arrays they fill, every
way the HTTP parser cuts names and values into calls, and the cuts under which the two
headers of the upgrade are captured. The terminator of a name is written behind the
length of the fragment instead of the length of the name, so a later fragment of a
name cuts the name itself.

Does not own the parser of `http_parser.c`: here it is a list of calls, the
fragments of a name before those of its value, and what is proved holds for every
list.
-/

set_option autoImplicit false

namespace FbBroker.Ws

open FbBroker.Parser

/-- `MAX_HEADER_NAME_LEN`. -/
def maxHeaderNameLen : Nat := 100
/-- `MAX_HEADER_VALUE_LEN`. -/
def maxHeaderValueLen : Nat := 100

/-! ### The callbacks -/

/-- A `char` array with the length of the text in it. -/
structure HttpText (limit : Nat) where
  len : Nat
  text : Nat → Byte
  fits : len ≤ limit

/-- The text of `memset(ws, 0, …)`. -/
def HttpText.empty (limit : Nat) : HttpText limit :=
  ⟨0, fun _ => 0, Nat.zero_le limit⟩

/-- The fields of `client_ws_st` that the headers fill. -/
structure HttpFields where
  onHeaderValue : Bool
  httpHeaderName : HttpText maxHeaderNameLen
  httpSecWsKey : HttpText (maxHeaderValueLen - 1)
  httpSecWsProtocol : HttpText (maxHeaderValueLen - 1)

/-- `c_ws_init`. -/
def httpFieldsInit : HttpFields :=
  ⟨false, .empty _, .empty _, .empty _⟩

/-- `array[i] = byte`. -/
def put (size : Nat) (array : Nat → Byte) (i : Nat) (byte : Byte) : Except Fault (Nat → Byte) :=
  if i < size then .ok (Function.update array i byte) else .error .outOfBounds

/-- `memcpy(array + start, data, length)`. -/
def memcpy (size : Nat) (array : Nat → Byte) (start : Nat) : List Byte → Except Fault (Nat → Byte)
  | [] => .ok array
  | byte :: data => do
      let array ← put size array start byte
      memcpy size array (start + 1) data

/-- The name behind a value starts again. -/
def nameSoFar (ws : HttpFields) : HttpText maxHeaderNameLen :=
  if ws.onHeaderValue then ⟨0, ws.httpHeaderName.text, Nat.zero_le _⟩ else ws.httpHeaderName

def httpOnHeaderField (ws : HttpFields) (data : List Byte) : Except Fault HttpFields := do
  let name := nameSoFar ws
  let length := min data.length (maxHeaderNameLen - name.len)
  let text ← memcpy maxHeaderNameLen name.text name.len (data.take length)
  let text ← put maxHeaderNameLen text length 0
  pure { ws with
    onHeaderValue := false
    httpHeaderName := ⟨name.len + length, text, by have := name.fits; omega⟩ }

/-- The part of `http_on_header_value` for one of the two headers. -/
def appendValue (value : HttpText (maxHeaderValueLen - 1)) (data : List Byte) :
    Except Fault (HttpText (maxHeaderValueLen - 1)) := do
  let length := min data.length (maxHeaderValueLen - value.len - 1)
  let text ← memcpy maxHeaderValueLen value.text value.len (data.take length)
  let text ← put maxHeaderValueLen text (value.len + length) 0
  pure ⟨value.len + length, text, by have := value.fits; omega⟩

def secWsKey : List Byte := lit "Sec-WebSocket-Key"
def secWsProtocol : List Byte := lit "Sec-WebSocket-Protocol"

/-- The name `strcmp` sees. -/
def HttpFields.name (ws : HttpFields) : List Byte :=
  cstr (bytes maxHeaderNameLen ws.httpHeaderName.text)

def httpOnHeaderValue (ws : HttpFields) (data : List Byte) : Except Fault HttpFields :=
  if ws.name = secWsKey then do
    let value ← appendValue ws.httpSecWsKey data
    pure { ws with onHeaderValue := true, httpSecWsKey := value }
  else if ws.name = secWsProtocol then do
    let value ← appendValue ws.httpSecWsProtocol data
    pure { ws with onHeaderValue := true, httpSecWsProtocol := value }
  else pure { ws with onHeaderValue := true }

/-! ### Requests -/

/-- A text as the HTTP parser hands it over, in one call or more. -/
structure Fragments where
  calls : List (List Byte)
  called : calls ≠ []

/-- The whole text. -/
def Fragments.whole (fragments : Fragments) : List Byte :=
  fragments.calls.flatten

/-- A header name; the characters of a token are none of them NUL. -/
structure NameFragments extends Fragments where
  token : (0 : Byte) ∉ calls.flatten

structure HttpHeader where
  name : NameFragments
  value : Fragments

/-- The calls for a header. -/
def receiveHeader (ws : HttpFields) (header : HttpHeader) : Except Fault HttpFields := do
  let ws ← header.name.calls.foldlM httpOnHeaderField ws
  header.value.calls.foldlM httpOnHeaderValue ws

/-- The calls up to the end of the message. -/
def receiveHeaders (headers : List HttpHeader) : Except Fault HttpFields :=
  headers.foldlM receiveHeader httpFieldsInit

/-- The values of the headers of a name, one behind the other. -/
def valuesBy (nameOf : NameFragments → List Byte) (target : List Byte) (headers : List HttpHeader) : List Byte :=
  (headers.filter fun header => nameOf header.name = target).flatMap fun header => header.value.whole

def valuesOf (target : List Byte) (headers : List HttpHeader) : List Byte :=
  valuesBy (fun name => name.whole) target headers

/-- The array holds the text, cut to what fits in front of the NUL. -/
def HttpText.Holds (value : HttpText (maxHeaderValueLen - 1)) (text : List Byte) : Prop :=
  bytes value.len value.text = text.take (maxHeaderValueLen - 1) ∧ value.text value.len = 0

/-- Every write is inside its array, and at the end of the message both values are
held. -/
def Captures (headers : List HttpHeader) : Prop :=
  ∃ ws, receiveHeaders headers = .ok ws ∧ ws.httpSecWsKey.Holds (valuesOf secWsKey headers) ∧
    ws.httpSecWsProtocol.Holds (valuesOf secWsProtocol headers)

/-! ### Cut names -/

/-- How much of a name its later fragments leave, of which `len` bytes came before
them: each writes a NUL behind as many bytes as it has itself. -/
def cut (len : Nat) : List (List Byte) → Nat
  | [] => len
  | data :: rest =>
      let length := min data.length (maxHeaderNameLen - len)
      min length (cut (len + length) rest)

/-- The name as the later fragments leave it. -/
def cutName : List (List Byte) → List Byte
  | [] => []
  | [] :: rest => cutName rest
  | (byte :: data) :: rest =>
      (byte :: data ++ rest.flatten).take (cut (data.length + 1) rest)

/-- The fragment that begins the name. -/
def firstLength : List (List Byte) → Nat
  | [] => 0
  | [] :: rest => firstLength rest
  | (byte :: data) :: _ => (byte :: data).length

/-- The first bytes of the name come with room for a NUL, and the cut makes no
difference between the name and the two names the broker looks for. -/
def NameFragments.Kept (name : NameFragments) : Prop :=
  firstLength name.calls < maxHeaderNameLen ∧
    ∀ target ∈ [secWsKey, secWsProtocol], cutName name.calls = target ↔ name.whole = target

instance (name : NameFragments) : Decidable name.Kept := by
  unfold NameFragments.Kept
  infer_instance

/-! ### Arrays -/

/-- An array in which bytes have been copied behind the first `start`. -/
def overlay (array : Nat → Byte) (start : Nat) (data : List Byte) : Nat → Byte :=
  fun i => if i < start then array i else data.getD (i - start) (array i)

private theorem overlay_cons (array : Nat → Byte) (start : Nat) (byte : Byte) (data : List Byte) :
    overlay (Function.update array start byte) (start + 1) data = overlay array start (byte :: data) := by
  funext i
  unfold overlay
  rcases Nat.lt_trichotomy i start with before | here | behind
  · simp [before, Nat.lt_succ_of_lt before, Nat.ne_of_lt before]
  · subst i
    simp
  · obtain ⟨k, rfl⟩ := Nat.exists_eq_add_of_lt behind
    have place : start + k + 1 - start = k + 1 := by omega
    have later : start + k + 1 - (start + 1) = k := by omega
    have notHere : start + k + 1 ≠ start := by omega
    simp [place, later, notHere, Nat.not_lt.mpr behind.le, show ¬start + k < start by omega]

theorem memcpy_ok {size start : Nat} {data : List Byte} (array : Nat → Byte)
    (inside : start + data.length ≤ size) : memcpy size array start data = .ok (overlay array start data) := by
  induction data generalizing array start with
  | nil =>
      have same : overlay array start [] = array := by
        funext i
        simp [overlay]
      rw [memcpy, same]
  | cons byte data inductionHypothesis =>
      rw [List.length_cons] at inside
      have here : start < size := by omega
      rw [memcpy, put, if_pos here]
      show memcpy size (Function.update array start byte) (start + 1) data = _
      rw [inductionHypothesis _ (by omega), overlay_cons]

private theorem bytes_overlay_le {array : Nat → Byte} {start k : Nat} (data : List Byte) (inside : k ≤ start) :
    bytes k (overlay array start data) = bytes k array := by
  refine List.map_congr_left fun i member => ?_
  have below := List.mem_range.mp member
  simp [overlay, show i < start by omega]

theorem bytes_overlay (array : Nat → Byte) (start : Nat) (data : List Byte) :
    bytes (start + data.length) (overlay array start data) = bytes start array ++ data := by
  apply List.ext_getElem
  · simp
  · intro i inside _
    rw [length_bytes] at inside
    by_cases before : i < start
    · simp [bytes, overlay, before]
    · rw [List.getElem_append_right (by simpa using before)]
      simp [bytes, overlay, before, show i - start < data.length by omega]

/-! ### Names -/

variable {ws next : HttpFields} {calls : List (List Byte)} {data : List Byte}

/-- A name with `len` bytes and this array behind it; the values are as before. -/
structure Names (ws next : HttpFields) (len : Nat) (text : Nat → Byte) : Prop where
  onHeaderValue : next.onHeaderValue = false
  len : next.httpHeaderName.len = len
  text : next.httpHeaderName.text = text
  key : next.httpSecWsKey = ws.httpSecWsKey
  protocol : next.httpSecWsProtocol = ws.httpSecWsProtocol

/-- The bytes of a fragment that are stored. -/
def storedLength (ws : HttpFields) (data : List Byte) : Nat :=
  min data.length (maxHeaderNameLen - (nameSoFar ws).len)

private theorem httpOnHeaderField_names (room : storedLength ws data < maxHeaderNameLen) :
    ∃ next, httpOnHeaderField ws data = .ok next ∧
      Names ws next ((nameSoFar ws).len + storedLength ws data)
        (Function.update (overlay (nameSoFar ws).text (nameSoFar ws).len (data.take (storedLength ws data)))
          (storedLength ws data) 0) := by
  have fits := (nameSoFar ws).fits
  have copied : (data.take (storedLength ws data)).length = storedLength ws data := by
    rw [List.length_take, storedLength]
    omega
  have copies := memcpy_ok (nameSoFar ws).text (show (nameSoFar ws).len +
    (data.take (storedLength ws data)).length ≤ maxHeaderNameLen by rw [copied, storedLength]; omega)
  have ends : ∀ array, put maxHeaderNameLen array (storedLength ws data) 0 =
      .ok (Function.update array (storedLength ws data) 0) := fun array => if_pos room
  have within : (nameSoFar ws).len + storedLength ws data ≤ maxHeaderNameLen := by
    rw [storedLength]
    omega
  refine ⟨{ ws with
    onHeaderValue := false
    httpHeaderName := ⟨_, Function.update (overlay (nameSoFar ws).text (nameSoFar ws).len
      (data.take (storedLength ws data))) (storedLength ws data) 0, within⟩ }, ?_, ⟨rfl, rfl, rfl, rfl, rfl⟩⟩
  unfold httpOnHeaderField
  rw [storedLength] at copies ends
  simp only [copies, ends, bind, Except.bind, pure, Except.pure]
  rfl

/-- The write of the NUL that leaves the array. -/
theorem httpOnHeaderField_outside (full : maxHeaderNameLen ≤ storedLength ws data) :
    httpOnHeaderField ws data = .error .outOfBounds := by
  have copied : (data.take (storedLength ws data)).length = storedLength ws data := by
    rw [List.length_take, storedLength]
    omega
  have copies := memcpy_ok (nameSoFar ws).text (show (nameSoFar ws).len +
    (data.take (storedLength ws data)).length ≤ maxHeaderNameLen by
      have fits := (nameSoFar ws).fits
      rw [copied, storedLength]
      omega)
  have ends : ∀ array, put maxHeaderNameLen array (storedLength ws data) 0 = .error .outOfBounds :=
    fun array => if_neg (Nat.not_lt.mpr full)
  unfold httpOnHeaderField
  rw [storedLength] at copies ends
  simp only [copies, ends, bind, Except.bind]

/-- The first `k` bytes of the array are those of the name, with a NUL behind them. -/
structure Shows (next : HttpFields) (k : Nat) (name : List Byte) : Prop where
  reads : bytes k next.httpHeaderName.text = name.take k
  nul : next.httpHeaderName.text k = 0
  inside : k < maxHeaderNameLen

theorem Shows.name {k : Nat} {name : List Byte} (shows : Shows next k name) (token : (0 : Byte) ∉ name) :
    next.name = name.take k :=
  (cstr_bytes shows.inside shows.reads shows.nul).trans
    (cstr_eq_self fun member => token (List.mem_of_mem_take member))

/-- The values are untouched, and the name is not finished. -/
structure Unfinished (ws next : HttpFields) : Prop where
  onHeaderValue : next.onHeaderValue = false
  key : next.httpSecWsKey = ws.httpSecWsKey
  protocol : next.httpSecWsProtocol = ws.httpSecWsProtocol

theorem Unfinished.trans {last : HttpFields} (first : Unfinished ws next) (second : Unfinished next last) :
    Unfinished ws last :=
  ⟨second.onHeaderValue, second.key.trans first.key, second.protocol.trans first.protocol⟩

theorem Names.unfinished {len : Nat} {text : Nat → Byte} (names : Names ws next len text) :
    Unfinished ws next :=
  ⟨names.onHeaderValue, names.key, names.protocol⟩

/-- The fragments behind a name that has been cut already can only cut it shorter. -/
theorem fragments_cut {k : Nat} {name : List Byte} (calls : List (List Byte)) (going : ws.onHeaderValue = false)
    (before : k < ws.httpHeaderName.len) (shows : Shows ws k name) :
    ∃ next, calls.foldlM httpOnHeaderField ws = .ok next ∧ Unfinished ws next ∧
      Shows next (min k (cut ws.httpHeaderName.len calls)) name := by
  induction calls generalizing ws k with
  | nil =>
      refine ⟨ws, rfl, ⟨going, rfl, rfl⟩, ?_⟩
      rw [cut, Nat.min_eq_left before.le]
      exact shows
  | cons data calls inductionHypothesis =>
      have same : nameSoFar ws = ws.httpHeaderName := by simp [nameSoFar, going]
      have fits := ws.httpHeaderName.fits
      have length : storedLength ws data = min data.length (maxHeaderNameLen - ws.httpHeaderName.len) := by
        rw [storedLength, same]
      obtain ⟨middle, first, names⟩ :=
        httpOnHeaderField_names (show storedLength ws data < maxHeaderNameLen by
          have := shows.inside
          omega)
      generalize storedLength ws data = stored at length names
      rw [same] at names
      have inside := shows.inside
      have shorter : Shows middle (min k stored) name := by
        refine ⟨?_, ?_, by omega⟩
        · rw [names.text, bytes_update_of_le _ _ (Nat.min_le_right k stored),
            bytes_overlay_le _ (by omega), ← take_bytes (Nat.min_le_left k stored), shows.reads,
            List.take_take, Nat.min_eq_left (Nat.min_le_left k stored)]
        · rw [names.text]
          by_cases ends : stored ≤ k
          · rw [Nat.min_eq_right ends, Function.update_self]
          · rw [Nat.min_eq_left (by omega), Function.update_of_ne (by omega)]
            simp [overlay, before, shows.nul]
      obtain ⟨next, rest, unfinished, shows⟩ :=
        inductionHypothesis names.onHeaderValue (by rw [names.len]; omega) shorter
      refine ⟨next, ?_, names.unfinished.trans unfinished, ?_⟩
      · rw [List.foldlM_cons, first]
        exact rest
      · rw [names.len, length, Nat.min_assoc] at shows
        exact shows

/-- The next fragment begins a name. -/
def Ready (ws : HttpFields) : Prop :=
  (nameSoFar ws).len = 0

theorem Unfinished.nameSoFar (unfinished : Unfinished ws next) : nameSoFar next = next.httpHeaderName := by
  simp [Ws.nameSoFar, unfinished.onHeaderValue]

private theorem storedLength_ready (ready : Ready ws) (data : List Byte) :
    storedLength ws data = min data.length maxHeaderNameLen := by
  rw [storedLength, show (nameSoFar ws).len = 0 from ready, Nat.sub_zero]

/-- The first fragment of a name with bytes in it, if it leaves room for the NUL. -/
theorem fragment_first (ready : Ready ws) (short : data.length < maxHeaderNameLen) :
    ∃ next, httpOnHeaderField ws data = .ok next ∧ Unfinished ws next ∧
      next.httpHeaderName.len = data.length ∧ Shows next data.length data := by
  have length : storedLength ws data = data.length := by
    rw [storedLength_ready ready]
    omega
  obtain ⟨next, returns, names⟩ :=
    httpOnHeaderField_names (show storedLength ws data < maxHeaderNameLen by omega)
  rw [length, show (nameSoFar ws).len = 0 from ready, List.take_length, Nat.zero_add] at names
  refine ⟨next, returns, names.unfinished, names.len, ⟨?_, ?_, short⟩⟩
  · have whole := bytes_overlay (nameSoFar ws).text 0 data
    rw [names.text, bytes_update_of_le _ _ (Nat.le_refl _), List.take_length]
    rw [Nat.zero_add] at whole
    exact whole
  · rw [names.text, Function.update_self]

/-- The second one cuts the name behind as many bytes as it has itself. -/
theorem fragment_second {first : List Byte} (data rest : List Byte) (going : ws.onHeaderValue = false)
    (started : first ≠ []) (len : ws.httpHeaderName.len = first.length) (shows : Shows ws first.length first) :
    ∃ next, httpOnHeaderField ws data = .ok next ∧ Unfinished ws next ∧
      next.httpHeaderName.len =
        first.length + min data.length (maxHeaderNameLen - first.length) ∧
      Shows next (min data.length (maxHeaderNameLen - first.length)) (first ++ (data ++ rest)) := by
  have same : nameSoFar ws = ws.httpHeaderName := by simp [nameSoFar, going]
  have positive : 0 < first.length := List.length_pos_iff.mpr started
  have inside := shows.inside
  have length : storedLength ws data = min data.length (maxHeaderNameLen - first.length) := by
    rw [storedLength, same, len]
  obtain ⟨next, returns, names⟩ :=
    httpOnHeaderField_names (show storedLength ws data < maxHeaderNameLen by omega)
  rw [same, len] at names
  rw [← length]
  generalize storedLength ws data = stored at length names
  have copied : (data.take stored).length = stored := by
    rw [List.length_take]
    omega
  refine ⟨next, returns, names.unfinished, names.len, ⟨?_, ?_, by omega⟩⟩
  · have whole := bytes_overlay ws.httpHeaderName.text first.length (data.take stored)
    rw [copied, shows.reads, List.take_length] at whole
    rw [names.text, bytes_update_of_le _ _ (Nat.le_refl _), ← take_bytes (Nat.le_add_left stored first.length),
      whole, List.take_append, List.take_append, List.take_take, List.take_append_of_le_length (by omega),
      Nat.min_eq_left (Nat.sub_le stored first.length)]
  · rw [names.text, Function.update_self]

/-- An empty fragment leaves the name where it began. -/
theorem fragment_empty (ready : Ready ws) :
    ∃ next, httpOnHeaderField ws [] = .ok next ∧ Unfinished ws next ∧ Ready next ∧ Shows next 0 [] := by
  obtain ⟨next, first, unfinished, len, shows⟩ :
      ∃ next, httpOnHeaderField ws [] = .ok next ∧ Unfinished ws next ∧
        next.httpHeaderName.len = 0 ∧ Shows next 0 [] := fragment_first ready (by decide)
  refine ⟨next, first, unfinished, ?_, shows⟩
  rw [Ready, unfinished.nameSoFar, len]

/-- The calls for a name leave the name that its later fragments cut. -/
theorem name_received (ready : Ready ws) (token : (0 : Byte) ∉ calls.flatten)
    (short : firstLength calls < maxHeaderNameLen)
    (called : calls ≠ [] ∨ ws.onHeaderValue = false ∧ ws.httpHeaderName.text 0 = 0) :
    ∃ next, calls.foldlM httpOnHeaderField ws = .ok next ∧ Unfinished ws next ∧
      next.name = cutName calls := by
  induction calls generalizing ws with
  | nil =>
      obtain ⟨going, nul⟩ := called.resolve_left (by simp)
      refine ⟨ws, rfl, ⟨going, rfl, rfl⟩, ?_⟩
      have shows : Shows ws 0 [] := ⟨by simp [bytes], nul, by decide⟩
      rw [shows.name (by simp)]
      rfl
  | cons data calls inductionHypothesis =>
      rw [List.flatten_cons, List.mem_append, not_or] at token
      cases data with
      | nil =>
          obtain ⟨middle, first, unfinished, ready, shows⟩ := fragment_empty ready
          obtain ⟨next, rest, later, name⟩ :=
            inductionHypothesis ready token.2 short (.inr ⟨unfinished.onHeaderValue, shows.nul⟩)
          refine ⟨next, ?_, unfinished.trans later, name⟩
          rw [List.foldlM_cons, first]
          exact rest
      | cons byte data =>
          replace short : (byte :: data).length < maxHeaderNameLen := short
          obtain ⟨middle, first, unfinished, len, shows⟩ := fragment_first ready short
          cases calls with
          | nil =>
              refine ⟨middle, ?_, unfinished, ?_⟩
              · rw [List.foldlM_cons, first]
                rfl
              · rw [shows.name token.1]
                simp [cutName, cut]
          | cons more calls =>
              obtain ⟨middle', second, unfinished', len', shows'⟩ :=
                fragment_second more calls.flatten unfinished.onHeaderValue (by simp) len shows
              obtain ⟨next, rest, later, last⟩ := fragments_cut calls unfinished'.onHeaderValue
                (by rw [len', List.length_cons]; omega) shows'
              refine ⟨next, ?_, (unfinished.trans unfinished').trans later, ?_⟩
              · rw [List.foldlM_cons, first]
                show (more :: calls).foldlM httpOnHeaderField middle = _
                rw [List.foldlM_cons, second]
                exact rest
              · rw [len'] at last
                have whole : (0 : Byte) ∉ byte :: data ++ (more ++ calls.flatten) := by
                  rw [List.mem_append, not_or]
                  exact token
                rw [last.name whole]
                rfl

/-- A name whose first bytes fill the array makes a write behind it. -/
theorem name_outside (ready : Ready ws) (long : maxHeaderNameLen ≤ firstLength calls) :
    calls.foldlM httpOnHeaderField ws = .error .outOfBounds := by
  induction calls generalizing ws with
  | nil => simp [firstLength, maxHeaderNameLen] at long
  | cons data calls inductionHypothesis =>
      rw [List.foldlM_cons]
      cases data with
      | nil =>
          obtain ⟨middle, first, -, ready, -⟩ := fragment_empty ready
          rw [first]
          exact inductionHypothesis ready long
      | cons byte data =>
          rw [httpOnHeaderField_outside]
          · rfl
          · rw [storedLength_ready ready]
            exact Nat.le_min.mpr ⟨long, Nat.le_refl _⟩

/-! ### Values -/

private theorem appendValue_holds {value : HttpText (maxHeaderValueLen - 1)} {text : List Byte}
    (holds : value.Holds text) (data : List Byte) :
    ∃ next, appendValue value data = .ok next ∧ next.Holds (text ++ data) := by
  obtain ⟨reads, -⟩ := holds
  have len : value.len = min (maxHeaderValueLen - 1) text.length := by
    rw [← List.length_take, ← reads, length_bytes]
  have limit : maxHeaderValueLen - 1 = 99 := rfl
  generalize room : min data.length (maxHeaderValueLen - value.len - 1) = length
  have copied : (data.take length).length = length := by
    rw [List.length_take]
    omega
  have copies := memcpy_ok value.text
    (show value.len + (data.take length).length ≤ maxHeaderValueLen by omega)
  have ends : ∀ array, put maxHeaderValueLen array (value.len + length) 0 =
      .ok (Function.update array (value.len + length) 0) := fun array => if_pos (by omega)
  refine ⟨⟨value.len + length, Function.update (overlay value.text value.len (data.take length))
    (value.len + length) 0, by omega⟩, ?_, ?_, Function.update_self ..⟩
  · unfold appendValue
    simp only [room, copies, ends, bind, Except.bind, pure, Except.pure]
  · have whole := bytes_overlay value.text value.len (data.take length)
    rw [copied, reads] at whole
    rw [bytes_update_of_le _ _ (Nat.le_refl _), whole, List.take_append]
    congr 1
    rw [List.take_eq_take_iff]
    omega

/-- The two values hold these texts. -/
def Collects (ws : HttpFields) (key protocol : List Byte) : Prop :=
  ws.httpSecWsKey.Holds key ∧ ws.httpSecWsProtocol.Holds protocol

/-- The text that a header of this name adds to a value. -/
def adds (name target text : List Byte) : List Byte :=
  if name = target then text else []

private theorem adds_append (name target left right : List Byte) :
    adds name target (left ++ right) = adds name target left ++ adds name target right := by
  unfold adds
  split <;> simp

private theorem httpOnHeaderValue_collects {key protocol : List Byte} (collects : Collects ws key protocol)
    (data : List Byte) :
    ∃ next, httpOnHeaderValue ws data = .ok next ∧ next.onHeaderValue = true ∧ next.name = ws.name ∧
      Collects next (key ++ adds ws.name secWsKey data) (protocol ++ adds ws.name secWsProtocol data) := by
  obtain ⟨holdsKey, holdsProtocol⟩ := collects
  have differ : secWsKey ≠ secWsProtocol := by decide +kernel
  unfold httpOnHeaderValue
  by_cases isKey : ws.name = secWsKey
  · obtain ⟨value, appended, holds⟩ := appendValue_holds holdsKey data
    refine ⟨{ ws with onHeaderValue := true, httpSecWsKey := value }, ?_, rfl, rfl, ?_, ?_⟩
    · rw [if_pos isKey, appended]
      rfl
    · rw [adds, if_pos isKey]
      exact holds
    · rw [adds, if_neg (isKey ▸ differ), List.append_nil]
      exact holdsProtocol
  · rw [adds, if_neg isKey, if_neg isKey, List.append_nil]
    by_cases isProtocol : ws.name = secWsProtocol
    · obtain ⟨value, appended, holds⟩ := appendValue_holds holdsProtocol data
      refine ⟨{ ws with onHeaderValue := true, httpSecWsProtocol := value }, ?_, rfl, rfl, holdsKey, ?_⟩
      · rw [if_pos isProtocol, appended]
        rfl
      · rw [adds, if_pos isProtocol]
        exact holds
    · refine ⟨{ ws with onHeaderValue := true }, ?_, rfl, rfl, holdsKey, ?_⟩
      · rw [if_neg isProtocol]
        rfl
      · rw [adds, if_neg isProtocol, List.append_nil]
        exact holdsProtocol

private theorem values_received {key protocol : List Byte} (collects : Collects ws key protocol)
    (called : calls ≠ [] ∨ ws.onHeaderValue = true) :
    ∃ next, calls.foldlM httpOnHeaderValue ws = .ok next ∧ next.onHeaderValue = true ∧
      Collects next (key ++ adds ws.name secWsKey calls.flatten)
        (protocol ++ adds ws.name secWsProtocol calls.flatten) := by
  induction calls generalizing ws key protocol with
  | nil =>
      refine ⟨ws, rfl, called.resolve_left (by simp), ?_⟩
      simpa [adds] using collects
  | cons data calls inductionHypothesis =>
      obtain ⟨middle, first, value, name, collects⟩ := httpOnHeaderValue_collects collects data
      obtain ⟨next, rest, value, collects⟩ := inductionHypothesis collects (.inr value)
      refine ⟨next, ?_, value, ?_⟩
      · rw [List.foldlM_cons, first]
        exact rest
      · rw [name, List.append_assoc, List.append_assoc, ← adds_append, ← adds_append] at collects
        exact collects

/-! ### Headers -/

/-- The name of a header as `strcmp` sees it when its value comes. -/
def cutNameOf (name : NameFragments) : List Byte :=
  cutName name.calls

private theorem header_received {header : HttpHeader} {key protocol : List Byte} (ready : Ready ws)
    (short : firstLength header.name.calls < maxHeaderNameLen) (collects : Collects ws key protocol) :
    ∃ next, receiveHeader ws header = .ok next ∧ Ready next ∧
      Collects next (key ++ adds (cutNameOf header.name) secWsKey header.value.whole)
        (protocol ++ adds (cutNameOf header.name) secWsProtocol header.value.whole) := by
  obtain ⟨middle, named, unfinished, name⟩ :=
    name_received ready header.name.token short (.inl header.name.called)
  have collected : Collects middle key protocol := by
    rw [Collects, unfinished.key, unfinished.protocol]
    exact collects
  obtain ⟨next, valued, value, collects⟩ := values_received collected (.inl header.value.called)
  refine ⟨next, ?_, by simp [Ready, nameSoFar, value], ?_⟩
  · rw [receiveHeader, named]
    exact valued
  · rw [name] at collects
    exact collects

private theorem valuesBy_cons (nameOf : NameFragments → List Byte) (target : List Byte) (header : HttpHeader)
    (headers : List HttpHeader) :
    valuesBy nameOf target (header :: headers) =
      adds (nameOf header.name) target header.value.whole ++ valuesBy nameOf target headers := by
  unfold valuesBy adds
  by_cases named : nameOf header.name = target <;> simp [named]

theorem headers_received {headers : List HttpHeader} {key protocol : List Byte} (ready : Ready ws)
    (short : ∀ header ∈ headers, firstLength header.name.calls < maxHeaderNameLen)
    (collects : Collects ws key protocol) :
    ∃ next, headers.foldlM receiveHeader ws = .ok next ∧
      Collects next (key ++ valuesBy cutNameOf secWsKey headers)
        (protocol ++ valuesBy cutNameOf secWsProtocol headers) := by
  induction headers generalizing ws key protocol with
  | nil => exact ⟨ws, rfl, by simpa [valuesBy] using collects⟩
  | cons header headers inductionHypothesis =>
      obtain ⟨middle, first, ready, collects⟩ := header_received ready (short header (by simp)) collects
      obtain ⟨next, rest, collects⟩ :=
        inductionHypothesis ready (fun later member => short later (by simp [member])) collects
      refine ⟨next, ?_, ?_⟩
      · rw [List.foldlM_cons, first]
        exact rest
      · rw [List.append_assoc, List.append_assoc, ← valuesBy_cons, ← valuesBy_cons] at collects
        exact collects

/-- A name that fills the array with its first bytes stops the request. -/
theorem headers_outside {headers : List HttpHeader} {key protocol : List Byte} (ready : Ready ws)
    (collects : Collects ws key protocol) {long : HttpHeader} (member : long ∈ headers)
    (fills : maxHeaderNameLen ≤ firstLength long.name.calls) :
    headers.foldlM receiveHeader ws = .error .outOfBounds := by
  induction headers generalizing ws key protocol with
  | nil => simp at member
  | cons header headers inductionHypothesis =>
      rw [List.foldlM_cons]
      by_cases short : firstLength header.name.calls < maxHeaderNameLen
      · obtain ⟨middle, first, ready, collects⟩ := header_received ready short collects
        rw [first]
        refine inductionHypothesis ready collects ?_
        rcases List.mem_cons.mp member with same | later
        · subst header
          omega
        · exact later
      · rw [receiveHeader, name_outside ready (by omega)]
        rfl

theorem ready_init : Ready httpFieldsInit :=
  rfl

theorem collects_init : Collects httpFieldsInit [] [] :=
  ⟨⟨rfl, rfl⟩, ⟨rfl, rfl⟩⟩

/-- A header with an empty value. -/
def withoutValue (name : NameFragments) : HttpHeader :=
  ⟨name, ⟨[[]], by simp⟩⟩

/-- A header whose value is one byte. -/
def withOneByte (name : NameFragments) : HttpHeader :=
  ⟨name, ⟨[[1]], by simp⟩⟩

private theorem valuesBy_one (nameOf : NameFragments → List Byte) (target : List Byte) (name : NameFragments)
    (left right : List NameFragments) :
    valuesBy nameOf target (left.map withoutValue ++ withOneByte name :: right.map withoutValue) =
      adds (nameOf name) target [1] := by
  have nothing : ∀ names : List NameFragments, valuesBy nameOf target (names.map withoutValue) = [] := by
    intro names
    induction names with
    | nil => rfl
    | cons name names inductionHypothesis =>
        rw [List.map_cons, valuesBy_cons, inductionHypothesis]
        simp [withoutValue, adds, Fragments.whole]
  have split : ∀ front back : List HttpHeader,
      valuesBy nameOf target (front ++ back) = valuesBy nameOf target front ++ valuesBy nameOf target back := by
    intro front back
    simp [valuesBy]
  rw [split, nothing, valuesBy_cons, nothing]
  simp [withOneByte, Fragments.whole]

theorem HttpText.Holds.unique {value : HttpText (maxHeaderValueLen - 1)} {left right : List Byte}
    (first : value.Holds left) (second : value.Holds right) :
    left.take (maxHeaderValueLen - 1) = right.take (maxHeaderValueLen - 1) :=
  first.1.symm.trans second.1

/-- The request in which only this header has a value tells its name from the cut one. -/
theorem adds_unique {value : HttpText (maxHeaderValueLen - 1)} {left right target : List Byte}
    (first : value.Holds (adds left target [1])) (second : value.Holds (adds right target [1])) :
    left = target ↔ right = target := by
  have same := first.unique second
  by_cases isLeft : left = target <;> by_cases isRight : right = target <;>
    simp [adds, isLeft, isRight, maxHeaderValueLen] at same ⊢

/-- The two headers are captured whatever the values and their fragments, if and only if
the cuts in the names are such that each name is kept. -/
theorem headers_captured_iff (names : List NameFragments) :
    (∀ headers : List HttpHeader, headers.map HttpHeader.name = names → Captures headers) ↔
      ∀ name ∈ names, name.Kept := by
  constructor
  · intro captures name member
    obtain ⟨left, right, split⟩ := List.append_of_mem member
    have request : (left.map withoutValue ++ withOneByte name :: right.map withoutValue).map
        HttpHeader.name = names := by
      simp [split, withoutValue, withOneByte, Function.comp_def]
    obtain ⟨ws, received, key, protocol⟩ := captures _ request
    have short : ∀ header ∈ left.map withoutValue ++ withOneByte name :: right.map withoutValue,
        firstLength header.name.calls < maxHeaderNameLen := by
      intro header member
      by_contra long
      rw [receiveHeaders, headers_outside ready_init collects_init member (by omega)] at received
      cases received
    obtain ⟨last, again, cutKey, cutProtocol⟩ := headers_received ready_init short collects_init
    obtain rfl : ws = last := Except.ok.inj (received.symm.trans again)
    rw [List.nil_append, valuesBy_one] at cutKey cutProtocol
    rw [valuesOf, valuesBy_one] at key protocol
    refine ⟨short (withOneByte name) (by simp), fun target isTarget => ?_⟩
    simp only [List.mem_cons, List.not_mem_nil, or_false] at isTarget
    rcases isTarget with isKey | isProtocol
    · subst isKey
      exact adds_unique cutKey key
    · subst isProtocol
      exact adds_unique cutProtocol protocol
  · intro kept headers request
    have keeps : ∀ header ∈ headers, header.name.Kept := by
      intro header member
      exact kept header.name (request ▸ List.mem_map_of_mem member)
    obtain ⟨ws, received, key, protocol⟩ :=
      headers_received ready_init (fun header member => (keeps header member).1) collects_init
    have same : ∀ target ∈ [secWsKey, secWsProtocol],
        valuesBy cutNameOf target headers = valuesOf target headers := by
      intro target isTarget
      unfold valuesOf valuesBy
      congr 1
      refine List.filter_congr fun header member => ?_
      exact decide_eq_decide.mpr ((keeps header member).2 target isTarget)
    rw [List.nil_append, same _ (by simp)] at key protocol
    exact ⟨ws, received, key, protocol⟩

/-- A name in one call is kept. -/
example : NameFragments.Kept ⟨⟨[lit "Sec-WebSocket-Protocol"], by decide⟩, by decide +kernel⟩ := by
  decide +kernel

/-- The key header, its name in two calls. -/
def keyInTwo : HttpHeader :=
  ⟨⟨⟨[lit "Sec-", lit "WebSocket-Key"], by decide⟩, by decide +kernel⟩, ⟨[lit "x"], by decide⟩⟩

/-- A header with a name of 100 bytes, in one call. -/
def longName : HttpHeader :=
  ⟨⟨⟨[List.replicate 100 65], by decide⟩, by simp⟩, ⟨[lit "x"], by decide⟩⟩

/-- The name of the one header is cut and its value is lost; the NUL of the other one is
written behind the array. -/
theorem headers_not_captured :
    ¬Captures [keyInTwo] ∧ ¬Captures [longName] ∧
      (receiveHeaders [keyInTwo]).toOption.map (fun ws => (ws.name, ws.httpSecWsKey.len)) =
        some (lit "Sec-WebSocket", 0) ∧
      receiveHeaders [longName] = .error .outOfBounds := by
  have cuts : (receiveHeaders [keyInTwo]).toOption.map (fun ws => (ws.name, ws.httpSecWsKey.len)) =
      some (lit "Sec-WebSocket", 0) := by decide +kernel
  have leaves : receiveHeaders [longName] = .error .outOfBounds :=
    headers_outside ready_init collects_init (List.mem_singleton_self _) (by decide)
  refine ⟨?_, ?_, cuts, leaves⟩
  · rintro ⟨ws, received, ⟨reads, -⟩, -⟩
    rw [received] at cuts
    have len : ws.httpSecWsKey.len = 0 := (Prod.mk.inj (Option.some.inj cuts)).2
    have value : valuesOf secWsKey [keyInTwo] = [120] := by decide +kernel
    rw [len, value] at reads
    cases reads
  · rintro ⟨ws, received, -⟩
    rw [leaves] at received
    cases received

end FbBroker.Ws
