import FbBroker.Ws.Headers

/-!
Contract: the response by which `client_ws.c` accepts an upgrade.

Owns `b64_encode`, the response that `http_on_message_complete` puts together from the
headers that were received, and the bounds of the two buffers it uses.

Does not own SHA1, a function to 20 bytes.
-/

set_option autoImplicit false

namespace FbBroker.Ws

open FbBroker.Parser

/-! ### Base64 -/

/-- `encoding_table`. -/
def encodingTable : List Byte :=
  lit "ABCDEFGHIJKLMNOPQRSTUVWXYZabcdefghijklmnopqrstuvwxyz0123456789+/"

def padding : Byte := '='.toUInt8

/-- `encoding_table[(triple >> k * 6) & 0x3F]`. -/
def encodedChar (triple k : Nat) : Byte :=
  encodingTable.getD (triple >>> (k * 6) &&& 0x3F) 0

def encodeTriple (a b c : Byte) : List Byte :=
  let triple := (a.toNat <<< 0x10) + (b.toNat <<< 0x08) + c.toNat
  [encodedChar triple 3, encodedChar triple 2, encodedChar triple 1, encodedChar triple 0]

/-- The loop of `b64_encode`; an octet behind the input is 0. -/
def encodeLoop : List Byte → List Byte
  | [] => []
  | [a] => encodeTriple a 0 0
  | [a, b] => encodeTriple a b 0
  | a :: b :: c :: rest => encodeTriple a b c ++ encodeLoop rest

/-- `mod_table`. -/
def modTable (rest : Nat) : Nat := [0, 2, 1].getD rest 0

/-- `b64_encode`: the text in front of the NUL. -/
def b64Encode (data : List Byte) : List Byte :=
  let padded := modTable (data.length % 3)
  (encodeLoop data).take (4 * ((data.length + 2) / 3) - padded) ++ List.replicate padded padding

private theorem length_encodeLoop (data : List Byte) : (encodeLoop data).length = 4 * ((data.length + 2) / 3) := by
  induction data using encodeLoop.induct with
  | case1 => rfl
  | case2 a => simp [encodeLoop, encodeTriple]
  | case3 a b => simp [encodeLoop, encodeTriple]
  | case4 a b c rest inductionHypothesis =>
      rw [encodeLoop, List.length_append, inductionHypothesis]
      simp only [encodeTriple, List.length_cons, List.length_nil]
      omega

private theorem modTable_le (n : Nat) : modTable (n % 3) ≤ 2 ∧ (n + modTable (n % 3)) % 3 = 0 := by
  have small : n % 3 = 0 ∨ n % 3 = 1 ∨ n % 3 = 2 := by omega
  rcases small with rest | rest | rest <;> rw [rest] <;> simp only [modTable, List.getD_cons_zero,
    List.getD_cons_succ] <;> omega

private theorem length_b64Encode (data : List Byte) : (b64Encode data).length = 4 * ((data.length + 2) / 3) := by
  have padded := modTable_le data.length
  rw [b64Encode, List.length_append, List.length_take, length_encodeLoop, List.length_replicate]
  omega

/-! ### The response -/

/-- `key_suffix`. -/
def keySuffix : List Byte := lit "258EAFA5-E914-47DA-95CA-C5AB0DC85B11"

/-- `switching_response`, in front of the `%s` and behind it. -/
def switchingResponse (protocol : List Byte) : List Byte :=
  lit "HTTP/1.1 101 Switching Protocols\r\nConnection: Upgrade\r\nUpgrade: websocket\r\nSec-WebSocket-Protocol: " ++
    protocol ++ lit "\r\nSec-WebSocket-Accept: "

/-- `sizeof(l_buf)`; the suffix counts with its NUL. -/
def lBufLen : Nat := maxHeaderValueLen + (keySuffix.length + 1)

/-- `sizeof(c_send_buf)`. -/
def cSendBufLen : Nat := 1500

/-- What `%s` prints; without a NUL the read leaves the array. -/
def HttpText.printed (value : HttpText (maxHeaderValueLen - 1)) : Except Fault (List Byte) :=
  let array := bytes maxHeaderValueLen value.text
  if (0 : Byte) ∈ array then .ok (cstr array) else .error .outOfBounds

/-- The bytes that `http_on_message_complete` sends for an upgrade, with what the two
buffers hold before. -/
def upgradeResponse (sha1 : List Byte → { hash : List Byte // hash.length = 20 }) (cSendBuf lBuf : Nat → Byte)
    (ws : HttpFields) : Except Fault (List Byte) := do
  let text := switchingResponse (← ws.httpSecWsProtocol.printed)
  let cSendBuf ← memcpy cSendBufLen cSendBuf 0 (text ++ [0])
  let keyLen := ws.httpSecWsKey.len
  let lBuf ← memcpy lBufLen lBuf 0 (bytes keyLen ws.httpSecWsKey.text)
  let lBuf ← memcpy lBufLen lBuf keyLen keySuffix
  let hash := sha1 (bytes (keyLen + keySuffix.length) lBuf)
  let cSendBuf ← memcpy cSendBufLen cSendBuf text.length (b64Encode hash.val ++ [0])
  let cSendBuf ← memcpy cSendBufLen cSendBuf (text.length + 28) (lit "\r\n\r\n")
  pure (bytes (text.length + 28 + 4) cSendBuf)

private theorem printed_of_holds {value : HttpText (maxHeaderValueLen - 1)} {text : List Byte} (holds : value.Holds text) :
    value.printed = .ok (cstr (text.take (maxHeaderValueLen - 1))) := by
  have inside : value.len < maxHeaderValueLen := Nat.lt_of_le_of_lt value.fits (by decide)
  have terminated : (0 : Byte) ∈ bytes maxHeaderValueLen value.text :=
    List.mem_map.mpr ⟨value.len, List.mem_range.mpr inside, holds.2⟩
  rw [HttpText.printed, if_pos terminated, cstr_bytes inside holds.1 holds.2]

/-- The array behind a copy, up to some byte of what was copied. -/
theorem bytes_copied {array : Nat → Byte} {start k : Nat} {before : List Byte} (data : List Byte)
    (front : bytes start array = before) (inside : k ≤ data.length) :
    bytes (start + k) (overlay array start data) = before ++ data.take k := by
  have length : start = before.length := by rw [← front, length_bytes]
  rw [← take_bytes (Nat.add_le_add_left inside start), bytes_overlay, front, length, List.take_append,
    Nat.add_sub_cancel_left, List.take_of_length_le (Nat.le_add_right _ k)]

private theorem length_switchingResponse {name : List Byte} (fits : name.length < maxHeaderValueLen) :
    (switchingResponse name).length ≤ 1000 := by
  have around : ∀ left right : List Byte, left.length ≤ 400 → right.length ≤ 400 →
      (left ++ name ++ right).length ≤ 1000 := by
    intro left right _ _
    have limit : maxHeaderValueLen = 100 := rfl
    rw [List.length_append, List.length_append]
    omega
  exact around _ _ (by decide +kernel) (by decide +kernel)

/-- What SHA1 is given: the key with the suffix behind it. -/
theorem bytes_staged (lBuf : Nat → Byte) (key : List Byte) :
    bytes (key.length + keySuffix.length) (overlay (overlay lBuf 0 key) key.length keySuffix) = key ++ keySuffix := by
  have whole := bytes_overlay lBuf 0 key
  rw [Nat.zero_add] at whole
  rw [bytes_overlay, whole]
  rfl

/-- No write leaves its buffer. -/
theorem upgradeResponse_eq (sha1 : List Byte → { hash : List Byte // hash.length = 20 }) (cSendBuf lBuf : Nat → Byte)
    {ws : HttpFields} {name : List Byte} (prints : ws.httpSecWsProtocol.printed = .ok name)
    (fits : name.length < maxHeaderValueLen) :
    upgradeResponse sha1 cSendBuf lBuf ws = .ok (switchingResponse name ++
      b64Encode (sha1 (bytes ws.httpSecWsKey.len ws.httpSecWsKey.text ++ keySuffix)).val ++ lit "\r\n\r\n") := by
  have keyFits := ws.httpSecWsKey.fits
  have keyLength := length_bytes ws.httpSecWsKey.len ws.httpSecWsKey.text
  have textLength := length_switchingResponse fits
  simp only [upgradeResponse, prints, bind, Except.bind]
  generalize switchingResponse name = text at *
  generalize bytes ws.httpSecWsKey.len ws.httpSecWsKey.text = key at *
  rw [← keyLength] at keyFits ⊢
  have lBufRoom : lBufLen = 137 := by decide +kernel
  have suffixLength : keySuffix.length = 36 := by decide +kernel
  have limit : maxHeaderValueLen = 100 := rfl
  rw [memcpy_ok cSendBuf (show 0 + (text ++ [0]).length ≤ cSendBufLen by
      rw [List.length_append, cSendBufLen, List.length_singleton]; omega),
    memcpy_ok lBuf (show 0 + key.length ≤ lBufLen by omega)]
  dsimp only
  rw [memcpy_ok (overlay lBuf 0 key) (show key.length + keySuffix.length ≤ lBufLen by omega)]
  dsimp only
  rw [bytes_staged]
  generalize sha1 (key ++ keySuffix) = hash
  have encodedLength : (b64Encode hash.val).length = 28 := by rw [length_b64Encode, hash.property]
  have printed := bytes_copied (k := text.length) (text ++ [0]) (show bytes 0 cSendBuf = [] from rfl) (by simp)
  rw [Nat.zero_add, List.take_left, List.nil_append] at printed
  rw [memcpy_ok _ (show text.length + (b64Encode hash.val ++ [0]).length ≤ cSendBufLen by
    rw [List.length_append, encodedLength, cSendBufLen, List.length_singleton]; omega)]
  have accepted := bytes_copied (k := 28) (b64Encode hash.val ++ [0]) printed (by simp [encodedLength])
  rw [List.take_left' encodedLength] at accepted
  dsimp only
  rw [memcpy_ok _ (show text.length + 28 + (lit "\r\n\r\n").length ≤ cSendBufLen by
    rw [show (lit "\r\n\r\n").length = 4 by decide, cSendBufLen]; omega)]
  have ended := bytes_copied (k := 4) (lit "\r\n\r\n") accepted (by decide)
  exact congrArg Except.ok ended

/-- Whatever headers are received, in whatever fragments, the response is put together
inside both buffers from the values that the broker has kept. -/
theorem upgradeResponse_received (sha1 : List Byte → { hash : List Byte // hash.length = 20 })
    (cSendBuf lBuf : Nat → Byte) (headers : List HttpHeader)
    (short : ∀ header ∈ headers, firstLength header.name.calls < maxHeaderNameLen) :
    ∃ ws, receiveHeaders headers = .ok ws ∧
      upgradeResponse sha1 cSendBuf lBuf ws =
        .ok (switchingResponse (cstr ((valuesBy cutNameOf secWsProtocol headers).take (maxHeaderValueLen - 1))) ++
          b64Encode (sha1 ((valuesBy cutNameOf secWsKey headers).take (maxHeaderValueLen - 1) ++ keySuffix)).val ++
          lit "\r\n\r\n") := by
  obtain ⟨ws, received, key, protocol⟩ := headers_received ready_init short collects_init
  rw [List.nil_append] at key protocol
  have fits : (cstr ((valuesBy cutNameOf secWsProtocol headers).take (maxHeaderValueLen - 1))).length <
      maxHeaderValueLen :=
    Nat.lt_of_le_of_lt ((cstr_isPrefix _).length_le.trans (List.length_take_le _ _)) (by decide)
  have response := upgradeResponse_eq sha1 cSendBuf lBuf (printed_of_holds protocol) fits
  rw [key.1] at response
  exact ⟨ws, received, response⟩

private theorem oneCall (text : List Byte) : [text] ≠ [] :=
  List.cons_ne_nil text []

/-- A text in one call. -/
def inOneCall (text : List Byte) : Fragments := ⟨[text], oneCall text⟩

private theorem secWsKey_token : (0 : Byte) ∉ (inOneCall secWsKey).calls.flatten := by decide +kernel

private theorem secWsProtocol_token : (0 : Byte) ∉ (inOneCall secWsProtocol).calls.flatten := by decide +kernel

/-- A key and a protocol. -/
def upgradeHeaders : List HttpHeader :=
  [⟨⟨inOneCall secWsKey, secWsKey_token⟩, inOneCall (lit "dGhlIHNhbXBsZSBub25jZQ==")⟩,
    ⟨⟨inOneCall secWsProtocol, secWsProtocol_token⟩, inOneCall (lit "mqtt")⟩]

/-- The SHA1 digest of that key with the suffix. -/
def keyDigest : List Byte :=
  [0xB3, 0x7A, 0x4F, 0x2C, 0xC0, 0x62, 0x4F, 0x16, 0x90, 0xF6,
    0x46, 0x06, 0xCF, 0x38, 0x59, 0x45, 0xB2, 0xBE, 0xC4, 0xEA]

private theorem length_keyDigest : keyDigest.length = 20 := rfl

/-- The response to them. -/
theorem upgradeResponse_received_mqtt :
    ∃ ws, receiveHeaders upgradeHeaders = .ok ws ∧
      upgradeResponse (fun _ => ⟨keyDigest, length_keyDigest⟩) (fun _ => 0) (fun _ => 0) ws =
        .ok (switchingResponse (lit "mqtt") ++ lit "s3pPLMBiTxaQ9kYGzzhZRbK+xOo=" ++ lit "\r\n\r\n") := by
  have response := upgradeResponse_received (fun _ => ⟨keyDigest, length_keyDigest⟩) (fun _ => 0) (fun _ => 0)
    upgradeHeaders (by decide +kernel)
  have protocol : cstr ((valuesBy cutNameOf secWsProtocol upgradeHeaders).take (maxHeaderValueLen - 1)) =
      lit "mqtt" := by decide +kernel
  have accept : b64Encode keyDigest = lit "s3pPLMBiTxaQ9kYGzzhZRbK+xOo=" := by decide +kernel
  rw [protocol, accept] at response
  exact response

end FbBroker.Ws
