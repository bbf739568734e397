import FbBroker.Http.Parser

/-!
Contract: `http_parser_execute` never fails an assert and never leaves its buffer.

Owns what each state of the parser relies on, which marks are set in it, the steps that
keep this under any answers of the callbacks, and the runs over any sequence of buffers.
Of the marks at most one is ever set, and it is the one of the text the parser is in.
-/

set_option autoImplicit false

namespace FbBroker.Http

open FbBroker.Lib

/-! ### What the states rely on -/

/-- The header states inside a name. -/
def HeaderState.ofName : HeaderState → Bool
  | general | c | co | con | matchingConnection | matchingProxyConnection | matchingContentLength
  | matchingTransferEncoding | matchingUpgrade | connection | contentLength | transferEncoding | upgrade => true
  | _ => false

/-- The header states inside a value. -/
def HeaderState.ofValue : HeaderState → Bool
  | connection | transferEncoding => false
  | _ => true

/-- The text that a state is inside of. -/
def HttpState.text : HttpState → Option TextKind
  | headerField => some .headerField
  | headerValue => some .headerValue
  | bodyIdentity | chunkData | chunkDataAlmostDone => some .body
  | state => if state.inUrl then some .url else none

/-- What a state relies on; at the start of a chunk this many bytes were counted. -/
def HttpParser.Fits (parser : HttpParser) (counted : Nat) : Prop :=
  match parser.state with
  | .reqMethod => parser.index ≤ parser.method.text.length
  | .headerField => parser.headerState.ofName
  | .headerValue => parser.headerState.ofValue
  | .chunkSizeStart => parser.nread = counted ∧ parser.flags.chunked
  | .chunkSize | .chunkParameters | .chunkSizeAlmostDone =>
      parser.flags.chunked ∧ parser.contentLength < ullongMax
  | .chunkData => parser.flags.chunked ∧ 0 < parser.contentLength ∧ parser.contentLength < ullongMax
  | .chunkDataAlmostDone => parser.flags.chunked ∧ parser.contentLength = 0
  | .chunkDataDone => parser.flags.chunked
  | .bodyIdentity => 0 < parser.contentLength ∧ parser.contentLength < ullongMax
  | _ => True

/-- A parser without an error. -/
def HttpParser.Sane (parser : HttpParser) : Prop :=
  parser.httpErrno = none ∧ parser.nread ≤ maxHeaderSize ∧ parser.contentLength ≤ ullongMax

/-- A parser between two iterations, or with one byte counted inside of one. -/
def HttpParser.Sound (parser : HttpParser) (counted : Nat) : Prop :=
  parser.Sane ∧ parser.Fits counted

/-- The marks at a pointer in a state: that of its text, which may be missing for a body,
not behind the pointer. -/
structure MarksFit (state : HttpState) (marks : Marks) (p : List Byte) : Prop where
  others : ∀ kind, state.text ≠ some kind → marks kind = none
  its : ∀ kind, state.text = some kind → kind ≠ .body → (marks kind).isSome
  before : ∀ kind start, marks kind = some start → p.length ≤ start.length

/-- What an iteration over a buffer may come to. -/
def Exit.Good (data : List Byte) : Exit → Prop
  | .next parser marks p => parser.Sound 0 ∧ MarksFit parser.state marks p ∧ p <:+ data.tail
  | .stop parser p => (parser.httpErrno = none → parser.Sound 0) ∧ p <:+ data
  | .abort => False

/-- A case of the switch leads on from its state. -/
def Leads (state : HttpState) (step : HttpParser → Marks → Byte → List Byte → HttpCode) : Prop :=
  ∀ parser marks ch rest, parser.state = state → parser.Sound 1 → MarksFit state marks (ch :: rest) →
    (step parser marks ch rest).Always (Exit.Good (ch :: rest))

/-! ### Marks -/

section Marks

variable {state next : HttpState} {marks : Marks} {kind : TextKind} {p left : List Byte}

theorem MarksFit.unmarked (fit : MarksFit state marks p) (outside : state.text = none) : marks = noMarks :=
  funext fun kind => fit.others kind (by simp [outside])

private theorem noMarks_fit (optional : state.text = none ∨ state.text = some .body) (p : List Byte) :
    MarksFit state noMarks p := by
  refine ⟨fun _ _ => rfl, fun kind inside apart => ?_, fun kind start marked => ?_⟩
  · rcases optional with outside | body <;> simp_all
  · simp [noMarks] at marked

theorem MarksFit.cleared (fit : MarksFit state marks p) (inside : state.text = some kind) :
    Function.update marks kind none = noMarks := by
  funext other
  by_cases same : other = kind
  · simp [same, noMarks]
  · simp only [Function.update_of_ne same]
    exact fit.others other (by simpa [inside] using Ne.symm same)

theorem MarksFit.move (fit : MarksFit state marks p) (same : next.text = state.text) (behind : left <:+ p) :
    MarksFit next marks left :=
  ⟨fun kind apart => fit.others kind (same ▸ apart), fun kind its => fit.its kind (same ▸ its),
    fun kind start marked => behind.length_le.trans (fit.before kind start marked)⟩

private theorem mark_fit (fit : MarksFit state marks p) (before : state.text = none ∨ state.text = some kind)
    (inside : next.text = some kind) : MarksFit next (mark marks kind p) p := by
  have others : ∀ other, other ≠ kind → marks other = none := fun other apart =>
    fit.others other (by rcases before with outside | its <;> simp_all [Ne.symm apart])
  unfold mark
  split
  · rename_i set
    exact ⟨fun other apart => others other fun same => apart (by rw [inside, same]),
      fun other its _ => Option.some.inj (inside.symm.trans its) ▸ set, fit.before⟩
  · refine ⟨fun other apart => ?_, fun other its _ => ?_, fun other start marked => ?_⟩
    · have differs : other ≠ kind := fun same => apart (by rw [inside, same])
      rw [Function.update_of_ne differs, others other differs]
    · obtain rfl : kind = other := by simpa [inside] using its
      simp
    · by_cases same : other = kind
      · subst same
        simp_all
      · rw [Function.update_of_ne same, others other same] at marked
        simp at marked

private theorem marksAt_fit (parser : HttpParser) (data : List Byte) : MarksFit parser.state (marksAt parser data) data := by
  refine ⟨fun kind => ?_, fun kind => ?_, fun kind start marked => ?_⟩
  · cases kind <;> cases current : parser.state <;> simp [marksAt, current, HttpState.text, HttpState.inUrl]
  · cases kind <;> cases current : parser.state <;> simp [marksAt, current, HttpState.text, HttpState.inUrl]
  · cases kind <;> simp only [marksAt, Option.ite_none_right_eq_some, Option.some.injEq, reduceCtorEq] at marked
    all_goals exact marked.2 ▸ Nat.le_refl _

/-- At most one mark is set. -/
theorem MarksFit.marksSet_le (fit : MarksFit state marks p) : marksSet marks ≤ 1 := by
  cases inside : state.text with
  | none => simp [fit.unmarked inside, marksSet, noMarks]
  | some kind =>
      have others : ∀ other, other ≠ kind → marks other = none := fun other apart =>
        fit.others other (by simpa [inside] using Ne.symm apart)
      cases kind <;> simp [marksSet, List.filter_cons, others] <;> split <;> simp

end Marks

private theorem tail_suffix {p data : List Byte} (behind : p <:+ data) : p.tail <:+ data.tail := by
  obtain ⟨front, rfl⟩ := behind
  cases front with
  | nil => exact List.suffix_refl _
  | cons byte front => exact (List.tail_suffix p).trans (List.suffix_append front p)

/-! ### Callbacks -/

section Callbacks

variable {parser : HttpParser} {marks : Marks} {ch : Byte} {rest data p last : List Byte} {code : HttpCode}

private theorem fail_good (parser : HttpParser) (errno : HttpErrno) (behind : p <:+ data) :
    (fail parser errno p).Always (Exit.Good data) :=
  ⟨fun running => by simp at running, behind⟩

private theorem fail_here (parser : HttpParser) (errno : HttpErrno) : (fail parser errno data).Always (Exit.Good data) :=
  fail_good parser errno (List.suffix_refl _)

/-- On to a state outside of every text. -/
theorem turn_good {next : HttpParser} (sane : next.Sane) (relies : next.Fits 0) (outside : next.state.text = none) :
    (Script.done (Exit.next next noMarks rest) : HttpCode).Always (Exit.Good (ch :: rest)) :=
  ⟨⟨sane, relies⟩, noMarks_fit (.inl outside) rest, List.suffix_refl _⟩

private theorem assert_always {holds : Bool} {ends : Exit → Prop} (true_ : holds = true) (good : code.Always ends) :
    (assert holds code).Always ends := by
  simpa [assert, true_] using good

private theorem callbackNotify_good {kind : NoticeKind} (running : parser.httpErrno = none) (behind : p <:+ data)
    (good : code.Always (Exit.Good data)) :
    (callbackNotify parser kind p code).Always (Exit.Good data) := by
  refine assert_always (by simp [running]) fun rv => ?_
  dsimp only
  split
  · exact fail_good parser _ behind
  · exact good

/-- A mark that is not set is cleared as well. -/
theorem callbackData_always {kind : TextKind} {next : Marks → HttpCode} {ends : Exit → Prop}
    (running : parser.httpErrno = none) (before : ∀ start, marks kind = some start → last.length ≤ start.length)
    (fails : (fail parser (.cbText kind) p).Always ends)
    (good : (next (Function.update marks kind none)).Always ends) :
    (callbackData parser marks kind last p next).Always ends := by
  refine assert_always (by simp [running]) ?_
  cases marked : marks kind with
  | none => rwa [← marked, Function.update_eq_self] at good
  | some start =>
      dsimp only
      rw [if_neg (Nat.not_lt.mpr (before start marked))]
      intro rv
      dsimp only
      split
      · exact fails
      · exact good

/-- The text of a state is handed over. -/
theorem callbackData_good {state : HttpState} {kind : TextKind} {next : Marks → HttpCode} {here : List Byte}
    (fit : MarksFit state marks here) (inside : state.text = some kind) (running : parser.httpErrno = none)
    (within : last <:+ here) (behind : p <:+ data) (good : (next noMarks).Always (Exit.Good data)) :
    (callbackData parser marks kind last p next).Always (Exit.Good data) := by
  refine callbackData_always running (fun start marked => ?_) (fail_good parser _ behind) ?_
  · exact within.length_le.trans (fit.before kind start marked)
  · rwa [fit.cleared inside]

private theorem countHeaderSize_good {count : Nat} {next : HttpParser → HttpCode} (behind : p <:+ data)
    (good : ∀ nread ≤ maxHeaderSize, (next { parser with nread }).Always (Exit.Good data)) :
    (countHeaderSize parser count p next).Always (Exit.Good data) := by
  unfold countHeaderSize
  simp only
  split
  · exact fail_good _ _ behind
  · exact good _ (by omega)

end Callbacks

/-! ### The request line -/

section Cases

variable {parser : HttpParser} {marks : Marks} {ch : Byte} {rest : List Byte}

/-- The parser waits for more in its state, which does not rely on the count. -/
theorem stay_good {state : HttpState} (current : parser.state = state) (apart : state ≠ .chunkSizeStart)
    (sound : parser.Sound 1) (fit : MarksFit state marks (ch :: rest)) :
    (Script.done (Exit.next parser marks rest) : HttpCode).Always (Exit.Good (ch :: rest)) := by
  subst current
  refine ⟨⟨sound.1, ?_⟩, fit.move rfl (List.suffix_cons _ _), List.suffix_refl rest⟩
  have fits := sound.2
  unfold HttpParser.Fits at *
  cases current : parser.state <;> simp_all

private theorem caseDead_good : Leads .dead caseDead := by
  intro parser marks ch rest current sound fit
  unfold caseDead
  split
  · exact stay_good current (by simp) sound fit
  · exact fail_here _ _

theorem HttpMethod.text_pos (method : HttpMethod) : 1 ≤ method.text.length := by
  cases method <;> decide

private theorem turns_text {method next : HttpMethod} {index : Nat} {letter : Char}
    (turned : method.turns index letter = some next) : index + 1 ≤ next.text.length := by
  unfold HttpMethod.turns at turned
  split at turned <;> cases turned <;> decide

private theorem caseStartReq_good : Leads .startReq caseStartReq := by
  intro parser marks ch rest current sound fit
  unfold caseStartReq
  split
  · exact stay_good current (by simp) sound fit
  dsimp only
  split
  · exact fail_here _ _
  split
  · exact fail_here _ _
  · obtain rfl := fit.unmarked rfl
    refine callbackNotify_good sound.1.1 (List.suffix_cons _ _) ?_
    exact turn_good ⟨sound.1.1, sound.1.2.1, Nat.le_refl _⟩ (HttpMethod.text_pos _) rfl

/-- A character that is not the terminator lies in front of it. -/
theorem index_lt_of_getD {text : List Byte} {index : Nat} (char : text.getD index 0 ≠ 0) :
    index < text.length := by
  by_contra outside
  exact char (by rw [List.getD_eq_getElem?_getD, List.getElem?_eq_none (by omega), Option.getD_none])

private theorem caseReqMethod_good : Leads .reqMethod caseReqMethod := by
  intro parser marks ch rest current sound fit
  obtain rfl := fit.unmarked rfl
  have inside : parser.index ≤ parser.method.text.length := by
    simpa [HttpParser.Fits, current] using sound.2
  have bumped {method : HttpMethod} (below : parser.index + 1 ≤ method.text.length) :
      ({ parser with method }.bump : HttpParser).Fits 0 := by
    simpa [HttpParser.Fits, HttpParser.bump, current] using (Nat.mod_le _ _).trans below
  have outside {method : HttpMethod} : ({ parser with method }.bump : HttpParser).state.text = none := by
    simp [HttpParser.bump, current, HttpState.text, HttpState.inUrl]
  unfold caseReqMethod
  split
  · exact fail_here _ _
  dsimp only
  rw [if_neg (by omega)]
  split
  · exact turn_good sound.1 trivial rfl
  split
  · rename_i char _ same
    exact turn_good sound.1 (bumped (index_lt_of_getD (same ▸ char))) outside
  split
  · split
    · rename_i turned
      exact turn_good sound.1 (bumped (turns_text turned)) outside
    · exact fail_here _ _
  · exact fail_here _ _

private theorem parseServerChar_cases (ch : Byte) :
    parseServerChar ch = .dead ∨ (parseServerChar ch).inUrl = true := by
  unfold parseServerChar
  split_ifs <;> simp [HttpState.inUrl]

private theorem parseUrlChar_cases (state : HttpState) (ch : Byte) :
    parseUrlChar state ch = .dead ∨ (parseUrlChar state ch).inUrl = true := by
  unfold parseUrlChar
  split
  · exact .inl rfl
  split
  · exact .inl rfl
  cases state <;> dsimp only <;> (try split_ifs) <;>
    first | exact parseServerChar_cases ch | simp [HttpState.inUrl]

private theorem text_of_inUrl {state : HttpState} (inside : state.inUrl = true) : state.text = some .url := by
  cases state <;> simp_all [HttpState.inUrl, HttpState.text]

private theorem urlChar_good {state : HttpState} (sane : parser.Sane) (inside : state.text = some .url)
    (fit : MarksFit state marks (ch :: rest)) : (urlChar parser marks ch rest).Always (Exit.Good (ch :: rest)) := by
  unfold urlChar
  dsimp only
  split
  · exact fail_here _ _
  · rename_i alive
    have inUrl := (parseUrlChar_cases parser.state ch).resolve_left alive
    refine ⟨⟨sane, ?_⟩, fit.move ((text_of_inUrl inUrl).trans inside.symm) (List.suffix_cons _ _),
      List.suffix_refl _⟩
    unfold HttpParser.Fits
    dsimp only
    cases next : parseUrlChar parser.state ch <;> simp_all [HttpState.inUrl]

private theorem caseReqSpacesBeforeUrl_good : Leads .reqSpacesBeforeUrl caseReqSpacesBeforeUrl := by
  intro parser marks ch rest current sound fit
  unfold caseReqSpacesBeforeUrl
  split
  · exact stay_good current (by simp) sound fit
  · have marked : MarksFit .reqServerStart (mark marks .url (ch :: rest)) (ch :: rest) := mark_fit fit (.inl rfl) rfl
    refine urlChar_good ?_ rfl marked
    split <;> exact sound.1

private theorem caseReqSchema_good {state : HttpState} (inside : state.inUrl = true) : Leads state caseReqSchema := by
  intro parser marks ch rest current sound fit
  unfold caseReqSchema
  split
  · exact fail_here _ _
  · exact urlChar_good sound.1 (text_of_inUrl inside) fit

private theorem caseReqUrl_good {state : HttpState} (inside : state.inUrl = true) : Leads state caseReqUrl := by
  intro parser marks ch rest current sound fit
  have text := text_of_inUrl inside
  unfold caseReqUrl
  split
  · exact callbackData_good fit text sound.1.1 (List.suffix_refl _) (List.suffix_cons _ _) (turn_good sound.1 trivial rfl)
  split
  · refine callbackData_good fit text sound.1.1 (List.suffix_refl _) (List.suffix_cons _ _) ?_
    split <;> exact turn_good sound.1 trivial rfl
  · exact urlChar_good sound.1 text fit

/-- The states outside of every text that take one of a few bytes. -/
theorem letter_good {state next : HttpState} (outside : state.text = none) (beyond : next.text = none)
    (relies : ∀ parser : HttpParser, { parser with state := next }.Fits 0) (expected : Byte) :
    Leads state (caseLetter expected next) ∧ Leads state (caseLf next) := by
  constructor
  · intro parser marks ch rest current sound fit
    obtain rfl := fit.unmarked outside
    unfold caseLetter
    split
    · exact fail_here _ _
    · exact turn_good sound.1 (relies parser) beyond
  · intro parser marks ch rest current sound fit
    obtain rfl := fit.unmarked outside
    unfold caseLf
    split
    · exact fail_here _ _
    · exact turn_good sound.1 (relies parser) beyond

private theorem caseReqHttpStart_good : Leads .reqHttpStart caseReqHttpStart := by
  intro parser marks ch rest current sound fit
  unfold caseReqHttpStart
  split
  · exact stay_good current (by simp) sound fit
  obtain rfl := fit.unmarked rfl
  split_ifs
  · exact turn_good sound.1 trivial rfl
  · exact turn_good sound.1 trivial rfl
  · exact fail_here _ _

/-- The states of the version. -/
theorem caseVersion_good : Leads .reqHttpMajor caseReqHttpMajor ∧ Leads .reqHttpDot caseReqHttpDot ∧
    Leads .reqHttpMinor caseReqHttpMinor ∧ Leads .reqHttpEnd caseReqHttpEnd := by
  refine ⟨?_, ?_, ?_, ?_⟩ <;> intro parser marks ch rest current sound fit <;> obtain rfl := fit.unmarked rfl <;>
    simp only [caseReqHttpMajor, caseReqHttpDot, caseReqHttpMinor, caseReqHttpEnd] <;> split_ifs <;>
    first
    | exact fail_here _ _
    | exact turn_good sound.1 trivial rfl

end Cases

/-! ### The end of the headers -/

section Ends

variable {parser : HttpParser} {ch : Byte} {rest p data : List Byte}

private theorem newMessage_cases (parser : HttpParser) : newMessage parser = .startReq ∨ newMessage parser = .dead := by
  unfold newMessage
  split <;> simp

/-- A parser that waits for another message. -/
theorem newMessage_sound (sane : parser.Sane) (of : HttpParser) :
    { parser with state := newMessage of }.Sound 0 ∧ (newMessage of).text = none := by
  rcases newMessage_cases of with new | new <;> rw [new] <;> exact ⟨⟨sane, trivial⟩, rfl⟩

private theorem caseMessageDone_good (sane : parser.Sane) (behind : p <:+ data.tail) :
    (caseMessageDone parser noMarks p).Always (Exit.Good data) := by
  have inside : p <:+ data := behind.trans (List.tail_suffix data)
  obtain ⟨sound, outside⟩ := newMessage_sound sane parser
  unfold caseMessageDone
  refine callbackNotify_good sane.1 inside ?_
  split
  · exact ⟨fun _ => sound, inside⟩
  · exact ⟨sound, noMarks_fit (.inl outside) p, behind⟩

private theorem messageWithoutBody_good (sane : parser.Sane) :
    (messageWithoutBody parser noMarks rest).Always (Exit.Good (ch :: rest)) := by
  obtain ⟨sound, outside⟩ := newMessage_sound sane parser
  unfold messageWithoutBody
  exact callbackNotify_good sane.1 (List.suffix_cons _ _) (turn_good sound.1 sound.2 outside)

private theorem caseHeadersDone_good (sane : parser.Sane) :
    (caseHeadersDone parser noMarks ch rest).Always (Exit.Good (ch :: rest)) := by
  have restarted : { parser with nread := 0 }.Sane := ⟨sane.1, Nat.zero_le _, sane.2.2⟩
  unfold caseHeadersDone
  split
  · exact fail_here _ _
  dsimp only
  split
  · refine callbackNotify_good sane.1 (List.suffix_cons _ _) ?_
    exact ⟨fun _ => (newMessage_sound restarted _).1, List.suffix_cons _ _⟩
  split
  · exact messageWithoutBody_good restarted
  split
  · rename_i chunked
    exact turn_good restarted ⟨rfl, chunked⟩ rfl
  split
  · exact fail_here _ _
  split
  · exact messageWithoutBody_good restarted
  split
  · rename_i some_ given
    refine ⟨⟨restarted, ?_⟩, noMarks_fit (.inr rfl) rest, List.suffix_refl _⟩
    exact ⟨Nat.pos_of_ne_zero some_, Nat.lt_of_le_of_ne sane.2.2 given⟩
  · exact messageWithoutBody_good restarted

private theorem caseHeadersAlmostDone_good (sane : parser.Sane) :
    (caseHeadersAlmostDone parser noMarks ch rest).Always (Exit.Good (ch :: rest)) := by
  unfold caseHeadersAlmostDone
  split
  · exact fail_here _ _
  split
  · exact callbackNotify_good sane.1 (List.suffix_refl _) (caseMessageDone_good sane (List.suffix_refl _))
  split
  · exact fail_here _ _
  · intro rv
    dsimp only
    unfold headersCompleted
    split_ifs
    all_goals first
      | exact caseHeadersDone_good sane
      | exact fail_here _ _

end Ends

/-! ### Header names -/

section Names

variable {parser next : HttpParser} {marks : Marks} {ch : Byte} {rest p : List Byte}

/-- What the loops over a name and over a value leave of the parser. -/
structure Looped (parser next : HttpParser) : Prop where
  state : next.state = parser.state
  sane : parser.Sane → next.Sane

theorem Looped.refl (parser : HttpParser) : Looped parser parser :=
  ⟨rfl, id⟩

theorem Looped.trans {last : HttpParser} (first : Looped parser next) (second : Looped next last) :
    Looped parser last :=
  ⟨second.state.trans first.state, fun sane => second.sane (first.sane sane)⟩

private theorem headerStateOf_ofName (c : Byte) : (headerStateOf c).ofName = true := by
  unfold headerStateOf
  split_ifs <;> rfl

private theorem caseHeaderFieldStart_good (sane : parser.Sane) :
    (caseHeaderFieldStart parser noMarks ch rest).Always (Exit.Good (ch :: rest)) := by
  unfold caseHeaderFieldStart
  split
  · exact turn_good sane trivial rfl
  split
  · exact caseHeadersAlmostDone_good sane
  split
  · exact fail_here _ _
  · have fit : MarksFit .headerField (mark noMarks .headerField (ch :: rest)) (ch :: rest) :=
      mark_fit (noMarks_fit (.inl rfl) _ : MarksFit .headerFieldStart noMarks _) (.inl rfl) rfl
    exact ⟨⟨sane, headerStateOf_ofName _⟩, fit.move rfl (List.suffix_cons _ _), List.suffix_refl _⟩

private theorem matchName_looped (name : List Byte) (found : HeaderState) (isName : found.ofName = true)
    (current : parser.headerState.ofName = true) (c : Byte) :
    Looped parser (matchName name found parser c) ∧ (matchName name found parser c).headerState.ofName = true := by
  unfold matchName HttpParser.bump
  dsimp only
  split_ifs <;> exact ⟨⟨rfl, id⟩, by first | rfl | assumption⟩

/-- Inside a name no assert fails. -/
theorem fieldByte_looped (current : parser.headerState.ofName = true) (ch : Byte) :
    ∃ next, fieldByte parser ch = some next ∧ Looped parser next ∧ next.headerState.ofName = true := by
  unfold fieldByte
  cases inside : parser.headerState
  case matchingConnection | matchingProxyConnection | matchingContentLength | matchingUpgrade =>
    exact ⟨_, rfl, matchName_looped _ _ rfl current _⟩
  case matchingTransferEncoding =>
    obtain ⟨looped, isName⟩ :=
      matchName_looped transferEncodingName .transferEncoding rfl current (token ch)
    dsimp only
    split
    · exact ⟨_, rfl, ⟨looped.state, looped.sane⟩, isName⟩
    · exact ⟨_, rfl, looped, isName⟩
  case connection | contentLength | transferEncoding | upgrade =>
    dsimp only
    split
    · exact ⟨_, rfl, ⟨rfl, id⟩, rfl⟩
    · exact ⟨_, rfl, .refl parser, current⟩
  case general => exact ⟨_, rfl, .refl parser, current⟩
  case c | co | con =>
    refine ⟨_, rfl, ⟨rfl, id⟩, ?_⟩
    dsimp only
    split_ifs <;> rfl
  all_goals simp [inside, HeaderState.ofName] at current

private theorem skipTokens_suffix (room : Nat) (p : List Byte) : skipTokens room p <:+ p := by
  fun_induction skipTokens room p with
  | case1 room ch next rest token inductionHypothesis => exact inductionHypothesis.trans (List.suffix_cons _ _)
  | case2 room ch next rest token => exact List.suffix_refl _
  | case3 room p => exact List.suffix_refl _

private theorem fieldLoop_looped (fuel : Nat) (current : parser.headerState.ofName = true) (p : List Byte) :
    ∃ next left, fieldLoop fuel parser p = some (next, left) ∧ Looped parser next ∧
      next.headerState.ofName = true ∧ left <:+ p := by
  induction fuel generalizing parser p with
  | zero => exact ⟨parser, p, by simp [fieldLoop], .refl parser, current, List.suffix_refl p⟩
  | succ fuel inductionHypothesis =>
      cases p with
      | nil => exact ⟨parser, [], by simp [fieldLoop], .refl parser, current, List.suffix_refl _⟩
      | cons ch rest =>
          obtain ⟨next, byte, looped, isName⟩ := fieldByte_looped current ch
          have after {left : List Byte} (shorter : left <:+ rest) :
              ∃ last later, fieldLoop fuel next left = some (last, later) ∧ Looped parser last ∧
                last.headerState.ofName = true ∧ later <:+ ch :: rest := by
            obtain ⟨last, later, loops, more, lastName, behind⟩ := inductionHypothesis isName left
            exact ⟨last, later, loops, looped.trans more, lastName,
              (behind.trans shorter).trans (List.suffix_cons _ _)⟩
          simp only [fieldLoop, byte]
          split
          · exact ⟨parser, ch :: rest, rfl, .refl parser, current, List.suffix_refl _⟩
          split
          · exact after (tail_suffix (skipTokens_suffix _ (ch :: rest)))
          · exact after (List.suffix_refl _)

private theorem caseHeaderField_good : Leads .headerField caseHeaderField := by
  intro parser marks ch rest current sound fit
  have isName : parser.headerState.ofName = true := by simpa [HttpParser.Fits, current] using sound.2
  obtain ⟨next, left, loops, looped, nextName, behind⟩ := fieldLoop_looped (ch :: rest).length isName (ch :: rest)
  have sane := looped.sane sound.1
  unfold caseHeaderField
  rw [loops]
  cases left with
  | nil =>
      refine countHeaderSize_good (List.drop_suffix _ _) fun nread le => ?_
      refine ⟨⟨⟨sane.1, le, sane.2.2⟩, ?_⟩, fit.move ?_ List.nil_suffix, List.nil_suffix⟩
      · simpa [HttpParser.Fits, looped.state, current] using nextName
      · simp [looped.state, current]
  | cons ch' rest' =>
      refine countHeaderSize_good behind fun nread le => ?_
      split
      · refine callbackData_good fit rfl sane.1 behind ((List.suffix_cons _ _).trans behind) ?_
        exact ⟨⟨⟨sane.1, le, sane.2.2⟩, trivial⟩, noMarks_fit (.inl rfl) _, tail_suffix behind⟩
      · exact fail_good _ _ behind

end Names

/-! ### Header values -/

section Values

variable {parser next : HttpParser} {marks : Marks} {ch : Byte} {rest : List Byte}

private theorem caseHeaderValueStart_good (sane : parser.Sane) :
    (caseHeaderValueStart parser noMarks ch rest).Always (Exit.Good (ch :: rest)) := by
  have fit : MarksFit .headerValue (mark noMarks .headerValue (ch :: rest)) rest :=
    (mark_fit (noMarks_fit (.inl rfl) _ : MarksFit .headerValueStart noMarks _) (.inl rfl) rfl).move rfl
      (List.suffix_cons _ _)
  have digit : ch.toNat - 48 ≤ ullongMax := by
    have := ch.toNat_lt
    unfold ullongMax
    omega
  unfold caseHeaderValueStart
  cases parser.headerState <;> dsimp only
  case contentLength =>
    split_ifs
    · exact fail_here _ _
    · exact fail_here _ _
    · exact ⟨⟨⟨sane.1, sane.2.1, digit⟩, rfl⟩, fit, List.suffix_refl _⟩
  all_goals
    refine ⟨⟨sane, ?_⟩, fit, List.suffix_refl _⟩
    simp only [HttpParser.Fits]
    (try split_ifs) <;> rfl

private theorem matchToken_looped (name : List Byte) (found token : HeaderState) (isFound : found.ofValue = true)
    (isToken : token.ofValue = true) (current : parser.headerState.ofValue = true) (c : Byte) :
    Looped parser (matchToken name found token parser c) ∧
      (matchToken name found token parser c).headerState.ofValue = true := by
  unfold matchToken HttpParser.bump
  dsimp only
  split_ifs <;> exact ⟨⟨rfl, id⟩, by assumption⟩

/-- What a byte of a value may come to. -/
def ValueByte (parser : HttpParser) : Option (Except HttpParser HttpParser) → Prop
  | none => False
  | some (.error _) => True
  | some (.ok next) => Looped parser next ∧ next.headerState.ofValue = true

private theorem contentLengthDigit_looped (current : parser.headerState.ofValue = true) (ch : Byte) :
    ValueByte parser (some (contentLengthDigit parser ch)) := by
  unfold contentLengthDigit
  split_ifs
  · exact ⟨⟨rfl, id⟩, rfl⟩
  · trivial
  · trivial
  · refine ⟨⟨rfl, fun sane => ⟨sane.1, sane.2.1, ?_⟩⟩, current⟩
    dsimp only [ullongMax]
    omega

/-- Inside a value no assert fails. -/
theorem valueByte_looped (running : parser.state = .headerValue) (current : parser.headerState.ofValue = true)
    (ch : Byte) : ValueByte parser (valueByte parser ch) := by
  unfold valueByte
  cases inside : parser.headerState <;> dsimp only
  case connection | transferEncoding => simp [inside, HeaderState.ofValue] at current
  case contentLength =>
    split
    · exact ⟨.refl parser, current⟩
    · have digit : ValueByte { parser with headerState := .contentLengthNum } _ := contentLengthDigit_looped rfl ch
      revert digit
      cases contentLengthDigit { parser with headerState := .contentLengthNum } ch with
      | error _ => exact fun _ => trivial
      | ok next => exact fun digit => ⟨⟨digit.1.state, digit.1.sane⟩, digit.2⟩
  case contentLengthNum => exact contentLengthDigit_looped current ch
  case contentLengthWs =>
    split
    · exact ⟨.refl parser, current⟩
    · trivial
  case matchingTransferEncodingChunked | matchingConnectionKeepAlive | matchingConnectionClose
      | matchingConnectionUpgrade =>
    exact matchToken_looped _ _ _ rfl rfl current _
  case general => exact ⟨.refl parser, current⟩
  case matchingTransferEncodingTokenStart | matchingConnectionTokenStart =>
    refine ⟨⟨rfl, id⟩, ?_⟩
    dsimp only
    split_ifs <;> rfl
  case matchingTransferEncodingToken | matchingConnectionToken | transferEncodingChunked | connectionKeepAlive
      | connectionClose | connectionUpgrade =>
    split_ifs <;> first | exact ⟨.refl parser, current⟩ | exact ⟨⟨rfl, id⟩, rfl⟩
  all_goals exact ⟨⟨running.symm, id⟩, rfl⟩

private theorem generalRun_suffix (room : Nat) (p : List Byte) :
    match generalRun room p with
    | .ok left | .error left => left <:+ p := by
  fun_induction generalRun room p with
  | case1 room ch rest stops => exact List.suffix_refl _
  | case2 room ch rest goes bad => exact List.suffix_refl _
  | case3 room ch rest goes good inductionHypothesis =>
      revert inductionHypothesis
      cases generalRun room rest <;> exact fun behind => behind.trans (List.suffix_cons _ _)
  | case4 room p => exact List.tail_suffix p

/-- What the loop over a value may come to. -/
def ValueEnd.Good (parser : HttpParser) (data : List Byte) : ValueEnd → Prop
  | .at after p => Looped parser after ∧ after.headerState.ofValue = true ∧ p <:+ data
  | .invalidToken _ p | .invalidLength _ p => p <:+ data
  | .abort => False

theorem ValueEnd.Good.after {data p : List Byte} {outcome : ValueEnd} (looped : Looped parser next) (behind : p <:+ data)
    (good : outcome.Good next p) : outcome.Good parser data := by
  cases outcome with
  | «at» after left => exact ⟨looped.trans good.1, good.2.1, good.2.2.trans behind⟩
  | invalidToken _ left => exact List.IsSuffix.trans good behind
  | invalidLength _ left => exact List.IsSuffix.trans good behind
  | abort => exact good

private theorem valueLoop_good (fuel : Nat) (running : parser.state = .headerValue)
    (current : parser.headerState.ofValue = true) (p : List Byte) :
    (valueLoop fuel parser p).Good parser p := by
  induction fuel generalizing parser p with
  | zero => simpa [valueLoop] using ⟨.refl parser, current, List.suffix_refl p⟩
  | succ fuel inductionHypothesis =>
      cases p with
      | nil => simpa [valueLoop] using ⟨.refl parser, current, List.suffix_refl _⟩
      | cons ch rest =>
          rw [valueLoop]
          split
          · exact ⟨.refl parser, current, List.suffix_refl _⟩
          split
          · exact List.suffix_refl _
          split
          · have behind := generalRun_suffix (min (ch :: rest).length maxHeaderSize) (ch :: rest)
            split <;> rename_i p run <;> rw [run] at behind
            · exact behind
            · exact (inductionHypothesis running current p).after (.refl parser) behind
          · have byte := valueByte_looped running current ch
            split <;> rename_i outcome <;> rw [outcome] at byte
            · exact byte
            · exact List.suffix_refl _
            · exact (inductionHypothesis (byte.1.state.trans running) byte.2 rest).after byte.1 (List.suffix_cons _ _)

private theorem caseHeaderValue_good : Leads .headerValue caseHeaderValue := by
  intro parser marks ch rest current sound fit
  have isValue : parser.headerState.ofValue = true := by simpa [HttpParser.Fits, current] using sound.2
  have loops := valueLoop_good (ch :: rest).length current isValue (ch :: rest)
  unfold caseHeaderValue
  dsimp only
  cases outcome : valueLoop (ch :: rest).length parser (ch :: rest) with
  | abort =>
      rw [outcome] at loops
      exact loops.elim
  | invalidToken after p | invalidLength after p =>
      rw [outcome] at loops
      exact fail_good _ _ loops
  | «at» after p =>
      rw [outcome] at loops
      obtain ⟨looped, afterValue, behind⟩ := loops
      have sane := looped.sane sound.1
      cases p with
      | nil =>
          refine countHeaderSize_good (List.drop_suffix _ _) fun nread le => ?_
          refine ⟨⟨⟨sane.1, le, sane.2.2⟩, ?_⟩, fit.move ?_ List.nil_suffix, List.nil_suffix⟩
          · simpa [HttpParser.Fits, looped.state, current] using afterValue
          · simp [looped.state, current]
      | cons ch' rest' =>
          dsimp only
          split
          · refine callbackData_good fit rfl sane.1 behind ((List.suffix_cons _ _).trans behind) ?_
            refine countHeaderSize_good behind fun nread le => ?_
            exact ⟨⟨⟨sane.1, le, sane.2.2⟩, trivial⟩, noMarks_fit (.inl rfl) _, tail_suffix behind⟩
          · refine countHeaderSize_good behind fun nread le => ?_
            refine callbackData_good fit rfl sane.1 behind behind ?_
            unfold caseLf
            split
            · exact fail_good _ _ behind
            · exact ⟨⟨⟨sane.1, le, sane.2.2⟩, trivial⟩, noMarks_fit (.inl rfl) _, tail_suffix behind⟩

private theorem caseHeaderValueDiscardWs_good : Leads .headerValueDiscardWs caseHeaderValueDiscardWs := by
  intro parser marks ch rest current sound fit
  unfold caseHeaderValueDiscardWs
  split
  · exact stay_good current (by simp) sound fit
  obtain rfl := fit.unmarked rfl
  split_ifs
  · exact turn_good sound.1 trivial rfl
  · exact turn_good sound.1 trivial rfl
  · exact caseHeaderValueStart_good sound.1

private theorem caseHeaderValueLws_good (sane : parser.Sane) :
    (caseHeaderValueLws parser noMarks ch rest).Always (Exit.Good (ch :: rest)) := by
  unfold caseHeaderValueLws
  split
  · refine caseHeaderValueStart_good ?_
    split <;> exact sane
  · exact caseHeaderFieldStart_good sane

private theorem caseHeaderValueDiscardLws_good (sane : parser.Sane) :
    (caseHeaderValueDiscardLws parser noMarks ch rest).Always (Exit.Good (ch :: rest)) := by
  have fit : MarksFit .headerValue (mark noMarks .headerValue (ch :: rest)) (ch :: rest) :=
    mark_fit (noMarks_fit (.inl rfl) _ : MarksFit .headerValueDiscardLws noMarks _) (.inl rfl) rfl
  unfold caseHeaderValueDiscardLws
  split_ifs
  · exact turn_good sane trivial rfl
  · exact fail_here _ _
  · exact callbackData_good fit rfl sane.1 (List.suffix_refl _) (List.suffix_refl _) (caseHeaderFieldStart_good sane)

end Values

/-! ### Bodies -/

section Bodies

variable {parser : HttpParser} {marks : Marks} {ch : Byte} {rest : List Byte}

private theorem caseBodyIdentity_good : Leads .bodyIdentity caseBodyIdentity := by
  intro parser marks ch rest current sound fit
  obtain ⟨some_, given⟩ : 0 < parser.contentLength ∧ parser.contentLength < ullongMax := by
    simpa [HttpParser.Fits, current] using sound.2
  have marked : MarksFit .bodyIdentity (mark marks .body (ch :: rest)) (ch :: rest) := mark_fit fit (.inr rfl) rfl
  have less : parser.contentLength - min parser.contentLength (ch :: rest).length < ullongMax := by omega
  have last : (ch :: rest).drop (min parser.contentLength (ch :: rest).length - 1) <:+ ch :: rest :=
    List.drop_suffix _ _
  unfold caseBodyIdentity
  refine assert_always (by simp; omega) ?_
  dsimp only
  split
  · refine callbackData_good marked rfl sound.1.1 ((List.tail_suffix _).trans last) last ?_
    exact caseMessageDone_good ⟨sound.1.1, sound.1.2.1, less.le⟩ (tail_suffix last)
  · rename_i more
    refine ⟨⟨⟨sound.1.1, sound.1.2.1, less.le⟩, ?_⟩, marked.move (by simp [current]) ((List.tail_suffix _).trans last),
      tail_suffix last⟩
    simp only [HttpParser.Fits, current]
    exact ⟨Nat.pos_of_ne_zero more, less⟩

private theorem unhex_le {digit : Nat} (hex : unhex ch = some digit) : digit ≤ 15 := by
  obtain ⟨nine, capital, small⟩ : '9'.toUInt8.toNat = 57 ∧ 'F'.toUInt8.toNat = 70 ∧ 'f'.toUInt8.toNat = 102 :=
    ⟨rfl, rfl, rfl⟩
  unfold unhex isNum at hex
  split_ifs at hex <;> simp_all [UInt8.le_iff_toNat_le] <;> omega

private theorem caseChunkSizeStart_good : Leads .chunkSizeStart caseChunkSizeStart := by
  intro parser marks ch rest current sound fit
  obtain ⟨counted, chunked⟩ : parser.nread = 1 ∧ parser.flags.chunked = true := by
    simpa [HttpParser.Fits, current] using sound.2
  obtain rfl := fit.unmarked rfl
  unfold caseChunkSizeStart
  refine assert_always (by simp [counted, chunked]) ?_
  split
  · exact fail_here _ _
  · rename_i digit hex
    have small : digit < ullongMax := by
      have := unhex_le hex
      unfold ullongMax
      omega
    exact turn_good ⟨sound.1.1, sound.1.2.1, small.le⟩ ⟨chunked, small⟩ rfl

/-- The size of a chunk stays below the value that stands for no length. -/
theorem chunkSize_step_lt {length digit : Nat} (room : ¬(ullongMax - 16) / 16 < length) (hex : digit ≤ 15) :
    (length * 16 + digit) % 2 ^ 64 < ullongMax := by
  unfold ullongMax at *
  omega

private theorem caseChunkSize_good : Leads .chunkSize caseChunkSize := by
  intro parser marks ch rest current sound fit
  have relies : parser.flags.chunked = true ∧ parser.contentLength < ullongMax := by
    simpa [HttpParser.Fits, current] using sound.2
  obtain rfl := fit.unmarked rfl
  unfold caseChunkSize
  refine assert_always relies.1 ?_
  split
  · exact turn_good sound.1 relies rfl
  split
  · split
    · exact turn_good sound.1 relies rfl
    · exact fail_here _ _
  split
  · exact fail_here _ _
  · rename_i digit hex room
    have next := chunkSize_step_lt room (unhex_le hex)
    refine turn_good ⟨sound.1.1, sound.1.2.1, next.le⟩ ?_ (by simp [current, HttpState.text, HttpState.inUrl])
    simp only [HttpParser.Fits, current]
    exact ⟨relies.1, next⟩

private theorem caseChunkParameters_good : Leads .chunkParameters caseChunkParameters := by
  intro parser marks ch rest current sound fit
  have relies : parser.flags.chunked = true ∧ parser.contentLength < ullongMax := by
    simpa [HttpParser.Fits, current] using sound.2
  unfold caseChunkParameters
  refine assert_always relies.1 ?_
  split
  · obtain rfl := fit.unmarked rfl
    exact turn_good sound.1 relies rfl
  · exact stay_good current (by simp) sound fit

private theorem caseChunkSizeAlmostDone_good : Leads .chunkSizeAlmostDone caseChunkSizeAlmostDone := by
  intro parser marks ch rest current sound fit
  obtain ⟨chunked, below⟩ : parser.flags.chunked = true ∧ parser.contentLength < ullongMax := by
    simpa [HttpParser.Fits, current] using sound.2
  have restarted : { parser with nread := 0 }.Sane := ⟨sound.1.1, Nat.zero_le _, sound.1.2.2⟩
  obtain rfl := fit.unmarked rfl
  unfold caseChunkSizeAlmostDone
  refine assert_always chunked ?_
  split
  · exact fail_here _ _
  dsimp only
  split
  · exact callbackNotify_good sound.1.1 (List.suffix_cons _ _) (turn_good restarted trivial rfl)
  · rename_i some_
    refine callbackNotify_good sound.1.1 (List.suffix_cons _ _) ?_
    exact ⟨⟨restarted, chunked, Nat.pos_of_ne_zero some_, below⟩, noMarks_fit (.inr rfl) rest, List.suffix_refl _⟩

private theorem caseChunkData_good : Leads .chunkData caseChunkData := by
  intro parser marks ch rest current sound fit
  obtain ⟨chunked, some_, given⟩ :
      parser.flags.chunked = true ∧ 0 < parser.contentLength ∧ parser.contentLength < ullongMax := by
    simpa [HttpParser.Fits, current] using sound.2
  have less : parser.contentLength - min parser.contentLength (ch :: rest).length < ullongMax := by omega
  have read : (ch :: rest).drop (min parser.contentLength (ch :: rest).length) <:+ rest := by
    obtain ⟨n, positive⟩ : ∃ n, min parser.contentLength (ch :: rest).length = n + 1 :=
      Nat.exists_eq_add_one.mpr (by simp; omega)
    rw [positive, List.drop_succ_cons]
    exact List.drop_suffix _ _
  have marked : MarksFit .chunkData (mark marks .body (ch :: rest)) (ch :: rest) := mark_fit fit (.inr rfl) rfl
  have within := read.trans (List.suffix_cons ch rest)
  unfold caseChunkData
  refine assert_always (by simp [chunked]; omega) ?_
  dsimp only
  split
  · rename_i nothing
    exact ⟨⟨⟨sound.1.1, sound.1.2.1, less.le⟩, chunked, nothing⟩, marked.move rfl within, read⟩
  · rename_i more
    refine ⟨⟨⟨sound.1.1, sound.1.2.1, less.le⟩, ?_⟩, marked.move (by simp [current]) within, read⟩
    simp only [HttpParser.Fits, current]
    exact ⟨chunked, Nat.pos_of_ne_zero more, less⟩

private theorem caseChunkDataAlmostDone_good : Leads .chunkDataAlmostDone caseChunkDataAlmostDone := by
  intro parser marks ch rest current sound fit
  obtain ⟨chunked, nothing⟩ : parser.flags.chunked = true ∧ parser.contentLength = 0 := by
    simpa [HttpParser.Fits, current] using sound.2
  unfold caseChunkDataAlmostDone
  refine assert_always (by simp [chunked, nothing]) ?_
  split
  · exact fail_here _ _
  · exact callbackData_good fit rfl sound.1.1 (List.suffix_refl _) (List.suffix_cons _ _) (turn_good sound.1 chunked rfl)

private theorem caseChunkDataDone_good : Leads .chunkDataDone caseChunkDataDone := by
  intro parser marks ch rest current sound fit
  have chunked : parser.flags.chunked = true := by simpa [HttpParser.Fits, current] using sound.2
  obtain rfl := fit.unmarked rfl
  unfold caseChunkDataDone
  refine assert_always chunked ?_
  split
  · exact fail_here _ _
  · refine callbackNotify_good sound.1.1 (List.suffix_cons _ _) ?_
    exact turn_good ⟨sound.1.1, Nat.zero_le _, sound.1.2.2⟩ ⟨rfl, chunked⟩ rfl

end Bodies

/-! ### Runs -/

section Runs

variable {parser : HttpParser} {marks : Marks} {ch : Byte} {rest data : List Byte}

/-- A step keeps what the states rely on. -/
theorem switch_good (sound : parser.Sound 1) (fit : MarksFit parser.state marks (ch :: rest)) :
    (switch parser marks ch rest).Always (Exit.Good (ch :: rest)) := by
  unfold switch
  cases current : parser.state <;> dsimp only <;> rw [current] at fit
  case dead => exact caseDead_good _ _ _ _ current sound fit
  case startReq => exact caseStartReq_good _ _ _ _ current sound fit
  case reqMethod => exact caseReqMethod_good _ _ _ _ current sound fit
  case reqSpacesBeforeUrl => exact caseReqSpacesBeforeUrl_good _ _ _ _ current sound fit
  case reqSchema | reqSchemaSlash | reqSchemaSlashSlash | reqServerStart =>
    exact caseReqSchema_good rfl _ _ _ _ current sound fit
  case reqServer | reqServerWithAt | reqPath | reqQueryStringStart | reqQueryString | reqFragmentStart
      | reqFragment =>
    exact caseReqUrl_good rfl _ _ _ _ current sound fit
  case reqHttpStart => exact caseReqHttpStart_good _ _ _ _ current sound fit
  case reqHttpMajor => exact caseVersion_good.1 _ _ _ _ current sound fit
  case reqHttpDot => exact caseVersion_good.2.1 _ _ _ _ current sound fit
  case reqHttpMinor => exact caseVersion_good.2.2.1 _ _ _ _ current sound fit
  case reqHttpEnd => exact caseVersion_good.2.2.2 _ _ _ _ current sound fit
  case reqLineAlmostDone | headerAlmostDone =>
    refine (letter_good rfl ?_ ?_ lf).2 _ _ _ _ current sound fit <;> first | rfl | exact fun _ => trivial
  case headerField => exact caseHeaderField_good _ _ _ _ current sound fit
  case headerValue => exact caseHeaderValue_good _ _ _ _ current sound fit
  case headerValueDiscardWs => exact caseHeaderValueDiscardWs_good _ _ _ _ current sound fit
  case bodyIdentity => exact caseBodyIdentity_good _ _ _ _ current sound fit
  case chunkSizeStart => exact caseChunkSizeStart_good _ _ _ _ current sound fit
  case chunkSize => exact caseChunkSize_good _ _ _ _ current sound fit
  case chunkParameters => exact caseChunkParameters_good _ _ _ _ current sound fit
  case chunkSizeAlmostDone => exact caseChunkSizeAlmostDone_good _ _ _ _ current sound fit
  case chunkData => exact caseChunkData_good _ _ _ _ current sound fit
  case chunkDataAlmostDone => exact caseChunkDataAlmostDone_good _ _ _ _ current sound fit
  case chunkDataDone => exact caseChunkDataDone_good _ _ _ _ current sound fit
  case headerFieldStart => exact fit.unmarked rfl ▸ caseHeaderFieldStart_good sound.1
  case headerValueStart => exact fit.unmarked rfl ▸ caseHeaderValueStart_good sound.1
  case headerValueLws => exact fit.unmarked rfl ▸ caseHeaderValueLws_good sound.1
  case headerValueDiscardLws => exact fit.unmarked rfl ▸ caseHeaderValueDiscardLws_good sound.1
  case headersAlmostDone => exact fit.unmarked rfl ▸ caseHeadersAlmostDone_good sound.1
  case headersDone => exact fit.unmarked rfl ▸ caseHeadersDone_good sound.1
  case messageDone => exact fit.unmarked rfl ▸ caseMessageDone_good sound.1 (List.suffix_refl _)
  all_goals refine (letter_good rfl ?_ ?_ _).1 _ _ _ _ current sound fit <;> first | rfl | exact fun _ => trivial

private theorem iteration_good (sound : parser.Sound 0) (fit : MarksFit parser.state marks (ch :: rest)) :
    (iteration parser marks ch rest).Always (Exit.Good (ch :: rest)) := by
  have fits := sound.2
  unfold iteration
  split
  · have counted : (parser.nread + 1 % 2 ^ 32) % 2 ^ 32 = parser.nread + 1 := by
      have := sound.1.2.1
      unfold maxHeaderSize at this
      omega
    unfold countHeaderSize
    simp only [counted]
    split
    · exact fail_here _ _
    · rename_i room
      refine switch_good ⟨⟨sound.1.1, Nat.le_of_not_lt room, sound.1.2.2⟩, ?_⟩ fit
      unfold HttpParser.Fits at *
      cases current : parser.state <;> simp_all
  · refine switch_good ⟨sound.1, ?_⟩ fit
    unfold HttpParser.Fits at *
    cases current : parser.state <;> simp_all [HttpState.parsingHeader]

/-- What the loop over a buffer may come to. -/
def LoopEnd (data : List Byte) : Exit → Prop
  | .next parser marks p => parser.Sound 0 ∧ MarksFit parser.state marks p ∧ p = []
  | .stop parser p => (parser.httpErrno = none → parser.Sound 0) ∧ p <:+ data
  | .abort => False

private theorem loop_good (fuel : Nat) (sound : parser.Sound 0) (p : List Byte) (fit : MarksFit parser.state marks p)
    (enough : p.length ≤ fuel) (behind : p <:+ data) : (loop fuel parser marks p).Always (LoopEnd data) := by
  induction fuel generalizing parser marks p with
  | zero =>
      obtain rfl : p = [] := List.eq_nil_of_length_eq_zero (by omega)
      exact ⟨sound, fit, rfl⟩
  | succ fuel inductionHypothesis =>
      cases p with
      | nil => exact ⟨sound, fit, rfl⟩
      | cons ch rest =>
          refine (iteration_good sound fit).andThen fun exit good => ?_
          cases exit with
          | next parser marks p =>
              obtain ⟨sound, fit, shorter⟩ := good
              have shorter : p <:+ rest := shorter
              refine inductionHypothesis sound p fit ?_ ((shorter.trans (List.suffix_cons _ _)).trans behind)
              have := shorter.length_le
              simp only [List.length_cons] at enough
              omega
          | stop parser p => exact ⟨good.1, good.2.trans behind⟩
          | abort => exact good

/-- What a call on a buffer may come to. -/
def Stopped (data : List Byte) : Exit → Prop
  | .stop parser p => (parser.httpErrno = none → parser.Sound 0) ∧ p <:+ data
  | _ => False

private theorem leftOver_stopped {p : List Byte} (sound : parser.Sound 0) (fit : MarksFit parser.state marks p) :
    (leftOver parser marks).Always (Stopped data) := by
  have fails (errno : HttpErrno) : (fail parser errno []).Always (Stopped data) :=
    ⟨fun running => by simp at running, List.nil_suffix⟩
  have hands {marks : Marks} {kind : TextKind} {next : Marks → HttpCode}
      (good : (next (Function.update marks kind none)).Always (Stopped data)) :
      (callbackData parser marks kind [] [] next).Always (Stopped data) :=
    callbackData_always sound.1.1 (fun _ _ => Nat.zero_le _) (fails _) good
  unfold leftOver
  exact assert_always (by simpa using fit.marksSet_le) (hands (hands (hands (hands ⟨fun _ => sound, List.nil_suffix⟩))))

/-- A parser between two calls: it has an error, or may go on. -/
def HttpParser.Resting (parser : HttpParser) : Prop :=
  parser.httpErrno = none → parser.Sound 0

/-- What a call may come to. -/
def Executes (data : List Byte) : Executed → Prop
  | none => False
  | some (parser, nparsed) => parser.Resting ∧ nparsed ≤ max 1 data.length

private theorem executeBuffer_good (sound : parser.Sound 0) (data : List Byte) :
    (executeBuffer parser data).Always (Executes data) := by
  have loops := loop_good data.length sound data (marksAt_fit parser data) (Nat.le_refl _) (List.suffix_refl _)
  refine (loops.andThen (?_ : ∀ exit, LoopEnd data exit → (finish exit).Always (Stopped data))).andThen ?_
  · intro exit ended
    cases exit with
    | next parser marks p => exact leftOver_stopped ended.1 ended.2.1
    | stop parser p => exact ended
    | abort => exact ended
  · intro exit stopped
    cases exit with
    | stop parser p => exact ⟨stopped.1, by omega⟩
    | next parser marks p => exact stopped
    | abort => exact stopped

/-- A call under any answers of the callbacks. -/
theorem httpParserExecute_good (resting : parser.Resting) (data : List Byte) :
    (httpParserExecute parser data).Always (Executes data) := by
  unfold httpParserExecute
  split
  · exact ⟨resting, Nat.zero_le _⟩
  rename_i running
  split
  · split
    · exact ⟨resting, Nat.zero_le _⟩
    · exact ⟨fun running => by simp at running, by omega⟩
  · exact executeBuffer_good (resting (by simpa using running)) data

/-- The calls for one buffer after the other; `none` is an abort. -/
def executeAll : HttpParser → List (List Byte) → Script HttpCall Int (Option HttpParser)
  | parser, [] => .done (some parser)
  | parser, data :: more =>
      (httpParserExecute parser data).andThen fun executed =>
        match executed with
        | none => .done none
        | some (parser, _) => executeAll parser more

/-- A run of the parser from its start under any answers of the callbacks: it never aborts,
and as long as it has no error it counted no more header bytes than allowed, and every state
finds what it relies on. -/
theorem executeAll_never_aborts (buffers : List (List Byte)) :
    (executeAll httpParserInit buffers).Always fun ended => ∃ parser, ended = some parser ∧ parser.Resting := by
  have resting : httpParserInit.Resting := fun _ => ⟨⟨rfl, Nat.zero_le _, Nat.zero_le _⟩, trivial⟩
  revert resting
  generalize httpParserInit = parser
  intro resting
  induction buffers generalizing parser with
  | nil => exact ⟨parser, rfl, resting⟩
  | cons data more inductionHypothesis =>
      refine (httpParserExecute_good resting data).andThen fun executed executes => ?_
      cases executed with
      | none => exact executes.elim
      | some result => exact inductionHypothesis result.1 executes.1

end Runs

end FbBroker.Http
