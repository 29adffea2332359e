import BinaryPoint.Proofs.Shell.Records
import BinaryPoint.Proofs.Text.Lines
import BinaryPoint.Shell.Request

/-!
# Sessions

A session that is not interactive is a law over lines. A line that holds something is answered by
a line of its own, which depends on nothing but that line and the format, until a line ends the
session. So the output of a session is cut back into its answers at the newlines, a session that
is still open goes on as if it had just begun, and behind the end nothing counts.

`Session.ends` asks a line to hold something before it asks `Settings.isExit`. In the settings of
an environment an exit keyword is never empty, and then the two agree.

* `Session.react_eq`, `Session.converse_eq`: what a session makes of a line, and of many.
* `Session.run_append_of_open`, `Session.run_append_of_ended`: two inputs, one after the other.
* `Session.exists_isRecord`: what an answer in JSON decodes to.
* `Session.run_framed`: all of it.
-/
namespace BinaryPoint.Session

variable {styled : Styling} {settings : Settings} {input : Text}

/-- The line ends the session. -/
def ends (settings : Settings) (line : Text) : Bool :=
  !(Text.trim line).isEmpty && settings.isExit line

/-- What is answered among lines: those before the one that ends the session, as far as they hold
anything, without the blanks around them. -/
def answeredOf (settings : Settings) (lines : List Text) : List Text :=
  ((lines.takeWhile fun line => !ends settings line).map Text.trim).filter
    fun line => !line.isEmpty

/-- What is answered of an input. -/
def answered (settings : Settings) (input : Text) : List Text :=
  answeredOf settings (Text.lines input)

/-- The answer to an expression, without its end of line. -/
def answer (styled : Styling) (format : OutputFormat) (expression : Text) : Text :=
  (Outcome.ofExpression expression).render styled format expression

/-- The fields of a JSON object are those of the record of an expression: the expression, and
exactly one of its result and the words of its error. -/
structure IsRecord (expression : Text) (fields : List (Text × Json)) : Prop where
  nodup : (fields.map Prod.fst).Nodup
  input : fields.lookup "input".toList = some (.string expression)
  exactlyOne : (fields.lookup "result".toList).isSome ≠ (fields.lookup "error".toList).isSome
  result : ∀ q, evaluate expression = .ok q → fields.lookup "result".toList = some q.toJson
  error : ∀ e, evaluate expression = .error e →
    fields.lookup "error".toList = some (.string e.message)

/-! ## One line -/

theorem isExit_trim (settings : Settings) (line : Text) :
    settings.isExit (Text.trim line) = settings.isExit line := by
  unfold Settings.isExit
  rw [Text.trim_trim]

/-- What a session makes of a line. -/
theorem react_eq (styled : Styling) (settings : Settings) (line : Text) :
    react styled settings line =
      if Text.trim line = [] then .skip
      else if ends settings line then .exit
      else .answer (answer styled settings.output (Text.trim line) ++ ['\n']) := by
  by_cases hb : Text.trim line = []
  · simp [react, hb]
  · simp [react, hb, ends, isExit_trim, answer, Outcome.line]

theorem answeredOf_cons (settings : Settings) (line : Text) (lines : List Text) :
    answeredOf settings (line :: lines) =
      if Text.trim line = [] then answeredOf settings lines
      else if ends settings line then []
      else Text.trim line :: answeredOf settings lines := by
  by_cases hb : Text.trim line = []
  · simp [answeredOf, ends, hb]
  · by_cases he : ends settings line = true
    · simp [answeredOf, hb, he]
    · simp [answeredOf, hb, he]

/-! ## All lines -/

/-- A session answers each line in turn. -/
theorem converse_eq (styled : Styling) (settings : Settings) (lines : List Text) :
    converse styled settings false lines =
      ⟨(answeredOf settings lines).flatMap fun e => answer styled settings.output e ++ ['\n'],
        (answeredOf settings lines).length⟩ := by
  induction lines with
  | nil => rfl
  | cons line lines ih =>
    rw [converse, react_eq, answeredOf_cons, ih]
    by_cases hb : Text.trim line = []
    · simp [hb, ask]
    · by_cases he : ends settings line = true
      · simp [hb, he, ask]
      · simp [hb, he, ask]

/-- The lines of an input are the pieces between its newlines but for an empty one at the end. -/
theorem lines_eq (input : Text) :
    Text.lines input = inputLines input ∨ Text.lines input = inputLines input ++ [[]] := by
  simp only [inputLines]
  split
  · rename_i h
    exact .inr (List.dropLast_append_getLast? _ h).symm
  · exact .inl rfl

theorem answeredOf_append_nil (settings : Settings) (lines : List Text) :
    answeredOf settings (lines ++ [[]]) = answeredOf settings lines := by
  induction lines with
  | nil => rfl
  | cons line lines ih => rw [List.cons_append, answeredOf_cons, answeredOf_cons, ih]

theorem answeredOf_inputLines (settings : Settings) (input : Text) :
    answeredOf settings (inputLines input) = answered settings input := by
  unfold answered
  rcases lines_eq input with h | h
  · rw [h]
  · rw [h, answeredOf_append_nil]

theorem run_eq (styled : Styling) (settings : Settings) (input : Text) :
    run styled settings false input =
      ⟨(answered settings input).flatMap fun e => answer styled settings.output e ++ ['\n'],
        (answered settings input).length⟩ := by
  rw [run, converse_eq, answeredOf_inputLines]

theorem newline_not_mem_answer (hstyled : ∀ color text, '\n' ∉ text → '\n' ∉ styled color text)
    (format : OutputFormat) (expression : Text) : '\n' ∉ answer styled format expression :=
  Outcome.newline_not_mem_render hstyled format expression

/-- The output is cut back into the answers at its newlines. -/
theorem lines_run (hstyled : ∀ color text, '\n' ∉ text → '\n' ∉ styled color text)
    (settings : Settings) (input : Text) :
    Text.lines (run styled settings false input).output =
      (answered settings input).map (answer styled settings.output) ++ [[]] := by
  rw [run_eq, ← List.flatMap_map (answer styled settings.output) (· ++ ['\n'])]
  refine Text.lines_flatMap_newline fun text ht => ?_
  obtain ⟨expression, -, rfl⟩ := List.mem_map.mp ht
  exact newline_not_mem_answer hstyled _ _

/-! ## Two inputs -/

theorem answered_append_of_open (h : ∀ line ∈ Text.lines input, ends settings line = false)
    (more : Text) : answered settings (input ++ '\n' :: more) =
      answered settings input ++ answered settings more := by
  have hall : ∀ line ∈ Text.lines input, (!ends settings line) = true := by simpa using h
  unfold answered answeredOf
  rw [Text.lines_append, List.takeWhile_append_of_pos hall, List.takeWhile_eq_self_iff.mpr hall]
  simp

theorem answered_append_of_ended (h : ∃ line ∈ Text.lines input, ends settings line = true)
    (more : Text) : answered settings (input ++ '\n' :: more) = answered settings input := by
  have hlt : ((Text.lines input).takeWhile fun line => !ends settings line).length ≠
      (Text.lines input).length := by
    intro hl
    have hself := (List.takeWhile_prefix _).eq_of_length hl
    obtain ⟨line, hm, he⟩ := h
    have := List.takeWhile_eq_self_iff.mp hself line hm
    simp [he] at this
  unfold answered answeredOf
  rw [Text.lines_append, List.takeWhile_append, if_neg hlt]

/-- An open session goes on as if it had just begun. -/
theorem run_append_of_open (h : ∀ line ∈ Text.lines input, ends settings line = false)
    (more : Text) : (run styled settings false (input ++ '\n' :: more)).output =
      (run styled settings false input).output ++ (run styled settings false more).output := by
  rw [run_eq, run_eq, run_eq, answered_append_of_open h]
  simp

/-- Nothing behind the end counts. -/
theorem run_append_of_ended (h : ∃ line ∈ Text.lines input, ends settings line = true)
    (more : Text) :
    run styled settings false (input ++ '\n' :: more) = run styled settings false input := by
  rw [run_eq, run_eq, answered_append_of_ended h]

/-! ## Records -/

theorem isRecord_result {expression : Text} {q : Quantity} (h : evaluate expression = .ok q) :
    IsRecord expression [("input".toList, .string expression), ("result".toList, q.toJson)] where
  nodup := show ["input".toList, "result".toList].Nodup by decide
  input := rfl
  exactlyOne := show true ≠ false by decide
  result q' h' := by rw [← Except.ok.inj (h.symm.trans h')]; rfl
  error e h' := by simp [h] at h'

theorem isRecord_error {expression : Text} {e : EvalError} (h : evaluate expression = .error e) :
    IsRecord expression
      [("input".toList, .string expression), ("error".toList, .string e.message)] where
  nodup := show ["input".toList, "error".toList].Nodup by decide
  input := rfl
  exactlyOne := show false ≠ true by decide
  result q h' := by simp [h] at h'
  error e' h' := by rw [← Except.error.inj (h.symm.trans h')]; rfl

theorem exists_isRecord (styled : Styling) (expression : Text) :
    ∃ fields, Json.ofText (answer styled .json expression) = some (.object fields) ∧
      IsRecord expression fields := by
  have hread : Json.ofText (answer styled .json expression) =
      some ((Outcome.ofExpression expression).toJson expression) := Json.ofText_render _
  rw [hread]
  unfold Outcome.ofExpression
  cases h : evaluate expression with
  | ok q => exact ⟨_, rfl, isRecord_result h⟩
  | error e => exact ⟨_, rfl, isRecord_error h⟩

/-! ## Settings of an environment -/

theorem exitKeyword_ne_nil (environment : Text → Option Text) :
    (Settings.ofEnvironment environment).exitKeyword ≠ [] := by
  have hkeyword : ∀ value keyword, Settings.keyword? value = some keyword → keyword ≠ [] := by
    intro value keyword h
    simp only [Settings.keyword?] at h
    split at h
    · cases h
    · rename_i hne
      cases h
      simpa using hne
  simp only [Settings.ofEnvironment]
  cases h : (environment Settings.exitVariable).bind Settings.keyword? with
  | none => exact List.cons_ne_nil _ _
  | some keyword =>
    obtain ⟨value, -, hv⟩ := Option.bind_eq_some_iff.mp h
    exact hkeyword value keyword hv

theorem ends_eq_isExit (h : settings.exitKeyword ≠ []) (line : Text) :
    ends settings line = settings.isExit line := by
  unfold ends
  by_cases hb : Text.trim line = []
  · have : settings.isExit line = false := by
      simpa [Settings.isExit, Text.sameLetters, Text.lower, hb] using Ne.symm h
    simp [this]
  · simp [hb]

/-! ## The law -/

/-- **Framing.** Where colours add no newline, the output of a session that is not interactive is
one line for each line that is answered, in order; each line depends on what it answers and holds
no newline but its end. A session that is still open goes on with more input as if it had just
begun, and one that has ended does not go on. In JSON each line decodes to the record of what it
answers. Whatever the environment and the request, the lines that end the session are those that
`Settings.isExit` accepts. -/
theorem run_framed {styled : Styling}
    (hstyled : ∀ color text, '\n' ∉ text → '\n' ∉ styled color text) (settings : Settings)
    (input : Text) :
    let session := run styled settings false
    ((session input).output =
        (answered settings input).flatMap fun e => answer styled settings.output e ++ ['\n']) ∧
      (session input).answers = (answered settings input).length ∧
      (∀ e, '\n' ∉ answer styled settings.output e) ∧
      Text.lines (session input).output =
        (answered settings input).map (answer styled settings.output) ++ [[]] ∧
      (∀ more, (∀ line ∈ Text.lines input, ends settings line = false) →
        (session (input ++ '\n' :: more)).output =
          (session input).output ++ (session more).output) ∧
      (∀ more, (∃ line ∈ Text.lines input, ends settings line = true) →
        session (input ++ '\n' :: more) = session input) ∧
      (settings.output = .json → ∀ (i : Nat) e, (answered settings input)[i]? = some e →
        ∃ line fields, (Text.lines (session input).output)[i]? = some line ∧
          Json.ofText line = some (.object fields) ∧ IsRecord e fields) ∧
      (∀ environment (request : Request), settings = request.settings (.ofEnvironment environment) →
        ∀ line, ends settings line = settings.isExit line) := by
  intro session
  have heq := run_eq styled settings input
  refine ⟨congrArg Transcript.output heq, congrArg Transcript.answers heq,
    newline_not_mem_answer hstyled _, lines_run hstyled settings input,
    fun more h => run_append_of_open h more, fun more h => run_append_of_ended h more, ?_, ?_⟩
  · intro hjson i e he
    obtain ⟨fields, hread, hrecord⟩ := exists_isRecord styled e
    refine ⟨answer styled .json e, fields, ?_, hread, hrecord⟩
    have hi : i < ((answered settings input).map (answer styled settings.output)).length := by
      rw [List.length_map]
      exact (List.getElem?_eq_some_iff.mp he).1
    rw [lines_run hstyled, List.getElem?_append_left hi, List.getElem?_map, he, hjson]
    rfl
  · intro environment request hs line
    refine ends_eq_isExit ?_ line
    rw [hs]
    exact exitKeyword_ne_nil environment

/-- A session in JSON with an error, a line of blanks and an exit keyword in other letters. -/
theorem run_framed_exit :
    let json : Settings := { output := .json }
    let session := run .escapes json false
    answered json "1+\r\n \n Exit\n2".toList = ["1+".toList] ∧
      (∃ line fields, (Text.lines (session "1+\r\n \n Exit\n2".toList).output)[0]? = some line ∧
        Json.ofText line = some (.object fields) ∧ IsRecord "1+".toList fields) ∧
      (session ("1+\r\n ".toList ++ '\n' :: " Exit\n2".toList)).output =
        (session "1+\r\n ".toList).output ++ (session " Exit\n2".toList).output ∧
      session ("1+\r\n \n Exit".toList ++ '\n' :: "2".toList) =
        session "1+\r\n \n Exit".toList ∧
      ends json " Exit".toList = json.isExit " Exit".toList := by
  intro json session
  have hstyled := Styling.newline_not_mem_escapes
  have hanswered : answered json "1+\r\n \n Exit\n2".toList = ["1+".toList] := by decide +kernel
  obtain ⟨-, -, -, -, hopen, -, -, -⟩ := run_framed hstyled json "1+\r\n ".toList
  obtain ⟨-, -, -, -, -, hended, -, -⟩ := run_framed hstyled json "1+\r\n \n Exit".toList
  obtain ⟨-, -, -, -, -, -, hjson, hexit⟩ := run_framed hstyled json "1+\r\n \n Exit\n2".toList
  refine ⟨hanswered, hjson rfl 0 _ (by rw [hanswered]; rfl), hopen _ (by decide +kernel),
    hended _ ⟨" Exit".toList, by decide +kernel, by decide +kernel⟩, ?_⟩
  exact hexit (fun _ => none) ⟨true, none, none⟩ (by decide +kernel) _

end BinaryPoint.Session
