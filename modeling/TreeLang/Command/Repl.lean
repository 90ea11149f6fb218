import TreeLang.Command.Console
import TreeLang.Command.Entry
import TreeLang.Session
import TreeLang.Text.Space

/-!
# The interactive session

Entries are read line by line. An entry that starts with a colon is a command to the session; all
others are definitions and expressions. Results go to the output and reports to the error output,
and no report ends the session.
-/

namespace TreeLang.Command

/-- The state of an interactive session. -/
structure Repl where
  session : Session := {}
  /-- The lines of an entry that is not complete. -/
  pending : String := ""
  /-- The lines of the entry are texts. Octets that belong to no character show as replacement
  marks, and no document can hold them. -/
  sound : Bool := true
  history : List String := []

namespace Repl

/-- The prompt for a new entry. -/
def mainPrompt : String := "minilang> "

/-- The prompt for a further line. -/
def morePrompt : String := "      ... "

/-- The help text. -/
def help : String := Text.unlines
  ["Enter an expression such as [\"+\", 1, 2] or a function definition.",
   "Commands:",
   "  :type <expr>   show the type of an expression without running it",
   "  :load <file>   run a program file inside this session",
   "  :help          show this help",
   "  :quit          leave the session"]

/-- A text without white space at its ends. -/
def trimmed (s : String) : String := String.ofList (Text.trim s.toList)

variable {m : Type → Type} [Monad m]

/-- Lets the session take a step, which may read from the input. Prints what the step printed, and
then its result or its report. -/
def attempt {α : Type} (c : Console m) (r : Repl) (step : Session → Session.Step α)
    (shown : α → Option String) : m Repl := do
  let (result, s) := step (r.session.lend (← c.lend))
  c.takeBack s.unread
  c.print s.channels.out
  match result with
  | .ok a =>
    match shown a with
    | some text => c.print (text ++ "\n")
    | none => pure ()
  | .error p => c.printError (p.message ++ "\n")
  pure { r with session := s.clearLog }

/-- A step on a text from file `file`, which fails if the text is not sound. -/
def onSound {α : Type} (sound : Bool) (file : String) (step : Session → Session.Step α)
    (s : Session) : Session.Step α :=
  if sound then step s else (.error (.malformed file), s)

/-- Runs a program in the session; a dash stands for what is left of the input. Its result is not
shown if it is nil. -/
def load (c : Console m) (r : Repl) (path : String) : m Repl := do
  let run (text file : String) (sound : Bool) : m Repl :=
    attempt c r (onSound sound file (·.evalProgram text file)) fun
      | .nil => none
      | v => some v.repr
  if path = "-" then
    let rest ← c.input
    run rest.text "<stdin>" rest.isText
  else match ← c.readFile path with
    | .ok text => run text path true
    | .error f =>
      c.printError ("reading " ++ path ++ ": " ++ f.message path ++ "\n")
      pure r

/-- Carries out a command. Tells whether to leave. -/
def command (c : Console m) (r : Repl) (sound : Bool) (line : String) : m (Bool × Repl) := do
  let (name, rest) := Text.cutAtFirst ' ' line
  let arg := trimmed rest
  let stay (r : Repl) : m (Bool × Repl) := pure (false, r)
  match name with
  | ":quit" | ":q" | ":exit" => pure (true, r)
  | ":help" | ":h" =>
    c.print help
    stay r
  | ":type" | ":t" =>
    let step := onSound sound Session.entryFile fun s => (s.typeOf arg, s)
    stay (← attempt c r step fun t => some t.render)
  | ":load" | ":l" => stay (← load c r arg)
  | _ =>
    c.printError ("unknown command " ++ name ++ " (try :help)\n")
    stay r

/-- Takes a complete entry. Blank ones count for nothing. -/
def take (c : Console m) (r : Repl) (entry : String) : m (Bool × Repl) := do
  let text := trimmed entry
  let sound := r.sound
  let r := { r with pending := "", sound := true }
  if text.isEmpty then pure (false, r)
  else
    let r := { r with history := addEntry r.history entry }
    if text.startsWith ":" then command c r sound text
    else
      let step := onSound sound Session.entryFile (·.eval entry)
      pure (false, ← attempt c r step fun v => v.map Value.repr)

/-- Takes a line and asks for the next one. Tells whether to leave. -/
def line (c : Console m) (r : Repl) (l : Text.Line) : m (Bool × Repl) := do
  let r := { r with sound := r.sound && l.octets.isText }
  match addLine r.pending l.octets.text with
  | .pending text =>
    c.print morePrompt
    pure (false, { r with pending := text })
  | .complete entry =>
    let (leave, r) ← take c r entry
    if !leave then c.print mainPrompt
    pure (leave, r)

/-- Takes what is pending at the end of the input. Tells whether to leave. -/
def atEnd (c : Console m) (r : Repl) : m (Bool × Repl) := do
  if r.pending.isEmpty then pure (false, r)
  else
    let (leave, r) ← take c r r.pending
    if !leave then c.print mainPrompt
    pure (leave, r)

/-- Reads entries until one asks to leave or the input ends. -/
def loop (c : Console m) (r : Repl) : m Repl := do
  c.print mainPrompt
  let (left, r) ← c.foldLines (line c) r
  if left then pure r
  else
    let (left, r) ← atEnd c r
    if !left then c.print "\n"
    pure r

/-- A whole session, with the record of entries read before and written after it. -/
def run (c : Console m) (session : Session) : m Unit := do
  let earlier ← c.readHistory
  let history := lastEntries (entriesOf (earlier.getD []))
  let r ← loop c { session, history }
  if earlier.isSome then c.writeHistory (Text.unlines r.history)

end Repl

end TreeLang.Command
