import TreeLang.Files.Tree
import TreeLang.Text.Lines

/-!
# The console

What commands need of the world around them: files, the streams, and the record of earlier entries.
Commands are written for any monad with these operations. A `World` is one that is all data, so that
a command on it is a plain function.
-/

namespace TreeLang.Command

/-- The world as a command sees it. -/
structure Console (m : Type → Type) where
  /-- The working directory. -/
  base : m Path.Location
  /-- The text of the file at a path. -/
  readFile : String → m (Except FileFault String)
  /-- Something stands at a path. -/
  isPresent : String → m Bool
  /-- Takes all that is left of the input. -/
  input : m Text.Octets
  /-- Takes what is left of the input for a program that may read some of it, as far as that can be
  had at once. -/
  lend : m Text.Octets
  /-- Takes back what has been lent and not been used. -/
  takeBack : Text.Octets → m Unit
  /-- Feeds the lines of the input to a step until the step says to stop, which is the truth value
  beside the last state, or until there are no more. -/
  foldLines : {σ : Type} → (σ → Text.Line → m (Bool × σ)) → σ → m (Bool × σ)
  print : String → m Unit
  printError : String → m Unit
  /-- The record of entries as it was left; nothing if none is kept. -/
  readHistory : m (Option Text.Octets)
  writeHistory : String → m Unit

/-- A world of data. -/
structure World where
  files : FileTree := {}
  input : Text.Octets := []
  out : String := ""
  err : String := ""
  keepsHistory : Bool := true
  history : Option String := none
deriving Repr, Inhabited

namespace World

/-- Feeds at most `count` lines to a step until it says to stop. The reader of the lines holds
`held`; a step may take more of the input. -/
def feed {σ : Type} (step : σ → Text.Line → StateM World (Bool × σ)) :
    (count : Nat) → (held : Text.Octets) → σ → StateM World (Bool × σ)
  | 0, _, s => pure (false, s)
  | count + 1, held, s => do
    let w ← get
    match Text.LineReader.next? { held, stream := w.input } with
    | none => pure (false, s)
    | some (line, reader) =>
      set { w with input := reader.stream }
      let (stop, s) ← step s line
      if stop then pure (true, s) else feed step count reader.held s

/-- Takes the whole input. -/
def takeInput : StateM World Text.Octets := do
  let w ← get
  set { w with input := [] }
  pure w.input

/-- The console of a world. -/
def console : Console (StateM World) where
  base := do pure (← get).files.base
  readFile path := do pure ((← get).files.read path)
  isPresent path := do pure ((← get).files.isPresent path)
  input := takeInput
  lend := takeInput
  takeBack rest := modify fun w => { w with input := rest }
  foldLines step s := do feed step (← get).input.length [] s
  print text := modify fun w => { w with out := w.out ++ text }
  printError text := modify fun w => { w with err := w.err ++ text }
  readHistory := do
    let w ← get
    pure (if w.keepsHistory then some (.ofText (w.history.getD "")) else none)
  writeHistory text := modify fun w => { w with history := some text }

end World

end TreeLang.Command
