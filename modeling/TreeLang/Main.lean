import TreeLang.Command.Run

/-!
# The program

The console of the running system: files, standard streams, and the record of entries in the home
directory.
-/

namespace TreeLang.Terminal

open Command

/-- Why the system refuses a file. -/
def faultOf : IO.Error → FileFault
  | .inappropriateType _ code _ => if code = 21 then .isDirectory else .notDirectory
  | _ => .missing

/-- The text of a file. -/
def readFile (path : String) : IO (Except FileFault String) := do
  try pure (.ok (← IO.FS.readFile path))
  catch e => pure (.error (faultOf e))

/-- Something stands at a path: a file, or a directory, which only cannot be read. -/
def isPresent (path : String) : IO Bool := do
  match ← readFile path with
  | .ok _ => pure true
  | .error f => pure (f = .isDirectory)

/-- The octets in an array. -/
def octets (bytes : ByteArray) : Text.Octets := bytes.toList.map UInt8.toNat

/-- Octets of the standard input that have been read and were not needed. -/
abbrev Spare := IO.Ref Text.Octets

/-- All that is left of the standard input. -/
def takeInput (spare : Spare) : IO Text.Octets := do
  let front ← spare.modifyGet fun os => (os, [])
  pure (front ++ octets (← (← IO.getStdin).readBinToEnd))

/-- At most `count` octets of the standard input, none at its end. -/
def takeSome (spare : Spare) (count : Nat) : IO Text.Octets := do
  match ← spare.modifyGet fun os => (os.take count, os.drop count) with
  | [] => pure (octets (← (← IO.getStdin).read count.toUSize))
  | os => pure os

/-- Fills a reader until it is ready or the standard input ends. -/
partial def fill (spare : Spare) (reader : Text.LineReader) : IO Text.LineReader := do
  if reader.isReady then pure reader
  else match ← takeSome spare (Text.LineReader.capacity - reader.held.length) with
    | [] => pure reader
    | os => fill spare { reader with held := reader.held ++ os }

/-- Feeds the lines of the standard input to a step. -/
partial def foldLines (spare : Spare) {σ : Type} (step : σ → Text.Line → IO (Bool × σ))
    (reader : Text.LineReader) (s : σ) : IO (Bool × σ) := do
  match (← fill spare reader).next? with
  | none => pure (false, s)
  | some (line, reader) =>
    let (stop, s) ← step s line
    if stop then pure (true, s) else foldLines spare step reader s

/-- Where the record of entries is kept; nowhere while the program is tested or without a home. -/
def historyPath : IO (Option String) := do
  if (← IO.getEnv "MINILANG_TEST_MODE") = some "1" then pure none
  else pure ((← IO.getEnv "HOME").map (· ++ "/.minilang_history"))

/-- Writes to a stream at once. -/
def write (stream : IO.FS.Stream) (text : String) : IO Unit := do
  stream.putStr text
  stream.flush

/-- The console of the running system. Nothing is lent of what is typed at a terminal. -/
def console (spare : Spare) : Console IO where
  base := do pure (Path.locate [] (← IO.currentDir).toString)
  readFile := readFile
  isPresent := isPresent
  input := takeInput spare
  lend := do if ← (← IO.getStdin).isTty then pure [] else takeInput spare
  takeBack rest := spare.set rest
  foldLines step s := foldLines spare step {} s
  print text := do write (← IO.getStdout) text
  printError text := do write (← IO.getStderr) text
  readHistory := do
    match ← historyPath with
    | none => pure none
    | some path =>
      try pure (some (octets (← IO.FS.readBinFile path))) catch _ => pure (some [])
  writeHistory text := do
    match ← historyPath with
    | none => pure ()
    | some path => try IO.FS.writeFile path text catch _ => pure ()

end TreeLang.Terminal

/-- Runs the program. -/
def main (args : List String) : IO UInt32 := do
  let spare ← IO.mkRef []
  let exit ← TreeLang.Command.run (TreeLang.Terminal.console spare) args
  pure exit.code.toUInt32
