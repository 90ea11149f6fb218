import TreeLang.Eval.Basic
import TreeLang.Text.Pieces
import TreeLang.Text.Upper

/-!
# Builtin functions at work

Every builtin function checks the number and the kinds of its arguments before it acts. Those that
call back take the calling of a function as a parameter, so nothing here refers to the evaluator.
-/

namespace TreeLang

/-- Why a builtin function has no value. -/
inductive Primitive.Refusal where
  | arity (p : Primitive) (expected given : Nat)
  | noArgument (p : Primitive)
  | kind (p : Primitive) (wanted : String) (given : Value)
  | channel (p : Primitive) (text : String)

/-- The report of a refusal. -/
def Primitive.Refusal.diagnostic : Primitive.Refusal → Diagnostic
  | .arity p expected given =>
    runtimeFault .arityMismatch
      (p.name ++ " expects " ++ Text.counted expected "argument" ++ ", got " ++ toString given)
  | .noArgument p =>
    runtimeFault .arityMismatch (p.name ++ " expects at least 1 argument, got 0")
  | .kind p wanted given =>
    runtimeFault .unsupportedOperandKind
      (p.name ++ " expects " ++ wanted ++ ", got " ++ given.kindName)
  | .channel p text => runtimeFault .runtimeError (p.name ++ ": " ++ text)

namespace Primitive

/-! ## Arguments -/

/-- A number, or a refusal. -/
def asNumber (p : Primitive) : Value → Except Refusal Float
  | .number x _ => .ok x
  | v => .error (.kind p "a Number" v)

/-- A text, or a refusal. -/
def asText (p : Primitive) : Value → Except Refusal String
  | .text s _ => .ok s
  | v => .error (.kind p "a String" v)

/-- A truth value, or a refusal. -/
def asBool (p : Primitive) : Value → Except Refusal Bool
  | .bool b _ => .ok b
  | v => .error (.kind p "a Boolean" v)

/-- A list, or a refusal. -/
def asList (p : Primitive) : Value → Except Refusal (List Value)
  | .list xs _ => .ok xs
  | v => .error (.kind p "a List" v)

/-- A dictionary, or a refusal. -/
def asDict (p : Primitive) : Value → Except Refusal Dict
  | .dict d _ => .ok d
  | v => .error (.kind p "a Dict" v)

/-- Something that can be called, or a refusal. -/
def asCallable (p : Primitive) (v : Value) : Except Refusal Value :=
  if v.isCallable then .ok v else .error (.kind p "a function" v)

/-! ## Functions without effects -/

/-- The text of an element in `join`: as printed, and nothing for nil. -/
def joined : Value → String
  | .nil => ""
  | v => v.inspect

/-- The value of a builtin function that neither prints, nor reads, nor calls back. The others have
none here. -/
def pureResult (p : Primitive) (args : List Value) : Option (Except Refusal Value) :=
  let wrong (n : Nat) : Option (Except Refusal Value) := some (.error (.arity p n args.length))
  match p with
  | .add => some do
    let xs ← args.mapM p.asNumber
    pure (.number (xs.foldl (· + ·) 0.0) .fresh)
  | .mul => some do
    let xs ← args.mapM p.asNumber
    pure (.number (xs.foldl (· * ·) 1.0) .fresh)
  | .len =>
    match args with
    | [.text s _] => some (.ok (.number (Float.ofNat s.length) .fresh))
    | [.list xs _] => some (.ok (.number (Float.ofNat xs.length) .fresh))
    | [.dict d _] => some (.ok (.number (Float.ofNat d.length) .fresh))
    | [v] => some (.error (.kind p "a String, List or Dict" v))
    | _ => wrong 1
  | .toUpperCase =>
    match args with
    | [a] => some do pure (.text (Text.upper (← p.asText a)) .fresh)
    | _ => wrong 1
  | .split =>
    match args with
    | [a, b] => some do
      let s ← p.asText a
      let sep ← p.asText b
      pure (.list ((Text.split s sep).map (.text · .fresh)) .fresh)
    | _ => wrong 2
  | .join =>
    match args with
    | [a, b] => some do
      let xs ← p.asList a
      let sep ← p.asText b
      pure (.text (Text.join sep (xs.map joined)) .fresh)
    | _ => wrong 2
  | .keys =>
    match args with
    | [a] => some do pure (.list ((← p.asDict a).map fun e => e.1.value) .fresh)
    | _ => wrong 1
  | .values =>
    match args with
    | [a] => some do pure (.list ((← p.asDict a).map fun e => e.2) .fresh)
    | _ => wrong 1
  | .get =>
    match args with
    | [a, k] => some do
      let d ← p.asDict a
      pure (((Key.ofValue? k).bind fun k => Dict.get? k d).getD .nil)
    | _ => wrong 2
  | .hasKey =>
    match args with
    | [a, k] => some do
      let d ← p.asDict a
      pure (.bool ((Key.ofValue? k).bind fun k => Dict.get? k d).isSome .shared)
    | _ => wrong 2
  | .merge =>
    match args with
    | [a, b] => some do
      let left ← p.asDict a
      let right ← p.asDict b
      pure (.dict (Dict.merge left right) .fresh)
    | _ => wrong 2
  | .and =>
    match args with
    | [a, b] => some do
      let x ← p.asBool a
      let y ← p.asBool b
      pure (.bool (x && y) .shared)
    | _ => wrong 2
  | .or =>
    match args with
    | [a, b] => some do
      let x ← p.asBool a
      let y ← p.asBool b
      pure (.bool (x || y) .shared)
    | _ => wrong 2
  | .not =>
    match args with
    | [a] => some do pure (.bool (!(← p.asBool a)) .shared)
    | _ => wrong 1
  | .print | .input | .map | .filter | .reduce => none

end Primitive

namespace Exec

/-- A result that may be refused. -/
def ofRefusable (r : Except Primitive.Refusal Value) : Exec Value :=
  match r with
  | .ok v => Exec.pure v
  | .error e => Exec.fault e.diagnostic

/-- Prints a line. -/
def printLine (line : String) : Exec Unit := fun s =>
  match s.channels.outFailure with
  | some text => (.fault (Primitive.Refusal.channel .print text).diagnostic, s)
  | none =>
    let { frame, channels, made } := s
    let { out, outFailure, source, reader, inFailure, calls } := channels
    (.value (),
      ⟨frame, ⟨out ++ line ++ "\n", outFailure, source, reader, inFailure, calls⟩, made⟩)

/-- Reads a line; at the end of the input it is empty. A carriage return at the end of the line is
dropped, also if no line feed follows. -/
def readLine : Exec String := fun s =>
  match s.channels.inFailure with
  | some text => (.fault (Primitive.Refusal.channel .input text).diagnostic, s)
  | none =>
    let (line, reader) := (s.channels.reader.getD { stream := s.channels.source }).line
    (.value (Text.dropReturn line).text,
      { s with channels := { s.channels with reader := some reader } })

/-- The results of calling a function on each element; `done` has those so far, backwards. -/
def mapElems (call : List Value → Exec Value) : List Value → (done : List Value) →
    Exec (List Value)
  | [], done => Exec.pure done.reverse
  | x :: xs, done => fun s =>
    match call [x] s with
    | (.value v, s) => mapElems call xs (v :: done) s
    | (.fault d, s) => (.fault d, s)
    | (.crash, s) => (.crash, s)
    | (.unfinished, s) => (.unfinished, s)

/-- The elements on which a function gives something true; `done` has those so far, backwards. -/
def filterElems (call : List Value → Exec Value) : List Value → (done : List Value) →
    Exec (List Value)
  | [], done => Exec.pure done.reverse
  | x :: xs, done => fun s =>
    match call [x] s with
    | (.value v, s) => filterElems call xs (if v.truthy then x :: done else done) s
    | (.fault d, s) => (.fault d, s)
    | (.crash, s) => (.crash, s)
    | (.unfinished, s) => (.unfinished, s)

/-- Folds elements from the left. -/
def foldElems (call : List Value → Exec Value) : List Value → (acc : Value) → Exec Value
  | [], acc => Exec.pure acc
  | x :: xs, acc => fun s =>
    match call [acc, x] s with
    | (.value v, s) => foldElems call xs v s
    | (.fault d, s) => (.fault d, s)
    | (.crash, s) => (.crash, s)
    | (.unfinished, s) => (.unfinished, s)

end Exec

/-- Runs a builtin function; `call` calls a function on arguments. -/
def Primitive.run (call : Value → List Value → Exec Value) (p : Primitive) (args : List Value) :
    Exec Value :=
  let wrong (n : Nat) : Exec Value := Exec.fault (Refusal.arity p n args.length).diagnostic
  match p.pureResult args with
  | some r => Exec.ofRefusable r
  | none =>
    match p with
    | .print =>
      match args with
      | [] => Exec.fault (Refusal.noArgument p).diagnostic
      | first :: _ => do
        Exec.printLine (Text.join " " (args.map Value.inspect))
        pure first
    | .input =>
      match args with
      | [] => do pure (.text (← Exec.readLine) .fresh)
      | _ => wrong 0
    | .map =>
      match args with
      | [a, f] =>
        match p.asList a, p.asCallable f with
        | .error e, _ => Exec.fault e.diagnostic
        | _, .error e => Exec.fault e.diagnostic
        | .ok xs, .ok f => do pure (.list (← Exec.mapElems (call f) xs []) .fresh)
      | _ => wrong 2
    | .filter =>
      match args with
      | [a, f] =>
        match p.asList a, p.asCallable f with
        | .error e, _ => Exec.fault e.diagnostic
        | _, .error e => Exec.fault e.diagnostic
        | .ok xs, .ok f => do pure (.list (← Exec.filterElems (call f) xs []) .fresh)
      | _ => wrong 2
    | .reduce =>
      match args with
      | [a, f, start] =>
        match p.asList a, p.asCallable f with
        | .error e, _ => Exec.fault e.diagnostic
        | _, .error e => Exec.fault e.diagnostic
        | .ok xs, .ok f => Exec.foldElems (call f) xs start
      | _ => wrong 3
    | _ => Exec.pure .nil

end TreeLang
