import TreeLang.Document.Meaning
import TreeLang.Settings.Basic
import TreeLang.Settings.Duration
import TreeLang.Text.Base64

/-!
# Settings from a document

A mapping sets the fields that it names; other keys are passed over, and null leaves a field as it
is. What does not fit is noted and reading goes on, so that all misfits are told at once. Then the
values are examined, and last, a field that is still empty or zero takes its default.
-/

namespace TreeLang.Settings

open Document (Node Graph Flaw Meaning Position)

/-! ## Misfits -/

/-- What a value is read into. -/
inductive Target where
  | text
  | bool
  | int
  | duration
  | server
  | settings
deriving DecidableEq, Repr

/-- The name of a target in messages. -/
def Target.name : Target → String
  | .text => "string"
  | .bool => "bool"
  | .int => "int"
  | .duration => "time.Duration"
  | .server => "config.ServerConfig"
  | .settings => "config.Config"

/-- Something in the document that does not fit. -/
inductive Misfit where
  | value (line : Nat) (tag text : String) (target : Target)
  | repeatedKey (line : Nat) (key : String) (first : Nat)
  | repeatedField (line : Nat) (name : String) (target : Target)
deriving DecidableEq, Repr

/-- The first `limit` bytes of a text; of a character cut in two, a replacement mark for each byte
that is kept. -/
def firstBytes : (limit : Nat) → List Char → List Char
  | _, [] => []
  | limit, c :: r =>
    if c.utf8Size ≤ limit then c :: firstBytes (limit - c.utf8Size) r
    else List.replicate limit (Char.ofNat 0xFFFD)

/-- A value in a message: between backquotes, a long one shortened. -/
def shownValue (text : String) : String :=
  " \x60" ++
    (if text.utf8ByteSize > 10 then String.ofList (firstBytes 7 text.toList) ++ "..." else text) ++
    "\x60"

/-- The wording of a misfit. Of collections, only the tag is told. -/
def Misfit.message : Misfit → String
  | .value line tag text target =>
    "line " ++ toString line ++ ": cannot unmarshal " ++ tag ++
      (if tag = "!!seq" || tag = "!!map" then text else shownValue text) ++ " into " ++ target.name
  | .repeatedKey line key first =>
    "line " ++ toString line ++ ": mapping key " ++ Text.quoted key ++
      " already defined at line " ++ toString first
  | .repeatedField line name target =>
    "line " ++ toString line ++ ": field " ++ name ++ " already set in type " ++ target.name

/-- How far a reading has come: the misfits, last first, the number of nodes visited, how many of
them inside an alias, and the places of the aliases that are being followed. -/
structure Progress where
  misfits : List Misfit := []
  visited : Nat := 0
  aliased : Nat := 0
  aliases : List Position := []
deriving Repr

/-- What a document sets. What it does not name is empty or zero. -/
structure Draft where
  scoping : Text.Octets := []
  skipCheck : Bool := false
  maxDepth : Int := 0
  address : String := ""
  timeout : Int := 0
deriving DecidableEq, Repr

/-- A reading that notes misfits, and ends at a flaw. -/
abbrev Decode := StateT Progress (Except Flaw)

/-- How much of a reading may come from aliases, by the number of nodes visited. The share falls
from 99 to 10 parts in a hundred between 400 thousand and 4 million nodes. -/
def aliasShare (visited : Nat) : Float :=
  if visited ≤ 400000 then 0.99
  else if visited ≥ 4000000 then 0.10
  else 0.99 - 0.89 * (Float.ofNat (visited - 400000) / 3600000.0)

/-- Most of the reading comes from aliases: the document unfolds beyond measure. -/
def Progress.isExcessive (p : Progress) : Bool :=
  p.aliased > 100 && p.visited > 1000 &&
    Float.ofNat p.aliased / Float.ofNat p.visited > aliasShare p.visited

namespace Decode

/-- Notes a misfit. -/
def note (m : Misfit) : Decode Unit := modify fun p => { p with misfits := m :: p.misfits }

/-- Counts one node. -/
def count : Decode Unit := do
  let p ← get
  let p := { p with
    visited := p.visited + 1
    aliased := if p.aliases.isEmpty then p.aliased else p.aliased + 1 }
  if p.isExcessive then throw .malformed
  set p

/-- Reads a node by `read`. An alias is followed first, and must not come up again while it is. -/
def visit {α : Type} (g : Graph) (n : Node) (read : Node → Decode α) : Decode α := do
  count
  match n with
  | .alias pos .. =>
    if (← get).aliases.contains pos then throw .malformed
    modify fun p => { p with aliases := pos :: p.aliases }
    count
    let a ← read (g.follow n)
    modify fun p => { p with aliases := p.aliases.drop 1 }
    pure a
  | n => read n

/-- Two nodes of the same kind with the same text count as the same key. -/
def sameKey : Node → Node → Bool
  | .scalar _ _ _ a, .scalar _ _ _ b => a == b
  | .sequence .., .sequence .. => true
  | .mapping .., .mapping .. => true
  | .alias _ a _, .alias _ b _ => a == b
  | _, _ => false

/-- The keys that come up again, each with the places of both. -/
def repeatedKeys : List Node → List Misfit
  | [] => []
  | k :: ks =>
    (ks.filter (sameKey k)).map (fun l => .repeatedKey l.pos.line l.text k.pos.line) ++
      repeatedKeys ks

/-- Notes the repeated keys of a mapping and tells whether there are none. -/
def keysDiffer (entries : List (Node × Node)) : Decode Bool := do
  let found := repeatedKeys (entries.map (·.1))
  found.forM note
  pure found.isEmpty

/-! ## Single values -/

/-- The octets of a scalar and its meaning. Binary data, by its tag, is written in base 64. -/
def content? (tag : Option String) (style : Document.Style) (text : String) :
    Option (Text.Octets × Meaning) :=
  if tag = some "!!binary" then (Text.Base64.decode? text).map fun os => (os, .text os.text)
  else (Document.scalarMeaning? tag style text).map (Text.Octets.ofText text, ·)

/-- Reads a scalar by `fit`, which gets its octets and its meaning. Null gives nothing, and what
does not fit is noted. -/
def fitScalar {α : Type} (target : Target) (fit : Text.Octets → Meaning → Option α) (n : Node) :
    Decode (Option α) :=
  match n with
  | .scalar pos tag style text =>
    match content? tag style text with
    | none => throw .malformed
    | some (_, .null) => pure none
    | some (said, m) =>
      match fit said m with
      | some a => pure (some a)
      | none => do
        note (.value pos.line (Document.scalarTag tag style text) text target)
        pure none
  | .sequence pos tag _ => do
    note (.value pos.line (tag.getD "!!seq") "" target)
    pure none
  | .mapping pos tag entries => do
    if ← keysDiffer entries then note (.value pos.line (tag.getD "!!map") "" target)
    pure none
  | .alias .. => throw .malformed

/-- Visits a scalar and reads it by `fit`. -/
def scalar {α : Type} (g : Graph) (target : Target) (fit : Text.Octets → Meaning → Option α)
    (n : Node) : Decode (Option α) :=
  visit g n (fitScalar target fit)

/-- The octets of any scalar. -/
def octets (g : Graph) (n : Node) : Decode (Option Text.Octets) :=
  scalar g .text (fun os _ => some os) n

/-- The text of any scalar. -/
def text (g : Graph) (n : Node) : Decode (Option String) :=
  scalar g .text (fun os _ => some os.text) n

/-- A truth value, or one of the words that stand for one. -/
def boolOf : Meaning → Option Bool
  | .bool b => some b
  | .text s =>
    if ["y", "Y", "yes", "Yes", "YES", "on", "On", "ON"].contains s then some true
    else if ["n", "N", "no", "No", "NO", "off", "Off", "OFF"].contains s then some false
    else none
  | _ => none

/-- An integer of 64 bits with sign; of a float up to 2^63, its whole part. -/
def intOf : Meaning → Option Int
  | .int n => if Decimal.fitsSigned n then some n else none
  | .float x => if x ≤ 9223372036854775808 then some (Decimal.cut x) else none
  | _ => none

/-- A span of time, from its text only. -/
def durationOf : Meaning → Option Int
  | .text s => Duration.read? s
  | .mergeMark => none
  | _ => none

/-! ## Mappings -/

/-- A field that a mapping may set. -/
structure Field (σ : Type) where
  name : String
  store : Node → σ → Decode σ

/-- A field whose value is read by `read` and put in place by `put`. -/
def field {σ α : Type} (name : String) (read : Node → Decode (Option α)) (put : σ → α → σ) :
    Field σ :=
  ⟨name, fun n s => do
    match ← read n with
    | some a => pure (put s a)
    | none => pure s⟩

/-- The key that merges another mapping into this one. -/
def isMerge : Node → Bool
  | .scalar _ tag style text =>
    text == "<<" && (tag == some "!!merge" || (tag.isNone && style == .plain))
  | _ => false

/-- The mappings that a merge key names: one, or a sequence of them. -/
def mergeSources (g : Graph) (n : Node) : Except Flaw (List Node) :=
  let isMapping (n : Node) : Bool := match g.follow n with
    | .mapping .. => true
    | _ => false
  match n with
  | .sequence _ _ items => if items.all isMapping then .ok items else .error .malformed
  | n => if isMapping n then .ok [n] else .error .malformed

/-- Stores the entries in order, merge keys apart. `taken` are names that are already settled: when
mappings are merged, a name counts once only. Without a merge, a field named twice is noted. -/
def storeEntries {σ : Type} (g : Graph) (target : Target) (fields : List (Field σ)) :
    List (Node × Node) → (taken : Option (List String)) → (done : List String) → σ →
    Decode (σ × Option (List String))
  | [], taken, _, s => pure (s, taken)
  | (k, v) :: rest, taken, done, s => do
    if isMerge k then storeEntries g target fields rest taken done s
    else match ← text g k with
      | none => storeEntries g target fields rest taken done s
      | some name =>
        if (taken.getD []).contains name then storeEntries g target fields rest taken done s
        else
          let taken := taken.map (name :: ·)
          match fields.find? (·.name == name) with
          | none => storeEntries g target fields rest taken done s
          | some f =>
            if done.contains name then
              note (.repeatedField k.pos.line name target)
              storeEntries g target fields rest taken done s
            else
              let s ← f.store v s
              storeEntries g target fields rest taken (name :: done) s

/-- The names of the keys of a mapping, those without a text apart. -/
def keyNames (g : Graph) : List (Node × Node) → Decode (List String)
  | [] => pure []
  | (k, _) :: rest => do
    let name ← visit g k fun
      | .scalar _ tag style text => pure ((content? tag style text).map (·.1.text))
      | _ => pure none
    pure (name.toList ++ (← keyNames g rest))

/-- Reads a mapping into a record and merges the mappings that its last merge key names. `fuel`
bounds the chain of merges. -/
def record {σ : Type} (g : Graph) (target : Target) (fields : List (Field σ)) :
    (fuel : Nat) → (taken : Option (List String)) → Node → σ → Decode (σ × Option (List String))
  | 0, _, _, _ => throw .malformed
  | fuel + 1, taken, n, s =>
    visit g n fun
    | .mapping _ _ entries => do
      if ← keysDiffer entries then
        let (s, taken') ← storeEntries g target fields entries taken [] s
        match (entries.filter (isMerge ·.1)).getLast? with
        | none => pure (s, taken')
        | some (_, source) =>
          let names ← match taken' with
            | some names => pure names
            | none => keyNames g entries
          let sources ← mergeSources g source
          let (s, names) ← sources.foldlM
            (fun (s, names) m => record g target fields fuel names m s) (s, some names)
          pure (s, if taken.isSome then names else none)
      else pure (s, taken)
    | n => do
      let _ : Option Unit ← fitScalar target (fun _ _ => none) n
      pure (s, taken)

/-- Enough turns for every chain of merges without a cycle. -/
def mergeFuel (g : Graph) : Nat := (g.root.size + 1) * (g.root.size + 1)

/-- Reads a record. -/
def recordOf {σ : Type} (g : Graph) (target : Target) (fields : List (Field σ)) (n : Node) (s : σ) :
    Decode σ := do
  pure (← record g target fields (mergeFuel g) none n s).1

/-- The fields of the server's part. -/
def serverFields (g : Graph) : List (Field Draft) :=
  [field "addr" (text g) fun s a => { s with address := a },
   field "timeout" (scalar g .duration fun _ m => durationOf m) fun s t => { s with timeout := t }]

/-- The fields of settings. -/
def settingsFields (g : Graph) : List (Field Draft) :=
  [field "scoping" (octets g) fun s a => { s with scoping := a },
   field "skipCheck" (scalar g .bool fun _ m => boolOf m) fun s b => { s with skipCheck := b },
   field "maxDepth" (scalar g .int fun _ m => intOf m) fun s n => { s with maxDepth := n },
   ⟨"server", recordOf g .server (serverFields g)⟩]

end Decode

/-! ## Whole documents -/

/-- Why settings cannot be had from a text. -/
inductive Problem where
  | flaw (f : Flaw)
  | misfits (ms : List Misfit)
  | scoping (name : Text.Octets)
  | negativeDepth
  | negativeTimeout
deriving DecidableEq, Repr

/-- The wording of a problem with the file at `path`. -/
def Problem.message (path : String) : Problem → String
  | .flaw f => "parsing " ++ path ++ ": " ++ f.message
  | .misfits ms =>
    "parsing " ++ path ++ ": yaml: unmarshal errors:" ++
      String.join (ms.map fun m => "\n  " ++ m.message)
  | .scoping name => path ++ ": " ++ scopingRefusal name.quoted
  | .negativeDepth => path ++ ": maxDepth must not be negative"
  | .negativeTimeout => path ++ ": server.timeout must not be negative"

/-- What a document sets. -/
def decode (text : String) : Except Problem Draft :=
  match Document.read text with
  | .error f => .error (.flaw f)
  | .ok none => .ok {}
  | .ok (some g) =>
    -- The document itself counts as one node.
    let read := Decode.recordOf g .settings (Decode.settingsFields g) g.root {}
    match read.run { visited := 1 } with
    | .error f => .error (.flaw f)
    | .ok (d, p) => if p.misfits.isEmpty then .ok d else .error (.misfits p.misfits.reverse)

namespace Draft

/-- Examines the values, in the order in which they are told. -/
def validate (d : Draft) : Except Problem Unit :=
  if !d.scoping.isEmpty && !isScoping d.scoping.text then .error (.scoping d.scoping)
  else if d.maxDepth < 0 then .error .negativeDepth
  else if d.timeout < 0 then .error .negativeTimeout
  else .ok ()

/-- Settings with defaults in place of what is empty or zero. -/
def settings (d : Draft) : Settings :=
  let standard : Settings := {}
  { scoping := if d.scoping.isEmpty then standard.scoping else d.scoping.text
    skipCheck := d.skipCheck
    maxDepth := if d.maxDepth = 0 then standard.maxDepth else d.maxDepth
    address := if d.address = "" then standard.address else d.address
    timeout := if d.timeout = 0 then standard.timeout else d.timeout }

end Draft

/-- Settings from the text of a file. -/
def ofText (text : String) : Except Problem Settings := do
  let d ← decode text
  d.validate
  pure d.settings

end TreeLang.Settings
