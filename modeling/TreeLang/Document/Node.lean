import TreeLang.Document.Scan

/-!
# The node graph of a document

A document is a tree of scalars, sequences and mappings. A node may carry an anchor, and an alias
stands for the node with that anchor, so the tree is a graph; an alias inside the collection that it
names makes it a cycle. Aliases keep the number of their target, and `Graph.follow` looks it up.
-/

namespace TreeLang.Document

/-- Where a node starts, counted from one. -/
structure Position where
  line : Nat
  column : Nat
deriving DecidableEq, Repr, Inhabited

/-- The position of a mark. -/
def Mark.position (m : Mark) : Position := ⟨m.line + 1, m.column + 1⟩

/-- A node. The tag of a scalar is absent when none is written; an alias has the name it refers to
and the number of the anchored node. -/
inductive Node where
  | scalar (pos : Position) (tag : Option String) (style : Style) (text : String)
  | sequence (pos : Position) (tag : Option String) (items : List Node)
  | mapping (pos : Position) (tag : Option String) (entries : List (Node × Node))
  | alias (pos : Position) (name : String) (target : Nat)
deriving Repr, Inhabited

/-- Where the node starts. -/
def Node.pos : Node → Position
  | .scalar p .. => p
  | .sequence p .. => p
  | .mapping p .. => p
  | .alias p .. => p

/-- The text of a scalar, the name of an alias; nothing for a collection. -/
def Node.text : Node → String
  | .scalar _ _ _ t => t
  | .alias _ n _ => n
  | _ => ""

mutual

/-- The number of nodes in the tree, aliases not followed. -/
def Node.size : Node → Nat
  | .scalar .. => 1
  | .sequence _ _ items => Node.sizeAll items + 1
  | .mapping _ _ entries => Node.sizeEntries entries + 1
  | .alias .. => 1

/-- The number of nodes in a list of trees. -/
def Node.sizeAll : List Node → Nat
  | [] => 0
  | n :: ns => n.size + Node.sizeAll ns

/-- The number of nodes in the entries of a mapping. -/
def Node.sizeEntries : List (Node × Node) → Nat
  | [] => 0
  | (k, v) :: es => k.size + v.size + Node.sizeEntries es

end

/-- A document: its root and the anchored nodes by number. -/
structure Graph where
  root : Node
  anchored : List (Nat × Node)
deriving Repr, Inhabited

/-- The node that an alias stands for; any other node stands for itself. -/
def Graph.follow (g : Graph) (n : Node) : Node :=
  match n with
  | .alias _ _ target => ((g.anchored.find? (·.1 == target)).map (·.2)).getD n
  | n => n

/-- What can be wrong with a text as a document. -/
inductive Flaw where
  | malformed
  | unknownAnchor (name : String)
deriving DecidableEq, Repr

/-- The wording of a flaw. -/
def Flaw.message : Flaw → String
  | .malformed => "yaml: syntax error"
  | .unknownAnchor name => "yaml: unknown anchor '" ++ name ++ "' referenced"

/-! ## From tokens to nodes -/

/-- The composer's state: the scanner of the text, the tag handles, the anchors seen so far with the
numbers of their nodes, and the anchored nodes that are complete. -/
structure Composer where
  scanner : Scanner
  handles : List (String × String) := []
  anchors : List (String × Nat) := []
  fresh : Nat := 0
  anchored : List (Nat × Node) := []

/-- A step of the composer, which may find a flaw. -/
abbrev Compose (α : Type) := StateT Composer (Except Flaw) α

namespace Compose

/-- The document is malformed. -/
def fail {α : Type} : Compose α := throw .malformed

/-- Lets the scanner work. -/
def lift {α : Type} (x : Fetch α) : Compose α := fun s =>
  match x s.scanner with
  | some (a, scanner) => .ok (a, { s with scanner })
  | none => .error .malformed

/-- The next token. -/
def peek : Compose Token := lift Fetch.peek

/-- Steps over the next token. -/
def skip : Compose Unit := lift Fetch.pass

/-- An empty plain scalar at a position. -/
def empty (m : Mark) : Node := .scalar m.position none .plain ""

/-- Gives the anchor's node a number. A later anchor of the same name hides the earlier one. -/
def declare (name : String) : Compose Nat := do
  let s ← get
  set { s with anchors := (name, s.fresh) :: s.anchors, fresh := s.fresh + 1 }
  pure s.fresh

/-- Completes the node of a declared anchor. -/
def complete (number : Option Nat) (n : Node) : Compose Node := do
  match number with
  | some k => modify fun s => { s with anchored := (k, n) :: s.anchored }
  | none => pure ()
  pure n

/-- The full tag for a written handle and suffix. A lone `!` is no tag. -/
def fullTag (handle suffix : String) : Compose String := do
  if handle.isEmpty then pure suffix
  else match (← get).handles.find? (·.1 == handle) with
    | some (_, uri) => if (uri ++ suffix).isEmpty then fail else pure (uri ++ suffix)
    | none => fail

/-- The short form of a tag: the standard address is written `!!`. -/
def shortTag (tag : String) : String :=
  let address := "tag:yaml.org,2002:"
  if tag.startsWith address then "!!" ++ (tag.drop address.length).toString else tag

/-- Anchor and tag in front of a node, in either order. -/
structure Properties where
  start : Mark
  anchor : Option String := none
  tag : Option String := none

/-- Reads the anchor and the tag in front of a node. -/
def properties : Compose Properties := do
  let t ← peek
  let readTag : Compose (Option (String × String)) := do
    match (← peek).kind with
    | .tag h s => skip; pure (some (h, s))
    | _ => pure none
  let readAnchor : Compose (Option String) := do
    match (← peek).kind with
    | .anchor a => skip; pure (some a)
    | _ => pure none
  let (anchor, tag) ←
    match t.kind with
    | .anchor a => do
      skip
      let tag ← readTag
      pure (some a, tag)
    | .tag h s => do
      skip
      let anchor ← readAnchor
      pure (anchor, some (h, s))
    | _ => pure (none, none)
  let tag ← tag.mapM fun (h, s) => fullTag h s
  pure ⟨t.start, anchor, tag⟩

/-- The tag that a node shows: a lone `!` counts as none. -/
def Properties.shown (p : Properties) : Option String :=
  match p.tag with
  | some "!" => none
  | some t => some (shortTag t)
  | none => none

/-- A node of which only an anchor or a tag is written: an empty scalar. -/
def absent (p : Properties) (number : Option Nat) : Compose Node :=
  if p.anchor.isSome || p.tag.isSome then
    complete number (.scalar p.start.position p.shown .plain "")
  else fail

/-- The token is one of those that leave a place empty. -/
def among (t : Token) (kinds : List Token.Kind) : Bool := kinds.contains t.kind

mutual

/-- One node. `block` allows block collections, `indentless` a sequence at the indentation of the
mapping around it. -/
def node (block indentless : Bool) : (fuel : Nat) → Compose Node
  | 0 => fail
  | fuel + 1 => do
    let t ← peek
    match t.kind with
    | .alias name =>
      skip
      match (← get).anchors.find? (·.1 == name) with
      | some (_, target) => pure (.alias t.start.position name target)
      | none => throw (.unknownAnchor name)
    | _ =>
      let p ← properties
      let t ← peek
      let pos := p.start.position
      let number ← p.anchor.mapM declare
      match t.kind with
      | .blockEntry =>
        if indentless then
          complete number (.sequence pos p.shown (← indentlessItems fuel))
        else absent p number
      | .scalar text style =>
        skip
        complete number (.scalar pos p.shown style text)
      | .flowSequenceStart =>
        skip
        complete number (.sequence pos p.shown (← flowItems true fuel))
      | .flowMappingStart =>
        skip
        complete number (.mapping pos p.shown (← flowEntries true fuel))
      | .blockSequenceStart =>
        if block then
          skip
          complete number (.sequence pos p.shown (← blockItems fuel))
        else absent p number
      | .blockMappingStart =>
        if block then
          skip
          complete number (.mapping pos p.shown (← blockEntries fuel))
        else absent p number
      | _ => absent p number

/-- Items behind `-`, up to the end of the block. -/
def blockItems : (fuel : Nat) → Compose (List Node)
  | 0 => fail
  | fuel + 1 => do
    let t ← peek
    match t.kind with
    | .blockEntry =>
      skip
      let u ← peek
      let item ←
        if among u [.blockEntry, .blockEnd] then pure (empty t.stop) else node true false fuel
      pure (item :: (← blockItems fuel))
    | .blockEnd =>
      skip
      pure []
    | _ => fail

/-- Items behind `-` at the indentation of the mapping around them. -/
def indentlessItems : (fuel : Nat) → Compose (List Node)
  | 0 => fail
  | fuel + 1 => do
    let t ← peek
    match t.kind with
    | .blockEntry =>
      skip
      let u ← peek
      let item ←
        if among u [.blockEntry, .key, .value, .blockEnd] then pure (empty t.stop)
        else node true false fuel
      pure (item :: (← indentlessItems fuel))
    | _ => pure []

/-- Keys and values of a block mapping, up to the end of the block. -/
def blockEntries : (fuel : Nat) → Compose (List (Node × Node))
  | 0 => fail
  | fuel + 1 => do
    let t ← peek
    match t.kind with
    | .key =>
      skip
      let u ← peek
      let k ←
        if among u [.key, .value, .blockEnd] then pure (empty t.stop) else node true true fuel
      let t ← peek
      let v ←
        if t.kind = .value then do
          skip
          let u ← peek
          if among u [.key, .value, .blockEnd] then pure (empty t.stop) else node true true fuel
        else pure (empty t.start)
      pure ((k, v) :: (← blockEntries fuel))
    | .blockEnd =>
      skip
      pure []
    | _ => fail

/-- Items between brackets; `first` tells that none has been read. A key without braces makes a
mapping of one entry. -/
def flowItems (first : Bool) : (fuel : Nat) → Compose (List Node)
  | 0 => fail
  | fuel + 1 => do
    let t ← peek
    if t.kind = .flowSequenceEnd then
      skip
      pure []
    else
      if !first then
        if t.kind = .flowEntry then skip else fail
      let t ← peek
      match t.kind with
      | .flowSequenceEnd =>
        skip
        pure []
      | .key =>
        skip
        let u ← peek
        let k ←
          if among u [.value, .flowEntry, .flowSequenceEnd] then do
            skip
            pure (empty u.stop)
          else node false false fuel
        let u ← peek
        let v ←
          if u.kind = .value then do
            skip
            let w ← peek
            if among w [.flowEntry, .flowSequenceEnd] then pure (empty u.start)
            else node false false fuel
          else pure (empty u.start)
        let _ ← peek
        pure (.mapping t.start.position none [(k, v)] :: (← flowItems false fuel))
      | _ =>
        let item ← node false false fuel
        pure (item :: (← flowItems false fuel))

/-- Entries between braces; `first` tells that none has been read. -/
def flowEntries (first : Bool) : (fuel : Nat) → Compose (List (Node × Node))
  | 0 => fail
  | fuel + 1 => do
    let t ← peek
    if t.kind = .flowMappingEnd then
      skip
      pure []
    else
      if !first then
        if t.kind = .flowEntry then skip else fail
      let t ← peek
      match t.kind with
      | .flowMappingEnd =>
        skip
        pure []
      | .key =>
        skip
        let u ← peek
        let k ←
          if among u [.value, .flowEntry, .flowMappingEnd] then pure (empty u.start)
          else node false false fuel
        let u ← peek
        let v ←
          if u.kind = .value then do
            skip
            let w ← peek
            if among w [.flowEntry, .flowMappingEnd] then pure (empty w.start)
            else node false false fuel
          else pure (empty u.start)
        pure ((k, v) :: (← flowEntries false fuel))
      | _ =>
        let k ← node false false fuel
        let u ← peek
        pure ((k, empty u.start) :: (← flowEntries false fuel))

end

/-- The directives in front of a document: at most one version, which must be 1.1, and tag handles
without repetition. -/
def directives : (fuel : Nat) → (versioned : Bool) → Compose Unit
  | 0, _ => fail
  | fuel + 1, versioned => do
    match (← peek).kind with
    | .version major minor =>
      if versioned || major != 1 || minor != 1 then fail
      skip
      directives fuel true
    | .tagHandle h uri =>
      let s ← get
      if s.handles.any (·.1 == h) then fail
      set { s with handles := s.handles ++ [(h, uri)] }
      skip
      directives fuel versioned
    | _ => modify fun s =>
        { s with handles := s.handles ++ [("!", "!"), ("!!", "tag:yaml.org,2002:")] }

/-- The first document, if the text has one. What follows its end is looked at no further than one
token. -/
def document : Compose (Option Node) := do
  -- Each character brings at most four tokens, and each token is passed in at most four turns.
  let fuel := 16 * (← get).scanner.cursor.left + 64
  let _ ← peek
  skip
  let t ← peek
  match t.kind with
  | .streamEnd => pure none
  | _ =>
    directives fuel false
    let explicit := among t [.documentStart] || (match t.kind with
      | .version .. => true
      | .tagHandle .. => true
      | _ => false)
    let root ←
      if explicit then do
        if (← peek).kind = .documentStart then skip else fail
        let u ← peek
        match u.kind with
        | .version .. | .tagHandle .. | .documentStart | .documentEnd | .streamEnd =>
          pure (empty u.start)
        | _ => node true false fuel
      else node true false fuel
    let _ ← peek
    pure (some root)

end Compose

/-- Reads the first document of a text; there is none in a text without content. -/
def read (text : String) : Except Flaw (Option Graph) := do
  let (root, s) ← Compose.document.run { scanner := .ofText text.toList }
  pure (root.map fun r => ⟨r, s.anchored⟩)

end TreeLang.Document
