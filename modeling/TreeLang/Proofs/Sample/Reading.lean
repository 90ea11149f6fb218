import TreeLang.Proofs.Sample.Shape

/-!
# Reading whole samples

Every sample starts with the same functions, whose documents are read as `definitions`. Main
statement: `readProgramBy_sample`, by which a decoder that finds what the text of a sample denotes
makes it a program with these functions and the expressions of the sample.
-/

namespace TreeLang.Sample

open Document (Item Graph Node)
open Reader (Reads)

/-! ## Functions -/

/-- The definition that a function stands for, given its body. -/
def Helper.definition (h : Helper) (body : Expr) : FunctionDef where
  name := h.name
  params := h.params.map fun p => ⟨p.1, p.2.type⟩
  result := h.result.type
  body := body

/-- A kind whose type is written by its name alone. -/
def Kind.isBase (k : Kind) : Bool := k != .numberList

section Functions

variable {g : Graph} {depth : Nat} {n : Node}

theorem readType_denotes {k : Kind} (hk : k.isBase = true) (hn : n.denotes (.text k.name) = true) :
    Reader.readType g [] (depth + 1) n = .ok k.type := by
  rcases Node.denotes_text hn with ⟨pos, rfl⟩
  cases k with
  | numberList => cases hk
  | _ => rfl

theorem readParam_denotes {name : String} {k : Kind} (hname : name ≠ "") (hk : k.isBase = true)
    (hn : n.denotes (.fields [("name", .text name), ("type", .text k.name)]) = true) :
    Reader.readParam g [] (depth + 1) n = .ok ⟨name, k.type⟩ := by
  rcases Node.denotes_fields hn with ⟨pos, entries, rfl, hentries⟩
  rcases Node.denoteFields_cons hentries with ⟨p₁, v₁, es₁, rfl, hv₁, hes₁⟩
  rcases Node.denoteFields_cons hes₁ with ⟨p₂, v₂, es₂, rfl, hv₂, hes₂⟩
  rw [Node.denoteFields_nil hes₂]
  have hempty : name.isEmpty = false := by simpa using hname
  have htype : Reader.readType g [] (depth + 1) v₂ = .ok k.type := readType_denotes hk hv₂
  have hnode := Reader.readName_denotes (g := g) hv₁ hname
  simp only [Reader.readParam, Graph.follow, List.foldlM_cons, List.foldlM_nil, Node.text, hnode,
    htype, bind_pure_comp]
  simp [hempty, Functor.map, Except.map, bind, Except.bind, pure, Except.pure]

theorem mapM_readParam {params : List (String × Kind)}
    (hparams : ∀ p ∈ params, p.1 ≠ "" ∧ p.2.isBase = true) {ns : List Node}
    (hns : Node.denoteAll ns (params.map fun p =>
      .fields [("name", .text p.1), ("type", .text p.2.name)]) = true) :
    ns.mapM (Reader.readParam g [] (depth + 1)) = .ok (params.map fun p => ⟨p.1, p.2.type⟩) := by
  induction params generalizing ns with
  | nil =>
    rw [Node.denoteAll_nil hns]
    rfl
  | cons p params ih =>
    rcases Node.denoteAll_cons hns with ⟨m, ms, rfl, hm, hms⟩
    have hp := hparams p (by simp)
    rw [List.mapM_cons, readParam_denotes hp.1 hp.2 hm,
      ih (fun q hq => hparams q (by simp [hq])) hms]
    rfl

/-- The document of a function is read as its definition. -/
theorem readFunction_denotes {h : Helper} {body : Expr} (hname : h.name ≠ "")
    (hparams : ∀ p ∈ h.params, p.1 ≠ "" ∧ p.2.isBase = true) (hresult : h.result.isBase = true)
    (hbody : Reads g h.body body) (hn : n.denotes h.item = true) (hdepth : n.size ≤ depth) :
    Reader.readFunction g depth n = .ok (h.definition body) := by
  rcases Reader.exists_depth hdepth with ⟨depth, rfl⟩
  rcases Node.denotes_fields hn with ⟨pos, entries, rfl, hentries⟩
  rcases Node.denoteFields_cons hentries with ⟨p₁, v₁, es₁, rfl, hv₁, hes₁⟩
  rcases Node.denoteFields_cons hes₁ with ⟨p₂, v₂, es₂, rfl, hv₂, hes₂⟩
  rcases Node.denoteFields_cons hes₂ with ⟨p₃, v₃, es₃, rfl, hv₃, hes₃⟩
  rcases Node.denoteFields_cons hes₃ with ⟨p₄, v₄, es₄, rfl, hv₄, hes₄⟩
  rw [Node.denoteFields_nil hes₄] at hdepth ⊢
  simp only [Node.size, Node.sizeEntries] at hdepth
  rcases Node.denotes_list hv₂ with ⟨pos₂, ns, rfl, hns⟩
  have hname' := Reader.readName_denotes (g := g) hv₁ hname
  have hparams' : ns.mapM (Reader.readParam g [] (depth + 1)) =
      .ok (h.params.map fun p => ⟨p.1, p.2.type⟩) := mapM_readParam hparams hns
  have hresult' : Reader.readType g [] (depth + 1) v₃ = .ok h.result.type :=
    readType_denotes hresult hv₃
  have hbody' := hbody v₄ (depth + 1) hv₄ (by omega)
  have hfollow := Node.follow_of_denotes g hv₂
  have hfields : ∀ name ∈ ["name", "params", "returns", "body"],
      Reader.functionFields.contains name = true := by decide
  change Reader.readTyped g (depth + 1) pos _ = _
  simp only [Reader.readTyped, List.foldlM_cons, List.foldlM_nil, Node.text, hfields,
    List.mem_cons, true_or, or_true, if_true, pure_bind, Table.get?_insert, String.reduceEq,
    if_false, hname', hfollow, hparams', hresult', hbody']
  rfl

end Functions

/-- Adds two numbers. -/
def plus : FunctionDef where
  name := "plus"
  params := [⟨"a", .number⟩, ⟨"b", .number⟩]
  result := .number
  body := .binary .add (.ref "a") (.ref "b")

/-- Doubles a number. -/
def twice : FunctionDef where
  name := "twice"
  params := [⟨"n", .number⟩]
  result := .number
  body := .binary .mul (.ref "n") (.number (Float.ofInt 2))

/-- Tells whether a number is positive. -/
def positive : FunctionDef where
  name := "positive"
  params := [⟨"n", .number⟩]
  result := .boolean
  body := .binary .gt (.ref "n") (.number (Float.ofInt 0))

/-- Puts a text into capitals. -/
def shout : FunctionDef where
  name := "shout"
  params := [⟨"s", .text⟩]
  result := .text
  body := .call "toUpperCase" [.ref "s"]

/-- The functions of every sample. -/
def definitions : List FunctionDef := [plus, twice, positive, shout]

section Programs

variable {g : Graph}

/-- The bodies of the functions are read as they should. -/
theorem reads_bodies :
    List.Forall₂ (fun h d => h.definition d.body = d ∧ Reads g h.body d.body) helpers
      definitions := by
  have href : ∀ {name : String}, name ≠ "" → Reads g (reference name) (.ref name) :=
    fun hname => Reader.reads_reference hname
  have hint : ∀ {k : Int}, k ∈ integers → Reads g (.int k) (.number (Float.ofInt k)) :=
    fun hk => Reader.reads_int (writesItself_of_mem hk)
  refine .cons ⟨rfl, ?_⟩ (.cons ⟨rfl, ?_⟩ (.cons ⟨rfl, ?_⟩ (.cons ⟨rfl, ?_⟩ .nil)))
  · exact Reader.reads_operator (by decide) (href (by decide)) (href (by decide))
  · exact Reader.reads_operator (by decide) (href (by decide)) (hint (by decide))
  · exact Reader.reads_operator (by decide) (href (by decide)) (hint (by decide))
  · exact Reader.reads_call (by decide) (.cons (href (by decide)) .nil)

theorem mapM_readFunction {hs : List Helper} {ds : List FunctionDef}
    (hread : List.Forall₂ (fun h d => h.definition d.body = d ∧ Reads g h.body d.body) hs ds)
    (hnames : ∀ h ∈ hs, h.name ≠ "" ∧ (∀ p ∈ h.params, p.1 ≠ "" ∧ p.2.isBase = true) ∧
      h.result.isBase = true) {ns : List Node} {depth : Nat}
    (hns : Node.denoteAll ns (hs.map Helper.item) = true) (hdepth : Node.sizeAll ns ≤ depth) :
    ns.mapM (Reader.readFunction g depth) = .ok ds := by
  induction hread generalizing ns with
  | nil =>
    rw [Node.denoteAll_nil hns]
    rfl
  | cons hd _ ih =>
    rcases Node.denoteAll_cons hns with ⟨m, ms, rfl, hm, hms⟩
    rw [Node.sizeAll] at hdepth
    rcases hnames _ (List.mem_cons_self ..) with ⟨hname, hparams, hresult⟩
    have hfirst : Reader.readFunction g depth m = .ok _ :=
      readFunction_denotes hname hparams hresult hd.2 hm (by omega)
    have hrest := ih (fun h hh => hnames h (by simp [hh])) hms (by omega)
    rw [List.mapM_cons, hfirst, hrest, hd.1]
    rfl

theorem helpers_named : ∀ h ∈ helpers, h.name ≠ "" ∧
    (∀ p ∈ h.params, p.1 ≠ "" ∧ p.2.isBase = true) ∧ h.result.isBase = true := by
  decide

/-- The node tree of a sample is read as a program. -/
theorem programOf_sample {d : Draft} {kind : Kind} {es : List Expr} (h : Sampled d kind es)
    (hroot : g.root.denotes d.item = true) (file : String) :
    Reader.programOf g g.root file = .ok ⟨file, definitions, es⟩ := by
  rcases Node.denotes_fields hroot with ⟨pos, entries, hnode, hentries⟩
  rcases Node.denoteFields_cons hentries with ⟨p₁, v₁, es₁, rfl, hv₁, hes₁⟩
  rcases Node.denoteFields_cons hes₁ with ⟨p₂, v₂, es₂, rfl, hv₂, hes₂⟩
  rw [Node.denoteFields_nil hes₂] at hnode
  have hfollow₁ := Node.follow_of_denotes g hv₁
  have hfollow₂ := Node.follow_of_denotes g hv₂
  rcases Node.denotes_list hv₁ with ⟨pos₁, ns₁, rfl, hns₁⟩
  rcases Node.denotes_list hv₂ with ⟨pos₂, ns₂, rfl, hns₂⟩
  have hcount : Node.sizeAll ns₁ ≤ Reader.nodeCount g ∧ Node.sizeAll ns₂ ≤ Reader.nodeCount g := by
    simp only [Reader.nodeCount, hnode, Node.size, Node.sizeEntries]
    omega
  have hdefs := mapM_readFunction (g := g) reads_bodies helpers_named hns₁ hcount.1
  have hexprs := Reader.mapM_reads (h.reads (g := g)) hns₂ hcount.2
  simp only [hnode, Reader.programOf, List.foldlM_cons, List.foldlM_nil, Node.text, hfollow₁,
    hdefs, bind_pure_comp]
  simp [Functor.map, Except.map, bind, Except.bind, pure, Except.pure, hfollow₂, hexprs]

/-- A decoder that finds what the text of a sample denotes makes it a program. -/
theorem readProgramBy_sample {decode : Reader.Decoder} {d : Draft} {kind : Kind}
    {es : List Expr} (h : Sampled d kind es) (hdecode : decode d.source = .ok (some g))
    (hroot : g.root.denotes d.item = true) (file : String) :
    Reader.readProgramBy decode d.source file = .ok ⟨file, definitions, es⟩ := by
  have hnormal : Reader.normalize d.source = d.source := Document.normalize_render d.item
  have hgraph : Reader.readGraphBy decode d.source = .ok (g, g.root) := by
    simp only [Reader.readGraphBy, hnormal, hdecode, Node.follow_of_denotes g hroot]
  rw [Reader.readProgramBy, hgraph]
  exact programOf_sample h hroot file

end Programs

end TreeLang.Sample
