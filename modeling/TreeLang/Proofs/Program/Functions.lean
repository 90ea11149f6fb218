import Mathlib.Data.List.Permutation
import TreeLang.Proofs.Program.Expressions
import TreeLang.Proofs.Table

/-!
# Reading functions is the inverse of writing them

A function definition with regular names, types and body is read back from every node that says its
record, in whatever order the fields come. A type that is left out stays missing.

Main statement: `reading_inverts`, which says for one node of a document what is read from it as an
expression and as a function.
-/

namespace TreeLang

/-! ## What can be written -/

/-- The type is built from base types, lists, dictionaries, functions that take a fixed number of
arguments, and type parameters, none of them named like a base type. -/
inductive Ty.Declared (typeParams : List String) : Ty → Prop
  | con {name : String} : name ∈ Reader.baseTypes → Declared typeParams (.con name)
  | var {name : String} : name ∈ typeParams → name ∉ Reader.baseTypes →
      Declared typeParams (.var name)
  | list {elem : Ty} : Declared typeParams elem → Declared typeParams (.list elem)
  | dict {key value : Ty} : Declared typeParams key → Declared typeParams value →
      Declared typeParams (.dict key value)
  | fn {params : List Ty} {result : Ty} : (∀ p ∈ params, Declared typeParams p) →
      Declared typeParams result → Declared typeParams (.fn params result false)

theorem Ty.items_eq_map (ts : List Ty) : Ty.items ts = ts.map Ty.item := by
  induction ts with
  | nil => rfl
  | cons t ts ih => rw [Ty.items, ih, List.map_cons]

/-- The type is left out or declared. -/
def Ty.Optional (typeParams : List String) (t : Ty) : Prop := t = .missing ∨ t.Declared typeParams

theorem Ty.eq_missing_of_isMissing {t : Ty} (h : t.isMissing = true) : t = .missing := by
  cases t <;> first | rfl | cases h

theorem Ty.Optional.declared {typeParams : List String} {t : Ty} (h : t.Optional typeParams)
    (ht : t.isMissing = false) : t.Declared typeParams := by
  rcases h with rfl | h
  · cases ht
  · exact h

/-- The body is regular and all types that are there are declared. -/
structure FunctionDef.Typed (d : FunctionDef) : Prop where
  params : ∀ p ∈ d.params, p.type.Optional d.typeParams
  result : d.result.Optional d.typeParams
  body : d.body.Regular

/-- No name that the definition introduces is empty. -/
structure FunctionDef.Titled (d : FunctionDef) : Prop where
  name : d.name ≠ ""
  typeParams : ∀ name ∈ d.typeParams, name ≠ ""
  params : ∀ p ∈ d.params, p.name ≠ ""

namespace Reader

open Document (Node Graph Item)

variable {g : Graph} {n : Node} {typeParams : List String}

/-! ## Reading back a type -/

/-- A name that stands for a type is looked up as it is. -/
theorem readType_name {name : String} {t : Ty}
    (h : ∀ pos, (if baseTypes.contains name then .ok (.con name)
      else if typeParams.contains name then .ok (.var name)
      else .error (.complaint pos (.unknownType name)) : Read Ty) = .ok t)
    (hn : Says g (.text name) n) (depth : Nat) : Promises t (readType g typeParams depth n) := by
  obtain _ | depth := depth
  · exact .inr rfl
  obtain ⟨pos, tag, style, hfollow⟩ := eq_of_textScalar hn
  simp only [readType, hfollow]
  exact .inl (h pos)

/-- A declared type is read back from a node that says it, unless the reading is cut off. -/
theorem readType_promises {t : Ty} (ht : t.Declared typeParams) (depth : Nat) {n : Node}
    (hn : Says g t.item n) : Promises t (readType g typeParams depth n) := by
  induction ht generalizing depth n with
  | con hbase => exact readType_name (fun pos => by simp [hbase]) hn depth
  | var hparam hbase => exact readType_name (fun pos => by simp [hparam, hbase]) hn depth
  | list _ ih =>
    obtain _ | depth := depth
    · exact .inr rfl
    obtain ⟨pos, tag, first, ns, hfollow, hhead, hns⟩ := says_operation.mp hn
    simp only [sayAll_cons, sayAll_nil] at hns
    obtain ⟨a, _, rfl, ha, rfl⟩ := hns
    simp only [readType, hfollow, text_of_textScalar hhead]
    exact (ih depth ha).bind .ok
  | dict _ _ ihk ihv =>
    obtain _ | depth := depth
    · exact .inr rfl
    obtain ⟨pos, tag, first, ns, hfollow, hhead, hns⟩ := says_operation.mp hn
    simp only [sayAll_cons, sayAll_nil] at hns
    obtain ⟨a, _, rfl, ha, b, _, rfl, hb, rfl⟩ := hns
    simp only [readType, hfollow, text_of_textScalar hhead]
    exact (ihk depth ha).bind ((ihv depth hb).bind .ok)
  | @fn params result _ _ ihp ihr =>
    obtain _ | depth := depth
    · exact .inr rfl
    obtain ⟨pos, tag, first, ns, hfollow, hhead, hns⟩ := says_operation.mp hn
    simp only [sayAll_cons, sayAll_nil] at hns
    obtain ⟨a, _, rfl, ⟨_, _, items, hlist, hitems⟩, b, _, rfl, hb, rfl⟩ := hns
    rw [Ty.items_eq_map] at hitems
    have hparams : Promises params (items.mapM (readType g typeParams depth)) :=
      .said (fun p hp _ => ihp p hp depth) hitems
    have hfind : typeConstructors.find? (·.1 == "Fun") = some ("Fun", 2) := rfl
    simp only [readType, hfollow, text_of_textScalar hhead, hfind, List.length_cons,
      List.length_nil, ne_eq, not_true_eq_false, if_false, String.reduceEq, imp_self, hlist]
    exact hparams.bind ((ihr depth hb).bind .ok)

/-! ## Reading back a parameter -/

theorem readName_promises {name : String} (hname : name ≠ "") (hn : Says g (.text name) n) :
    Promises name (readName g n) :=
  .inl (readName_eq_ok.mpr ⟨hname, hn⟩)

theorem readParam_promises {p : Param} (hname : p.name ≠ "") (htype : p.type.Optional typeParams)
    (depth : Nat) (hn : Says g p.item n) : Promises p (readParam g typeParams depth n) := by
  obtain ⟨name, t⟩ := p
  rw [Param.item] at hn
  split at hn
  · next hmissing =>
    obtain rfl := Ty.eq_missing_of_isMissing hmissing
    obtain ⟨pos, tag, style, hfollow⟩ := eq_of_textScalar hn
    have hsaid : Says g (.text name) (.scalar pos tag style name) := by
      rw [Says, hfollow] at hn
      exact hn
    simp only [readParam, hfollow]
    exact (readName_promises hname hsaid).bind .ok
  · next hmissing =>
    obtain ⟨pos, tag, entries, ordered, hfollow, hperm, hfields⟩ := hn
    rw [sayFields_iff] at hfields
    simp only [List.forall₂_cons_left_iff, List.forall₂_nil_left_iff] at hfields
    obtain ⟨⟨nameKey, nameNode⟩, _, ⟨hnameKey, hnameNode⟩, ⟨⟨typeKey, typeNode⟩, _,
      ⟨htypeKey, htypeNode⟩, rfl, rfl⟩, rfl⟩ := hfields
    have hnamePromise := readName_promises hname hnameNode
    have htypePromise := readType_promises
      (Ty.Optional.declared htype (Bool.eq_false_iff.mpr hmissing)) depth htypeNode
    have hempty : name.isEmpty = false := by simpa using hname
    simp only [readParam, hfollow]
    refine .bind (a := ⟨name, t⟩) ?_ ?_
    · -- The name and the type come in either order.
      rcases List.pair_perm.mp hperm with rfl | rfl
      · simp only [List.foldlM_cons, List.foldlM_nil, text_of_textScalar hnameKey,
          text_of_textScalar htypeKey]
        refine .bind (a := ⟨name, .missing⟩) (hnamePromise.bind .ok) ?_
        exact .bind (a := ⟨name, t⟩) (htypePromise.bind .ok) .ok
      · simp only [List.foldlM_cons, List.foldlM_nil, text_of_textScalar hnameKey,
          text_of_textScalar htypeKey]
        refine .bind (a := ⟨"", t⟩) (htypePromise.bind .ok) ?_
        exact .bind (a := ⟨name, t⟩) (hnamePromise.bind .ok) .ok
    · rw [if_neg (by simp [hempty])]
      exact .ok

/-! ## Reading back a function -/

theorem keys_of_sayFields {fields : List (String × Item)} {entries : List (Node × Node)}
    (h : SayFields g fields entries) : entries.map (fun e => e.1.text) = fields.map (·.1) := by
  rw [sayFields_iff] at h
  induction h with
  | nil => rfl
  | cons hf _ ih => rw [List.map_cons, List.map_cons, ih, text_of_textScalar hf.1]

/-- What is written into the table of a function's fields. -/
theorem foldlM_fields {entries : List (Node × Node)} {t : Table Node}
    (hknown : ∀ e ∈ entries, e.1.text ∈ functionFields) :
    entries.foldlM (fun (t : Table Node) (key, value) =>
      if functionFields.contains key.text then pure (t.insert key.text value)
      else refuse key (.unknownFunctionField key.text)) t =
    (.ok (t.insertAll (entries.map fun e => (e.1.text, e.2))) : Read (Table Node)) := by
  induction entries generalizing t with
  | nil => rfl
  | cons e entries ih =>
    have hfirst : functionFields.contains e.1.text = true :=
      List.contains_iff_mem.mpr (hknown e (by simp))
    rw [List.foldlM_cons]
    simp only [hfirst, if_true]
    exact ih fun e' he' => hknown e' (by simp [he'])

/-- The fields of a record that has each of them once are found in any order. -/
theorem fields_read {fields : List (String × Item)} {entries ordered : List (Node × Node)}
    (hperm : ordered.Perm entries) (hsaid : SayFields g fields ordered)
    (hnodup : (fields.map (·.1)).Nodup) (hknown : ∀ f ∈ fields, f.1 ∈ functionFields) :
    ∃ t : Table Node,
      entries.foldlM (fun (t : Table Node) (key, value) =>
        if functionFields.contains key.text then pure (t.insert key.text value)
        else refuse key (.unknownFunctionField key.text)) ∅ = (.ok t : Read (Table Node)) ∧
      (∀ f ∈ fields, ∃ v, t.get? f.1 = some v ∧ Says g f.2 v) ∧
      ∀ name, name ∉ fields.map (·.1) → t.get? name = none := by
  have hkeys : (entries.map fun e => e.1.text).Perm (fields.map (·.1)) := by
    rw [← keys_of_sayFields hsaid]
    exact (hperm.map _).symm
  have hnames : ((entries.map fun e => (e.1.text, e.2)).map (·.1)).Perm (fields.map (·.1)) := by
    rw [List.map_map]
    exact hkeys
  refine ⟨_, foldlM_fields fun e he => ?_, ?_, ?_⟩
  · have hmem := hkeys.mem_iff.mp (List.mem_map_of_mem he)
    obtain ⟨f, hf, hname⟩ := List.mem_map.mp hmem
    rw [← hname]
    exact hknown f hf
  · intro f hf
    obtain ⟨e, he, hkey, hvalue⟩ := exists_related (sayFields_iff.mp hsaid) hf
    refine ⟨e.2, ?_, hvalue⟩
    rw [← text_of_textScalar hkey]
    exact Table.get?_insertAll_of_mem (hnames.nodup_iff.mpr hnodup)
      (List.mem_map.mpr ⟨e, hperm.mem_iff.mp he, rfl⟩)
  · intro name hname
    rw [Table.get?_insertAll_of_not_mem fun h => hname (hnames.mem_iff.mp h)]
    rfl

/-- A list of names or parameters that may be left out is read back. -/
theorem items_promises {α β : Type} {node : Option Node} {read : Node → Read α}
    {complaint : Complaint} {k : List α → Read β} {as : List α} {b : β} {f : α → Item}
    (hread : ∀ a ∈ as, ∀ {v}, Says g (f a) v → Promises a (read v)) (hk : Promises b (k as)) :
    (node = none ∧ as = [] ∨ ∃ v, node = some v ∧ Says g (.list (as.map f)) v) →
    Promises b (match node with
      | none => pure [] >>= k
      | some v =>
        match g.follow v with
        | .sequence _ _ items => items.mapM read >>= k
        | v => refuse v complaint >>= k) := by
  intro hnode
  rcases hnode with ⟨rfl, rfl⟩ | ⟨v, rfl, pos, tag, items, hfollow, hitems⟩
  · exact hk
  · simp only [hfollow]
    exact (Promises.said hread hitems).bind hk

/-- The fields of a definition's record. -/
theorem item_fields (d : FunctionDef) : ∃ fields, d.item = .fields fields ∧
    (fields.map (·.1)).Nodup ∧ (∀ f ∈ fields, f.1 ∈ functionFields) ∧
    ("name", .text d.name) ∈ fields ∧ ("body", d.body.item) ∈ fields ∧
    ("params", .list (d.params.map Param.item)) ∈ fields ∧
    (d.typeParams = [] ∧ "typeParams" ∉ fields.map (·.1) ∨
      ("typeParams", .list (d.typeParams.map .text)) ∈ fields) ∧
    (d.result = .missing ∧ "returns" ∉ fields.map (·.1) ∨
      d.result.isMissing = false ∧ ("returns", d.result.item) ∈ fields) := by
  refine ⟨_, rfl, ?_⟩
  cases hparams : d.typeParams with
  | nil =>
    cases hresult : d.result.isMissing with
    | true => simp [functionFields, Ty.eq_missing_of_isMissing hresult]
    | false => simp [functionFields]
  | cons t ts =>
    cases hresult : d.result.isMissing with
    | true => simp [functionFields, Ty.eq_missing_of_isMissing hresult]
    | false => simp [functionFields]

/-- Every definition with names is read back from a node that says its record, unless the reading is
cut off. -/
theorem readFunction_promises {d : FunctionDef} (ht : d.Typed) (hd : d.Titled) (depth : Nat)
    (hn : Says g d.item n) : Promises d (readFunction g depth n) := by
  obtain ⟨fields, hitem, hnodup, hknown, hname, hbody, hparams, htypeParams, hresult⟩ :=
    item_fields d
  rw [hitem] at hn
  obtain ⟨pos, tag, entries, ordered, hfollow, hperm, hsaid⟩ := hn
  obtain ⟨t, hfold, hfound, hmissing⟩ := fields_read hperm hsaid hnodup hknown
  obtain ⟨nameNode, hnameNode, hnameSays⟩ := hfound _ hname
  obtain ⟨bodyNode, hbodyNode, hbodySays⟩ := hfound _ hbody
  rw [readFunction, hfollow]
  change Promises d (readTyped g depth pos entries)
  unfold readTyped
  refine .bind (.inl hfold) ?_
  rw [hnameNode]
  refine (readName_promises hd.name hnameSays).bind ?_
  rw [hbodyNode]
  dsimp -zeta only
  extract_lets withTypeParams
  have hwithTypeParams : Promises d (withTypeParams d.typeParams) := by
    unfold withTypeParams
    extract_lets withParams
    have hwithParams : Promises d (withParams d.params) := by
      unfold withParams
      extract_lets withResult
      have hwithResult : Promises d (withResult d.result) :=
        (readExpr_promises ht.body depth hbodySays).bind .ok
      rcases hresult with ⟨hnone, habsent⟩ | ⟨hthere, hmem⟩
      · rw [hmissing _ habsent, ← hnone]
        exact hwithResult
      · obtain ⟨resultNode, hresultNode, hresultSays⟩ := hfound _ hmem
        rw [hresultNode]
        exact (readType_promises (ht.result.declared hthere) depth hresultSays).bind hwithResult
    refine items_promises (f := Param.item) (fun p hp m hm => ?_) hwithParams ?_
    · exact readParam_promises (hd.params p hp) (ht.params p hp) depth hm
    · exact .inr (hfound _ hparams)
  refine items_promises (f := Item.text) (fun name hname m hm => ?_) hwithTypeParams ?_
  · exact readName_promises (hd.typeParams name hname) hm
  · rcases htypeParams with ⟨hnil, hnone⟩ | hmem
    · exact .inl ⟨hmissing _ hnone, hnil⟩
    · exact .inr (hfound _ hmem)

/-- Where aliases come to an end, reading is the inverse of writing. A node is read as an expression
exactly if the expression is regular and the node says it; and it is read as any function whose
types and body are regular, whose names are there, and which the node says. -/
theorem reading_inverts (hg : g.Unfolds) (hn : n ∈ g.root.subnodes) :
    (∀ e, readExpr g (nodeCount g) n = .ok e ↔ e.Regular ∧ Says g e.item n) ∧
    ∀ d : FunctionDef, d.Typed → d.Titled → Says g d.item n →
      readFunction g (nodeCount g) n = .ok d := by
  refine ⟨fun e => readExpr_eq_ok hg hn, fun d ht hd hsaid => ?_⟩
  exact (readFunction_promises ht hd _ hsaid).eq_ok (readFunction_stops hg hn)

/-- A function that applies another one to a value twice. -/
def both : FunctionDef where
  name := "both"
  params := [⟨"f", .fn [.var "T", .var "T"] .number false⟩, ⟨"a", .missing⟩]
  result := .number
  body := .call "f" [.ref "a", .ref "a"]
  typeParams := ["T"]

/-- The document of its body, in which an argument stands behind an alias. -/
def bothBody : Node :=
  .sequence ⟨1, 10⟩ none [.scalar ⟨1, 11⟩ none .quoted "call", .scalar ⟨1, 19⟩ none .quoted "f",
    .sequence ⟨1, 24⟩ none [.scalar ⟨1, 28⟩ none .quoted "ref", .scalar ⟨1, 35⟩ none .quoted "a"],
    .alias ⟨1, 41⟩ "x" 0]

/-- The fields of its document but for the body. -/
def bothFields : List (Node × Node) :=
  [(.scalar ⟨2, 2⟩ none .plain "name", .scalar ⟨2, 8⟩ none .quoted "both"),
   (.scalar ⟨3, 2⟩ none .plain "typeParams",
     .sequence ⟨3, 14⟩ none [.scalar ⟨3, 15⟩ none .plain "T"]),
   (.scalar ⟨4, 2⟩ none .plain "params", .sequence ⟨4, 10⟩ none
     [.mapping ⟨4, 11⟩ none
       [(.scalar ⟨4, 12⟩ none .plain "name", .scalar ⟨4, 18⟩ none .plain "f"),
        (.scalar ⟨4, 21⟩ none .plain "type", .sequence ⟨4, 27⟩ none
         [.scalar ⟨4, 28⟩ none .plain "Fun",
          .sequence ⟨4, 33⟩ none [.scalar ⟨4, 34⟩ none .plain "T", .scalar ⟨4, 37⟩ none .plain "T"],
          .scalar ⟨4, 41⟩ none .plain "Number"])],
      .scalar ⟨4, 51⟩ none .plain "a"]),
   (.scalar ⟨5, 2⟩ none .plain "returns", .scalar ⟨5, 11⟩ none .plain "Number")]

/-- The document of the function, which starts with the body. -/
def bothDocument : Graph where
  root := .mapping ⟨1, 1⟩ none ((.scalar ⟨1, 2⟩ none .plain "body", bothBody) :: bothFields)
  anchored := [(0, .sequence ⟨1, 24⟩ none
    [.scalar ⟨1, 28⟩ none .quoted "ref", .scalar ⟨1, 35⟩ none .quoted "a"])]

theorem bothBody_part : bothBody ∈ bothDocument.root.subnodes :=
  Node.mem_subnodes_child (by simp [bothDocument, Node.children])

theorem bothDocument_unfolds : bothDocument.Unfolds where
  parts := by
    intro e he
    obtain rfl := List.mem_singleton.mp he
    exact Node.subnodes_trans bothBody_part
      (Node.mem_subnodes_child (by simp [bothBody, Node.children]))
  ranked := ⟨fun _ => 0, by
    intro e he t ht
    obtain rfl := List.mem_singleton.mp he
    exact absurd ht List.not_mem_nil⟩

theorem both_typed : both.Typed where
  params := by
    simp only [both, List.forall_mem_cons]
    refine ⟨.inr (.fn ?_ (.con (by decide))), .inl rfl, nofun⟩
    simp only [List.forall_mem_cons]
    exact ⟨.var (by decide) (by decide), .var (by decide) (by decide), nofun⟩
  result := .inr (.con (by decide))
  body := .call (by decide) (by simp [Expr.Regular.ref])

theorem both_titled : both.Titled := ⟨by decide, by decide, by decide⟩

theorem bothBody_says : Says bothDocument both.body.item bothBody :=
  ⟨_, _, _, rfl, rfl, rfl, ⟨_, _, _, rfl, rfl, rfl, trivial⟩, ⟨_, _, _, rfl, rfl, rfl, trivial⟩,
    trivial⟩

theorem bothFields_say : ∃ fields,
    both.item = .fields (fields ++ [("body", both.body.item)]) ∧
      SayFields bothDocument fields bothFields := by
  refine ⟨[_, _, _, _], rfl, ⟨rfl, rfl⟩, ⟨rfl, ?_⟩, ⟨rfl, ?_⟩, ⟨rfl, rfl⟩, trivial⟩
  · exact ⟨_, _, _, rfl, rfl, trivial⟩
  · refine ⟨_, _, _, rfl, ⟨_, _, _, _, rfl, .refl _, ⟨rfl, rfl⟩, ⟨rfl, ?_⟩, trivial⟩, rfl, trivial⟩
    exact ⟨_, _, _, rfl, rfl, ⟨_, _, _, rfl, rfl, rfl, trivial⟩, rfl, trivial⟩

theorem bothDocument_says : Says bothDocument both.item bothDocument.root := by
  obtain ⟨fields, hitem, hfields⟩ := bothFields_say
  rw [hitem]
  refine ⟨⟨1, 1⟩, none, _, bothFields ++ [(.scalar ⟨1, 2⟩ none .plain "body", bothBody)], rfl,
    List.perm_append_singleton _ _, ?_⟩
  rw [sayFields_iff] at hfields ⊢
  exact List.rel_append hfields (.cons ⟨rfl, bothBody_says⟩ .nil)

/-- The function is read from its document, and its body from the part that is the body. -/
theorem both_read : bothDocument.Unfolds ∧
    readFunction bothDocument (nodeCount bothDocument) bothDocument.root = .ok both ∧
    readExpr bothDocument (nodeCount bothDocument) bothBody = .ok both.body := by
  have hroot : bothDocument.root ∈ bothDocument.root.subnodes := Node.mem_subnodes_self _
  refine ⟨bothDocument_unfolds, ?_, ?_⟩
  · exact (reading_inverts bothDocument_unfolds hroot).2 both both_typed both_titled
      bothDocument_says
  · exact ((reading_inverts bothDocument_unfolds bothBody_part).1 both.body).mpr
      ⟨both_typed.body, bothBody_says⟩

/-- A function whose name is empty. -/
def nameless : FunctionDef where
  name := ""
  params := []
  body := .bool true

/-- The document of `{"name": "", "params": [], "body": true}`. -/
def namelessDocument : Graph where
  root := .mapping ⟨1, 1⟩ none
    [(.scalar ⟨1, 2⟩ none .quoted "name", .scalar ⟨1, 10⟩ none .quoted ""),
     (.scalar ⟨1, 14⟩ none .quoted "params", .sequence ⟨1, 24⟩ none []),
     (.scalar ⟨1, 28⟩ none .quoted "body", .scalar ⟨1, 36⟩ none .plain "true")]
  anchored := []

set_option maxRecDepth 10000 in
/-- Its types and its body are regular and it can be written, but an empty name is refused. -/
theorem nameless_refused :
    Document.read (normalize "\x7b\"name\": \"\", \"params\": [], \"body\": true\x7d") =
        .ok (some namelessDocument) ∧
      nameless.Typed ∧ Says namelessDocument nameless.item namelessDocument.root ∧
      readFunction namelessDocument (nodeCount namelessDocument) namelessDocument.root =
        .error (.complaint ⟨1, 10⟩ .expectedName) := by
  refine ⟨by cbv, ⟨nofun, .inl rfl, .bool⟩, ?_, rfl⟩
  refine ⟨_, _, _, _, rfl, .refl _, ⟨rfl, rfl⟩, ⟨rfl, ⟨_, _, _, rfl, trivial⟩⟩, ⟨rfl, rfl⟩, trivial⟩

end Reader

end TreeLang
