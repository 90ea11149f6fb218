import Mathlib.Data.List.Forall2
import TreeLang.Proofs.Document.Denotation

/-!
# Reading documents of expressions

`Reads g i e` says that every node that denotes the document `i` is read as the expression `e`, with
any depth that is no less than the size of the node. There is one rule for each form that an
expression takes in a document.
-/

namespace TreeLang.Reader

open Document (Node Graph Item Position)

variable {g : Graph}

/-- A node that denotes the document is read as the expression. -/
def Reads (g : Graph) (i : Item) (e : Expr) : Prop :=
  ∀ (n : Node) (depth : Nat), n.denotes i = true → n.size ≤ depth → readExpr g depth n = .ok e

/-! ## Names and literals -/

theorem readName_denotes {n : Node} {name : String} (hn : n.denotes (.text name) = true)
    (hname : name ≠ "") : readName g n = .ok name := by
  rcases Node.denotes_text hn with ⟨pos, rfl⟩
  have hempty : name.isEmpty = false := by simpa using hname
  simp [readName, Graph.follow, textScalar?, Document.scalarTag, hempty]

theorem exists_depth {n : Node} {depth : Nat} (h : n.size ≤ depth) : ∃ d, depth = d + 1 :=
  Nat.exists_eq_succ_of_ne_zero (Nat.ne_of_gt (Nat.lt_of_lt_of_le n.size_pos h))

-- What follows unfolds `readOperation` as well, so the equations of both are made here, at once.
attribute [local simp] readExpr readOperation in
theorem reads_text (s : String) : Reads g (.text s) (.text s) := by
  intro n depth hn hdepth
  rcases exists_depth hdepth with ⟨depth, rfl⟩
  rcases Node.denotes_text hn with ⟨pos, rfl⟩
  simp [Graph.follow, readLiteral, Document.scalarTag]

theorem reads_bool (b : Bool) : Reads g (.bool b) (.bool b) := by
  intro n depth hn hdepth
  rcases exists_depth hdepth with ⟨depth, rfl⟩
  rcases Node.denotes_bool hn with ⟨pos, rfl⟩
  cases b <;> rfl

/-- A plain scalar with the decimal text of the number means this number. -/
def writesItself (k : Int) : Bool :=
  match Document.plainMeaning true (toString k) with
  | .int m => m == k && toString k != "<<"
  | _ => false

theorem reads_int {k : Int} (hk : writesItself k = true) :
    Reads g (.int k) (.number (Float.ofInt k)) := by
  intro n depth hn hdepth
  rcases exists_depth hdepth with ⟨depth, rfl⟩
  rcases Node.denotes_int hn with ⟨pos, rfl⟩
  unfold writesItself at hk
  split at hk
  · next m hm =>
    simp only [Bool.and_eq_true, beq_iff_eq, bne_iff_ne, ne_eq] at hk
    rcases hk with ⟨rfl, hmerge⟩
    have htag : Document.scalarTag none .plain (toString m) = "!!int" := by
      simp only [Document.scalarTag, if_true, hmerge, if_false, hm]
      rfl
    have hmeaning : Document.scalarMeaning? none .plain (toString m) = some (.int m) := by
      simp only [Document.scalarMeaning?, if_true, hmerge, if_false, hm]
    -- A plain scalar is no operation, so that it is read as a literal.
    change readLiteral pos none .plain (toString m) = _
    simp only [readLiteral, htag, hmeaning]
  · cases hk

/-! ## Operations -/

/-- An operation is read by its name, and its operands with one level less. -/
theorem readExpr_operation {op : String} {args : List Item} (hop : isOperation op = true)
    {n : Node} {depth : Nat} (hn : n.denotes (.operation op args) = true)
    (hdepth : n.size ≤ depth) :
    ∃ d m ns, readExpr g depth n = readOperation g (readExpr g d) m op ns ∧
      Node.denoteAll ns args = true ∧ Node.sizeAll ns ≤ d := by
  rcases exists_depth hdepth with ⟨d, rfl⟩
  rcases Node.denotes_list hn with ⟨pos, nodes, rfl, hnodes⟩
  rcases Node.denoteAll_cons hnodes with ⟨head, ns, rfl, hhead, hns⟩
  rcases Node.denotes_text hhead with ⟨hpos, rfl⟩
  simp only [Node.size, Node.sizeAll] at hdepth
  refine ⟨d, .sequence pos none (.scalar hpos none .quoted op :: ns), ns, ?_, hns, by omega⟩
  simp [readExpr, Graph.follow, textScalar?, Document.scalarTag, hop]

theorem mapM_reads {is : List Item} {es : List Expr} (h : List.Forall₂ (Reads g) is es)
    {ns : List Node} (hns : Node.denoteAll ns is = true) {d : Nat} (hd : Node.sizeAll ns ≤ d) :
    ns.mapM (readExpr g d) = .ok es := by
  induction h generalizing ns with
  | nil =>
    rw [Node.denoteAll_nil hns]
    rfl
  | cons he _ ih =>
    rcases Node.denoteAll_cons hns with ⟨m, ms, rfl, hm, hms⟩
    rw [Node.sizeAll] at hd
    rw [List.mapM_cons, he m d hm (by omega), ih hms (by omega)]
    rfl

theorem reads_reference {name : String} (hname : name ≠ "") :
    Reads g (.operation "ref" [.text name]) (.ref name) := by
  intro n depth hn hdepth
  rcases readExpr_operation (g := g) (by decide) hn hdepth with ⟨d, m, ns, hread, hns, -⟩
  rcases Node.denoteAll_cons hns with ⟨a, as, rfl, ha, has⟩
  rw [Node.denoteAll_nil has] at hread
  rw [hread, readOperation]
  simp only [show Operator.ofSymbol? "ref" = none by decide, readName_denotes ha hname]
  rfl

theorem Operator.ofSymbol?_symbol {op : Operator} (hop : op ∈ Operator.known) :
    Operator.ofSymbol? op.symbol = some op := by
  revert hop
  cases op <;> first | decide | simp [Operator.known]

theorem reads_operator {op : Operator} (hop : op ∈ Operator.known) {a b : Item} {l r : Expr}
    (ha : Reads g a l) (hb : Reads g b r) :
    Reads g (.operation op.symbol [a, b]) (.binary op l r) := by
  intro n depth hn hdepth
  have hsymbol := Operator.ofSymbol?_symbol hop
  have hoperation : isOperation op.symbol = true := by simp [isOperation, hsymbol]
  rcases readExpr_operation (g := g) hoperation hn hdepth with ⟨d, m, ns, hread, hns, hd⟩
  rcases Node.denoteAll_cons hns with ⟨x, xs, rfl, hx, hxs⟩
  rcases Node.denoteAll_cons hxs with ⟨y, ys, rfl, hy, hys⟩
  rw [Node.denoteAll_nil hys] at hread hd
  simp only [Node.sizeAll] at hd
  rw [hread]
  simp only [readOperation, hsymbol, ha x d hx (by omega), hb y d hy (by omega)]
  rfl

theorem reads_call {name : String} (hname : name ≠ "") {args : List Item} {es : List Expr}
    (hargs : List.Forall₂ (Reads g) args es) :
    Reads g (.operation "call" (.text name :: args)) (.call name es) := by
  intro n depth hn hdepth
  rcases readExpr_operation (g := g) (by decide) hn hdepth with ⟨d, m, ns, hread, hns, hd⟩
  rcases Node.denoteAll_cons hns with ⟨a, as, rfl, ha, has⟩
  rw [Node.sizeAll] at hd
  rw [hread, readOperation]
  simp only [show Operator.ofSymbol? "call" = none by decide, readName_denotes ha hname,
    mapM_reads hargs has (Nat.le_trans (Nat.le_add_left _ _) hd)]
  rfl

theorem reads_list {items : List Item} {es : List Expr} (h : List.Forall₂ (Reads g) items es) :
    Reads g (.operation "list" items) (.list es) := by
  intro n depth hn hdepth
  rcases readExpr_operation (g := g) (by decide) hn hdepth with ⟨d, m, ns, hread, hns, hd⟩
  rw [hread, readOperation]
  simp only [show Operator.ofSymbol? "list" = none by decide, mapM_reads h hns hd]
  rfl

theorem reads_ite {c t f : Item} {ce te fe : Expr} (hc : Reads g c ce) (ht : Reads g t te)
    (hf : Reads g f fe) : Reads g (.operation "if" [c, t, f]) (.ite ce te fe) := by
  intro n depth hn hdepth
  rcases readExpr_operation (g := g) (by decide) hn hdepth with ⟨d, m, ns, hread, hns, hd⟩
  rcases Node.denoteAll_cons hns with ⟨x, xs, rfl, hx, hxs⟩
  rcases Node.denoteAll_cons hxs with ⟨y, ys, rfl, hy, hys⟩
  rcases Node.denoteAll_cons hys with ⟨z, zs, rfl, hz, hzs⟩
  rw [Node.denoteAll_nil hzs] at hread hd
  simp only [Node.sizeAll] at hd
  rw [hread, readOperation]
  simp only [show Operator.ofSymbol? "if" = none by decide, hc x d hx (by omega),
    ht y d hy (by omega), hf z d hz (by omega)]
  rfl

theorem reads_assign {name : String} (hname : name ≠ "") {value : Item} {e : Expr}
    (hvalue : Reads g value e) :
    Reads g (.operation "<-" [.text name, value]) (.assign name e) := by
  intro n depth hn hdepth
  rcases readExpr_operation (g := g) (by decide) hn hdepth with ⟨d, m, ns, hread, hns, hd⟩
  rcases Node.denoteAll_cons hns with ⟨x, xs, rfl, hx, hxs⟩
  rcases Node.denoteAll_cons hxs with ⟨y, ys, rfl, hy, hys⟩
  rw [Node.denoteAll_nil hys] at hread hd
  simp only [Node.sizeAll] at hd
  rw [hread, readOperation]
  simp only [show Operator.ofSymbol? "<-" = none by decide, readName_denotes hx hname,
    hvalue y d hy (by omega)]
  rfl

end TreeLang.Reader
