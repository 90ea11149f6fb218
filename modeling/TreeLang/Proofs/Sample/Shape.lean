import TreeLang.Sample
import TreeLang.Proofs.Program.Reading

/-!
# The shape of samples

`Shape vars n kind i e` says by rules what is drawn for a kind: `i` is the document of the
expression `e`, which has at most `n` levels above its leaves and refers to `vars`. A sample is a
list of assignments to new variables (`Steps`) and one more expression. Main statements:
`draw_shape` and `program_shape`, by which only such documents are drawn, and `Shape.reads`, by
which a document is read as its expression.
-/

namespace TreeLang.Sample

open Document (Item Graph)
open Reader (Reads)

/-! ## What is always drawn -/

/-- Everything that is drawn has the property, whatever the bytes. -/
def Draws {α : Type} (x : Draw α) (Q : α → Prop) : Prop := ∀ bytes, Q (x bytes).1

section Draws

variable {α β : Type} {x : Draw α} {Q : β → Prop}

theorem Draws.bind {R : α → Prop} {f : α → Draw β} (hx : Draws x R)
    (hf : ∀ a, R a → Draws (f a) Q) : Draws (x >>= f) Q :=
  fun bytes => hf _ (hx bytes) (x bytes).2

theorem draws_pure {b : β} (h : Q b) : Draws (pure b) Q := fun _ => h

theorem draws_choose (n : Nat) : Draws (choose (n + 1)) (· < n + 1) := by
  intro bytes
  cases bytes with
  | nil => exact Nat.succ_pos n
  | cons b rest => exact Nat.mod_lt _ (Nat.succ_pos n)

theorem draws_pick (first : α) (rest : List α) : Draws (pick first rest) (· ∈ first :: rest) := by
  -- The choice is below the length of the list, so that the default never comes up.
  refine (draws_choose rest.length).bind fun i hi => draws_pure ?_
  have hlt : i < (first :: rest).length := hi
  rw [List.getElem?_eq_getElem hlt, Option.getD_some]
  exact List.getElem_mem hlt

end Draws

/-! ## Shapes -/

/-- The numbers that are drawn as literals. -/
def integers : List Int := (List.range 20).map fun n : Nat => (n : Int) - 5

/-- The functions of one argument, with the kinds of the argument and of the result. -/
def unary : List (String × Kind × Kind) :=
  [("len", .text, .number), ("twice", .number, .number), ("shout", .text, .text),
   ("not", .boolean, .boolean), ("positive", .number, .boolean)]

/-- The document of an expression of a kind, with at most so many levels above its leaves. -/
inductive Shape (vars : Vars) : Nat → Kind → Item → Expr → Prop
  | number {n : Nat} {k : Int} : k ∈ integers →
      Shape vars n .number (.int k) (.number (Float.ofInt k))
  | text {n : Nat} {s : String} : Shape vars n .text (.text s) (.text s)
  | bool {n : Nat} {b : Bool} : Shape vars n .boolean (.bool b) (.bool b)
  | pair {n : Nat} {a b : Int} : a ∈ integers → b ∈ integers →
      Shape vars n .numberList (.operation "list" [.int a, .int b])
        (.list [.number (Float.ofInt a), .number (Float.ofInt b)])
  | ref {n : Nat} {kind : Kind} {name : String} : (kind, name) ∈ vars →
      Shape vars n kind (reference name) (.ref name)
  | arithmetic {n : Nat} {op : Operator} {a b : Item} {l r : Expr} :
      op ∈ [.add, .sub, .mul, .div, .rem] → Shape vars n .number a l →
      Shape vars n .number b r → Shape vars (n + 1) .number (operator op a b) (.binary op l r)
  | append {n : Nat} {a b : Item} {l r : Expr} : Shape vars n .text a l → Shape vars n .text b r →
      Shape vars (n + 1) .text (operator .add a b) (.binary .add l r)
  | comparison {n : Nat} {op : Operator} {kind : Kind} {a b : Item} {l r : Expr} :
      op ∈ [.lt, .le, .gt, .ge, .eq] → Shape vars n kind a l → Shape vars n kind b r →
      Shape vars (n + 1) .boolean (operator op a b) (.binary op l r)
  | choice {n : Nat} {kind : Kind} {c t f : Item} {ce te fe : Expr} :
      Shape vars n .boolean c ce → Shape vars n kind t te → Shape vars n kind f fe →
      Shape vars (n + 1) kind (.operation "if" [c, t, f]) (.ite ce te fe)
  | triple {n : Nat} {a b c : Item} {x y z : Expr} : Shape vars n .number a x →
      Shape vars n .number b y → Shape vars n .number c z →
      Shape vars (n + 1) .numberList (.operation "list" [a, b, c]) (.list [x, y, z])
  | unary {n : Nat} {name : String} {k kind : Kind} {a : Item} {e : Expr} :
      (name, k, kind) ∈ unary → Shape vars n k a e →
      Shape vars (n + 1) kind (call name [a]) (.call name [e])
  | both {n : Nat} {a b : Item} {l r : Expr} : Shape vars n .boolean a l →
      Shape vars n .boolean b r →
      Shape vars (n + 1) .boolean (call "and" [a, b]) (.call "and" [l, r])
  | rejoin {n : Nat} {a : Item} {e : Expr} : Shape vars n .text a e →
      Shape vars (n + 1) .text (call "join" [call "split" [a, .text ","], .text "-"])
        (.call "join" [.call "split" [e, .text ","], .text "-"])
  | map {n : Nat} {a : Item} {e : Expr} : Shape vars n .numberList a e →
      Shape vars (n + 1) .numberList (call "map" [a, reference "twice"])
        (.call "map" [e, .ref "twice"])
  | filter {n : Nat} {a : Item} {e : Expr} : Shape vars n .numberList a e →
      Shape vars (n + 1) .numberList (call "filter" [a, reference "positive"])
        (.call "filter" [e, .ref "positive"])
  | reduce {n : Nat} {a b : Item} {e start : Expr} : Shape vars n .numberList a e →
      Shape vars n .number b start →
      Shape vars (n + 1) .number (call "reduce" [a, reference "plus", b])
        (.call "reduce" [e, .ref "plus", start])

/-- The document has the shape of some expression. -/
def Shaped (vars : Vars) (n : Nat) (kind : Kind) (i : Item) : Prop := ∃ e, Shape vars n kind i e

section Drawing

variable {vars : Vars} {n : Nat} {kind : Kind}

theorem literal_shape : Draws (literal kind) (Shaped vars n kind) := by
  have hmem : ∀ a : Nat, a < 9 → (a : Int) ∈ integers := by decide
  cases kind with
  | number =>
    refine (draws_choose 19).bind fun a ha => draws_pure ⟨_, .number ?_⟩
    exact List.mem_map.mpr ⟨a, List.mem_range.mpr ha, rfl⟩
  | text => exact (draws_pick _ _).bind fun s _ => draws_pure ⟨_, .text⟩
  | boolean => exact (draws_choose 1).bind fun b _ => draws_pure ⟨_, .bool⟩
  | numberList =>
    refine (draws_choose 8).bind fun a ha => (draws_choose 8).bind fun b hb => ?_
    exact draws_pure ⟨_, .pair (hmem a ha) (hmem b hb)⟩

theorem mem_of_mem_ofKind {name : String} (h : name ∈ vars.ofKind kind) : (kind, name) ∈ vars := by
  rcases List.mem_filterMap.mp h with ⟨⟨k, m⟩, hmem, hsome⟩
  dsimp only at hsome
  split at hsome
  · next hk =>
    cases hsome
    rwa [hk] at hmem
  · cases hsome

theorem leaf_shape : Draws (leaf vars kind) (Shaped vars n kind) := by
  unfold leaf
  split
  · exact literal_shape
  · next name names hvars =>
    refine (draws_choose 1).bind fun b _ => ?_
    split
    · refine (draws_pick name names).bind fun m hm => draws_pure ⟨_, .ref ?_⟩
      rw [← hvars] at hm
      exact mem_of_mem_ofKind hm
    · exact literal_shape

/-- Compound expressions, given that the parts are drawn with one level less. -/
theorem compound_shape {rec : Kind → Draw Item} (hrec : ∀ k, Draws (rec k) (Shaped vars n k)) :
    Draws (compound rec kind) (Shaped vars (n + 1) kind) := by
  have hchoice : ∀ k, Draws (compound.choice rec k) (Shaped vars (n + 1) k) := by
    intro k
    refine (hrec .boolean).bind fun c ⟨ce, hc⟩ => (hrec k).bind fun t ⟨te, ht⟩ => ?_
    exact (hrec k).bind fun f ⟨fe, hf⟩ => draws_pure ⟨_, .choice hc ht hf⟩
  cases kind with
  | number =>
    refine (draws_choose 5).bind fun i _ => ?_
    split
    iterate 2
      · refine (draws_pick _ _).bind fun op hop => (hrec .number).bind fun a ⟨l, ha⟩ => ?_
        exact (hrec .number).bind fun b ⟨r, hb⟩ => draws_pure ⟨_, .arithmetic hop ha hb⟩
    · exact (hrec .text).bind fun a ⟨e, ha⟩ => draws_pure ⟨_, .unary (by simp [unary]) ha⟩
    · refine (hrec .numberList).bind fun a ⟨e, ha⟩ => ?_
      exact (hrec .number).bind fun b ⟨start, hb⟩ => draws_pure ⟨_, .reduce ha hb⟩
    · exact hchoice .number
    · exact (hrec .number).bind fun a ⟨e, ha⟩ => draws_pure ⟨_, .unary (by simp [unary]) ha⟩
  | text =>
    refine (draws_choose 3).bind fun i _ => ?_
    split
    · refine (hrec .text).bind fun a ⟨l, ha⟩ => ?_
      exact (hrec .text).bind fun b ⟨r, hb⟩ => draws_pure ⟨_, .append ha hb⟩
    · exact (hrec .text).bind fun a ⟨e, ha⟩ => draws_pure ⟨_, .unary (by simp [unary]) ha⟩
    · exact (hrec .text).bind fun a ⟨e, ha⟩ => draws_pure ⟨_, .rejoin ha⟩
    · exact hchoice .text
  | boolean =>
    refine (draws_choose 4).bind fun i _ => ?_
    split
    · refine (draws_pick _ _).bind fun op hop => (hrec .number).bind fun a ⟨l, ha⟩ => ?_
      refine (hrec .number).bind fun b ⟨r, hb⟩ => draws_pure ⟨_, .comparison ?_ ha hb⟩
      simp only [List.mem_cons, List.not_mem_nil, or_false] at hop ⊢
      rcases hop with rfl | rfl | rfl | rfl <;> simp
    · refine (hrec .text).bind fun a ⟨l, ha⟩ => ?_
      exact (hrec .text).bind fun b ⟨r, hb⟩ => draws_pure ⟨_, .comparison (by simp) ha hb⟩
    · exact (hrec .boolean).bind fun a ⟨e, ha⟩ => draws_pure ⟨_, .unary (by simp [unary]) ha⟩
    · refine (hrec .boolean).bind fun a ⟨l, ha⟩ => ?_
      exact (hrec .boolean).bind fun b ⟨r, hb⟩ => draws_pure ⟨_, .both ha hb⟩
    · exact (hrec .number).bind fun a ⟨e, ha⟩ => draws_pure ⟨_, .unary (by simp [unary]) ha⟩
  | numberList =>
    refine (draws_choose 2).bind fun i _ => ?_
    split
    · exact (hrec .numberList).bind fun a ⟨e, ha⟩ => draws_pure ⟨_, .map ha⟩
    · exact (hrec .numberList).bind fun a ⟨e, ha⟩ => draws_pure ⟨_, .filter ha⟩
    · refine (hrec .number).bind fun a ⟨x, ha⟩ => (hrec .number).bind fun b ⟨y, hb⟩ => ?_
      exact (hrec .number).bind fun c ⟨z, hc⟩ => draws_pure ⟨_, .triple ha hb hc⟩

/-- Only documents of the kind are drawn. -/
theorem draw_shape (vars : Vars) (n : Nat) (kind : Kind) :
    Draws (draw vars n kind) (Shaped vars n kind) := by
  induction n generalizing kind with
  | zero => exact leaf_shape
  | succ n ih =>
    refine (draws_choose 2).bind fun i _ => ?_
    split
    · exact leaf_shape
    · exact compound_shape ih

end Drawing

/-! ## Variables -/

/-- The name of a variable. -/
def variableName (i : Nat) : String := "v" ++ toString i

theorem variableName_injective {i j : Nat} (h : variableName i = variableName j) : i = j := by
  -- The digits behind the first letter give the number back.
  have hlist := congrArg String.toList h
  simp only [variableName, String.toList_append, Nat.toString_eq_repr, Nat.toList_repr,
    List.append_cancel_left_eq] at hlist
  have hvalue := congrArg (Nat.ofDigitChars 10 · 0) hlist
  simpa using hvalue

theorem variableName_ne {i : Nat} {name : String} (h : name.toList.head? ≠ some 'v') :
    variableName i ≠ name := by
  rintro rfl
  exact h (by simp [variableName, String.toList_append])

/-- All variables have numbers below `i`. -/
def Vars.Below (vars : Vars) (i : Nat) : Prop :=
  ∀ kind name, (kind, name) ∈ vars → ∃ j < i, name = variableName j

namespace Vars.Below

variable {vars : Vars} {i : Nat}

theorem snoc (h : vars.Below i) (kind : Kind) :
    Vars.Below (vars ++ [(kind, variableName i)]) (i + 1) := by
  intro k name hmem
  rcases List.mem_append.mp hmem with hmem | hmem
  · rcases h k name hmem with ⟨j, hj, rfl⟩
    exact ⟨j, Nat.lt_succ_of_lt hj, rfl⟩
  · cases List.mem_singleton.mp hmem
    exact ⟨i, Nat.lt_succ_self i, rfl⟩

theorem next_not_mem (h : vars.Below i) (kind : Kind) : (kind, variableName i) ∉ vars := by
  intro hmem
  rcases h kind _ hmem with ⟨j, hj, hname⟩
  have heq := variableName_injective hname
  omega

theorem name_ne (h : vars.Below i) {kind : Kind} {name other : String}
    (hmem : (kind, name) ∈ vars) (hother : other.toList.head? ≠ some 'v') : name ≠ other := by
  rcases h kind name hmem with ⟨j, -, rfl⟩
  exact variableName_ne hother

end Vars.Below

/-- The entries of the table belong to variables, and those of `vars` suit their kinds. -/
structure Binds {α : Type} (R : Kind → α → Prop) (vars : Vars) (t : Table α) : Prop where
  bound : ∀ {kind : Kind} {name : String}, (kind, name) ∈ vars →
    ∃ a, t.get? name = some a ∧ R kind a
  named : ∀ {name : String} {a : α}, t.get? name = some a → ∃ i, name = variableName i

namespace Binds

variable {α : Type} {R : Kind → α → Prop} {vars : Vars} {t : Table α}

theorem empty {t : Table α} (ht : ∀ name, t.get? name = none) : Binds R [] t :=
  ⟨fun h => absurd h List.not_mem_nil, fun h => by simp [ht] at h⟩

theorem insert (h : Binds R vars t) {i : Nat} (hvars : vars.Below i) {kind : Kind} {a : α}
    (ha : R kind a) :
    Binds R (vars ++ [(kind, variableName i)]) (t.insert (variableName i) a) := by
  refine ⟨fun {k name} hmem => ?_, fun {name b} hget => ?_⟩
  · rw [Table.get?_insert]
    rcases List.mem_append.mp hmem with hmem | hmem
    -- The new name is none of those assigned before.
    · have hne : variableName i ≠ name := by
        rintro rfl
        exact hvars.next_not_mem k hmem
      rw [if_neg hne]
      exact h.bound hmem
    · cases List.mem_singleton.mp hmem
      exact ⟨a, if_pos rfl, ha⟩
  · rw [Table.get?_insert] at hget
    split at hget
    · next hname => exact ⟨i, hname.symm⟩
    · exact h.named hget

/-- Names of functions are free. -/
theorem get?_none (h : Binds R vars t) {name : String} (hname : name.toList.head? ≠ some 'v') :
    t.get? name = none := by
  cases hget : t.get? name with
  | none => rfl
  | some a =>
    rcases h.named hget with ⟨i, rfl⟩
    exact absurd rfl (variableName_ne hname)

end Binds

/-! ## Programs -/

/-- Assignments to the variables from number `i` on, and the variables behind them. -/
inductive Steps : Nat → Vars → List Item → List Expr → Vars → Prop
  | nil {i : Nat} {vars : Vars} : Steps i vars [] [] vars
  | cons {i : Nat} {vars vars' : Vars} {kind : Kind} {value : Item} {e : Expr} {items : List Item}
      {es : List Expr} : Shape vars levels kind value e →
      Steps (i + 1) (vars ++ [(kind, variableName i)]) items es vars' →
      Steps i vars (.operation "<-" [.text (variableName i), value] :: items)
        (.assign (variableName i) e :: es) vars'

theorem assignments_shape (count i : Nat) (vars : Vars) :
    Draws (assignments count i vars) fun r => ∃ es, Steps i vars r.1 es r.2 := by
  induction count generalizing i vars with
  | zero => exact draws_pure ⟨[], .nil⟩
  | succ count ih =>
    refine (draws_choose 3).bind fun c _ => ?_
    -- The value is drawn before the variable is there to refer to.
    refine (draw_shape vars levels (Kind.ofChoice c)).bind fun value ⟨e, hvalue⟩ => ?_
    exact (ih _ _).bind fun r ⟨es, hes⟩ => draws_pure ⟨_, .cons hvalue hes⟩

/-- The expressions of a sample: assignments, and one more expression of the kind. -/
inductive Sampled : Draft → Kind → List Expr → Prop
  | intro {vars : Vars} {items : List Item} {es : List Expr} {kind : Kind} {last : Item}
      {e : Expr} : Steps 0 [] items es vars → Shape vars levels kind last e →
      Sampled ⟨items ++ [last]⟩ kind (es ++ [e])

/-- Every sample is made of assignments and one more expression. -/
theorem program_shape : Draws program fun r => ∃ es, Sampled r.1 r.2 es := by
  refine (draws_choose 2).bind fun n _ => ?_
  refine (assignments_shape (n + 1) 0 []).bind fun r ⟨es, hes⟩ => ?_
  refine (draws_choose 3).bind fun c _ => ?_
  exact (draw_shape r.2 levels (Kind.ofChoice c)).bind fun last ⟨e, he⟩ =>
    draws_pure ⟨_, .intro hes he⟩

/-! ## Reading samples -/

section Reading

variable {g : Graph} {vars : Vars} {n : Nat} {kind : Kind} {i : Item} {e : Expr}

theorem writesItself_of_mem {k : Int} (h : k ∈ integers) : Reader.writesItself k = true := by
  have hall : integers.all Reader.writesItself = true := by decide +kernel
  exact List.all_eq_true.mp hall k h

/-- The document is read as its expression. -/
theorem Shape.reads (h : Shape vars n kind i e) (hvars : ∀ k name, (k, name) ∈ vars → name ≠ "") :
    Reads g i e := by
  induction h with
  | number hk => exact Reader.reads_int (writesItself_of_mem hk)
  | text => exact Reader.reads_text _
  | bool => exact Reader.reads_bool _
  | pair ha hb =>
    refine Reader.reads_list (.cons ?_ (.cons ?_ .nil))
    · exact Reader.reads_int (writesItself_of_mem ha)
    · exact Reader.reads_int (writesItself_of_mem hb)
  | ref hname => exact Reader.reads_reference (hvars _ _ hname)
  | arithmetic hop _ _ iha ihb =>
    refine Reader.reads_operator ?_ iha ihb
    simp only [List.mem_cons, List.not_mem_nil, or_false] at hop
    rcases hop with rfl | rfl | rfl | rfl | rfl <;> decide
  | append _ _ iha ihb => exact Reader.reads_operator (by decide) iha ihb
  | comparison hop _ _ iha ihb =>
    refine Reader.reads_operator ?_ iha ihb
    simp only [List.mem_cons, List.not_mem_nil, or_false] at hop
    rcases hop with rfl | rfl | rfl | rfl | rfl <;> decide
  | choice _ _ _ ihc iht ihf => exact Reader.reads_ite ihc iht ihf
  | triple _ _ _ iha ihb ihc => exact Reader.reads_list (.cons iha (.cons ihb (.cons ihc .nil)))
  | unary hname _ iha =>
    refine Reader.reads_call ?_ (.cons iha .nil)
    simp only [Sample.unary, List.mem_cons, List.not_mem_nil, or_false, Prod.mk.injEq] at hname
    rcases hname with ⟨rfl, -⟩ | ⟨rfl, -⟩ | ⟨rfl, -⟩ | ⟨rfl, -⟩ | ⟨rfl, -⟩ <;> decide
  | both _ _ iha ihb => exact Reader.reads_call (by decide) (.cons iha (.cons ihb .nil))
  | rejoin _ iha =>
    refine Reader.reads_call (by decide) (.cons ?_ (.cons (Reader.reads_text _) .nil))
    exact Reader.reads_call (by decide) (.cons iha (.cons (Reader.reads_text _) .nil))
  | map _ iha =>
    exact Reader.reads_call (by decide)
      (.cons iha (.cons (Reader.reads_reference (by decide)) .nil))
  | filter _ iha =>
    exact Reader.reads_call (by decide)
      (.cons iha (.cons (Reader.reads_reference (by decide)) .nil))
  | reduce _ _ iha ihb =>
    exact Reader.reads_call (by decide)
      (.cons iha (.cons (Reader.reads_reference (by decide)) (.cons ihb .nil)))

theorem Vars.Below.name_ne_empty (h : vars.Below n) (k : Kind) (name : String)
    (hmem : (k, name) ∈ vars) : name ≠ "" := h.name_ne hmem (by decide)

theorem Steps.reads {items : List Item} {es : List Expr} {vars' : Vars}
    (h : Steps n vars items es vars') (hvars : vars.Below n) :
    List.Forall₂ (Reads g) items es ∧ ∃ m, vars'.Below m := by
  induction h with
  | nil => exact ⟨.nil, _, hvars⟩
  | cons hvalue _ ih =>
    rcases ih (hvars.snoc _) with ⟨hread, hbelow⟩
    refine ⟨.cons (Reader.reads_assign (variableName_ne (by decide)) ?_) hread, hbelow⟩
    exact hvalue.reads hvars.name_ne_empty

theorem Sampled.reads {d : Draft} {es : List Expr} (h : Sampled d kind es) :
    List.Forall₂ (Reads g) d.exprs es := by
  cases h with
  | intro hsteps hlast =>
    rcases hsteps.reads (g := g) (fun _ _ h => absurd h List.not_mem_nil) with ⟨hread, m, hbelow⟩
    exact List.rel_append hread (.cons (hlast.reads hbelow.name_ne_empty) .nil)

end Reading

end TreeLang.Sample
