import TreeLang.Program.Basic

/-!
# Induction on expressions

Arguments, bodies and elements come as the members of their list, entries as pairs.
-/

namespace TreeLang.Expr

/-- Induction on expressions. -/
@[elab_as_elim, induction_eliminator]
theorem induction {motive : Expr → Prop} (number : ∀ x, motive (.number x))
    (text : ∀ s, motive (.text s)) (bool : ∀ b, motive (.bool b))
    (ref : ∀ name, motive (.ref name))
    (assign : ∀ name value, motive value → motive (.assign name value))
    (binary : ∀ op left right, motive left → motive right → motive (.binary op left right))
    (call : ∀ name args, (∀ a ∈ args, motive a) → motive (.call name args))
    (ite : ∀ c t f, motive c → motive t → motive f → motive (.ite c t f))
    (loop : ∀ c b, motive c → motive b → motive (.loop c b))
    (seq : ∀ bodies, (∀ e ∈ bodies, motive e) → motive (.seq bodies))
    (list : ∀ elems, (∀ e ∈ elems, motive e) → motive (.list elems))
    (dict : ∀ entries, (∀ e ∈ entries, motive e.1 ∧ motive e.2) → motive (.dict entries))
    (e : Expr) : motive e :=
  @Expr.rec motive (fun es => ∀ e ∈ es, motive e) (fun es => ∀ e ∈ es, motive e.1 ∧ motive e.2)
    (fun e => motive e.1 ∧ motive e.2)
    number text bool ref assign binary call ite loop seq list dict
    (fun _ h => absurd h List.not_mem_nil)
    (fun _ _ he hes _ h => by
      rcases List.mem_cons.mp h with rfl | h
      · exact he
      · exact hes _ h)
    (fun _ h => absurd h List.not_mem_nil)
    (fun _ _ he hes _ h => by
      rcases List.mem_cons.mp h with rfl | h
      · exact he
      · exact hes _ h)
    (fun _ _ hk hv => ⟨hk, hv⟩) e

end TreeLang.Expr
