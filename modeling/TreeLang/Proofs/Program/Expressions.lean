import TreeLang.Program.Writer
import TreeLang.Proofs.Except
import TreeLang.Proofs.Program.Ending
import TreeLang.Proofs.Program.Reading
import TreeLang.Proofs.Program.Saying

/-!
# Reading expressions is the inverse of writing them

A regular expression is read back from every node that says its document. However deep the reading
may go, it gives the expression or is cut off (`Promises`), and where aliases come to an end it is
not cut off. The other way round, whatever is read as an expression at any depth is regular, and the
node says it (`Origin`).

Main statement: `readExpr_eq_ok`.
-/

namespace TreeLang

/-! ## What can be written -/

/-- The operators are those of the language, and no name is empty. -/
inductive Expr.Regular : Expr → Prop
  | number {x : Float} : Regular (.number x)
  | text {s : String} : Regular (.text s)
  | bool {b : Bool} : Regular (.bool b)
  | ref {name : String} : name ≠ "" → Regular (.ref name)
  | assign {name : String} {value : Expr} : name ≠ "" → Regular value →
      Regular (.assign name value)
  | binary {op : Operator} {left right : Expr} : op ∈ Operator.known → Regular left →
      Regular right → Regular (.binary op left right)
  | call {name : String} {args : List Expr} : name ≠ "" → (∀ a ∈ args, Regular a) →
      Regular (.call name args)
  | ite {c t f : Expr} : Regular c → Regular t → Regular f → Regular (.ite c t f)
  | loop {c b : Expr} : Regular c → Regular b → Regular (.loop c b)
  | seq {bodies : List Expr} : (∀ e ∈ bodies, Regular e) → Regular (.seq bodies)
  | list {elems : List Expr} : (∀ e ∈ elems, Regular e) → Regular (.list elems)
  | dict {entries : List (Expr × Expr)} : (∀ e ∈ entries, Regular e.1) →
      (∀ e ∈ entries, Regular e.2) → Regular (.dict entries)

theorem Expr.items_eq_map (es : List Expr) : Expr.items es = es.map Expr.item := by
  induction es with
  | nil => rfl
  | cons e es ih => rw [Expr.items, ih, List.map_cons]

theorem Expr.pairItems_eq_map (es : List (Expr × Expr)) :
    Expr.pairItems es = es.map fun e => .list [e.1.item, e.2.item] := by
  induction es with
  | nil => rfl
  | cons e es ih => rw [Expr.pairItems, ih, List.map_cons]

namespace Reader

open Document (Node Graph Item)

variable {g : Graph} {n : Node} {α β : Type}

/-! ## Readings that may be cut off -/

/-- The reading gives this result unless it is cut off. -/
def Promises (a : α) (x : Read α) : Prop := x = .ok a ∨ x = .error .endless

theorem Promises.ok {a : α} : Promises a (.ok a : Read α) := .inl rfl

theorem Promises.bind {a : α} {b : β} {x : Read α} {k : α → Read β} (hx : Promises a x)
    (hk : Promises b (k a)) : Promises b (x >>= k) := by
  rcases hx with rfl | rfl
  · exact hk
  · exact .inr rfl

theorem Promises.mapM {f : α → Read β} {xs : List α} {ys : List β}
    (h : List.Forall₂ (fun x y => Promises y (f x)) xs ys) : Promises ys (xs.mapM f) := by
  induction h with
  | nil => exact .ok
  | cons hx _ ih =>
    rw [List.mapM_cons]
    exact hx.bind (ih.bind .ok)

/-- A reading that ends gives what it promises. -/
theorem Promises.eq_ok {a : α} {x : Read α} (hx : Promises a x) (hstops : Stops x) :
    x = .ok a := by
  rcases hx with rfl | rfl
  · rfl
  · cases hstops with
    | report h => exact absurd rfl h

/-! ## Reading back an expression -/

/-- What an operation says is read back if it is so one level down. -/
theorem operation_promises {e : Expr} {op : String} {args : List Item}
    (hitem : e.item = .operation op args) (hop : isOperation op = true)
    (h : ∀ depth m ns, SayAll g args ns → Promises e (readOperation g (readExpr g depth) m op ns))
    (depth : Nat) {n : Node} (hn : Says g e.item n) : Promises e (readExpr g depth n) := by
  obtain _ | depth := depth
  · exact .inr rfl
  rw [hitem] at hn
  obtain ⟨pos, tag, first, ns, hfollow, hhead, hns⟩ := says_operation.mp hn
  simp only [readExpr, hfollow, hhead, hop, if_true]
  exact h depth _ ns hns

/-- A scalar that is read as a literal is read back. -/
theorem literal_promises {e : Expr}
    (h : ∃ pos tag style text, g.follow n = .scalar pos tag style text ∧
      readLiteral pos tag style text = .ok e) (depth : Nat) : Promises e (readExpr g depth n) := by
  obtain _ | depth := depth
  · exact .inr rfl
  obtain ⟨pos, tag, style, text, hfollow, hread⟩ := h
  simp only [readExpr, hfollow, hread]
  exact .ok

/-- A list is read back if each of its members is. -/
theorem Promises.said {as : List α} {f : α → Item} {read : Node → Read α} {ns : List Node}
    (hread : ∀ a ∈ as, ∀ {n}, Says g (f a) n → Promises a (read n))
    (hns : SayAll g (as.map f) ns) : Promises as (ns.mapM read) := by
  have hall : List.Forall₂ (fun a n => a ∈ as ∧ Says g (f a) n) as ns :=
    (List.forall₂_and_left as ns).mpr ⟨fun a ha => ha, sayAll_map.mp hns⟩
  exact .mapM (hall.imp fun a n h => hread a h.1 h.2).flip

theorem Promises.operands {es : List Expr} {ns : List Node} {rec : Node → Read Expr}
    (hrec : ∀ e ∈ es, ∀ {n}, Says g e.item n → Promises e (rec n))
    (hns : SayAll g (Expr.items es) ns) : Promises es (ns.mapM rec) := by
  rw [Expr.items_eq_map] at hns
  exact .said hrec hns

/-- The entries of a dictionary are read back if their keys and values are. -/
theorem Promises.entries {es : List (Expr × Expr)} {ns : List Node} {rec : Node → Read Expr}
    (hkeys : ∀ e ∈ es, ∀ {n}, Says g e.1.item n → Promises e.1 (rec n))
    (hvalues : ∀ e ∈ es, ∀ {n}, Says g e.2.item n → Promises e.2 (rec n))
    (hns : SayAll g (Expr.pairItems es) ns) :
    Promises es (ns.mapM fun a =>
      match g.follow a with
      | .sequence _ _ [k, v] => do
        let key ← rec k
        let value ← rec v
        pure (key, value)
      | pair => refuse pair .entryNotPair) := by
  rw [Expr.pairItems_eq_map] at hns
  refine .said (fun e he n h => ?_) hns
  obtain ⟨pos, tag, nodes, hfollow, hnodes⟩ := h
  simp only [sayAll_cons, sayAll_nil] at hnodes
  obtain ⟨k, _, rfl, hk, v, _, rfl, hv, rfl⟩ := hnodes
  rw [hfollow]
  exact (hkeys e he hk).bind ((hvalues e he hv).bind .ok)

/-- Every regular expression is read back from a node that says its document, unless the reading is
cut off. -/
theorem readExpr_promises {e : Expr} (he : e.Regular) (depth : Nat) {n : Node}
    (hn : Says g e.item n) : Promises e (readExpr g depth n) := by
  induction he generalizing depth n with
  | number | text | bool => exact literal_promises ((says_literal rfl).mp hn) depth
  | ref hname =>
    refine operation_promises rfl (by decide) (fun depth m ns hns => ?_) depth hn
    simp only [sayAll_cons, sayAll_nil] at hns
    obtain ⟨a, _, rfl, ha, rfl⟩ := hns
    change Promises _ (readName g a >>= _)
    exact .bind (.inl (readName_eq_ok.mpr ⟨hname, ha⟩)) .ok
  | assign hname _ ih =>
    refine operation_promises rfl (by decide) (fun depth m ns hns => ?_) depth hn
    simp only [sayAll_cons, sayAll_nil] at hns
    obtain ⟨a, _, rfl, ha, b, _, rfl, hb, rfl⟩ := hns
    change Promises _ (readName g a >>= _)
    exact .bind (.inl (readName_eq_ok.mpr ⟨hname, ha⟩)) ((ih depth hb).bind .ok)
  | @binary op left right hop _ _ ihl ihr =>
    have hsymbol := Operator.ofSymbol?_symbol hop
    have hoperation : isOperation op.symbol = true := by simp [isOperation, hsymbol]
    refine operation_promises rfl hoperation (fun depth m ns hns => ?_) depth hn
    simp only [sayAll_cons, sayAll_nil] at hns
    obtain ⟨a, _, rfl, ha, b, _, rfl, hb, rfl⟩ := hns
    simp only [readOperation, hsymbol]
    exact (ihl depth ha).bind ((ihr depth hb).bind .ok)
  | call hname _ ih =>
    refine operation_promises rfl (by decide) (fun depth m ns hns => ?_) depth hn
    obtain ⟨a, rest, rfl, ha, hrest⟩ := sayAll_cons.mp hns
    change Promises _ (readName g a >>= _)
    have hargs := Promises.operands (fun e he _ => ih e he depth) hrest
    exact .bind (.inl (readName_eq_ok.mpr ⟨hname, ha⟩)) (hargs.bind .ok)
  | ite _ _ _ ihc iht ihf =>
    refine operation_promises rfl (by decide) (fun depth m ns hns => ?_) depth hn
    simp only [sayAll_cons, sayAll_nil] at hns
    obtain ⟨a, _, rfl, ha, b, _, rfl, hb, c, _, rfl, hc, rfl⟩ := hns
    change Promises _ (readExpr g depth a >>= _)
    exact (ihc depth ha).bind ((iht depth hb).bind ((ihf depth hc).bind .ok))
  | loop _ _ ihc ihb =>
    refine operation_promises rfl (by decide) (fun depth m ns hns => ?_) depth hn
    simp only [sayAll_cons, sayAll_nil] at hns
    obtain ⟨a, _, rfl, ha, b, _, rfl, hb, rfl⟩ := hns
    change Promises _ (readExpr g depth a >>= _)
    exact (ihc depth ha).bind ((ihb depth hb).bind .ok)
  | seq _ ih =>
    refine operation_promises rfl (by decide) (fun depth m ns hns => ?_) depth hn
    change Promises _ (ns.mapM (readExpr g depth) >>= _)
    exact (Promises.operands (fun e he _ => ih e he depth) hns).bind .ok
  | list _ ih =>
    refine operation_promises rfl (by decide) (fun depth m ns hns => ?_) depth hn
    change Promises _ (ns.mapM (readExpr g depth) >>= _)
    exact (Promises.operands (fun e he _ => ih e he depth) hns).bind .ok
  | dict _ _ ihk ihv =>
    refine operation_promises rfl (by decide) (fun depth m ns hns => ?_) depth hn
    change Promises _ (List.mapM _ ns >>= _)
    have hentries : Promises _ _ :=
      .entries (fun e he _ => ihk e he depth) (fun e he _ => ihv e he depth) hns
    exact hentries.bind .ok

/-! ## What an expression was read from -/

/-- The node says the expression, and the expression is regular. -/
def Origin (g : Graph) (n : Node) (e : Expr) : Prop := e.Regular ∧ Says g e.item n

theorem operands_origin {rec : Node → Read Expr} (hrec : ∀ {n e}, rec n = .ok e → Origin g n e)
    {ns : List Node} {es : List Expr} (h : ns.mapM rec = .ok es) :
    (∀ e ∈ es, e.Regular) ∧ SayAll g (Expr.items es) ns := by
  rw [mapM_eq_ok] at h
  have hall := (h.imp fun n e => hrec).flip
  rw [Expr.items_eq_map, sayAll_map]
  exact (List.forall₂_and_left es ns).mp hall

theorem entries_origin {rec : Node → Read Expr} (hrec : ∀ {n e}, rec n = .ok e → Origin g n e)
    {ns : List Node} {es : List (Expr × Expr)}
    (h : (ns.mapM fun a =>
      match g.follow a with
      | .sequence _ _ [k, v] => do
        let key ← rec k
        let value ← rec v
        pure (key, value)
      | pair => refuse pair .entryNotPair) = .ok es) :
    (∀ e ∈ es, e.1.Regular ∧ e.2.Regular) ∧ SayAll g (Expr.pairItems es) ns := by
  rw [mapM_eq_ok] at h
  rw [Expr.pairItems_eq_map, sayAll_map]
  refine (List.forall₂_and_left es ns).mp (h.imp fun n e hread => ?_).flip
  dsimp only [flip]
  split at hread
  · next k v hfollow =>
    simp only [bind_eq_ok] at hread
    obtain ⟨key, hkey, value, hvalue, hread⟩ := hread
    cases hread
    obtain ⟨hk, hksays⟩ := hrec hkey
    obtain ⟨hv, hvsays⟩ := hrec hvalue
    exact ⟨⟨hk, hv⟩, _, _, _, hfollow, hksays, hvsays, trivial⟩
  · cases hread

theorem Operator.of_ofSymbol? {op : String} {o : Operator} (h : Operator.ofSymbol? op = some o) :
    o ∈ Operator.known ∧ o.symbol = op := by
  unfold Operator.ofSymbol? at h
  have hsymbol := List.find?_some h
  exact ⟨List.mem_of_find?_eq_some h, eq_of_beq hsymbol⟩

/-- What is read as an operation is written with its name, and the operands were read from the
operands. -/
theorem readOperation_origin {rec : Node → Read Expr}
    (hrec : ∀ {n e}, rec n = .ok e → Origin g n e) {m : Node} {op : String} {args : List Node}
    (hop : isOperation op = true) {e : Expr} (h : readOperation g rec m op args = .ok e) :
    e.Regular ∧ ∃ items, e.item = .operation op items ∧ SayAll g items args := by
  unfold readOperation at h
  split at h
  · next o ho =>
    obtain ⟨hknown, rfl⟩ := Operator.of_ofSymbol? ho
    split at h
    · simp only [bind_eq_ok] at h
      obtain ⟨l, hl, r, hr, h⟩ := h
      cases h
      obtain ⟨hl, hlsays⟩ := hrec hl
      obtain ⟨hr, hrsays⟩ := hrec hr
      exact ⟨.binary hknown hl hr, _, rfl, hlsays, hrsays, trivial⟩
    · cases h
  · next hnone =>
    split at h
    · simp only [bind_eq_ok] at h
      obtain ⟨es, hes, h⟩ := h
      cases h
      obtain ⟨hregular, hsaid⟩ := operands_origin hrec hes
      exact ⟨.seq hregular, _, rfl, hsaid⟩
    · split at h
      · simp only [bind_eq_ok] at h
        obtain ⟨c, hc, t, ht, f, hf, h⟩ := h
        cases h
        obtain ⟨hc, hcsays⟩ := hrec hc
        obtain ⟨ht, htsays⟩ := hrec ht
        obtain ⟨hf, hfsays⟩ := hrec hf
        exact ⟨.ite hc ht hf, _, rfl, hcsays, htsays, hfsays, trivial⟩
      · cases h
    · split at h
      · simp only [bind_eq_ok] at h
        obtain ⟨c, hc, b, hb, h⟩ := h
        cases h
        obtain ⟨hc, hcsays⟩ := hrec hc
        obtain ⟨hb, hbsays⟩ := hrec hb
        exact ⟨.loop hc hb, _, rfl, hcsays, hbsays, trivial⟩
      · cases h
    · split at h
      · simp only [bind_eq_ok] at h
        obtain ⟨name, hname, v, hv, h⟩ := h
        cases h
        obtain ⟨hname, hsaid⟩ := readName_eq_ok.mp hname
        obtain ⟨hv, hvsays⟩ := hrec hv
        exact ⟨.assign hname hv, _, rfl, hsaid, hvsays, trivial⟩
      · cases h
    · split at h
      · simp only [bind_eq_ok] at h
        obtain ⟨name, hname, h⟩ := h
        cases h
        obtain ⟨hname, hsaid⟩ := readName_eq_ok.mp hname
        exact ⟨.ref hname, _, rfl, hsaid, trivial⟩
      · cases h
    · split at h
      · cases h
      · simp only [bind_eq_ok] at h
        obtain ⟨name, hname, es, hes, h⟩ := h
        cases h
        obtain ⟨hname, hsaid⟩ := readName_eq_ok.mp hname
        obtain ⟨hregular, hargs⟩ := operands_origin hrec hes
        exact ⟨.call hname hregular, _, rfl, hsaid, hargs⟩
    · simp only [bind_eq_ok] at h
      obtain ⟨es, hes, h⟩ := h
      cases h
      obtain ⟨hregular, hsaid⟩ := operands_origin hrec hes
      exact ⟨.list hregular, _, rfl, hsaid⟩
    · -- No other name of an operation is left than that of dictionaries.
      have hdict : op = "dict" := by
        simp_all [isOperation, forms]
      subst hdict
      simp only [bind_eq_ok] at h
      obtain ⟨es, hes, h⟩ := h
      cases h
      obtain ⟨hregular, hsaid⟩ := entries_origin hrec hes
      exact ⟨.dict (fun e he => (hregular e he).1) (fun e he => (hregular e he).2), _, rfl, hsaid⟩

/-- What is read as an expression is regular, and the node says it. -/
theorem readExpr_origin {depth : Nat} {n : Node} {e : Expr} (h : readExpr g depth n = .ok e) :
    Origin g n e := by
  induction depth generalizing n e with
  | zero => cases h
  | succ depth ih =>
    simp only [readExpr] at h
    split at h
    · next hfollow =>
      have hliteral := isLiteral_of_readLiteral h
      refine ⟨?_, (says_literal hliteral).mpr ⟨_, _, _, _, hfollow, h⟩⟩
      cases e with
      | number => exact .number
      | text => exact .text
      | bool => exact .bool
      | _ => cases hliteral
    · next pos tag items hfollow =>
      split at h
      · cases h
      · next first args =>
        split at h
        · cases h
        · next op hhead =>
          split at h
          · next hop =>
            obtain ⟨hregular, items, hitem, hargs⟩ := readOperation_origin ih hop h
            refine ⟨hregular, ?_⟩
            rw [hitem]
            exact says_operation.mpr ⟨pos, tag, first, args, hfollow, hhead, hargs⟩
          · cases h
    · cases h

/-- Where aliases come to an end, an expression is read from a node exactly if it is regular and the
node says it. -/
theorem readExpr_eq_ok (hg : g.Unfolds) (hn : n ∈ g.root.subnodes) {e : Expr} :
    readExpr g (nodeCount g) n = .ok e ↔ Origin g n e := by
  constructor
  · exact readExpr_origin
  · rintro ⟨hregular, hsaid⟩
    exact (readExpr_promises hregular _ hsaid).eq_ok (readExpr_stops hg hn)

end Reader

end TreeLang
