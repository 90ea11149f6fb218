import TreeLang.Proofs.Table
import TreeLang.Proofs.Typing.Programs

/-!
# The types of assignments

The checker goes through the assignments of an expression in the order of the text and records a
type for each under its path. `Sited` says this of a stretch of checking: the variables after it are
those before it with the assignments carried out at the recorded types. Stretches compose because
the paths of one child are never those of another. Main statements: `checkExpr_recorded` and
`checkExpr_vars`, by which a check records a type for every assignment, and leaves each variable
with the type of the last assignment in the text.
-/

namespace TreeLang

mutual

/-- The assignments in an expression with the names that they assign, in the order in which they are
checked. -/
def Expr.sites (path : Path) : Expr → List (Path × String)
  | .number _ | .text _ | .bool _ | .ref _ => []
  | .assign name value => value.sites (path ++ [0]) ++ [(path, name)]
  | .binary _ l r => l.sites (path ++ [0]) ++ r.sites (path ++ [1])
  | .call _ args => Expr.sitesAll path 0 args
  | .ite c t f => c.sites (path ++ [0]) ++ (t.sites (path ++ [1]) ++ f.sites (path ++ [2]))
  | .loop c b => c.sites (path ++ [0]) ++ b.sites (path ++ [1])
  | .seq bodies => Expr.sitesAll path 0 bodies
  | .list elems => Expr.sitesAll path 0 elems
  | .dict entries => Expr.sitesEntries path 0 entries

/-- The assignments in expressions, which are the children from `i` on. -/
def Expr.sitesAll (path : Path) (i : Nat) : List Expr → List (Path × String)
  | [] => []
  | e :: es => e.sites (path ++ [i]) ++ Expr.sitesAll path (i + 1) es

/-- The assignments in entries, whose children start at `i`. -/
def Expr.sitesEntries (path : Path) (i : Nat) : List (Expr × Expr) → List (Path × String)
  | [] => []
  | (k, v) :: es =>
    k.sites (path ++ [i]) ++ (v.sites (path ++ [i + 1]) ++ Expr.sitesEntries path (i + 2) es)

end

/-- The last assignment to a name in the text. -/
def Expr.lastSite (path : Path) (e : Expr) (name : String) : Option Path :=
  ((e.sites path).reverse.find? (·.2 = name)).map (·.1)

/-- Among entries with a key there is a last one. -/
theorem exists_last {α : Type} (key : α → String) {entries : List α} {name : String}
    (h : name ∈ entries.map key) :
    ∃ x ∈ entries, key x = name ∧ entries.reverse.find? (key · = name) = some x := by
  obtain ⟨y, hy, hname⟩ := List.mem_map.mp h
  cases hfind : entries.reverse.find? (key · = name) with
  | none =>
    rw [List.find?_eq_none] at hfind
    exact absurd (decide_eq_true hname) (hfind y (List.mem_reverse.mpr hy))
  | some x =>
    have hkey : key x = name := by simpa using List.find?_some hfind
    exact ⟨x, List.mem_reverse.mp (List.mem_of_find?_eq_some hfind), hkey, rfl⟩

/-- A name that the text assigns has a last assignment in the text. -/
theorem Expr.exists_lastSite {e : Expr} {start path : Path} {name : String}
    (h : (path, name) ∈ e.sites start) :
    ∃ last, e.lastSite start name = some last ∧ (last, name) ∈ e.sites start := by
  have hname : name ∈ (e.sites start).map (fun site => site.2) := List.mem_map.mpr ⟨_, h, rfl⟩
  obtain ⟨x, hx, rfl, hlast⟩ := exists_last _ hname
  refine ⟨x.1, ?_, hx⟩
  rw [Expr.lastSite, hlast]
  rfl

/-- The type that is recorded for an expression. -/
def typeAt (record : List (Path × Ty)) (path : Path) : Option Ty :=
  (record.find? (·.1 == path)).map (·.2)

theorem typeAt_append {news record : List (Path × Ty)} {path : Path}
    (h : ∀ r ∈ news, r.1 ≠ path) : typeAt (news ++ record) path = typeAt record path := by
  have hnone : news.find? (·.1 == path) = none := by
    rw [List.find?_eq_none]
    intro r hr
    simpa using h r hr
  rw [typeAt, List.find?_append, hnone, Option.none_or]
  rfl

namespace Check

/-! ## Stretches of checking -/

/-- The paths below a path by way of its children from `i` up to `j`. -/
def Span (path : Path) (i j : Nat) (p : Path) : Prop :=
  ∃ k rest, i ≤ k ∧ k < j ∧ p = path ++ k :: rest

section

variable {path p q : Path} {i j k : Nat}

theorem Span.left (h : Span path i j p) (hjk : j ≤ k) : Span path i k p := by
  obtain ⟨c, rest, hi, hj, hp⟩ := h
  exact ⟨c, rest, hi, by omega, hp⟩

theorem Span.right (h : Span path j k p) (hij : i ≤ j) : Span path i k p := by
  obtain ⟨c, rest, hj, hk, hp⟩ := h
  exact ⟨c, rest, by omega, hk, hp⟩

/-- The paths below one child are not those below a later one. -/
theorem Span.ne (h : Span path i j p) (h' : Span path j k q) : q ≠ p := by
  obtain ⟨c, rest, -, hc, rfl⟩ := h
  obtain ⟨d, rest', hd, -, rfl⟩ := h'
  intro heq
  have hhead := (List.cons.inj (List.append_cancel_left heq)).1
  omega

theorem span_child (h : path ++ [i] <+: p) : Span path i (i + 1) p := by
  obtain ⟨rest, rfl⟩ := h
  exact ⟨i, rest, by omega, by omega, by simp⟩

theorem Span.below (h : Span path i j p) : path <+: p ∧ path ≠ p := by
  obtain ⟨c, rest, -, -, rfl⟩ := h
  exact ⟨⟨c :: rest, rfl⟩, by simp⟩

end

/-- From `s` to `s'` the assignments `ts` have been checked, and what has been recorded is for paths
of the region. -/
structure Notes (region : Path → Prop) (ts : List (Path × String × Ty)) (s s' : CheckState) :
    Prop where
  vars : s'.scope.vars = s.scope.vars.insertAll (ts.map (·.2))
  record : ∃ news, s'.record = news ++ s.record ∧ ∀ r ∈ news, region r.1
  noted : ∀ x ∈ ts, region x.1 ∧ typeAt s'.record x.1 = some x.2.2

/-- From `s` to `s'` these assignments have been checked. -/
def Sited (region : Path → Prop) (sites : List (Path × String)) (s s' : CheckState) : Prop :=
  ∃ ts, ts.map (fun x => (x.1, x.2.1)) = sites ∧ Notes region ts s s'

namespace Sited

variable {path : Path} {sites sites' : List (Path × String)} {s s' s'' : CheckState}

theorem unchanged (region : Path → Prop) (hscope : s'.scope = s.scope)
    (hrecord : s'.record = s.record) : Sited region [] s s' := by
  refine ⟨[], rfl, ?_, ⟨[], hrecord, List.forall_mem_nil _⟩, List.forall_mem_nil _⟩
  rw [hscope]
  rfl

theorem trans {i j k : Nat} (h : Sited (Span path i j) sites s s')
    (h' : Sited (Span path j k) sites' s' s'') (hij : i ≤ j) (hjk : j ≤ k) :
    Sited (Span path i k) (sites ++ sites') s s'' := by
  obtain ⟨ts, rfl, hvars, ⟨news, hrecord, hnews⟩, hnoted⟩ := h
  obtain ⟨us, rfl, hvars', ⟨news', hrecord', hnews'⟩, hnoted'⟩ := h'
  refine ⟨ts ++ us, List.map_append, ?_, ⟨news' ++ news, ?_, ?_⟩, ?_⟩
  · rw [hvars', hvars, List.map_append, Table.insertAll_append]
  · rw [hrecord', hrecord, List.append_assoc]
  · exact List.forall_mem_append.mpr
      ⟨fun r hr => (hnews' r hr).right hij, fun r hr => (hnews r hr).left hjk⟩
  · refine List.forall_mem_append.mpr ⟨fun x hx => ?_, fun x hx => ?_⟩
    · -- What the second stretch records is not for these paths.
      obtain ⟨hregion, htype⟩ := hnoted x hx
      refine ⟨hregion.left hjk, ?_⟩
      rw [hrecord', typeAt_append fun r hr => hregion.ne (hnews' r hr)]
      exact htype
    · obtain ⟨hregion, htype⟩ := hnoted' x hx
      exact ⟨hregion.right hij, htype⟩

theorem child {i : Nat} (h : Sited (path ++ [i] <+: ·) sites s s') :
    Sited (Span path i (i + 1)) sites s s' := by
  obtain ⟨ts, hsites, hvars, ⟨news, hrecord, hnews⟩, hnoted⟩ := h
  exact ⟨ts, hsites, hvars, ⟨news, hrecord, fun r hr => span_child (hnews r hr)⟩,
    fun x hx => ⟨span_child (hnoted x hx).1, (hnoted x hx).2⟩⟩

/-- The expression itself is recorded after all of its children. -/
theorem node {i j : Nat} (h : Sited (Span path i j) sites s s') (t : Ty) :
    Sited (path <+: ·) sites s { s' with record := (path, t) :: s'.record } := by
  obtain ⟨ts, hsites, hvars, ⟨news, hrecord, hnews⟩, hnoted⟩ := h
  refine ⟨ts, hsites, hvars, ⟨(path, t) :: news, ?_, ?_⟩, fun x hx => ?_⟩
  · exact congrArg ((path, t) :: ·) hrecord
  · exact List.forall_mem_cons.mpr
      ⟨List.prefix_refl path, fun r hr => (hnews r hr).below.1⟩
  · obtain ⟨hregion, htype⟩ := hnoted x hx
    refine ⟨hregion.below.1, ?_⟩
    have hself : ∀ r ∈ [(path, t)], r.1 ≠ x.1 := by simpa using hregion.below.2
    exact (typeAt_append hself).trans htype

/-- An expression without children assigns nothing, and may take type variables. -/
theorem leaf (s : CheckState) (supply : Supply) (path : Path) (t : Ty) :
    Sited (path <+: ·) [] s ⟨s.scope, supply, (path, t) :: s.record⟩ := by
  have hnothing : Sited (Span path 0 0) [] s ⟨s.scope, supply, s.record⟩ := .unchanged _ rfl rfl
  exact hnothing.node t

/-- An assignment is checked after those in its value, and has the type of its value. -/
theorem assign (h : Sited (path ++ [0] <+: ·) sites s s') (name : String) (t : Ty) :
    Sited (path <+: ·) (sites ++ [(path, name)]) s
      { s' with scope := s'.scope.define name t, record := (path, t) :: s'.record } := by
  obtain ⟨ts, rfl, hvars, hrecord, hnoted⟩ := h.child.node t
  refine ⟨ts ++ [(path, name, t)], by simp, ?_, hrecord, ?_⟩
  · rw [List.map_append, Table.insertAll_append, ← hvars]
    rfl
  · refine List.forall_mem_append.mpr ⟨hnoted, List.forall_mem_singleton.mpr ⟨?_, ?_⟩⟩
    · exact List.prefix_refl path
    · simp [typeAt]

end Sited

/-! ## Expressions -/

section

variable {outer : ScopeChain}

/-- Checking the expression, wherever it stands, records its assignments. -/
def SitesNoted (outer : ScopeChain) (e : Expr) : Prop :=
  ∀ {path : Path} {s s' : CheckState} {t : Ty}, Gives (infer outer path e) s t s' →
    Sited (path <+: ·) (e.sites path) s s'

theorem inferAll_sited {es : List Expr} (hes : ∀ e ∈ es, SitesNoted outer e) {path : Path} {i : Nat}
    {s s' : CheckState} {ts : List Ty} (h : Gives (inferAll outer path i es) s ts s') :
    Sited (Span path i (i + es.length)) (Expr.sitesAll path i es) s s' := by
  induction es generalizing i s ts with
  | nil =>
    rw [inferAll, gives_pure] at h
    obtain ⟨rfl, rfl⟩ := h
    exact .unchanged _ rfl rfl
  | cons e es ih =>
    simp only [inferAll, gives_bind, gives_pure] at h
    obtain ⟨t, s₁, he, ts, s₂, hrest, rfl, rfl⟩ := h
    have hhead := (hes e (by simp) he).child
    have htail := ih (fun x hx => hes x (by simp [hx])) hrest
    have hend : i + 1 + es.length = i + (e :: es).length := by
      rw [List.length_cons]
      omega
    rw [hend] at htail
    exact hhead.trans htail (by omega) (by simp)

theorem inferElems_sited {es : List Expr} (hes : ∀ e ∈ es, SitesNoted outer e) {path : Path}
    {whole : Expr} {first : Ty} {i : Nat} {s s' : CheckState} {u : PUnit}
    (h : Gives (inferElems outer path whole first i es) s u s') :
    Sited (Span path i (i + es.length)) (Expr.sitesAll path i es) s s' := by
  induction es generalizing i s with
  | nil =>
    rw [inferElems, gives_pure] at h
    obtain ⟨-, rfl⟩ := h
    exact .unchanged _ rfl rfl
  | cons e es ih =>
    simp only [inferElems, gives_bind, gives_ite, not_gives_problem, and_false, or_false] at h
    obtain ⟨t, s₁, he, -, hrest⟩ := h
    have hhead := (hes e (by simp) he).child
    have htail := ih (fun x hx => hes x (by simp [hx])) hrest
    have hend : i + 1 + es.length = i + (e :: es).length := by
      rw [List.length_cons]
      omega
    rw [hend] at htail
    exact hhead.trans htail (by omega) (by simp)

theorem inferEntries_sited {es : List (Expr × Expr)}
    (hes : ∀ e ∈ es, SitesNoted outer e.1 ∧ SitesNoted outer e.2) {path : Path} {whole : Expr}
    {key value : Ty} {i : Nat} {s s' : CheckState} {u : PUnit}
    (h : Gives (inferEntries outer path whole key value i es) s u s') :
    Sited (Span path i (i + 2 * es.length)) (Expr.sitesEntries path i es) s s' := by
  induction es generalizing i s with
  | nil =>
    rw [inferEntries, gives_pure] at h
    obtain ⟨-, rfl⟩ := h
    exact .unchanged _ rfl rfl
  | cons e es ih =>
    obtain ⟨k, v⟩ := e
    simp only [inferEntries, gives_bind, gives_ite, not_gives_problem, and_false, false_or,
      Bool.not_eq_true', Bool.not_eq_false] at h
    obtain ⟨kt, s₁, hk, vt, s₂, hv, -, -, hrest⟩ := h
    obtain ⟨hkey, hvalue⟩ := hes (k, v) (by simp)
    have htail := ih (fun x hx => hes x (by simp [hx])) hrest
    have hend : i + 2 + 2 * es.length = i + 2 * ((k, v) :: es).length := by
      rw [List.length_cons]
      omega
    rw [hend] at htail
    have hlength : 2 ≤ 2 * ((k, v) :: es).length := by
      rw [List.length_cons]
      omega
    have hrest := (hvalue hv).child.trans htail (by omega) (by omega)
    exact (hkey hk).child.trans hrest (by omega) (by omega)

/-- Checking an expression records its assignments, and binds their names to the recorded types. -/
theorem infer_sited (e : Expr) : SitesNoted outer e := by
  induction e with
  | number x =>
    intro path s s' t h
    simp only [infer, gives_bind, note, gives_modify, gives_pure] at h
    obtain ⟨_, s₁, ⟨rfl, rfl⟩, _, s₂, rfl, rfl, rfl⟩ := h
    exact .leaf s₁ _ path .number
  | text x =>
    intro path s s' t h
    simp only [infer, gives_bind, note, gives_modify, gives_pure] at h
    obtain ⟨_, s₁, ⟨rfl, rfl⟩, _, s₂, rfl, rfl, rfl⟩ := h
    exact .leaf s₁ _ path .text
  | bool b =>
    intro path s s' t h
    simp only [infer, gives_bind, note, gives_modify, gives_pure] at h
    obtain ⟨_, s₁, ⟨rfl, rfl⟩, _, s₂, rfl, rfl, rfl⟩ := h
    exact .leaf s₁ _ path .boolean
  | ref name =>
    intro path s s' t h
    simp only [infer, chain, gives_bind, note, gives_get, gives_pure] at h
    obtain ⟨c, s₁, ⟨s₂, s₃, ⟨rfl, rfl⟩, rfl, rfl⟩, h⟩ := h
    split at h
    · next sym hsym =>
      simp only [gives_bind, gives_modify, gives_pure] at h
      obtain ⟨_, s₁, ⟨rfl, rfl⟩, _, s₂, rfl, rfl, rfl⟩ := h
      exact .leaf s₁ _ path sym.type
    · simp [gives_bind] at h
  | assign name value ih =>
    intro path s s' t h
    simp only [infer, gives_bind, note, gives_modify, gives_pure] at h
    obtain ⟨t', s₁, hv, _, s₂, rfl, _, s₃, ⟨rfl, rfl⟩, _, s₄, rfl, rfl, rfl⟩ := h
    exact (ih hv).assign name t
  | binary op l r ihl ihr =>
    intro path s s' t h
    simp only [infer, gives_bind, note, gives_modify, gives_pure, operatorType_gives] at h
    obtain ⟨lt, s₁, hl, rt, s₂, hr, t', s₃, ⟨-, rfl⟩, _, s₄, rfl, rfl, rfl⟩ := h
    have hleft := (ihl hl).child
    have hright := (ihr hr).child
    exact (hleft.trans hright (by omega) (by omega)).node t
  | call name args ih =>
    intro path s s' t h
    simp only [infer, gives_bind, note, gives_modify, gives_pure, signature_gives,
      matchArgs_gives] at h
    obtain ⟨f, s₁, ⟨hf, hrecord⟩, ts, s₂, hts, b, s₃, ⟨-, rfl⟩, _, s₄, ⟨rfl, rfl⟩, _, s₅, rfl,
      rfl, rfl⟩ := h
    obtain ⟨-, -, -, -, hscope, -⟩ := hf
    -- Looking the callee up takes type variables, but neither binds nor records anything.
    have hcallee : Sited (Span path 0 0) [] s s₁ := .unchanged _ hscope hrecord
    have hargs := inferAll_sited ih hts
    exact (hcallee.trans hargs (by omega) (by omega)).node _
  | ite c t f ihc iht ihf =>
    intro path s s' u h
    simp only [infer, gives_bind, note, gives_modify, gives_pure, condition_gives, gives_ite] at h
    obtain ⟨ct, s₁, hc, _, s₂, ⟨rfl, rfl⟩, tt, s₃, ht, ft, s₄, hf, h⟩ := h
    obtain ⟨-, _, s₅, ⟨rfl, rfl⟩, _, s₆, rfl, rfl, rfl⟩ | ⟨-, _, s₅, h, -⟩ := h
    · have hcond := (ihc hc).child
      have hthen := (iht ht).child
      have helse := (ihf hf).child
      have hbranches := hthen.trans helse (by omega) (by omega)
      exact (hcond.trans hbranches (by omega) (by omega)).node u
    · exact absurd h not_gives_problem
  | loop c b ihc ihb =>
    intro path s s' t h
    simp only [infer, gives_bind, note, gives_modify, gives_pure, condition_gives] at h
    obtain ⟨ct, s₁, hc, _, s₂, ⟨rfl, rfl⟩, bt, s₃, hb, _, s₄, ⟨rfl, rfl⟩, _, s₅, rfl, rfl,
      rfl⟩ := h
    have hcond := (ihc hc).child
    have hbody := (ihb hb).child
    exact (hcond.trans hbody (by omega) (by omega)).node .void
  | seq bodies ih =>
    intro path s s' t h
    simp only [infer, gives_bind, note, gives_modify, gives_pure] at h
    obtain ⟨ts, s₁, hts, _, s₂, ⟨rfl, rfl⟩, _, s₃, rfl, rfl, rfl⟩ := h
    exact (inferAll_sited ih hts).node _
  | list elems ih =>
    intro path s s' t h
    cases elems with
    | nil =>
      simp only [infer, fresh_gives, gives_bind, note, gives_modify, gives_pure] at h
      obtain ⟨_, s₁, ⟨rfl, rfl⟩, _, s₂, ⟨rfl, rfl⟩, _, s₃, rfl, rfl, rfl⟩ := h
      rw [Expr.sites, Expr.sitesAll]
      exact .leaf s _ path _
    | cons e es =>
      simp only [infer, gives_bind, note, gives_modify, gives_pure] at h
      obtain ⟨t', s₁, he, _, s₂, hes, _, s₃, ⟨rfl, rfl⟩, _, s₄, rfl, rfl, rfl⟩ := h
      have hfirst := (ih e (by simp) he).child
      have hrest := inferElems_sited (fun x hx => ih x (by simp [hx])) hes
      exact (hfirst.trans hrest (by omega) (by omega)).node _
  | dict entries ih =>
    intro path s s' t h
    cases entries with
    | nil =>
      simp only [infer, fresh_gives, gives_bind, note, gives_modify, gives_pure] at h
      obtain ⟨_, s₁, ⟨rfl, rfl⟩, _, s₂, ⟨rfl, rfl⟩, _, s₃, ⟨rfl, rfl⟩, _, s₄, rfl, rfl, rfl⟩ := h
      rw [Expr.sites, Expr.sitesEntries]
      exact .leaf s _ path _
    | cons e es =>
      obtain ⟨k, v⟩ := e
      simp only [infer, gives_bind, note, gives_modify, gives_pure] at h
      obtain ⟨kt, s₁, hk, vt, s₂, hv, _, s₃, hes, _, s₄, ⟨rfl, rfl⟩, _, s₅, rfl, rfl, rfl⟩ := h
      obtain ⟨hkey, hvalue⟩ := ih (k, v) (by simp)
      have hrest := inferEntries_sited (fun x hx => ih x (by simp [hx])) hes
      have htail := (hvalue hv).child.trans hrest (by omega) (by omega)
      exact ((hkey hk).child.trans htail (by omega) (by omega)).node _

end

end Check

namespace Checker

theorem checkExpr_sited {c c' : Checker} {unit : Nat} {e : Expr} {t : Ty}
    (h : c.checkExpr unit e = (.ok t, c')) :
    Check.Sited ([unit] <+: ·) (e.sites [unit]) ⟨c.scope, c.supply, c.record⟩
      ⟨c'.scope, c'.supply, c'.record⟩ := by
  unfold checkExpr at h
  rcases hrun : (Check.infer [Scope.prelude] [unit] e).run ⟨c.scope, c.supply, c.record⟩ with
    ⟨r, s⟩
  rw [hrun] at h
  cases r with
  | error halt => cases h
  | ok t =>
    cases h
    exact Check.infer_sited e hrun

/-- After a check, a type is recorded for every assignment of the expression. -/
theorem checkExpr_recorded {c c' : Checker} {unit : Nat} {e : Expr} {t : Ty}
    (h : c.checkExpr unit e = (.ok t, c')) {path : Path} {name : String}
    (hsite : (path, name) ∈ e.sites [unit]) : ∃ u, typeAt c'.record path = some u := by
  obtain ⟨ts, hsites, -, -, hnoted⟩ := checkExpr_sited h
  rw [← hsites] at hsite
  obtain ⟨x, hx, hpath⟩ := List.mem_map.mp hsite
  cases hpath
  exact ⟨x.2.2, (hnoted x hx).2⟩

/-- After a check, a variable has the type of the last assignment to it in the text; if there is
none, it has the type from before. -/
theorem checkExpr_vars {c c' : Checker} {unit : Nat} {e : Expr} {t : Ty}
    (h : c.checkExpr unit e = (.ok t, c')) (name : String) :
    c'.scope.vars.get? name =
      ((e.lastSite [unit] name).bind (typeAt c'.record)).or (c.scope.vars.get? name) := by
  obtain ⟨ts, hsites, hvars, -, hnoted⟩ := checkExpr_sited h
  dsimp only at hvars hnoted
  rw [hvars, Table.get?_insertAll, Expr.lastSite, ← hsites, ← List.map_reverse, ← List.map_reverse]
  simp only [List.find?_map, Function.comp_def]
  -- Both sides look for the last entry for the name, one among types and one among places.
  cases hfind : ts.reverse.find? (fun x => x.2.1 = name) with
  | none => rfl
  | some x =>
    have hmem : x ∈ ts := List.mem_reverse.mp (List.mem_of_find?_eq_some hfind)
    simp only [Option.map_some, Option.bind_some, (hnoted x hmem).2]

end Checker

end TreeLang
