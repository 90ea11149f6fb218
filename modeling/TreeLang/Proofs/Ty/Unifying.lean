import TreeLang.Proofs.Ty.Ending

/-!
# Matches as unifiers

Bindings are acyclic when the variables have a rank that goes down along every binding. Applying
such bindings stops nowhere early: a bound variable reads as its binding does (`Acyclic.apply_var`),
although its own binding is set aside while it is being expanded. A run of matching only adds
bindings, so what it finds is still there at its end.

Main statement: `match_unifies`. Matching keeps all bindings, also when it fails, and the bindings
of a match make both types equal if they are acyclic.
-/

namespace TreeLang

/-! ## Acyclic bindings -/

namespace Subst

/-- The rank of the variables goes down along every binding. -/
def Ranked (rank : String → Nat) (s : Subst) : Prop :=
  ∀ x t, s.get? x = some t → ∀ y ∈ t.occurrences, rank y < rank x

/-- No variable is reached from its own binding. -/
def Acyclic (s : Subst) : Prop := ∃ rank, s.Ranked rank

/-- The bindings are the same up to a rank. -/
def AgreeUpTo (rank : String → Nat) (k : Nat) (s s' : Subst) : Prop :=
  ∀ x, rank x ≤ k → s.get? x = s'.get? x

theorem AgreeUpTo.symm {rank : String → Nat} {k : Nat} {s s' : Subst}
    (h : AgreeUpTo rank k s s') : AgreeUpTo rank k s' s := fun x hx => (h x hx).symm

/-- Setting aside a variable is not seen below its rank. -/
theorem agreeUpTo_erase {rank : String → Nat} {k : Nat} {x : String} (s : Subst)
    (hk : k < rank x) : AgreeUpTo rank k s (s.erase x) := by
  intro y hy
  have hne : x ≠ y := by
    rintro rfl
    omega
  rw [Table.get?_erase, if_neg hne]

theorem AgreeUpTo.trans {rank : String → Nat} {k : Nat} {s s' s'' : Subst}
    (h : AgreeUpTo rank k s s') (h' : AgreeUpTo rank k s' s'') : AgreeUpTo rank k s s'' :=
  fun x hx => (h x hx).trans (h' x hx)

theorem AgreeUpTo.mono {rank : String → Nat} {k l : Nat} {s s' : Subst}
    (h : AgreeUpTo rank k s s') (hl : l ≤ k) : AgreeUpTo rank l s s' :=
  fun x hx => h x (Nat.le_trans hx hl)

theorem size_erase_lt {s : Subst} {x : String} {t : Ty} (h : s.get? x = some t) :
    (s.erase x).size < s.size := by
  have hmem : (x, t) ∈ s.entries := Table.mem_of_get? h
  have hlt : (s.entries.filter fun e => e.1 ≠ x).length < s.entries.length :=
    List.length_filter_lt_length_iff_exists.mpr ⟨(x, t), hmem, by simp⟩
  exact hlt

theorem erase_extends (s : Subst) (x : String) : Extends (s.erase x) s := by
  intro y t hy
  rw [Table.get?_erase] at hy
  split at hy
  · cases hy
  · exact hy

end Subst

namespace Ty

open Subst (Ranked AgreeUpTo)

theorem resolve_of_get?_none {s : Subst} {x : String} (h : s.get? x = none) (depth : Nat) :
    resolve depth s x = .var x := by
  cases depth with
  | zero => rfl
  | succ depth => simp only [resolve, h]

/-- A variable that is bound to itself stays as it is. -/
theorem resolve_of_self {s : Subst} {x : String} (h : s.get? x = some (.var x)) (depth : Nat) :
    resolve depth s x = .var x := by
  cases depth with
  | zero => rfl
  | succ depth => simp only [resolve, h, if_true]

/-- A variable that is bound to another type stands for what this type does without the binding. -/
theorem resolve_of_get? {s : Subst} {x : String} {t : Ty} (h : s.get? x = some t)
    (ht : t ≠ .var x) (depth : Nat) :
    resolve (depth + 1) s x = t.bind (resolve depth (s.erase x)) := by
  cases t with
  | var y =>
    have hy : y ≠ x := fun hxy => ht (by rw [hxy])
    simp only [resolve, h, if_neg hy, bind]
  | _ => simp only [resolve, h]

/-- What a variable stands for depends only on the bindings up to its rank, if all of them may be
followed. -/
theorem resolve_congr {rank : String → Nat} {s s₁ s₂ : Subst} {x : String} {d₁ d₂ : Nat}
    (hs : s.Ranked rank) (h₁ : AgreeUpTo rank (rank x) s s₁) (h₂ : AgreeUpTo rank (rank x) s s₂)
    (hd₁ : s₁.size ≤ d₁) (hd₂ : s₂.size ≤ d₂) : resolve d₁ s₁ x = resolve d₂ s₂ x := by
  induction hk : rank x using Nat.strong_induction_on generalizing x s₁ s₂ d₁ d₂ with
  | _ k ih =>
    subst hk
    cases hget : s.get? x with
    | none =>
      have hget₁ : s₁.get? x = none := by rw [← h₁ x (Nat.le_refl _), hget]
      have hget₂ : s₂.get? x = none := by rw [← h₂ x (Nat.le_refl _), hget]
      rw [resolve_of_get?_none hget₁, resolve_of_get?_none hget₂]
    | some t =>
      have hget₁ : s₁.get? x = some t := by rw [← h₁ x (Nat.le_refl _), hget]
      have hget₂ : s₂.get? x = some t := by rw [← h₂ x (Nat.le_refl _), hget]
      have hlt : ∀ y ∈ t.occurrences, rank y < rank x := hs x t hget
      have ht : t ≠ .var x := by
        rintro rfl
        exact Nat.lt_irrefl _ (hlt x (by simp [occurrences]))
      have hsize₁ := Subst.size_erase_lt hget₁
      have hsize₂ := Subst.size_erase_lt hget₂
      obtain ⟨d₁, rfl⟩ : ∃ d, d₁ = d + 1 := ⟨d₁ - 1, by omega⟩
      obtain ⟨d₂, rfl⟩ : ∃ d, d₂ = d + 1 := ⟨d₂ - 1, by omega⟩
      rw [resolve_of_get? hget₁ ht, resolve_of_get? hget₂ ht]
      apply bind_congr
      -- The variables of the binding have lower ranks, where nothing has been set aside.
      intro y hy
      have hagree {s' : Subst} (h : AgreeUpTo rank (rank x) s s') :
          AgreeUpTo rank (rank y) s (s'.erase x) :=
        (h.mono (Nat.le_of_lt (hlt y hy))).trans (Subst.agreeUpTo_erase s' (hlt y hy))
      exact ih (rank y) (hlt y hy) (hagree h₁) (hagree h₂) (by omega) (by omega) rfl

end Ty

/-- A bound variable reads as its binding does. -/
theorem Subst.Acyclic.apply_var {s : Subst} (hs : s.Acyclic) {x : String} {t : Ty}
    (h : s.get? x = some t) : (Ty.var x).apply s = t.apply s := by
  obtain ⟨rank, hrank⟩ := hs
  have hlt : ∀ y ∈ t.occurrences, rank y < rank x := hrank x t h
  have ht : t ≠ .var x := by
    rintro rfl
    exact Nat.lt_irrefl _ (hlt x (by simp [Ty.occurrences]))
  have hsize := Subst.size_erase_lt h
  obtain ⟨d, hd⟩ : ∃ d, s.size = d + 1 := ⟨s.size - 1, by omega⟩
  change Ty.resolve s.size s x = t.bind (Ty.resolve s.size s)
  rw [hd, Ty.resolve_of_get? h ht]
  apply Ty.bind_congr
  intro y hy
  exact Ty.resolve_congr hrank (agreeUpTo_erase s (hlt y hy)) (fun _ _ => rfl) (by omega)
    (Nat.le_of_eq hd)

/-! ## Matching -/

namespace Ty

/-- Matching keeps all bindings. -/
theorem matchWithin_extends {n : Nat} {p c : Ty} {s s' : Subst} {b : Bool}
    (h : matchWithin n p c s = some (b, s')) : s.Extends s' := by
  have hgrown : Grown Set.univ s s' :=
    matchWithin_grown (fun _ _ _ _ => trivial) trivial trivial (fun _ _ _ => trivial) h
  obtain ⟨new, hnew, -⟩ := hgrown
  intro x t hx
  rw [Table.get?, hnew, Table.lookup_append, show Table.lookup x s.entries = some t from hx]
  rfl

/-- Types with the same outermost constructor read the same if their parts do. -/
theorem bind_eq_of_alike {f : String → Ty} {p c : Ty} (h : alike p c = true)
    (hparts : p.parts.map (·.bind f) = c.parts.map (·.bind f)) : p.bind f = c.bind f := by
  cases p <;> cases c <;> simp only [alike, Bool.false_eq_true] at h
  case list.list =>
    simp only [parts, List.map_cons, List.map_nil, List.cons.injEq, and_true] at hparts
    simp only [bind, hparts]
  case dict.dict =>
    simp only [parts, List.map_cons, List.map_nil, List.cons.injEq, and_true] at hparts
    simp only [bind, hparts.1, hparts.2]
  case fn.fn ps r v qs t w =>
    simp only [ne_eq, decide_not, Bool.not_eq_eq_eq_not, Bool.not_true, Bool.or_eq_false_iff,
      bne_eq_false_iff_eq] at h
    simp only [parts, List.map_append, List.map_cons, List.map_nil] at hparts
    have hlen : (ps.map (·.bind f)).length = (qs.map (·.bind f)).length := by simpa using h.1
    obtain ⟨hps, hr⟩ := List.append_inj hparts hlen
    simp only [bind, bindAll_eq_map, hps, (List.cons.inj hr).1, h.2]

/-- Only constants match without having parts that match, and then they are equal. -/
theorem eq_of_matchParts {rec : Ty → Ty → Subst → Option (Bool × Subst)} {p c : Ty} {s s' : Subst}
    (halike : alike p c = false) (h : matchParts rec p c s = some (true, s')) : p = c := by
  cases p <;> cases c <;> simp only [alike, reduceCtorEq] at halike
  case con.con a b =>
    simp only [matchParts, Option.some.injEq, Prod.mk.injEq, beq_iff_eq] at h
    rw [h.1]
  case fn.fn =>
    rw [matchParts, if_pos (by rwa [Bool.not_eq_false'] at halike)] at h
    cases h
  all_goals cases h

variable {u : Subst}

/-- Types that match one by one are equal under acyclic bindings that extend those of the match. -/
theorem matchAll_unifies {n : Nat}
    (hrec : ∀ {p c : Ty} {s s' : Subst}, matchWithin n p c s = some (true, s') → s'.Extends u →
      p.apply u = c.apply u)
    {ps cs : List Ty} {s s' : Subst} (h : matchAll (matchWithin n) ps cs s = some (true, s'))
    (hext : s'.Extends u) : s.Extends u ∧ ps.map (·.apply u) = cs.map (·.apply u) := by
  induction ps generalizing cs s with
  | nil =>
    cases cs with
    | nil =>
      cases h
      exact ⟨hext, rfl⟩
    | cons c cs => cases h
  | cons p ps ih =>
    cases cs with
    | nil => cases h
    | cons c cs =>
      rw [matchAll] at h
      split at h
      · next s₁ h₁ =>
        obtain ⟨hext₁, hrest⟩ := ih h
        have hfirst := hrec h₁ hext₁
        refine ⟨(matchWithin_extends h₁).trans hext₁, ?_⟩
        rw [List.map_cons, List.map_cons, hfirst, hrest]
      · next hne => exact absurd h (hne s')

/-- The types of a match are equal under acyclic bindings that extend those of the match: the
bindings of a whole run serve for every match within it. -/
theorem matchWithin_unifies (hu : u.Acyclic) {n : Nat} {p c : Ty} {s s' : Subst}
    (h : matchWithin n p c s = some (true, s')) (hext : s'.Extends u) :
    p.apply u = c.apply u := by
  induction n generalizing p c s s' with
  | zero => cases h
  | succ n ih =>
    by_cases hp : ∃ a, p = .var a
    · obtain ⟨a, rfl⟩ := hp
      cases hget : s.get? a with
      | some t =>
        rw [matchWithin_bound hget] at h
        have hbound : u.get? a = some t := hext a t (matchWithin_extends h a t hget)
        rw [hu.apply_var hbound]
        exact ih h hext
      | none =>
        -- The variable meets itself, or is bound to what it meets.
        by_cases hself : c = .var a
        · rw [hself]
        · have hs' : s' = s.insert a c := by
            cases c with
            | var b =>
              have hab : a ≠ b := fun hab => hself (by rw [hab])
              simp only [matchWithin, hget, if_neg hab, Option.some.injEq, Prod.mk.injEq,
                true_and] at h
              exact h.symm
            | _ =>
              rw [matchWithin_unbound hget (by simp)] at h
              cases h
              rfl
          have hbound : u.get? a = some c := hext a c (by simp [hs'])
          exact hu.apply_var hbound
    · have hp' : ∀ x, p ≠ .var x := fun x hx => hp ⟨x, hx⟩
      by_cases hc : ∃ y, c = .var y
      · obtain ⟨y, rfl⟩ := hc
        rw [matchWithin_swap hp'] at h
        exact (ih h hext).symm
      · rw [matchWithin_parts hp' fun x hx => hc ⟨x, hx⟩] at h
        cases halike : alike p c with
        | true =>
          rw [matchParts_of_alike halike] at h
          have hparts := (matchAll_unifies ih h hext).2
          exact bind_eq_of_alike halike hparts
        | false =>
          rw [eq_of_matchParts halike h]

/-! ## Types without missing parts -/

theorem Whole.parts {t q : Ty} (ht : t.Whole) (hq : q ∈ t.parts) : q.Whole := by
  cases t with
  | missing | var | con => simp [Ty.parts] at hq
  | list elem =>
    rw [Ty.parts, List.mem_singleton] at hq
    rw [hq]
    exact whole_list.mp ht
  | dict key value =>
    simp only [Ty.parts, List.mem_cons, List.not_mem_nil, or_false] at hq
    rcases hq with rfl | rfl
    · exact (whole_dict.mp ht).1
    · exact (whole_dict.mp ht).2
  | fn params result variadic =>
    rcases List.mem_append.mp hq with hq | hq
    · exact (whole_fn.mp ht).1 q hq
    · rw [List.mem_singleton.mp hq]
      exact (whole_fn.mp ht).2

theorem whole_var (x : String) : (var x).Whole := by simp [Whole, same]

theorem Whole.bind {f : String → Ty} (hf : ∀ x, (f x).Whole) {t : Ty} (ht : t.Whole) :
    (t.bind f).Whole := by
  induction t with
  | missing => exact absurd ht not_whole_missing
  | con name => exact ht
  | var name => exact hf name
  | list elem ih => exact whole_list.mpr (ih (whole_list.mp ht))
  | dict key value ihk ihv =>
    have hparts := whole_dict.mp ht
    exact whole_dict.mpr ⟨ihk hparts.1, ihv hparts.2⟩
  | fn params result variadic ihp ihr =>
    have hparts := whole_fn.mp ht
    rw [Ty.bind, bindAll_eq_map]
    refine whole_fn.mpr ⟨fun q hq => ?_, ihr hparts.2⟩
    obtain ⟨p, hp, rfl⟩ := List.mem_map.mp hq
    exact ihp p hp (hparts.1 p hp)

theorem whole_resolve {s : Subst} (hs : ∀ x t, s.get? x = some t → t.Whole) (depth : Nat)
    (x : String) : (resolve depth s x).Whole := by
  induction depth generalizing s x with
  | zero => exact whole_var x
  | succ depth ih =>
    cases hget : s.get? x with
    | none =>
      rw [resolve_of_get?_none hget]
      exact whole_var x
    | some t =>
      by_cases ht : t = .var x
      · subst ht
        rw [resolve_of_self hget]
        exact whole_var x
      · rw [resolve_of_get? hget ht]
        have herase : ∀ y u, (s.erase x).get? y = some u → u.Whole :=
          fun y u hy => hs y u (Subst.erase_extends s x y u hy)
        exact (hs x t hget).bind fun y => ih herase y

/-- Matching types without missing parts adds no binding to a type with missing parts. -/
theorem matchWithin_whole {n : Nat} {p c : Ty} {s s' : Subst} {b : Bool} (hp : p.Whole)
    (hc : c.Whole) (hs : ∀ x t, s.get? x = some t → t.Whole)
    (h : matchWithin n p c s = some (b, s')) : ∀ x t, s'.get? x = some t → t.Whole := by
  have hbound : BoundIn {t | t.Whole} s := hs
  exact hbound.grown (matchWithin_grown (fun t ht q hq => ht.parts hq) hp hc hs h)

/-! ## Whole runs -/

/-- Matching keeps all bindings, also when it fails. If it succeeds and the bindings are acyclic,
the pattern and the other type are equal under them; and they compare as the same where no type
has a missing part. -/
theorem match_unifies {p c : Ty} {s s' : Subst} {matched : Bool}
    (h : matchTypes? p c s = some (matched, s')) :
    s.Extends s' ∧ (matched = true → s'.Acyclic → p.apply s' = c.apply s' ∧
      (p.Whole → c.Whole → (∀ x t, s.get? x = some t → t.Whole) →
        (p.apply s').same (c.apply s') = true)) := by
  refine ⟨matchWithin_extends h, ?_⟩
  rintro rfl hacyclic
  have heq : p.apply s' = c.apply s' :=
    matchWithin_unifies hacyclic h (Subst.Extends.refl s')
  refine ⟨heq, fun hp hc hs => ?_⟩
  have hs' := matchWithin_whole hp hc hs h
  rw [← heq]
  exact hp.bind fun x => whole_resolve hs' s'.size x

/-- A match in which the second part meets the variable of the first one again: `K` is bound to `A`,
which has its binding from before, and `C` on the other side to `List<K>`. -/
theorem linking_unifies :
    let s : Subst := ⟨[("A", .list (.var "B"))]⟩
    let s' : Subst := ⟨[("A", .list (.var "B")), ("K", .var "A"), ("C", .list (.var "K"))]⟩
    let p : Ty := .dict (.var "K") (.list (.var "K"))
    let c : Ty := .dict (.var "A") (.var "C")
    matchTypes? p c s = some (true, s') ∧ s'.Acyclic ∧ s.Extends s' ∧ p.apply s' = c.apply s' ∧
      (p.apply s').same (c.apply s') = true := by
  intro s s' p c
  have hmatch : matchTypes? p c s = some (true, s') := by rfl
  have hacyclic : s'.Acyclic := by
    refine ⟨fun x => ["B", "A", "K", "C"].idxOf x, fun x t hx => ?_⟩
    have hmem : (x, t) ∈ s'.entries := Table.mem_of_get? hx
    simp only [s', List.mem_cons, Prod.mk.injEq, List.not_mem_nil, or_false] at hmem
    rcases hmem with ⟨rfl, rfl⟩ | ⟨rfl, rfl⟩ | ⟨rfl, rfl⟩ <;> decide
  have hwhole : ∀ x t, s.get? x = some t → t.Whole := by
    intro x t hx
    have hmem : (x, t) ∈ s.entries := Table.mem_of_get? hx
    simp only [s, List.mem_cons, Prod.mk.injEq, List.not_mem_nil, or_false] at hmem
    rw [hmem.2]
    decide
  obtain ⟨hext, hunifies⟩ := match_unifies hmatch
  obtain ⟨heq, hsame⟩ := hunifies rfl hacyclic
  exact ⟨hmatch, hacyclic, hext, heq, hsame (by decide) (by decide) hwhole⟩

end Ty

end TreeLang
