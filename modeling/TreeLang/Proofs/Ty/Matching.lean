import TreeLang.Proofs.Ty.Structure

/-!
# Matching with ground types

A substitution whose bindings are all ground replaces each bound variable in one go. Matching a
pattern with a ground type under such a substitution only adds ground bindings, and the bindings
turn the pattern into that type (`matchTypes?_ground`). Where there is an instance of the pattern,
matching finds it (`matchTypes?_succeeds`).
-/

namespace TreeLang

namespace Subst

/-- What a variable is bound to; an unbound variable stands for itself. -/
def binding (s : Subst) (x : String) : Ty := (s.get? x).getD (.var x)

/-- All bound types are ground. -/
def Ground (s : Subst) : Prop := ∀ x t, s.get? x = some t → t.Ground

/-- Every binding of `s` is one of `s'`. -/
def Extends (s s' : Subst) : Prop := ∀ x t, s.get? x = some t → s'.get? x = some t

/-- Every variable of the type is bound. -/
def Covers (s : Subst) (t : Ty) : Prop := ∀ x ∈ t.occurrences, ∃ b, s.get? x = some b

theorem ground_empty : Ground ∅ := by
  intro x t h
  exact absurd h (by simp [Table.get?_empty, EmptyCollection.emptyCollection])

theorem Extends.refl (s : Subst) : s.Extends s := fun _ _ h => h

theorem Extends.trans {s s' s'' : Subst} (h : s.Extends s') (h' : s'.Extends s'') :
    s.Extends s'' := fun x t hx => h' x t (h x t hx)

theorem binding_of_get? {s : Subst} {x : String} {t : Ty} (h : s.get? x = some t) :
    s.binding x = t := by
  simp [binding, h]

theorem Covers.mono {s s' : Subst} {t : Ty} (h : s.Covers t) (hext : s.Extends s') :
    s'.Covers t := by
  intro x hx
  rcases h x hx with ⟨b, hb⟩
  exact ⟨b, hext x b hb⟩

/-- A type whose variables are all bound reads the same under more bindings. -/
theorem Covers.bind_eq {s s' : Subst} {t : Ty} (h : s.Covers t) (hext : s.Extends s') :
    t.bind s'.binding = t.bind s.binding := by
  apply Ty.bind_congr
  intro x hx
  rcases h x hx with ⟨b, hb⟩
  rw [binding_of_get? hb, binding_of_get? (hext x b hb)]

theorem Ground.bind_ground {s : Subst} {t : Ty} (hs : s.Ground) (ht : s.Covers t) :
    (t.bind s.binding).Ground := by
  apply Ty.ground_bind
  intro x hx
  rcases ht x hx with ⟨b, hb⟩
  rw [binding_of_get? hb]
  exact hs x b hb

theorem insert_ground {s : Subst} {x : String} {t : Ty} (hs : s.Ground) (ht : t.Ground) :
    Ground (s.insert x t) := by
  intro y u h
  rw [Table.get?_insert] at h
  split at h
  · cases h
    exact ht
  · exact hs y u h

theorem extends_insert {s : Subst} {x : String} {t : Ty} (hx : s.get? x = none) :
    s.Extends (s.insert x t) := by
  intro y u h
  rw [Table.get?_insert]
  split
  · next hxy =>
    rw [hxy, h] at hx
    cases hx
  · exact h

end Subst

namespace Ty

/-! ## Applying a ground substitution -/

theorem get?_eq_none_of_size_eq_zero {s : Subst} (h : s.size = 0) (x : String) :
    s.get? x = none := by
  have hnil : s.entries = [] := List.length_eq_zero_iff.mp h
  simp [Table.get?, hnil, Table.lookup]

theorem resolve_of_ground {s : Subst} (hs : s.Ground) {depth : Nat} (hd : s.size ≤ depth)
    (x : String) : resolve depth s x = s.binding x := by
  cases depth with
  | zero =>
    have hx := get?_eq_none_of_size_eq_zero (Nat.le_zero.mp hd) x
    simp [resolve, Subst.binding, hx]
  | succ depth =>
    rw [resolve]
    split
    · next hx => simp [Subst.binding, hx]
    · next other hx => exact absurd (hs x _ hx) (not_ground_var other)
    · next t _ hx =>
      rw [(hs x t hx).bind_eq, Subst.binding_of_get? hx]

/-- Applying a ground substitution replaces each bound variable by its binding. -/
theorem apply_of_ground {s : Subst} (hs : s.Ground) (t : Ty) : t.apply s = t.bind s.binding :=
  bind_congr fun x _ => resolve_of_ground hs (Nat.le_refl _) x

/-! ## Matching -/

/-- What a successful match of a pattern with a ground type under `s` ensures of the bindings. -/
structure Fitted (p c : Ty) (s s' : Subst) : Prop where
  ground : s'.Ground
  extends_ : s.Extends s'
  covers : s'.Covers p
  bind_eq : p.bind s'.binding = c

-- What follows unfolds `matchWithin` as well, so the equations of both are made here, at once.
attribute [local simp] matchAll matchWithin in
/-- The parts of two lists are fitted one after the other. -/
theorem matchAll_fitted {rec : Ty → Ty → Subst → Option (Bool × Subst)}
    (hrec : ∀ {p c : Ty} {s s' : Subst}, c.Ground → s.Ground → rec p c s = some (true, s') →
      Fitted p c s s')
    {ps cs : List Ty} {s s' : Subst} (hcs : ∀ c ∈ cs, c.Ground) (hs : s.Ground)
    (h : matchAll rec ps cs s = some (true, s')) :
    s'.Ground ∧ s.Extends s' ∧ (∀ p ∈ ps, s'.Covers p) ∧ ps.map (·.bind s'.binding) = cs := by
  induction ps generalizing cs s with
  | nil =>
    cases cs with
    | nil =>
      simp only [matchAll, Option.some.injEq, Prod.mk.injEq, true_and] at h
      subst h
      exact ⟨hs, Subst.Extends.refl s, by simp, rfl⟩
    | cons c cs => simp at h
  | cons p ps ih =>
    cases cs with
    | nil => simp at h
    | cons c cs =>
      simp only [matchAll] at h
      split at h
      · next s₁ h₁ =>
        have hfit := hrec (hcs c (by simp)) hs h₁
        rcases ih (fun d hd => hcs d (by simp [hd])) hfit.ground h with ⟨hg, hext, hcov, heq⟩
        refine ⟨hg, hfit.extends_.trans hext, ?_, ?_⟩
        · intro q hq
          rcases List.mem_cons.mp hq with rfl | hq
          · exact hfit.covers.mono hext
          · exact hcov q hq
        · rw [List.map_cons, heq, hfit.covers.bind_eq hext, hfit.bind_eq]
      · next hne => exact absurd h (hne s')

/-- Fits the parts of two types, neither of which is a variable. -/
theorem matchParts_fitted {rec : Ty → Ty → Subst → Option (Bool × Subst)}
    (hrec : ∀ {p c : Ty} {s s' : Subst}, c.Ground → s.Ground → rec p c s = some (true, s') →
      Fitted p c s s')
    {p c : Ty} {s s' : Subst} (hc : c.Ground) (hs : s.Ground)
    (h : matchParts rec p c s = some (true, s')) : Fitted p c s s' := by
  unfold matchParts at h
  split at h
  · next a b =>
    simp only [Option.some.injEq, Prod.mk.injEq, beq_iff_eq] at h
    rcases h with ⟨rfl, rfl⟩
    exact ⟨hs, Subst.Extends.refl s, by simp [Subst.Covers, occurrences], rfl⟩
  · next a b =>
    have hfit := hrec (ground_list.mp hc) hs h
    exact ⟨hfit.ground, hfit.extends_, hfit.covers, by rw [bind, hfit.bind_eq]⟩
  · next a b c d =>
    have hparts : ∀ t ∈ [c, d], t.Ground := by simpa using hc
    rcases matchAll_fitted hrec hparts hs h with ⟨hg, hext, hcov, heq⟩
    simp only [List.map_cons, List.map_nil, List.cons.injEq, and_true] at heq
    refine ⟨hg, hext, ?_, by rw [bind, heq.1, heq.2]⟩
    intro x hx
    rcases List.mem_append.mp hx with hx | hx
    · exact hcov a (by simp) x hx
    · exact hcov b (by simp) x hx
  · next ps r v qs t w =>
    split at h
    · simp at h
    · next hshape =>
      simp only [ne_eq, decide_not, Bool.or_eq_true, Bool.not_eq_eq_eq_not, Bool.not_true,
        decide_eq_false_iff_not, Decidable.not_not, bne_iff_ne, not_or] at hshape
      have hparts : ∀ u ∈ qs ++ [t], u.Ground := by
        intro u hu
        rw [ground_fn] at hc
        rcases List.mem_append.mp hu with hu | hu
        · exact hc.1 u hu
        · rw [List.mem_singleton.mp hu]
          exact hc.2
      rcases matchAll_fitted hrec hparts hs h with ⟨hg, hext, hcov, heq⟩
      rw [List.map_append, List.map_cons, List.map_nil] at heq
      -- Parameters and result are matched as one list; its length tells them apart again.
      have hlen : (ps.map (·.bind (Subst.binding s'))).length = qs.length := by
        simpa using hshape.1
      rcases List.append_inj heq hlen with ⟨hps, hr⟩
      refine ⟨hg, hext, ?_, ?_⟩
      · intro x hx
        rw [occurrences, occurrencesAll_eq_flatMap, List.mem_append, List.mem_flatMap] at hx
        rcases hx with ⟨q, hq, hx⟩ | hx
        · exact hcov q (by simp [hq]) x hx
        · exact hcov r (by simp) x hx
      · rw [bind, bindAll_eq_map, hps, List.cons.inj hr |>.1, hshape.2]
  · simp at h

theorem matchWithin_ground {depth : Nat} {p c : Ty} {s s' : Subst} (hc : c.Ground)
    (hs : s.Ground) (h : matchWithin depth p c s = some (true, s')) : Fitted p c s s' := by
  induction depth generalizing p c s s' with
  | zero => simp [matchWithin] at h
  | succ depth ih =>
    unfold matchWithin at h
    split at h
    · next a =>
      split at h
      · -- A bound variable stands for its binding, which is ground and hence equal to `c`.
        next bound hbound =>
        have hfit := ih hc hs h
        have hb : s'.get? a = some bound := hfit.extends_ a bound hbound
        refine ⟨hfit.ground, hfit.extends_, ?_, ?_⟩
        · intro x hx
          rw [occurrences, List.mem_singleton] at hx
          exact ⟨bound, by rw [hx, hb]⟩
        · rw [bind, Subst.binding_of_get? hb, ← hfit.bind_eq, (hs a bound hbound).bind_eq]
      · next hnone =>
        split at h
        · exact absurd hc (not_ground_var _)
        · simp only [Option.some.injEq, Prod.mk.injEq, true_and] at h
          subst h
          have hget : Table.get? (s.insert a c) a = some c := by simp
          refine ⟨Subst.insert_ground hs hc, Subst.extends_insert hnone, ?_, ?_⟩
          · intro x hx
            rw [occurrences, List.mem_singleton] at hx
            exact ⟨c, by rw [hx, hget]⟩
          · rw [bind, Subst.binding_of_get? hget]
    · exact absurd hc (not_ground_var _)
    · exact matchParts_fitted (fun hc hs h => ih hc hs h) hc hs h

/-- Matching a pattern with a ground type turns the pattern into that type. -/
theorem matchTypes?_ground {p c : Ty} {s s' : Subst} (hc : c.Ground) (hs : s.Ground)
    (h : matchTypes? p c s = some (true, s')) : Fitted p c s s' :=
  matchWithin_ground hc hs h

/-! ## Matching within more steps -/

theorem matchAll_mono {rec rec' : Ty → Ty → Subst → Option (Bool × Subst)}
    (hrec : ∀ {p c s r}, rec p c s = some r → rec' p c s = some r) {ps cs : List Ty} {s : Subst}
    {r : Bool × Subst} (h : matchAll rec ps cs s = some r) : matchAll rec' ps cs s = some r := by
  induction ps generalizing cs s with
  | nil => cases cs <;> exact h
  | cons p ps ih =>
    cases cs with
    | nil => exact h
    | cons c cs =>
      simp only [matchAll] at h ⊢
      cases hpc : rec p c s with
      | none => simp [hpc] at h
      | some q =>
        rcases q with ⟨b, s₁⟩
        rw [hpc] at h
        rw [hrec hpc]
        cases b with
        | true => exact ih h
        | false => exact h

theorem matchParts_mono {rec rec' : Ty → Ty → Subst → Option (Bool × Subst)}
    (hrec : ∀ {p c s r}, rec p c s = some r → rec' p c s = some r) {p c : Ty} {s : Subst}
    {r : Bool × Subst} (h : matchParts rec p c s = some r) : matchParts rec' p c s = some r := by
  unfold matchParts at h ⊢
  split at h
  · exact h
  · exact hrec h
  · exact matchAll_mono hrec h
  · split at h
    · next hshape => rw [if_pos hshape]; exact h
    · next hshape => rw [if_neg hshape]; exact matchAll_mono hrec h
  · exact h

/-- More steps do not change the answer. -/
theorem matchWithin_mono {depth depth' : Nat} (hle : depth ≤ depth') {p c : Ty} {s : Subst}
    {r : Bool × Subst} (h : matchWithin depth p c s = some r) :
    matchWithin depth' p c s = some r := by
  induction depth generalizing depth' p c s r with
  | zero => simp [matchWithin] at h
  | succ depth ih =>
    -- Both runs take the same step, and the parts are matched with one step less.
    rcases Nat.exists_eq_succ_of_ne_zero (by omega : depth' ≠ 0) with ⟨depth', rfl⟩
    have hrec : ∀ {p c s r}, matchWithin depth p c s = some r →
        matchWithin depth' p c s = some r := fun h => ih (by omega) h
    unfold matchWithin at h ⊢
    split at h
    · next a =>
      cases hget : s.get? a with
      | some bound =>
        simp only [hget] at h ⊢
        exact hrec h
      | none =>
        simp only [hget] at h ⊢
        exact h
    · exact hrec h
    · exact matchParts_mono hrec h

/-! ## One step of matching -/

theorem matchWithin_bound {depth : Nat} {a : String} {bound c : Ty} {s : Subst}
    (h : s.get? a = some bound) :
    matchWithin (depth + 1) (.var a) c s = matchWithin depth bound c s := by
  simp only [matchWithin, h]

theorem matchWithin_unbound {depth : Nat} {a : String} {c : Ty} {s : Subst}
    (h : s.get? a = none) (hc : ∀ x, c ≠ .var x) :
    matchWithin (depth + 1) (.var a) c s = some (true, s.insert a c) := by
  simp only [matchWithin, h]

theorem matchWithin_swap {depth : Nat} {p : Ty} {b : String} {s : Subst} (hp : ∀ x, p ≠ .var x) :
    matchWithin (depth + 1) p (.var b) s = matchWithin depth (.var b) p s := by
  cases p with
  | var name => exact absurd rfl (hp name)
  | _ => simp only [matchWithin]

theorem matchWithin_parts {depth : Nat} {p c : Ty} {s : Subst} (hp : ∀ x, p ≠ .var x)
    (hc : ∀ x, c ≠ .var x) :
    matchWithin (depth + 1) p c s = matchParts (matchWithin depth) p c s := by
  cases p with
  | var name => exact absurd rfl (hp name)
  | _ =>
    cases c with
    | var name => exact absurd rfl (hc name)
    | _ => simp only [matchWithin]

theorem Ground.ne_var {t : Ty} (h : t.Ground) (x : String) : t ≠ .var x := by
  rintro rfl
  exact not_ground_var x h

theorem matchAll_self {rec : Ty → Ty → Subst → Option (Bool × Subst)} {ts : List Ty} {s : Subst}
    (h : ∀ t ∈ ts, rec t t s = some (true, s)) : matchAll rec ts ts s = some (true, s) := by
  induction ts with
  | nil => rfl
  | cons t ts ih =>
    rw [matchAll, h t (by simp)]
    exact ih fun u hu => h u (by simp [hu])

theorem size_pos (t : Ty) : 0 < t.size := by
  cases t <;> simp [size]

theorem size_le_sizeAll {t : Ty} {ts : List Ty} (h : t ∈ ts) : t.size ≤ sizeAll ts := by
  induction ts with
  | nil => exact absurd h List.not_mem_nil
  | cons u us ih =>
    rw [sizeAll]
    rcases List.mem_cons.mp h with rfl | h
    · omega
    · have hle := ih h
      omega

/-- A type matches itself in as many steps as it is large. -/
theorem matchWithin_self {t : Ty} (ht : t.Concrete) {depth : Nat} (hdepth : t.size ≤ depth)
    (s : Subst) : matchWithin depth t t s = some (true, s) := by
  induction t generalizing depth with
  | missing => exact absurd ht.whole not_whole_missing
  | var name => exact absurd ht.ground (not_ground_var name)
  | con name =>
    rcases Nat.exists_eq_succ_of_ne_zero (by simp [size] at hdepth; omega : depth ≠ 0) with
      ⟨depth, rfl⟩
    rw [matchWithin_parts (by simp) (by simp)]
    simp [matchParts]
  | list elem ih =>
    simp only [size] at hdepth
    rcases Nat.exists_eq_succ_of_ne_zero (by omega : depth ≠ 0) with ⟨depth, rfl⟩
    rw [matchWithin_parts (by simp) (by simp)]
    exact ih ⟨ground_list.mp ht.ground, whole_list.mp ht.whole⟩ (by omega)
  | dict key value ihk ihv =>
    simp only [size] at hdepth
    have hground := ground_dict.mp ht.ground
    have hwhole := whole_dict.mp ht.whole
    rcases Nat.exists_eq_succ_of_ne_zero (by omega : depth ≠ 0) with ⟨depth, rfl⟩
    rw [matchWithin_parts (by simp) (by simp)]
    refine matchAll_self fun t ht => ?_
    rcases List.mem_cons.mp ht with rfl | ht
    · exact ihk ⟨hground.1, hwhole.1⟩ (by omega)
    · rw [List.mem_singleton.mp ht]
      exact ihv ⟨hground.2, hwhole.2⟩ (by omega)
  | fn params result variadic ihp ihr =>
    simp only [size] at hdepth
    have hground := ground_fn.mp ht.ground
    have hwhole := whole_fn.mp ht.whole
    rcases Nat.exists_eq_succ_of_ne_zero (by omega : depth ≠ 0) with ⟨depth, rfl⟩
    rw [matchWithin_parts (by simp) (by simp)]
    simp only [matchParts, ne_eq, not_true, decide_false, bne_self_eq_false, Bool.or_false,
      Bool.false_eq_true, if_false]
    refine matchAll_self fun t ht => ?_
    rcases List.mem_append.mp ht with ht | ht
    · have hsize := size_le_sizeAll ht
      exact ihp t ht ⟨hground.1 t ht, hwhole.1 t ht⟩ (by omega)
    · rw [List.mem_singleton.mp ht]
      exact ihr ⟨hground.2, hwhole.2⟩ (by omega)

/-! ## Matching succeeds where it can -/

/-- Every binding is what `θ` gives. -/
def Follows (s : Subst) (θ : String → Ty) : Prop := ∀ x t, s.get? x = some t → t = θ x

/-- A success of `rec` under bindings that follow `θ`, which leaves such bindings. -/
def Succeeds (θ : String → Ty) (rec : Ty → Ty → Subst → Option (Bool × Subst)) (p c : Ty) : Prop :=
  ∀ s, Follows s θ → ∃ s', rec p c s = some (true, s') ∧ Follows s' θ

theorem matchAll_succeeds {θ : String → Ty} {rec : Ty → Ty → Subst → Option (Bool × Subst)}
    {ps : List Ty} (hps : ∀ p ∈ ps, Succeeds θ rec p (p.bind θ)) {s : Subst} (hs : Follows s θ) :
    ∃ s', matchAll rec ps (ps.map (·.bind θ)) s = some (true, s') ∧ Follows s' θ := by
  induction ps generalizing s with
  | nil => exact ⟨s, rfl, hs⟩
  | cons p ps ih =>
    rcases hps p (by simp) s hs with ⟨s₁, h₁, hs₁⟩
    rcases ih (fun q hq => hps q (by simp [hq])) hs₁ with ⟨s', h', hs'⟩
    refine ⟨s', ?_, hs'⟩
    rw [List.map_cons, matchAll, h₁]
    exact h'

/-- A pattern matches what it becomes under some assignment of types to its variables, in as many
steps as there are parts. -/
theorem matchWithin_succeeds {θ : String → Ty} {p : Ty} (hp : (p.bind θ).Concrete) {depth : Nat}
    (hdepth : p.size + (p.bind θ).size ≤ depth) :
    Succeeds θ (matchWithin depth) p (p.bind θ) := by
  induction p generalizing depth with
  | missing => exact absurd hp.whole not_whole_missing
  | con name =>
    intro s hs
    exact ⟨s, matchWithin_self hp (Nat.le_of_add_left_le hdepth) s, hs⟩
  | var name =>
    intro s hs
    simp only [bind, size] at hp hdepth ⊢
    rcases Nat.exists_eq_succ_of_ne_zero (by omega : depth ≠ 0) with ⟨depth, rfl⟩
    cases hget : s.get? name with
    | some bound =>
      -- The binding follows `θ`, so that the type is matched with itself.
      have hbound := hs name bound hget
      subst hbound
      rw [matchWithin_bound hget]
      exact ⟨s, matchWithin_self hp (by omega) s, hs⟩
    | none =>
      refine ⟨s.insert name (θ name), matchWithin_unbound hget hp.ground.ne_var, ?_⟩
      intro x t hx
      rw [Table.get?_insert] at hx
      split at hx
      · next hname =>
        cases hx
        rw [hname]
      · exact hs x t hx
  | list elem ih =>
    intro s hs
    simp only [bind, size] at hp hdepth ⊢
    rcases Nat.exists_eq_succ_of_ne_zero (by omega : depth ≠ 0) with ⟨depth, rfl⟩
    rw [matchWithin_parts (by simp) (by simp)]
    exact ih ⟨ground_list.mp hp.ground, whole_list.mp hp.whole⟩ (by omega) s hs
  | dict key value ihk ihv =>
    intro s hs
    simp only [bind, size] at hp hdepth ⊢
    have hground := ground_dict.mp hp.ground
    have hwhole := whole_dict.mp hp.whole
    rcases Nat.exists_eq_succ_of_ne_zero (by omega : depth ≠ 0) with ⟨depth, rfl⟩
    rw [matchWithin_parts (by simp) (by simp)]
    have hparts : ∀ p ∈ [key, value], Succeeds θ (matchWithin depth) p (p.bind θ) := by
      intro p hp
      rcases List.mem_cons.mp hp with rfl | hp
      · exact ihk ⟨hground.1, hwhole.1⟩ (by omega)
      · rw [List.mem_singleton.mp hp]
        exact ihv ⟨hground.2, hwhole.2⟩ (by omega)
    exact matchAll_succeeds hparts hs
  | fn params result variadic ihp ihr =>
    intro s hs
    simp only [bind, bindAll_eq_map, size] at hp hdepth ⊢
    have hground := ground_fn.mp hp.ground
    have hwhole := whole_fn.mp hp.whole
    rcases Nat.exists_eq_succ_of_ne_zero (by omega : depth ≠ 0) with ⟨depth, rfl⟩
    rw [matchWithin_parts (by simp) (by simp)]
    have hparts : ∀ p ∈ params ++ [result], Succeeds θ (matchWithin depth) p (p.bind θ) := by
      intro p hp
      rcases List.mem_append.mp hp with hp | hp
      · have hmem := List.mem_map_of_mem (f := (·.bind θ)) hp
        have hsize := size_le_sizeAll hp
        have hsize' := size_le_sizeAll hmem
        exact ihp p hp ⟨hground.1 _ hmem, hwhole.1 _ hmem⟩ (by omega)
      · rw [List.mem_singleton.mp hp]
        exact ihr ⟨hground.2, hwhole.2⟩ (by omega)
    rcases matchAll_succeeds hparts hs with ⟨s', hs', hfollows⟩
    refine ⟨s', ?_, hfollows⟩
    simpa [matchParts] using hs'

/-- Matching finds the bindings for every ground instance of a pattern. -/
theorem matchTypes?_succeeds {θ : String → Ty} {p : Ty} (hp : (p.bind θ).Concrete) :
    Succeeds θ matchTypes? p (p.bind θ) := by
  intro s hs
  -- The number of steps is a third power of sizes, of which the sum would do.
  refine matchWithin_succeeds hp ?_ s hs
  unfold matchDepth
  extract_lets n
  have hn : p.size + (p.bind θ).size ≤ n := by omega
  have hpos : 0 < n := by omega
  exact Nat.le_trans hn (Nat.le_mul_of_pos_right n (Nat.mul_pos hpos hpos))

end Ty

end TreeLang
