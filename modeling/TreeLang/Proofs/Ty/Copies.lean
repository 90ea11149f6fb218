import TreeLang.Proofs.Table
import TreeLang.Proofs.Ty.Applying
import TreeLang.Proofs.Ty.Renaming
import TreeLang.Proofs.Ty.Supply

/-!
# Copies of a generic type

An instance of a type has its parameters replaced by variables from a supply: the name of a
parameter with the next number after it. The replacement is made by applying bindings, which are
followed to the end. So a parameter whose variable has the name of another parameter ends at what
that one stands for, and two parameters of the same copy become one variable.

The instance is the type with all parameters replaced at once exactly if none of the variables that
come into it is itself a parameter. No such thing happens, and no variable is handed out twice, for
parameters none of which is another one with digits after it. Main statement: `instantiate_copies`.
-/

namespace TreeLang

namespace Supply

/-! ## Names with digits after them -/

/-- The second name is the first one with digits after it. -/
def Numbered (p q : String) : Prop :=
  ∃ digits : List Char, digits ≠ [] ∧ (∀ c ∈ digits, c.isDigit = true) ∧
    q.toList = p.toList ++ digits

theorem numbered_append (p : String) (n : Nat) : Numbered p (p ++ toString n) := by
  obtain ⟨hdigit, hne⟩ := digits_toString n
  exact ⟨(toString n).toList, hne, hdigit, String.toList_append⟩

theorem Numbered.length_lt {p q : String} (h : Numbered p q) : p.length < q.length := by
  obtain ⟨digits, hne, -, heq⟩ := h
  have hpos : 0 < digits.length := List.length_pos_iff.mpr hne
  rw [← String.length_toList, ← String.length_toList, heq, List.length_append]
  omega

/-- Two names with numbers after them are the same only if the names and the numbers are, or if one
of the names is the other one with digits after it. -/
theorem eq_or_numbered {p q : String} {m n : Nat} (h : p ++ toString m = q ++ toString n) :
    p = q ∧ m = n ∨ Numbered p q ∨ Numbered q p := by
  have hlist : p.toList ++ (toString m).toList = q.toList ++ (toString n).toList := by
    rw [← String.toList_append, h, String.toList_append]
  -- What the longer name has more is a part of the other one's number.
  have hlonger : ∀ {p q : String} {m n : Nat} {w : List Char}, q.toList = p.toList ++ w →
      (toString m).toList = w ++ (toString n).toList → p = q ∧ m = n ∨ Numbered p q := by
    intro p q m n w hq hm
    by_cases hw : w = []
    · subst hw
      rw [List.append_nil] at hq
      have hnumber : toString m = toString n := String.toList_inj.mp hm
      exact .inl ⟨String.toList_inj.mp hq.symm, Nat.repr_inj.mp hnumber⟩
    · have hdigit := (digits_toString m).1
      rw [hm] at hdigit
      exact .inr ⟨w, hw, fun c hc => hdigit c (List.mem_append_left _ hc), hq⟩
  rcases List.append_eq_append_iff.mp hlist with ⟨w, hq, hm⟩ | ⟨w, hp, hn⟩
  · exact (hlonger hq hm).imp_right .inl
  · exact (hlonger hp hn).imp (fun heq => ⟨heq.1.symm, heq.2.symm⟩) .inr

/-- No name of the first list is one of the second list with digits after it, or the other way
round. -/
def Apart (ps qs : List String) : Prop := ∀ p ∈ ps, ∀ q ∈ qs, ¬ Numbered p q ∧ ¬ Numbered q p

/-! ## What stands for a parameter -/

/-- The variable that the supply hands out for a parameter; any other name stays. -/
def copyName (s : Supply) (params : List String) (x : String) : String :=
  (Table.lookup x (params.zip (s.handOut params))).getD x

variable {s : Supply} {params : List String} {t : Ty} {x : String}

theorem copyName_of_not_mem (hx : x ∉ params) : s.copyName params x = x := by
  have hnone : Table.lookup x (params.zip (s.handOut params)) = none := by
    rw [Table.lookup_eq_none_iff, List.map_fst_zip (by simp)]
    exact hx
  rw [copyName, hnone, Option.getD_none]

theorem copyName_head (s : Supply) (p : String) (ps : List String) :
    s.copyName (p :: ps) p = (s.fresh p).1 := by
  simp [copyName, handOut, Table.lookup]

theorem copyName_tail (s : Supply) {p : String} (hne : p ≠ x) (ps : List String) :
    s.copyName (p :: ps) x = (s.fresh p).2.copyName ps x := by
  simp [copyName, handOut, Table.lookup, hne]

/-- A name is its own stem. -/
theorem fresh_of_ne_empty (s : Supply) {p : String} (hp : p ≠ "") :
    (s.fresh p).1 = p ++ toString s.next := by
  have hempty : p.isEmpty = false := by simpa using hp
  simp [fresh, hempty]

/-- The parameters, in order, stand for the variables that are handed out. -/
theorem map_copyName (hnodup : params.Nodup) :
    params.map (s.copyName params) = s.handOut params := by
  induction params generalizing s with
  | nil => rfl
  | cons p ps ih =>
    rw [List.nodup_cons] at hnodup
    have htail : ∀ q ∈ ps, s.copyName (p :: ps) q = (s.fresh p).2.copyName ps q := by
      intro q hq
      have hne : p ≠ q := by
        rintro rfl
        exact hnodup.1 hq
      exact copyName_tail s hne ps
    rw [List.map_cons, copyName_head, List.map_congr_left htail, ih hnodup.2, handOut]

/-- A variable that is handed out is the name of a parameter and a number of the supply. -/
theorem exists_of_mem_handOut (hnames : ∀ p ∈ params, p ≠ "") {v : String}
    (hv : v ∈ s.handOut params) :
    ∃ p ∈ params, ∃ n, s.next ≤ n ∧ n < (s.after params).next ∧ v = p ++ toString n := by
  induction params generalizing s with
  | nil => cases hv
  | cons p ps ih =>
    have hafter : (s.after (p :: ps)).next = ((s.fresh p).2.after ps).next := by
      simp only [after, fresh, List.length_cons]
      omega
    rw [hafter]
    rcases List.mem_cons.mp hv with rfl | hv
    · refine ⟨p, List.mem_cons_self, s.next, Nat.le_refl _, ?_, ?_⟩
      · simp only [after, fresh]
        omega
      · exact s.fresh_of_ne_empty (hnames p List.mem_cons_self)
    · obtain ⟨q, hq, n, hle, hlt, heq⟩ :=
        ih (fun q hq => hnames q (List.mem_cons_of_mem p hq)) hv
      have hnext : (s.fresh p).2.next = s.next + 1 := rfl
      exact ⟨q, List.mem_cons_of_mem p hq, n, by omega, hlt, heq⟩

/-- A parameter stands for its name with a number after it. -/
theorem numbered_copyName (hnames : ∀ p ∈ params, p ≠ "") (hx : x ∈ params) :
    Numbered x (s.copyName params x) := by
  induction params generalizing s with
  | nil => cases hx
  | cons p ps ih =>
    by_cases hp : p = x
    · subst hp
      rw [copyName_head, s.fresh_of_ne_empty (hnames p List.mem_cons_self)]
      exact numbered_append p s.next
    · rw [copyName_tail s hp]
      exact ih (fun q hq => hnames q (List.mem_cons_of_mem p hq))
        ((List.mem_cons.mp hx).resolve_left (Ne.symm hp))

/-! ## The bindings of an instance -/

theorem freshen_after (params : List String) (b : Subst) (s : Supply) :
    (freshen params b s).2 = s.after params := by
  induction params generalizing b s with
  | nil => rfl
  | cons p ps ih =>
    have hstep : (freshen (p :: ps) b s).2 = _ := ih (b.insert p (.var (s.fresh p).1)) (s.fresh p).2
    rw [hstep]
    simp only [after, fresh, List.length_cons, Supply.mk.injEq]
    omega

/-- Parameters are bound to their variables, and nothing else is bound. -/
theorem get?_freshen (hnodup : params.Nodup) (b : Subst) (s : Supply) (x : String) :
    (freshen params b s).1.get? x =
      if x ∈ params then some (.var (s.copyName params x)) else b.get? x := by
  induction params generalizing b s with
  | nil => rfl
  | cons p ps ih =>
    rw [List.nodup_cons] at hnodup
    have hstep : (freshen (p :: ps) b s).1.get? x = _ :=
      ih hnodup.2 (b.insert p (.var (s.fresh p).1)) (s.fresh p).2
    rw [hstep, Table.get?_insert]
    by_cases hp : p = x
    · subst hp
      simp [hnodup.1, copyName_head]
    · simp [hp, Ne.symm hp, copyName_tail s hp]

/-- Along a binding names get longer, so that no parameter is reached from itself. -/
theorem acyclic_freshen (hnodup : params.Nodup) (hnames : ∀ p ∈ params, p ≠ "") (s : Supply) :
    (freshen params ∅ s).1.Acyclic := by
  -- No variable that is handed out is longer than all of them together.
  let bound : Nat := ((s.handOut params).map String.length).sum
  refine ⟨fun x => bound - x.length, fun x t hx y hy => ?_⟩
  rw [get?_freshen hnodup] at hx
  split at hx
  · next hmem =>
    cases hx
    rw [Ty.occurrences, List.mem_singleton] at hy
    subst hy
    have hlt := (numbered_copyName (s := s) hnames hmem).length_lt
    have hle : (s.copyName params x).length ≤ bound := by
      refine List.le_sum_of_mem (List.mem_map_of_mem ?_)
      rw [← map_copyName hnodup]
      exact List.mem_map_of_mem hmem
    change bound - _ < bound - x.length
    omega
  · cases hx

/-- An instance has the bindings of its parameters applied, also if there is no parameter. -/
theorem instantiate_eq (t : Ty) (params : List String) (s : Supply) :
    s.instantiate t params = (t.apply (freshen params ∅ s).1, s.after params) := by
  cases params with
  | nil =>
    have hself : t.apply ∅ = t := by
      have hvars : t.bind (Ty.resolve (Table.size (∅ : Subst)) ∅) = t.bind .var :=
        Ty.bind_congr fun x _ => Ty.resolve_of_get?_none rfl _
      exact hvars.trans (Ty.bind_var t)
    change (t, s) = (t.apply ∅, s)
    rw [hself]
  | cons p ps =>
    rw [instantiate, if_neg (by simp), ← freshen_after (p :: ps) ∅ s]

/-- A name reads as what stands for it unless that is a parameter again. -/
theorem apply_freshen_iff (hnodup : params.Nodup) (hnames : ∀ p ∈ params, p ≠ "") :
    (Ty.var x).apply (freshen params ∅ s).1 = .var (s.copyName params x) ↔
      (x ∈ params → s.copyName params x ∉ params) := by
  have hacyclic := acyclic_freshen hnodup hnames s
  have hget := get?_freshen hnodup ∅ s
  by_cases hx : x ∈ params
  · have hbound := hget x
    rw [if_pos hx] at hbound
    rw [hacyclic.apply_var hbound]
    by_cases hagain : s.copyName params x ∈ params
    · refine iff_of_false (fun heq => ?_) (fun h => h hx hagain)
      have hbound' := hget (s.copyName params x)
      rw [if_pos hagain] at hbound'
      refine hacyclic.not_mem_occurrences_apply hbound' (.var (s.copyName params x)) ?_
      rw [heq]
      exact List.mem_singleton_self _
    · have hfree := hget (s.copyName params x)
      rw [if_neg hagain] at hfree
      exact iff_of_true (Ty.resolve_of_get?_none hfree _) (fun _ => hagain)
  · have hfree := hget x
    rw [if_neg hx] at hfree
    rw [copyName_of_not_mem hx]
    exact iff_of_true (Ty.resolve_of_get?_none hfree _) (fun hmem => absurd hmem hx)

/-- The instance is the type with all parameters replaced at once exactly if no variable that comes
into it is a parameter. -/
theorem instantiate_eq_rename_iff (hnodup : params.Nodup) (hnames : ∀ p ∈ params, p ≠ "") :
    (s.instantiate t params).1 = t.rename (s.copyName params) ↔
      ∀ p ∈ params, p ∈ t.occurrences → s.copyName params p ∉ params := by
  rw [instantiate_eq]
  constructor
  · intro heq p hp hocc
    have hvar := Ty.eq_of_bind_eq heq p hocc
    exact (apply_freshen_iff hnodup hnames).mp hvar hp
  · intro h
    apply Ty.bind_congr
    intro x hx
    exact (apply_freshen_iff hnodup hnames).mpr fun hmem => h x hmem hx

/-! ## Distinct variables -/

/-- For parameters that are apart, no variable is handed out twice. -/
theorem nodup_handOut_of_apart (hnames : ∀ p ∈ params, p ≠ "") (hapart : Apart params params)
    (s : Supply) : (s.handOut params).Nodup := by
  induction params generalizing s with
  | nil => exact List.nodup_nil
  | cons p ps ih =>
    have hrest : ∀ q ∈ ps, q ≠ "" := fun q hq => hnames q (List.mem_cons_of_mem p hq)
    have hrest' : Apart ps ps := fun q hq r hr =>
      hapart q (List.mem_cons_of_mem p hq) r (List.mem_cons_of_mem p hr)
    refine List.nodup_cons.mpr ⟨fun hmem => ?_, ih hrest hrest' _⟩
    have hfirst : (s.fresh p).1 ∈ s.handOut [p] := List.mem_singleton_self _
    obtain ⟨p', hp', m, -, hm, heq⟩ := exists_of_mem_handOut (by simpa using hnames p) hfirst
    obtain ⟨q, hq, n, hn, -, heq'⟩ := exists_of_mem_handOut hrest hmem
    rw [List.mem_singleton] at hp'
    subst hp'
    have hnext : (s.fresh p').2.next = s.next + 1 := rfl
    have hlast : (s.after [p']).next = s.next + 1 := rfl
    have hne := hapart p' List.mem_cons_self q (List.mem_cons_of_mem p' hq)
    rcases eq_or_numbered (heq.symm.trans heq') with ⟨-, hmn⟩ | h | h
    · omega
    · exact hne.1 h
    · exact hne.2 h

/-- For parameters that are apart, two calls hand out different variables. -/
theorem disjoint_handOut_of_apart {params' : List String} {s' : Supply}
    (hnames : ∀ p ∈ params, p ≠ "") (hnames' : ∀ p ∈ params', p ≠ "")
    (hapart : Apart params params') (hlater : (s.after params).next ≤ s'.next) :
    (s.handOut params).Disjoint (s'.handOut params') := by
  intro v hv hv'
  obtain ⟨p, hp, m, -, hm, rfl⟩ := exists_of_mem_handOut hnames hv
  obtain ⟨q, hq, n, hn, -, heq⟩ := exists_of_mem_handOut hnames' hv'
  have hne := hapart p hp q hq
  rcases eq_or_numbered heq with ⟨-, hmn⟩ | h | h
  · omega
  · exact hne.1 h
  · exact hne.2 h

/-- Instantiating a type with distinct parameters hands out one variable for each of them, in order.
The instance is the type with all parameters replaced by their variables at once exactly if no
variable that comes into it is itself a parameter. For parameters that are apart this is so, the
variables differ from each other, and from those of every later instance with parameters that are
apart from these. -/
theorem instantiate_copies (hnodup : params.Nodup) (hnames : ∀ p ∈ params, p ≠ "") :
    params.map (s.copyName params) = s.handOut params ∧
      ((s.instantiate t params).1 = t.rename (s.copyName params) ↔
        ∀ p ∈ params, p ∈ t.occurrences → s.copyName params p ∉ params) ∧
      (Apart params params →
        (s.instantiate t params).1 = t.rename (s.copyName params) ∧ (s.handOut params).Nodup) ∧
      ∀ (params' : List String) (s' : Supply), (∀ p ∈ params', p ≠ "") → Apart params params' →
        (s.instantiate t params).2.next ≤ s'.next →
          (s.handOut params).Disjoint (s'.handOut params') := by
  refine ⟨map_copyName hnodup, instantiate_eq_rename_iff hnodup hnames, fun hapart => ?_, ?_⟩
  · have hdistinct : (s.handOut params).Nodup := nodup_handOut_of_apart hnames hapart s
    refine ⟨(instantiate_eq_rename_iff hnodup hnames).mpr ?_, hdistinct⟩
    intro p hp _ hagain
    exact (hapart p hp _ hagain).1 (numbered_copyName hnames hp)
  · intro params' s' hnames' hapart hlater
    rw [instantiate_eq] at hlater
    exact disjoint_handOut_of_apart hnames hnames' hapart hlater

/-- Two instances of a type with the parameters `T` and `U`, one after the other. -/
theorem two_copies :
    let t : Ty := .fn [.list (.var "T"), .fn [.var "T"] (.var "U") false] (.list (.var "U")) false
    let params := ["T", "U"]
    let s : Supply := ⟨0⟩
    let s' := (s.instantiate t params).2
    params.Nodup ∧ (∀ p ∈ params, p ≠ "") ∧ Apart params params ∧
      (s.instantiate t params).1 = t.rename (s.copyName params) ∧
      s.handOut params = ["T0", "U1"] ∧ s'.handOut params = ["T2", "U3"] ∧
      (s.handOut params).Disjoint (s'.handOut params) := by
  intro t params s s'
  have hnodup : params.Nodup := by decide
  have hnames : ∀ p ∈ params, p ≠ "" := by decide
  have hapart : Apart params params := by
    have hlength : ∀ p ∈ params, p.length = 1 := by decide
    intro p hp q hq
    have heq : p.length = q.length := (hlength p hp).trans (hlength q hq).symm
    exact ⟨fun h => absurd h.length_lt (by omega), fun h => absurd h.length_lt (by omega)⟩
  obtain ⟨-, -, hcopy, hlater⟩ := instantiate_copies (s := s) (t := t) hnodup hnames
  exact ⟨hnodup, hnames, hapart, (hcopy hapart).1, by decide, by decide,
    hlater params s' hnames hapart (Nat.le_refl _)⟩

/-- Parameters that are not apart: `T1` gets `T10` and `T` gets `T1`, so that both become `T10` in
the copy. Also, the variable for `T1` in one call and the one for `T` in a later call are the
same. -/
theorem numbered_parameters_merge :
    let t : Ty := .fn [.var "T1", .var "T"] (.var "T") false
    let params := ["T1", "T"]
    params.Nodup ∧ (∀ p ∈ params, p ≠ "") ∧
      (instantiate t params ⟨0⟩).1 = .fn [.var "T10", .var "T10"] (.var "T10") false ∧
      t.rename (copyName ⟨0⟩ params) = .fn [.var "T10", .var "T1"] (.var "T1") false ∧
      (instantiate t params ⟨0⟩).1 ≠ t.rename (copyName ⟨0⟩ params) ∧
      ¬ (handOut ⟨0⟩ ["T1"]).Disjoint (handOut ⟨10⟩ ["T"]) := by
  intro t params
  have hcopy : (instantiate t params ⟨0⟩).1 =
      .fn [.var "T10", .var "T10"] (.var "T10") false := by rfl
  have hrename : t.rename (copyName ⟨0⟩ params) =
      .fn [.var "T10", .var "T1"] (.var "T1") false := by rfl
  have hne : (instantiate t params ⟨0⟩).1 ≠ t.rename (copyName ⟨0⟩ params) := by
    rw [hcopy, hrename]
    simp
  have hshared : ¬ (handOut ⟨0⟩ ["T1"]).Disjoint (handOut ⟨10⟩ ["T"]) := by
    intro hdisjoint
    have hfirst : "T10" ∈ handOut ⟨0⟩ ["T1"] := by decide
    have hlater : "T10" ∈ handOut ⟨10⟩ ["T"] := by decide
    exact hdisjoint hfirst hlater
  exact ⟨by decide, by decide, hcopy, hrename, hne, hshared⟩

end Supply

end TreeLang
