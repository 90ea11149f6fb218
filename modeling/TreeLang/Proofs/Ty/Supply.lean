import Mathlib
import TreeLang.Ty.Subst

/-!
# What a supply hands out

The variables that a supply hands out have numbers at the end, each time the next one. So a name
that does not end in a digit is never among them (`not_mem_handOut`), and for stems that do not end
in a digit no variable is handed out twice (`handOut_nodup`).
-/

namespace TreeLang

namespace Supply

/-- The variables that the supply hands out for stems. -/
def handOut (s : Supply) : List String → List String
  | [] => []
  | stem :: stems => (s.fresh stem).1 :: handOut (s.fresh stem).2 stems

/-- The supply after variables have been handed out for stems. -/
def after (s : Supply) (stems : List String) : Supply := ⟨s.next + stems.length⟩

@[simp] theorem after_nil (s : Supply) : s.after [] = s := rfl

theorem fresh_after (s : Supply) (stem : String) : (s.fresh stem).2 = s.after [stem] := rfl

theorem after_append (s : Supply) (stems stems' : List String) :
    s.after (stems ++ stems') = (s.after stems).after stems' := by
  simp only [after, List.length_append, Supply.mk.injEq]
  omega

theorem handOut_append (s : Supply) (stems stems' : List String) :
    s.handOut (stems ++ stems') = s.handOut stems ++ (s.after stems).handOut stems' := by
  induction stems generalizing s with
  | nil => rfl
  | cons stem stems ih =>
    have hafter : (s.fresh stem).2.after stems = s.after (stem :: stems) := by
      simp only [fresh, after, List.length_cons, Supply.mk.injEq]
      omega
    rw [List.cons_append, handOut, ih, hafter]
    rfl

@[simp] theorem length_handOut (s : Supply) (stems : List String) :
    (s.handOut stems).length = stems.length := by
  induction stems generalizing s with
  | nil => rfl
  | cons stem stems ih => simp [handOut, ih]

/-- The variables that two supplies hand out for stems correspond to each other. -/
def Passes (ρ : String → String) (stems : List String) (s s' : Supply) : Prop :=
  (s.handOut stems).map ρ = s'.handOut stems

theorem passes_append {ρ : String → String} {stems stems' : List String} {s s' : Supply} :
    Passes ρ (stems ++ stems') s s' ↔
      Passes ρ stems s s' ∧ Passes ρ stems' (s.after stems) (s'.after stems) := by
  simp only [Passes, handOut_append, List.map_append]
  refine ⟨fun h => List.append_inj h (by simp), fun h => ?_⟩
  rw [h.1, h.2]

theorem passes_cons {ρ : String → String} {stem : String} {stems : List String} {s s' : Supply} :
    Passes ρ (stem :: stems) s s' ↔
      ρ (s.fresh stem).1 = (s'.fresh stem).1 ∧ Passes ρ stems (s.fresh stem).2 (s'.fresh stem).2 := by
  simp only [Passes, handOut, List.map_cons, List.cons.injEq]

/-! ## Names without a number -/

/-- The name does not end in a digit. -/
def unnumbered (x : String) : Bool := (x.toList.getLast?.all fun c => !c.isDigit)

/-- The characters of a number are digits, and there is at least one. -/
theorem digits_toString (n : Nat) :
    (∀ c ∈ (toString n).toList, c.isDigit = true) ∧ (toString n).toList ≠ [] := by
  have hdigits : (toString n).toList = Nat.toDigits 10 n := Nat.toList_repr
  rw [hdigits]
  exact ⟨fun c hc => Nat.isDigit_of_mem_toDigits (by decide) (by decide) hc, Nat.toDigits_ne_nil⟩

theorem not_unnumbered_append (x : String) (n : Nat) : unnumbered (x ++ toString n) = false := by
  obtain ⟨hdigit, hne⟩ := digits_toString n
  have hlast := hdigit _ (List.getLast_mem hne)
  unfold unnumbered
  rw [String.toList_append, List.getLast?_append, List.getLast?_eq_some_getLast hne, Option.some_or,
    Option.all_some, hlast]
  rfl

/-- The digits at the end of a name without a number, and the number after it. -/
theorem trailing_digits {x : String} (hx : unnumbered x = true) (n : Nat) :
    ((x ++ toString n).toList.reverse.takeWhile Char.isDigit).reverse = (toString n).toList := by
  obtain ⟨hdigit, -⟩ := digits_toString n
  have hall : ∀ c ∈ (toString n).toList.reverse, c.isDigit = true :=
    fun c hc => hdigit c (List.mem_reverse.mp hc)
  have hstop : x.toList.reverse.takeWhile Char.isDigit = [] := by
    unfold unnumbered at hx
    rw [← List.head?_reverse] at hx
    cases hrev : x.toList.reverse with
    | nil => rfl
    | cons c cs =>
      rw [hrev] at hx
      simp_all
  rw [String.toList_append, List.reverse_append, List.takeWhile_append_of_pos hall, hstop,
    List.append_nil, List.reverse_reverse]

theorem append_toString_inj {x y : String} (hx : unnumbered x = true) (hy : unnumbered y = true)
    {m n : Nat} (h : x ++ toString m = y ++ toString n) : m = n := by
  have hdigits := trailing_digits hx m
  rw [h, trailing_digits hy n] at hdigits
  exact (Nat.repr_inj.mp (String.toList_inj.mp hdigits)).symm

/-- The stem that a supply takes for a name. -/
theorem fresh_eq (s : Supply) (stem : String) :
    ∃ x, (s.fresh stem).1 = x ++ toString s.next ∧
      (unnumbered stem = true → unnumbered x = true) := by
  unfold fresh
  split
  · exact ⟨"T", rfl, fun _ => by decide⟩
  · exact ⟨stem, rfl, id⟩

theorem mem_handOut {s : Supply} {stems : List String}
    (hstems : ∀ stem ∈ stems, unnumbered stem = true) {z : String} (hz : z ∈ s.handOut stems) :
    ∃ x n, z = x ++ toString n ∧ unnumbered x = true ∧ s.next ≤ n := by
  induction stems generalizing s with
  | nil => cases hz
  | cons stem stems ih =>
    obtain ⟨x, hx, hplain⟩ := s.fresh_eq stem
    rcases List.mem_cons.mp hz with rfl | hz
    · exact ⟨x, s.next, hx, hplain (hstems stem (by simp)), Nat.le_refl _⟩
    · obtain ⟨y, n, hy, hy', hn⟩ := ih (fun t ht => hstems t (by simp [ht])) hz
      have hnext : (s.fresh stem).2.next = s.next + 1 := rfl
      exact ⟨y, n, hy, hy', by omega⟩

/-- A name without a number is never handed out. -/
theorem not_mem_handOut {x : String} (hx : unnumbered x = true) (s : Supply)
    (stems : List String) : x ∉ s.handOut stems := by
  induction stems generalizing s with
  | nil => exact List.not_mem_nil
  | cons stem stems ih =>
    intro hmem
    rcases List.mem_cons.mp hmem with rfl | hmem
    · obtain ⟨y, hy, -⟩ := s.fresh_eq stem
      rw [hy, not_unnumbered_append] at hx
      cases hx
    · exact ih _ hmem

/-- For stems without a number, no variable is handed out twice. -/
theorem handOut_nodup {stems : List String} (hstems : ∀ stem ∈ stems, unnumbered stem = true)
    (s : Supply) : (s.handOut stems).Nodup := by
  induction stems generalizing s with
  | nil => exact List.nodup_nil
  | cons stem stems ih =>
    have hrest : ∀ t ∈ stems, unnumbered t = true := fun t ht => hstems t (by simp [ht])
    refine List.nodup_cons.mpr ⟨fun hmem => ?_, ih hrest _⟩
    -- A variable that came later has a greater number.
    obtain ⟨x, hx, hplain⟩ := s.fresh_eq stem
    obtain ⟨y, n, hy, hy', hn⟩ := mem_handOut hrest hmem
    have heq := append_toString_inj (hplain (hstems stem (by simp))) hy' (hx.symm.trans hy)
    have hnext : (s.fresh stem).2.next = s.next + 1 := rfl
    omega

end Supply

end TreeLang
