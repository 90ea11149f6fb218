import Mathlib.Combinatorics.Pigeonhole
import Mathlib.Logic.Relation

/-!
# Recursion with a bound on nesting

A recursive procedure that need not end is run with a bound on how deep its calls nest, and gets
stuck at the bound. `calls x y` says that working on `x` comes to a call on `y`, and `stuck n x`
that the work on `x` gets stuck when calls may nest `n` deep. Main statements: a run that gets
stuck at a bound which no path without repetition exceeds has come back to where it was
(`returns_of_stuck`), and a run that comes back gets stuck at every bound (`stuck_of_returns`).
-/

namespace TreeLang.Nesting

open Relation

variable {κ label : Type} {calls : κ → κ → Prop} {stuck : Nat → κ → Prop}

/-- The work on `x` comes to a call that comes to itself again. -/
def Returns (calls : κ → κ → Prop) (x : κ) : Prop :=
  ∃ y, ReflTransGen calls x y ∧ TransGen calls y y

/-- A run that gets stuck does so at the end of a path of calls. -/
theorem exists_path (hdown : ∀ n x, stuck (n + 1) x → ∃ y, calls x y ∧ stuck n y) {n : Nat} {x : κ}
    (h : stuck n x) : ∃ f : Nat → κ, f 0 = x ∧ ∀ i < n, calls (f i) (f (i + 1)) := by
  induction n generalizing x with
  | zero => exact ⟨fun _ => x, rfl, fun i hi => absurd hi (Nat.not_lt_zero i)⟩
  | succ n ih =>
    obtain ⟨y, hxy, hy⟩ := hdown n x h
    obtain ⟨f, hf, hcalls⟩ := ih hy
    refine ⟨fun i => Nat.casesOn i x f, rfl, ?_⟩
    intro i hi
    cases i with
    | zero =>
      change calls x (f 0)
      rw [hf]
      exact hxy
    | succ i => exact hcalls i (by omega)

theorem path_reaches {f : Nat → κ} {n : Nat} (hcalls : ∀ i < n, calls (f i) (f (i + 1))) {i j : Nat}
    (hij : i ≤ j) (hj : j ≤ n) : ReflTransGen calls (f i) (f j) := by
  induction j, hij using Nat.le_induction with
  | base => exact .refl
  | succ j hij ih => exact (ih (by omega)).tail (hcalls j (by omega))

/-- On a path longer than there are labels a label comes up twice; where this means the same call,
the run has come back to it. -/
theorem returns_of_stuck (hdown : ∀ n x, stuck (n + 1) x → ∃ y, calls x y ∧ stuck n y)
    {f : κ → label} {labels : List label} {n : Nat} {x : κ} (hn : labels.length ≤ n)
    (hmem : ∀ y, ReflTransGen calls x y → f y ∈ labels)
    (hsame : ∀ y z, ReflTransGen calls x y → TransGen calls y z → f y = f z → y = z)
    (h : stuck n x) : Returns calls x := by
  classical
  obtain ⟨path, rfl, hcalls⟩ := exists_path hdown h
  have hreach : ∀ i ≤ n, ReflTransGen calls (path 0) (path i) := fun i hi =>
    path_reaches hcalls (Nat.zero_le i) hi
  have hcard : labels.toFinset.card < (Finset.range (n + 1)).card := by
    have hle := List.toFinset_card_le labels
    rw [Finset.card_range]
    omega
  have hmaps : Set.MapsTo (f ∘ path) (Finset.range (n + 1)) labels.toFinset := by
    intro i hi
    have hi' : i < n + 1 := Finset.mem_range.mp hi
    exact List.mem_toFinset.mpr (hmem _ (hreach i (by omega)))
  obtain ⟨i, hi, j, hj, hne, heq⟩ :=
    Finset.exists_ne_map_eq_of_card_lt_of_maps_to hcard hmaps
  rw [Finset.mem_range] at hi hj
  -- Of the two places with one label, the first leads to the second.
  have hback : ∀ i j, i < j → j < n + 1 → f (path i) = f (path j) → Returns calls (path 0) := by
    intro i j hij hj heq
    have hstep : TransGen calls (path i) (path j) :=
      .head' (hcalls i (by omega)) (path_reaches hcalls hij (by omega))
    have hpath : path i = path j := hsame _ _ (hreach i (by omega)) hstep heq
    refine ⟨path i, hreach i (by omega), ?_⟩
    rwa [← hpath] at hstep
  rcases Nat.lt_or_gt_of_ne hne with hlt | hlt
  · exact hback i j hlt hj heq
  · exact hback j i hlt hi heq.symm

theorem Returns.exists_call {x : κ} (h : Returns calls x) : ∃ y, calls x y ∧ Returns calls y := by
  obtain ⟨y, hxy, hyy⟩ := h
  rcases hxy.cases_head with rfl | ⟨z, hxz, hzy⟩
  · obtain ⟨z, hyz, hzy⟩ := TransGen.head'_iff.mp hyy
    exact ⟨z, hyz, x, hzy, hyy⟩
  · exact ⟨z, hxz, y, hzy, hyy⟩

/-- A run that comes back to where it was gets stuck whatever the bound. -/
theorem stuck_of_returns (hzero : ∀ x, stuck 0 x)
    (hup : ∀ n x y, calls x y → stuck n y → stuck (n + 1) x) {x : κ} (h : Returns calls x)
    (n : Nat) : stuck n x := by
  induction n generalizing x with
  | zero => exact hzero x
  | succ n ih =>
    obtain ⟨y, hxy, hy⟩ := h.exists_call
    exact hup n x y hxy (ih hy)

end TreeLang.Nesting
