import TreeLang.Proofs.Eval.Lockstep

/-!
# Runs do not look at types

Erasing takes all declared types and all type parameters out of a program. The erased program runs
like the full one, under every policy and every bound: it prints and reads the same, faults with the
same report, or gives a value with the same text (`erased_run_eq`). The function values of the two
runs differ, wherever they have got to, so the runs are compared up to erased functions.
-/

namespace TreeLang

/-- The definition without types and type parameters. -/
def FunctionDef.erase (d : FunctionDef) : FunctionDef :=
  { d with
    params := d.params.map fun p => { name := p.name }
    result := .missing
    typeParams := [] }

/-- The program without types and type parameters. -/
def Program.erase (p : Program) : Program := { p with defs := p.defs.map FunctionDef.erase }

/-- The outcome with its value changed. -/
def Outcome.map {α β : Type} (f : α → β) : Outcome α → Outcome β
  | .value a => .value (f a)
  | .fault d => .fault d
  | .crash => .crash
  | .unfinished => .unfinished

theorem Outcome.Rel.map_eq {α β γ : Type} {V : α → β → Prop} {f : α → γ} {g : β → γ}
    {r : Outcome α} {r' : Outcome β} (h : Outcome.Rel V r r') (hV : ∀ a b, V a b → g b = f a) :
    r'.map g = r.map f := by
  cases h with
  | value h => rw [Outcome.map, Outcome.map, hV _ _ h]
  | _ => rfl

/-! ## Functions and variables -/

theorem FunctionDef.paramNames_erase (d : FunctionDef) : d.erase.paramNames = d.paramNames := by
  simp [erase, paramNames]

/-- The function values of the erased program. -/
def Recast.erase : Recast where
  change f := { f with definition := f.definition.erase }
  stamp _ := rfl
  name _ := rfl
  paramNames f := f.definition.paramNames_erase
  body _ := rfl

namespace Machine

/-- The machine with erased functions. -/
def erase (m : Machine) : Machine := { m with functions := m.functions.map Recast.erase.change }

theorem erase_define (m : Machine) (d : FunctionDef) :
    (m.define d).erase = m.erase.define d.erase := by
  rw [erase, define, Table.map_insert]
  rfl

theorem erase_defineAll (m : Machine) (defs : List FunctionDef) :
    (m.defineAll defs).erase = m.erase.defineAll (defs.map FunctionDef.erase) := by
  induction defs generalizing m with
  | nil => rfl
  | cons d defs ih =>
    rw [List.map_cons, defineAll, List.foldl_cons, defineAll, List.foldl_cons, ← erase_define]
    exact ih (m.define d)

theorem function?_erase (m : Machine) (name : String) :
    m.erase.function? name = (m.function? name).map (Value.recast .erase) := by
  simp only [function?, erase, Table.get?_map]
  cases m.functions.get? name with
  | some f => rfl
  | none => cases m.builtins.get? name <;> rfl

end Machine

/-- The variables of the two runs. -/
structure ErasedFrame (m : Machine) (f f' : Table Value) : Prop where
  eq : f' = f.map (Value.recast .erase)
  closed : ∀ x v, f.get? x = some v → v.Closed m.Knows

namespace ErasedFrame

variable {m : Machine} {f f' : Table Value}

theorem empty : ErasedFrame m ∅ ∅ := ⟨rfl, nofun⟩

theorem insert (h : ErasedFrame m f f') (x : String) {v : Value} (hv : v.Closed m.Knows) :
    ErasedFrame m (f.insert x v) (f'.insert x (v.recast .erase)) := by
  constructor
  · rw [Table.map_insert, h.eq]
  · intro y w hy
    rw [Table.get?_insert] at hy
    by_cases hxy : x = y
    · rw [if_pos hxy] at hy
      cases hy
      exact hv
    · rw [if_neg hxy] at hy
      exact h.closed y w hy

end ErasedFrame

/-- The two runs are compared with no excuse. -/
def erasedCourse : Course where
  recast := .erase
  excused _ := False
  assignable _ := True

theorem erasedCourse_bears (m : Machine) :
    erasedCourse.Bears m m.erase (ErasedFrame m) (ErasedFrame m) where
  found {f f' x v} h hx := by
    rw [h.eq, Table.get?_map, hx]
    exact ⟨h.closed x v hx, rfl⟩
  missing {f f' x} h hx := by
    rw [h.eq, Table.get?_map, hx]
    exact .inl rfl
  assign h _ hv := h.insert _ hv
  call {f f'} h := by
    -- Erasing leaves the policy alone.
    change ErasedFrame m (m.scoping.callFrame f [] []) (m.scoping.callFrame f' [] [])
    cases m.scoping with
    | static => exact .empty
    | dynamic => exact h

/-- A machine runs in lockstep with its erased one. -/
def erasedLockstep (m : Machine) (hbuiltins : m.builtins = Machine.prelude) :
    Lockstep m m.erase where
  toCourse := erasedCourse
  inner := ErasedFrame m
  inner_bears := erasedCourse_bears m
  function? := m.function?_erase
  known := Machine.function?_closed hbuiltins
  cancelled := rfl
  withNode _ h := h
  assigns _ _ _ := trivial

/-! ## Runs -/

/-- Both end alike, up to the functions inside values. -/
theorem runExprs_erase {m : Machine} (hbuiltins : m.builtins = Machine.prelude) (turns : Nat)
    (p : Program) (channels : Channels) :
    let full := m.runExprs turns p { channels }
    let bare := m.erase.runExprs turns p { channels }
    bare.1.map Value.repr = full.1.map Value.repr ∧ bare.2.channels = full.2.channels := by
  intro full bare
  let L := erasedLockstep m hbuiltins
  have htracks := L.runExprs_tracks (erasedCourse_bears m) rfl (p := p) (fun _ hd => hd)
    (fun _ _ => trivial) turns
  rcases htracks { channels } { channels } ⟨.empty, rfl, rfl⟩ with ⟨d, -, hd⟩ | ⟨hends, hstate⟩
  · exact hd.elim
  · refine ⟨hends.map_eq ?_, hstate.channels⟩
    rintro v _ ⟨-, rfl⟩
    exact v.repr_recast .erase

/-- The erased program prints and reads what the full one does, and ends alike: with the same
report, or with a value of the same text. -/
theorem erased_run_eq (p : Program) (scoping : Scoping) (maxDepth turns : Nat) (cancelled : Bool)
    (channels : Channels) :
    let m : Machine := { Machine.initial with scoping, maxDepth, cancelled }
    let full := m.runProgram turns p { channels }
    let bare := m.runProgram turns p.erase { channels }
    bare.1.map Value.repr = full.1.map Value.repr ∧ bare.2.channels = full.2.channels := by
  intro m
  have hruns := runExprs_erase (m.builtins_defineAll p.defs) turns p channels
  rw [Machine.erase_defineAll] at hruns
  exact hruns

end TreeLang
