import TreeLang.Eval.Machine

/-!
# Texts cut and joined again

Cutting a text at a separator loses nothing: with the separator put between the pieces the text is
back. The cut goes through the text once, with a piece that grows and with characters to skip that
belong to a separator already found; what is still to come is then the piece, followed by the text
behind the skipped characters (`joinWith_cutAt`). No occurrence of the separator is left in a piece,
because the text was looked at from every place of it (`Unmatched`).

Main statement: `join_split_call`, which says it of the builtin functions `split` and `join`.
-/

namespace TreeLang

namespace Text

variable {sep s rest : List Char}

theorem afterSep?_eq_some_iff : afterSep? sep s = some rest ↔ s = sep ++ rest := by
  induction sep generalizing s with
  | nil => simp [afterSep?]
  | cons a sep ih =>
    cases s with
    | nil => simp [afterSep?]
    | cons b s =>
      rw [afterSep?, List.cons_append, List.cons.injEq]
      split
      · next h => rw [ih, h, eq_self, true_and]
      · next h => simp [Ne.symm h]

/-! ## Nothing is lost -/

theorem cutAt_ne_nil (c : Char) (sep s : List Char) (skip : Nat) (piece : List Char) :
    cutAt c sep s skip piece ≠ [] := by
  fun_induction cutAt c sep s skip piece with
  | case1 => exact List.cons_ne_nil _ _
  | case2 _ _ _ _ ih => exact ih
  | case3 => exact List.cons_ne_nil _ _
  | case4 _ _ _ _ ih => exact ih

theorem joinWith_cons (p : List Char) {ps : List (List Char)} (h : ps ≠ []) :
    joinWith sep (p :: ps) = p ++ sep ++ joinWith sep ps := by
  cases ps with
  | nil => exact absurd rfl h
  | cons q qs => rfl

/-- At every moment of a cut: the piece so far, and the text behind what is to be skipped. -/
theorem joinWith_cutAt (c : Char) (sep s : List Char) (skip : Nat) (piece : List Char) :
    joinWith (c :: sep) (cutAt c sep s skip piece) = piece.reverse ++ s.drop skip := by
  fun_induction cutAt c sep s skip piece with
  | case1 => simp [joinWith]
  | case2 _ _ _ _ ih => rw [ih, List.drop_succ_cons]
  | case3 d s piece rest hfound ih =>
    have hs : d :: s = c :: sep ++ rest := afterSep?_eq_some_iff.mp hfound
    have htail : s = sep ++ rest := by
      rw [List.cons_append, List.cons.injEq] at hs
      exact hs.2
    rw [joinWith_cons _ (cutAt_ne_nil _ _ _ _ _), ih, List.drop_zero, hs, htail, List.drop_left]
    simp
  | case4 d s piece hnone ih =>
    rw [ih, List.reverse_cons, List.drop_zero, List.drop_zero, List.append_assoc,
      List.singleton_append]

theorem joinWith_map_singleton (s : List Char) : joinWith [] (s.map ([·])) = s := by
  induction s with
  | nil => rfl
  | cons c s ih =>
    cases s with
    | nil => rfl
    | cons d s =>
      rw [List.map_cons, joinWith_cons _ (by simp), ih]
      rfl

/-- The pieces with the separator between them are the text. -/
theorem joinWith_splitOn (sep s : List Char) : joinWith sep (splitOn sep s) = s := by
  cases sep with
  | nil => exact joinWith_map_singleton s
  | cons c sep => rw [splitOn, joinWith_cutAt, List.reverse_nil, List.nil_append, List.drop_zero]

theorem join_split (s sep : String) : join sep (split s sep) = s := by
  have hpieces : (split s sep).map String.toList = splitOn sep.toList s.toList := by
    simp [split, Function.comp_def]
  rw [join, hpieces, joinWith_splitOn, String.ofList_toList]

/-! ## No separator is left -/

/-- From no place in a piece does the separator start, whatever part of the rest it takes. -/
def Unmatched (sep piece rest : List Char) : Prop :=
  ∀ front back, piece = front ++ back → back ≠ [] → ¬sep <+: back ++ rest

theorem Unmatched.not_infix {piece : List Char} (h : Unmatched sep piece rest) (hsep : sep ≠ []) :
    ¬sep <:+: piece := by
  rintro ⟨front, behind, hpiece⟩
  refine h front (sep ++ behind) (by rw [← hpiece, List.append_assoc]) (by simp [hsep]) ?_
  rw [List.append_assoc]
  exact List.prefix_append ..

/-- A piece grows by a character where no separator starts. -/
theorem Unmatched.grow {piece : List Char} {d : Char} (h : Unmatched sep piece (d :: rest))
    (hd : ¬sep <+: d :: rest) : Unmatched sep (piece ++ [d]) rest := by
  intro front back hsplit hback
  rcases List.eq_nil_or_concat back with rfl | ⟨back, e, rfl⟩
  · exact absurd rfl hback
  · -- A part of the longer piece is a part of the shorter one with the new character behind it.
    rw [List.concat_eq_append, ← List.append_assoc] at hsplit
    obtain ⟨hpiece, he⟩ := List.append_inj' hsplit rfl
    cases he
    rw [List.concat_eq_append, List.append_assoc, List.singleton_append]
    cases back with
    | nil => exact hd
    | cons b back => exact h front (b :: back) hpiece (List.cons_ne_nil _ _)

theorem not_infix_of_mem_cutAt {c : Char} {skip : Nat} {piece p : List Char}
    (h : Unmatched (c :: sep) piece.reverse (s.drop skip)) (hp : p ∈ cutAt c sep s skip piece) :
    ¬(c :: sep) <:+: p := by
  have hne : c :: sep ≠ [] := List.cons_ne_nil _ _
  fun_induction cutAt c sep s skip piece with
  | case1 =>
    rw [List.mem_singleton.mp hp]
    exact h.not_infix hne
  | case2 _ _ _ _ ih => exact ih h hp
  | case3 d s piece rest hfound ih =>
    rcases List.mem_cons.mp hp with rfl | hp
    · exact h.not_infix hne
    · -- The next piece is empty so far.
      refine ih ?_ hp
      intro front back hsplit hback
      exact absurd (List.append_eq_nil_iff.mp hsplit.symm).2 hback
  | case4 d s piece hnone ih =>
    refine ih ?_ hp
    rw [List.reverse_cons]
    refine Unmatched.grow h fun ⟨rest, hrest⟩ => ?_
    have hfound := afterSep?_eq_some_iff.mpr hrest.symm
    rw [List.drop_zero, hnone] at hfound
    cases hfound

/-- The pieces are what is between the separators, or the characters of the text. -/
theorem mem_split {s sep p : String} (hp : p ∈ split s sep) :
    if sep = "" then p.length = 1 else ¬sep.toList <:+: p.toList := by
  obtain ⟨cs, hcs, rfl⟩ := List.mem_map.mp hp
  rw [String.toList_ofList]
  split
  · next hempty =>
    rw [hempty] at hcs
    obtain ⟨c, -, rfl⟩ := List.mem_map.mp hcs
    simp
  · next hne =>
    cases hsep : sep.toList with
    | nil => exact absurd (String.toList_eq_nil_iff.mp hsep) hne
    | cons c cs' =>
      rw [hsep] at hcs
      refine not_infix_of_mem_cutAt ?_ hcs
      intro front back hsplit hback
      exact absurd (List.append_eq_nil_iff.mp hsplit.symm).2 hback

end Text

/-! ## The builtin functions -/

/-- The texts as new objects. -/
def Value.texts (ps : List String) : List Value := ps.map fun p => text p .fresh

namespace Primitive

variable (call : Value → List Value → Exec Value)

theorem run_split (s sep : String) (i j : Identity) :
    split.run call [.text s i, .text sep j] =
      Exec.pure (.list (Value.texts (Text.split s sep)) .fresh) := rfl

theorem map_joined_numberAllFrom (ps : List String) (n : Nat) :
    (Value.numberAllFrom n (Value.texts ps)).1.map joined = ps := by
  induction ps generalizing n with
  | nil => rfl
  | cons p ps ih => exact congrArg (p :: ·) (ih (n + 1))

/-- Texts are joined as they are, whatever objects they have become. -/
theorem run_join (ps : List String) (sep : String) (n : Nat) (j : Identity) :
    join.run call [((Value.list (Value.texts ps) .fresh).numberFrom n).1, .text sep j] =
      Exec.pure (.text (Text.join sep ps) .fresh) := by
  have hjoined := congrArg (Text.join sep) (map_joined_numberAllFrom ps (n + 1))
  exact congrArg (fun t => Exec.pure (Value.text t .fresh)) hjoined

end Primitive

namespace Exec

variable {m : Machine} {turns depth : Nat}

theorem eval_succ (hrun : m.cancelled = false) (e : Expr) :
    eval m turns (depth + 1) e = step m turns (eval m turns depth) e := by
  rw [eval, hrun]
  rfl

/-- A call of a builtin function on two arguments that have values. -/
theorem eval_call_two (hrun : m.cancelled = false) {p : Primitive}
    (hp : m.function? p.name = some (.builtin (.ofPrimitive p))) {a b : Expr} {v w u : Value}
    {s s₁ s₂ : RunState} (ha : eval m turns depth a s = (.value v, s₁))
    (hb : eval m turns depth b s₁ = (.value w, s₂))
    (hu : ∀ call, p.run call [v, w] = Exec.pure u) :
    eval m turns (depth + 1) (.call p.name [a, b]) s = Exec.make u s₂ := by
  -- The name first, then the arguments, then the function on their values.
  have hcallee : callee m (.call p.name [a, b]) p.name s =
      (.value (.builtin (.ofPrimitive p)), s) := by
    rw [callee, hp]
  have hargs : evalAll (eval m turns depth) [a, b] [] s = (.value [v, w], s₂) := by
    simp only [evalAll, ha, hb]
    rfl
  have hcall (body : Expr → Exec Value) :
      apply m body 2 (.builtin (.ofPrimitive p)) [v, w] = Exec.make u := by
    simp only [apply, Builtin.ofPrimitive, hu]
    rfl
  rw [eval_succ hrun, step]
  change Exec.bind _ _ s = _
  rw [Exec.bind, hcallee]
  change Exec.bind _ _ s = _
  rw [Exec.bind, hargs]
  simp only [List.length_cons, List.length_nil, hcall]
  rfl

end Exec

/-- Cutting a text at a separator and joining the pieces with it gives the text again, for every
text and every separator, the empty one included: `split` gives the pieces, in which the separator
does not occur, or the characters, and `join` takes them, whatever objects they are by then. And
wherever the two names stand for these functions, the whole call has the text as its value, and
neither variables nor channels change. -/
theorem join_split_call (s sep : String) :
    (∀ call i j, ∃ pieces,
      Primitive.split.run call [.text s i, .text sep j] =
        Exec.pure (.list (Value.texts pieces) .fresh) ∧
      (∀ p ∈ pieces, if sep = "" then p.length = 1 else ¬sep.toList <:+: p.toList) ∧
      ∀ n k,
        Primitive.join.run call [((Value.list (Value.texts pieces) .fresh).numberFrom n).1,
          .text sep k] = Exec.pure (.text s .fresh)) ∧
    ∀ (m : Machine) (turns : Nat) (st : RunState), m.cancelled = false → 3 ≤ m.depth →
      m.function? "split" = some (.builtin (.ofPrimitive .split)) →
      m.function? "join" = some (.builtin (.ofPrimitive .join)) →
      ∃ id made,
        m.evalExpr turns (.call "join" [.call "split" [.text s, .text sep], .text sep]) st =
          (.value (.text s id), { st with made }) := by
  refine ⟨fun call i j => ⟨Text.split s sep, Primitive.run_split call s sep i j, ?_, ?_⟩, ?_⟩
  · intro p hp
    exact Text.mem_split hp
  · intro n k
    rw [Primitive.run_join, Text.join_split]
  · intro m turns st hrun hdepth hsplit hjoin
    obtain ⟨depth, hdepth⟩ := Nat.exists_eq_add_of_le' hdepth
    have htext (t : String) (depth : Nat) (st : RunState) :
        Exec.eval m turns (depth + 1) (.text t) st =
          (.value (.text t (.made st.made)), { st with made := st.made + 1 }) := by
      rw [Exec.eval_succ hrun]
      rfl
    have hpieces := Exec.eval_call_two (p := .split) hrun hsplit (htext s depth st)
      (htext sep depth _) fun call => Primitive.run_split call s sep _ _
    have hwhole := Exec.eval_call_two (p := .join) hrun hjoin hpieces (htext sep (depth + 1) _)
      fun call => Primitive.run_join call (Text.split s sep) sep _ _
    rw [Text.join_split] at hwhole
    rw [Machine.evalExpr, hdepth]
    exact ⟨_, _, hwhole⟩

/-- A separator that overlaps itself, in the middle and at the end of a text. -/
theorem overlapping_join_split :
    (Machine.initial.cancelled = false ∧ 3 ≤ Machine.initial.depth ∧
      Machine.initial.function? "split" = some (.builtin (.ofPrimitive .split)) ∧
      Machine.initial.function? "join" = some (.builtin (.ofPrimitive .join))) ∧
    ∃ id made,
      Machine.initial.evalExpr 0
          (.call "join" [.call "split" [.text "baaabaa", .text "aa"], .text "aa"]) {} =
        (.value (.text "baaabaa" id), { made }) := by
  have hdepth : 3 ≤ Machine.initial.depth := by decide
  exact ⟨⟨rfl, hdepth, rfl, rfl⟩,
    (join_split_call "baaabaa" "aa").2 Machine.initial 0 {} rfl hdepth rfl rfl⟩

end TreeLang
