import Mathlib.Data.List.Infix
import Mathlib.Tactic.FinCases
import TreeLang.Command.Repl
import TreeLang.Proofs.Text.Json

/-!
# Entries in JSON

The scan for brackets knows nothing of JSON but quotes and backslashes, and that is enough: over
every form of the grammar it ends where it started, and it never falls below that depth on the way
(`Steady`). An array or an object starts with a bracket, so it stays one deeper until its last
character. Hence an entry in JSON is complete at its last line and not before, wherever the text is
cut into lines.

Main statement: `readEntry_json`.
-/

namespace TreeLang.Command

open Json (Blank Number Piece Quoted Derives)

namespace Brackets

/-- A scan outside quotes. -/
def outside (d : Int) : Brackets := { depth := d }

/-- A scan inside quotes. -/
def inside (d : Int) : Brackets := { depth := d, quoted := true }

/-- The depth is never below `d` during a scan. -/
def Above (d : Int) : Brackets → List Char → Prop
  | s, [] => d ≤ s.depth
  | s, c :: cs => d ≤ s.depth ∧ Above d (s.step c) cs

/-- A scan ends as it started, and the depth is never below that on the way. -/
structure Steady (s : Brackets) (cs : List Char) : Prop where
  ends : cs.foldl step s = s
  above : Above s.depth s cs

variable {s : Brackets} {d : Int} {cs ds : List Char} {c : Char}

theorem Above.start (h : Above d s cs) : d ≤ s.depth := by
  cases cs with
  | nil => exact h
  | cons c cs => exact h.1

theorem above_append : Above d s (cs ++ ds) ↔ Above d s cs ∧ Above d (cs.foldl step s) ds := by
  induction cs generalizing s with
  | nil => exact ⟨fun h => ⟨h.start, h⟩, fun h => h.2⟩
  | cons c cs ih => rw [List.cons_append, Above, Above, List.foldl_cons, ih, and_assoc]

theorem Above.mono {d' : Int} (hle : d' ≤ d) (h : Above d s cs) : Above d' s cs := by
  induction cs generalizing s with
  | nil => exact Int.le_trans hle h
  | cons c cs ih => exact ⟨Int.le_trans hle h.1, ih h.2⟩

theorem Above.front (h : Above d s cs) {front : List Char} (hfront : front <+: cs) :
    d ≤ (front.foldl step s).depth := by
  obtain ⟨back, rfl⟩ := hfront
  exact (above_append.mp h).2.start

/-! ## Steady scans -/

theorem Steady.append (hcs : Steady s cs) (hds : Steady s ds) : Steady s (cs ++ ds) where
  ends := by rw [List.foldl_append, hcs.ends, hds.ends]
  above := above_append.mpr ⟨hcs.above, hcs.ends.symm ▸ hds.above⟩

theorem Steady.cons (hc : s.step c = s) (hcs : Steady s cs) : Steady s (c :: cs) where
  ends := by rw [List.foldl_cons, hc, hcs.ends]
  above := ⟨Int.le_refl _, hc.symm ▸ hcs.above⟩

theorem steady_of_forall (h : ∀ c ∈ cs, s.step c = s) : Steady s cs := by
  induction cs with
  | nil => exact ⟨rfl, Int.le_refl _⟩
  | cons c cs ih => exact .cons (h c (by simp)) (ih fun c hc => h c (by simp [hc]))

theorem step_outside (h : c ∉ ['"', '[', '\x7b', ']', '\x7d']) :
    (outside d).step c = outside d := by
  simp_all [step, outside]

theorem step_inside (hquote : c ≠ '"') (hslash : c ≠ '\\') : (inside d).step c = inside d := by
  simp [step, inside, hquote, hslash]

section Enclosed

variable {o e : Char} (ho : o ∈ ['[', '\x7b']) (he : e ∈ [']', '\x7d'])

include ho in
theorem step_open : (outside d).step o = outside (d + 1) := by
  fin_cases ho <;> rfl

include he in
theorem step_close : (outside (d + 1)).step e = outside d := by
  fin_cases he <;> simp [step, outside]

include ho he in
/-- A bracket with steady text behind it, and the bracket that closes it. -/
theorem Steady.enclosed (h : Steady (outside (d + 1)) cs) :
    Steady (outside d) (o :: cs ++ [e]) where
  ends := by
    rw [List.cons_append, List.foldl_cons, step_open ho, List.foldl_append, h.ends, List.foldl_cons,
      step_close he, List.foldl_nil]
  above := by
    have hle : d ≤ d + 1 := by omega
    have hend : Above d (outside (d + 1)) [e] := ⟨hle, by rw [step_close he]; exact Int.le_refl d⟩
    have hinner : Above d (outside (d + 1)) (cs ++ [e]) :=
      above_append.mpr ⟨h.above.mono hle, h.ends.symm ▸ hend⟩
    exact ⟨Int.le_refl d, (step_open ho).symm ▸ hinner⟩

include ho in
/-- Between the two brackets the scan is one deeper. -/
theorem Steady.lt_depth (h : Steady (outside (d + 1)) cs) {front : List Char}
    (hfront : front <+: o :: cs ++ [e]) (hne : front ≠ []) (hproper : front ≠ o :: cs ++ [e]) :
    d < (front.foldl step (outside d)).depth := by
  obtain ⟨c, front, rfl⟩ := List.exists_cons_of_ne_nil hne
  obtain ⟨rfl, hbehind⟩ := List.cons_prefix_cons.mp hfront
  -- Without its first bracket a proper beginning does not reach the last one.
  have hinner : front <+: cs := by
    rcases List.prefix_concat_iff.mp hbehind with rfl | hinner
    · exact absurd rfl hproper
    · exact hinner
  rw [List.foldl_cons, step_open ho]
  exact h.above.front hinner

end Enclosed

/-! ## The forms of the grammar -/

theorem steady_blank (h : Blank cs) : Steady (outside d) cs := by
  have hblank : ∀ c ∈ [' ', '\t', '\n', '\r'], c ∉ ['"', '[', '\x7b', ']', '\x7d'] := by simp
  exact steady_of_forall fun c hc => step_outside (hblank c (h c hc))

theorem steady_number (h : Number cs) : Steady (outside d) cs := by
  refine steady_of_forall fun c hc => step_outside ?_
  rcases Json.mem_number h hc with hdigit | hother
  · intro hmem
    fin_cases hmem <;> cases hdigit
  · fin_cases hother <;> decide

theorem steady_piece (h : Piece cs) : Steady (inside d) cs := by
  cases h with
  | plain _ hquote hslash => exact .cons (step_inside hquote hslash) ⟨rfl, Int.le_refl d⟩
  -- The scan skips whatever stands behind a backslash.
  | escape => exact ⟨rfl, Int.le_refl d, Int.le_refl d, Int.le_refl d⟩
  | code _ hdigits =>
    have hescape : Steady (inside d) ['\\', 'u'] :=
      ⟨rfl, Int.le_refl d, Int.le_refl d, Int.le_refl d⟩
    refine hescape.append (steady_of_forall fun c hc => step_inside ?_ ?_) <;>
      (rintro rfl; exact absurd (hdigits _ hc) (by decide))

theorem steady_quoted (h : Quoted cs) : Steady (outside d) cs := by
  obtain @⟨ps, hps⟩ := h
  have hpieces : Steady (inside d) ps.flatten := by
    induction ps with
    | nil => exact ⟨rfl, Int.le_refl d⟩
    | cons p ps ih =>
      exact (steady_piece (hps p (by simp))).append (ih fun p hp => hps p (by simp [hp]))
  have hclose : Above d (inside d) (ps.flatten ++ ['"']) :=
    above_append.mpr ⟨hpieces.above, hpieces.ends.symm ▸ ⟨Int.le_refl d, Int.le_refl d⟩⟩
  refine ⟨?_, Int.le_refl d, hclose⟩
  have hopen : (outside d).step '"' = inside d := rfl
  rw [List.cons_append, List.foldl_cons, hopen, List.foldl_append, hpieces.ends]
  rfl

/-- Scans over JSON are steady. -/
theorem steady_of_derives {form : Json.Form} (h : Derives form cs) (d : Int) :
    Steady (outside d) cs := by
  -- The induction is on the derivation, with the depth general: a bracket adds one to it.
  have hcomma {d : Int} : (outside d).step ',' = outside d := rfl
  have hcolon {d : Int} : (outside d).step ':' = outside d := rfl
  induction h generalizing d with
  | word hword =>
    have hplain : ∀ cs ∈ [['t', 'r', 'u', 'e'], ['f', 'a', 'l', 's', 'e'], ['n', 'u', 'l', 'l']],
        ∀ c ∈ cs, c ∉ ['"', '[', '\x7b', ']', '\x7d'] := by simp
    exact steady_of_forall fun c hc => step_outside (hplain _ hword c hc)
  | number hnumber => exact steady_number hnumber
  | text hquoted => exact steady_quoted hquoted
  | nested _ ih => exact ih d
  | emptyArray hblank => exact (steady_blank hblank).enclosed (by simp) (by simp)
  | array _ ih => exact (ih (d + 1)).enclosed (by simp) (by simp)
  | emptyObject hblank => exact (steady_blank hblank).enclosed (by simp) (by simp)
  | object _ ih => exact (ih (d + 1)).enclosed (by simp) (by simp)
  | element hbefore _ hafter ih =>
    exact ((steady_blank hbefore).append (ih d)).append (steady_blank hafter)
  | lastElement _ ih => exact ih d
  | elements _ _ ih ihs => exact (ih d).append (.cons hcomma (ihs d))
  | member hbefore hname hafter _ ih =>
    exact (((steady_blank hbefore).append (steady_quoted hname)).append
      (steady_blank hafter)).append (.cons hcolon (ih d))
  | lastMember _ ih => exact ih d
  | members _ _ ih ihs => exact (ih d).append (.cons hcomma (ihs d))

theorem collection_cases (h : Derives .collection cs) :
    ∃ o ∈ ['[', '\x7b'], ∃ e, ∃ inner, cs = o :: inner ++ [e] ∧ ∀ d, Steady (outside d) inner := by
  cases h with
  | emptyArray hblank => exact ⟨'[', by simp, _, _, rfl, fun _ => steady_blank hblank⟩
  | array helements => exact ⟨'[', by simp, _, _, rfl, steady_of_derives helements⟩
  | emptyObject hblank => exact ⟨'\x7b', by simp, _, _, rfl, fun _ => steady_blank hblank⟩
  | object hmembers => exact ⟨'\x7b', by simp, _, _, rfl, steady_of_derives hmembers⟩

end Brackets

/-- A text that starts with a bracket, has one open in every beginning, and none at its end. -/
structure Closes (cs : List Char) : Prop where
  starts : ∃ o ∈ cs.head?, o ∈ ['[', '\x7b']
  depth : bracketDepth cs = 0
  open_before : ∀ front, front <+: cs → front ≠ [] → front ≠ cs → 1 ≤ bracketDepth front

theorem closes_of_derives {cs : List Char} (h : Derives .collection cs) : Closes cs where
  starts := by
    obtain ⟨o, ho, e, inner, rfl, -⟩ := Brackets.collection_cases h
    exact ⟨o, rfl, ho⟩
  depth := congrArg Brackets.depth (Brackets.steady_of_derives h 0).ends
  open_before front hfront hne hproper := by
    obtain ⟨o, ho, e, inner, rfl, hinner⟩ := Brackets.collection_cases h
    exact (hinner (0 + 1)).lt_depth ho hfront hne hproper

/-! ## Lines -/

/-- The lines so far and a further one. -/
def joined (pending line : String) : String :=
  if pending.isEmpty then line else pending ++ "\n" ++ line

/-- Reads lines up to the end of an entry. Gives the entry and the lines behind it; nothing if there
are not enough lines. -/
def readEntry (pending : String) : List String → Option (String × List String)
  | [] => none
  | line :: lines =>
    match addLine pending line with
    | .pending text => readEntry text lines
    | .complete entry => some (entry, lines)

theorem addLine_eq (pending line : String) :
    addLine pending line =
      if bracketDepth (joined pending line).toList ≤ 0 then .complete (joined pending line)
      else .pending (joined pending line) := rfl

theorem Closes.line_ne_empty {text line : String} {lines : List String} (h : Closes text.toList)
    (htext : "\n".intercalate (line :: lines) = text) : line ≠ "" := by
  rintro rfl
  obtain ⟨o, ho, hbracket⟩ := h.starts
  rw [← htext] at ho
  cases lines with
  | nil => simp at ho
  | cons next lines =>
    have hfeed : o = '\n' := by simpa using ho.symm
    rw [hfeed] at hbracket
    exact absurd hbracket (by decide)

/-- Lines are read up to the last one. -/
theorem readEntry_of_closes {text pending line : String} {lines : List String}
    (h : Closes text.toList) (hne : joined pending line ≠ "")
    (htext : "\n".intercalate (joined pending line :: lines) = text) (rest : List String) :
    readEntry pending (line :: (lines ++ rest)) = some (text, rest) := by
  induction lines generalizing pending line with
  | nil =>
    have hwhole : joined pending line = text := by rw [← htext, String.intercalate_singleton]
    have hdepth : bracketDepth text.toList ≤ 0 := h.depth.le
    rw [readEntry, addLine_eq, hwhole, if_pos hdepth]
    rfl
  | cons next lines ih =>
    have happend : text = joined pending line ++ "\n" ++ "\n".intercalate (next :: lines) := by
      rw [← htext, String.intercalate_cons_cons]
    have hchars : text.toList = (joined pending line).toList ++
        '\n' :: ("\n".intercalate (next :: lines)).toList := by
      rw [happend, String.toList_append, String.toList_append, List.append_assoc]
      rfl
    -- There is a line left, so what has been read is a proper beginning and a bracket is open.
    have hdepth : 1 ≤ bracketDepth (joined pending line).toList := by
      refine h.open_before _ ⟨_, hchars.symm⟩ (by simpa using hne) fun heq => ?_
      rw [hchars] at heq
      simp at heq
    have hjoined : joined (joined pending line) next = joined pending line ++ "\n" ++ next := by
      rw [joined, if_neg (by simpa using hne)]
    have hrest : readEntry (joined pending line) (next :: (lines ++ rest)) = some (text, rest) := by
      refine ih ?_ ?_
      · simp [hjoined]
      · rw [hjoined, String.intercalate_cons_append, ← happend]
    rw [readEntry, addLine_eq, if_neg (by omega)]
    exact hrest

namespace Repl

variable {m : Type → Type} [Monad m]

/-- Takes lines one after the other. Tells whether to leave. -/
def lines (c : Console m) (r : Repl) : List Text.Line → m (Bool × Repl)
  | [] => pure (false, r)
  | l :: ls => do
    let (leave, r) ← line c r l
    if leave then pure (true, r) else lines c r ls

/-- Lines that are one entry: each but the last asks for more, and then the entry is taken. -/
theorem lines_of_readEntry [LawfulMonad m] (c : Console m) {r : Repl} {ls : List Text.Line}
    {entry : String} (h : readEntry r.pending (ls.map (·.octets.text)) = some (entry, [])) :
    lines c r ls = (do
      forM ls.dropLast fun _ => c.print morePrompt
      let (leave, r') ← take c { r with sound := r.sound && ls.all (·.octets.isText) } entry
      if !leave then c.print mainPrompt
      pure (leave, r')) := by
  induction ls generalizing r with
  | nil => cases h
  | cons l ls ih =>
    rw [List.map_cons, readEntry] at h
    rw [lines, line]
    cases hadd : addLine r.pending l.octets.text with
    | pending text =>
      rw [hadd] at h
      have hmore : ls ≠ [] := by
        rintro rfl
        cases h
      rw [List.dropLast_cons_of_ne_nil hmore, List.forM_cons, bind_assoc]
      simp only [bind_assoc, pure_bind]
      refine bind_congr fun _ => ?_
      rw [if_neg Bool.false_ne_true, ih h, List.all_cons, Bool.and_assoc]
      rfl
    | complete entry' =>
      rw [hadd] at h
      have hlast : ls = [] := by simpa using congrArg (fun o => o.map (·.2)) h
      have hentry : entry' = entry := by simpa using congrArg (fun o => o.map (·.1)) h
      subst hlast hentry
      rw [List.dropLast_singleton, List.forM_nil, pure_bind, List.all_cons, List.all_nil,
        Bool.and_true]
      simp only [bind_assoc]
      refine bind_congr fun ⟨leave, r'⟩ => ?_
      cases leave <;> simp [lines]

end Repl

/-- Of every array or object in JSON, from its opening bracket to its closing one: no bracket is
open at its end, and at least one is in every beginning of it. So its lines, wherever it is cut, are
read as one entry, which ends with the last of them; and a session asks for more after every line
but the last, and then takes the text. -/
theorem readEntry_json {cs : List Char} (h : Derives .collection cs) :
    bracketDepth cs = 0 ∧
      (∀ front, front <+: cs → front ≠ [] → front ≠ cs → 1 ≤ bracketDepth front) ∧
      (∀ lines rest : List String, "\n".intercalate lines = String.ofList cs →
        readEntry "" (lines ++ rest) = some (String.ofList cs, rest)) ∧
      ∀ {m : Type → Type} [Monad m] [LawfulMonad m] (c : Console m) (r : Repl)
        (ls : List Text.Line), r.pending = "" →
        "\n".intercalate (ls.map (·.octets.text)) = String.ofList cs →
        Repl.lines c r ls = (do
          forM ls.dropLast fun _ => c.print Repl.morePrompt
          let (leave, r') ← Repl.take c
            { r with sound := r.sound && ls.all (·.octets.isText) } (String.ofList cs)
          if !leave then c.print Repl.mainPrompt
          pure (leave, r')) := by
  have hcloses : Closes cs := closes_of_derives h
  have htext : Closes (String.ofList cs).toList := by rwa [String.toList_ofList]
  have hread (lines rest : List String) (hlines : "\n".intercalate lines = String.ofList cs) :
      readEntry "" (lines ++ rest) = some (String.ofList cs, rest) := by
    cases lines with
    | nil =>
      obtain ⟨o, ho, -⟩ := htext.starts
      rw [← hlines] at ho
      cases ho
    | cons line lines =>
      have hfirst : joined "" line = line := rfl
      have hne : joined "" line ≠ "" := hfirst.symm ▸ htext.line_ne_empty hlines
      exact readEntry_of_closes htext hne (hfirst.symm ▸ hlines) rest
  refine ⟨hcloses.depth, hcloses.open_before, hread, fun c r ls hpending hlines => ?_⟩
  refine Repl.lines_of_readEntry c ?_
  have hentry := hread _ [] hlines
  rwa [List.append_nil, ← hpending] at hentry

/-- A quoted bracket behind a quoted quote, on the second of two lines. -/
theorem readEntry_two_lines :
    let cs := ['[', '1', ',', '\n', '"', '\\', '"', '[', '"', ']']
    Derives .collection cs ∧ bracketDepth cs = 0 ∧
      readEntry "" ["[1,", "\"\\\"[\"]", "2"] = some (String.ofList cs, ["2"]) := by
  intro cs
  have hnone : Blank [] := by simp [Blank]
  have hfeed : Blank ['\n'] := by simp [Blank]
  have hone : Number ([] ++ ['1'] ++ [] ++ []) :=
    .parts (by simp) (.digits rfl (by decide) (by simp)) .absent .absent
  have hpieces : ∀ p ∈ [['\\', '"'], ['[']], Piece p :=
    List.forall_mem_cons.mpr ⟨.escape (by simp), List.forall_mem_singleton.mpr
      (.plain (by decide) (by decide) (by decide))⟩
  have hlast : Derives .elements (['\n'] ++ ('"' :: [['\\', '"'], ['[']].flatten ++ ['"']) ++ []) :=
    .lastElement (.element hfeed (.text (.pieces hpieces)) hnone)
  have hderives : Derives .collection cs :=
    .array (.elements (.element hnone (.number hone) hnone) hlast)
  obtain ⟨hdepth, -, hread, -⟩ := readEntry_json hderives
  exact ⟨hderives, hdepth, hread ["[1,", "\"\\\"[\"]"] ["2"] rfl⟩

end TreeLang.Command
