import Mathlib
import TreeLang.Proofs.Decimal.Written
import TreeLang.Proofs.Text.Pieces
import TreeLang.Proofs.Text.Quoted
import TreeLang.Proofs.Value.KeyText
import TreeLang.Proofs.Value.Proper

/-!
# The text of a value tells what it is

Inside a collection a text is quoted, so the elements of lists and the entries of dictionaries can
be told apart, whatever separators and brackets are in them. Every value is known from the front of
a text in which it stands (`alike_of_repr_append`), provided that what follows is a separator, a
closing bracket or nothing: quotes and brackets are closed, and words and numbers have no separators
and no brackets in them.

Main statement: `repr_eq_iff`. Functions are excepted: their text is a name, which can be anything.
-/

namespace TreeLang

/-! ## What can stand behind a value -/

namespace Text

/-- The characters behind a value in a collection. -/
def stops : List Char := [',', ':', ']', '\x7d']

/-- The characters in front of what is closed at its end. -/
def openings : List Char := ['"', '[', '\x7b']

theorem not_mem_stops {c : Char} (h : c ∈ openings) : c ∉ stops := by
  fin_cases h <;> decide

/-- Nothing, or something that starts behind a value. -/
def Stopped (rest : List Char) : Prop := ∀ c ∈ rest.head?, c ∈ stops

theorem stopped_nil : Stopped [] := nofun

theorem stopped_cons {c : Char} {rest : List Char} : Stopped (c :: rest) ↔ c ∈ stops := by
  simp [Stopped]

theorem Stopped.of_append {cs ds : List Char} (h : Stopped (cs ++ ds)) : Stopped cs := by
  cases cs with
  | nil => exact stopped_nil
  | cons c cs => exact stopped_cons.mpr (stopped_cons.mp h)

/-- Words without such characters end at the first one. -/
theorem word_append_inj {cs ds rest rest' : List Char} (hcs : ∀ c ∈ cs, c ∉ stops)
    (hds : ∀ d ∈ ds, d ∉ stops) (hrest : Stopped rest) (hrest' : Stopped rest')
    (h : cs ++ rest = ds ++ rest') : cs = ds ∧ rest = rest' := by
  induction cs generalizing ds with
  | nil =>
    cases ds with
    | nil => exact ⟨rfl, h⟩
    | cons d ds =>
      rw [List.nil_append] at h
      rw [h] at hrest
      exact absurd (stopped_cons.mp hrest) (hds d (by simp))
  | cons c cs ih =>
    cases ds with
    | nil =>
      rw [List.nil_append] at h
      rw [← h] at hrest'
      exact absurd (stopped_cons.mp hrest') (hcs c (by simp))
    | cons d ds =>
      rw [List.cons_append, List.cons_append, List.cons.injEq] at h
      obtain ⟨rfl, h⟩ := h
      obtain ⟨rfl, hrest⟩ := ih (fun c hc => hcs c (by simp [hc]))
        (fun d hd => hds d (by simp [hd])) h
      exact ⟨rfl, hrest⟩

/-! ## Sequences in brackets -/

theorem joinWith_cons_eq (sep p : List Char) (ps : List (List Char)) :
    joinWith sep (p :: ps) = p ++ ps.flatMap (sep ++ ·) := by
  induction ps generalizing p with
  | nil => simp [joinWith]
  | cons q ps ih =>
    rw [joinWith_cons p (List.cons_ne_nil q ps), ih, List.flatMap_cons, List.append_assoc,
      List.append_assoc]

section Sequences

variable {α : Type} {R : α → α → Prop} {text : α → List Char} {close : Char}
  {xs ys : List α} {rest rest' : List Char}

theorem stopped_items (hclose : close ∈ stops) (xs : List α) (rest : List Char) :
    Stopped ((xs.map text).flatMap ([',', ' '] ++ ·) ++ close :: rest) := by
  cases xs with
  | nil => exact stopped_cons.mpr hclose
  | cons x xs => exact stopped_cons.mpr (by decide)

/-- Further items and the closing bracket, when each item is known from the front of a text. -/
theorem items_append_inj (hclose : close ∈ stops) (hcomma : close ≠ ',')
    (hitem : ∀ x ∈ xs, ∀ y ∈ ys, ∀ rest rest', Stopped rest → Stopped rest' →
      text x ++ rest = text y ++ rest' → R x y ∧ rest = rest')
    (h : (xs.map text).flatMap ([',', ' '] ++ ·) ++ close :: rest =
      (ys.map text).flatMap ([',', ' '] ++ ·) ++ close :: rest') :
    List.Forall₂ R xs ys ∧ rest = rest' := by
  induction xs generalizing ys with
  | nil =>
    cases ys with
    | nil => exact ⟨.nil, by simpa using h⟩
    | cons y ys => exact absurd (List.cons.inj h).1 hcomma
  | cons x xs ih =>
    cases ys with
    | nil => exact absurd (List.cons.inj h).1.symm hcomma
    | cons y ys =>
      simp only [List.map_cons, List.flatMap_cons, List.append_assoc, List.cons_append,
        List.nil_append, List.cons.injEq, true_and] at h
      obtain ⟨hxy, hbehind⟩ := hitem x (by simp) y (by simp) _ _ (stopped_items hclose xs rest)
        (stopped_items hclose ys rest') h
      obtain ⟨hall, hrest⟩ := ih
        (fun x hx y hy => hitem x (List.mem_cons_of_mem _ hx) y (List.mem_cons_of_mem _ hy)) hbehind
      exact ⟨.cons hxy hall, hrest⟩

/-- Sequences with commas between the items and a closing bracket behind them agree item by item. An
item does not start like the bracket, so an empty sequence is told from the others. -/
theorem sequence_append_inj (hclose : close ∈ stops) (hcomma : close ≠ ',')
    (hxs : ∀ x ∈ xs, ¬Stopped (text x)) (hys : ∀ y ∈ ys, ¬Stopped (text y))
    (hitem : ∀ x ∈ xs, ∀ y ∈ ys, ∀ rest rest', Stopped rest → Stopped rest' →
      text x ++ rest = text y ++ rest' → R x y ∧ rest = rest')
    (h : joinWith [',', ' '] (xs.map text) ++ close :: rest =
      joinWith [',', ' '] (ys.map text) ++ close :: rest') :
    List.Forall₂ R xs ys ∧ rest = rest' := by
  -- No item stands where the other sequence has its closing bracket.
  have hfront {x : α} (hx : ¬Stopped (text x)) (behind rest : List Char) :
      text x ++ behind ≠ close :: rest := by
    intro heq
    have hstop : Stopped (text x ++ behind) := heq ▸ stopped_cons.mpr hclose
    exact hx hstop.of_append
  cases xs with
  | nil =>
    cases ys with
    | nil => exact ⟨.nil, (List.cons.inj h).2⟩
    | cons y ys =>
      rw [List.map_cons, joinWith_cons_eq, List.append_assoc] at h
      exact absurd h.symm (hfront (hys y (by simp)) _ rest)
  | cons x xs =>
    cases ys with
    | nil =>
      rw [List.map_cons, joinWith_cons_eq, List.append_assoc] at h
      exact absurd h (hfront (hxs x (by simp)) _ rest')
    | cons y ys =>
      -- With a comma in front the first items are further items too.
      have hcommas := congrArg ([',', ' '] ++ ·) h
      rw [List.map_cons, List.map_cons, joinWith_cons_eq, joinWith_cons_eq] at hcommas
      refine items_append_inj hclose hcomma hitem ?_
      simpa only [List.map_cons, List.flatMap_cons, List.append_assoc] using hcommas

end Sequences

end Text

/-! ## The letters of numbers -/

namespace Decimal

/-- Numbers are written in digits, a point, a sign and the letters of two words. -/
theorem mem_written_cases {x : Float} {c : Char} (h : c ∈ (written x).toList) :
    c.isDigit = true ∨ c ∈ ['.', '-', 'N', 'a', 'I', 'n', 'f', 'i', 't', 'y'] := by
  cases hnan : x.isNaN with
  | true =>
    have htext : written x = "NaN" := if_pos hnan
    have hletters : ∀ c ∈ "NaN".toList, c ∈ ['.', '-', 'N', 'a', 'I', 'n', 'f', 'i', 't', 'y'] := by
      simp
    exact .inr (hletters c (htext ▸ h))
  | false =>
    cases hinf : x.isInf with
    | true =>
      have htext : written x = if isNegative x then "-Infinity" else "Infinity" := by
        rw [written, hnan, hinf]
        rfl
      have hletters : ∀ c ∈ "-Infinity".toList ++ "Infinity".toList,
          c ∈ ['.', '-', 'N', 'a', 'I', 'n', 'f', 'i', 't', 'y'] := by
        simp
      refine .inr (hletters c (List.mem_append.mpr ?_))
      rw [htext] at h
      split at h
      · exact .inl h
      · exact .inr h
    | false =>
      rw [toList_written hnan hinf, List.mem_append] at h
      rcases h with h | h
      · split at h
        · exact .inr (by simp [List.mem_singleton.mp h])
        · cases h
      · rcases mem_positional h with h | rfl
        · exact .inl h
        · exact .inr (by simp)

theorem positional_ne_empty (d : Dec) : d.positional.toList ≠ [] := by
  rw [Dec.positional]
  split
  · split
    · decide
    · simp [Nat.toDigits_ne_nil]
  · simp

theorem written_ne_empty (x : Float) : (written x).toList ≠ [] := by
  rw [written]
  split
  · decide
  · split
    · split <;> decide
    · split
      · simp
      · exact positional_ne_empty _

end Decimal

/-! ## Values without functions -/

namespace Value

/-- The values say the same. They differ at most in which objects they are. -/
inductive Alike : Value → Value → Prop
  | number {x : Float} {i j : Identity} : Alike (.number x i) (.number x j)
  | text {s : String} {i j : Identity} : Alike (.text s i) (.text s j)
  | bool {b : Bool} {i j : Identity} : Alike (.bool b i) (.bool b j)
  | nil : Alike .nil .nil
  | list {xs ys : List Value} {i j : Identity} : List.Forall₂ Alike xs ys →
      Alike (.list xs i) (.list ys j)
  | dict {d e : Dict} {i j : Identity} : d.map (·.1.id) = e.map (·.1.id) →
      List.Forall₂ Alike (d.map (·.2)) (e.map (·.2)) → Alike (.dict d i) (.dict e j)

/-- There is no function in the value. -/
def FunctionFree : Value → Prop := Throughout fun
  | .function _ | .builtin _ => False
  | _ => True

variable {v w : Value} {rest rest' : List Char}

@[simp] theorem functionFree_list {elems : List Value} {id : Identity} :
    (list elems id).FunctionFree ↔ ∀ v ∈ elems, v.FunctionFree := by
  simp only [FunctionFree, throughout_list, true_and]

@[simp] theorem functionFree_dict {entries : Dict} {id : Identity} :
    (dict entries id).FunctionFree ↔ ∀ e ∈ entries, e.2.FunctionFree := by
  simp only [FunctionFree, throughout_dict, true_and]

@[simp] theorem not_functionFree_function {f : UserFunction} : ¬(function f).FunctionFree :=
  fun h => h _ .self

@[simp] theorem not_functionFree_builtin {b : Builtin} : ¬(builtin b).FunctionFree :=
  fun h => h _ .self

theorem functionFree_key (k : Key) : k.value.FunctionFree := by
  cases k <;> simp [Key.value, FunctionFree, throughout_atom]

/-! ## Words -/

/-- The character that opens the text of a value, unless the text is a word. -/
def opening? : Value → Option Char
  | .text _ _ => some '"'
  | .list _ _ => some '['
  | .dict _ _ => some '\x7b'
  | _ => none

theorem toList_boolText (b : Bool) :
    (boolText b).toList = if b then ['t', 'r', 'u', 'e'] else ['f', 'a', 'l', 's', 'e'] := by
  cases b <;> rfl

theorem word_cases (hv : v.FunctionFree) (hword : v.opening? = none) :
    (∃ x id, v = .number x id) ∨ (∃ b id, v = .bool b id) ∨ v = .nil := by
  cases v with
  | number x id => exact .inl ⟨x, id, rfl⟩
  | bool b id => exact .inr (.inl ⟨b, id, rfl⟩)
  | nil => exact .inr (.inr rfl)
  | text | list | dict => cases hword
  | function => exact absurd hv not_functionFree_function
  | builtin => exact absurd hv not_functionFree_builtin

/-- The characters of words are neither stops nor openings. -/
theorem mem_word {c : Char} (hv : v.FunctionFree) (hword : v.opening? = none)
    (hc : c ∈ v.repr.toList) : c ∉ Text.stops ∧ c ∉ Text.openings := by
  rcases word_cases hv hword with ⟨x, id, rfl⟩ | ⟨b, id, rfl⟩ | rfl
  · rcases Decimal.mem_written_cases hc with hdigit | hletter
    · constructor <;> (intro hmem; fin_cases hmem <;> cases hdigit)
    · fin_cases hletter <;> decide
  · rw [repr, toList_boolText] at hc
    cases b <;> fin_cases hc <;> decide
  · have htext : nil.repr.toList = ['n', 'i', 'l'] := rfl
    rw [htext] at hc
    fin_cases hc <;> decide

/-- Numbers have neither of the letters that tell the truth values and nil apart. -/
theorem kind_word (hv : v.FunctionFree) (hword : v.opening? = none) :
    v.kind = if 'e' ∈ v.repr.toList then "BOOLEAN" else if 'l' ∈ v.repr.toList then "NIL"
      else "NUMBER" := by
  rcases word_cases hv hword with ⟨x, id, rfl⟩ | ⟨b, id, rfl⟩ | rfl
  · have he : 'e' ∉ (number x id).repr.toList := fun h =>
      absurd (Decimal.mem_written_cases h) (by decide)
    have hl : 'l' ∉ (number x id).repr.toList := fun h =>
      absurd (Decimal.mem_written_cases h) (by decide)
    rw [if_neg he, if_neg hl, kind]
  · have he : 'e' ∈ (bool b id).repr.toList := by
      rw [repr, toList_boolText]
      cases b <;> decide
    rw [if_pos he, kind]
  · decide

/-- Words are the same text only if they say the same. -/
theorem alike_of_word (hv : v.FunctionFree) (hw : w.FunctionFree) (hvword : v.opening? = none)
    (hwword : w.opening? = none) (h : v.repr = w.repr) : v.Alike w := by
  -- The letters of the text tell the kind, so six of the nine pairs cannot be.
  have hkind : v.kind = w.kind := by rw [kind_word hv hvword, kind_word hw hwword, h]
  rcases word_cases hv hvword with ⟨x, i, rfl⟩ | ⟨b, i, rfl⟩ | rfl <;>
    rcases word_cases hw hwword with ⟨y, j, rfl⟩ | ⟨c, j, rfl⟩ | rfl <;>
    simp [kind] at hkind
  · exact Decimal.written_inj.mp h ▸ .number
  · have hbool : b = c := by
      have htext := congrArg String.toList h
      rw [repr, repr, toList_boolText, toList_boolText] at htext
      cases b <;> cases c <;> simp_all
    exact hbool ▸ .bool
  · exact .nil

/-! ## The front of a text -/

theorem toList_reprElems (elems : List Value) :
    (reprElems elems).toList = Text.joinWith [',', ' '] (elems.map (·.repr.toList)) := by
  induction elems with
  | nil => rfl
  | cons v elems ih =>
    cases elems with
    | nil => rfl
    | cons w elems =>
      rw [List.map_cons, Text.joinWith_cons _ (by simp), ← ih, reprElems, String.toList_append,
        String.toList_append]
      · rfl
      · exact List.cons_ne_nil w elems

/-- The text of an entry. -/
def entryText (e : Key × Value) : List Char :=
  (keyRepr e.1).toList ++ [':', ' '] ++ e.2.repr.toList

theorem toList_reprEntries (entries : Dict) :
    (reprEntries entries).toList = Text.joinWith [',', ' '] (entries.map entryText) := by
  induction entries with
  | nil => rfl
  | cons e entries ih =>
    cases entries with
    | nil => simp [reprEntries, entryText, Text.joinWith]
    | cons e' entries =>
      rw [List.map_cons, Text.joinWith_cons _ (by simp), ← ih, reprEntries]
      · simp [entryText]
      · exact List.cons_ne_nil e' entries

theorem toList_repr_list (elems : List Value) (id : Identity) :
    (list elems id).repr.toList =
      '[' :: Text.joinWith [',', ' '] (elems.map (·.repr.toList)) ++ [']'] := by
  rw [repr, String.toList_append, String.toList_append, toList_reprElems]
  rfl

theorem toList_repr_dict (entries : Dict) (id : Identity) :
    (dict entries id).repr.toList =
      '\x7b' :: Text.joinWith [',', ' '] (entries.map entryText) ++ ['\x7d'] := by
  rw [repr, String.toList_append, String.toList_append, toList_reprEntries]
  rfl

theorem repr_ne_empty (v : Value) : v.repr.toList ≠ [] := by
  cases v with
  | number x => exact Decimal.written_ne_empty x
  | text => simp [repr, Text.quoted]
  | bool b id => cases b <;> simp [repr, toList_boolText]
  | nil => decide
  | list => simp [toList_repr_list]
  | dict => simp [toList_repr_dict]
  | function | builtin => simp [repr]

/-- The first character tells what opens the text of a value. -/
theorem opening_append (hv : v.FunctionFree) (rest : List Char) :
    (v.repr.toList ++ rest).head?.filter (· ∈ Text.openings) = v.opening? := by
  have hword (h : v.opening? = none) :
      (v.repr.toList ++ rest).head?.filter (· ∈ Text.openings) = none := by
    obtain ⟨c, cs, hcs⟩ := List.exists_cons_of_ne_nil (repr_ne_empty v)
    have hc : c ∉ Text.openings := (mem_word hv h (by simp [hcs])).2
    rw [hcs, List.cons_append, List.head?_cons, Option.filter_some, if_neg (by simpa using hc)]
  cases v with
  | number | bool | nil => exact hword rfl
  | text => simp [repr, Text.quoted, opening?, Text.openings]
  | list => simp [toList_repr_list, opening?, Text.openings]
  | dict => simp [toList_repr_dict, opening?, Text.openings]
  | function => exact absurd hv not_functionFree_function
  | builtin => exact absurd hv not_functionFree_builtin

/-- No value looks like what can stand behind one. -/
theorem not_stopped_repr (hv : v.FunctionFree) : ¬Text.Stopped v.repr.toList := by
  intro hstopped
  obtain ⟨c, cs, hcs⟩ := List.exists_cons_of_ne_nil (repr_ne_empty v)
  have hstop : c ∈ Text.stops := Text.stopped_cons.mp (hcs ▸ hstopped)
  cases hopening : v.opening? with
  | none => exact (mem_word hv hopening (by simp [hcs])).1 hstop
  | some o =>
    have hfront := opening_append hv []
    rw [List.append_nil, hcs, List.head?_cons, hopening, Option.filter_eq_some_iff,
      Option.some.injEq, decide_eq_true_eq] at hfront
    exact Text.not_mem_stops hfront.2 (hfront.1 ▸ hstop)

/-! ## Reading values one after the other -/

theorem opening_eq (hv : v.FunctionFree) (hw : w.FunctionFree)
    (h : v.repr.toList ++ rest = w.repr.toList ++ rest') : v.opening? = w.opening? := by
  rw [← opening_append hv rest, h, opening_append hw rest']

/-- Values that are no collections are known from the front of a text. -/
theorem alike_of_atom_append (hlist : ∀ elems id, v ≠ list elems id)
    (hdict : ∀ entries id, v ≠ dict entries id) (hv : v.FunctionFree) (hw : w.FunctionFree)
    (hrest : Text.Stopped rest) (hrest' : Text.Stopped rest')
    (h : v.repr.toList ++ rest = w.repr.toList ++ rest') : v.Alike w ∧ rest = rest' := by
  have hopening := opening_eq hv hw h
  cases hword : v.opening? with
  | none =>
    -- What follows starts with a character that words do not have.
    have hword' : w.opening? = none := hopening ▸ hword
    obtain ⟨htext, hbehind⟩ := Text.word_append_inj (fun c hc => (mem_word hv hword hc).1)
      (fun c hc => (mem_word hw hword' hc).1) hrest hrest' h
    exact ⟨alike_of_word hv hw hword hword' (String.toList_inj.mp htext), hbehind⟩
  | some c =>
    -- Only texts are opened and no collections.
    cases v with
    | text s i =>
      cases w with
      | text t j =>
        obtain ⟨rfl, hbehind⟩ := Text.quoted_append_inj h
        exact ⟨.text, hbehind⟩
      | _ => simp [opening?] at hopening
    | list => exact absurd rfl (hlist _ _)
    | dict => exact absurd rfl (hdict _ _)
    | _ => cases hword

theorem keyRepr_eq (k : Key) : keyRepr k = k.value.repr := by cases k <;> rfl

/-- Keys are known from the front of a text. -/
theorem id_of_key_append {k l : Key} (hrest : Text.Stopped rest) (hrest' : Text.Stopped rest')
    (h : (keyRepr k).toList ++ rest = (keyRepr l).toList ++ rest') :
    k.id = l.id ∧ rest = rest' := by
  rw [keyRepr_eq, keyRepr_eq] at h
  obtain ⟨halike, hbehind⟩ := alike_of_atom_append (by cases k <;> nofun) (by cases k <;> nofun)
    (functionFree_key k) (functionFree_key l) hrest hrest' h
  refine ⟨?_, hbehind⟩
  cases k <;> cases l <;> cases halike <;> rfl

/-- Entries are known from the front of a text if their values are. -/
theorem entry_append_inj {a b : Key × Value}
    (hvalue : ∀ rest rest', Text.Stopped rest → Text.Stopped rest' →
      a.2.repr.toList ++ rest = b.2.repr.toList ++ rest' → a.2.Alike b.2 ∧ rest = rest')
    (hrest : Text.Stopped rest) (hrest' : Text.Stopped rest')
    (h : entryText a ++ rest = entryText b ++ rest') :
    (a.1.id = b.1.id ∧ a.2.Alike b.2) ∧ rest = rest' := by
  have hcolon (cs : List Char) : Text.Stopped (':' :: cs) := Text.stopped_cons.mpr (by decide)
  simp only [entryText, List.append_assoc, List.cons_append, List.nil_append] at h
  obtain ⟨hid, hbehind⟩ := id_of_key_append (hcolon _) (hcolon _) h
  simp only [List.cons.injEq, true_and] at hbehind
  obtain ⟨halike, hbehind⟩ := hvalue rest rest' hrest hrest' hbehind
  exact ⟨⟨hid, halike⟩, hbehind⟩

theorem not_stopped_entryText (e : Key × Value) : ¬Text.Stopped (entryText e) := fun h => by
  have hkey : Text.Stopped (keyRepr e.1).toList := h.of_append.of_append
  exact not_stopped_repr (functionFree_key e.1) (keyRepr_eq e.1 ▸ hkey)

theorem alike_dict_iff {d e : Dict} {i j : Identity} :
    (dict d i).Alike (dict e j) ↔
      List.Forall₂ (fun a b => a.1.id = b.1.id ∧ a.2.Alike b.2) d e := by
  have hsplit : List.Forall₂ (fun a b => a.1.id = b.1.id ∧ a.2.Alike b.2) d e ↔
      d.map (·.1.id) = e.map (·.1.id) ∧ List.Forall₂ Alike (d.map (·.2)) (e.map (·.2)) := by
    induction d generalizing e with
    | nil => cases e <;> simp
    | cons a d ih => cases e <;> simp [ih, and_and_and_comm]
  rw [hsplit]
  refine ⟨fun h => ?_, fun ⟨hids, hvalues⟩ => .dict hids hvalues⟩
  cases h with
  | dict hids hvalues => exact ⟨hids, hvalues⟩

/-- A value is known from the front of a text in which it stands. -/
theorem alike_of_repr_append (hv : v.FunctionFree) (hw : w.FunctionFree)
    (hrest : Text.Stopped rest) (hrest' : Text.Stopped rest')
    (h : v.repr.toList ++ rest = w.repr.toList ++ rest') : v.Alike w ∧ rest = rest' := by
  induction v generalizing w rest rest' with
  | list xs i ih =>
    have hopening := opening_eq hv hw h
    cases w with
    | list ys j =>
      rw [functionFree_list] at hv hw
      rw [toList_repr_list, toList_repr_list] at h
      simp only [List.cons_append, List.append_assoc, List.nil_append, List.cons.injEq,
        true_and] at h
      obtain ⟨hall, hbehind⟩ := Text.sequence_append_inj (by decide) (by decide)
        (fun x hx => not_stopped_repr (hv x hx)) (fun y hy => not_stopped_repr (hw y hy))
        (fun x hx y hy _ _ => ih x hx (hv x hx) (hw y hy)) h
      exact ⟨.list hall, hbehind⟩
    | _ => simp [opening?] at hopening
  | dict d i ih =>
    have hopening := opening_eq hv hw h
    cases w with
    | dict e j =>
      rw [functionFree_dict] at hv hw
      rw [toList_repr_dict, toList_repr_dict] at h
      simp only [List.cons_append, List.append_assoc, List.nil_append, List.cons.injEq,
        true_and] at h
      obtain ⟨hall, hbehind⟩ := Text.sequence_append_inj (by decide) (by decide)
        (fun a _ => not_stopped_entryText a) (fun b _ => not_stopped_entryText b)
        (fun a ha b hb _ _ => entry_append_inj fun _ _ => ih a ha (hv a ha) (hw b hb)) h
      exact ⟨alike_dict_iff.mpr hall, hbehind⟩
    | _ => simp [opening?] at hopening
  | number | text | bool | nil | function | builtin =>
    exact alike_of_atom_append nofun nofun hv hw hrest hrest' h

/-! ## Values that say the same -/

theorem keyRepr_of_id {k l : Key} (h : k.id = l.id) : keyRepr k = keyRepr l := by
  have hfiled : k.filed = l.filed := Key.filed_inj.mpr h
  cases k <;> cases l <;>
    simp_all [Key.filed, Key.value, kind, inspect, keyRepr]

/-- A function that does not tell apart what is related has the same values on related lists. -/
theorem map_eq_of_forall₂ {α β : Type} {R : α → α → Prop} {f : α → β} {xs ys : List α}
    (h : List.Forall₂ R xs ys) (hf : ∀ x ∈ xs, ∀ y, R x y → f x = f y) : xs.map f = ys.map f := by
  induction h with
  | nil => rfl
  | cons hxy _ ih =>
    rw [List.map_cons, List.map_cons, hf _ (by simp) _ hxy,
      ih fun x hx => hf x (List.mem_cons_of_mem _ hx)]

theorem Alike.repr_eq (h : v.Alike w) : v.repr = w.repr := by
  rw [← String.toList_inj]
  induction v generalizing w with
  | list xs i ih =>
    cases h with
    | list hall => rw [toList_repr_list, toList_repr_list, map_eq_of_forall₂ hall ih]
  | dict d i ih =>
    cases h with
    | dict hids hvalues =>
      have hall := alike_dict_iff.mp (.dict (i := i) (j := i) hids hvalues)
      have hentry : ∀ a ∈ d, ∀ b : Key × Value, a.1.id = b.1.id ∧ a.2.Alike b.2 →
          entryText a = entryText b := fun a ha b ⟨hid, halike⟩ => by
        rw [entryText, entryText, keyRepr_of_id hid, ih a ha halike]
      rw [toList_repr_dict, toList_repr_dict, map_eq_of_forall₂ hall hentry]
  | _ => cases h <;> rfl

/-- Values without functions have the same text if and only if they say the same: they are of the
same kind and hold the same number, text or truth value, lists agree element by element, and
dictionaries entry by entry in order. -/
theorem repr_eq_iff (hv : v.FunctionFree) (hw : w.FunctionFree) : v.repr = w.repr ↔ v.Alike w := by
  refine ⟨fun h => ?_, Alike.repr_eq⟩
  have happend : v.repr.toList ++ [] = w.repr.toList ++ [] := by rw [h]
  exact (alike_of_repr_append hv hw Text.stopped_nil Text.stopped_nil happend).1

/-- One text that looks like two, and the two: their lists differ, and so do the texts of these. -/
theorem lists_told_apart :
    let one := list [text "a\", \"b" .fresh] .fresh
    let two := list [text "a" .fresh, text "b" .fresh] .fresh
    one.FunctionFree ∧ two.FunctionFree ∧ ¬one.Alike two ∧ one.repr ≠ two.repr := by
  intro one two
  have htext (s : String) : (text s .fresh).FunctionFree := functionFree_key (.text s .fresh)
  have hone : one.FunctionFree := by simp [one, htext]
  have htwo : two.FunctionFree := by simp [two, htext]
  have hnot : ¬one.Alike two := by
    intro halike
    simp only [one, two] at halike
    cases halike with
    | list hall =>
      have hlength := hall.length_eq
      cases hlength
  exact ⟨hone, htwo, hnot, fun h => hnot ((repr_eq_iff hone htwo).mp h)⟩

end Value

end TreeLang
