import Mathlib
import TreeLang.Proofs.Host.RoundTrip
import TreeLang.Proofs.Value.KeyText

/-!
# Maps whose entries come in any order

A map of the host is converted entry by entry, in an order that differs from one time to the next,
and the converted entries enter the dictionary in the order of their keys' texts. Sorting leaves
entries whose keys have the same text in the order in which they came, so the first of them gives
the dictionary its key and the last one its value; and of the entries that cannot be converted the
first one says why. Hence the dictionary, or the reason why there is none, does not depend on the
order exactly if all failures are the same and entries with the same text are the same.

Main statement: `toValue_map_perm_iff`.
-/

namespace TreeLang

/-! ## Finding keys -/

namespace Dict

/-- The first key with a property that same keys share is the first one that was set with it. -/
theorem find?_keys_merge {p : Key → Bool} (hp : ∀ k l : Key, k.id = l.id → p k = p l) (a b : Dict) :
    (keys (merge a b)).find? p = ((keys a).find? p).or ((keys b).find? p) := by
  induction b generalizing a with
  | nil => simp [keys]
  | cons e b ih =>
    have hcons : keys (e :: b) = e.1 :: keys b := rfl
    rw [merge_cons, ih, keys_set, hcons]
    split
    · next hhas =>
      obtain ⟨l, hl, hid⟩ := has_iff.mp hhas
      cases hpe : p e.1 with
      | false => rw [List.find?_cons_of_neg (by simp [hpe])]
      | true =>
        -- A key that is the same is there before it.
        have hsome : ((keys a).find? p).isSome := by
          rw [List.find?_isSome]
          exact ⟨l, hl, by rw [hp l e.1 hid, hpe]⟩
        obtain ⟨k, hk⟩ := Option.isSome_iff_exists.mp hsome
        rw [hk, Option.some_or, Option.some_or]
    · rw [List.find?_append, Option.or_assoc]
      cases hpe : p e.1 <;> simp [hpe]

end Dict

namespace HostValue

/-! ## Sorting by text -/

section Sorting

variable {α β : Type} {text : α → String}

/-- A list in the order of the texts of its members. -/
def sortByText (text : α → String) (xs : List α) : List α :=
  xs.mergeSort fun a b => !(text b < text a)

theorem sortByText_perm (xs : List α) : (sortByText text xs).Perm xs := List.mergeSort_perm ..

theorem byText_trans (a b c : α) (hab : (!decide (text b < text a)) = true)
    (hbc : (!decide (text c < text b)) = true) : (!decide (text c < text a)) = true := by
  simp only [Bool.not_eq_true', decide_eq_false_iff_not, not_lt] at *
  exact hab.trans hbc

theorem byText_total (a b : α) :
    (!decide (text b < text a) || !decide (text a < text b)) = true := by
  simp only [Bool.or_eq_true, Bool.not_eq_true', decide_eq_false_iff_not, not_lt]
  exact le_total ..

theorem sortByText_pairwise (xs : List α) :
    (sortByText text xs).Pairwise fun a b => text a ≤ text b := by
  have hle : (sortByText text xs).Pairwise fun a b => (!decide (text b < text a)) = true :=
    List.pairwise_mergeSort byText_trans byText_total xs
  simp only [Bool.not_eq_true', decide_eq_false_iff_not, not_lt] at hle
  exact hle

/-- Members with the same text stay in the order in which they came. -/
theorem filter_sortByText (r : String) (xs : List α) :
    (sortByText text xs).filter (text · = r) = xs.filter (text · = r) := by
  have hpairwise : (xs.filter (text · = r)).Pairwise
      fun a b => (!decide (text b < text a)) = true := by
    refine List.pairwise_of_forall_mem_list fun a ha b hb => ?_
    rw [List.mem_filter, decide_eq_true_eq] at ha hb
    simp [ha.2, hb.2]
  have hsub : (xs.filter (text · = r)).Sublist (sortByText text xs) :=
    List.sublist_mergeSort byText_trans byText_total hpairwise List.filter_sublist
  have hsub' := hsub.filter (text · = r)
  rw [List.filter_filter] at hsub'
  simp only [Bool.and_self] at hsub'
  exact (hsub'.eq_of_length ((sortByText_perm xs).filter _).length_eq.symm).symm

theorem sortByText_map (f : β → α) (xs : List β) :
    sortByText text (xs.map f) = (sortByText (fun b => text (f b)) xs).map f := by
  refine (List.map_mergeSort (f := f) fun a _ b _ => ?_).symm
  rfl

/-- If members with the same text are the same, the order in which they came is lost. -/
theorem sortByText_of_perm {xs ys : List α} (h : xs.Perm ys)
    (hsame : ∀ a ∈ xs, ∀ b ∈ xs, text a = text b → a = b) :
    sortByText text xs = sortByText text ys := by
  refine List.Perm.eq_of_pairwise (fun a b ha hb hab hba => ?_) (sortByText_pairwise xs)
    (sortByText_pairwise ys) (((sortByText_perm xs).trans h).trans (sortByText_perm ys).symm)
  refine hsame a ((sortByText_perm xs).mem_iff.mp ha) b ?_ (le_antisymm hab hba)
  exact h.mem_iff.mpr ((sortByText_perm ys).mem_iff.mp hb)

end Sorting

/-! ## Dictionaries from sorted entries -/

theorem dictOf_eq (xs : List (Value × Value)) :
    dictOf xs = (sortByText (·.1.repr) xs).foldlM setEntry [] := rfl

theorem plainEntry_of_keyed {x : Value × Value} {e : Key × Value} (h : keyed x = some e) :
    x = plainEntry e := by
  obtain ⟨key, hkey, rfl⟩ := Option.map_eq_some_iff.mp h
  rcases x with ⟨v, w⟩
  cases v <;> cases hkey <;> rfl

theorem setEntry_plainEntry (d : Dict) (e : Key × Value) :
    setEntry d (plainEntry e) = .ok (Dict.set e.1 e.2 d) := by
  rcases e with ⟨k, v⟩
  cases k <;> rfl

/-- Entries with proper keys are set in the order of their keys' texts. -/
theorem dictOf_plain (es : List (Key × Value)) :
    dictOf (es.map plainEntry) = .ok (Dict.ofEntries (sortByText (·.1.value.repr) es)) := by
  have hfold (l : List (Key × Value)) (d : Dict) :
      (l.map plainEntry).foldlM setEntry d = .ok (Dict.merge d l) := by
    induction l generalizing d with
    | nil => rfl
    | cons e l ih =>
      rw [List.map_cons, List.foldlM_cons, setEntry_plainEntry]
      exact ih _
  rw [dictOf_eq, sortByText_map]
  exact hfold _ _

/-- The first key that cannot be one is the reason why there is no dictionary. -/
theorem foldlM_setEntry_error {l : List (Value × Value)} {x : Value × Value}
    (h : l.find? (fun x => (keyed x).isNone) = some x) (d : Dict) :
    l.foldlM setEntry d = .error (.badKey x.1.repr) := by
  induction l generalizing d with
  | nil => cases h
  | cons y l ih =>
    rw [List.foldlM_cons]
    cases hy : Key.ofValue? y.1 with
    | none =>
      rw [List.find?_cons_of_pos (by simp [keyed, hy])] at h
      cases h
      rw [setEntry, hy]
      rfl
    | some key =>
      rw [List.find?_cons_of_neg (by simp [keyed, hy])] at h
      rw [setEntry, hy]
      exact ih h _

/-- Of the keys that cannot be one the least text is named, in whatever order the entries come. -/
theorem dictOf_error_of_perm {xs ys : List (Value × Value)} (h : xs.Perm ys)
    (hbad : ∃ x ∈ xs, keyed x = none) : dictOf xs = dictOf ys := by
  let bad (l : List (Value × Value)) : List String :=
    ((sortByText (·.1.repr) l).filter fun x => (keyed x).isNone).map (·.1.repr)
  have hsame : bad xs = bad ys := by
    refine List.Perm.eq_of_pairwise (fun a b _ _ => le_antisymm) ?_ ?_ ?_
    · exact List.pairwise_map.mpr ((sortByText_pairwise xs).filter _)
    · exact List.pairwise_map.mpr ((sortByText_pairwise ys).filter _)
    · exact (((sortByText_perm xs).trans (h.trans (sortByText_perm ys).symm)).filter _).map _
  have herror (l : List (Value × Value)) (hl : ∃ x ∈ l, keyed x = none) :
      ∃ r, (bad l).head? = some r ∧ dictOf l = .error (.badKey r) := by
    obtain ⟨x, hx, hnone⟩ := hl
    have hfound : ((sortByText (·.1.repr) l).find? fun x => (keyed x).isNone).isSome := by
      rw [List.find?_isSome]
      exact ⟨x, (sortByText_perm l).mem_iff.mpr hx, by simp [hnone]⟩
    obtain ⟨y, hy⟩ := Option.isSome_iff_exists.mp hfound
    refine ⟨y.1.repr, ?_, foldlM_setEntry_error hy []⟩
    rw [List.head?_map, List.head?_filter, hy]
    rfl
  obtain ⟨r, hr, hx⟩ := herror xs hbad
  obtain ⟨r', hr', hy⟩ := herror ys (by simpa only [h.mem_iff] using hbad)
  rw [hsame, hr'] at hr
  cases hr
  rw [hx, hy]

/-! ## The first and the last entry with a text -/

/-- The text of a key that is the same is the same. -/
theorem repr_eq_of_id {k l : Key} (h : k.id = l.id) : k.value.repr = l.value.repr := by
  cases k <;> cases l
  case number.number x i y j =>
    rw [Key.value, Key.value, Key.id_number.mp h]
    simp [Value.repr]
  case text.text => rw [KeyId.text.inj h, Key.value, Key.value, Value.repr, Value.repr]
  case bool.bool => rw [KeyId.bool.inj h, Key.value, Key.value, Value.repr, Value.repr]
  all_goals cases h

section Places

variable (e : Key × Value) (es : List (Key × Value))

/-- The dictionary that entries make, whichever order they come in. -/
def sortedDict (es : List (Key × Value)) : Dict := Dict.ofEntries (sortByText (·.1.value.repr) es)

/-- The entry that comes first gives the dictionary its key. -/
theorem sortedDict_first :
    (Dict.keys (sortedDict (e :: es))).find? (·.value.repr = e.1.value.repr) = some e.1 := by
  have hfirst : (sortByText (·.1.value.repr) (e :: es)).find?
      (·.1.value.repr = e.1.value.repr) = some e := by
    rw [← List.head?_filter, filter_sortByText, List.filter_cons_of_pos (by simp)]
    rfl
  have hkey : (Dict.keys (sortByText (·.1.value.repr) (e :: es))).find?
      (·.value.repr = e.1.value.repr) = some e.1 := by
    rw [Dict.keys, List.find?_map, Function.comp_def, hfirst]
    rfl
  rw [sortedDict, Dict.ofEntries, Dict.find?_keys_merge fun k l h => by rw [repr_eq_of_id h], hkey]
  rfl

/-- The entry that comes last gives it the value. -/
theorem sortedDict_last : Dict.get? e.1 (sortedDict (es ++ [e])) = some e.2 := by
  let sorted := sortByText (·.1.value.repr) (es ++ [e])
  have hlast : sorted.reverse.filter (·.1.value.repr = e.1.value.repr) =
      e :: (es.filter (·.1.value.repr = e.1.value.repr)).reverse := by
    rw [List.filter_reverse, filter_sortByText, List.filter_append,
      List.filter_cons_of_pos (by simp)]
    simp
  have hfound : sorted.reverse.find? (·.1.id = e.1.id) = some e := by
    have hboth : (fun a : Key × Value => decide (a.1.id = e.1.id)) =
        fun a => decide (decide (a.1.value.repr = e.1.value.repr) = true ∧
          decide (a.1.id = e.1.id) = true) := by
      funext a
      rw [decide_eq_decide, decide_eq_true_eq, decide_eq_true_eq]
      exact ⟨fun h => ⟨repr_eq_of_id h, h⟩, fun h => h.2⟩
    rw [hboth, ← List.find?_filter, hlast, List.find?_cons_of_pos (by simp)]
  rw [sortedDict, Dict.ofEntries, Dict.get?_merge_find?, hfound]
  rfl

end Places

/-! ## Maps -/

/-- What an entry of a map is converted to. -/
def convertEntry (e : HostValue × HostValue) : Except Unconvertible (Value × Value) := do
  let key ← e.1.toValue.mapError .mapKey
  let elem ← e.2.toValue.mapError .mapElem
  pure (key, elem)

theorem toEntries_eq_mapM (es : List (HostValue × HostValue)) :
    toEntries es = es.mapM convertEntry := by
  induction es with
  | nil => rfl
  | cons e es ih =>
    rw [toEntries, List.mapM_cons, ih, convertEntry]
    simp only [bind_assoc, pure_bind]

variable (k t : HostType) {es : List (HostValue × HostValue)}

theorem toValue_map_eq (es : List (HostValue × HostValue)) :
    (map k t es).toValue =
      es.mapM convertEntry >>= fun xs => dictOf xs >>= fun d => pure (.dict d .fresh) := by
  rw [toValue, toEntries_eq_mapM]

theorem toValue_map_error {why : Unconvertible} (h : es.mapM convertEntry = .error why) :
    (map k t es).toValue = .error why := by
  rw [toValue_map_eq, h]
  rfl

theorem toValue_map_plain {g : HostValue × HostValue → Key × Value}
    (h : ∀ e ∈ es, convertEntry e = .ok (plainEntry (g e))) :
    (map k t es).toValue = .ok (.dict (sortedDict (es.map g)) .fresh) := by
  have hall : es.mapM convertEntry = .ok ((es.map g).map plainEntry) := by
    rw [mapM_eq_map h, List.map_map]
    rfl
  rw [toValue_map_eq, hall]
  change dictOf _ >>= _ = _
  rw [dictOf_plain]
  rfl

/-- All failures of entries are the same. -/
def FailAlike (es : List (HostValue × HostValue)) : Prop :=
  ∀ e ∈ es, ∀ e' ∈ es, ∀ why why', convertEntry e = .error why → convertEntry e' = .error why' →
    why = why'

/-- All entries are converted, and to keys. -/
def AllKeyed (es : List (HostValue × HostValue)) : Prop :=
  ∀ e ∈ es, ∃ x, convertEntry e = .ok (plainEntry x)

/-- Entries whose keys become the same text become the same. -/
def TextsTell (es : List (HostValue × HostValue)) : Prop :=
  ∀ e ∈ es, ∀ e' ∈ es, ∀ x x', convertEntry e = .ok x → convertEntry e' = .ok x' →
    x.1.repr = x'.1.repr → x = x'

/-- Entries that are all converted make the same dictionary in any order, or none for the same
reason. -/
theorem dictOf_map_perm {l : List (HostValue × HostValue)}
    {g : HostValue × HostValue → Value × Value} (hg : ∀ e ∈ es, convertEntry e = .ok (g e))
    (htell : AllKeyed es → TextsTell es) (hl : l.Perm es) :
    dictOf (l.map g) = dictOf (es.map g) := by
  by_cases hbad : ∃ x ∈ l.map g, keyed x = none
  · exact dictOf_error_of_perm (hl.map g) hbad
  · have hkeyed : AllKeyed es := by
      intro e he
      have hsome : keyed (g e) ≠ none := fun h =>
        hbad ⟨g e, List.mem_map_of_mem (hl.mem_iff.mpr he), h⟩
      obtain ⟨x, hx⟩ := Option.ne_none_iff_exists'.mp hsome
      exact ⟨x, by rw [hg e he, plainEntry_of_keyed hx]⟩
    rw [dictOf_eq, dictOf_eq, sortByText_of_perm (hl.map g)]
    intro a ha b hb hab
    obtain ⟨e, he, rfl⟩ := List.mem_map.mp ha
    obtain ⟨e', he', rfl⟩ := List.mem_map.mp hb
    rw [hl.mem_iff] at he he'
    exact htell hkeyed e he e' he' _ _ (hg e he) (hg e' he') hab

/-- Entries that agree in this way are converted alike in any order. -/
theorem toValue_map_perm {l : List (HostValue × HostValue)} (hfail : FailAlike es)
    (htell : AllKeyed es → TextsTell es) (hl : l.Perm es) :
    (map k t l).toValue = (map k t es).toValue := by
  by_cases hconv : ∃ e ∈ es, ∃ why, convertEntry e = .error why
  · -- Whichever entry fails first, it is for the same reason.
    obtain ⟨e, he, why, hwhy⟩ := hconv
    obtain ⟨a, ha, why₁, hfirst, hes⟩ := mapM_error_of_mem he hwhy
    obtain ⟨b, hb, why₂, hfirst', hl'⟩ := mapM_error_of_mem (hl.mem_iff.mpr he) hwhy
    have hsame : why₁ = why₂ := hfail a ha b (hl.mem_iff.mp hb) _ _ hfirst hfirst'
    rw [toValue_map_error k t hes, toValue_map_error k t hl', hsame]
  · have hok : ∀ e ∈ es, ∃ x, convertEntry e = .ok x := by
      intro e he
      cases hx : convertEntry e with
      | error why => exact absurd ⟨e, he, why, hx⟩ hconv
      | ok x => exact ⟨x, rfl⟩
    choose! g hg using hok
    rw [toValue_map_eq, toValue_map_eq, mapM_eq_map hg,
      mapM_eq_map fun e he => hg e (hl.mem_iff.mp he)]
    change dictOf _ >>= _ = dictOf _ >>= _
    rw [dictOf_map_perm hg htell hl]

/-- Each entry comes first in some order, and last in another one. -/
theorem exists_ends {e : HostValue × HostValue} (he : e ∈ es) :
    ∃ rest, (e :: rest).Perm es ∧ (rest ++ [e]).Perm es := by
  obtain ⟨s, r, rfl⟩ := List.append_of_mem he
  refine ⟨s ++ r, List.perm_middle.symm, ?_⟩
  exact (List.perm_append_singleton ..).trans List.perm_middle.symm

section Orders

variable {k t}
  (h : ∀ l l', l.Perm es → l'.Perm es → (map k t l).toValue = (map k t l').toValue)

include h

/-- The entry that comes first says why a map cannot be converted. -/
theorem failAlike_of_perm : FailAlike es := by
  intro e he e' he' why why' hwhy hwhy'
  obtain ⟨rest, hfirst, -⟩ := exists_ends he
  obtain ⟨rest', hfirst', -⟩ := exists_ends he'
  have hsame := h _ _ hfirst hfirst'
  rw [toValue_map_error k t (mapM_cons_error hwhy rest),
    toValue_map_error k t (mapM_cons_error hwhy' rest')] at hsame
  exact Except.error.inj hsame

/-- Of the entries with a text the dictionary has the key of the first and the value of the last. -/
theorem textsTell_of_perm (hkeyed : AllKeyed es) : TextsTell es := by
  intro e he e' he' x x' hx hx' htext
  choose! g hg using hkeyed
  obtain rfl : plainEntry (g e) = x := Except.ok.inj ((hg e he).symm.trans hx)
  obtain rfl : plainEntry (g e') = x' := Except.ok.inj ((hg e' he').symm.trans hx')
  have htext' : (g e).1.value.repr = (g e').1.value.repr := htext
  have hdict (l l' : List (HostValue × HostValue)) (hl : l.Perm es) (hl' : l'.Perm es) :
      sortedDict (l.map g) = sortedDict (l'.map g) := by
    have hsame := h l l' hl hl'
    rw [toValue_map_plain k t fun e he => hg e (hl.mem_iff.mp he),
      toValue_map_plain k t fun e he => hg e (hl'.mem_iff.mp he)] at hsame
    simpa using hsame
  obtain ⟨rest, hfirst, hlast⟩ := exists_ends he
  obtain ⟨rest', hfirst', hlast'⟩ := exists_ends he'
  have hkey : (g e).1 = (g e').1 := by
    have hone := sortedDict_first (g e) (rest.map g)
    have htwo := sortedDict_first (g e') (rest'.map g)
    rw [← List.map_cons, hdict _ _ hfirst hfirst'] at hone
    rw [← List.map_cons, ← htext', hone] at htwo
    exact Option.some.inj htwo
  have hvalue : (g e).2 = (g e').2 := by
    have hone := sortedDict_last (g e) (rest.map g)
    have htwo := sortedDict_last (g e') (rest'.map g)
    rw [← List.map_singleton, ← List.map_append, hdict _ _ hlast hlast'] at hone
    rw [← List.map_singleton, ← List.map_append, ← hkey, hone] at htwo
    exact Option.some.inj htwo
  rw [Prod.ext hkey hvalue]

end Orders

/-- A map is converted alike in any two orders of its entries exactly if all its failures are the
same and, where none fails and all keys can be ones, entries with keys of the same text are the
same. -/
theorem toValue_map_perm_iff (es : List (HostValue × HostValue)) :
    (∀ l l', l.Perm es → l'.Perm es → (map k t l).toValue = (map k t l').toValue) ↔
      FailAlike es ∧ (AllKeyed es → TextsTell es) := by
  constructor
  · intro h
    exact ⟨failAlike_of_perm h, textsTell_of_perm h⟩
  · rintro ⟨hfail, htell⟩ l l' hl hl'
    rw [toValue_map_perm k t hfail htell hl, toValue_map_perm k t hfail htell hl']

theorem convertEntry_int (i j : IntKind) (n m : Int) :
    convertEntry (.int i n, .int j m) =
      .ok (plainEntry (.number (Float.ofInt n) .fresh, .number (Float.ofInt m) .fresh)) := by
  simp only [convertEntry, toValue, Except.mapError, plainEntry, Key.value]
  rfl

/-- Two neighbouring integers become the same number, and its value is that of the one that comes
last. -/
theorem not_toValue_map_perm :
    ¬∀ (k t : HostType) (es : List (HostValue × HostValue)),
      (es.Pairwise fun e e' => sameKey e.1 e'.1 = false) →
      ∀ l l', l.Perm es → l'.Perm es → (map k t l).toValue = (map k t l').toValue := by
  intro h
  let kind : IntKind := ⟨true, some 64⟩
  have hone := convertEntry_int kind kind 9007199254740992 1
  have htwo := convertEntry_int kind kind 9007199254740993 2
  have hround : Float.ofInt 9007199254740993 = Float.ofInt 9007199254740992 := by
    rw [← Float.toBits_inj]
    decide +kernel
  rw [hround] at htwo
  let es : List (HostValue × HostValue) :=
    [(.int kind 9007199254740992, .int kind 1), (.int kind 9007199254740993, .int kind 2)]
  have hkeyed : AllKeyed es := by
    simp only [AllKeyed, es, List.forall_mem_cons]
    exact ⟨⟨_, hone⟩, ⟨_, htwo⟩, nofun⟩
  have htells : TextsTell es := textsTell_of_perm (h (.int kind) (.int kind) es (by decide)) hkeyed
  have hsame := htells _ (by simp [es]) _ (by simp [es]) _ _ hone htwo (by simp only [plainEntry])
  have hvalue : Float.ofInt 1 = Float.ofInt 2 := by simpa [plainEntry] using hsame
  exact absurd hvalue (by rw [← Float.toBits_inj]; decide +kernel)

end HostValue

end TreeLang
