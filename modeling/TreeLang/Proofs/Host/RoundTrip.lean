import Mathlib
import TreeLang.Host.Convert
import TreeLang.Proofs.Except
import TreeLang.Proofs.Value.Keys

/-!
# Values through the host and back

A value that goes out to the host without a type of its own comes back as an equal value. On the way
a list becomes a slice and a dictionary a map, whose entries are put in another order when they come
back. The host tells the keys of a map apart as the language does, but for the two zeros; and a
number comes back equal unless it is NaN.

Main statement: `roundTrip`.
-/

namespace TreeLang

/-! ## Keys -/

namespace Key

/-- The key as a value of the host that no type was asked for. -/
def toHost : Key → HostValue
  | .number x _ => .float64 x
  | .text s _ => .text s
  | .bool b _ => .bool b

/-- The key as a new object. -/
def renew : Key → Key
  | .number x _ => .number x .fresh
  | .text s _ => .text s .fresh
  | .bool b _ => .bool b .fresh

@[simp] theorem id_renew (k : Key) : k.renew.id = k.id := by cases k <;> rfl

theorem toValue_toHost (k : Key) : k.toHost.toValue = .ok k.renew.value := by
  cases k <;> simp [toHost, HostValue.toValue, renew, value]

/-- The key is one of the two zeros. -/
def IsZero (k : Key) : Prop :=
  k.id = .number (0.0 : Float).toBits ∨ k.id = .number (-0.0 : Float).toBits

/-- Keys that are the same to the host are the same, or the two zeros. -/
theorem id_eq_of_sameKey {k l : Key} (h : HostValue.sameKey k.toHost l.toHost = true) :
    k.id = l.id ∨ k.IsZero ∧ l.IsZero := by
  cases k <;> cases l <;> simp only [toHost, HostValue.sameKey, Bool.false_eq_true] at h
  case number.number x i y j =>
    obtain ⟨-, -, rfl | ⟨rfl, rfl⟩ | ⟨rfl, rfl⟩⟩ := Float.beq_iff_ne_nan_and_eq.mp h
    · exact .inl rfl
    · exact .inr ⟨.inl rfl, .inr rfl⟩
    · exact .inr ⟨.inr rfl, .inl rfl⟩
  case text.text s i t j => exact .inl (congrArg KeyId.text (eq_of_beq h))
  case bool.bool a i b j => exact .inl (congrArg KeyId.bool (eq_of_beq h))

end Key

namespace Dict

/-- To the host the keys of a dictionary differ from one another, unless it has both zeros. -/
theorem sameKey_of_distinct {d : Dict} (hd : Distinct d) (hz : ¬ HasBothZeros d) :
    d.Pairwise fun e e' => HostValue.sameKey e.1.toHost e'.1.toHost = false := by
  refine List.Pairwise.imp_of_mem (fun {e e'} he he' hne => ?_) hd
  rw [Bool.eq_false_iff]
  intro h
  rcases Key.id_eq_of_sameKey h with hid | ⟨hid | hid, hid' | hid'⟩
  · exact hne hid
  · exact hne (hid.trans hid'.symm)
  · exact hz ⟨⟨e, he, hid⟩, e', he', hid'⟩
  · exact hz ⟨⟨e', he', hid'⟩, e, he, hid⟩
  · exact hne (hid.trans hid'.symm)

end Dict

/-! ## Dictionaries from entries -/

namespace HostValue

/-- The entry with its key as a value. -/
def plainEntry (e : Key × Value) : Value × Value := (e.1.value, e.2)

/-- The entry of a dictionary, if the key can be one. -/
def keyed (x : Value × Value) : Option (Key × Value) := (Key.ofValue? x.1).map (·, x.2)

@[simp] theorem keyed_plainEntry (e : Key × Value) : keyed (plainEntry e) = some e := by
  simp [keyed, plainEntry]

/-- The dictionary with an entry more, if the key can be one. -/
def setEntry (d : Dict) (x : Value × Value) : Except Unconvertible Dict :=
  match Key.ofValue? x.1 with
  | some key => .ok (Dict.set key x.2 d)
  | none => .error (.badKey x.1.repr)

theorem foldlM_setEntry {l : List (Value × Value)} (d : Dict) (hl : ∀ x ∈ l, (keyed x).isSome)
    (hd : Dict.Distinct (d ++ l.filterMap keyed)) :
    l.foldlM setEntry d = .ok (d ++ l.filterMap keyed) := by
  induction l generalizing d with
  | nil => simp [pure, Except.pure]
  | cons x l ih =>
    obtain ⟨e, he⟩ := Option.isSome_iff_exists.mp (hl x (by simp))
    obtain ⟨key, hkey, hkv⟩ := Option.map_eq_some_iff.mp he
    rw [List.filterMap_cons_some he] at hd ⊢
    have hnew : ∀ e' ∈ d, e'.1.id ≠ key.id := by
      intro e' he'
      have := (List.pairwise_append.mp hd).2.2 e' he' e (by simp)
      rwa [← hkv] at this
    have hstep : setEntry d x = .ok (d ++ [e]) := by
      rw [setEntry, hkey, ← hkv]
      exact congrArg Except.ok (Dict.set_of_new hnew)
    rw [List.append_cons] at hd ⊢
    rw [List.foldlM_cons, hstep]
    exact ih _ (fun y hy => hl y (by simp [hy])) hd

/-- Entries whose keys differ form a dictionary that has them in some order. -/
theorem dictOf_perm {es : List (Key × Value)} (h : Dict.Distinct es) :
    ∃ d : Dict, dictOf (es.map plainEntry) = .ok d ∧ d.Perm es := by
  let sorted := (es.map plainEntry).mergeSort fun a b => !(b.1.repr < a.1.repr)
  have hsorted : sorted.Perm (es.map plainEntry) := List.mergeSort_perm ..
  have hentries : (sorted.filterMap keyed).Perm es := by
    have := hsorted.filterMap keyed
    simpa [List.filterMap_map, Function.comp_def] using this
  have hkeys : ∀ x ∈ sorted, (keyed x).isSome := by
    intro x hx
    obtain ⟨e, -, rfl⟩ := List.mem_map.mp (hsorted.mem_iff.mp hx)
    simp
  exact ⟨_, foldlM_setEntry [] hkeys (Dict.distinct_of_perm hentries h), hentries⟩

end HostValue

/-! ## Values -/

namespace Value

/-- What comes through the host unharmed: no number in the value is NaN, and no dictionary has a
value under either zero. The keys of a dictionary always differ. -/
inductive Portable : Value → Prop
  | number {x : Float} {id : Identity} : x.isNaN = false → Portable (.number x id)
  | text {s : String} {id : Identity} : Portable (.text s id)
  | bool {b : Bool} {id : Identity} : Portable (.bool b id)
  | nil : Portable .nil
  | list {elems : List Value} {id : Identity} : (∀ v ∈ elems, Portable v) →
      Portable (.list elems id)
  | dict {entries : List (Key × Value)} {id : Identity} : Dict.Distinct entries →
      ¬ Dict.HasBothZeros entries → (∀ e ∈ entries, Portable e.1.value) →
      (∀ e ∈ entries, Portable e.2) → Portable (.dict entries id)
  | function {f : UserFunction} : Portable (.function f)
  | builtin {b : Builtin} : Portable (.builtin b)

/-- The values equal each other, either way round. -/
def Equals (v w : Value) : Prop := v.equal w = true ∧ w.equal v = true

theorem store_any (x : HostValue) : x.store .any = .ok x := by cases x <;> rfl

/-- A place for any value changes nothing for what is stored in it. -/
theorem toHost_none (v : Value) : v.toHost none = v.toHost (some .any) := by
  cases v <;> simp [toHost, isValueTarget, scalarTo, elemTarget?, entryTarget?, isOpen,
    HostType.isInterface]

/-- The value goes out as `x`, which comes back as an equal value. -/
def Returns (v : Value) (x : HostValue) : Prop :=
  v.toHost (some .any) = .ok x ∧ ∃ w, x.toValue = .ok w ∧ v.Equals w

-- What follows goes on to `equal` itself, so the equations of both are made here, at once.
attribute [local simp] equal equalAll in
theorem equalAll_iff {vs ws : List Value} :
    equalAll vs ws = true ↔ List.Forall₂ (fun v w => v.equal w = true) vs ws := by
  induction vs generalizing ws with
  | nil => cases ws <;> simp
  | cons v vs ih => cases ws <;> simp [ih]

/-! ## Lists -/

theorem toItems_returns {vs : List Value} (h : ∀ v ∈ vs, ∃ x, v.Returns x) :
    ∃ xs ws, toItems .any vs = .ok xs ∧ HostValue.toValues xs = .ok ws ∧
      List.Forall₂ Equals vs ws := by
  induction vs with
  | nil => exact ⟨[], [], rfl, rfl, .nil⟩
  | cons v vs ih =>
    obtain ⟨x, hx, w, hw, hvw⟩ := h v (by simp)
    obtain ⟨xs, ws, hxs, hws, hvws⟩ := ih fun u hu => h u (by simp [hu])
    refine ⟨x :: xs, w :: ws, ?_, ?_, .cons hvw hvws⟩
    · simp only [toItems, bind_eq_ok]
      exact ⟨x, hx, x, store_any x, xs, hxs, rfl⟩
    · simp only [HostValue.toValues, bind_eq_ok]
      exact ⟨w, hw, ws, hws, rfl⟩

/-! ## Dictionaries -/

/-- A map for any values has texts as keys or keys of any type, which a dictionary's keys become. -/
theorem entryTarget_any (es : Dict) : ∃ t, entryTarget? es (some .any) = some (t, .any) ∧
    ∀ e ∈ es, keyToHost e.1 t = .ok e.1.toHost ∧ e.1.toHost.store t = .ok e.1.toHost := by
  refine ⟨_, rfl, fun e he => ?_⟩
  split
  · next htexts =>
    have htext := List.all_eq_true.mp htexts e he
    split at htext
    · next hkey =>
      rw [hkey]
      exact ⟨rfl, rfl⟩
    · cases htext
  · exact ⟨by cases e.1 <;> rfl, store_any _⟩

theorem putEntry_of_new {key elem : HostValue} {es : List (HostValue × HostValue)}
    (h : ∀ e ∈ es, HostValue.sameKey e.1 key = false) :
    HostValue.putEntry key elem es = es ++ [(key, elem)] := by
  induction es with
  | nil => rfl
  | cons e es ih =>
    have hne := h e (by simp)
    rw [HostValue.putEntry, if_neg (by simp [hne]), ih fun e' he' => h e' (by simp [he'])]
    rfl

/-- An entry goes out as `x`, which comes back with a new key and an equal value. -/
def EntryReturns (e : Key × Value) (x : HostValue × HostValue) : Prop :=
  x.1 = e.1.toHost ∧ e.2.Returns x.2

theorem toHostEntries_returns {t : HostType} {es : List (Key × Value)}
    (done : List (HostValue × HostValue))
    (hkeys : ∀ e ∈ es, keyToHost e.1 t = .ok e.1.toHost ∧ e.1.toHost.store t = .ok e.1.toHost)
    (hvals : ∀ e ∈ es, ∃ x, e.2.Returns x)
    (hapart : es.Pairwise fun e e' => HostValue.sameKey e.1.toHost e'.1.toHost = false)
    (hnew : ∀ x ∈ done, ∀ e ∈ es, HostValue.sameKey x.1 e.1.toHost = false) :
    ∃ xs, toHostEntries t .any es done = .ok (done ++ xs) ∧ List.Forall₂ EntryReturns es xs := by
  induction es generalizing done with
  | nil => exact ⟨[], by simp [toHostEntries], .nil⟩
  | cons e es ih =>
    obtain ⟨hkey, hstored⟩ := hkeys e (by simp)
    obtain ⟨x, hx⟩ := hvals e (by simp)
    obtain ⟨hhead, htail⟩ := List.pairwise_cons.mp hapart
    have hput : HostValue.putEntry e.1.toHost x done = done ++ [(e.1.toHost, x)] :=
      putEntry_of_new fun y hy => hnew y hy e (by simp)
    have hnew' : ∀ y ∈ done ++ [(e.1.toHost, x)], ∀ e' ∈ es,
        HostValue.sameKey y.1 e'.1.toHost = false := by
      intro y hy e' he'
      rcases List.mem_append.mp hy with hy | hy
      · exact hnew y hy e' (by simp [he'])
      · rw [List.mem_singleton.mp hy]
        exact hhead e' he'
    obtain ⟨xs, hxs, hreturns⟩ := ih _ (fun e' he' => hkeys e' (by simp [he']))
      (fun e' he' => hvals e' (by simp [he'])) htail hnew'
    refine ⟨(e.1.toHost, x) :: xs, ?_, .cons ⟨rfl, hx⟩ hreturns⟩
    simp only [toHostEntries, hkey, hx.1, bind_eq_ok, mapError_eq_ok]
    refine ⟨_, rfl, x, rfl, _, hstored, x, store_any x, ?_⟩
    rw [hput, hxs, List.append_assoc, List.singleton_append]

/-- An entry came back as another: with a new key and an equal value. -/
def Renewed (e e' : Key × Value) : Prop := e'.1 = e.1.renew ∧ e.2.Equals e'.2

theorem toEntries_renewed {es : List (Key × Value)} {xs : List (HostValue × HostValue)}
    (h : List.Forall₂ EntryReturns es xs) :
    ∃ ds, HostValue.toEntries xs = .ok (ds.map HostValue.plainEntry) ∧
      List.Forall₂ Renewed es ds := by
  induction h with
  | nil => exact ⟨[], rfl, .nil⟩
  | @cons e x es xs hx _ ih =>
    obtain ⟨hkey, -, w, hw, hequals⟩ := hx
    obtain ⟨ds, hds, hrenewed⟩ := ih
    refine ⟨(e.1.renew, w) :: ds, ?_, .cons ⟨rfl, hequals⟩ hrenewed⟩
    simp only [HostValue.toEntries, bind_eq_ok, mapError_eq_ok]
    refine ⟨e.1.renew.value, ?_, w, hw, _, hds, rfl⟩
    rw [hkey]
    exact e.1.toValue_toHost

theorem distinct_renewed {es ds : List (Key × Value)} (h : List.Forall₂ Renewed es ds)
    (hes : Dict.Distinct es) : Dict.Distinct ds := by
  induction h with
  | nil => exact .nil
  | @cons e d es ds hd hds ih =>
    obtain ⟨hhead, htail⟩ := List.pairwise_cons.mp hes
    refine List.pairwise_cons.mpr ⟨fun d' hd' => ?_, ih htail⟩
    obtain ⟨e', he', hrenewed⟩ := exists_related hds.flip hd'
    rw [hd.1, hrenewed.1, Key.id_renew, Key.id_renew]
    exact hhead e' he'

/-- Dictionaries with the same keys are equal if the values under them are. -/
theorem dict_equals {es d : Dict} (hes : Dict.Distinct es) (hd : Dict.Distinct d)
    (hlen : es.length = d.length) (hthere : ∀ e ∈ es, ∃ e' ∈ d, Renewed e e')
    (hback : ∀ e' ∈ d, ∃ e ∈ es, Renewed e e') (id id' : Identity) :
    (dict es id).Equals (dict d id') := by
  constructor
  · rw [equal, Bool.and_eq_true, equalEntries_iff]
    refine ⟨by simp [hlen], fun e he => ?_⟩
    obtain ⟨e', he', hkey, hequals, -⟩ := hthere e he
    exact ⟨e'.2, Dict.get?_of_mem hd he' (by simp [hkey]), hequals⟩
  · rw [equal, Bool.and_eq_true, equalEntries_iff]
    refine ⟨by simp [hlen], fun e' he' => ?_⟩
    obtain ⟨e, he, hkey, -, hequals⟩ := hback e' he'
    exact ⟨e.2, Dict.get?_of_mem hes he (by simp [hkey]), hequals⟩

/-! ## The round trip -/

theorem returns_list {elems : List Value} {id : Identity} (h : ∀ v ∈ elems, ∃ x, v.Returns x) :
    ∃ x, (list elems id).Returns x := by
  obtain ⟨xs, ws, hxs, hws, hequals⟩ := toItems_returns h
  refine ⟨.slice .any xs, ?_, .list ws .fresh, ?_, ?_, ?_⟩
  · change (toItems .any elems).map _ = _
    rw [hxs]
    rfl
  · rw [HostValue.toValue, hws]
    rfl
  · rw [equal, equalAll_iff]
    exact hequals.imp fun _ _ h => h.1
  · rw [equal, equalAll_iff]
    exact (hequals.imp fun _ _ h => h.2).flip

theorem returns_dict {es : Dict} {id : Identity} (hd : Dict.Distinct es)
    (hz : ¬ Dict.HasBothZeros es) (h : ∀ e ∈ es, ∃ x, e.2.Returns x) :
    ∃ x, (dict es id).Returns x := by
  obtain ⟨t, ht, hkeys⟩ := entryTarget_any es
  obtain ⟨xs, hxs, hreturns⟩ :=
    toHostEntries_returns [] hkeys h (Dict.sameKey_of_distinct hd hz) (by simp)
  obtain ⟨ds, hds, hrenewed⟩ := toEntries_renewed hreturns
  have hdistinct := distinct_renewed hrenewed hd
  obtain ⟨d, hdict, hperm⟩ := HostValue.dictOf_perm hdistinct
  refine ⟨.map t .any xs, ?_, .dict d .fresh, ?_, ?_⟩
  · simp only [toHost, isValueTarget, Bool.false_eq_true, if_false, ht]
    rw [hxs]
    rfl
  · simp only [HostValue.toValue, bind_eq_ok]
    exact ⟨_, hds, d, hdict, rfl⟩
  · refine dict_equals hd (Dict.distinct_of_perm hperm hdistinct) ?_ ?_ ?_ _ _
    · rw [hrenewed.length_eq, hperm.length_eq]
    · intro e he
      obtain ⟨e', he', h⟩ := exists_related hrenewed he
      exact ⟨e', hperm.mem_iff.mpr he', h⟩
    · intro e' he'
      exact exists_related hrenewed.flip (hperm.mem_iff.mp he')

theorem Portable.returns {v : Value} (h : v.Portable) : ∃ x, v.Returns x := by
  induction h with
  | @number x id h =>
    have hself : (x == x) = true := Float.beq_self_iff.mpr (by simpa using h)
    exact ⟨.float64 x, rfl, .number x .fresh, rfl, hself, hself⟩
  | @text s id => exact ⟨.text s, rfl, .text s .fresh, rfl, by simp [equal], by simp [equal]⟩
  | @bool b id => exact ⟨.bool b, rfl, .bool b .fresh, rfl, by simp [equal], by simp [equal]⟩
  | nil => exact ⟨.absent, rfl, .nil, rfl, rfl, rfl⟩
  | list _ ih => exact returns_list ih
  | dict hd hz _ _ _ ih => exact returns_dict hd hz ih
  | @function f => exact ⟨_, rfl, .function f, rfl, by simp [equal], by simp [equal]⟩
  | @builtin b => exact ⟨_, rfl, .builtin b, rfl, by simp [equal], by simp [equal]⟩

/-- A value without NaN whose dictionaries have at most one zero among their keys goes out to the
host, where no type is asked for, and what it has become there comes back as an equal value. -/
theorem roundTrip {v : Value} (h : v.Portable) :
    ∃ x w, v.toHost none = .ok x ∧ x.toValue = .ok w ∧ v.Equals w := by
  obtain ⟨x, hx, w, hw, hequals⟩ := h.returns
  exact ⟨x, w, v.toHost_none.trans hx, hw, hequals⟩

/-- A dictionary with keys of three types, one of them a zero. -/
def mixed : Value :=
  .dict [(.text "b" .fresh, .number 1 .fresh), (.number (-0.0) .fresh, .list [.nil] .fresh),
    (.bool true .fresh, .text "a" .fresh)] .fresh

theorem mixed_portable : mixed.Portable := by
  refine .dict ?_ ?_ ?_ ?_
  · unfold Dict.Distinct
    decide
  · unfold Dict.HasBothZeros
    decide
  · simp only [List.forall_mem_cons]
    exact ⟨.text, .number rfl, .bool, nofun⟩
  · simp only [List.forall_mem_cons]
    exact ⟨.number rfl, .list (by simp [Portable.nil]), .text, nofun⟩

/-- A list that holds the dictionary twice goes out and comes back. -/
theorem mixed_returns : (list [mixed, .nil, mixed] .fresh).Portable ∧
    ∃ x w, (list [mixed, .nil, mixed] .fresh).toHost none = .ok x ∧ x.toValue = .ok w ∧
      (list [mixed, .nil, mixed] .fresh).Equals w := by
  have h : (list [mixed, .nil, mixed] .fresh).Portable :=
    .list (by simp [mixed_portable, Portable.nil])
  exact ⟨h, roundTrip h⟩

end Value

end TreeLang
