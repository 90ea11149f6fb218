import TreeLang.Host.Function
import TreeLang.Proofs.Except
import TreeLang.Proofs.Value.Fits

/-!
# Calls of functions of the host

The signature of a function of the host says which arguments the checker lets through. A value that
has the type of its parameter is converted part by part, and what comes out is stored in a place of
the parameter's type. This works but for two kinds of types, which have a counterpart in the
language although nothing can be stored in them: a list is refused where the host has an array, and
a function of the language crashes the host where it has a function type of its own. `admits` tells
where neither happens.

Main statement: `arguments_ok_iff`. The arguments of a call that fits the signature are all
converted exactly when the places of the parameters admit them; places of plain types always do.
-/

namespace TreeLang

/-! ## Counterparts of types -/

namespace HostType

/-- The host types of numbers. -/
def isNumeric : HostType → Bool
  | .int _ | .float32 | .float64 => true
  | _ => false

/-- What a type is that has a counterpart, by the form of the counterpart. -/
inductive Counterpart : HostType → Ty → Prop
  | number {t : HostType} : t.isNumeric = true → Counterpart t .number
  | text : Counterpart .text .text
  | bool : Counterpart .bool .boolean
  | slice {e : HostType} {a : Ty} : Counterpart e a → Counterpart (.slice e) (.list a)
  | array {n : Nat} {e : HostType} {a : Ty} : Counterpart e a → Counterpart (.array n e) (.list a)
  | map {k e : HostType} {a b : Ty} : Counterpart k a → Counterpart e b →
      Counterpart (.map k e) (.dict a b)
  | function {params results : List HostType} {variadic : Bool} {ps : List Ty} {r : Ty} :
      Counterpart (.function params variadic results) (.fn ps r variadic)

theorem counterpart_of_toTy : (t : HostType) → {ty : Ty} → t.toTy = .ok ty → t.Counterpart ty
  | .int _, _, h | .float32, _, h | .float64, _, h => by
    cases h
    exact .number rfl
  | .text, _, h => by
    cases h
    exact .text
  | .bool, _, h => by
    cases h
    exact .bool
  | .slice e, _, h => by
    rw [toTy, map_eq_ok] at h
    obtain ⟨a, ha, rfl⟩ := h
    exact .slice (counterpart_of_toTy e ha)
  | .array n e, _, h => by
    rw [toTy, map_eq_ok] at h
    obtain ⟨a, ha, rfl⟩ := h
    exact .array (counterpart_of_toTy e ha)
  | .map k e, _, h => by
    simp only [toTy, bind_eq_ok] at h
    obtain ⟨a, ha, b, hb, h⟩ := h
    cases h
    exact .map (counterpart_of_toTy k ha) (counterpart_of_toTy e hb)
  | .function params variadic results, _, h => by
    simp only [toTy, bind_eq_ok] at h
    obtain ⟨ps, -, r, -, h⟩ := h
    cases h
    exact .function
  | .any, _, h | .error, _, h | .value, _, h | .pointer _, _, h | .other _, _, h => by cases h

/-! ## Places -/

/-- A value that has the type in the language can be stored in a place of the type: no list in it
comes to an array, and no function to a function type. -/
def admits : HostType → Value → Bool
  | .array _ _, _ | .function .., _ => false
  | .slice e, .list vs _ => vs.all fun v => e.admits v
  | .map _ e, .dict entries _ => entries.all fun x => e.admits x.2
  | _, _ => true

/-- The type is built from numbers, texts, truth values, slices and maps. -/
def isPlain : HostType → Bool
  | .int _ | .float32 | .float64 | .bool | .text => true
  | .slice e => e.isPlain
  | .map k e => k.isPlain && e.isPlain
  | _ => false

/-- A place of a plain type admits every value. -/
theorem admits_of_isPlain {t : HostType} (ht : t.isPlain = true) (v : Value) :
    t.admits v = true := by
  induction v generalizing t with
  | list elems id ih =>
    cases t with
    | slice e => exact List.all_eq_true.mpr fun w hw => ih w hw ht
    | array | function => cases ht
    | _ => rfl
  | dict entries id ih =>
    cases t with
    | map k e =>
      have he : e.isPlain = true := (Bool.and_eq_true_iff.mp ht).2
      exact List.all_eq_true.mpr fun x hx => ih x hx he
    | array | function => cases ht
    | _ => rfl
  | _ =>
    cases t with
    | array | function => cases ht
    | _ => rfl

end HostType

/-! ## Storing a value in a place -/

namespace Value

open HostType (Counterpart)

/-- The value `x` is what `v` becomes in a place of type `t`. -/
structure Lands (v : Value) (t : HostType) (x : HostValue) : Prop where
  converted : v.toHost (some t) = .ok x
  stored : x.store t = .ok x
  typed : x.type? = some t

/-- The value can be converted and stored in a place of the type. -/
def Storable (v : Value) (t : HostType) : Prop :=
  ∃ x y, v.toHost (some t) = .ok x ∧ x.store t = .ok y

/-- A key becomes a key of the map's type. -/
theorem keyToHost_lands {k : Key} {t : HostType} (h : t.Counterpart (keyType k)) :
    ∃ x, keyToHost k t = .ok x ∧ x.store t = .ok x := by
  have hk : k.value.Inhabits (keyType k) := fits_key k
  generalize keyType k = ty at h hk
  cases h with
  | number ht =>
    obtain ⟨x, id, hx⟩ := fits_number_iff.mp hk
    cases k <;> cases hx
    cases t with
    | int | float32 | float64 => exact ⟨_, rfl, rfl⟩
    | _ => cases ht
  | text =>
    obtain ⟨s, id, hs⟩ := fits_text_iff.mp hk
    cases k <;> cases hs
    exact ⟨.text s, rfl, rfl⟩
  | bool =>
    obtain ⟨b, id, hb⟩ := fits_boolean_iff.mp hk
    cases k <;> cases hb
    exact ⟨.bool b, rfl, rfl⟩
  | slice | array =>
    obtain ⟨elems, id, hv, -⟩ := fits_list_iff.mp hk
    cases k <;> cases hv
  | map =>
    obtain ⟨entries, id, hv, -⟩ := fits_dict_iff.mp hk
    cases k <;> cases hv
  | function =>
    obtain ⟨-, ⟨f, hv, -⟩ | ⟨b, hv, -⟩⟩ := fits_fn_iff.mp hk <;> cases k <;> cases hv

theorem toItems_lands {e : HostType} {vs : List Value} (h : ∀ v ∈ vs, ∃ x, v.Lands e x) :
    ∃ xs, toItems e vs = .ok xs := by
  induction vs with
  | nil => exact ⟨[], rfl⟩
  | cons v vs ih =>
    obtain ⟨x, hx⟩ := h v (by simp)
    obtain ⟨xs, hxs⟩ := ih fun w hw => h w (by simp [hw])
    refine ⟨x :: xs, ?_⟩
    simp only [toItems, bind_eq_ok]
    exact ⟨x, hx.converted, x, hx.stored, xs, hxs, rfl⟩

theorem storable_of_toItems {e : HostType} {vs : List Value} {xs : List HostValue}
    (h : toItems e vs = .ok xs) : ∀ v ∈ vs, v.Storable e := by
  induction vs generalizing xs with
  | nil => simp
  | cons v vs ih =>
    simp only [toItems, bind_eq_ok] at h
    obtain ⟨x, hx, y, hy, ys, hys, -⟩ := h
    intro w hw
    rcases List.mem_cons.mp hw with rfl | hw
    · exact ⟨x, y, hx, hy⟩
    · exact ih hys w hw

theorem toHostEntries_lands {k e : HostType} {es : List (Key × Value)}
    (h : ∀ x ∈ es, k.Counterpart (keyType x.1) ∧ ∃ y, x.2.Lands e y)
    (done : List (HostValue × HostValue)) : ∃ xs, toHostEntries k e es done = .ok xs := by
  induction es generalizing done with
  | nil => exact ⟨done, rfl⟩
  | cons x es ih =>
    obtain ⟨hkey, y, hy⟩ := h x (by simp)
    obtain ⟨a, ha, hstored⟩ := keyToHost_lands hkey
    obtain ⟨xs, hxs⟩ := ih (fun z hz => h z (by simp [hz])) (HostValue.putEntry a y done)
    refine ⟨xs, ?_⟩
    simp only [toHostEntries, hy.converted, bind_eq_ok, mapError_eq_ok]
    exact ⟨a, ha, y, rfl, a, hstored, y, hy.stored, hxs⟩

theorem storable_of_toHostEntries {k e : HostType} {es : List (Key × Value)}
    {done xs : List (HostValue × HostValue)} (h : toHostEntries k e es done = .ok xs) :
    ∀ x ∈ es, x.2.Storable e := by
  induction es generalizing done with
  | nil => simp
  | cons x es ih =>
    simp only [toHostEntries, bind_eq_ok, mapError_eq_ok] at h
    obtain ⟨a, -, h⟩ := h
    -- A value that is not converted is only reported in other words.
    split at h
    · obtain ⟨y, hy, -⟩ := bind_eq_ok.mp h
      cases hy
    · simp only [bind_eq_ok] at h
      obtain ⟨y, hy, b, -, z, hz, hrest⟩ := h
      intro w hw
      rcases List.mem_cons.mp hw with rfl | hw
      · exact ⟨y, z, hy, hz⟩
      · exact ih hrest w hw

/-- A place that admits a value of its type takes it. -/
theorem lands_of_admits {t : HostType} {ty : Ty} (h : t.Counterpart ty) {v : Value}
    (hv : v.Inhabits ty) (ha : t.admits v = true) : ∃ x, v.Lands t x := by
  induction h generalizing v with
  | @number t ht =>
    obtain ⟨x, id, rfl⟩ := fits_number_iff.mp hv
    cases t with
    | int | float32 | float64 => exact ⟨_, rfl, rfl, rfl⟩
    | _ => cases ht
  | text =>
    obtain ⟨s, id, rfl⟩ := fits_text_iff.mp hv
    exact ⟨.text s, rfl, rfl, rfl⟩
  | bool =>
    obtain ⟨b, id, rfl⟩ := fits_boolean_iff.mp hv
    exact ⟨.bool b, rfl, rfl, rfl⟩
  | @slice e a _ ih =>
    obtain ⟨elems, id, rfl, helems⟩ := fits_list_iff.mp hv
    have hall := List.all_eq_true.mp ha
    obtain ⟨xs, hxs⟩ := toItems_lands fun w hw => ih (helems w hw) (hall w hw)
    refine ⟨.slice e xs, ?_, rfl, rfl⟩
    change (toItems e elems).map (HostValue.slice e) = _
    rw [hxs]
    rfl
  | array => cases ha
  | @map k e a b hk _ _ ihe =>
    obtain ⟨entries, id, rfl, hentries⟩ := fits_dict_iff.mp hv
    have hall := List.all_eq_true.mp ha
    have hlands : ∀ x ∈ entries, k.Counterpart (keyType x.1) ∧ ∃ y, x.2.Lands e y := by
      intro x hx
      obtain ⟨hkey, hval⟩ := hentries x hx
      exact ⟨hkey ▸ hk, ihe hval (hall x hx)⟩
    obtain ⟨xs, hxs⟩ := toHostEntries_lands hlands []
    refine ⟨.map k e xs, ?_, rfl, rfl⟩
    change (toHostEntries k e entries []).map (HostValue.map k e) = _
    rw [hxs]
    rfl
  | function => cases ha

/-- A place admits the values of its type that it takes. -/
theorem admits_of_storable {t : HostType} {ty : Ty} (h : t.Counterpart ty) {v : Value}
    (hv : v.Inhabits ty) (hs : v.Storable t) : t.admits v = true := by
  obtain ⟨x, y, hx, hy⟩ := hs
  induction h generalizing v x y with
  | @number t ht =>
    cases t with
    | int | float32 | float64 => rfl
    | _ => cases ht
  | text => rfl
  | bool => rfl
  | @slice e a _ ih =>
    obtain ⟨elems, id, rfl, helems⟩ := fits_list_iff.mp hv
    change (toItems e elems).map (HostValue.slice e) = .ok x at hx
    obtain ⟨xs, hxs, -⟩ := map_eq_ok.mp hx
    refine List.all_eq_true.mpr fun w hw => ?_
    obtain ⟨x', y', hx', hy'⟩ := storable_of_toItems hxs w hw
    exact ih (helems w hw) x' y' hx' hy'
  | array =>
    obtain ⟨elems, id, rfl, -⟩ := fits_list_iff.mp hv
    cases hx
  | @map k e a b _ _ _ ihe =>
    obtain ⟨entries, id, rfl, hentries⟩ := fits_dict_iff.mp hv
    change (toHostEntries k e entries []).map (HostValue.map k e) = .ok x at hx
    obtain ⟨xs, hxs, -⟩ := map_eq_ok.mp hx
    refine List.all_eq_true.mpr fun w hw => ?_
    obtain ⟨x', y', hx', hy'⟩ := storable_of_toHostEntries hxs w hw
    exact ihe (hentries w hw).2 x' y' hx' hy'
  | function =>
    -- A function stays a value of the language, which the place does not hold.
    obtain ⟨-, ⟨f, rfl, -⟩ | ⟨b, rfl, -⟩⟩ := fits_fn_iff.mp hv <;> cases hx <;> cases hy

end Value

/-! ## Places of a call -/

namespace HostType

/-- The types have these counterparts one by one. -/
abbrev Counterparts (ps : List HostType) (ts : List Ty) : Prop := List.Forall₂ Counterpart ps ts

theorem counterparts_of_paramTys {i : Nat} {ps : List HostType} {ts : List Ty}
    (h : paramTys i ps = .ok ts) : Counterparts ps ts := by
  induction ps generalizing i ts with
  | nil =>
    cases h
    exact .nil
  | cons p ps ih =>
    simp only [paramTys, bind_eq_ok, mapError_eq_ok] at h
    obtain ⟨t, ht, us, hus, h⟩ := h
    cases h
    exact .cons (counterpart_of_toTy p ht) (ih hus)

theorem counterparts_append_singleton {ps : List HostType} {p : HostType} {ts : List Ty}
    (h : Counterparts (ps ++ [p]) ts) :
    ∃ us t, ts = us ++ [t] ∧ Counterparts ps us ∧ p.Counterpart t := by
  induction ps generalizing ts with
  | nil =>
    cases h with
    | cons hp hrest =>
      cases hrest
      exact ⟨[], _, rfl, .nil, hp⟩
  | cons q ps ih =>
    cases h with
    | cons hq hrest =>
      obtain ⟨us, t, rfl, hus, ht⟩ := ih hrest
      exact ⟨_ :: us, t, rfl, .cons hq hus, ht⟩

theorem Counterpart.slice_inv {e : HostType} {ty : Ty} (h : (HostType.slice e).Counterpart ty) :
    ∃ a, ty = .list a ∧ e.Counterpart a := by
  cases h with
  | number h => cases h
  | slice h => exact ⟨_, rfl, h⟩

theorem remaining_append (ts : List Ty) (a : Ty) : remaining (ts ++ [.list a]) = ts ++ [a] := by
  induction ts with
  | nil => rfl
  | cons t ts ih =>
    rw [List.cons_append, List.cons_append, ← ih]
    -- There is a type behind the first one, so the first one is not the last.
    cases ts with
    | nil => cases t <;> rfl
    | cons u us => cases t <;> rfl

/-- A signature has the counterparts of the parameters, the last one element by element. -/
theorem signature_eq_ok {params results : List HostType} {variadic : Bool} {sig : FnType}
    (h : HostType.signature params variadic results = .ok sig) :
    ∃ ts, Counterparts params ts ∧ sig.variadic = variadic ∧
      sig.params = if variadic then remaining ts else ts := by
  unfold HostType.signature at h
  split at h
  · next t ht =>
    simp only [toTy, bind_eq_ok] at ht
    obtain ⟨ts, hts, r, -, ht⟩ := ht
    cases ht
    cases h
    exact ⟨ts, counterparts_of_paramTys hts, rfl, rfl⟩
  · cases h

end HostType

namespace HostFunction

open HostType (Counterpart)

variable {f : HostFunction} {sig : FnType}

/-- The last parameter of a variadic function is a slice. -/
def Formed (f : HostFunction) : Prop :=
  f.variadic = true → ∃ fixed e, f.params = fixed ++ [.slice e]

/-- Without remaining arguments the parameters take one argument each, and else all but the last. -/
theorem params_eq (hf : f.Formed) :
    f.params = if f.variadic then f.fixedParams ++ [.slice f.remainingType] else f.fixedParams := by
  cases hv : f.variadic with
  | false => simp [fixedParams, hv]
  | true =>
    obtain ⟨fixed, e, hfe⟩ := hf hv
    simp [fixedParams, remainingType, hv, hfe]

/-- A call with `n` arguments has a place for each, of a type that has as counterpart what the
signature declares for the argument. -/
structure PlacesFit (f : HostFunction) (sig : FnType) (n : Nat) : Prop where
  length : (f.places n).length = n
  fixed_le : f.fixedParams.length ≤ n
  exact : f.variadic = false → n = f.fixedParams.length
  counterpart : ∀ i p, (f.places n)[i]? = some p → ∃ t, sig.paramAt? i = some t ∧ p.Counterpart t

theorem placesFit_of_fixed {ts : List Ty} (hts : HostType.Counterparts f.fixedParams ts)
    (hvariadic : sig.variadic = false) (hparams : sig.params = ts) {n : Nat}
    (haccepts : sig.accepts n = true) : f.PlacesFit sig n := by
  have hlen : n = f.fixedParams.length := by
    simp only [FnType.accepts, hvariadic, Bool.false_eq_true, if_false, hparams,
      beq_iff_eq] at haccepts
    have := hts.length_eq
    omega
  have hplaces : f.places n = f.fixedParams := by simp [places, hlen]
  refine ⟨by rw [hplaces, hlen], Nat.le_of_eq hlen.symm, fun _ => hlen, ?_⟩
  intro i p hp
  rw [hplaces] at hp
  obtain ⟨hi, rfl⟩ := List.getElem?_eq_some_iff.mp hp
  have hi' : i < ts.length := by rwa [← hts.length_eq]
  exact ⟨ts[i], by simp [FnType.paramAt?, hvariadic, hparams, hi'], hts.get hi hi'⟩

theorem placesFit_of_variadic {ts : List Ty} {a : Ty}
    (hts : HostType.Counterparts f.fixedParams ts) (ha : f.remainingType.Counterpart a)
    (hv : f.variadic = true) (hvariadic : sig.variadic = true) (hparams : sig.params = ts ++ [a])
    {n : Nat} (haccepts : sig.accepts n = true) : f.PlacesFit sig n := by
  have hcount := hts.length_eq
  have hle : f.fixedParams.length ≤ n := by
    simp only [FnType.accepts, hvariadic, if_true, hparams, List.length_append,
      List.length_singleton, decide_eq_true_eq] at haccepts
    omega
  refine ⟨by rw [places]; simp; omega, hle, by simp [hv], ?_⟩
  intro i p hp
  rw [places] at hp
  rcases Nat.lt_or_ge i f.fixedParams.length with hi | hi
  · rw [List.getElem?_append_left hi] at hp
    obtain ⟨-, rfl⟩ := List.getElem?_eq_some_iff.mp hp
    have hi' : i < ts.length := by rwa [← hcount]
    refine ⟨ts[i], ?_, hts.get hi hi'⟩
    simp [FnType.paramAt?, hvariadic, hparams, Nat.not_le.mpr hi', List.getElem?_append_left hi']
  · rw [List.getElem?_append_right hi] at hp
    obtain ⟨-, rfl⟩ := List.getElem?_eq_some_iff.mp hp
    have hi' : ts.length ≤ i := by rwa [← hcount]
    exact ⟨a, by simp [FnType.paramAt?, hvariadic, hparams, hi'], by simpa using ha⟩

/-- The places of a call that fits the signature have the types that it declares. -/
theorem placesFit (hf : f.Formed) (hsig : f.signature = .ok sig) {n : Nat}
    (haccepts : sig.accepts n = true) : f.PlacesFit sig n := by
  obtain ⟨ts, hts, hvariadic, hparams⟩ := HostType.signature_eq_ok hsig
  rw [params_eq hf] at hts
  cases hv : f.variadic with
  | false =>
    simp only [hv, Bool.false_eq_true, if_false] at hts hvariadic hparams
    exact placesFit_of_fixed hts hvariadic hparams haccepts
  | true =>
    simp only [hv, if_true] at hts hvariadic hparams
    -- The last counterpart is a list, whose elements the remaining arguments are.
    obtain ⟨us, last, rfl, hus, hlast⟩ := HostType.counterparts_append_singleton hts
    obtain ⟨a, rfl, ha⟩ := hlast.slice_inv
    rw [HostType.remaining_append] at hparams
    exact placesFit_of_variadic hus ha hv hvariadic hparams haccepts

/-! ## Arguments of a call -/

/-- Values that land in their places are converted, and stored as they are. -/
theorem convert_lands (name : String) {ps : List HostType} {vs : List Value}
    (hlen : ps.length = vs.length) (h : ∀ p ∈ ps.zip vs, ∃ x, p.2.Lands p.1 x) (i : Nat) :
    ∃ xs, convert name i (ps.zip vs) = .ok xs ∧ storeAll (ps.zip xs) = .ok xs ∧
      xs.map HostValue.type? = ps.map some := by
  induction ps generalizing vs i with
  | nil => exact ⟨[], rfl, rfl, rfl⟩
  | cons p ps ih =>
    obtain _ | ⟨v, vs⟩ := vs
    · cases hlen
    obtain ⟨x, hx⟩ := h (p, v) (by simp)
    obtain ⟨xs, hconvert, hstore, htypes⟩ :=
      ih (Nat.succ.inj hlen) (fun q hq => h q (by simp [hq])) (i + 1)
    refine ⟨x :: xs, ?_, ?_, ?_⟩
    · simp only [List.zip_cons_cons, convert, hx.converted, hconvert]
      rfl
    · simp only [List.zip_cons_cons, storeAll, hx.stored, hstore]
      rfl
    · rw [List.map_cons, List.map_cons, hx.typed, htypes]

/-- Values that are all converted and then all stored can each be stored in its place. -/
theorem storable_of_convert {name : String} {ps : List HostType} {vs : List Value} {i : Nat}
    {xs ys : List HostValue} (hconvert : convert name i (ps.zip vs) = .ok xs)
    (hstore : storeAll (ps.zip xs) = .ok ys) : ∀ p ∈ ps.zip vs, p.2.Storable p.1 := by
  induction ps generalizing vs i xs ys with
  | nil => simp
  | cons p ps ih =>
    obtain _ | ⟨v, vs⟩ := vs
    · simp
    simp only [List.zip_cons_cons, convert] at hconvert
    split at hconvert
    · cases hconvert
    · cases hconvert
    · next x hx =>
      obtain ⟨xs', hxs, rfl⟩ := map_eq_ok.mp hconvert
      simp only [List.zip_cons_cons, storeAll] at hstore
      split at hstore
      · next y hy =>
        obtain ⟨ys', hys, rfl⟩ := map_eq_ok.mp hstore
        intro q hq
        rcases List.mem_cons.mp hq with rfl | hq
        · exact ⟨x, y, hx, hy⟩
        · exact ih hxs hys q hq
      · cases hstore

/-- The values for the parameters, of the values for the places. -/
def packed (f : HostFunction) (xs : List HostValue) : List HostValue :=
  let fixed := f.fixedParams.length
  if f.variadic then xs.take fixed ++ [.slice f.remainingType (xs.drop fixed)] else xs

theorem arguments_eq_ok {name : String} {args : List Value} (hfit : f.PlacesFit sig args.length)
    {xs : List HostValue} :
    f.arguments name args = .ok xs ↔
      ∃ ys, convert name 1 ((f.places args.length).zip args) = .ok ys ∧
        ∃ zs, storeAll ((f.places args.length).zip ys) = .ok zs ∧ f.packed zs = xs := by
  have hcount : (args.length < f.fixedParams.length ||
      (!f.variadic && args.length > f.fixedParams.length)) = false := by
    have hle := hfit.fixed_le
    cases hv : f.variadic with
    | true => simpa using hle
    | false => simp [← hfit.exact hv]
  simp only [arguments, hcount, Bool.false_eq_true, if_false, bind_eq_ok, packed]
  constructor
  · rintro ⟨ys, hys, zs, hzs, h⟩
    exact ⟨ys, hys, zs, hzs, Except.ok.inj h⟩
  · rintro ⟨ys, hys, zs, hzs, rfl⟩
    exact ⟨ys, hys, zs, hzs, rfl⟩

/-- What is stored in the places of a call has, packed, the types of the parameters. -/
theorem packed_types (hf : f.Formed) {n : Nat} (hfit : f.PlacesFit sig n)
    {xs : List HostValue} (h : xs.map HostValue.type? = (f.places n).map some) :
    (f.packed xs).map HostValue.type? = f.params.map some := by
  rw [params_eq hf]
  cases hv : f.variadic with
  | false =>
    simp only [packed, hv, Bool.false_eq_true, if_false, h, places, hfit.exact hv, Nat.sub_self,
      List.replicate_zero, List.append_nil]
  | true =>
    simp only [packed, hv, if_true, List.map_append, List.map_take, h, places]
    simp [HostValue.type?]

theorem isPlain_of_mem_places (hf : f.Formed) (hplain : ∀ t ∈ f.params, t.isPlain = true) {n : Nat}
    (hfit : f.PlacesFit sig n) {t : HostType} (ht : t ∈ f.places n) : t.isPlain = true := by
  rw [params_eq hf] at hplain
  cases hv : f.variadic with
  | false =>
    simp only [hv, Bool.false_eq_true, if_false] at hplain
    rw [places, hfit.exact hv, Nat.sub_self, List.replicate_zero, List.append_nil] at ht
    exact hplain t ht
  | true =>
    simp only [hv, if_true, List.forall_mem_append, List.forall_mem_singleton] at hplain
    rcases List.mem_append.mp ht with ht | ht
    · exact hplain.1 t ht
    · rw [List.eq_of_mem_replicate ht]
      exact hplain.2

/-- A call that fits the signature has its arguments converted if and only if the places of the
parameters admit them, and then the host gets values of the parameters' types. Places of plain types
admit all arguments, so then the function is run. -/
theorem arguments_ok_iff (hf : f.Formed) (hsig : f.signature = .ok sig) (name : String)
    {args : List Value} (haccepts : sig.accepts args.length = true)
    (hargs : ∀ i v t, args[i]? = some v → sig.paramAt? i = some t → v.Inhabits t) :
    ((∃ xs, f.arguments name args = .ok xs) ↔
      ∀ p ∈ (f.places args.length).zip args, p.1.admits p.2 = true) ∧
    (∀ xs, f.arguments name args = .ok xs → xs.map HostValue.type? = f.params.map some) ∧
    ((∀ t ∈ f.params, t.isPlain = true) →
      ∃ xs, f.arguments name args = .ok xs ∧
        f.call name args = (f.run xs).elim (false, .crash) fun results =>
          (true, f.reply name results)) := by
  have hfit := placesFit hf hsig haccepts
  -- Each argument has its place and the type of it.
  have hplace : ∀ p ∈ (f.places args.length).zip args,
      ∃ t, p.1.Counterpart t ∧ p.2.Inhabits t := by
    intro p hp
    obtain ⟨i, hi⟩ := List.getElem?_of_mem hp
    obtain ⟨hpi, hvi⟩ := List.getElem?_zip_eq_some.mp hi
    obtain ⟨t, ht, hc⟩ := hfit.counterpart i p.1 hpi
    exact ⟨t, hc, hargs i p.2 t hvi ht⟩
  have hadmitted (ha : ∀ p ∈ (f.places args.length).zip args, p.1.admits p.2 = true) :
      ∃ xs, f.arguments name args = .ok xs ∧ xs.map HostValue.type? = f.params.map some := by
    obtain ⟨xs, hconvert, hstore, htypes⟩ := convert_lands name hfit.length
      (fun p hp => by
        obtain ⟨t, hc, hv⟩ := hplace p hp
        exact Value.lands_of_admits hc hv (ha p hp)) 1
    exact ⟨f.packed xs, (arguments_eq_ok hfit).mpr ⟨xs, hconvert, xs, hstore, rfl⟩,
      packed_types hf hfit htypes⟩
  have hstored {xs : List HostValue} (h : f.arguments name args = .ok xs) :
      ∀ p ∈ (f.places args.length).zip args, p.1.admits p.2 = true := by
    obtain ⟨ys, hys, zs, hzs, -⟩ := (arguments_eq_ok hfit).mp h
    intro p hp
    obtain ⟨t, hc, hv⟩ := hplace p hp
    exact Value.admits_of_storable hc hv (storable_of_convert hys hzs p hp)
  refine ⟨⟨fun ⟨xs, h⟩ => hstored h, fun h => ?_⟩, ?_, ?_⟩
  · obtain ⟨xs, hxs, -⟩ := hadmitted h
    exact ⟨xs, hxs⟩
  · intro xs h
    obtain ⟨ys, hys, htypes⟩ := hadmitted (hstored h)
    cases hys.symm.trans h
    exact htypes
  · intro hplain
    obtain ⟨xs, hxs, -⟩ := hadmitted fun p hp =>
      HostType.admits_of_isPlain (isPlain_of_mem_places hf hplain hfit (List.of_mem_zip hp).1) p.2
    refine ⟨xs, hxs, ?_⟩
    simp only [call, hxs]
    cases f.run xs <;> rfl

/-- A function that takes pages by name, and names to leave out. -/
def index : HostFunction where
  params := [.map .text (.slice (.int ⟨true, none⟩)), .slice .text]
  variadic := true
  results := [.bool]
  run _ := some [.bool true]

/-- A call of `index` with a dictionary and two texts reaches it. -/
theorem index_called :
    let sig : FnType := ⟨[.dict .text (.list .number), .text], .boolean, true⟩
    let args : List Value := [.dict [(.text "a" .fresh, .list [.number 1 .fresh] .fresh)] .fresh,
      .text "b" .fresh, .text "c" .fresh]
    index.Formed ∧ index.signature = .ok sig ∧ sig.accepts args.length = true ∧
      (∀ i v t, args[i]? = some v → sig.paramAt? i = some t → v.Inhabits t) ∧
      ∃ xs, index.arguments "index" args = .ok xs ∧
        xs.map HostValue.type? = index.params.map some ∧ (index.call "index" args).1 = true := by
  intro sig args
  have hf : index.Formed := fun _ => ⟨[.map .text (.slice (.int ⟨true, none⟩))], .text, rfl⟩
  have hargs : ∀ i v t, args[i]? = some v → sig.paramAt? i = some t → v.Inhabits t := by
    intro i v t hv ht
    obtain _ | _ | _ | i := i
    · cases hv
      cases ht
      exact Value.fits_dict.mpr ⟨_, _, rfl, by simp [Value.keyType, Value.Fits, Value.FitAll]⟩
    · cases hv
      cases ht
      rfl
    · cases hv
      cases ht
      rfl
    · cases hv
  have hsig : index.signature = .ok sig := rfl
  obtain ⟨-, htypes, hplain⟩ := arguments_ok_iff hf hsig "index" rfl hargs
  obtain ⟨xs, hxs, hcall⟩ := hplain (by decide)
  exact ⟨hf, hsig, rfl, hargs, xs, hxs, htypes xs hxs, by rw [hcall]; rfl⟩

/-- A function that takes a pair of numbers. -/
def pair : HostFunction := ⟨[.array 2 (.int ⟨true, none⟩)], false, [], fun _ => some []⟩

/-- A function that takes a condition. -/
def runner : HostFunction := ⟨[.function [] false [.bool]], false, [], fun _ => some []⟩

/-- The signature of `pair` allows a list, which is then refused, and the signature of `runner`
allows a function, which crashes the host. -/
theorem unstorable_fail :
    let two : Value := .list [.number 1 .fresh, .number 2 .fresh] .fresh
    let empty : Value := .function ⟨0, { name := "g", result := .boolean, body := .bool true }⟩
    (pair.signature = .ok ⟨[.list .number], .void, false⟩ ∧ two.Inhabits (.list .number) ∧
      pair.arguments "pair" [two] = .error (.fault (runtimeFault .unsupportedOperandKind
        "pair: argument 1: cannot convert a list to [2]int"))) ∧
    (runner.signature = .ok ⟨[.fn [] .boolean false], .void, false⟩ ∧
      empty.Inhabits (.fn [] .boolean false) ∧
      runner.arguments "runner" [empty] = .error .crash) := by
  intro two empty
  refine ⟨⟨rfl, ?_, rfl⟩, rfl, ?_, rfl⟩
  · exact Value.fits_list.mpr ⟨_, rfl, by simp [Value.Fits]⟩
  · exact ⟨trivial, rfl⟩

end HostFunction

end TreeLang
