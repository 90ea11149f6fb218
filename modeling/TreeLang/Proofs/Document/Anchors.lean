import Mathlib.Algebra.GroupWithZero.Nat
import Mathlib.Algebra.Order.BigOperators.Group.List
import Mathlib.Algebra.Order.Group.Nat
import Mathlib.Data.List.Nodup
import TreeLang.Document.Node

/-!
# Anchors and aliases of a document

What a document tree is made of, and which nodes its aliases can refer to. An anchor has its number
from the start of its node on, so an alias can name a collection that is still open, around it; any
other alias names a node that is complete. `Composed` says this of every stretch of a text, and
`Builds` is the triple by which it is carried through the composer.

Main statement: `read_unfolds`. In a document in which no alias stands inside the collection that
it names, the aliases in an anchored node refer to nodes that were completed before it, and all
anchored nodes are parts of the tree.
-/

namespace TreeLang.Document

namespace Node

/-! ## Parts of a tree -/

/-- The nodes right below a node. -/
def children : Node → List Node
  | .scalar .. | .alias .. => []
  | .sequence _ _ items => items
  | .mapping _ _ entries => entries.flatMap fun e => [e.1, e.2]

mutual

/-- The node and all nodes below it, aliases not followed. -/
def subnodes : Node → List Node
  | .scalar pos tag style text => [.scalar pos tag style text]
  | .sequence pos tag items => .sequence pos tag items :: subnodesAll items
  | .mapping pos tag entries => .mapping pos tag entries :: subnodesEntries entries
  | .alias pos name target => [.alias pos name target]

/-- The nodes of a list of trees. -/
def subnodesAll : List Node → List Node
  | [] => []
  | n :: ns => n.subnodes ++ subnodesAll ns

/-- The nodes in the entries of a mapping. -/
def subnodesEntries : List (Node × Node) → List Node
  | [] => []
  | (k, v) :: es => k.subnodes ++ v.subnodes ++ subnodesEntries es

end

theorem subnodesAll_eq_flatMap (ns : List Node) : subnodesAll ns = ns.flatMap subnodes := by
  induction ns with
  | nil => rfl
  | cons n ns ih => simp [subnodesAll, ih]

theorem subnodesEntries_eq_flatMap (es : List (Node × Node)) :
    subnodesEntries es = (es.flatMap fun e => [e.1, e.2]).flatMap subnodes := by
  induction es with
  | nil => rfl
  | cons e es ih => simp [subnodesEntries, ih]

/-- A tree is its root and the trees below it. -/
theorem subnodes_eq (n : Node) : n.subnodes = n :: n.children.flatMap subnodes := by
  cases n with
  | scalar | «alias» => rfl
  | sequence pos tag items => rw [subnodes, children, subnodesAll_eq_flatMap]
  | mapping pos tag entries => rw [subnodes, children, subnodesEntries_eq_flatMap]

theorem mem_subnodes_self (n : Node) : n ∈ n.subnodes := by
  rw [subnodes_eq]
  exact List.mem_cons_self

theorem mem_subnodes_child {n c : Node} (h : c ∈ n.children) : c ∈ n.subnodes := by
  rw [subnodes_eq]
  exact List.mem_cons_of_mem n (List.mem_flatMap.mpr ⟨c, h, mem_subnodes_self c⟩)

theorem size_eq (n : Node) : n.size = (n.children.map size).sum + 1 := by
  have hall : ∀ ns : List Node, sizeAll ns = (ns.map size).sum := by
    intro ns
    induction ns with
    | nil => rfl
    | cons n ns ih => simp [sizeAll, ih]
  have hentries : ∀ es : List (Node × Node),
      sizeEntries es = ((es.flatMap fun e => [e.1, e.2]).map size).sum := by
    intro es
    induction es with
    | nil => rfl
    | cons e es ih => simp [sizeEntries, ih, Nat.add_assoc]
  cases n with
  | scalar | «alias» => rfl
  | sequence pos tag items => rw [size, children, hall]
  | mapping pos tag entries => rw [size, children, hentries]

theorem size_lt_of_child {n c : Node} (h : c ∈ n.children) : c.size < n.size := by
  have hle : c.size ≤ (n.children.map size).sum :=
    List.single_le_sum (fun _ _ => Nat.zero_le _) _ (List.mem_map_of_mem h)
  rw [size_eq n]
  omega

/-- Induction on trees: what holds of a node if it holds of its children, holds of all nodes. -/
theorem children_induction {motive : Node → Prop}
    (h : ∀ n, (∀ c ∈ n.children, motive c) → motive n) (n : Node) : motive n := by
  induction hn : n.size using Nat.strong_induction_on generalizing n with
  | _ size ih => exact h n fun c hc => ih c.size (hn ▸ size_lt_of_child hc) c rfl

theorem length_subnodes (n : Node) : n.subnodes.length = n.size := by
  induction n using children_induction with
  | h n ih =>
    have hsum : (n.children.map fun c => c.subnodes.length) = n.children.map size :=
      List.map_congr_left ih
    rw [subnodes_eq, List.length_cons, List.length_flatMap, hsum, size_eq]

/-- Below a part of a tree there are parts of the tree. -/
theorem subnodes_trans {n m c : Node} (hm : m ∈ n.subnodes) (hc : c ∈ m.subnodes) :
    c ∈ n.subnodes := by
  induction n using children_induction with
  | h n ih =>
    rw [subnodes_eq] at hm
    rcases List.mem_cons.mp hm with rfl | hm
    · exact hc
    · obtain ⟨d, hd, hmd⟩ := List.mem_flatMap.mp hm
      rw [subnodes_eq]
      exact List.mem_cons_of_mem n (List.mem_flatMap.mpr ⟨d, hd, ih d hd hmd⟩)

/-- The number that an alias refers to. -/
def target? : Node → Option Nat
  | .alias _ _ target => some target
  | _ => none

/-- The numbers that the aliases in a tree refer to. -/
def aliases (n : Node) : List Nat := n.subnodes.filterMap target?

theorem mem_aliases {n : Node} {t : Nat} :
    t ∈ n.aliases ↔ ∃ m ∈ n.subnodes, m.target? = some t := List.mem_filterMap

theorem aliases_subset {n m : Node} (h : m ∈ n.subnodes) : m.aliases ⊆ n.aliases := by
  intro t ht
  obtain ⟨c, hc, htarget⟩ := mem_aliases.mp ht
  exact mem_aliases.mpr ⟨c, subnodes_trans h hc, htarget⟩

/-- The aliases in a node that is none are those in its children. -/
theorem aliases_eq {n : Node} (h : n.target? = none) : n.aliases = n.children.flatMap aliases := by
  rw [aliases, subnodes_eq, List.filterMap_cons_none h, List.filterMap_flatMap]
  rfl

end Node

/-! ## What a stretch of text adds -/

/-- What the composer keeps of anchors: their numbers by name, the next number, and the nodes that
are complete. -/
structure Book where
  anchors : List (String × Nat)
  fresh : Nat
  anchored : List (Nat × Node)

/-- The anchors that a composer knows. -/
def Composer.book (s : Composer) : Book := ⟨s.anchors, s.fresh, s.anchored⟩

/-- A stretch of text that starts with book `b₀` and ends with `b` has the nodes `ns` and completes
the anchored nodes `new`, the last one first. -/
structure Composed (b₀ : Book) (ns : List Node) (new : List (Nat × Node)) (b : Book) : Prop where
  anchored : b.anchored = new ++ b₀.anchored
  named : ∀ e ∈ b.anchors, e.2 < b.fresh
  numbers : ∀ k, k ∈ new.map (·.1) ↔ b₀.fresh ≤ k ∧ k < b.fresh
  le : b₀.fresh ≤ b.fresh
  nodup : (new.map (·.1)).Nodup
  parts : ∀ e ∈ new, e.2 ∈ ns.flatMap Node.subnodes
  known : ∀ t ∈ ns.flatMap Node.aliases, t < b.fresh
  /-- An alias in an anchored node names a node completed before, one whose number is older than the
  stretch, or a node that it stands in. -/
  settled : ∀ pre k m post, new = pre ++ (k, m) :: post → ∀ t ∈ m.aliases,
    t ∈ post.map (·.1) ∨ t < b₀.fresh ∨ ∃ n, (t, n) ∈ new ∧ t ∈ n.aliases

namespace Composed

variable {b₀ b₁ b₂ b : Book} {ns ms : List Node} {new new' : List (Nat × Node)}

/-- Nothing is read yet. -/
theorem nil (h : ∀ e ∈ b.anchors, e.2 < b.fresh) : Composed b [] [] b where
  anchored := rfl
  named := h
  numbers k := by simp
  le := Nat.le_refl _
  nodup := List.nodup_nil
  parts := by simp
  known := by simp
  settled pre k m post heq := by simp at heq

/-- One stretch after the other. -/
theorem trans (h : Composed b₀ ns new b₁) (h' : Composed b₁ ms new' b₂) :
    Composed b₀ (ns ++ ms) (new' ++ new) b₂ where
  anchored := by rw [h'.anchored, h.anchored, List.append_assoc]
  named := h'.named
  numbers k := by
    have hle := h.le
    have hle' := h'.le
    rw [List.map_append, List.mem_append, h.numbers, h'.numbers]
    omega
  le := Nat.le_trans h.le h'.le
  nodup := by
    rw [List.map_append, List.nodup_append]
    refine ⟨h'.nodup, h.nodup, ?_⟩
    rintro k hk' _ hk rfl
    have := (h.numbers k).mp hk
    have := (h'.numbers k).mp hk'
    omega
  parts e he := by
    rw [List.flatMap_append, List.mem_append]
    rcases List.mem_append.mp he with he | he
    · exact .inr (h'.parts e he)
    · exact .inl (h.parts e he)
  known t ht := by
    rw [List.flatMap_append, List.mem_append] at ht
    rcases ht with ht | ht
    · exact Nat.lt_of_lt_of_le (h.known t ht) h'.le
    · exact h'.known t ht
  settled pre k m post heq t ht := by
    -- The node is one of the later stretch, or it is one of the earlier.
    have hearlier : ∀ pre', new = pre' ++ (k, m) :: post → t ∈ post.map (·.1) ∨ t < b₀.fresh ∨
        ∃ n, (t, n) ∈ new' ++ new ∧ t ∈ n.aliases := by
      intro pre' hnew
      rcases h.settled pre' k m post hnew t ht with hpost | hold | ⟨n, hn, htn⟩
      · exact .inl hpost
      · exact .inr (.inl hold)
      · exact .inr (.inr ⟨n, List.mem_append_right _ hn, htn⟩)
    rcases List.append_eq_append_iff.mp heq with ⟨mid, -, hmid⟩ | ⟨mid, hmid, hrest⟩
    · exact hearlier mid hmid
    · cases mid with
      | nil => exact hearlier [] hrest.symm
      | cons e mid =>
        rw [List.cons_append] at hrest
        obtain ⟨rfl, rfl⟩ := List.cons.inj hrest
        rcases h'.settled pre k m mid hmid t ht with hpost | hold | ⟨n, hn, htn⟩
        · exact .inl (by simp [List.mem_map.mp hpost])
        · by_cases hfresh : t < b₀.fresh
          · exact .inr (.inl hfresh)
          · have hmem := (h.numbers t).mpr ⟨by omega, hold⟩
            rw [List.map_append]
            exact .inl (List.mem_append_right _ hmem)
        · exact .inr (.inr ⟨n, List.mem_append_left _ hn, htn⟩)

/-- The same stretch, told as other nodes with the same aliases and no fewer parts. -/
theorem retell (h : Composed b₀ ns new b)
    (hparts : ns.flatMap Node.subnodes ⊆ ms.flatMap Node.subnodes)
    (haliases : ms.flatMap Node.aliases ⊆ ns.flatMap Node.aliases) : Composed b₀ ms new b :=
  { h with
    parts := fun e he => hparts (h.parts e he)
    known := fun t ht => h.known t (haliases ht) }

/-- The nodes of a stretch become the children of one node. -/
theorem wrap (h : Composed b₀ ns new b) {n : Node} (hchildren : n.children = ns)
    (hn : n.target? = none) : Composed b₀ [n] new b := by
  subst hchildren
  refine h.retell ?_ ?_
  · rw [List.flatMap_singleton, Node.subnodes_eq]
    exact List.subset_cons_self ..
  · rw [List.flatMap_singleton, Node.aliases_eq hn]
    exact List.Subset.refl _

/-- An alias of a name that is known. -/
theorem alias_node (h : ∀ e ∈ b.anchors, e.2 < b.fresh) {pos : Position} {name written : String}
    {t : Nat} (ht : (written, t) ∈ b.anchors) : Composed b [.alias pos name t] [] b :=
  { nil h with
    parts := by simp
    known := by
      intro u hu
      rw [List.flatMap_singleton, Node.mem_aliases] at hu
      obtain ⟨m, hm, htarget⟩ := hu
      rw [Node.subnodes, List.mem_singleton] at hm
      subst hm
      cases htarget
      exact h _ ht }

/-- A node with an anchor: its number is taken before its children are read, and it is complete
after them. -/
theorem complete (h : Composed b₁ ns new b) (h₁ : b₁.fresh = b₀.fresh + 1)
    (hanchored : b₁.anchored = b₀.anchored) {n : Node} (hchildren : n.children = ns)
    (hn : n.target? = none) :
    Composed b₀ [n] ((b₀.fresh, n) :: new)
      { b with anchored := (b₀.fresh, n) :: b.anchored } := by
  have hle := h.le
  have hwrap := h.wrap hchildren hn
  have hparts : ∀ e ∈ new, e.2.aliases ⊆ n.aliases := by
    intro e he
    have hmem := hwrap.parts e he
    rw [List.flatMap_singleton] at hmem
    exact Node.aliases_subset hmem
  refine ⟨?_, h.named, ?_, ?_, ?_, ?_, hwrap.known, ?_⟩
  · rw [h.anchored, hanchored]
    rfl
  · intro k
    rw [List.map_cons, List.mem_cons, h.numbers]
    dsimp only
    omega
  · dsimp only
    omega
  · rw [List.map_cons, List.nodup_cons, h.numbers]
    exact ⟨by dsimp only; omega, h.nodup⟩
  · intro e he
    rcases List.mem_cons.mp he with rfl | he
    · rw [List.flatMap_singleton]
      exact Node.mem_subnodes_self n
    · exact hwrap.parts e he
  · intro pre k m post heq t ht
    cases pre with
    | nil =>
      cases heq
      -- The node itself: an alias in it is younger, or is the node, or is older than it.
      have hlt : t < b.fresh := hwrap.known t (by rwa [List.flatMap_singleton])
      by_cases hyoung : b₁.fresh ≤ t
      · exact .inl ((h.numbers t).mpr ⟨hyoung, hlt⟩)
      · by_cases hself : t = b₀.fresh
        · subst hself
          exact .inr (.inr ⟨n, List.mem_cons_self, ht⟩)
        · exact .inr (.inl (by omega))
    | cons e pre =>
      cases heq
      rcases h.settled pre k m post rfl t ht with hpost | hold | ⟨n', hn', htn⟩
      · exact .inl hpost
      · by_cases hself : t = b₀.fresh
        · subst hself
          exact .inr (.inr ⟨n, List.mem_cons_self, hparts (k, m) (by simp) ht⟩)
        · exact .inr (.inl (by omega))
      · exact .inr (.inr ⟨n', List.mem_cons_of_mem _ hn', htn⟩)

end Composed

/-! ## Steps of the composer -/

namespace Compose

variable {α β : Type}

/-- The step succeeds from `s` with `a`, and leaves `s'`. -/
def Runs (x : Compose α) (s : Composer) (a : α) (s' : Composer) : Prop := x s = .ok (a, s')

theorem runs_bind {x : Compose α} {k : α → Compose β} {s s'' : Composer} {b : β} :
    Runs (x >>= k) s b s'' ↔ ∃ a s', Runs x s a s' ∧ Runs (k a) s' b s'' := by
  have hrun : (x >>= k) s = (x s).bind fun r => k r.1 r.2 := rfl
  unfold Runs
  rw [hrun]
  cases x s with
  | error e =>
    constructor
    · intro h
      cases h
    · rintro ⟨a, s', h, -⟩
      cases h
  | ok r =>
    constructor
    · intro h
      exact ⟨r.1, r.2, rfl, h⟩
    · rintro ⟨a, s', h, hk⟩
      cases h
      exact hk

/-- The step leaves the anchors alone. -/
def Silent (x : Compose α) : Prop := ∀ s a s', Runs x s a s' → s'.book = s.book

/-- When the nodes `done` have been read, the step makes the nodes `f a` of them and of what it
reads. -/
def Builds (done : List Node) (x : Compose α) (f : α → List Node) : Prop :=
  ∀ b₀ new s a s', Composed b₀ done new s.book → Runs x s a s' →
    ∃ new', Composed b₀ (f a) new' s'.book

namespace Silent

theorem pure (a : α) : Silent (Pure.pure a) := by
  intro s b s' h
  cases h
  rfl

theorem fail : Silent (Compose.fail : Compose α) := by
  intro s a s' h
  cases h

theorem lift (x : Fetch α) : Silent (Compose.lift x) := by
  intro s a s' h
  unfold Runs Compose.lift at h
  split at h
  · cases h
    rfl
  · cases h

theorem peek : Silent Compose.peek := lift _

theorem skip : Silent Compose.skip := lift _

theorem bind {x : Compose α} {k : α → Compose β} (hx : Silent x) (hk : ∀ a, Silent (k a)) :
    Silent (x >>= k) := by
  intro s b s'' h
  obtain ⟨a, s', hxs, hks⟩ := runs_bind.mp h
  rw [hk a s' b s'' hks, hx s a s' hxs]

theorem get : Silent (MonadState.get : Compose Composer) := by
  intro s a s' h
  cases h
  rfl

theorem fullTag (handle suffix : String) : Silent (Compose.fullTag handle suffix) := by
  unfold Compose.fullTag
  split
  · exact pure _
  · refine get.bind fun s => ?_
    split
    · split
      · exact fail
      · exact pure _
    · exact fail

theorem mapM {f : α → Compose β} (hf : ∀ a, Silent (f a)) (o : Option α) : Silent (o.mapM f) := by
  cases o with
  | none => exact pure _
  | some a =>
    rw [Option.mapM_some, map_eq_pure_bind]
    exact (hf a).bind fun b => pure _

theorem properties : Silent Compose.properties := by
  have hfinish (start : Mark) (anchor : Option String) (tag : Option (String × String)) :
      Silent (do
        let tag ← tag.mapM fun t => Compose.fullTag t.1 t.2
        Pure.pure (⟨start, anchor, tag⟩ : Properties)) := by
    have htag : Silent (tag.mapM fun t => Compose.fullTag t.1 t.2) :=
      mapM (f := fun t => Compose.fullTag t.1 t.2) (fun t => fullTag t.1 t.2) tag
    exact htag.bind fun _ => pure _
  unfold Compose.properties
  refine peek.bind fun t => ?_
  dsimp only
  split
  · refine skip.bind fun _ => bind ?_ fun tag => ?_
    · refine peek.bind fun u => ?_
      split
      · exact skip.bind fun _ => pure _
      · exact pure _
    · rw [pure_bind]
      exact hfinish _ _ _
  · refine skip.bind fun _ => bind ?_ fun anchor => ?_
    · refine peek.bind fun u => ?_
      split
      · exact skip.bind fun _ => pure _
      · exact pure _
    · rw [pure_bind]
      exact hfinish _ _ _
  · rw [pure_bind]
    exact hfinish _ _ _

end Silent

namespace Builds

variable {done : List Node} {f : α → List Node} {g : β → List Node}

/-- A step that keeps to its own stretch can follow any other one. -/
theorem of_start {x : Compose α}
    (h : ∀ s a s', (∀ e ∈ s.book.anchors, e.2 < s.book.fresh) → Runs x s a s' →
      ∃ new, Composed s.book (f a) new s'.book) : Builds done x fun a => done ++ f a := by
  intro b₀ new s a s' hdone hrun
  obtain ⟨new', hnew⟩ := h s a s' hdone.named hrun
  exact ⟨_, hdone.trans hnew⟩

theorem frame {x : Compose α} (h : Builds [] x f) : Builds done x fun a => done ++ f a :=
  of_start fun s a s' hnamed hrun => h s.book [] s a s' (.nil hnamed) hrun

theorem pure {a : α} (h : f a = done) : Builds done (Pure.pure a) f := by
  intro b₀ new s b s' hdone hrun
  cases hrun
  rw [h]
  exact ⟨new, hdone⟩

theorem fail : Builds done (Compose.fail : Compose α) f := by
  intro b₀ new s a s' _ h
  cases h

theorem bind {x : Compose α} {k : α → Compose β} (hx : Builds done x f)
    (hk : ∀ a, Builds (f a) (k a) g) : Builds done (x >>= k) g := by
  intro b₀ new s b s'' hdone hrun
  obtain ⟨a, s', hxs, hks⟩ := runs_bind.mp hrun
  obtain ⟨new', hnew⟩ := hx b₀ new s a s' hdone hxs
  exact hk a b₀ new' s' b s'' hnew hks

/-- A step that leaves the anchors alone comes in between. -/
theorem after {x : Compose α} {k : α → Compose β} (hx : Silent x)
    (hk : ∀ a, Builds done (k a) g) : Builds done (x >>= k) g := by
  have hkeep : Builds done x fun _ => done := by
    intro b₀ new s a s' hdone hrun
    rw [hx s a s' hrun]
    exact ⟨new, hdone⟩
  exact hkeep.bind hk

/-- The next nodes are read. -/
theorem next {x : Compose α} {k : α → Compose β} (hx : Builds [] x f)
    (hk : ∀ a, Builds (done ++ f a) (k a) g) : Builds done (x >>= k) g := hx.frame.bind hk

/-- A place is left empty. -/
theorem blank {m : Mark} {k : Node → Compose β}
    (hk : Builds (done ++ [empty m]) (k (empty m)) g) :
    Builds done (Pure.pure (empty m) >>= k) g := by
  intro b₀ new s b s' hdone hrun
  rw [pure_bind] at hrun
  have hempty : Composed s.book [empty m] [] s.book := (Composed.nil hdone.named).wrap rfl rfl
  exact hk b₀ _ s b s' (hdone.trans hempty) hrun

/-- A node is read, or its place is left empty. -/
theorem orBlank {c : Prop} [Decidable c] {m : Mark} {x : Compose Node} {k : Node → Compose β}
    (hx : Builds [] x fun n => [n]) (hk : ∀ n, Builds (done ++ [n]) (k n) g) :
    Builds done (if c then Pure.pure (empty m) >>= k else x >>= k) g := by
  split
  · exact blank (hk _)
  · exact next hx hk

/-- A comma has to be there, but not in front of the first item. -/
theorem comma {first : Bool} {c : Prop} [Decidable c] {k : PUnit → Compose β}
    (hk : ∀ u, Builds done (k u) g) :
    Builds done (if (!first) = true then
      (if c then skip >>= k else Compose.fail >>= k) else k ⟨⟩) g := by
  split
  · split
    · exact after .skip hk
    · exact after .fail hk
  · exact hk _

/-- A key and its value become a mapping. -/
theorem entry {k v : Node} {pos : Position} {rest : List Node} :
    Builds ([k, v] ++ rest) (Pure.pure (.mapping pos none [(k, v)] :: rest)) id := by
  intro b₀ new s ns s' hdone hrun
  cases hrun
  refine ⟨new, hdone.retell ?_ ?_⟩
  · intro n hn
    simp only [List.flatMap_append, List.flatMap_cons, List.flatMap_nil, id, List.append_nil,
      List.mem_append, Node.subnodes, Node.subnodesEntries, List.mem_cons] at hn ⊢
    tauto
  · intro t ht
    simp only [id, List.flatMap_cons, Node.aliases_eq (n := .mapping pos none [(k, v)]) rfl,
      Node.children, List.flatMap_nil, List.append_nil, List.cons_append, List.nil_append,
      List.append_assoc] at ht ⊢
    exact ht

/-- An alias of a name that is known. -/
theorem alias_node {pos : Position} {name : String} : Builds [] (do
    match (← get).anchors.find? (·.1 == name) with
    | some (_, target) => Pure.pure (.alias pos name target)
    | none => throw (.unknownAnchor name)) fun n => [n] := by
  refine of_start fun s n s' hnamed hrun => ?_
  obtain ⟨s₁, s₂, hget, hrun⟩ := runs_bind.mp hrun
  cases hget
  split at hrun
  · next written target hfind =>
    cases hrun
    exact ⟨[], .alias_node hnamed (List.mem_of_find?_eq_some hfind)⟩
  · cases hrun

end Builds

/-! ## Nodes with an anchor -/

/-- The number of a node, if it has an anchor, has been taken at the start of a stretch. -/
inductive Declared (b₀ : Book) : Option Nat → Book → Prop
  | unnamed : Declared b₀ none b₀
  | named (name : String) : Declared b₀ (some b₀.fresh)
      ⟨(name, b₀.fresh) :: b₀.anchors, b₀.fresh + 1, b₀.anchored⟩

/-- The step reads the rest of a node whose number has been taken. -/
def Closes (b₀ : Book) (number : Option Nat) (x : Compose Node) : Prop :=
  ∀ s n s', Declared b₀ number s.book → Runs x s n s' → ∃ new, Composed b₀ [n] new s'.book

namespace Closes

variable {b₀ : Book} {number : Option Nat}

theorem fail : Closes b₀ number Compose.fail := by
  intro s n s' _ h
  cases h

theorem after {x : Compose α} {k : α → Compose Node} (hx : Silent x)
    (hk : ∀ a, Closes b₀ number (k a)) : Closes b₀ number (x >>= k) := by
  intro s n s'' hdeclared hrun
  obtain ⟨a, s', hxs, hks⟩ := runs_bind.mp hrun
  rw [← hx s a s' hxs] at hdeclared
  exact hk a s' n s'' hdeclared hks

/-- The children are read, and the node is complete. -/
theorem complete {f : α → List Node} {x : Compose α} {make : α → Node} (hx : Builds [] x f)
    (hnamed : ∀ e ∈ b₀.anchors, e.2 < b₀.fresh) (hchildren : ∀ a, (make a).children = f a)
    (hmake : ∀ a, (make a).target? = none) :
    Closes b₀ number (x >>= fun a => Compose.complete number (make a)) := by
  intro s n s'' hdeclared hrun
  obtain ⟨a, s', hxs, hks⟩ := runs_bind.mp hrun
  have hnamed' : ∀ e ∈ s.book.anchors, e.2 < s.book.fresh := by
    generalize s.book = b at hdeclared
    cases hdeclared with
    | unnamed => exact hnamed
    | named name =>
      intro e he
      rcases List.mem_cons.mp he with rfl | he
      · exact Nat.lt_succ_self _
      · exact Nat.lt_succ_of_lt (hnamed e he)
  obtain ⟨new, hnew⟩ := hx s.book [] s a s' (.nil hnamed') hxs
  generalize s.book = b at hdeclared hnew
  cases hdeclared with
  | unnamed =>
    cases hks
    exact ⟨new, hnew.wrap (hchildren a) (hmake a)⟩
  | named name =>
    have hcomplete : Composed b₀ [make a] ((b₀.fresh, make a) :: new)
        ⟨s'.anchors, s'.fresh, (b₀.fresh, make a) :: s'.anchored⟩ :=
      hnew.complete rfl rfl (hchildren a) (hmake a)
    cases hks
    exact ⟨_, hcomplete⟩

theorem leaf {n : Node} (hnamed : ∀ e ∈ b₀.anchors, e.2 < b₀.fresh) (hchildren : n.children = [])
    (hn : n.target? = none) : Closes b₀ number (Compose.complete number n) := by
  have hnothing : Builds [] (Pure.pure () : Compose Unit) fun _ => [] := Builds.pure rfl
  have h : Closes b₀ number
      ((Pure.pure () : Compose Unit) >>= fun _ => Compose.complete number n) :=
    complete hnothing hnamed (fun _ => hchildren) fun _ => hn
  rwa [pure_bind] at h

theorem absent (hnamed : ∀ e ∈ b₀.anchors, e.2 < b₀.fresh) (p : Properties) :
    Closes b₀ number (Compose.absent p number) := by
  unfold Compose.absent
  split
  · exact leaf hnamed rfl rfl
  · exact fail

end Closes

/-- A number is taken for the anchor, if there is one, and the node is read. -/
theorem Builds.declare {anchor : Option String} {k : Option Nat → Compose Node}
    (hk : ∀ b₀ number, (∀ e ∈ b₀.anchors, e.2 < b₀.fresh) → Closes b₀ number (k number)) :
    Builds [] (anchor.mapM Compose.declare >>= k) fun n => [n] := by
  refine Builds.of_start fun s n s'' hnamed hrun => ?_
  obtain ⟨number, s', hdeclare, hks⟩ := runs_bind.mp hrun
  have hdeclared : Declared s.book number s'.book := by
    cases anchor with
    | none =>
      cases hdeclare
      exact .unnamed
    | some name =>
      cases hdeclare
      exact .named name
  exact hk s.book number hnamed s' n s'' hdeclared hks

/-! ## The composer -/

/-- The nodes in the entries of a mapping. -/
def nodesOf (entries : List (Node × Node)) : List Node := entries.flatMap fun e => [e.1, e.2]

/-- All steps of the composer keep to `Builds` with this bound on nesting. -/
structure Composing (fuel : Nat) : Prop where
  node : ∀ block indentless, Builds [] (node block indentless fuel) fun n => [n]
  blockItems : Builds [] (blockItems fuel) id
  indentlessItems : Builds [] (indentlessItems fuel) id
  blockEntries : Builds [] (blockEntries fuel) nodesOf
  flowItems : ∀ first, Builds [] (flowItems first fuel) id
  flowEntries : ∀ first, Builds [] (flowEntries first fuel) nodesOf

namespace Composing

theorem zero : Composing 0 where
  node _ _ := .fail
  blockItems := .fail
  indentlessItems := .fail
  blockEntries := .fail
  flowItems _ := .fail
  flowEntries _ := .fail

variable {fuel : Nat}

theorem node_succ (h : Composing fuel) (block indentless : Bool) :
    Builds [] (Compose.node block indentless (fuel + 1)) fun n => [n] := by
  rw [Compose.node]
  refine .after .peek fun t => ?_
  split
  · exact .after .skip fun _ => .alias_node
  · refine .after .properties fun p => .after .peek fun t => .declare fun b₀ number hnamed => ?_
    split
    · split
      · exact .complete h.indentlessItems hnamed (fun _ => rfl) fun _ => rfl
      · exact .absent hnamed p
    · exact .after .skip fun _ => .leaf hnamed rfl rfl
    · exact .after .skip fun _ => .complete (h.flowItems true) hnamed (fun _ => rfl) fun _ => rfl
    · exact .after .skip fun _ => .complete (h.flowEntries true) hnamed (fun _ => rfl) fun _ => rfl
    · split
      · exact .after .skip fun _ => .complete h.blockItems hnamed (fun _ => rfl) fun _ => rfl
      · exact .absent hnamed p
    · split
      · exact .after .skip fun _ => .complete h.blockEntries hnamed (fun _ => rfl) fun _ => rfl
      · exact .absent hnamed p
    · exact .absent hnamed p

theorem blockItems_succ (h : Composing fuel) : Builds [] (Compose.blockItems (fuel + 1)) id := by
  rw [Compose.blockItems]
  refine .after .peek fun t => ?_
  split
  · refine .after .skip fun _ => .after .peek fun u => ?_
    extract_lets rest
    have hrest (item : Node) : Builds [item] (rest item) id := .next h.blockItems fun _ => .pure rfl
    exact .orBlank (h.node true false) hrest
  · exact .after .skip fun _ => .pure rfl
  · exact .fail

theorem indentlessItems_succ (h : Composing fuel) :
    Builds [] (Compose.indentlessItems (fuel + 1)) id := by
  rw [Compose.indentlessItems]
  refine .after .peek fun t => ?_
  split
  · refine .after .skip fun _ => .after .peek fun u => ?_
    extract_lets rest
    have hrest (item : Node) : Builds [item] (rest item) id :=
      .next h.indentlessItems fun _ => .pure rfl
    exact .orBlank (h.node true false) hrest
  · exact .pure rfl

theorem blockEntries_succ (h : Composing fuel) :
    Builds [] (Compose.blockEntries (fuel + 1)) nodesOf := by
  rw [Compose.blockEntries]
  refine .after .peek fun t => ?_
  split
  · refine .after .skip fun _ => .after .peek fun u => ?_
    extract_lets value
    have hvalue (k : Node) : Builds [k] (value k) nodesOf := by
      refine .after .peek fun t => ?_
      extract_lets rest
      have hrest (v : Node) : Builds [k, v] (rest v) nodesOf :=
        .next h.blockEntries fun _ => .pure rfl
      split
      · exact .after .skip fun _ => .after .peek fun u => .orBlank (h.node true true) hrest
      · exact .blank (hrest _)
    exact .orBlank (h.node true true) hvalue
  · exact .after .skip fun _ => .pure rfl
  · exact .fail

theorem flowItems_succ (h : Composing fuel) (first : Bool) :
    Builds [] (Compose.flowItems first (fuel + 1)) id := by
  rw [Compose.flowItems]
  refine .after .peek fun t => ?_
  split
  · exact .after .skip fun _ => .pure rfl
  · extract_lets item
    have hitem (u : PUnit) : Builds [] (item u) id := by
      refine .after .peek fun t => ?_
      split
      · exact .after .skip fun _ => .pure rfl
      · refine .after .skip fun _ => .after .peek fun u => ?_
        extract_lets value
        have hvalue (k : Node) : Builds [k] (value k) id := by
          refine .after .peek fun u => ?_
          extract_lets rest
          -- The key and its value are the only entry of a mapping.
          have hrest (v : Node) : Builds [k, v] (rest v) id :=
            .after .peek fun _ => .next (h.flowItems false) fun _ => .entry
          split
          · exact .after .skip fun _ => .after .peek fun w => .orBlank (h.node false false) hrest
          · exact .blank (hrest _)
        split
        · exact .after .skip fun _ => .blank (hvalue _)
        · exact .next (h.node false false) hvalue
      · exact .next (h.node false false) fun item => .next (h.flowItems false) fun _ => .pure rfl
    exact .comma hitem

theorem flowEntries_succ (h : Composing fuel) (first : Bool) :
    Builds [] (Compose.flowEntries first (fuel + 1)) nodesOf := by
  rw [Compose.flowEntries]
  refine .after .peek fun t => ?_
  split
  · exact .after .skip fun _ => .pure rfl
  · extract_lets value entry
    have hvalue (k : Node) : Builds [k] (value k) nodesOf := by
      refine .after .peek fun u => ?_
      extract_lets rest
      have hrest (v : Node) : Builds [k, v] (rest v) nodesOf :=
        .next (h.flowEntries false) fun _ => .pure rfl
      split
      · exact .after .skip fun _ => .after .peek fun w => .orBlank (h.node false false) hrest
      · exact .blank (hrest _)
    have hentry (u : PUnit) : Builds [] (entry u) nodesOf := by
      refine .after .peek fun t => ?_
      split
      · exact .after .skip fun _ => .pure rfl
      · exact .after .skip fun _ => .after .peek fun u => .orBlank (h.node false false) hvalue
      · refine .next (h.node false false) fun k => .after .peek fun u => ?_
        have hblank : Builds [k] (do
            let v ← pure (empty u.start)
            let rest ← Compose.flowEntries false fuel
            pure ((k, v) :: rest)) nodesOf :=
          .blank (.next (h.flowEntries false) fun _ => .pure rfl)
        rwa [pure_bind] at hblank
    exact .comma hentry

theorem all : ∀ fuel, Composing fuel
  | 0 => zero
  | fuel + 1 =>
    have h := all fuel
    { node := h.node_succ
      blockItems := h.blockItems_succ
      indentlessItems := h.indentlessItems_succ
      blockEntries := h.blockEntries_succ
      flowItems := h.flowItems_succ
      flowEntries := h.flowEntries_succ }

end Composing

theorem Silent.directives (fuel : Nat) (versioned : Bool) :
    Silent (Compose.directives fuel versioned) := by
  induction fuel generalizing versioned with
  | zero => exact fail
  | succ fuel ih =>
    rw [Compose.directives]
    refine peek.bind fun t => ?_
    split
    · split
      · exact fail.bind fun _ => skip.bind fun _ => ih true
      · exact skip.bind fun _ => ih true
    · intro s a s' hrun
      obtain ⟨s₁, _, hget, hrun⟩ := runs_bind.mp hrun
      cases hget
      split at hrun
      · obtain ⟨_, _, hfail, -⟩ := runs_bind.mp hrun
        cases hfail
      · obtain ⟨_, s₂, hset, hrun⟩ := runs_bind.mp hrun
        cases hset
        rw [(skip.bind fun _ => ih versioned) _ a s' hrun]
        rfl
    · intro s a s' hrun
      cases hrun
      rfl

theorem document_builds : Builds [] document Option.toList := by
  unfold document
  refine .after .get fun s => ?_
  extract_lets fuel finish start
  have hfinish (root : Node) : Builds [root] (finish root) Option.toList :=
    .after .peek fun _ => .pure rfl
  have hnode : Builds [] (node true false fuel) fun n => [n] := (Composing.all fuel).node true false
  have hstart (u : PUnit) : Builds [] (start u) Option.toList := by
    refine .after .peek fun u => ?_
    split
    case h_6 => exact .next hnode hfinish
    all_goals exact .blank (hfinish _)
  refine .after .peek fun _ => .after .skip fun _ => .after .peek fun t => ?_
  split
  · exact .pure rfl
  · refine .after (.directives fuel false) fun _ => ?_
    extract_lets explicit
    split
    · refine .after .peek fun u => ?_
      split
      · exact .after .skip hstart
      · exact .after .fail hstart
    · exact .next hnode hfinish

end Compose

/-! ## Documents -/

/-- The document of a text is one stretch, from its first anchor on. -/
theorem read_composed {text : String} {g : Graph} (h : read text = .ok (some g)) :
    ∃ b, Composed ⟨[], 0, []⟩ [g.root] g.anchored b := by
  unfold read at h
  rcases hrun : Compose.document.run { scanner := .ofText text.toList } with flaw | ⟨root, s⟩
  · rw [hrun] at h
    cases h
  · rw [hrun] at h
    have hroot : root.map (fun r => (⟨r, s.anchored⟩ : Graph)) = some g := Except.ok.inj h
    obtain ⟨r, rfl, rfl⟩ := Option.map_eq_some_iff.mp hroot
    have hstart : Composed ⟨[], 0, []⟩ [] [] ⟨[], 0, []⟩ := .nil (by simp)
    obtain ⟨new, hnew⟩ := Compose.document_builds _ _ _ _ s hstart hrun
    have hanchored := hnew.anchored
    rw [List.append_nil] at hanchored
    rw [← hanchored] at hnew
    exact ⟨_, hnew⟩

/-- No alias stands inside the collection that it names. -/
def Graph.Loopless (g : Graph) : Prop := ∀ e ∈ g.anchored, e.1 ∉ e.2.aliases

instance (g : Graph) : Decidable g.Loopless :=
  inferInstanceAs (Decidable (∀ e ∈ g.anchored, e.1 ∉ e.2.aliases))

/-- Following aliases comes to an end: anchored nodes are parts of the tree, and by some rank the
aliases in an anchored node are below it. -/
structure Graph.Unfolds (g : Graph) : Prop where
  parts : ∀ e ∈ g.anchored, e.2 ∈ g.root.subnodes
  ranked : ∃ rank : Nat → Nat, ∀ e ∈ g.anchored, ∀ t ∈ e.2.aliases, rank t < rank e.1

/-- Where aliases only name nodes that were completed before, the time of completion is a rank. -/
theorem ranked_of_settled {anchored : List (Nat × Node)} (hnodup : (anchored.map (·.1)).Nodup)
    (h : ∀ pre k m post, anchored = pre ++ (k, m) :: post → ∀ t ∈ m.aliases,
      t ∈ post.map (·.1)) :
    ∃ rank : Nat → Nat, ∀ e ∈ anchored, ∀ t ∈ e.2.aliases, rank t < rank e.1 := by
  -- The rank of a node is the number of nodes that are complete when it is.
  have hrank : ∀ pre k m post, anchored = pre ++ (k, m) :: post →
      (anchored.dropWhile (·.1 ≠ k)).length = post.length + 1 := by
    rintro pre k m post rfl
    rw [List.map_append, List.nodup_append] at hnodup
    have hpre : ∀ e ∈ pre, decide (e.1 ≠ k) = true := by
      intro e he
      simpa using hnodup.2.2 e.1 (List.mem_map_of_mem he) k (by simp)
    rw [List.dropWhile_append_of_pos hpre, List.dropWhile_cons_of_neg (by simp)]
    rfl
  refine ⟨fun t => (anchored.dropWhile (·.1 ≠ t)).length, ?_⟩
  rintro ⟨k, m⟩ he t ht
  obtain ⟨pre, post, heq⟩ := List.append_of_mem he
  obtain ⟨⟨t', n⟩, hn, rfl⟩ := List.mem_map.mp (h pre k m post heq t ht)
  obtain ⟨mid, post', rfl⟩ := List.append_of_mem hn
  have hk := hrank pre k m _ heq
  have ht' := hrank (pre ++ (k, m) :: mid) t' n post' (by rw [heq]; simp)
  rw [List.length_append, List.length_cons] at hk
  dsimp only at hk ht' ⊢
  omega

/-- In a document without an alias inside the collection that it names, following aliases comes to
an end. -/
theorem read_unfolds {text : String} {g : Graph} (h : read text = .ok (some g))
    (hloop : g.Loopless) : g.Unfolds := by
  obtain ⟨b, hb⟩ := read_composed h
  refine ⟨fun e he => ?_, ranked_of_settled hb.nodup fun pre k m post heq t ht => ?_⟩
  · have hpart := hb.parts e he
    rwa [List.flatMap_singleton] at hpart
  · rcases hb.settled pre k m post heq t ht with hpost | hold | ⟨n, hn, htn⟩
    · exact hpost
    · exact absurd hold (Nat.not_lt_zero t)
    · exact absurd htn (hloop (t, n) hn)

end TreeLang.Document
