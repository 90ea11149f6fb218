import TreeLang.Text.Lines

/-!
# Which lines a reader gives out

A reader of lines holds some octets and has others left in its stream; `LineReader.unread` is both
together. Main statement: `LineReader.line_unread`. However much the reader takes from its stream at
a time, it gives out what stands in front of the first line feed of the unread octets, and what is
behind it stays unread.

`lineAt` numbers the lines of octets by the pieces between the line feeds, without regard to any
reader. `lineAt_zero` and `lineAt_behind` connect it with a reader that goes on from line to line.
-/

namespace TreeLang.Text

/-! ## Pieces between line feeds -/

/-- The line with a number, counted from zero, without a carriage return at its end. The last line
needs no line feed, and all lines behind it are empty. -/
def lineAt (os : Octets) (i : Nat) : String := (dropReturn ((os.splitOn lineFeed).getD i [])).text

/-- All lines behind the last one are empty. -/
theorem lineAt_of_length_le {os : Octets} {i : Nat} (h : (os.splitOn lineFeed).length ≤ i) :
    lineAt os i = "" := by
  rw [lineAt, List.getD_eq_getElem?_getD, List.getElem?_eq_none h]
  rfl

/-- The first lines. -/
def firstLines (count : Nat) (os : Octets) : List String := (List.range count).map (lineAt os)

/-- The octets in front of the first line feed. -/
def firstPiece (os : Octets) : Octets := os.takeWhile (· ≠ lineFeed)

/-- The octets behind the first line feed. -/
def behindLine (os : Octets) : Octets := os.drop ((firstPiece os).length + 1)

/-- The octets behind the first lines. -/
def behindLines : (count : Nat) → Octets → Octets
  | 0, os => os
  | count + 1, os => behindLines count (behindLine os)

section

variable {front rest os : Octets}

theorem firstPiece_front (h : lineFeed ∉ front) (os : Octets) :
    firstPiece (front ++ os) = front ++ firstPiece os :=
  List.takeWhile_append_of_pos fun _ ho => decide_eq_true fun heq => h (heq ▸ ho)

theorem firstPiece_append (h : lineFeed ∉ front) :
    firstPiece (front ++ lineFeed :: rest) = front := by
  rw [firstPiece_front h]
  simp [firstPiece]

theorem behindLine_append (h : lineFeed ∉ front) :
    behindLine (front ++ lineFeed :: rest) = rest := by
  rw [behindLine, firstPiece_append h, List.drop_append]
  simp

theorem firstPiece_of_notMem (h : lineFeed ∉ os) : firstPiece os = os := by
  simpa [firstPiece] using firstPiece_front h []

theorem behindLine_of_notMem (h : lineFeed ∉ os) : behindLine os = [] := by
  rw [behindLine, firstPiece_of_notMem h]
  exact List.drop_eq_nil_of_le (Nat.le_succ _)

end

theorem splitOn_lineFeed (os : Octets) :
    os.splitOn lineFeed =
      firstPiece os :: if lineFeed ∈ os then (behindLine os).splitOn lineFeed else [] := by
  split
  · next h =>
    obtain ⟨front, rest, rfl, hfront⟩ := List.eq_append_cons_of_mem h
    have hkept : ∀ o ∈ front, (o == lineFeed) = false :=
      fun o ho => beq_eq_false_iff_ne.mpr fun heq => hfront (heq ▸ ho)
    rw [firstPiece_append hfront, behindLine_append hfront]
    exact List.splitOnP_append_cons_of_forall_mem hkept lineFeed (beq_self_eq_true _) rest
  · next h => rw [List.splitOn_eq_singleton h, firstPiece_of_notMem h]

theorem lineAt_zero (os : Octets) : lineAt os 0 = (dropReturn (firstPiece os)).text := by
  rw [lineAt, splitOn_lineFeed]
  rfl

theorem lineAt_behind (os : Octets) (i : Nat) : lineAt (behindLine os) i = lineAt os (i + 1) := by
  rw [lineAt, lineAt, splitOn_lineFeed os, List.getD_cons_succ]
  split
  · rfl
  · next h =>
    -- Behind the last line there is nothing, which is one more piece but an empty one.
    rw [behindLine_of_notMem h]
    cases i <;> rfl

theorem firstLines_succ (count : Nat) (os : Octets) :
    firstLines (count + 1) os = lineAt os 0 :: firstLines count (behindLine os) := by
  simp [firstLines, List.range_succ_eq_map, lineAt_behind]

attribute [local simp] behindLines in
theorem firstLines_add (n k : Nat) (os : Octets) :
    firstLines (n + k) os = firstLines n os ++ firstLines k (behindLines n os) := by
  induction n generalizing os with
  | zero => simp [firstLines]
  | succ n ih =>
    rw [Nat.succ_add, firstLines_succ, firstLines_succ, ih, behindLines, List.cons_append]

theorem behindLines_add (n k : Nat) (os : Octets) :
    behindLines (n + k) os = behindLines k (behindLines n os) := by
  induction n generalizing os with
  | zero => rw [Nat.zero_add, behindLines]
  | succ n ih => rw [Nat.succ_add, behindLines, behindLines, ih]

/-! ## Readers -/

namespace LineReader

/-- The octets that a reader has not given out. -/
def unread (r : LineReader) : Octets := r.held ++ r.stream

theorem unread_fill (r : LineReader) (size : Nat) : (r.fill size).unread = r.unread := by
  simp [fill, unread]

/-- If a reader holds a whole line, or all that there is, then it cuts off the first line. -/
theorem cut_unread {r : LineReader} (h : lineFeed ∈ r.held ∨ r.stream = []) :
    r.cut.1 = firstPiece r.unread ∧ r.cut.2.unread = behindLine r.unread := by
  obtain ⟨held, stream⟩ := r
  change firstPiece held = firstPiece (held ++ stream) ∧
    behindLine held ++ stream = behindLine (held ++ stream)
  rcases h with h | rfl
  · obtain ⟨front, rest, rfl, hfront⟩ := List.eq_append_cons_of_mem h
    rw [List.append_assoc, List.cons_append, firstPiece_append hfront, firstPiece_append hfront,
      behindLine_append hfront, behindLine_append hfront]
    exact ⟨rfl, rfl⟩
  · simp

/-- A reader with room for the next line and its line feed holds them once it is filled, or else
all that there is. -/
theorem fill_ready {r : LineReader} {size : Nat}
    (h : r.held.length + (firstPiece r.stream).length + 1 ≤ size) :
    lineFeed ∈ (r.fill size).held ∨ (r.fill size).stream = [] := by
  by_cases hmem : lineFeed ∈ r.stream
  · obtain ⟨front, rest, heq, hfront⟩ := List.eq_append_cons_of_mem hmem
    rw [heq, firstPiece_append hfront] at h
    obtain ⟨more, hmore⟩ := Nat.exists_eq_add_of_le h
    have hroom : size - r.held.length = (front ++ [lineFeed]).length + more := by
      rw [List.length_append, List.length_singleton]
      omega
    left
    change lineFeed ∈ r.held ++ r.stream.take (size - r.held.length)
    rw [heq, List.append_cons, hroom, List.take_length_add_append]
    simp
  · rw [firstPiece_of_notMem hmem] at h
    right
    exact List.drop_eq_nil_of_le (by omega)

/-- A reader gives out the first line of what it has not given out yet, however it has to fill
itself for that. -/
theorem line_unread (r : LineReader) :
    r.line.1 = firstPiece r.unread ∧ r.line.2.unread = behindLine r.unread := by
  unfold line
  split
  · next h => exact cut_unread (.inl (List.contains_iff_mem.mp h))
  · extract_lets length
    have hroom : length ≤ (length + capacity - 1) / capacity * capacity := by
      unfold capacity
      omega
    rw [← unread_fill r ((length + capacity - 1) / capacity * capacity)]
    exact cut_unread (fill_ready hroom)

end LineReader

end TreeLang.Text
