/-
Positions from a table of lines.

`Source.position` walks the text for every question.  An index answers from two lists
that one pass over the text makes: where each line begins, and which characters are
wider than one byte.  Its arithmetic subtracts, three times over, and `minus?` is the
subtraction that fails where a number without a sign would have to go below zero.

The pass is described by `Scanned`: what the table holds when a beginning of the text
has been read.  What is read after that only adds line starts behind the current byte and
wide characters at or behind it, so at every boundary between two characters the answer
is the one of `Source.position`, and no subtraction on the way fails.

Not proved here: that the numbers of an index fit into 32 bits.  Those of a text of less than
4 GiB do; longer texts are not covered.
-/
import DomainModel.Source.Lines
import Mathlib.Algebra.GroupWithZero.Nat
import Mathlib.Data.List.Basic

namespace DomainModel.Source

/-- How many bytes some characters take. -/
def byteLength (cs : List Char) : Nat := (cs.map Char.utf8Size).sum

@[simp] theorem byteLength_nil : byteLength [] = 0 := rfl

@[simp] theorem byteLength_cons (c : Char) (cs : List Char) :
    byteLength (c :: cs) = c.utf8Size + byteLength cs := by
  simp [byteLength]

@[simp] theorem byteLength_append (cs ds : List Char) :
    byteLength (cs ++ ds) = byteLength cs + byteLength ds := by
  simp [byteLength]

theorem byteLength_ofList (cs : List Char) : (String.ofList cs).utf8ByteSize = byteLength cs := by
  induction cs with
  | nil => rfl
  | cons c cs ih =>
      rw [show String.ofList (c :: cs) = String.singleton c ++ String.ofList cs by
          rw [← String.toList_inj]; simp,
        String.utf8ByteSize_append, ih, String.utf8ByteSize_singleton, byteLength_cons]

theorem byteLength_toList (s : String) : byteLength s.toList = s.utf8ByteSize := by
  rw [← byteLength_ofList, String.ofList_toList]

/-! ### The position behind some characters -/

/-- The position behind a character. -/
def advance (p : Position) (c : Char) : Position :=
  if c = '\n' then ⟨p.line + 1, 0⟩ else ⟨p.line, p.column + 1⟩

/-- At the boundary behind `front`, the walk has read exactly `front`. -/
theorem positionFrom_boundary (front back : List Char) :
    ∀ here : Position,
      positionFrom here (front ++ back) (byteLength front) = front.foldl advance here := by
  induction front with
  | nil =>
      intro here
      cases back with
      | nil => rfl
      | cons c cs => simp [positionFrom]
  | cons c cs ih =>
      intro here
      have hpos : c.utf8Size + byteLength cs ≠ 0 := by
        have := c.utf8Size_pos
        omega
      rw [List.cons_append, byteLength_cons, positionFrom, if_neg hpos, List.foldl_cons]
      by_cases hc : c = '\n'
      · subst hc
        rw [if_pos rfl, show Char.utf8Size '\n' + byteLength cs - 1 = byteLength cs by
          rw [show Char.utf8Size '\n' = 1 from rfl]; omega, ih, advance, if_pos rfl]
      · rw [if_neg hc, Nat.add_sub_cancel_left, ih, advance, if_neg hc]

/-! ### The table -/

/-- The difference, where it is not negative. -/
def minus? (m n : Nat) : Option Nat := if n ≤ m then some (m - n) else none

theorem minus?_eq_some {m n : Nat} (h : n ≤ m) : minus? m n = some (m - n) := if_pos h

/-- A character of more than one byte: its line, the byte of that line at which it begins,
and its width. -/
structure WideChar where
  line : Nat
  start : Nat
  width : Nat

structure LineIndex where
  lineStarts : List Nat
  wideChars : List WideChar

/-- The table made so far, and where the pass stands. -/
structure LineScan where
  index : LineIndex := ⟨[0], []⟩
  line : Nat := 0
  lineStart : Nat := 0
  offset : Nat := 0

/-- Reads one more character. -/
def LineScan.read? (s : LineScan) (c : Char) : Option LineScan :=
  let next := s.offset + c.utf8Size
  if c = '\n' then
    some { s with
      index := { s.index with lineStarts := s.index.lineStarts ++ [next] }
      line := s.line + 1
      lineStart := next
      offset := next }
  else if 1 < c.utf8Size then
    (minus? s.offset s.lineStart).map fun start =>
      { s with
        index := { s.index with
          wideChars := s.index.wideChars ++ [⟨s.line, start, c.utf8Size⟩] }
        offset := next }
  else some { s with offset := next }

namespace LineIndex

def ofText? (text : List Char) : Option LineIndex :=
  (text.foldlM LineScan.read? {}).map (·.index)

/-- Takes the surplus bytes of the wide characters in front of the byte `column` off
`count`. -/
def narrow? (column : Nat) : Nat → List WideChar → Option Nat
  | count, [] => some count
  | count, w :: ws =>
    if column ≤ w.start then some count
    else (minus? count (w.width - 1)).bind fun count => narrow? column count ws

/-- The position of a byte: the last line that begins at or in front of it, and how many
characters of that line stand in front of it. -/
def position? (index : LineIndex) (offset : Nat) : Option Position := do
  let line := (index.lineStarts.takeWhile (· ≤ offset)).length - 1
  let lineStart ← index.lineStarts[line]?
  let column ← minus? offset lineStart
  let count ← narrow? column column (index.wideChars.filter (·.line == line))
  return ⟨line + 1, count⟩

def span? (index : LineIndex) (range : Range) : Option Span := do
  return ⟨← index.position? range.start, ← index.position? range.stop, range⟩

end LineIndex

/-! ### What the table holds -/

/-- The surplus bytes of some wide characters. -/
def surplus (ws : List WideChar) : Nat := (ws.map fun w => w.width - 1).sum

/-- The pass has read `front`, and the table is right for its end. -/
structure Scanned (front : List Char) (s : LineScan) : Prop where
  offset : s.offset = byteLength front
  /-- The current line is the last one of the table. -/
  count : s.index.lineStarts.length = s.line + 1
  current : s.index.lineStarts[s.line]? = some s.lineStart
  started : ∀ n ∈ s.index.lineStarts, n ≤ s.offset
  /-- Wide characters of the current line end at the current byte or before it. -/
  ended : ∀ w ∈ s.index.wideChars, w.line ≤ s.line ∧
    (w.line = s.line → s.lineStart + w.start < s.offset)
  /-- The column is what the surplus bytes leave of the bytes of the line. -/
  column : ∃ n, front.foldl advance ⟨1, 0⟩ = ⟨s.line + 1, n⟩ ∧
    s.lineStart + n + surplus (s.index.wideChars.filter (·.line == s.line)) = s.offset

theorem Scanned.start : Scanned [] {} where
  offset := rfl
  count := rfl
  current := rfl
  started := by simp
  ended := by simp
  column := ⟨0, rfl, rfl⟩

theorem Scanned.lineStart_le {front : List Char} {s : LineScan} (h : Scanned front s) :
    s.lineStart ≤ s.offset := h.started _ (List.mem_of_getElem? h.current)

/-- Reading a character never fails, and keeps the table right. -/
theorem Scanned.read {front : List Char} {s : LineScan} (h : Scanned front s) (c : Char) :
    ∃ s', s.read? c = some s' ∧ Scanned (front ++ [c]) s' := by
  have hwidth := c.utf8Size_pos
  obtain ⟨n, hpos, hn⟩ := h.column
  have hfold : (front ++ [c]).foldl advance ⟨1, 0⟩ = advance ⟨s.line + 1, n⟩ c := by
    rw [List.foldl_append, hpos]; rfl
  unfold LineScan.read?
  by_cases hc : c = '\n'
  · -- A new line: no wide character belongs to it yet.
    rw [if_pos hc]
    refine ⟨_, rfl, ?_⟩
    have hnone : s.index.wideChars.filter (·.line == s.line + 1) = [] := by
      rw [List.filter_eq_nil_iff]
      intro w hw
      have := (h.ended w hw).1
      simp only [beq_iff_eq]
      omega
    exact {
      offset := by simp [h.offset]
      count := by simp [h.count]
      current := by simp [← h.count]
      started := by
        intro m hm
        rcases List.mem_append.mp hm with hm | hm
        · have := h.started m hm
          show m ≤ s.offset + c.utf8Size
          omega
        · exact Nat.le_of_eq (List.mem_singleton.mp hm)
      ended := by
        intro w hw
        have hle := (h.ended w hw).1
        exact ⟨Nat.le_succ_of_le hle, fun heq => absurd heq (by show w.line ≠ s.line + 1; omega)⟩
      column := by
        refine ⟨0, ?_, ?_⟩
        · rw [hfold, advance, if_pos hc]
        · show s.offset + c.utf8Size + 0 +
            surplus (s.index.wideChars.filter (·.line == s.line + 1)) = s.offset + c.utf8Size
          rw [hnone]; rfl }
  · rw [if_neg hc]
    have hstep : advance ⟨s.line + 1, n⟩ c = ⟨s.line + 1, n + 1⟩ := by rw [advance, if_neg hc]
    by_cases hwide : 1 < c.utf8Size
    · rw [if_pos hwide, minus?_eq_some h.lineStart_le]
      refine ⟨_, rfl, ?_⟩
      have hle := h.lineStart_le
      exact {
        offset := by simp [h.offset]
        count := h.count
        current := h.current
        started := fun m hm => Nat.le_trans (h.started m hm) (Nat.le_add_right _ _)
        ended := by
          intro w hw
          rcases List.mem_append.mp hw with hw | hw
          · exact ⟨(h.ended w hw).1, fun heq =>
              Nat.lt_of_lt_of_le ((h.ended w hw).2 heq) (Nat.le_add_right _ _)⟩
          · rw [List.mem_singleton.mp hw]
            refine ⟨Nat.le_refl _, fun _ => ?_⟩
            show s.lineStart + (s.offset - s.lineStart) < s.offset + c.utf8Size
            omega
        column := by
          refine ⟨n + 1, by rw [hfold, hstep], ?_⟩
          have hsplit : ∀ w : WideChar, w.line = s.line →
              (s.index.wideChars ++ [w]).filter (·.line == s.line) =
                s.index.wideChars.filter (·.line == s.line) ++ [w] := by
            intro w hw
            rw [List.filter_append]
            simp [hw]
          show s.lineStart + (n + 1) + surplus ((s.index.wideChars ++ _).filter _) =
            s.offset + c.utf8Size
          rw [hsplit _ rfl]
          simp only [surplus, List.map_append, List.sum_append, List.map_cons, List.map_nil,
            List.sum_cons, List.sum_nil] at hn ⊢
          omega }
    · rw [if_neg hwide]
      refine ⟨_, rfl, ?_⟩
      exact {
        offset := by simp [h.offset]
        count := h.count
        current := h.current
        started := fun m hm => Nat.le_trans (h.started m hm) (Nat.le_add_right _ _)
        ended := fun w hw => ⟨(h.ended w hw).1, fun heq =>
          Nat.lt_of_lt_of_le ((h.ended w hw).2 heq) (Nat.le_add_right _ _)⟩
        column := by
          refine ⟨n + 1, by rw [hfold, hstep], ?_⟩
          show s.lineStart + (n + 1) + surplus (s.index.wideChars.filter (·.line == s.line)) =
            s.offset + c.utf8Size
          omega }

theorem Scanned.readAll {front : List Char} {s : LineScan} (h : Scanned front s) (cs : List Char) :
    ∃ s', cs.foldlM LineScan.read? s = some s' ∧ Scanned (front ++ cs) s' := by
  induction cs generalizing front s with
  | nil => exact ⟨s, rfl, by simpa using h⟩
  | cons c cs ih =>
      obtain ⟨s₁, hread, h₁⟩ := h.read c
      obtain ⟨s₂, hrest, h₂⟩ := ih h₁
      refine ⟨s₂, ?_, by simpa using h₂⟩
      rw [List.foldlM_cons, hread]
      exact hrest

/-! ### What is read later -/

/-- What the table gains behind the byte at which `s` stands. -/
structure Grown (s s' : LineScan) : Prop where
  offset : s.offset ≤ s'.offset
  line : s.line ≤ s'.line
  same : s'.line = s.line → s'.lineStart = s.lineStart
  starts : ∃ ms, s'.index.lineStarts = s.index.lineStarts ++ ms ∧ ∀ m ∈ ms, s.offset < m
  wides : ∃ ws, s'.index.wideChars = s.index.wideChars ++ ws ∧
    ∀ w ∈ ws, w.line = s.line → s.offset - s.lineStart ≤ w.start

theorem Grown.refl (s : LineScan) : Grown s s where
  offset := Nat.le_refl _
  line := Nat.le_refl _
  same := fun _ => rfl
  starts := ⟨[], by simp, by simp⟩
  wides := ⟨[], by simp, by simp⟩

theorem Grown.read {s s₁ s₂ : LineScan} (h : Grown s s₁) {c : Char} (hread : s₁.read? c = some s₂) :
    Grown s s₂ := by
  have hwidth := c.utf8Size_pos
  have hoff := h.offset
  have hline := h.line
  obtain ⟨ms, hms, hms'⟩ := h.starts
  obtain ⟨ws, hws, hws'⟩ := h.wides
  unfold LineScan.read? at hread
  by_cases hc : c = '\n'
  · rw [if_pos hc] at hread
    obtain rfl := Option.some.inj hread
    exact {
      offset := Nat.le_trans hoff (Nat.le_add_right _ _)
      line := Nat.le_succ_of_le hline
      same := fun heq => absurd heq (by show s₁.line + 1 ≠ s.line; omega)
      starts := by
        refine ⟨ms ++ [s₁.offset + c.utf8Size], by simp [hms], ?_⟩
        intro m hm
        rcases List.mem_append.mp hm with hm | hm
        · exact hms' m hm
        · rw [List.mem_singleton.mp hm]; omega
      wides := ⟨ws, hws, hws'⟩ }
  · rw [if_neg hc] at hread
    by_cases hwide : 1 < c.utf8Size
    · rw [if_pos hwide, Option.map_eq_some_iff] at hread
      obtain ⟨start, hstart, rfl⟩ := hread
      have hvalue : start = s₁.offset - s₁.lineStart := by
        unfold minus? at hstart
        split at hstart
        · exact (Option.some.inj hstart).symm
        · cases hstart
      exact {
        offset := Nat.le_trans hoff (Nat.le_add_right _ _)
        line := hline
        same := h.same
        starts := ⟨ms, hms, hms'⟩
        wides := by
          refine ⟨ws ++ [⟨s₁.line, start, c.utf8Size⟩], by simp [hws], ?_⟩
          intro w hw hl
          rcases List.mem_append.mp hw with hw | hw
          · exact hws' w hw hl
          · rw [List.mem_singleton.mp hw] at hl ⊢
            have hsame := h.same hl
            show s.offset - s.lineStart ≤ start
            omega }
    · rw [if_neg hwide] at hread
      obtain rfl := Option.some.inj hread
      exact {
        offset := Nat.le_trans hoff (Nat.le_add_right _ _)
        line := hline
        same := h.same
        starts := ⟨ms, hms, hms'⟩
        wides := ⟨ws, hws, hws'⟩ }

theorem Grown.readAll {s s₁ s₂ : LineScan} (h : Grown s s₁) {cs : List Char}
    (hread : cs.foldlM LineScan.read? s₁ = some s₂) : Grown s s₂ := by
  induction cs generalizing s₁ with
  | nil =>
      obtain rfl := Option.some.inj hread
      exact h
  | cons c cs ih =>
      rw [List.foldlM_cons, Option.bind_eq_bind, Option.bind_eq_some_iff] at hread
      obtain ⟨s₃, hc, hcs⟩ := hread
      exact ih (h.read hc) hcs

/-! ### Answers -/

/-- Wide characters in front of the byte are all taken off, those behind it are not. -/
theorem narrow?_split {column : Nat} {ws vs : List WideChar} (hbefore : ∀ w ∈ ws, w.start < column)
    (hbehind : ∀ v ∈ vs, column ≤ v.start) :
    ∀ count, surplus ws ≤ count →
      LineIndex.narrow? column count (ws ++ vs) = some (count - surplus ws) := by
  induction ws with
  | nil =>
      intro count _
      cases vs with
      | nil => rfl
      | cons v vs =>
          rw [List.nil_append, LineIndex.narrow?, if_pos (hbehind v (by simp))]
          rfl
  | cons w ws ih =>
      intro count hcount
      have hw := hbefore w (by simp)
      simp only [surplus, List.map_cons, List.sum_cons] at hcount ⊢
      rw [List.cons_append, LineIndex.narrow?, if_neg (by omega), minus?_eq_some (by omega)]
      have hrest := ih (fun x hx => hbefore x (by simp [hx])) (count - (w.width - 1))
        (by simp only [surplus]; omega)
      show LineIndex.narrow? column (count - (w.width - 1)) (ws ++ vs) = _
      rw [hrest]
      simp only [surplus]
      congr 1
      omega

theorem takeWhile_le_append {ns ms : List Nat} {n : Nat} (hns : ∀ x ∈ ns, x ≤ n)
    (hms : ∀ x ∈ ms, n < x) : (ns ++ ms).takeWhile (· ≤ n) = ns := by
  rw [List.takeWhile_append_of_pos (fun x hx => by simpa using hns x hx)]
  cases ms with
  | nil => simp
  | cons m ms =>
      have := hms m (by simp)
      rw [List.takeWhile_cons_of_neg (by simpa using this), List.append_nil]

/-- **At a boundary between two characters the table answers, and its answer is the
position that a walk over the text finds.** -/
theorem position?_boundary (front back : List Char) :
    ∃ index, LineIndex.ofText? (front ++ back) = some index ∧
      index.position? (byteLength front) = some (position (front ++ back) (byteLength front)) := by
  obtain ⟨s, hs, hscan⟩ := Scanned.start.readAll front
  rw [List.nil_append] at hscan
  obtain ⟨s', hs', hscan'⟩ := hscan.readAll back
  have hgrown := (Grown.refl s).readAll hs'
  refine ⟨s'.index, ?_, ?_⟩
  · rw [LineIndex.ofText?, List.foldlM_append, hs]
    show (back.foldlM LineScan.read? s).map (·.index) = some s'.index
    rw [hs']
    rfl
  · obtain ⟨n, hpos, hn⟩ := hscan.column
    obtain ⟨ms, hms, hms'⟩ := hgrown.starts
    obtain ⟨ws, hws, hws'⟩ := hgrown.wides
    have hoffset := hscan.offset
    have hline : (s'.index.lineStarts.takeWhile (· ≤ s.offset)).length - 1 = s.line := by
      rw [hms, takeWhile_le_append hscan.started hms', hscan.count]
      rfl
    have hcurrent : s'.index.lineStarts[s.line]? = some s.lineStart := by
      rw [hms, List.getElem?_append_left (by rw [hscan.count]; omega)]
      exact hscan.current
    have hwides : s'.index.wideChars.filter (·.line == s.line) =
        s.index.wideChars.filter (·.line == s.line) ++ ws.filter (·.line == s.line) := by
      rw [hws, List.filter_append]
    have hcount : LineIndex.narrow? (s.offset - s.lineStart) (s.offset - s.lineStart)
        (s'.index.wideChars.filter (·.line == s.line)) = some n := by
      rw [hwides, narrow?_split]
      · congr 1
        omega
      · intro w hw
        obtain ⟨hmem, hl⟩ := List.mem_filter.mp hw
        have := (hscan.ended w hmem).2 (by simpa using hl)
        omega
      · intro w hw
        obtain ⟨hmem, hl⟩ := List.mem_filter.mp hw
        exact hws' w hmem (by simpa using hl)
      · omega
    rw [position, positionFrom_boundary, hpos, ← hoffset, LineIndex.position?]
    simp only [hline, hcurrent, minus?_eq_some hscan.lineStart_le, hcount, Option.bind_eq_bind,
      Option.bind_some, Option.pure_def]

/-- A range between two boundaries has a span in the table, and it is the span of the walk. -/
theorem span?_boundaries {text front middle back : List Char} (h : text = front ++ middle ++ back) :
    ∃ index, LineIndex.ofText? text = some index ∧
      index.span? ⟨byteLength front, byteLength (front ++ middle)⟩ =
        some (span text ⟨byteLength front, byteLength (front ++ middle)⟩) := by
  subst h
  obtain ⟨index, hindex, hstart⟩ := position?_boundary front (middle ++ back)
  obtain ⟨index', hindex', hstop⟩ := position?_boundary (front ++ middle) back
  rw [List.append_assoc] at hindex' hstop
  rw [hindex] at hindex'
  obtain rfl := Option.some.inj hindex'
  refine ⟨index, by rw [List.append_assoc]; exact hindex, ?_⟩
  rw [LineIndex.span?, List.append_assoc, hstart, hstop]
  rfl

end DomainModel.Source
