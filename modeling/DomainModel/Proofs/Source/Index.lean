/-
What an index of lines answers.

At every boundary of its text an index answers, and with the position that a walk over the
text finds (`exists_answers`).  That position is two counts, of the line feeds in front of
the boundary and of the characters behind the last of them (`position_counted`), so it can
be told without any table (`position?_counts`).  The line is looked for by halving, for which
the table has to ascend: `LineScan.Ascends` is what reading one character preserves, and so
the whole text (`lineStarts_sorted`).

Since boundaries and their positions have the same order, a span whose ends are boundaries
is a range of bytes in another notation: it contains a boundary if the range does, and the
cover of two spans is the span of the smallest range around both (`span?_ranges`).  Within a
word the positions are those of its characters and no others (`exists_boundary`).
-/
import DomainModel.Proofs.Source.Order
import Mathlib.Data.List.DropRight
import Mathlib.Data.List.Induction

namespace DomainModel

/-! ### The order of positions -/

/-- `p` stands in front of `q`: on a line before, or on the same line in a column before. -/
def Position.Before (p q : Position) : Prop :=
  p.line < q.line ∨ p.line = q.line ∧ p.column < q.column

instance (p q : Position) : Decidable (p.Before q) := inferInstanceAs (Decidable (_ ∨ _))

theorem Position.before_iff {p q : Position} : p.Before q ↔ ¬q.AtMost p := by
  simp only [Before, AtMost]
  omega

/-! ### Smallest covers -/

namespace Range

/-- `c` is the smallest range around `r` and `s`. -/
structure IsCover (c r s : Range) : Prop where
  left : r.Within c
  right : s.Within c
  least : ∀ d : Range, r.Within d → s.Within d → c.Within d

theorem cover_isCover (r s : Range) : (r.cover s).IsCover r s where
  left := ⟨Nat.min_le_left .., Nat.le_max_left ..⟩
  right := ⟨Nat.min_le_right .., Nat.le_max_right ..⟩
  least := fun _ hr hs => ⟨Nat.le_min.mpr ⟨hr.1, hs.1⟩, Nat.max_le.mpr ⟨hr.2, hs.2⟩⟩

theorem cover_comm (r s : Range) : r.cover s = s.cover r := by
  rw [cover, cover, Nat.min_comm, Nat.max_comm]

theorem cover_assoc (r s t : Range) : (r.cover s).cover t = r.cover (s.cover t) := by
  simp only [cover, Nat.min_assoc, Nat.max_assoc]

theorem cover_self (r : Range) : r.cover r = r := by
  rw [cover, Nat.min_self, Nat.max_self]

end Range

namespace Source

/-! ### Counting -/

/-- The line and the column behind some characters, by counting: as many lines as there are
line feeds come before it, and as many characters as there are behind the last of them. -/
def counted (front : List Char) : Position :=
  ⟨1 + front.count '\n', (front.rtakeWhile (· ≠ '\n')).length⟩

theorem counted_concat (front : List Char) (c : Char) :
    counted (front ++ [c]) = advance (counted front) c := by
  rw [counted, advance, List.count_append, List.rtakeWhile_concat]
  by_cases hc : c = '\n'
  · simp [counted, hc, Nat.add_assoc]
  · simp [counted, hc]

/-- **A walk counts.** -/
theorem foldl_advance (front : List Char) : front.foldl advance ⟨1, 0⟩ = counted front := by
  induction front using List.reverseRecOn with
  | nil => rfl
  | append_singleton front c ih =>
      rw [List.foldl_append, ih, counted_concat]
      rfl

/-- Within a line only columns are counted on. -/
theorem counted_append (front : List Char) {more : List Char} (h : '\n' ∉ more) :
    counted (front ++ more) = ⟨(counted front).line, (counted front).column + more.length⟩ := by
  induction more using List.reverseRecOn with
  | nil => simp
  | append_singleton more c ih =>
      rw [List.mem_append, List.mem_singleton, not_or] at h
      rw [← List.append_assoc, counted_concat, ih h.1, advance, if_neg (Ne.symm h.2),
        List.length_append, List.length_singleton, Nat.add_assoc]

theorem position_counted (front back : List Char) :
    position (front ++ back) (byteLength front) = counted front := by
  rw [position, positionFrom_boundary, foldl_advance]

/-! ### Boundaries and their positions -/

section
variable {text : List Char} {m n : Nat}

theorem position_before (hm : Boundary text m) (hn : Boundary text n) :
    (position text m).Before (position text n) ↔ m < n := by
  rw [Position.before_iff, position_atMost hn hm, Nat.not_le]

theorem position_inj (hm : Boundary text m) (hn : Boundary text n) :
    position text m = position text n ↔ m = n := by
  refine ⟨fun h => ?_, congrArg _⟩
  have hle := (position_atMost hm hn).mp (h ▸ .refl _)
  have hge := (position_atMost hn hm).mp (h ▸ .refl _)
  exact Nat.le_antisymm hle hge

end

/-- **Between the ends of a word there are no positions but those of its characters.** -/
theorem exists_boundary {front word : List Char} (back : List Char) (hword : '\n' ∉ word)
    {p : Position} (hstart : (counted front).Before p) (hstop : p.Before (counted (front ++ word))) :
    ∃ n, Boundary (front ++ word ++ back) n ∧ byteLength front < n ∧
      n < byteLength (front ++ word) ∧ p = position (front ++ word ++ back) n := by
  rw [counted_append front hword] at hstop
  obtain ⟨k, hk, hlt, rfl⟩ : ∃ k, 0 < k ∧ k < word.length ∧
      p = ⟨(counted front).line, (counted front).column + k⟩ := by
    obtain ⟨line, column⟩ := p
    simp only [Position.Before] at hstart hstop
    obtain rfl : line = (counted front).line := by omega
    exact ⟨column - (counted front).column, by omega, by omega, by congr 1; omega⟩
  obtain ⟨lead, rest, rfl, rfl⟩ : ∃ lead rest, word = lead ++ rest ∧ lead.length = k :=
    ⟨_, _, (List.take_append_drop k word).symm, List.length_take_of_le (Nat.le_of_lt hlt)⟩
  have hlead : lead ≠ [] := List.ne_nil_of_length_pos hk
  have hrest : rest ≠ [] := by
    rintro rfl
    simp at hlt
  have htext : front ++ (lead ++ rest) ++ back = front ++ lead ++ (rest ++ back) := by simp
  refine ⟨byteLength (front ++ lead), ⟨_, _, htext, rfl⟩, ?_, ?_, ?_⟩
  · rw [byteLength_append]
    exact Nat.lt_add_of_pos_right (byteLength_pos hlead)
  · rw [← List.append_assoc, byteLength_append (front ++ lead)]
    exact Nat.lt_add_of_pos_right (byteLength_pos hrest)
  · rw [htext, position_counted,
      counted_append front fun h => hword (List.mem_append_left _ h)]

/-! ### Line starts ascend

The last line that begins at an offset or in front of it is looked for by halving the table.
That finds the end of the beginning of the table that a walk along it finds, as long as the
table ascends. -/

/-- The lines of a table begin one behind the other, and in what has been read. -/
structure LineScan.Ascends (s : LineScan) : Prop where
  sorted : s.index.lineStarts.Pairwise (· < ·)
  reached : ∀ n ∈ s.index.lineStarts, n ≤ s.offset

theorem LineScan.Ascends.read {s s' : LineScan} (h : s.Ascends) {c : Char}
    (hread : s.read? c = some s') : s'.Ascends := by
  have hwidth := c.utf8Size_pos
  have hbehind : ∀ n ∈ s.index.lineStarts, n < s.offset + c.utf8Size := fun n hn =>
    Nat.lt_of_le_of_lt (h.reached n hn) (Nat.lt_add_of_pos_right hwidth)
  unfold LineScan.read? at hread
  split at hread
  · obtain rfl := Option.some.inj hread
    refine ⟨List.pairwise_append.mpr ⟨h.sorted, List.pairwise_singleton .., fun n hn m hm => ?_⟩,
      List.forall_mem_append.mpr ⟨fun n hn => Nat.le_of_lt (hbehind n hn), ?_⟩⟩
    · exact List.mem_singleton.mp hm ▸ hbehind n hn
    · exact List.forall_mem_singleton.mpr (Nat.le_refl _)
  · split at hread
    · obtain ⟨start, -, rfl⟩ := Option.map_eq_some_iff.mp hread
      exact ⟨h.sorted, fun n hn => Nat.le_of_lt (hbehind n hn)⟩
    · obtain rfl := Option.some.inj hread
      exact ⟨h.sorted, fun n hn => Nat.le_of_lt (hbehind n hn)⟩

theorem LineScan.Ascends.readAll {cs : List Char} : ∀ {s s' : LineScan}, s.Ascends →
    cs.foldlM LineScan.read? s = some s' → s'.Ascends := by
  induction cs with
  | nil =>
      intro s s' h hread
      obtain rfl := Option.some.inj hread
      exact h
  | cons c cs ih =>
      intro s s' h hread
      rw [List.foldlM_cons, Option.bind_eq_bind, Option.bind_eq_some_iff] at hread
      obtain ⟨s₁, hc, hcs⟩ := hread
      exact ih (h.read hc) hcs

theorem lineStarts_sorted {text : List Char} {index : LineIndex}
    (h : LineIndex.ofText? text = some index) : index.lineStarts.Pairwise (· < ·) := by
  obtain ⟨s, hread, rfl⟩ := Option.map_eq_some_iff.mp h
  have hstart : LineScan.Ascends {} := ⟨List.pairwise_singleton .., by simp⟩
  exact (hstart.readAll hread).sorted

/-! ### Answers -/

/-- An index gives the positions that a walk finds. -/
def LineIndex.Answers (index : LineIndex) (text : List Char) : Prop :=
  ∀ n, Boundary text n → index.position? n = some (position text n)

/-- **Every text has an index, and it answers at all boundaries.** -/
theorem exists_answers (text : List Char) :
    ∃ index, LineIndex.ofText? text = some index ∧ index.Answers text := by
  obtain ⟨index, hindex, -⟩ := position?_boundary [] text
  refine ⟨index, hindex, ?_⟩
  rintro n ⟨front, back, rfl, rfl⟩
  obtain ⟨index', hindex', hposition⟩ := position?_boundary front back
  obtain rfl := Option.some.inj (hindex.symm.trans hindex')
  exact hposition

/-- **The answers of an index count lines and characters**, and its arithmetic never fails; they
are different at different boundaries, and in their order. -/
theorem position?_counts (text : List Char) :
    ∃ index, LineIndex.ofText? text = some index ∧ index.lineStarts.Pairwise (· < ·) ∧
      (∀ front back, text = front ++ back →
        index.position? (byteLength front) =
          some ⟨1 + front.count '\n', (front.rtakeWhile (· ≠ '\n')).length⟩) ∧
      ∀ m n, Boundary text m → Boundary text n →
        index.position? m = some (position text m) ∧ index.position? n = some (position text n) ∧
          (position text m = position text n ↔ m = n) ∧
          ((position text m).Before (position text n) ↔ m < n) := by
  obtain ⟨index, hindex, hanswers⟩ := exists_answers text
  refine ⟨index, hindex, lineStarts_sorted hindex, fun front back htext => ?_, fun m n hm hn =>
    ⟨hanswers m hm, hanswers n hn, position_inj hm hn, position_before hm hn⟩⟩
  rw [hanswers _ ⟨front, back, htext, rfl⟩, htext, position_counted]
  rfl

/-- Behind a line feed and a character of two bytes, at a line end. -/
theorem position?_counts_wide :
    let text := "a\né\n".toList
    ∃ index, LineIndex.ofText? text = some index ∧ index.position? 4 = some ⟨2, 1⟩ ∧
      Boundary text 4 ∧ Boundary text 5 ∧ (position text 4).Before (position text 5) := by
  intro text
  obtain ⟨index, hindex, -, hcounts, horder⟩ := position?_counts text
  have hfour : Boundary text 4 := ⟨['a', '\n', 'é'], ['\n'], by decide, by decide⟩
  have hfive : Boundary text 5 := ⟨text, [], by decide, by decide⟩
  obtain ⟨-, -, -, hbefore⟩ := horder 4 5 hfour hfive
  have hposition := hcounts ['a', '\n', 'é'] ['\n'] (by decide)
  exact ⟨index, hindex, hposition, hfour, hfive, hbefore.mpr (by decide)⟩

/-! ### Spans as ranges -/

/-- Both ends of a range are boundaries of a text. -/
structure Delimits (text : List Char) (r : Range) : Prop where
  start : Boundary text r.start
  stop : Boundary text r.stop

section
variable {text : List Char} {r s : Range}

theorem Delimits.cover (hr : Delimits text r) (hs : Delimits text s) : Delimits text (r.cover s) where
  start := by
    rw [Range.cover, Nat.min_def]
    split
    · exact hr.start
    · exact hs.start
  stop := by
    rw [Range.cover, Nat.max_def]
    split
    · exact hs.stop
    · exact hr.stop

theorem LineIndex.Answers.span? {index : LineIndex} (h : index.Answers text)
    (hr : Delimits text r) : index.span? r = some (span text r) := by
  rw [LineIndex.span?, h _ hr.start, h _ hr.stop]
  rfl

/-- The span of a wider range contains what that of a narrower one does, be it a boundary or
not. -/
theorem contains_of_within (hr : Delimits text r) (hs : Delimits text s) (h : r.Within s)
    {p : Position} (hp : (span text r).contains p = true) : (span text s).contains p = true := by
  rw [Span.contains_iff] at hp ⊢
  have hstart : (position text s.start).AtMost (position text r.start) :=
    (position_atMost hs.start hr.start).mpr h.1
  have hstop : (position text r.stop).AtMost (position text s.stop) :=
    (position_atMost hr.stop hs.stop).mpr h.2
  exact ⟨hstart.trans hp.1, hp.2.trans hstop⟩

end

/-- **Spans are ranges of bytes.**  Where the ends are boundaries, a span contains just the
boundaries in its range, covering two spans is covering their ranges, in whatever order and
however often, and a cover contains whatever one of the spans does. -/
theorem span?_ranges (text : List Char) :
    ∃ index, LineIndex.ofText? text = some index ∧
      (∀ r, Delimits text r → index.span? r = some (span text r) ∧
        ∀ n, Boundary text n → index.position? n = some (position text n) ∧
          ((span text r).contains (position text n) = true ↔ r.start ≤ n ∧ n ≤ r.stop)) ∧
      ∀ r s, Delimits text r → Delimits text s →
        (∃ c : Range, c.IsCover r s ∧
          index.span? c = some ((span text r).cover (span text s))) ∧
        (span text r).cover (span text s) = (span text s).cover (span text r) ∧
        (span text r).cover (span text r) = span text r ∧
        (∀ t, Delimits text t → ((span text r).cover (span text s)).cover (span text t) =
          (span text r).cover ((span text s).cover (span text t))) ∧
        ∀ p, ((span text r).contains p = true ∨ (span text s).contains p = true) →
          ((span text r).cover (span text s)).contains p = true := by
  obtain ⟨index, hindex, hanswers⟩ := exists_answers text
  refine ⟨index, hindex, fun r hr => ⟨hanswers.span? hr, fun n hn =>
    ⟨hanswers n hn, contains_span hr.start hr.stop hn⟩⟩, fun r s hr hs => ?_⟩
  have hcover := Range.cover_isCover r s
  simp only [cover_span]
  refine ⟨⟨_, hcover, hanswers.span? (hr.cover hs)⟩, ?_, ?_, fun t _ => ?_, fun p hp => ?_⟩
  · rw [Range.cover_comm]
  · rw [Range.cover_self]
  · rw [Range.cover_assoc]
  · rcases hp with hp | hp
    · exact contains_of_within hr (hr.cover hs) hcover.left hp
    · exact contains_of_within hs (hr.cover hs) hcover.right hp

/-- A word behind a wide character and a word on the next line: their cover contains the line
feed between them, and a column far to the right of it. -/
theorem span?_ranges_lines :
    let text := "é ab\ncd".toList
    let word : Range := ⟨3, 5⟩
    let next : Range := ⟨6, 8⟩
    Delimits text word ∧ Delimits text next ∧ Boundary text 5 ∧
      (span text word).contains (position text 5) = true ∧
      ((span text word).cover (span text next)).contains (position text 5) = true := by
  intro text word next
  have hword : Delimits text word := ⟨⟨text.take 2, text.drop 2, by decide, by decide⟩,
    ⟨text.take 4, text.drop 4, by decide, by decide⟩⟩
  have hnext : Delimits text next := ⟨⟨text.take 5, text.drop 5, by decide, by decide⟩,
    ⟨text, [], by decide, by decide⟩⟩
  obtain ⟨index, -, hcontains, hcovers⟩ := span?_ranges text
  obtain ⟨-, hin⟩ := hcontains word hword
  obtain ⟨-, hends⟩ := hin 5 hword.stop
  have hfive := hends.mpr (by decide)
  obtain ⟨-, -, -, -, hboth⟩ := hcovers word next hword hnext
  exact ⟨hword, hnext, hword.stop, hfive, hboth _ (.inl hfive)⟩

end Source

end DomainModel
