/-
Positions in the order of the text.

A span contains a position when line and column lie between those of its two ends.  Read
further in a text and the position moves on, so at boundaries between characters the order
of positions is the order of their offsets (`position_atMost`), and containing is a matter
of offsets alone, both ends included (`contains_span`).
-/
import DomainModel.Proofs.Source.Lines

namespace DomainModel

/-! ### Ranges -/

namespace Range

/-- Does `r` lie in `s`? -/
def Within (r s : Range) : Prop := s.start ≤ r.start ∧ r.stop ≤ s.stop

instance (r s : Range) : Decidable (r.Within s) := inferInstanceAs (Decidable (_ ∧ _))

/-- One of the ranges lies in the other, or they share an end at most. -/
def Laminar (r s : Range) : Prop :=
  r.Within s ∨ s.Within r ∨ r.stop ≤ s.start ∨ s.stop ≤ r.start

instance (r s : Range) : Decidable (r.Laminar s) := inferInstanceAs (Decidable (_ ∨ _))

theorem Laminar.symm {r s : Range} (h : r.Laminar s) : s.Laminar r := by
  rcases h with h | h | h | h
  · exact .inr (.inl h)
  · exact .inl h
  · exact .inr (.inr (.inr h))
  · exact .inr (.inr (.inl h))

/-- Counting the ends in another way that keeps their order. -/
def map (f : Nat → Nat) (r : Range) : Range := ⟨f r.start, f r.stop⟩

theorem Laminar.map {r s : Range} (h : r.Laminar s) {f : Nat → Nat}
    (hf : ∀ {m n}, m ≤ n → f m ≤ f n) : (r.map f).Laminar (s.map f) := by
  rcases h with ⟨hstart, hstop⟩ | ⟨hstart, hstop⟩ | h | h
  · exact .inl ⟨hf hstart, hf hstop⟩
  · exact .inr (.inl ⟨hf hstart, hf hstop⟩)
  · exact .inr (.inr (.inl (hf h)))
  · exact .inr (.inr (.inr (hf h)))

end Range

/-! ### Positions -/

/-- `p` does not stand behind `q`. -/
def Position.AtMost (p q : Position) : Prop :=
  p.line < q.line ∨ p.line = q.line ∧ p.column ≤ q.column

theorem Position.AtMost.refl (p : Position) : p.AtMost p := .inr ⟨rfl, Nat.le_refl _⟩

theorem Position.AtMost.trans {p q r : Position} (h : p.AtMost q) (h' : q.AtMost r) :
    p.AtMost r := by
  rw [AtMost] at *
  omega

theorem Span.contains_iff {s : Span} {p : Position} :
    s.contains p = true ↔ s.start.AtMost p ∧ p.AtMost s.stop := by
  simp only [contains, Bool.and_eq_true, Bool.not_eq_true', decide_eq_true_eq,
    Bool.and_eq_false_iff, beq_eq_false_iff_ne, decide_eq_false_iff_not, Position.AtMost]
  omega

namespace Source

theorem advance_atMost (p : Position) (c : Char) :
    p.AtMost (advance p c) ∧ ¬(advance p c).AtMost p := by
  rw [advance]
  split
  · simp only [Position.AtMost]
    omega
  · exact ⟨.inr ⟨rfl, Nat.le_succ _⟩, by simp [Position.AtMost]⟩

theorem atMost_foldl (cs : List Char) : ∀ p : Position, p.AtMost (cs.foldl advance p) := by
  induction cs with
  | nil => exact .refl
  | cons c cs ih => exact fun p => (advance_atMost p c).1.trans (ih _)

/-- Whatever is read moves the position on. -/
theorem not_foldl_atMost {cs : List Char} (h : cs ≠ []) (p : Position) :
    ¬(cs.foldl advance p).AtMost p := by
  cases cs with
  | nil => exact absurd rfl h
  | cons c cs => exact fun hback => (advance_atMost p c).2 ((atMost_foldl cs _).trans hback)

theorem byteLength_pos {cs : List Char} (h : cs ≠ []) : 0 < byteLength cs := by
  cases cs with
  | nil => exact absurd rfl h
  | cons c cs =>
      have := c.utf8Size_pos
      rw [byteLength_cons]
      omega

/-- An offset at which a character begins or the text ends. -/
def Boundary (text : List Char) (offset : Nat) : Prop :=
  ∃ front back, text = front ++ back ∧ offset = byteLength front

/-- **At boundaries the order of positions is the order of offsets.** -/
theorem position_atMost {text : List Char} {m n : Nat} (hm : Boundary text m)
    (hn : Boundary text n) : (position text m).AtMost (position text n) ↔ m ≤ n := by
  obtain ⟨front, back, rfl, rfl⟩ := hm
  obtain ⟨front', back', htext, rfl⟩ := hn
  have hpos : position (front ++ back) (byteLength front') = front'.foldl advance ⟨1, 0⟩ := by
    rw [htext]
    exact positionFrom_boundary front' back' _
  rw [hpos, position, positionFrom_boundary]
  rcases List.append_eq_append_iff.mp htext with ⟨more, rfl, -⟩ | ⟨more, rfl, -⟩
  · refine iff_of_true ?_ ?_
    · rw [List.foldl_append]
      exact atMost_foldl more _
    · rw [byteLength_append]
      omega
  · by_cases hmore : more = []
    · subst hmore
      rw [List.append_nil]
      exact iff_of_true (.refl _) (Nat.le_refl _)
    · refine iff_of_false ?_ ?_
      · rw [List.foldl_append]
        exact not_foldl_atMost hmore _
      · have := byteLength_pos hmore
        rw [byteLength_append]
        omega

/-- **A span contains the boundaries between its ends**, and the ends themselves. -/
theorem contains_span {text : List Char} {r : Range} {n : Nat} (hstart : Boundary text r.start)
    (hstop : Boundary text r.stop) (hn : Boundary text n) :
    (span text r).contains (position text n) = true ↔ r.start ≤ n ∧ n ≤ r.stop := by
  rw [Span.contains_iff, ← position_atMost hstart hn, ← position_atMost hn hstop]
  rfl

/-- Covering spans of one text is covering their ranges. -/
theorem cover_span (text : List Char) (r s : Range) :
    (span text r).cover (span text s) = span text (r.cover s) := by
  have hstart : (if r.start ≤ s.start then position text r.start else position text s.start) =
      position text (min r.start s.start) := by
    rw [Nat.min_def, apply_ite (position text)]
  have hstop : (if s.stop ≤ r.stop then position text r.stop else position text s.stop) =
      position text (max r.stop s.stop) := by
    rw [Nat.max_comm, Nat.max_def, apply_ite (position text)]
  exact congr (congrArg₂ Span.mk hstart hstop) rfl

/-! ### The text in a range -/

/-- The characters that begin in a range of bytes, when the first one begins at `offset`. -/
def textFrom (offset : Nat) : List Char → Range → List Char
  | [], _ => []
  | c :: cs, r =>
    let rest := textFrom (offset + c.utf8Size) cs r
    if r.start ≤ offset ∧ offset < r.stop then c :: rest else rest

/-- The part of a text in a range of bytes. -/
def textIn (text : List Char) (r : Range) : List Char := textFrom 0 text r

theorem textFrom_append (cs ds : List Char) (r : Range) : ∀ offset,
    textFrom offset (cs ++ ds) r =
      textFrom offset cs r ++ textFrom (offset + byteLength cs) ds r := by
  induction cs with
  | nil => exact fun _ => rfl
  | cons c cs ih =>
      intro offset
      rw [List.cons_append, textFrom, textFrom, ih, byteLength_cons, Nat.add_assoc]
      split <;> rfl

/-- What lies in the range is in it, and what lies outside is not. -/
theorem textFrom_of_within (cs : List Char) (r : Range) : ∀ offset,
    (r.start ≤ offset → offset + byteLength cs ≤ r.stop → textFrom offset cs r = cs) ∧
      (offset + byteLength cs ≤ r.start ∨ r.stop ≤ offset → textFrom offset cs r = []) := by
  induction cs with
  | nil => exact fun _ => ⟨fun _ _ => rfl, fun _ => rfl⟩
  | cons c cs ih =>
      intro offset
      obtain ⟨hin, hout⟩ := ih (offset + c.utf8Size)
      have hwidth := c.utf8Size_pos
      rw [textFrom, byteLength_cons]
      refine ⟨fun hstart hstop => ?_, fun hplace => ?_⟩
      · rw [if_pos (by omega), hin (by omega) (by omega)]
      · rw [if_neg (by omega), hout (by omega)]

/-- **The text between two boundaries is what stands there.** -/
theorem textIn_eq {text front middle back : List Char} (h : text = front ++ middle ++ back) :
    textIn text ⟨byteLength front, byteLength (front ++ middle)⟩ = middle := by
  rw [h, textIn, textFrom_append, textFrom_append, Nat.zero_add, byteLength_append,
    (textFrom_of_within front _ 0).2 (by simp), Nat.zero_add,
    (textFrom_of_within middle _ _).1 (by simp) (by simp),
    (textFrom_of_within back _ _).2 (by simp)]
  simp

end Source

end DomainModel
