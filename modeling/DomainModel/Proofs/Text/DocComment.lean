/-
Doc comments that are written line by line.

`written` is the usual layout: the delimiters on lines of their own, and a star with a blank on
each side in front of every line.  Reading takes the star and the blanks off again, so a line
may begin with stars or blanks of its own and keeps them.  White space at the end of a line and
around the whole goes, so lines come back if they have none there (`docText_written`).
-/
import DomainModel.Proofs.Text.Blank
import DomainModel.Proofs.Text.Lines
import DomainModel.Text.DocComment

namespace DomainModel.Text

/-- Lines for a doc comment: none is broken, ends in white space or closes the comment, the
first one does not begin with white space, and the first and the last are not blank. -/
structure Prose (ls : List (List Char)) : Prop where
  unbroken : ∀ l ∈ ls, '\n' ∉ l ∧ '\r' ∉ l
  trimmed : ∀ l ∈ ls, l.getLast?.any isBlank = false
  unclosed : ∀ l ∈ ls, ¬ ['*', '/'] <:+: l
  nonempty : ls ≠ []
  first : ∀ l ∈ ls.head?, l ≠ [] ∧ l.head?.any isBlank = false
  last : ∀ l ∈ ls.getLast?, l ≠ []

/-- A line behind its star. -/
def starred (l : List Char) : List Char := ' ' :: '*' :: ' ' :: l

/-- What stands between the delimiters: an empty line, the lines, and the blank in front of the
last delimiter. -/
def innerText (ls : List (List Char)) : List Char :=
  ([] :: ls.map starred).flatMap (· ++ ['\n']) ++ [' ']

/-- Lines as a doc comment. -/
def written (ls : List (List Char)) : List Char := ['/', '*', '*'] ++ innerText ls ++ ['*', '/']

/-! ### Reading -/

theorem not_isBlank_of_any {end? : Option Char} (h : end?.any isBlank = false) :
    ∀ c ∈ end?, isBlank c = false := by
  rintro c rfl
  exact h

theorem docLine_starred {l : List Char} (h : l.getLast?.any isBlank = false) :
    docLine (starred l) = l :=
  trimEnd_eq_self (not_isBlank_of_any h)

theorem lines_innerText {ls : List (List Char)} (h : ∀ l ∈ ls, '\n' ∉ l ∧ '\r' ∉ l) :
    lines (innerText ls) = [] :: ls.map starred ++ [[' ']] := by
  have hplain : ∀ l ∈ [] :: ls.map starred, '\n' ∉ l ∧ '\r' ∉ l := by
    refine List.forall_mem_cons.mpr ⟨by simp, List.forall_mem_map.mpr fun l hl => ?_⟩
    simpa [starred] using h l hl
  unfold innerText
  rw [lines_ended (fun l hl => (hplain l hl).1) (by decide) (by simp)]
  congr 1
  exact (List.map_congr_left fun l hl => dropTail_of_not_mem (hplain l hl).2).trans (List.map_id' _)

theorem joinWith_blanks {ls : List (List Char)} (h : ls ≠ []) :
    joinWith ['\n'] ([] :: (ls ++ [[]])) = ['\n'] ++ (joinWith ['\n'] ls ++ ['\n']) := by
  rw [joinWith_cons _ _ (by simp), joinWith_concat _ _ h]
  rfl

/-- There is no white space around the lines. -/
theorem Prose.ends {ls : List (List Char)} (h : Prose ls) : joinWith ['\n'] ls ≠ [] ∧
    (∀ c ∈ (joinWith ['\n'] ls).head?, isBlank c = false) ∧
    ∀ c ∈ (joinWith ['\n'] ls).getLast?, isBlank c = false := by
  obtain ⟨l, rest, hls⟩ := List.exists_cons_of_ne_nil h.nonempty
  obtain ⟨hne, hblank⟩ := h.first l (by rw [hls]; rfl)
  have hhead : (joinWith ['\n'] ls).head? = l.head? := by rw [hls, head?_joinWith hne]
  refine ⟨fun hnil => hne (List.head?_eq_none_iff.mp ?_), ?_, ?_⟩
  · rw [← hhead, hnil]
    rfl
  · rw [hhead]
    exact not_isBlank_of_any hblank
  · obtain ⟨front, l, rfl⟩ : ∃ front l, ls = front ++ [l] :=
      ⟨_, _, (List.dropLast_append_getLast h.nonempty).symm⟩
    rw [getLast?_joinWith (h.last l (by simp))]
    exact not_isBlank_of_any (h.trimmed l (by simp))

/-- **A doc comment says what was written.** -/
theorem docText_written {ls : List (List Char)} (h : Prose ls) :
    docText (written ls) = joinWith ['\n'] ls := by
  have hinner : dropTail ['*', '/'] (dropLead ['/', '*', '*'] (trim (written ls))) =
      innerText ls := by
    have htrim : trim (written ls) = written ls := by
      refine trim_eq_self (fun c hc => ?_) (fun c hc => ?_)
      · obtain rfl : '/' = c := Option.some.inj hc
        decide
      · rw [written, List.getLast?_append_of_ne_nil _ (by simp)] at hc
        obtain rfl : '/' = c := Option.some.inj hc
        decide
    rw [htrim, written, List.append_assoc, dropLead_append, dropTail_append]
  have hlines : (lines (innerText ls)).map docLine = [] :: (ls ++ [[]]) := by
    rw [lines_innerText h.unbroken, List.map_append, List.map_cons, List.map_map]
    have hself : ls.map (docLine ∘ starred) = ls :=
      (List.map_congr_left fun l hl => docLine_starred (h.trimmed l hl)).trans (List.map_id' _)
    rw [hself]
    rfl
  have htext : docText (written ls) = trim (['\n'] ++ (joinWith ['\n'] ls ++ ['\n'])) := by
    simp only [docText, hinner, hlines, joinWith_blanks h.nonempty]
  have hblank : ∀ c ∈ ['\n'], isBlank c = true := List.forall_mem_singleton.mpr rfl
  obtain ⟨hne, hfirst, hlast⟩ := h.ends
  rw [htext, trim_around hblank hblank hne hfirst hlast]

-- The layout that is meant.
example : String.ofList (written ["a".toList, "  b".toList]) = "/**\n * a\n *   b\n */" := by
  decide +kernel

end DomainModel.Text
