/-
Complaints do not depend on white space and comments.

A complaint holds the token it was made at.  Where two rows have the same proper tokens they
are read to the same trees, trivia apart (`Proofs/Grammar/Spacing.lean`), but what a complaint
holds are the tokens of its own row, with their places there.  So the two readings are
followed side by side: `Reads.side_by_side` carries a relation between proper tokens of the
one row and of the other through both.  Every test comes out the same on either side, each
takes a token when the other does, and what is next when one complains is related to what is
next when the other does.

The relation to start with pairs the tokens of the same number.
-/
import DomainModel.Proofs.Grammar.Spacing
import Mathlib.Data.List.Forall2

namespace DomainModel

/-- The complaints are of the same thing and found related tokens, or both found the end. -/
structure Complaint.Related (R : Token → Token → Prop) (c d : Complaint) : Prop where
  expected : c.expected = d.expected
  found : Option.Rel R c.found d.found

namespace Grammar

/-! ### Two rows side by side -/

variable {R : Token → Token → Prop}

theorem ahead?_related {ts us : List Token} (h : List.Forall₂ R (proper ts) (proper us)) :
    Option.Rel R (ahead? ts 0) (ahead? us 0) := by
  rw [ahead?_eq, ahead?_eq]
  generalize proper ts = ts', proper us = us' at h
  cases h with
  | nil => exact .none
  | cons hhead => exact .some hhead

theorem bareTokens_related (hR : ∀ t u, R t u → t.bare = u.bare) {ts us : List Token}
    (h : List.Forall₂ R (proper ts) (proper us)) : bareTokens ts = bareTokens us := by
  rw [bareTokens, bareTokens, ← List.forall₂_eq_eq_eq, List.forall₂_map_left_iff,
    List.forall₂_map_right_iff]
  exact h.imp hR

/-- The complaints of two readings are related one by one, and so are the proper tokens left. -/
structure Reading.Related (R : Token → Token → Prop) (r s : Reading) : Prop where
  complaints : List.Forall₂ (Complaint.Related R) r.complaints s.complaints
  rest : List.Forall₂ R (proper r.rest) (proper s.rest)

namespace Reading.Related

theorem stop {ts us : List Token} (h : List.Forall₂ R (proper ts) (proper us)) :
    Related R (.stop ts) (.stop us) :=
  ⟨.nil, h⟩

theorem join {r r' s s' : Reading} (h : Related R r s) (h' : Related R r' s') :
    Related R (r.join r') (s.join s') :=
  ⟨List.rel_append h.complaints h'.complaints, h'.rest⟩

theorem wrap {r s : Reading} (h : Related R r s) (kind : NodeKind) :
    Related R (r.wrap kind) (s.wrap kind) :=
  ⟨h.complaints, h.rest⟩

theorem trivia {ts us : List Token} (h : List.Forall₂ R (proper ts) (proper us)) :
    Related R (.trivia ts) (.trivia us) :=
  ⟨.nil, by rw [Reading.trivia, Reading.trivia, proper_afterTrivia, proper_afterTrivia]; exact h⟩

theorem take {ts us : List Token} (h : List.Forall₂ R (proper ts) (proper us)) :
    Related R (.take ts) (.take us) :=
  ⟨.nil, by rw [proper_take, proper_take]; exact List.forall₂_drop 1 h⟩

end Reading.Related

/-- **Two rows with related proper tokens are read side by side**, where no doc comment is
among them: what one reading complains about the other does, at a related token. -/
theorem Reads.side_by_side (hR : ∀ t u, R t u → t.bare = u.bare) {rule : Rule} {ts : List Token}
    {r : Reading} (h : Reads rule ts r) : ∀ {us : List Token} {s : Reading}, Reads rule us s →
      rule.blind = true → Undocumented ts → Undocumented us →
      List.Forall₂ R (proper ts) (proper us) → Reading.Related R r s := by
  -- A test that sees no line break comes out the same on both sides.
  have hsame {test : Test} {ts us : List Token} (hblind : test.blind = true)
      (hts : Undocumented ts) (hus : Undocumented us)
      (hrel : List.Forall₂ R (proper ts) (proper us)) : test.holds ts = test.holds us := by
    rw [← Test.holds_bareTokens hblind hts, ← Test.holds_bareTokens hblind hus,
      bareTokens_related hR hrel]
  have hafter {ts us : List Token} (hrel : List.Forall₂ R (proper ts) (proper us)) :
      List.Forall₂ R (proper (afterTrivia ts)) (proper (afterTrivia us)) := by
    rwa [proper_afterTrivia, proper_afterTrivia]
  induction h with
  | nothing =>
      intro us s h' _ _ _ hrel
      cases h'
      exact .stop hrel
  | take =>
      intro us s h' _ _ _ hrel
      cases h'
      exact .take hrel
  | trivia =>
      intro us s h' _ _ _ hrel
      cases h'
      exact .trivia hrel
  | missing =>
      intro us s h' _ _ _ hrel
      cases h'
      exact ⟨.cons ⟨rfl, ahead?_related hrel⟩ .nil, hrel⟩
  | seq hfirst _ ihfirst ihsecond =>
      intro us s h' hblind hts hus hrel
      obtain ⟨hleft, hright⟩ := Bool.and_eq_true_iff.mp hblind
      cases h' with
      | seq hfirst' hsecond' =>
          have hjoin := ihfirst hfirst' hleft hts hus hrel
          exact hjoin.join
            (ihsecond hsecond' hright (hts.rest hfirst) (hus.rest hfirst') hjoin.rest)
  | yes htest _ ih =>
      intro us s h' hblind hts hus hrel
      simp only [Rule.blind, Bool.and_eq_true] at hblind
      have heq := hsame hblind.1.1 hts hus hrel
      cases h' with
      | yes _ hyes => exact ih hyes hblind.1.2 hts hus hrel
      | no hfalse => exact Bool.noConfusion ((hfalse.symm.trans heq.symm).trans htest)
  | no htest _ ih =>
      intro us s h' hblind hts hus hrel
      simp only [Rule.blind, Bool.and_eq_true] at hblind
      have heq := hsame hblind.1.1 hts hus hrel
      cases h' with
      | yes htrue => exact Bool.noConfusion ((htest.symm.trans heq).trans htrue)
      | no _ hno => exact ih hno hblind.2 hts hus hrel
  | done htest =>
      intro us s h' hblind hts hus hrel
      simp only [Rule.blind, Bool.and_eq_true] at hblind
      have heq := hsame hblind.1 hts hus hrel
      cases h' with
      | done => exact .stop hrel
      | again htrue => exact Bool.noConfusion ((htest.symm.trans heq).trans htrue)
  | again htest hbody _ ihbody ihloop =>
      intro us s h' hblind hts hus hrel
      have hparts := hblind
      simp only [Rule.blind, Bool.and_eq_true] at hparts
      have heq := hsame hparts.1 hts hus hrel
      cases h' with
      | done hfalse => exact Bool.noConfusion ((hfalse.symm.trans heq.symm).trans htest)
      | again _ hbody' hloop' =>
          have hround := ihbody hbody' hparts.2 hts hus hrel
          exact hround.join
            (ihloop hloop' hblind (hts.rest hbody) (hus.rest hbody') hround.rest)
  | node _ ih =>
      intro us s h' hblind hts hus hrel
      cases h' with
      | node hbody' =>
          have hinner := ih hbody' hblind hts.afterTrivia hus.afterTrivia (hafter hrel)
          exact (Reading.Related.trivia hrel).join (hinner.wrap _)
  | @bare lead keywords otherwise body ts r _ hkind ih =>
      intro us s h' hblind hts hus hrel
      simp only [Rule.blind, Bool.and_eq_true] at hblind
      cases h' with
      | bare hlead' =>
          exact (Reading.Related.trivia hrel).join
            (ih hlead' hblind.1 hts.afterTrivia hus.afterTrivia (hafter hrel))
      | headed hlead' hkind' =>
          have hinner := ih hlead' hblind.1 hts.afterTrivia hus.afterTrivia (hafter hrel)
          rw [← headKind_bareTokens, ← bareTokens_related hR hinner.rest, headKind_bareTokens,
            hkind] at hkind'
          cases hkind'
  | @headed lead keywords otherwise body ts r kind s hlead hkind _ ihlead ihbody =>
      intro us s' h' hblind hts hus hrel
      simp only [Rule.blind, Bool.and_eq_true, List.all_eq_true] at hblind
      cases h' with
      | bare hlead' hkind' =>
          have hinner := ihlead hlead' hblind.1 hts.afterTrivia hus.afterTrivia (hafter hrel)
          rw [← headKind_bareTokens, ← bareTokens_related hR hinner.rest, headKind_bareTokens,
            hkind] at hkind'
          cases hkind'
      | headed hlead' hkind' hbody' =>
          have hinner := ihlead hlead' hblind.1 hts.afterTrivia hus.afterTrivia (hafter hrel)
          rw [← headKind_bareTokens, ← bareTokens_related hR hinner.rest, headKind_bareTokens,
            hkind] at hkind'
          obtain rfl := Option.some.inj hkind'
          have hbehind := ihbody hbody' (hblind.2 kind (mem_headKinds hkind))
            (hts.afterTrivia.rest hlead) (hus.afterTrivia.rest hlead') hinner.rest
          exact (Reading.Related.trivia hrel).join ((hinner.join hbehind).wrap kind)
  | call _ ih =>
      intro us s h' _ hts hus hrel
      cases h' with
      | call hrule' => exact ih hrule' (rules_blind _) hts hus hrel

/-! ### The same proper tokens -/

/-- The one token has the number among the proper tokens of its row that the other has in its. -/
def SameNumber (ts us : List Token) (t u : Token) : Prop :=
  ∃ k : Nat, (proper ts)[k]? = some t ∧ (proper us)[k]? = some u

theorem sameNumber_all {ts us : List Token} (h : bareTokens ts = bareTokens us) :
    List.Forall₂ (SameNumber ts us) (proper ts) (proper us) := by
  have hlength : (proper ts).length = (proper us).length := by
    simpa [bareTokens] using congrArg List.length h
  exact List.forall₂_iff_get.mpr ⟨hlength, fun k hk hk' =>
    ⟨k, List.getElem?_eq_getElem hk, List.getElem?_eq_getElem hk'⟩⟩

theorem bare_of_sameNumber {ts us : List Token} (h : bareTokens ts = bareTokens us) {t u : Token}
    (htu : SameNumber ts us t u) : t.bare = u.bare := by
  obtain ⟨k, ht, hu⟩ := htu
  have hk := congrArg (·[k]?) h
  simpa [bareTokens, ht, hu] using hk

/-- Two reports say the same about the proper tokens of one number, or about the ends `stop`
and `stop'` of the two rows. -/
structure SameReport (ts us : List Token) (stop stop' : Nat) (e f : SyntaxError) : Prop where
  message : e.message = f.message
  place : (e.range = ⟨stop, stop⟩ ∧ f.range = ⟨stop', stop'⟩) ∨
    ∃ t u, SameNumber ts us t u ∧ e.range = t.range ∧ f.range = u.range

theorem report_related {ts us : List Token} {c d : Complaint}
    (h : c.Related (SameNumber ts us) d) (stop stop' : Nat) :
    SameReport ts us stop stop' (c.report stop) (d.report stop') := by
  obtain ⟨expected, found⟩ := c
  obtain ⟨expected', found'⟩ := d
  obtain ⟨rfl, hfound⟩ := h
  refine ⟨rfl, ?_⟩
  cases hfound with
  | none => exact .inl ⟨rfl, rfl⟩
  | some htu => exact .inr ⟨_, _, htu, rfl, rfl⟩

/-- **Rows without doc comments that have the same proper tokens are read to the same trees,
trivia apart, and to the same errors at the same tokens.** -/
theorem readSource_respaced {ts us : List Token} (hts : Undocumented ts) (hus : Undocumented us)
    (h : bareTokens ts = bareTokens us) :
    Tree.bareAll (readSource ts).trees = Tree.bareAll (readSource us).trees ∧
      ∀ stop stop', List.Forall₂ (SameReport ts us stop stop')
        ((readSource ts).complaints.map (·.report stop))
        ((readSource us).complaints.map (·.report stop')) := by
  have hreads := reads_readSource ts
  have hreads' := reads_readSource us
  constructor
  · have hbare := hreads.respaced source_blind hts
    rw [h] at hbare
    exact congrArg Reading.trees (hbare.unique (hreads'.respaced source_blind hus))
  · intro stop stop'
    have hrelated := hreads.side_by_side (fun _ _ => bare_of_sameNumber h) hreads' source_blind
      hts hus (sameNumber_all h)
    rw [List.forall₂_map_left_iff, List.forall₂_map_right_iff]
    exact hrelated.complaints.imp fun _ _ hsame => report_related hsame stop stop'

theorem readSource_respaced_nameless :
    let ts := scan "entity\x7b\x7d"
    let us := scan "entity /* whose name is missing */ \x7b\n\x7d"
    bareTokens ts = bareTokens us ∧ (readSource ts).complaints ≠ [] ∧
      Tree.bareAll (readSource ts).trees = Tree.bareAll (readSource us).trees ∧
      List.Forall₂ (SameReport ts us 8 38)
        ((readSource ts).complaints.map (·.report 8))
        ((readSource us).complaints.map (·.report 38)) := by
  intro ts us
  have hbare : bareTokens ts = bareTokens us := by decide +kernel
  have hts : Undocumented ts := by unfold Undocumented; decide +kernel
  have hus : Undocumented us := by unfold Undocumented; decide +kernel
  obtain ⟨htrees, herrors⟩ := readSource_respaced hts hus hbare
  exact ⟨hbare, by decide +kernel, htrees, herrors 8 38⟩

end Grammar

end DomainModel
