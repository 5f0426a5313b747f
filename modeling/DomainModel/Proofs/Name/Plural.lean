/-
Words with the same plural.

A plural is made by the ending of a word alone: `es` behind a hiss, `ies` for a `y` that follows
no vowel, `s` behind everything else.  So different words can have the same plural: `Ox` and
`Oxe` have, and `City` and `Citie`.  `Blurs` lists the pairs, and `pluralOf_eq_iff` says that
there are no others: where two words end in the same way the rest is kept, and a plural in `es`
or `ies` comes from a word of another ending only when that ends in `e`.
-/
import DomainModel.Name.Words
import Mathlib.Tactic.Common

namespace DomainModel.Name

/-- Does the word end in a hiss? -/
def hissing (word : List Char) : Bool := hisses.any (·.isSuffixOf word)

/-- Words that differ, the second one ending in `e`, and have the same plural. -/
inductive Blurs : List Char → List Char → Prop
  | hiss {word : List Char} (h : hissing word = true) : Blurs word (word ++ ['e'])
  | consonant {stem : List Char} {c : Char} (h : isVowel c = false) :
      Blurs (stem ++ [c, 'y']) (stem ++ [c, 'i', 'e'])

/-- The letters in which hisses end. -/
theorem last_of_hissing {word : List Char} (h : hissing word = true) :
    ∃ stem c, word = stem ++ [c] ∧ c ∈ ['s', 'x', 'z', 'h'] := by
  obtain ⟨ending, hmem, hsuffix⟩ := List.any_eq_true.mp h
  obtain ⟨stem, rfl⟩ := List.isSuffixOf_iff_suffix.mp hsuffix
  have hendings : ∀ ending ∈ hisses, ∃ front c, ending = front ++ [c] ∧ c ∈ ['s', 'x', 'z', 'h'] := by
    simp only [hisses, List.map_cons, List.map_nil, List.forall_mem_cons]
    exact ⟨⟨[], 's', rfl, by simp⟩, ⟨[], 'x', rfl, by simp⟩, ⟨[], 'z', rfl, by simp⟩,
      ⟨['c'], 'h', rfl, by simp⟩, ⟨['s'], 'h', rfl, by simp⟩, List.forall_mem_nil _⟩
  obtain ⟨front, c, rfl, hc⟩ := hendings ending hmem
  exact ⟨stem ++ front, c, by rw [List.append_assoc], hc⟩

theorem not_hissing {stem : List Char} {c : Char} (h : c ∉ ['s', 'x', 'z', 'h']) :
    hissing (stem ++ [c]) = false := by
  by_contra hhiss
  obtain ⟨stem', d, heq, hd⟩ := last_of_hissing (by simpa using hhiss)
  obtain ⟨-, hlast⟩ := List.append_inj' heq rfl
  simp only [List.cons.injEq, and_true] at hlast
  exact h (hlast ▸ hd)

/-! ### The three endings -/

theorem pluralOf_hissing {word : List Char} (h : hissing word = true) :
    pluralOf word = word ++ ['e', 's'] := by
  have hne : word ≠ [] := by
    rintro rfl
    simp [hissing, hisses] at h
  unfold hissing at h
  unfold pluralOf
  rw [if_neg (by simpa using hne), if_pos h]

theorem pluralOf_consonant {stem : List Char} {c : Char} (h : isVowel c = false) :
    pluralOf (stem ++ [c, 'y']) = stem ++ [c, 'i', 'e', 's'] := by
  have hhiss : hissing ((stem ++ [c]) ++ ['y']) = false := not_hissing (by simp)
  rw [List.append_assoc, List.singleton_append] at hhiss
  unfold pluralOf
  rw [if_neg (by simp), if_neg (by simpa [hissing] using hhiss)]
  simp [h, List.dropLast_append_of_ne_nil]

/-- A word of the ending that most words have. -/
structure Plain (word : List Char) : Prop where
  ne : word ≠ []
  hiss : hissing word = false
  consonant : ∀ stem c, isVowel c = false → word ≠ stem ++ [c, 'y']

theorem Plain.pluralOf {word : List Char} (h : Plain word) : pluralOf word = word ++ ['s'] := by
  unfold Name.pluralOf
  rw [if_neg (by simpa using h.ne), if_neg (by simpa [hissing] using h.hiss)]
  split
  · rename_i before rest hreverse
    have hword : word = rest.reverse ++ [before, 'y'] := by
      rw [← List.reverse_reverse word, hreverse]
      simp
    by_cases hvowel : isVowel before = true
    · rw [if_pos hvowel]
    · exact absurd hword (h.consonant _ _ (by simpa using hvowel))
  · rfl

theorem plain_concat {stem : List Char} {c : Char} (h : c ∉ ['s', 'x', 'z', 'h', 'y']) :
    Plain (stem ++ [c]) where
  ne := by simp
  hiss := not_hissing fun hmem => h (by simp at hmem ⊢; tauto)
  consonant := by
    intro stem' d _ heq
    have heq' : stem ++ [c] = (stem' ++ [d]) ++ ['y'] := by simpa using heq
    obtain ⟨-, hlast⟩ := List.append_inj' heq' rfl
    simp only [List.cons.injEq, and_true] at hlast
    exact h (by simp [hlast])

/-- Every word has one of the endings. -/
theorem ending_cases (word : List Char) : word = [] ∨ hissing word = true ∨
    (∃ stem c, word = stem ++ [c, 'y'] ∧ isVowel c = false) ∨ Plain word := by
  by_cases hne : word = []
  · exact .inl hne
  · by_cases hhiss : hissing word = true
    · exact .inr (.inl hhiss)
    · by_cases hy : ∃ stem c, word = stem ++ [c, 'y'] ∧ isVowel c = false
      · exact .inr (.inr (.inl hy))
      · refine .inr (.inr (.inr ⟨hne, by simpa using hhiss, fun stem c hc heq => ?_⟩))
        exact hy ⟨stem, c, heq, hc⟩

/-! ### Same plurals -/

theorem Blurs.pluralOf_eq {a b : List Char} (h : Blurs a b) : pluralOf a = pluralOf b := by
  cases h with
  | hiss h =>
      rw [pluralOf_hissing h, (plain_concat (by simp)).pluralOf, List.append_assoc]
      rfl
  | @consonant stem c h =>
      have hplain : Plain ((stem ++ [c, 'i']) ++ ['e']) := plain_concat (by simp)
      have hplural := hplain.pluralOf
      simp only [List.append_assoc, List.cons_append, List.nil_append] at hplural
      rw [pluralOf_consonant h, hplural]

/-- A plural in `es` or `ies` that is the plural of a plain word, too. -/
theorem blurs_of_plain {a b : List Char} (ha : ¬ Plain a) (hne : a ≠ []) (hb : Plain b)
    (h : pluralOf a = pluralOf b) : Blurs a b := by
  rw [hb.pluralOf] at h
  rcases ending_cases a with hnil | hhiss | ⟨stem, c, rfl, hc⟩ | hplain
  · exact absurd hnil hne
  · rw [pluralOf_hissing hhiss] at h
    have hb' : a ++ ['e'] = b := by
      have h' : (a ++ ['e']) ++ ['s'] = b ++ ['s'] := by simpa using h
      exact List.append_cancel_right h'
    rw [← hb']
    exact .hiss hhiss
  · rw [pluralOf_consonant hc] at h
    have hb' : stem ++ [c, 'i', 'e'] = b := by
      have h' : (stem ++ [c, 'i', 'e']) ++ ['s'] = b ++ ['s'] := by simpa using h
      exact List.append_cancel_right h'
    rw [← hb']
    exact .consonant hc
  · exact absurd hplain ha

/-- A plural in `es` is none in `ies`: no hiss ends in an `i`. -/
theorem pluralOf_hissing_ne {word stem : List Char} {c : Char} (h : hissing word = true)
    (hc : isVowel c = false) : pluralOf word ≠ pluralOf (stem ++ [c, 'y']) := by
  intro heq
  rw [pluralOf_hissing h, pluralOf_consonant hc] at heq
  have heq' : word ++ ['e', 's'] = ((stem ++ [c]) ++ ['i']) ++ ['e', 's'] := by simpa using heq
  have hword := List.append_cancel_right heq'
  have hnone : hissing ((stem ++ [c]) ++ ['i']) = false := not_hissing (by simp)
  rw [hword, hnone] at h
  exact Bool.noConfusion h

/-- Words of the two other endings keep their plurals apart. -/
theorem eq_of_not_plain {a b : List Char} (ha : a ≠ []) (hb : b ≠ []) (ha' : ¬ Plain a)
    (hb' : ¬ Plain b) (h : pluralOf a = pluralOf b) : a = b := by
  rcases ending_cases a with hnil | hhiss | ⟨stem, c, rfl, hc⟩ | hplain
  · exact absurd hnil ha
  · rcases ending_cases b with hnil | hhiss' | ⟨stem', c', rfl, hc'⟩ | hplain
    · exact absurd hnil hb
    · rw [pluralOf_hissing hhiss, pluralOf_hissing hhiss'] at h
      exact List.append_cancel_right h
    · exact absurd h (pluralOf_hissing_ne hhiss hc')
    · exact absurd hplain hb'
  · rcases ending_cases b with hnil | hhiss' | ⟨stem', c', rfl, hc'⟩ | hplain
    · exact absurd hnil hb
    · exact absurd h.symm (pluralOf_hissing_ne hhiss' hc)
    · rw [pluralOf_consonant hc, pluralOf_consonant hc'] at h
      obtain ⟨rfl, hends⟩ := List.append_inj' h rfl
      simp only [List.cons.injEq, and_true] at hends
      rw [hends]
    · exact absurd hplain hb'
  · exact absurd hplain ha'

/-- **Words with the same plural are the same word or a pair that blurs.** -/
theorem pluralOf_eq_iff {a b : List Char} (ha : a ≠ []) (hb : b ≠ []) :
    pluralOf a = pluralOf b ↔ a = b ∨ Blurs a b ∨ Blurs b a := by
  constructor
  · intro h
    by_cases ha' : Plain a
    · by_cases hb' : Plain b
      · rw [ha'.pluralOf, hb'.pluralOf] at h
        exact .inl (List.append_cancel_right h)
      · exact .inr (.inr (blurs_of_plain hb' hb ha' h.symm))
    · by_cases hb' : Plain b
      · exact .inr (.inl (blurs_of_plain ha' ha hb' h))
      · exact .inl (eq_of_not_plain ha hb ha' hb' h)
  · rintro (rfl | h | h)
    · rfl
    · exact h.pluralOf_eq
    · exact h.pluralOf_eq.symm

end DomainModel.Name
