/-
Texts with a known tree.

A text whose tokens are known, and which the grammar accepts as they stand, has no errors, and
its tree is the one that was accepted, trivia apart (`parse_of_accepts`).  If the two trees also
quote the same, as they do when quotations are single tokens (`quotations_of_terse`), the
document of the text can be read off the accepted tree, which is built like the text and has
nothing in it but what was meant (`document_of_accepts`).
-/
import DomainModel.Proofs.Build.Spacing
import DomainModel.Proofs.Grammar.Accepts
import DomainModel.Proofs.Tree.Terse
import Mathlib.Data.List.Perm.Basic

namespace DomainModel

open Grammar

theorem Tree.bareAll_bareAll {ts : List Tree} (h : ∀ t ∈ ts, t.bare.bare = t.bare) :
    bareAll (bareAll ts) = bareAll ts := by
  induction ts with
  | nil => rfl
  | cons t ts ih =>
      obtain ⟨ht, hts⟩ := List.forall_mem_cons.mp h
      have htrivia : t.bare.isTrivia = t.isTrivia := by cases t <;> rfl
      rw [bareAll]
      split
      · exact ih hts
      · rw [bareAll, htrivia, if_neg ‹_›, ht, ih hts]

/-- Nothing is left to leave out of a bare tree. -/
theorem Tree.bare_bare (t : Tree) : t.bare.bare = t.bare := by
  induction t using Tree.induct with
  | leaf token => rfl
  | node kind children ih => rw [bare, bare, bareAll_bareAll ih]

variable {cs : List Char} {ts : List Token} {trees : List Tree}

/-- **What the grammar accepts has no errors and the accepted tree.** -/
theorem parse_of_accepts (hcut : Lexer.Cut cs ts) (hundocumented : ∀ t ∈ ts, t.kind ≠ .javadoc)
    (h : Accepts source ts trees []) :
    (parse (String.ofList cs)).complaints = [] ∧
      (parse (String.ofList cs)).tree.bare = .node .sourceFile trees := by
  have hscan : scan (String.ofList cs) = Lexer.tokensFrom 0 cs := by
    rw [scan, String.toList_ofList]
  have hreads := (reads_readSource (scan (String.ofList cs))).respaced source_blind
    (hscan ▸ hcut.undocumented hundocumented 0)
  rw [hscan, hcut.tokens, ← hscan] at hreads
  have hreading := hreads.unique h
  refine ⟨?_, congrArg (Tree.node .sourceFile) (congrArg Reading.trees hreading)⟩
  exact List.map_eq_nil_iff.mp (congrArg Reading.complaints hreading)

/-- Where quotations are single tokens, the accepted tree quotes what the text does. -/
theorem quotations_of_terse (hcut : Lexer.Cut cs ts) (hundocumented : ∀ t ∈ ts, t.kind ≠ .javadoc)
    (h : Accepts source ts trees []) (hterse : (Tree.node .sourceFile trees).Terse) :
    (parse (String.ofList cs)).tree.quotations = (Tree.node .sourceFile trees).quotations := by
  obtain ⟨-, hbare⟩ := parse_of_accepts hcut hundocumented h
  rw [← hbare] at hterse ⊢
  refine (Tree.quotations_bare _ hterse ?_).symm
  rw [leaves_parse, scan, String.toList_ofList]
  exact hcut.blanks 0

/-- **The document of an accepted text is read off the accepted tree**, if both quote the
same. -/
theorem document_of_accepts (naming : Naming) (hcut : Lexer.Cut cs ts)
    (hundocumented : ∀ t ∈ ts, t.kind ≠ .javadoc) (h : Accepts source ts trees [])
    (hquotations : (parse (String.ofList cs)).tree.quotations =
      (Tree.node .sourceFile trees).quotations) :
    (Direct.model naming (String.ofList cs)).document =
      Direct.document ⟨naming, []⟩ (.node .sourceFile trees) := by
  obtain ⟨-, hbare⟩ := parse_of_accepts hcut hundocumented h
  have hessence : (parse (String.ofList cs)).tree.essence =
      (Tree.node .sourceFile trees).essence := by
    refine Tree.essence_of_bare ?_ hquotations
    rw [← hbare, Tree.bare_bare]
  rw [document_model, hessence]
  exact Direct.document_essence [] [] h.shaped_source (by simp [Tree.kind?])

/-! ### Collections without repetitions -/

/-- Both orders list the same constructs. -/
theorem Direct.sitesAfter_perm (t : Tree) : ∀ (within : Option Collection) (parent : Option Tree),
    (sitesAfter within parent t).Perm (sitesBefore within parent t) := by
  induction t using Tree.induct with
  | leaf => exact fun _ _ => .refl _
  | node kind children ih =>
      intro within parent
      rw [sitesAfter, sitesBefore, sitesAfterAll_eq, sitesBeforeAll_eq]
      exact List.perm_append_comm.trans
        (.append_left _ (List.Perm.flatMap_left _ fun t ht => ih t ht _ _))

/-- A collection without repeated names holds its constructs as they are met. -/
theorem Direct.collection_of_distinct (input : BuildInput) {t : Tree} {c : Collection}
    (hc : c ≠ .relationships) (h : (names c t).Nodup) : collection input t c =
      ((sitesBefore none none t).filter (·.collection = c)).map fun s => (s.name, s.value input) := by
  have hperm := ((sitesAfter_perm t none none).symm.filter (·.collection = c)).map
    fun s => (s.name, s.value input)
  have hkeys : Dict.keys (((sitesBefore none none t).filter (·.collection = c)).map
      fun s => (s.name, s.value input)) = names c t := List.map_map
  have harrange := Dict.arrange_of_perm hperm (hkeys ▸ h)
  rw [hkeys] at harrange
  cases c <;> first
    | exact harrange
    | exact absurd rfl hc

end DomainModel
