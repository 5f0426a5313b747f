/-
What of a tree has a meaning.

White space and comments have none, with two exceptions: the argument of a check and an
initial value that is no literal are taken over as they are written.  `quotations` lists
these texts.  The essence of a tree keeps them as single tokens and leaves all trivia out, so
trees that agree without trivia and in what they quote have the same essence
(`essence_of_bare`), and every question that is put to a node has the same answer for its
essence.
-/
import DomainModel.Build.Opening
import DomainModel.Proofs.Grammar.Lossless
import DomainModel.Proofs.Grammar.Spacing

namespace DomainModel

open Grammar (bareTokens)

/-- The kinds of nodes that take over text as it is written. -/
def NodeKind.quotes : NodeKind → Bool
  | .validation | .initialValue => true
  | _ => false

namespace Tree

/-! ### Quotations -/

/-- The nodes among some trees. -/
def nodes (ts : List Tree) : List Tree := ts.filter (·.kind?.isSome)

/-- The tokens among some trees. -/
def tokens (ts : List Tree) : List Token := ts.filterMap token?

/-- An initial value as it is written, if it is no literal. -/
def written? (t : Tree) : Option String :=
  match t.literal? with
  | none => some (onText Text.trim t.text)
  | some _ => none

/-- The text that a node of a kind takes over as it is written. -/
def quotation (t : Tree) : NodeKind → List (Option String)
  | .validation => [t.argument?]
  | .initialValue => [t.written?]
  | _ => []

mutual

/-- All that is taken over as it is written, from front to back. -/
def quotations : Tree → List (Option String)
  | .leaf _ => []
  | .node kind children => quotation (.node kind children) kind ++ quotationsOfAll children

def quotationsOfAll : List Tree → List (Option String)
  | [] => []
  | t :: ts => quotations t ++ quotationsOfAll ts

end

/-- The tokens of a node that have a meaning. -/
def gist (t : Tree) : NodeKind → List Token
  | .validation =>
    ((t.childToken? .ident).map Token.bare).toList ++
      (t.argument?.map fun text => [⟨.lParen, "(", 0⟩, ⟨.string, text, 0⟩]).getD []
  | .initialValue => (t.written?.map fun text => ⟨.string, text, 0⟩).toList
  | _ => bareTokens t.childTokens

mutual

/-- A tree with what has a meaning alone: in every node the tokens, then the nodes. -/
def essence : Tree → Tree
  | .leaf t => .leaf t.bare
  | .node kind children =>
    .node kind ((gist (.node kind children) kind).map .leaf ++ essenceOfAll children)

/-- The essence of the nodes among some trees. -/
def essenceOfAll : List Tree → List Tree
  | [] => []
  | t :: ts => if t.kind?.isSome then essence t :: essenceOfAll ts else essenceOfAll ts

end

theorem quotationsOfAll_eq (ts : List Tree) :
    quotationsOfAll ts = (nodes ts).flatMap quotations := by
  induction ts with
  | nil => rfl
  | cons t ts ih =>
      rw [quotationsOfAll, ih, nodes, nodes, List.filter_cons]
      cases t <;> rfl

theorem essenceOfAll_eq (ts : List Tree) : essenceOfAll ts = (nodes ts).map essence := by
  induction ts with
  | nil => rfl
  | cons t ts ih =>
      rw [essenceOfAll, ih, nodes, nodes, List.filter_cons]
      cases t <;> rfl

/-! ### Essence and what is left without trivia -/

theorem nodes_bareAll (ts : List Tree) : nodes (bareAll ts) = (nodes ts).map bare := by
  induction ts with
  | nil => rfl
  | cons t ts ih =>
      cases t with
      | leaf token =>
          rw [bareAll]
          cases htoken : (Tree.leaf token).isTrivia <;> exact ih
      | node kind children => exact congrArg (bare (.node kind children) :: ·) ih

theorem tokens_bareAll (ts : List Tree) : tokens (bareAll ts) = bareTokens (tokens ts) := by
  induction ts with
  | nil => rfl
  | cons t ts ih =>
      cases t with
      | leaf token =>
          have htail : tokens (.leaf token :: ts) = token :: tokens ts := rfl
          have hleaf : (Tree.leaf token).isTrivia = token.isTrivia := rfl
          rw [bareAll, hleaf, htail, bareTokens, Grammar.proper, List.filter_cons]
          cases token.isTrivia with
          | true => exact ih
          | false => exact congrArg (token.bare :: ·) ih
      | node kind children => exact ih

theorem find?_bareTokens {p : Token → Bool} (hbare : ∀ t : Token, p t.bare = p t)
    (hproper : ∀ t : Token, p t = true → t.isTrivia = false) (ts : List Token) :
    (bareTokens ts).find? p = (ts.find? p).map Token.bare := by
  have hfilter : (Grammar.proper ts).find? p = ts.find? p := by
    rw [Grammar.proper, List.find?_filter]
    congr 1
    funext t
    cases hp : p t with
    | false => simp
    | true => simp [hproper t hp]
  rw [bareTokens, List.find?_map, ← hfilter]
  congr 2
  funext t
  exact hbare t

theorem childToken?_bare {t : Tree} {k : TokenKind} (hk : k.isTrivia = false) :
    (bareTokens t.childTokens).find? (·.kind == k) = (t.childToken? k).map Token.bare := by
  refine find?_bareTokens (fun _ => rfl) (fun t ht => ?_) _
  rw [Token.isTrivia, beq_iff_eq.mp ht, hk]

/-- What a node means by its tokens is seen from what is left of it and what it quotes. -/
theorem gist_congr {t u : Tree} {kind : NodeKind}
    (htokens : bareTokens t.childTokens = bareTokens u.childTokens)
    (hquotation : t.quotation kind = u.quotation kind) : t.gist kind = u.gist kind := by
  cases kind
  case validation =>
    have hargument : t.argument? = u.argument? := List.singleton_inj.mp hquotation
    rw [gist, gist, hargument, ← childToken?_bare rfl, ← childToken?_bare rfl, htokens]
  case initialValue =>
    have hwritten : t.written? = u.written? := List.singleton_inj.mp hquotation
    rw [gist, gist, hwritten]
  all_goals exact htokens

theorem length_quotation (t u : Tree) (kind : NodeKind) :
    (t.quotation kind).length = (u.quotation kind).length := by
  cases kind <;> rfl

/-- Trees that are the same without trivia quote equally often, and where they quote the same
their essence is the same. -/
def Settled (t : Tree) : Prop := ∀ u : Tree, t.bare = u.bare →
  t.quotations.length = u.quotations.length ∧ (t.quotations = u.quotations → t.essence = u.essence)

theorem settled_all {ts : List Tree} (hts : ∀ t ∈ ts, t.Settled) :
    ∀ us : List Tree, ts.map bare = us.map bare →
      (ts.flatMap quotations).length = (us.flatMap quotations).length ∧
        (ts.flatMap quotations = us.flatMap quotations → ts.map essence = us.map essence) := by
  induction ts with
  | nil =>
      intro us hbare
      obtain rfl := List.map_eq_nil_iff.mp hbare.symm
      exact ⟨rfl, fun _ => rfl⟩
  | cons t ts ih =>
      intro us hbare
      obtain ⟨u, us, rfl, hu, hus⟩ := List.map_eq_cons_iff.mp hbare.symm
      obtain ⟨hlength, hessence⟩ := hts t (List.mem_cons_self ..) u hu.symm
      obtain ⟨hlengths, hessences⟩ := ih (fun v hv => hts v (List.mem_cons_of_mem _ hv)) us hus.symm
      refine ⟨by simp only [List.flatMap_cons, List.length_append, hlength, hlengths], fun h => ?_⟩
      obtain ⟨hfirst, hrest⟩ := List.append_inj h hlength
      rw [List.map_cons, List.map_cons, hessence hfirst, hessences hrest]

theorem settled (t : Tree) : t.Settled := by
  induction t using Tree.induct with
  | leaf token =>
      intro u hbare
      cases u with
      | leaf token' => exact ⟨rfl, fun _ => hbare⟩
      | node => exact nomatch hbare
  | node kind children ih =>
      intro u hbare
      cases u with
      | leaf => exact nomatch hbare
      | node kind' children' =>
          obtain ⟨rfl, hchildren⟩ := Tree.node.inj hbare
          have hnodes : (nodes children).map bare = (nodes children').map bare := by
            rw [← nodes_bareAll, hchildren, nodes_bareAll]
          have htokens : bareTokens (Tree.node kind children).childTokens =
              bareTokens (Tree.node kind children').childTokens := by
            show bareTokens (tokens children) = bareTokens (tokens children')
            rw [← tokens_bareAll, hchildren, tokens_bareAll]
          have hsettled : ∀ t ∈ nodes children, t.Settled := fun t ht =>
            ih t (List.mem_filter.mp ht).1
          obtain ⟨hlength, hessence⟩ := settled_all hsettled _ hnodes
          have hown := length_quotation (.node kind children) (.node kind children') kind
          rw [quotations, quotations, quotationsOfAll_eq, quotationsOfAll_eq]
          refine ⟨by rw [List.length_append, List.length_append, hown, hlength], fun h => ?_⟩
          obtain ⟨hfirst, hrest⟩ := List.append_inj h hown
          rw [essence, essence, essenceOfAll_eq, essenceOfAll_eq, gist_congr htokens hfirst,
            hessence hrest]

/-- **Trees that are the same without trivia, and quote the same, have the same essence.** -/
theorem essence_of_bare {t u : Tree} (hbare : t.bare = u.bare)
    (hquotations : t.quotations = u.quotations) : t.essence = u.essence :=
  (settled t u hbare).2 hquotations

end Tree

end DomainModel
