/-
Reading without white space and comments.

The grammar looks through trivia, so leaving it out of the tokens leaves the trees as they
are, trivia apart.  Two tests are the exception: they count the line breaks around a doc
comment.  `Rule.blind` checks on the grammar that no line break is counted but next to a doc
comment, and where a text has none, `Reads.respaced` says that reading the proper tokens alone
gives the same trees without trivia.

Reading a rule has one outcome (`Reads.unique`), so texts with the same proper tokens have
the same tree without trivia (`bare_parse`).
-/
import DomainModel.Proofs.Grammar.Progress

namespace DomainModel

/-! ### Trees without trivia -/

/-- A token without its place. -/
def Token.bare (t : Token) : Token := { t with start := 0 }

/-- Is the tree a leaf of trivia? -/
def Tree.isTrivia : Tree → Bool
  | .leaf t => t.isTrivia
  | .node _ _ => false

mutual

/-- A tree without trivia inside it and without places. -/
def Tree.bare : Tree → Tree
  | .leaf t => .leaf t.bare
  | .node kind children => .node kind (Tree.bareAll children)

def Tree.bareAll : List Tree → List Tree
  | [] => []
  | t :: ts => if t.isTrivia then Tree.bareAll ts else Tree.bare t :: Tree.bareAll ts

end

theorem Tree.bareAll_eq (ts : List Tree) :
    bareAll ts = (ts.filter fun t => !t.isTrivia).map bare := by
  induction ts with
  | nil => rfl
  | cons t ts ih =>
      rw [bareAll, ih, List.filter_cons]
      cases t.isTrivia <;> rfl

namespace Grammar

open DomainModel.Tree (bareAll)

theorem bareAll_append (ts us : List Tree) : bareAll (ts ++ us) = bareAll ts ++ bareAll us := by
  simp only [Tree.bareAll_eq, List.filter_append, List.map_append]

/-- The proper tokens without their places. -/
def bareTokens (ts : List Token) : List Token := (proper ts).map Token.bare

theorem bareAll_leaf (ts : List Token) : bareAll (ts.map .leaf) = (bareTokens ts).map .leaf := by
  rw [Tree.bareAll_eq, List.filter_map, List.map_map, bareTokens, List.map_map]
  rfl

theorem bareTokens_cons_trivia {t : Token} (h : t.isTrivia = true) (ts : List Token) :
    bareTokens (t :: ts) = bareTokens ts := by
  rw [bareTokens, proper, List.filter_cons_of_neg (by simp [h])]
  rfl

theorem bareTokens_cons_proper {t : Token} (h : t.isTrivia = false) (ts : List Token) :
    bareTokens (t :: ts) = t.bare :: bareTokens ts := by
  rw [bareTokens, proper, List.filter_cons_of_pos (by simp [h])]
  rfl

theorem bareTokens_append (ts us : List Token) :
    bareTokens (ts ++ us) = bareTokens ts ++ bareTokens us := by
  rw [bareTokens, proper_append, List.map_append, bareTokens, bareTokens]

theorem bareTokens_pending (ts : List Token) : bareTokens (pendingTrivia ts) = [] := by
  rw [bareTokens, proper_pending, List.map_nil]

theorem bareTokens_afterTrivia (ts : List Token) : bareTokens (afterTrivia ts) = bareTokens ts := by
  rw [bareTokens, proper_afterTrivia, bareTokens]

theorem isTrivia_of_bareTokens {ts : List Token} {t : Token} (h : t ∈ bareTokens ts) :
    t.isTrivia = false := by
  obtain ⟨u, hu, rfl⟩ := List.mem_map.mp h
  have hproper : u.isTrivia = false := by simpa using (List.mem_filter.mp hu).2
  exact hproper

theorem pendingTrivia_bareTokens (ts : List Token) : pendingTrivia (bareTokens ts) = [] := by
  cases h : bareTokens ts with
  | nil => rfl
  | cons t us =>
      have ht : t.isTrivia = false := isTrivia_of_bareTokens (h ▸ List.mem_cons_self ..)
      rw [pendingTrivia, List.takeWhile_cons, ht]
      rfl

theorem afterTrivia_bareTokens (ts : List Token) : afterTrivia (bareTokens ts) = bareTokens ts := by
  have h := pending_append_after (bareTokens ts)
  rwa [pendingTrivia_bareTokens, List.nil_append] at h

theorem ahead?_bareTokens (ts : List Token) (n : Nat) :
    ahead? (bareTokens ts) n = (ahead? ts n).map Token.bare := by
  have hproper : proper (bareTokens ts) = bareTokens ts :=
    List.filter_eq_self.mpr fun t ht => by rw [isTrivia_of_bareTokens ht]; rfl
  rw [ahead?_eq, ahead?_eq, hproper, bareTokens, List.getElem?_map]

/-! ### Tests that see no line break -/

/-- Does a test count line breaks only where a doc comment is next? -/
def Test.blind : Test → Bool
  | sameLine | breaksBehind _ => false
  | negation test => blind test
  | both (kind 0 [.javadoc]) _ => true
  | both first second | either first second => blind first && blind second
  | _ => true

/-- Does a rule ask nothing but such tests? -/
def Rule.blind : Rule → Bool
  | seq first second => blind first && blind second
  | ifThen test yes no => test.blind && blind yes && blind no
  | whileDo test body => test.blind && blind body
  | node _ body => blind body
  | headed lead keywords otherwise body =>
    blind lead && (headKinds keywords otherwise).all fun kind => blind (body kind)
  | _ => true

theorem rules_blind (block : Nonterminal) : (rules block).blind = true := by
  cases block <;> decide +kernel

theorem source_blind : source.blind = true := by decide +kernel

/-- No token is a doc comment. -/
def Undocumented (ts : List Token) : Prop := ∀ t ∈ ts, t.kind ≠ .javadoc

theorem Undocumented.rest {rule : Rule} {ts : List Token} {r : Reading} (h : Undocumented ts)
    (hreads : Reads rule ts r) : Undocumented r.rest := by
  intro t ht
  refine h t ?_
  rw [← hreads.tokens_eq]
  exact List.mem_append_right _ ht

theorem Undocumented.afterTrivia {ts : List Token} (h : Undocumented ts) :
    Undocumented (afterTrivia ts) :=
  fun t ht => h t (List.dropWhile_subset _ ht)

theorem ahead?_mem {ts : List Token} {n : Nat} {t : Token} (h : ahead? ts n = some t) : t ∈ ts := by
  rw [ahead?_eq] at h
  exact (List.mem_filter.mp (List.mem_of_getElem? h)).1

/-- A test that sees no line break says the same of the proper tokens. -/
theorem Test.holds_bareTokens {test : Test} {ts : List Token} (hblind : test.blind = true)
    (hts : Undocumented ts) : test.holds (bareTokens ts) = test.holds ts := by
  induction test with
  | kind n kinds =>
      rw [holds, holds, ahead?_bareTokens]
      cases ahead? ts n <;> rfl
  | word n words =>
      rw [holds, holds, ahead?_bareTokens]
      cases ahead? ts n <;> rfl
  | ends n =>
      rw [holds, holds, ahead?_bareTokens]
      cases ahead? ts n <;> rfl
  | sameLine | breaksBehind => exact Bool.noConfusion hblind
  | negation test ih => rw [holds, holds, ih hblind]
  | both first second ihfirst ihsecond =>
      by_cases hdoc : first = .kind 0 [.javadoc]
      · -- Without doc comments the first half fails either way.
        have hnone : holds ts first = false := by
          rw [hdoc, holds, Option.any_eq_false]
          intro t ht
          simpa using hts t (ahead?_mem ht)
        rw [holds, holds, ihfirst (hdoc ▸ rfl), hnone, Bool.false_and, Bool.false_and]
      · have hhalves : first.blind = true ∧ second.blind = true := by
          rw [blind.eq_def] at hblind
          split at hblind <;> simp_all
        rw [holds, holds, ihfirst hhalves.1, ihsecond hhalves.2]
  | either first second ihfirst ihsecond =>
      obtain ⟨hfirst, hsecond⟩ := Bool.and_eq_true_iff.mp hblind
      rw [holds, holds, ihfirst hfirst, ihsecond hsecond]

theorem headKind_bareTokens (keywords : List (String × NodeKind)) (otherwise : Option NodeKind)
    (ts : List Token) :
    headKind keywords otherwise (bareTokens ts) = headKind keywords otherwise ts := by
  rw [headKind, headKind, ahead?_bareTokens]
  cases ahead? ts 0 <;> rfl

/-! ### Readings without trivia -/

/-- A reading without trivia and places. -/
def Reading.bare (r : Reading) : Reading where
  trees := bareAll r.trees
  complaints := r.complaints.map fun c => ⟨c.expected, c.found.map Token.bare⟩
  rest := bareTokens r.rest

theorem Reading.bare_join (r s : Reading) : (r.join s).bare = r.bare.join s.bare := by
  simp only [Reading.bare, Reading.join, bareAll_append, List.map_append]

theorem Reading.bare_wrap (kind : NodeKind) (r : Reading) : (r.wrap kind).bare = r.bare.wrap kind :=
  rfl

theorem Reading.bare_trivia (ts : List Token) :
    (Reading.trivia ts).bare = Reading.trivia (bareTokens ts) := by
  rw [Reading.trivia, Reading.trivia, pendingTrivia_bareTokens, afterTrivia_bareTokens,
    Reading.bare, bareAll_leaf, bareTokens_pending, bareTokens_afterTrivia]
  rfl

theorem Reading.bare_take (ts : List Token) :
    (Reading.take ts).bare = Reading.take (bareTokens ts) := by
  rw [Reading.take, Reading.take, pendingTrivia_bareTokens, afterTrivia_bareTokens,
    ← bareTokens_afterTrivia ts, Reading.bare, bareAll_leaf, bareTokens_append,
    bareTokens_pending]
  cases hafter : afterTrivia ts with
  | nil => rfl
  | cons t us =>
      have ht : t.isTrivia = false := isTrivia_of_afterTrivia hafter
      have hsingle : bareTokens [t] = [t.bare] := bareTokens_cons_proper ht []
      rw [bareTokens_cons_proper ht, List.take_succ_cons, List.take_zero, hsingle]
      rfl

/-- **The proper tokens alone are read as the same trees**, where no doc comment is among
them. -/
theorem Reads.respaced {rule : Rule} {ts : List Token} {r : Reading} (h : Reads rule ts r) :
    rule.blind = true → Undocumented ts → Reads rule (bareTokens ts) r.bare := by
  induction h with
  | nothing => exact fun _ _ => .nothing
  | take => exact fun _ _ => Reading.bare_take _ ▸ .take
  | trivia => exact fun _ _ => Reading.bare_trivia _ ▸ .trivia
  | @missing what ts =>
      intro _ _
      have hbare : Reading.bare ⟨[], [⟨what, ahead? ts 0⟩], ts⟩ =
          ⟨[], [⟨what, ahead? (bareTokens ts) 0⟩], bareTokens ts⟩ := by
        rw [ahead?_bareTokens]
        rfl
      exact hbare ▸ .missing
  | seq hfirst _ ihfirst ihsecond =>
      intro hblind hts
      obtain ⟨hleft, hright⟩ := Bool.and_eq_true_iff.mp hblind
      exact Reading.bare_join .. ▸ .seq (ihfirst hleft hts) (ihsecond hright (hts.rest hfirst))
  | yes htest _ ih =>
      intro hblind hts
      simp only [Rule.blind, Bool.and_eq_true] at hblind
      exact .yes ((Test.holds_bareTokens hblind.1.1 hts).trans htest) (ih hblind.1.2 hts)
  | no htest _ ih =>
      intro hblind hts
      simp only [Rule.blind, Bool.and_eq_true] at hblind
      exact .no ((Test.holds_bareTokens hblind.1.1 hts).trans htest) (ih hblind.2 hts)
  | done htest =>
      intro hblind hts
      simp only [Rule.blind, Bool.and_eq_true] at hblind
      exact .done ((Test.holds_bareTokens hblind.1 hts).trans htest)
  | again htest hbody _ ihbody ihloop =>
      intro hblind hts
      have hparts := hblind
      simp only [Rule.blind, Bool.and_eq_true] at hparts
      exact Reading.bare_join .. ▸ .again ((Test.holds_bareTokens hparts.1 hts).trans htest)
        (ihbody hparts.2 hts) (ihloop hblind (hts.rest hbody))
  | @node kind body ts r _ ih =>
      intro hblind hts
      have hinner := ih hblind hts.afterTrivia
      rw [bareTokens_afterTrivia, ← afterTrivia_bareTokens] at hinner
      rw [Reading.bare_join, Reading.bare_trivia, Reading.bare_wrap]
      exact .node hinner
  | @bare lead keywords otherwise body ts r _ hkind ih =>
      intro hblind hts
      simp only [Rule.blind, Bool.and_eq_true] at hblind
      have hinner := ih hblind.1 hts.afterTrivia
      rw [bareTokens_afterTrivia, ← afterTrivia_bareTokens] at hinner
      rw [Reading.bare_join, Reading.bare_trivia]
      exact .bare hinner ((headKind_bareTokens ..).trans hkind)
  | @headed lead keywords otherwise body ts r kind s hlead hkind _ ihlead ihbody =>
      intro hblind hts
      simp only [Rule.blind, Bool.and_eq_true, List.all_eq_true] at hblind
      have hinner := ihlead hblind.1 hts.afterTrivia
      rw [bareTokens_afterTrivia, ← afterTrivia_bareTokens] at hinner
      rw [Reading.bare_join, Reading.bare_trivia, Reading.bare_wrap, Reading.bare_join]
      exact .headed hinner ((headKind_bareTokens ..).trans hkind)
        (ihbody (hblind.2 kind (mem_headKinds hkind)) (hts.afterTrivia.rest hlead))
  | call _ ih => exact fun _ hts => .call (ih (rules_blind _) hts)

/-- **Reading a rule has one outcome.** -/
theorem Reads.unique {rule : Rule} {ts : List Token} {r : Reading} (h : Reads rule ts r) :
    ∀ {s : Reading}, Reads rule ts s → r = s := by
  induction h with
  | nothing | take | trivia | missing =>
      intro s h'
      cases h'
      rfl
  | seq _ _ ihfirst ihsecond =>
      intro s h'
      cases h' with
      | seq hfirst hsecond =>
          obtain rfl := ihfirst hfirst
          rw [ihsecond hsecond]
  | yes htest _ ih =>
      intro s h'
      cases h' with
      | yes _ hyes => exact ih hyes
      | no hfalse => exact Bool.noConfusion (hfalse.symm.trans htest)
  | no htest _ ih =>
      intro s h'
      cases h' with
      | yes htrue => exact Bool.noConfusion (htest.symm.trans htrue)
      | no _ hno => exact ih hno
  | done htest =>
      intro s h'
      cases h' with
      | done => rfl
      | again htrue => exact Bool.noConfusion (htest.symm.trans htrue)
  | again htest _ _ ihbody ihloop =>
      intro s h'
      cases h' with
      | done hfalse => exact Bool.noConfusion (hfalse.symm.trans htest)
      | again _ hbody hloop =>
          obtain rfl := ihbody hbody
          rw [ihloop hloop]
  | node _ ih =>
      intro s h'
      cases h' with
      | node hbody => rw [ih hbody]
  | bare _ hkind ih =>
      intro s h'
      cases h' with
      | bare hlead => rw [ih hlead]
      | headed hlead hother =>
          obtain rfl := ih hlead
          exact nomatch hkind.symm.trans hother
  | headed _ hkind _ ihlead ihbody =>
      intro s h'
      cases h' with
      | bare hlead hother =>
          obtain rfl := ihlead hlead
          exact nomatch hother.symm.trans hkind
      | headed hlead hother hbody =>
          obtain rfl := ihlead hlead
          obtain rfl := Option.some.inj (hkind.symm.trans hother)
          rw [ihbody hbody]
  | call _ ih =>
      intro s h'
      cases h' with
      | call hrule => exact ih hrule

end Grammar

/-- **Texts with the same proper tokens have the same tree**, trivia apart, where no token is
a doc comment. -/
theorem bare_parse {source source' : String} (h : Grammar.Undocumented (scan source))
    (h' : Grammar.Undocumented (scan source'))
    (htokens : Grammar.bareTokens (scan source) = Grammar.bareTokens (scan source')) :
    (parse source).tree.bare = (parse source').tree.bare := by
  have hreads := (Grammar.reads_readSource (scan source)).respaced Grammar.source_blind h
  have hreads' := (Grammar.reads_readSource (scan source')).respaced Grammar.source_blind h'
  rw [← htokens] at hreads'
  exact congrArg (Tree.node .sourceFile) (congrArg Grammar.Reading.trees (hreads.unique hreads'))

end DomainModel
