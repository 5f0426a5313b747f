/-
What is accepted holds nothing that was set aside.

Where a token does not fit, the rules complain and make a node of junk of it.  A token that is
taken without a complaint was looked at before: the tests that lead to it say of what kind it
is, the one behind it included where two are taken in a row.  `View` is what is known of the
two, and `Rule.clean` checks that a rule takes nothing that may be invalid, unless it
complains.

There is one exception.  The argument of a check on a field is taken up to the closing
parenthesis whatever stands there.  So what `accepted_clean` says is that a text without
errors has no junk, and an invalid token in it stands in such an argument; `argument_accepted`
is a text where one does.
-/
import DomainModel.Proofs.Grammar.Origin

namespace DomainModel

/-- Nothing in the tree is set aside, and no token is invalid but in a check. -/
inductive Tree.Clean : Tree → Prop
  | leaf {t} (h : t.kind ≠ .invalid) : Clean (.leaf t)
  | validation {children} (h : kindsOf children = []) : Clean (.node .validation children)
  | node {kind children} (hkind : kind ≠ .junk) (h : ∀ t ∈ children, Clean t) :
      Clean (.node kind children)

/-- A node in a clean tree is clean. -/
theorem Tree.Clean.part {s t : Tree} (hpart : s.Part t) (h : t.Clean) {kind : NodeKind}
    (hkind : s.kind? = some kind) : s.Clean := by
  induction hpart with
  | whole => exact h
  | inside hmem hpart ih =>
      cases h with
      | node _ hchildren => exact ih (hchildren _ hmem)
      | validation hnone =>
          rename_i children t
          cases t with
          | leaf =>
              cases hpart
              exact nomatch hkind
          | node k _ =>
              have : k ∈ kindsOf children := List.mem_filterMap.mpr ⟨_, hmem, rfl⟩
              rw [hnone] at this
              cases this

namespace Grammar

/-! ### What is known of the next two tokens -/

/-- What the next token may be, and the one behind it. -/
structure View where
  next : List Sight
  second : List Sight

namespace View

def anything : View := ⟨Sight.all, Sight.all⟩

/-- The tokens ahead are among those of the view. -/
def Covers (v : View) (ts : List Token) : Prop :=
  sight ts ∈ v.next ∧ sight (Reading.take ts).rest ∈ v.second

theorem covers_anything (ts : List Token) : anything.Covers ts :=
  ⟨Sight.mem_all _, Sight.mem_all _⟩

theorem covers_congr {v : View} {ts us : List Token} (h : proper ts = proper us) :
    v.Covers ts ↔ v.Covers us := by
  have hrest : proper (Reading.take ts).rest = proper (Reading.take us).rest := by
    rw [proper_take, proper_take, h]
  rw [Covers, Covers, sight_congr h, sight_congr hrest]

end View

/-- The answer to a test that the token behind the next one decides. -/
def Test.secondVerdict (s : Sight) : Test → Option Bool
  | kind 1 kinds => verdict s (kind 0 kinds)
  | word 1 words => verdict s (word 0 words)
  | negation test => (secondVerdict s test).map (!·)
  | both first second => bothKnown (secondVerdict s first) (secondVerdict s second)
  | either first second => eitherKnown (secondVerdict s first) (secondVerdict s second)
  | _ => none

theorem ahead?_take (ts : List Token) : ahead? (Reading.take ts).rest 0 = ahead? ts 1 := by
  rw [ahead?_eq, ahead?_eq, proper_take, List.getElem?_drop]

theorem Test.secondVerdict_sound (ts : List Token) (test : Test) : ∀ v : Bool,
    secondVerdict (sight (Reading.take ts).rest) test = some v → test.holds ts = v := by
  fun_induction secondVerdict (sight (Reading.take ts).rest) test with
  | case1 kinds =>
      intro v h
      have := verdict_sound (Reading.take ts).rest _ v h
      rwa [holds, ahead?_take] at this
  | case2 words =>
      intro v h
      have := verdict_sound (Reading.take ts).rest _ v h
      rwa [holds, ahead?_take] at this
  | case3 test ih =>
      intro v h
      obtain ⟨w, hw, rfl⟩ := Option.map_eq_some_iff.mp h
      rw [holds, ih w hw]
  | case4 first second ihfirst ihsecond => exact fun v h => bothKnown_sound ihfirst ihsecond h
  | case5 first second ihfirst ihsecond => exact fun v h => eitherKnown_sound ihfirst ihsecond h
  | case6 =>
      intro v h
      cases h

/-- What is left of a view when a test has come out like this. -/
def View.given (v : View) (test : Test) (outcome : Bool) : View where
  next := v.next.filter (test.may outcome)
  second := v.second.filter fun s => test.secondVerdict s != some (!outcome)

theorem View.Covers.given {v : View} {ts : List Token} (h : v.Covers ts) {test : Test}
    {outcome : Bool} (htest : test.holds ts = outcome) : (v.given test outcome).Covers ts := by
  refine ⟨List.mem_filter.mpr ⟨h.1, Test.may_holds htest⟩, List.mem_filter.mpr ⟨h.2, ?_⟩⟩
  rw [bne_iff_ne]
  intro hverdict
  have := Test.secondVerdict_sound ts test _ hverdict
  rw [htest] at this
  cases outcome <;> cases this

/-- What is known behind a rule that was read at such a view. -/
def Rule.leave : Rule → View → View
  | nothing, v | trivia, v | missing _, v => v
  | take, v => ⟨v.second, Sight.all⟩
  | seq first second, v => second.leave (first.leave v)
  | _, _ => .anything

theorem Reads.leave {rule : Rule} {ts : List Token} {r : Reading} (h : Reads rule ts r) :
    ∀ {v : View}, v.Covers ts → (rule.leave v).Covers r.rest := by
  induction h with
  | nothing | missing => exact fun hv => hv
  | take => exact fun hv => ⟨hv.2, Sight.mem_all _⟩
  | trivia => exact fun hv => (View.covers_congr (proper_afterTrivia _)).mpr hv
  | seq _ _ ihfirst ihsecond => exact fun hv => ihsecond (ihfirst hv)
  | _ => exact fun _ => View.covers_anything _

/-! ### Rules that take nothing invalid -/

namespace Rule

/-- Does the rule complain whatever it reads? -/
def complains : Rule → Bool
  | missing _ => true
  | seq first second => complains first || complains second
  | ifThen _ yes no => complains yes && complains no
  | _ => false

/-- Read at such a view, does the rule complain or else make a clean tree? -/
def clean : Rule → View → Bool
  | take, v => !v.next.contains (.kind .invalid)
  | seq first second, v =>
    complains first || complains second || clean first v && clean second (first.leave v)
  | ifThen test yes no, v => clean yes (v.given test true) && clean no (v.given test false)
  | whileDo test body, _ => clean body (View.anything.given test true)
  | node kind body, v =>
    kind == .validation && body.yields.isEmpty || kind != .junk && clean body v
  | headed lead keywords otherwise body, v =>
    clean lead v &&
      (keywords.all fun k => k.2 != .junk && clean (body k.2) ⟨Sight.words, Sight.all⟩) &&
      otherwise.all fun kind => complains (body kind) || kind != .junk && clean (body kind) .anything
  | _, _ => true

end Rule

theorem source_clean : source.clean .anything = true := by decide +kernel

theorem rules_clean (block : Nonterminal) : (rules block).clean .anything = true := by
  cases block <;> decide +kernel

theorem Reads.complains {rule : Rule} {ts : List Token} {r : Reading} (h : Reads rule ts r)
    (hrule : rule.complains = true) : r.complaints ≠ [] := by
  induction h with
  | missing => exact List.cons_ne_nil _ _
  | seq _ _ ihfirst ihsecond =>
      intro hnone
      obtain ⟨hfirst, hsecond⟩ := List.append_eq_nil_iff.mp hnone
      exact (Bool.or_eq_true_iff.mp hrule).elim (ihfirst · hfirst) (ihsecond · hsecond)
  | yes _ _ ih => exact ih (Bool.and_eq_true_iff.mp hrule).1
  | no _ _ ih => exact ih (Bool.and_eq_true_iff.mp hrule).2
  | _ => exact nomatch hrule

theorem clean_leaves {ts : List Token} (h : ∀ t ∈ ts, t.kind ≠ .invalid) :
    ∀ t ∈ ts.map Tree.leaf, t.Clean := by
  intro t ht
  obtain ⟨token, htoken, rfl⟩ := List.mem_map.mp ht
  exact .leaf (h token htoken)

theorem isTrivia_ne {t : Token} (h : t.isTrivia = true) {kind : TokenKind}
    (hkind : kind.isTrivia = false) : t.kind ≠ kind := by
  rintro rfl
  exact Bool.noConfusion (hkind.symm.trans h)

theorem pending_clean (ts : List Token) : ∀ t ∈ pendingTrivia ts, t.kind ≠ .invalid :=
  fun t ht => isTrivia_ne (isTrivia_of_pending t ht) rfl

theorem ahead?_of_taken {ts : List Token} {t : Token} (h : t ∈ (afterTrivia ts).take 1) :
    ahead? ts 0 = some t := by
  rw [ahead?_zero_eq]
  cases hafter : afterTrivia ts with
  | nil => exact nomatch hafter ▸ h
  | cons u us =>
      rw [hafter] at h
      obtain rfl := List.mem_singleton.mp h
      rfl

/-- What is taken is not invalid if the view has no invalid token next. -/
theorem take_clean {v : View} {ts : List Token} (hv : v.Covers ts)
    (hnext : .kind .invalid ∉ v.next) : ∀ t ∈ (Reading.take ts).trees, t.Clean := by
  refine clean_leaves fun t ht => ?_
  rcases List.mem_append.mp ht with ht | ht
  · exact pending_clean ts t ht
  · intro hkind
    have hahead := ahead?_of_taken ht
    have hword : ¬ t.isWord "to" = true := by simp [Token.isWord, hkind]
    refine hnext ?_
    have hsight := hv.1
    rwa [sight, hahead, Sight.ofToken, if_neg hword, hkind] at hsight

theorem clean_join {r s : Reading} (h : ∀ t ∈ r.trees, t.Clean) (h' : ∀ t ∈ s.trees, t.Clean) :
    ∀ t ∈ (r.join s).trees, t.Clean :=
  List.forall_mem_append.mpr ⟨h, h'⟩

theorem clean_trivia (ts : List Token) : ∀ t ∈ (Reading.trivia ts).trees, t.Clean :=
  clean_leaves (pending_clean ts)

theorem clean_wrap {kind : NodeKind} {r : Reading} (hkind : kind ≠ .junk)
    (h : ∀ t ∈ r.trees, t.Clean) : ∀ t ∈ (r.wrap kind).trees, t.Clean := by
  intro t ht
  rw [List.mem_singleton.mp ht]
  exact .node hkind h

/-- A keyword that decides on the kind of a node is seen as a word. -/
theorem headKind_cases {keywords : List (String × NodeKind)} {otherwise : Option NodeKind}
    {ts : List Token} {kind : NodeKind} (h : headKind keywords otherwise ts = some kind) :
    (∃ word, (word, kind) ∈ keywords ∧ sight ts ∈ Sight.words) ∨ otherwise = some kind := by
  unfold headKind at h
  split at h
  · rename_i word _ hfind
    obtain ⟨t, hahead, hfind⟩ := Option.bind_eq_some_iff.mp hfind
    obtain rfl := Option.some.inj h
    have hword := List.find?_some hfind
    refine .inl ⟨word, List.mem_of_find?_eq_some hfind, sight_word hahead ?_⟩
    exact beq_iff_eq.mp (Bool.and_eq_true_iff.mp hword).1
  · exact .inr h

/-- **Whatever a rule reads without complaint is clean**, if the rule is. -/
theorem Reads.clean {rule : Rule} {ts : List Token} {r : Reading} (h : Reads rule ts r) :
    ∀ {v : View}, v.Covers ts → rule.clean v = true → r.complaints = [] →
      ∀ t ∈ r.trees, t.Clean := by
  induction h with
  | nothing | missing | done => exact fun _ _ _ t ht => nomatch ht
  | take =>
      intro v hv hcheck _
      exact take_clean hv (by simpa [Rule.clean] using hcheck)
  | trivia => exact fun _ _ _ => clean_trivia _
  | seq hfirst hsecond ihfirst ihsecond =>
      intro v hv hcheck hnone
      have hwhole := (hfirst.seq hsecond).complains
      obtain ⟨hleft, hright⟩ := List.append_eq_nil_iff.mp hnone
      simp only [Rule.clean, Bool.or_eq_true, Bool.and_eq_true] at hcheck
      rcases hcheck with hcomplains | ⟨hcheck, hcheck'⟩
      · exact absurd hnone (hwhole (Bool.or_eq_true_iff.mpr hcomplains))
      · exact clean_join (ihfirst hv hcheck hleft) (ihsecond (hfirst.leave hv) hcheck' hright)
  | yes htest _ ih =>
      intro v hv hcheck
      exact ih (hv.given htest) (Bool.and_eq_true_iff.mp hcheck).1
  | no htest _ ih =>
      intro v hv hcheck
      exact ih (hv.given htest) (Bool.and_eq_true_iff.mp hcheck).2
  | again htest _ _ ihbody ihloop =>
      intro v hv hcheck hnone
      obtain ⟨hround, hloop⟩ := List.append_eq_nil_iff.mp hnone
      exact clean_join (ihbody ((View.covers_anything _).given htest) hcheck hround)
        (@ihloop .anything (View.covers_anything _) hcheck hloop)
  | @node kind body ts r hbody ih =>
      intro v hv hcheck hnone
      simp only [Rule.clean, Bool.or_eq_true, Bool.and_eq_true, beq_iff_eq, bne_iff_ne,
        List.isEmpty_iff] at hcheck
      refine clean_join (clean_trivia ts) ?_
      rcases hcheck with ⟨rfl, hyields⟩ | ⟨hkind, hcheck⟩
      · intro t ht
        rw [List.mem_singleton.mp ht]
        refine .validation (List.eq_nil_iff_forall_not_mem.mpr fun k hk => ?_)
        have := hbody.kinds k hk
        rw [hyields] at this
        cases this
      · have hinner := (View.covers_congr (proper_afterTrivia ts)).mpr hv
        exact clean_wrap hkind (ih hinner hcheck hnone)
  | @bare lead keywords otherwise body ts r _ _ ih =>
      intro v hv hcheck hnone
      simp only [Rule.clean, Bool.and_eq_true] at hcheck
      exact clean_join (clean_trivia ts)
        (ih ((View.covers_congr (proper_afterTrivia ts)).mpr hv) hcheck.1.1 hnone)
  | @headed lead keywords otherwise body ts r kind s hlead hkind hbody ihlead ihbody =>
      intro v hv hcheck hnone
      have hnone : r.complaints ++ s.complaints = [] := hnone
      obtain ⟨hnonelead, hnonebody⟩ := List.append_eq_nil_iff.mp hnone
      simp only [Rule.clean, Bool.and_eq_true, List.all_eq_true, bne_iff_ne, Option.all_eq_true,
        Bool.or_eq_true] at hcheck
      obtain ⟨⟨hcheck, hkeywords⟩, hotherwise⟩ := hcheck
      have hclean := ihlead ((View.covers_congr (proper_afterTrivia ts)).mpr hv) hcheck hnonelead
      refine clean_join (clean_trivia ts) ?_
      rcases headKind_cases hkind with ⟨word, hmem, hword⟩ | rfl
      · obtain ⟨hjunk, hcheck'⟩ := hkeywords _ hmem
        exact clean_wrap hjunk (clean_join hclean (ihbody ⟨hword, Sight.mem_all _⟩ hcheck' hnonebody))
      · rcases hotherwise kind rfl with hcomplains | ⟨hjunk, hcheck'⟩
        · exact absurd hnonebody (hbody.complains hcomplains)
        · exact clean_wrap hjunk
            (clean_join hclean (ihbody (View.covers_anything _) hcheck' hnonebody))
  | call _ ih =>
      intro v _ _
      exact ih (View.covers_anything _) (rules_clean _)

/-! ### The argument of a check -/

/-- What stands in a check on a field: its name, and perhaps something in parentheses. -/
inductive CheckForm (word : Token) : List Token → Prop
  | plain : CheckForm word [word]
  | argument {opening closing : Token} {gap inside : List Token}
      (hgap : ∀ t ∈ gap, t.isTrivia = true) (hopening : opening.kind = .lParen)
      (hinside : ∀ t ∈ inside, t.kind ≠ .rParen) (hclosing : closing.kind = .rParen) :
      CheckForm word (word :: gap ++ opening :: inside ++ [closing])

/-- Up to the closing parenthesis no other one is taken. -/
theorem Reads.up_to_closing {test : Test} {ts : List Token} {r : Reading}
    (h : Reads (.whileDo (.both (.negation (.kind 0 [.rParen, .rBrace])) test) .take) ts r) :
    ∃ inside : List Token, r.trees = inside.map .leaf ∧ ∀ t ∈ inside, t.kind ≠ .rParen := by
  generalize hrule : Rule.whileDo (.both (.negation (.kind 0 [.rParen, .rBrace])) test) .take =
    rule at h
  induction h with
  | done => exact ⟨[], rfl, List.forall_mem_nil _⟩
  | @again _ _ ts _ s htest hbody _ _ ihloop =>
      obtain ⟨rfl, rfl⟩ := Rule.whileDo.inj hrule
      obtain ⟨inside, hinside, hnone⟩ := ihloop hrule
      cases hbody
      refine ⟨pendingTrivia ts ++ (afterTrivia ts).take 1 ++ inside, ?_, ?_⟩
      · rw [List.map_append, ← hinside]
        rfl
      · refine List.forall_mem_append.mpr ⟨List.forall_mem_append.mpr ⟨?_, ?_⟩, hnone⟩
        · exact fun t ht => isTrivia_ne (isTrivia_of_pending t ht) rfl
        · intro t ht hkind
          simp [Test.holds, ahead?_of_taken ht, hkind] at htest
  | _ => cases hrule

/-- Checks are read by one rule, where a word is next. -/
theorem bodies_validation : (bodies .validation).map (fun b => Rule.node .validation b.rule) =
      List.replicate (bodies .validation).length validation ∧
    ∀ b ∈ bodies .validation, ∀ s ∈ b.seen, s ∈ Sight.words :=
  ⟨rfl, by decide +kernel⟩

/-- **A check is a word**, with something in parentheses behind it or without. -/
theorem checkForm {source : String} {children : List Tree}
    (hpart : (Tree.node .validation children).Part (parse source).tree)
    (hnone : (parse source).complaints = []) : ∃ word tokens, word.kind = .ident ∧
      CheckForm word tokens ∧ children = tokens.map .leaf := by
  obtain ⟨⟨rule, seen⟩, hb, ts, r, hseen, hreads, rfl, hcomplaints⟩ :=
    origin_accepted hnone hpart nofun
  obtain rfl := rule_of_bodies bodies_validation.1 hb
  cases hreads with
  | seq hname hargument =>
  cases hname
  obtain ⟨word, hword, hident⟩ := take_word (bodies_validation.2 _ hb _ hseen)
  refine ⟨word, ?_⟩
  rw [Reading.join, hword]
  generalize (Reading.take (afterTrivia ts)).rest = us at hargument
  obtain ⟨-, hcomplaints⟩ := List.append_eq_nil_iff.mp hcomplaints
  cases hargument with
  | no _ hno =>
      cases hno
      exact ⟨[word], hident, .plain, rfl⟩
  | yes htest hyes =>
      obtain ⟨opening, hahead, hopening⟩ := holds_kind_iff.mp htest
      cases hyes with
      | seq hinside hclosing =>
      cases hinside with
      | @seq _ _ _ _ s hopen hloop =>
      cases hopen
      obtain ⟨inside, htrees, hinside⟩ := hloop.up_to_closing
      obtain ⟨-, hcomplaints⟩ := List.append_eq_nil_iff.mp hcomplaints
      cases hclosing with
      | no _ hmissing =>
          cases hmissing
          exact absurd hcomplaints (List.cons_ne_nil _ _)
      | yes hparen htake =>
          cases htake
          obtain ⟨closing, hnext, hclosing⟩ := holds_kind_iff.mp hparen
          refine ⟨word :: pendingTrivia us ++ opening :: (inside ++ pendingTrivia s.rest) ++
            [closing], hident, .argument isTrivia_of_pending hopening ?_ hclosing, ?_⟩
          · refine List.forall_mem_append.mpr ⟨hinside, fun t ht => ?_⟩
            exact isTrivia_ne (isTrivia_of_pending t ht) rfl
          · have hclose : (Reading.take s.rest).trees =
                (pendingTrivia s.rest ++ [closing]).map .leaf := (take_ahead hnext).1
            show [Tree.leaf word] ++ ((Reading.take us).trees ++ s.trees ++
              (Reading.take s.rest).trees) = _
            rw [(take_ahead hahead).1, hclose, htrees]
            simp

/-- An invalid token of a check stands between the parentheses. -/
theorem CheckForm.invalid {word : Token} {tokens : List Token} (h : CheckForm word tokens)
    (hword : word.kind = .ident) {token : Token} (hmem : token ∈ tokens)
    (hinvalid : token.kind = .invalid) : ∃ inside,
      Tree.tokensBehind .lParen tokens = some inside ∧
        token ∈ inside.takeWhile (·.kind != .rParen) := by
  cases h with
  | plain =>
      obtain rfl := List.mem_singleton.mp hmem
      rw [hword] at hinvalid
      cases hinvalid
  | @argument opening closing gap inside hgap hopening hinside hclosing =>
      have hfront : ∀ t ∈ word :: gap, t.kind ≠ .lParen ∧ t.kind ≠ .invalid :=
        List.forall_mem_cons.mpr ⟨by simp [hword], fun t ht =>
          ⟨isTrivia_ne (hgap t ht) rfl, isTrivia_ne (hgap t ht) rfl⟩⟩
      refine ⟨inside ++ [closing], ?_, ?_⟩
      · rw [List.append_assoc, Tree.tokensBehind,
          List.dropWhile_append_of_pos fun t ht => by simpa using (hfront t ht).1]
        simp [hopening]
      · rw [List.takeWhile_append_of_pos (by simpa using hinside)]
        refine List.mem_append_left _ ?_
        rcases List.mem_append.mp hmem with hmem | hmem
        · rcases List.mem_append.mp hmem with hmem | hmem
          · exact absurd hinvalid (hfront token hmem).2
          · rcases List.mem_cons.mp hmem with rfl | hmem
            · rw [hopening] at hinvalid
              cases hinvalid
            · exact hmem
        · obtain rfl := List.mem_singleton.mp hmem
          rw [hclosing] at hinvalid
          cases hinvalid

end Grammar

/-- **A text without errors holds nothing that was set aside**, and an invalid token in it stands
between the parentheses of a check. -/
theorem accepted_clean {source : String} (h : (parse source).errors source = []) :
    (∀ t : Tree, t.Part (parse source).tree → t.kind? ≠ some .junk) ∧
      ∀ t : Tree, t.Part (parse source).tree → ∀ token, .leaf token ∈ t.children →
        token.kind = .invalid → t.kind? = some .validation ∧ ∃ inside,
          Tree.tokensBehind .lParen t.childTokens = some inside ∧
            token ∈ inside.takeWhile (·.kind != .rParen) := by
  have hnone : (parse source).complaints = [] := List.map_eq_nil_iff.mp h
  have hclean : (parse source).tree.Clean :=
    .node (by decide) ((Grammar.reads_readSource (scan source)).clean
      (Grammar.View.covers_anything _) Grammar.source_clean hnone)
  constructor
  · intro t hpart hkind
    cases hclean.part hpart hkind with
    | leaf => exact nomatch hkind
    | validation => exact nomatch hkind
    | node hjunk => exact hjunk (Option.some.inj hkind)
  · intro t hpart token htoken hinvalid
    cases t with
    | leaf => exact nomatch htoken
    | node kind children =>
      cases hclean.part hpart rfl with
      | node _ hchildren =>
          cases hchildren _ htoken with
          | leaf hvalid => exact absurd hinvalid hvalid
      | validation =>
          obtain ⟨word, tokens, hident, hform, rfl⟩ := Grammar.checkForm hpart hnone
          have htokens : (Tree.node .validation (tokens.map .leaf)).childTokens = tokens := by
            rw [Tree.childTokens, Tree.children, List.filterMap_map]
            exact List.filterMap_some
          have hmem : token ∈ tokens := by simpa [Tree.children] using htoken
          rw [htokens]
          exact ⟨rfl, hform.invalid hident hmem hinvalid⟩

theorem accepted_clean_check :
    let source := "entity A \x7b x B min(#) \x7d"
    (parse source).errors source = [] ∧
      (∀ t : Tree, t.Part (parse source).tree → t.kind? ≠ some .junk) ∧
      ∀ t : Tree, t.Part (parse source).tree → .leaf ⟨.invalid, "#", 19⟩ ∈ t.children →
        t.kind? = some .validation := by
  intro source
  have h : (parse source).errors source = [] := by decide +kernel
  obtain ⟨hjunk, hinvalid⟩ := accepted_clean h
  exact ⟨h, hjunk, fun t hpart hmem => (hinvalid t hpart _ hmem rfl).1⟩

/-- A text may have an invalid token and no error. -/
theorem argument_accepted : ¬ ∀ source, (parse source).errors source = [] →
    ∀ t ∈ (parse source).tree.leaves, t.kind ≠ .invalid := by
  intro h
  have herrors : (parse "entity A \x7b x B min(#) \x7d").errors "entity A \x7b x B min(#) \x7d" = [] := by
    decide +kernel
  have hmem : ⟨.invalid, "#", 19⟩ ∈ (parse "entity A \x7b x B min(#) \x7d").tree.leaves := by
    decide +kernel
  exact h _ herrors _ hmem rfl

end DomainModel
