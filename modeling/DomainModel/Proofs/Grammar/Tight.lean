/-
Nodes begin and end with proper tokens.

Trivia is taken with the token behind it, and a node is opened behind the trivia that is
pending.  So every node that holds anything begins with a proper token, whatever was wrong
with the text (`begins_proper`).  That it holds something, and that it also ends with a proper
token, is a matter of what the rules take: behind the last token of the text there may be
trivia, and to take there means to take nothing else.

`Rule.tight` checks that a rule takes only where a token is left, unless it complains, and
that every node that it makes takes one.  What is known of the next two tokens is a `View`,
since some rules take two tokens in a row.  `Reads.tight` carries the check to whatever is
read, and `tight_parse` to the tree of a text without complaints.
-/
import DomainModel.Proofs.Build.Names
import DomainModel.Proofs.Grammar.Clean

namespace DomainModel

namespace Tree

/-- No node of the tree is empty, and none ends with trivia. -/
inductive Tight : Tree → Prop
  | leaf {token} : Tight (.leaf token)
  | node {kind children last} (hlast : (leavesOfAll children).getLast? = some last)
      (hproper : last.isTrivia = false) (h : ∀ t ∈ children, Tight t) :
      Tight (.node kind children)

theorem Tight.part {s t : Tree} (hpart : s.Part t) (h : t.Tight) : s.Tight := by
  induction hpart with
  | whole => exact h
  | inside hmem _ ih =>
      cases h with
      | node _ _ hchildren => exact ih (hchildren _ hmem)

/-- The last token of a tight node. -/
theorem Tight.last {t : Tree} (h : t.Tight) (hkind : t.kind?.isSome) :
    ∃ last, t.leaves.getLast? = some last ∧ last.isTrivia = false := by
  cases h with
  | leaf => exact nomatch hkind
  | node hlast hproper _ => exact ⟨_, hlast, hproper⟩

end Tree

namespace Grammar

/-! ### The first token -/

/-- **Every node that is not empty begins with a proper token**, but for the whole text. -/
theorem begins_proper {source : String} {t : Tree} (h : t.Inside (parse source).tree)
    (hkind : t.kind?.isSome) : ∀ first ∈ t.leaves.head?, first.isTrivia = false := by
  obtain ⟨child, hchild, hpart⟩ := h
  obtain ⟨kind, hkind⟩ := Option.isSome_iff_exists.mp hkind
  obtain ⟨children, rfl⟩ := Tree.exists_node hkind
  obtain ⟨b, -, ts, r, -, hreads, rfl, -⟩ :=
    (reads_readSource (scan source)).origin (Sight.mem_all _) child hchild hpart
  intro first hfirst
  -- The leaves of the node are what was next when it was opened.
  have htokens : Tree.leavesOfAll r.trees ++ r.rest = afterTrivia ts := hreads.tokens_eq
  obtain ⟨more, hmore⟩ : ∃ more, Tree.leavesOfAll r.trees = first :: more :=
    ⟨_, List.eq_cons_of_mem_head? hfirst⟩
  rw [hmore, List.cons_append] at htokens
  exact isTrivia_of_afterTrivia htokens.symm

/-! ### The last token -/

/-- Nothing but a proper token comes last in a reading and in its nodes; where it has to be
`filled`, there is one. -/
structure Reading.Tight (filled : Bool) (r : Reading) : Prop where
  trees : ∀ t ∈ r.trees, t.Tight
  last : ∀ t ∈ (Tree.leavesOfAll r.trees).getLast?, t.isTrivia = false
  nonempty : filled = true → Tree.leavesOfAll r.trees ≠ []

namespace Reading.Tight

variable {filled filled' : Bool} {r s : Reading}

theorem of_nil (h : r.trees = []) : r.Tight false := by
  refine ⟨?_, ?_, nofun⟩
  · rw [h]
    exact List.forall_mem_nil _
  · rw [h]
    exact fun _ ht => nomatch ht

theorem join (h : r.Tight filled) (h' : s.Tight filled') : (r.join s).Tight (filled || filled') := by
  have hleaves : Tree.leavesOfAll (r.join s).trees =
      Tree.leavesOfAll r.trees ++ Tree.leavesOfAll s.trees := leavesOfAll_append ..
  refine ⟨List.forall_mem_append.mpr ⟨h.trees, h'.trees⟩, fun t ht => ?_, fun hfilled hnil => ?_⟩
  · rw [hleaves, List.getLast?_append] at ht
    cases hlast : (Tree.leavesOfAll s.trees).getLast? with
    | none =>
        rw [hlast] at ht
        exact h.last t ht
    | some last =>
        rw [hlast] at ht
        exact h'.last t (hlast.trans ht)
  · rw [hleaves, List.append_eq_nil_iff] at hnil
    rcases Bool.or_eq_true_iff.mp hfilled with hfilled | hfilled
    · exact h.nonempty hfilled hnil.1
    · exact h'.nonempty hfilled hnil.2

theorem anyway (h : r.Tight true) : r.Tight filled :=
  ⟨h.trees, h.last, fun _ => h.nonempty rfl⟩

/-- What takes a proper token may stand behind trivia. -/
theorem behind (h : r.Tight true) (ts : List Token) :
    ((Reading.trivia ts).join r).Tight filled := by
  have hleaves : Tree.leavesOfAll ((Reading.trivia ts).join r).trees =
      pendingTrivia ts ++ Tree.leavesOfAll r.trees := by
    show Tree.leavesOfAll ((Reading.trivia ts).trees ++ r.trees) = _
    rw [leavesOfAll_append, Reading.trivia, leavesOfAll_leaf]
  obtain ⟨last, hlast⟩ := Option.ne_none_iff_exists'.mp
    (mt List.getLast?_eq_none_iff.mp (h.nonempty rfl))
  refine ⟨fun t ht => ?_, fun t ht => ?_, fun _ hnil => ?_⟩
  · rcases List.mem_append.mp ht with ht | ht
    · obtain ⟨token, -, rfl⟩ := List.mem_map.mp ht
      exact .leaf
    · exact h.trees t ht
  · rw [hleaves, List.getLast?_append, hlast] at ht
    exact h.last t (hlast.trans ht)
  · rw [hleaves, List.append_eq_nil_iff] at hnil
    exact h.nonempty rfl hnil.2

/-- A node that takes a proper token is tight. -/
theorem wrap (h : r.Tight true) (kind : NodeKind) : (r.wrap kind).Tight true := by
  obtain ⟨last, hlast⟩ := Option.ne_none_iff_exists'.mp
    (mt List.getLast?_eq_none_iff.mp (h.nonempty rfl))
  refine ⟨fun t ht => ?_, ?_, ?_⟩
  · obtain rfl := List.mem_singleton.mp ht
    exact .node hlast (h.last last hlast) h.trees
  · rw [leavesOfAll_wrap]
    exact h.last
  · rw [leavesOfAll_wrap]
    exact h.nonempty

/-- Where a token is left, it is the last one that is taken. -/
theorem take {ts : List Token} (h : sight ts ≠ .ending) : (Reading.take ts).Tight true := by
  obtain ⟨t, hahead⟩ := exists_ahead h
  have hleaves : Tree.leavesOfAll (Reading.take ts).trees = pendingTrivia ts ++ [t] := by
    rw [(take_ahead hahead).1, leavesOfAll_leaf]
  refine ⟨fun u hu => ?_, fun u hu => ?_, fun _ hnil => ?_⟩
  · obtain ⟨token, -, rfl⟩ := List.mem_map.mp hu
    exact .leaf
  · rw [hleaves, List.getLast?_concat] at hu
    obtain rfl := Option.some.inj hu
    rw [ahead?_zero_eq] at hahead
    exact isTrivia_of_afterTrivia (List.eq_cons_of_mem_head? hahead)
  · rw [hleaves] at hnil
    exact List.append_ne_nil_of_right_ne_nil _ (List.cons_ne_nil _ _) hnil

end Reading.Tight

/-- Read at such a view, does the rule complain or else take nothing where no token is left, and
does every node that it makes take a token?  Where the rule has to be `filled`, it takes one
itself. -/
def Rule.tight : Rule → Bool → View → Bool
  | nothing, filled, _ => !filled
  | take, _, v => !v.next.contains .ending
  | trivia, _, _ => false
  | seq first second, filled, v =>
    complains first || complains second ||
      tight first filled v && tight second false (first.leave v) ||
      tight first false v && tight second filled (first.leave v)
  | ifThen test yes no, filled, v =>
    tight yes filled (v.given test true) && tight no filled (v.given test false)
  | whileDo test body, filled, _ => !filled && tight body false (View.anything.given test true)
  | node _ body, _, v => tight body true v
  | headed lead keywords otherwise body, _, v =>
    tight lead otherwise.isNone v &&
      (keywords.all fun k => tight (body k.2) true ⟨Sight.words, Sight.all⟩) &&
      otherwise.all fun kind => complains (body kind) || tight (body kind) true .anything
  | _, _, _ => true

theorem rules_tight (block : Nonterminal) : (rules block).tight true .anything = true := by
  cases block <;> decide +kernel

/-- All of a text but the trivia behind its last member. -/
theorem members_tight :
    (globalJavadoc ++ Rule.whileDo (.negation (.ends 0)) member).tight false .anything = true := by
  decide +kernel

/-- **Whatever a rule reads without complaint is tight**, if the rule is. -/
theorem Reads.tight {rule : Rule} {ts : List Token} {r : Reading} (h : Reads rule ts r) :
    ∀ {filled : Bool} {v : View}, v.Covers ts → rule.tight filled v = true → r.complaints = [] →
      r.Tight filled := by
  induction h with
  | nothing =>
      intro filled v _ hcheck _
      obtain rfl : filled = false := by simpa [Rule.tight] using hcheck
      exact .of_nil rfl
  | take =>
      intro filled v hv hcheck _
      have hending : .ending ∉ v.next := by simpa [Rule.tight] using hcheck
      exact (Reading.Tight.take fun hsight => hending (hsight ▸ hv.1)).anyway
  | trivia => exact fun _ hcheck => nomatch hcheck
  | missing => exact fun _ _ hnone => absurd hnone (List.cons_ne_nil _ _)
  | seq hfirst hsecond ihfirst ihsecond =>
      intro filled v hv hcheck hnone
      have hwhole := (hfirst.seq hsecond).complains
      obtain ⟨hleft, hright⟩ := List.append_eq_nil_iff.mp hnone
      simp only [Rule.tight, Bool.or_eq_true, Bool.and_eq_true] at hcheck
      rcases hcheck with (hcomplains | ⟨hcheck, hcheck'⟩) | ⟨hcheck, hcheck'⟩
      · exact absurd hnone (hwhole (Bool.or_eq_true_iff.mpr hcomplains))
      · have hjoin := (ihfirst hv hcheck hleft).join (ihsecond (hfirst.leave hv) hcheck' hright)
        rwa [Bool.or_false] at hjoin
      · exact (ihfirst hv hcheck hleft).join (ihsecond (hfirst.leave hv) hcheck' hright)
  | yes htest _ ih =>
      intro filled v hv hcheck
      exact ih (hv.given htest) (Bool.and_eq_true_iff.mp hcheck).1
  | no htest _ ih =>
      intro filled v hv hcheck
      exact ih (hv.given htest) (Bool.and_eq_true_iff.mp hcheck).2
  | done =>
      intro filled v _ hcheck _
      obtain ⟨hfilled, -⟩ := Bool.and_eq_true_iff.mp hcheck
      obtain rfl : filled = false := by simpa using hfilled
      exact .of_nil rfl
  | again htest _ _ ihbody ihloop =>
      intro filled v _ hcheck hnone
      obtain ⟨hround, hloop⟩ := List.append_eq_nil_iff.mp hnone
      obtain ⟨hfilled, hbody⟩ := Bool.and_eq_true_iff.mp hcheck
      obtain rfl : filled = false := by simpa using hfilled
      exact (ihbody ((View.covers_anything _).given htest) hbody hround).join
        (@ihloop false .anything (View.covers_anything _) hcheck hloop)
  | @node kind body ts r _ ih =>
      intro filled v hv hcheck hnone
      have hinner := (View.covers_congr (proper_afterTrivia ts)).mpr hv
      exact ((ih hinner hcheck hnone).wrap kind).behind ts
  | @bare lead keywords otherwise body ts r _ hkind ih =>
      intro filled v hv hcheck hnone
      simp only [Rule.tight, Bool.and_eq_true] at hcheck
      obtain rfl : otherwise = none := otherwise_of_headKind hkind
      exact (ih ((View.covers_congr (proper_afterTrivia ts)).mpr hv) hcheck.1.1 hnone).behind ts
  | @headed lead keywords otherwise body ts r kind s _ hkind hbody ihlead ihbody =>
      intro filled v hv hcheck hnone
      have hnone : r.complaints ++ s.complaints = [] := hnone
      obtain ⟨hnonelead, hnonebody⟩ := List.append_eq_nil_iff.mp hnone
      simp only [Rule.tight, Bool.and_eq_true, List.all_eq_true, Option.all_eq_true,
        Bool.or_eq_true] at hcheck
      obtain ⟨⟨hcheck, hkeywords⟩, hotherwise⟩ := hcheck
      have hlead := ihlead ((View.covers_congr (proper_afterTrivia ts)).mpr hv) hcheck hnonelead
      have hrest : s.Tight true := by
        rcases headKind_cases hkind with ⟨word, hmem, hword⟩ | rfl
        · exact ihbody ⟨hword, Sight.mem_all _⟩ (hkeywords _ hmem) hnonebody
        · rcases hotherwise kind rfl with hcomplains | hcheck'
          · exact absurd hnonebody (hbody.complains hcomplains)
          · exact ihbody (View.covers_anything _) hcheck' hnonebody
      have hwhole := hlead.join hrest
      rw [Bool.or_true] at hwhole
      exact (hwhole.wrap kind).behind ts
  | call _ ih =>
      intro filled v _ _ hnone
      exact (ih (View.covers_anything _) (rules_tight _) hnone).anyway

/-- **In a text without complaints no node is empty or ends with trivia**, but for the whole
text. -/
theorem tight_parse {source : String} (hnone : (parse source).complaints = []) {t : Tree}
    (h : t.Inside (parse source).tree) : t.Tight := by
  obtain ⟨child, hchild, hpart⟩ := h
  refine Tree.Tight.part hpart ?_
  have hreads := reads_readSource (scan source)
  have hcomplaints : (readSource (scan source)).complaints = [] := hnone
  replace hchild : child ∈ (readSource (scan source)).trees := hchild
  generalize readSource (scan source) = r at hreads hcomplaints hchild
  cases hreads with
  | seq hmembers htrivia =>
  obtain ⟨hmembersNone, -⟩ := List.append_eq_nil_iff.mp hcomplaints
  rcases List.mem_append.mp hchild with hchild | hchild
  · exact (hmembers.tight (View.covers_anything _) members_tight hmembersNone).trees child hchild
  · -- The trivia at the end of the text is no part of any node.
    cases htrivia
    obtain ⟨token, -, rfl⟩ := List.mem_map.mp hchild
    exact .leaf

end Grammar

end DomainModel
