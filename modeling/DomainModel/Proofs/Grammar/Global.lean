/-
To whom the first doc comment belongs.

A doc comment in front of a text can be about the whole text or about what follows it.  The
grammar tells the two apart by the line feeds behind the comment: with two of them a whole line
lies between the comment and the next token, and then the comment is set off.  Where nothing but
white space lies there, such a line is blank, and a blank line always sets the comment off.  But
a comment on a line of its own sets it off as well, and so does one that runs over three lines
(`set_off_by_comment`).

A comment that is not set off is read by the rule of declarations.  `Leading` says where it goes:
into the declaration whose keyword follows, behind annotations perhaps, and else it stays where
it is.  Both come from taking the reading of a whole text apart, rule by rule.
-/
import DomainModel.Proofs.Grammar.Shape
import DomainModel.Proofs.Grammar.Accepts
import DomainModel.Proofs.Text.Lines
import DomainModel.Tree.View

namespace DomainModel

namespace Grammar

/-! ### The comment and what is behind it -/

/-- The tokens behind the first proper one. -/
def behindFirst (ts : List Token) : List Token := (afterTrivia ts).drop 1

/-- The text between the first two proper tokens. -/
def gapText (ts : List Token) : List Char := charsOf (pendingTrivia (behindFirst ts))

/-- The first proper token is the last one, or a whole line follows it. -/
def SetOff (ts : List Token) : Prop :=
  ahead? (behindFirst ts) 0 = none ∨ ∃ line, Text.WholeLine (gapText ts) line

/-- The tree of a doc comment that is not set off, with the tokens `behind` it. -/
inductive Leading (t : Token) (behind : List Token) : Tree → Prop
  /-- The doc comment of a declaration, whose keyword stands behind annotations, if any. -/
  | declared {r : Reading} {tree : Tree} {kind : NodeKind} (hbetween : Reads annotations behind r)
      (hkeyword : headKind declarationKeywords none r.rest = some kind)
      (hkind : tree.kind? = some kind) (hdoc : tree.javadoc? = some t) : Leading t behind tree
  /-- The doc comment of annotations that no declaration follows. -/
  | annotated {r : Reading} {tree : Tree} (hsign : (Test.next .atSign).holds behind = true)
      (hbetween : Reads annotations behind r)
      (hkeyword : headKind declarationKeywords none r.rest = none)
      (hkind : tree.kind? = some .junk) (hdoc : tree.javadoc? = some t) : Leading t behind tree
  /-- A comment that stays on its own, in front of what takes none. -/
  | alone (hsign : (Test.next .atSign).holds behind = false)
      (hkeyword : headKind declarationKeywords none behind = none) : Leading t behind (.leaf t)

section
variable {ts : List Token} {t : Token} (ht : ahead? ts 0 = some t)
include ht

theorem afterTrivia_eq : afterTrivia ts = t :: behindFirst ts := by
  rw [ahead?_eq, ← proper_afterTrivia] at ht
  unfold behindFirst
  cases hafter : afterTrivia ts with
  | nil =>
      rw [hafter] at ht
      cases ht
  | cons u us =>
      have hu : u.isTrivia = false := isTrivia_of_afterTrivia hafter
      rw [hafter, proper, List.filter_cons_of_pos (by simp [hu])] at ht
      rw [Option.some.inj ht]
      rfl

theorem ahead?_behindFirst (n : Nat) : ahead? ts (n + 1) = ahead? (behindFirst ts) n := by
  have hproper : t.isTrivia = false := isTrivia_of_afterTrivia (afterTrivia_eq ht)
  rw [ahead?_eq, ← proper_afterTrivia, ← ahead?_eq, afterTrivia_eq ht, ahead?_succ hproper]

theorem take_afterTrivia {r : Reading} (h : Reads .take (afterTrivia ts) r) :
    r = ⟨[.leaf t], [], behindFirst ts⟩ := by
  rw [afterTrivia_eq ht] at h
  exact h.unique (Accepts.take (isTrivia_of_afterTrivia (afterTrivia_eq ht)))

end

theorem Reads.ifThen_iff {test : Test} {yes no : Rule} {ts : List Token} {r : Reading} :
    Reads (.ifThen test yes no) ts r ↔
      if test.holds ts = true then Reads yes ts r else Reads no ts r := by
  constructor
  · rintro (_ | _ | _ | _ | _ | ⟨htest, hyes⟩ | ⟨htest, hno⟩)
    · rwa [if_pos htest]
    · rwa [if_neg (by simp [htest])]
  · intro h
    by_cases htest : test.holds ts = true
    · rw [if_pos htest] at h
      exact .yes htest h
    · rw [if_neg htest] at h
      exact .no (by simpa using htest) h

/-- Members hold no doc comment of the whole text. -/
theorem members_yield : NodeKind.globalJavadoc ∉
    (Rule.whileDo (.negation (.ends 0)) member ++ Rule.trivia).yields := by
  decide +kernel

theorem filter_isNode {kind : NodeKind} {ts : List Tree} (h : kind ∉ kindsOf ts) :
    ts.filter (Tree.isNode kind) = [] := by
  rw [List.filter_eq_nil_iff]
  intro t ht hkind
  exact h (List.mem_filterMap.mpr ⟨t, ht, by simpa [Tree.isNode] using hkind⟩)

/-- Another kind for what has no keyword changes nothing for what has one. -/
theorem headKind_otherwise (keywords : List (String × NodeKind)) (otherwise : Option NodeKind)
    (ts : List Token) :
    headKind keywords otherwise ts = (headKind keywords none ts <|> otherwise) := by
  unfold headKind
  split <;> rfl

theorem javadoc?_node {t : Token} (hdoc : t.kind = .javadoc) (kind : NodeKind) (ts : List Tree) :
    (Tree.node kind (.leaf t :: ts)).javadoc? = some t := by
  show (t :: ts.filterMap Tree.token?).find? (·.kind == .javadoc) = some t
  rw [List.find?_cons_of_pos (by simp [hdoc])]

section
variable {ts : List Token} {t : Token} (ht : ahead? ts 0 = some t) (hdoc : t.kind = .javadoc)
include ht hdoc

theorem Reads.of_preamble {r : Reading} (h : Reads preamble (afterTrivia ts) r) :
    ∃ s, Reads annotations (behindFirst ts) s ∧ r = ⟨.leaf t :: s.trees, s.complaints, s.rest⟩ := by
  have hproper : t.isTrivia = false := isTrivia_of_afterTrivia (afterTrivia_eq ht)
  rw [afterTrivia_eq ht] at h
  cases h with
  | seq hfirst hsecond =>
      obtain rfl := hfirst.unique (Accepts.accept hproper hdoc)
      exact ⟨_, hsecond, rfl⟩

/-- A member that begins with a doc comment is read as a declaration. -/
theorem Reads.declaration_of_member {r : Reading} (h : Reads member ts r) :
    Reads declaration ts r := by
  have hword : ∀ w, t.isWord w = false := fun w => by rw [Token.isWord, hdoc]; rfl
  unfold member at h
  simpa [Reads.ifThen_iff, Test.holds, Test.next, Test.second, Test.nextWord, opens, ht, hdoc,
    hword] using h

theorem Reads.leading {r : Reading} (h : Reads declaration ts r) :
    ∃ tree more, r.trees = (pendingTrivia ts).map .leaf ++ tree :: more ∧
      Leading t (behindFirst ts) tree := by
  have hjavadoc : (Test.kind 0 [.javadoc, .atSign]).holds ts = true := by
    simp [Test.holds, ht, hdoc]
  have hnext : (Test.next .javadoc).holds ts = true := by simp [Test.next, Test.holds, ht, hdoc]
  have hsecond : (Test.second .atSign).holds ts = (Test.next .atSign).holds (behindFirst ts) := by
    rw [Test.second, Test.next, Test.holds, Test.holds, ahead?_behindFirst ht]
  rw [declaration, Reads.ifThen_iff, Test.holds, Test.holds, hnext, hsecond, Reads.ifThen_iff,
    hjavadoc] at h
  by_cases hsign : (Test.next .atSign).holds (behindFirst ts) = true
  · rw [hsign, if_neg (by simp), if_pos rfl] at h
    cases h with
    | bare hlead hkind => cases otherwise_of_headKind hkind
    | headed hlead hkind hbody =>
        obtain ⟨r, hbetween, rfl⟩ := hlead.of_preamble ht hdoc
        refine ⟨_, _, rfl, ?_⟩
        cases hkeyword : headKind declarationKeywords none r.rest with
        | none =>
            rw [headKind_otherwise, hkeyword] at hkind
            exact .annotated hsign hbetween hkeyword hkind.symm (javadoc?_node hdoc ..)
        | some kind =>
            rw [headKind_otherwise, hkeyword] at hkind
            exact .declared hbetween hkeyword hkind.symm (javadoc?_node hdoc ..)
  · have hnone : Reads annotations (behindFirst ts) (.stop (behindFirst ts)) :=
      .done (by simpa using hsign)
    rw [if_pos (by simpa using hsign)] at h
    cases h with
    | bare hlead hkind =>
        obtain rfl := take_afterTrivia ht hlead
        exact ⟨_, _, rfl, .alone (by simpa using hsign) hkind⟩
    | headed hlead hkind hbody =>
        obtain rfl := take_afterTrivia ht hlead
        exact ⟨_, _, rfl, .declared hnone hkind rfl (javadoc?_node hdoc ..)⟩

theorem holds_setOff_iff :
    (Test.both (.next .javadoc) (.either (.breaksBehind 2) (.ends 1))).holds ts = true ↔
      SetOff ts := by
  have hbreaks : (Test.breaksBehind 2).holds ts = true ↔ 2 ≤ (gapText ts).count '\n' := by
    rw [Test.holds, decide_eq_true_iff]
    rfl
  have hends : (Test.ends 1).holds ts = true ↔ ahead? (behindFirst ts) 0 = none := by
    rw [Test.holds, ahead?_behindFirst ht, Option.isNone_iff_eq_none]
  have hboth : (Test.both (.next .javadoc) (.either (.breaksBehind 2) (.ends 1))).holds ts =
      ((Test.breaksBehind 2).holds ts || (Test.ends 1).holds ts) := by
    simp [Test.holds, Test.next, ht, hdoc]
  rw [SetOff, Text.exists_wholeLine_iff, ← hbreaks, ← hends, hboth, Bool.or_eq_true, or_comm]

/-- A comment that is set off is read as that of the whole text. -/
theorem Reads.global_of_setOff {r : Reading} (h : Reads source ts r) (hoff : SetOff ts) :
    ∃ more, r.trees = (pendingTrivia ts).map .leaf ++ .node .globalJavadoc [.leaf t] :: more ∧
      NodeKind.globalJavadoc ∉ kindsOf more := by
  cases h with
  | seq hfirst htrivia =>
  cases hfirst with
  | seq hglobal hloop =>
      rw [globalJavadoc, Reads.ifThen_iff, if_pos ((holds_setOff_iff ht hdoc).mpr hoff)] at hglobal
      cases hglobal with
      | node htake =>
          obtain rfl := take_afterTrivia ht htake
          refine ⟨_, ?_, fun hmem => members_yield ((hloop.seq htrivia).kinds _ hmem)⟩
          simp [Reading.join, Reading.wrap, Reading.trivia]

/-- A comment that is not set off is read with what follows it. -/
theorem Reads.leading_of_not_setOff {r : Reading} (h : Reads source ts r) (hoff : ¬ SetOff ts) :
    NodeKind.globalJavadoc ∉ kindsOf r.trees ∧
      ∃ tree more, r.trees = (pendingTrivia ts).map .leaf ++ tree :: more ∧
        Leading t (behindFirst ts) tree := by
  cases h with
  | seq hfirst htrivia =>
  cases hfirst with
  | seq hglobal hloop =>
      rw [globalJavadoc, Reads.ifThen_iff, if_neg fun h => hoff ((holds_setOff_iff ht hdoc).mp h)]
        at hglobal
      cases hglobal
      refine ⟨fun hmem => members_yield ((hloop.seq htrivia).kinds _ hmem), ?_⟩
      cases hloop with
      | done hends => simp [Test.holds, Reading.stop, ht] at hends
      | again _ hmember hloop =>
          obtain ⟨tree, more, htrees, hleading⟩ :=
            (hmember.declaration_of_member ht hdoc).leading ht hdoc
          simp only [Reading.join, Reading.stop, htrees, List.nil_append, List.append_assoc,
            List.cons_append]
          exact ⟨tree, _, rfl, hleading⟩

end

end Grammar

/-- White space is blank. -/
theorem Lexer.isBlank_of_isSpace {c : Char} (h : isSpace c = true) : Text.isBlank c = true := by
  simp only [isSpace, Bool.or_eq_true, beq_iff_eq] at h
  rcases h with ((rfl | rfl) | rfl) | rfl <;> decide

open Grammar

section
variable {source : String} {t : Token} (ht : ahead? (scan source) 0 = some t)
  (hdoc : t.kind = .javadoc)
include ht hdoc

/-- **To whom the first doc comment belongs.**  It is the only one of the whole text if no token
follows it or a whole line lies between it and the next one; a blank line is such a line, and
where nothing but white space lies there, each such line is blank.  A comment that is not set off
like this leads what follows. -/
theorem first_comment :
    ((parse source).tree.childrenOf .globalJavadoc = [.node .globalJavadoc [.leaf t]] ↔
      SetOff (scan source)) ∧
    ((∃ line, Text.WholeLine (gapText (scan source)) line ∧ ∀ c ∈ line, Text.isBlank c = true) →
      SetOff (scan source)) ∧
    ((∀ g ∈ pendingTrivia (behindFirst (scan source)), g.kind = .whitespace) →
      ∀ line, Text.WholeLine (gapText (scan source)) line → ∀ c ∈ line, Text.isBlank c = true) ∧
    (¬ SetOff (scan source) → (parse source).tree.childrenOf .globalJavadoc = [] ∧
      ∃ tree more, (parse source).tree.children =
          (pendingTrivia (scan source)).map .leaf ++ tree :: more ∧
        Leading t (behindFirst (scan source)) tree) := by
  have hreads := reads_readSource (scan source)
  refine ⟨⟨fun h => ?_, fun hoff => ?_⟩, fun ⟨line, hline, _⟩ => .inr ⟨line, hline⟩,
    fun hwhite line hline c hc => ?_, fun hoff => ?_⟩
  · by_contra hoff
    have hnone := (hreads.leading_of_not_setOff ht hdoc hoff).1
    exact absurd (h.symm.trans (filter_isNode hnone)) (List.cons_ne_nil _ _)
  · obtain ⟨more, htrees, hmore⟩ := hreads.global_of_setOff ht hdoc hoff
    show (readSource (scan source)).trees.filter _ = _
    rw [htrees, List.filter_append, filter_isNode (by simp [kindsOf_leaf]),
      List.filter_cons_of_pos rfl, filter_isNode hmore, List.nil_append]
  · obtain ⟨front, back, hgap, -⟩ := hline
    have hmem : c ∈ gapText (scan source) := by simp [hgap, hc]
    obtain ⟨g, hg, hcg⟩ := List.mem_flatMap.mp hmem
    have hscan : g ∈ scan source :=
      (List.dropWhile_sublist _).subset
        ((List.drop_sublist _ _).subset ((List.takeWhile_sublist _).subset hg))
    exact Lexer.isBlank_of_isSpace (scan_whitespace hscan (hwhite g hg) c hcg)
  · obtain ⟨hnone, hleading⟩ := hreads.leading_of_not_setOff ht hdoc hoff
    exact ⟨filter_isNode hnone, hleading⟩

end

/-- A comment right in front of an entity is not set off. -/
theorem first_comment_entity :
    let source := "/** d */\nentity A {}"
    let t : Token := ⟨.javadoc, "/** d */", 0⟩
    ahead? (scan source) 0 = some t ∧ t.kind = .javadoc ∧
      (parse source).tree.childrenOf .globalJavadoc = [] := by
  intro source t
  have ht : ahead? (scan source) 0 = some t := by decide +kernel
  have hoff : ¬ SetOff (scan source) := by
    rw [SetOff, Text.exists_wholeLine_iff]
    decide +kernel
  exact ⟨ht, rfl, ((first_comment ht rfl).2.2.2 hoff).1⟩

/-- Another comment can set the first one off without a blank line. -/
theorem set_off_by_comment : ¬ ∀ source t, ahead? (scan source) 0 = some t → t.kind = .javadoc →
    ((parse source).tree.childrenOf .globalJavadoc = [.node .globalJavadoc [.leaf t]] ↔
      ahead? (scan source) 1 = none ∨
        ∃ line, Text.WholeLine (gapText (scan source)) line ∧ ∀ c ∈ line, Text.isBlank c = true) := by
  intro h
  let source := "/** d */ /* see\nbelow */\nentity A {}"
  let t : Token := ⟨.javadoc, "/** d */", 0⟩
  have ht : ahead? (scan source) 0 = some t := by decide +kernel
  have hglobal : (parse source).tree.childrenOf .globalJavadoc =
      [.node .globalJavadoc [.leaf t]] := by
    refine (first_comment ht rfl).1.mpr ?_
    rw [SetOff, Text.exists_wholeLine_iff]
    decide +kernel
  rcases (h source t ht rfl).mp hglobal with hnone | ⟨line, hline, hblank⟩
  · exact absurd hnone (by decide +kernel)
  · have hsplit := hline.mem_splitOn
    rw [show ((Text.splitOn '\n' (gapText (scan source))).drop 1).dropLast = ["below */".toList] by
      decide +kernel, List.mem_singleton] at hsplit
    subst hsplit
    exact absurd (hblank 'b' (by decide)) (by decide)

end DomainModel
