/-
Between two rounds of a loop a token is taken.

A `Runs` is a reading with what happens on the way: a round of a loop begins, a nonterminal
is entered, a block of fields is opened inside a field.  Every such event notes how many
proper tokens are left at that time, so that a token was taken between two events exactly if
fewer are left at the second one.

Which events may follow an event of the same sort is again decided on the grammar.
`Rule.leaves` lists the sights at which a rule may stop with nothing taken since such an
event, and `Rule.spaced` asks that no event of the sort comes up while one of these sights is
pending.  A nonterminal that is entered meanwhile is looked into, but only once: before it
enters another one it has taken a token.
-/
import DomainModel.Proofs.Grammar.Progress
import DomainModel.Proofs.Grammar.Spacing

namespace DomainModel.Grammar

deriving instance DecidableEq for Test

/-! ### Readings with their events -/

/-- What comes up again and again while a text is read. -/
inductive Point where
  /-- A loop begins a round. -/
  | round (test : Test)
  /-- A nonterminal is entered. -/
  | entry (block : Nonterminal)
  /-- A block of fields is opened inside a field. -/
  | nesting
  deriving DecidableEq

/-- An event: what comes up, and how many proper tokens are left then. -/
structure Event where
  point : Point
  left : Nat

/-- The event of a point in front of some tokens. -/
def Point.before (point : Point) (ts : List Token) : Event := ⟨point, (proper ts).length⟩

/-- The points at which a node opens. -/
def opening (kind : NodeKind) : List Point := if kind = .nestedField then [.nesting] else []

/-- Reading the rule turns the tokens into this, with these events in order. -/
inductive Runs : Rule → List Token → Reading → List Event → Prop
  | nothing {ts} : Runs .nothing ts (.stop ts) []
  | take {ts} : Runs .take ts (.take ts) []
  | trivia {ts} : Runs .trivia ts (.trivia ts) []
  | missing {what ts} : Runs (.missing what) ts ⟨[], [⟨what, ahead? ts 0⟩], ts⟩ []
  | seq {first second ts r s es fs} (hfirst : Runs first ts r es)
      (hsecond : Runs second r.rest s fs) : Runs (.seq first second) ts (r.join s) (es ++ fs)
  | yes {test yes no ts r es} (htest : test.holds ts = true) (hyes : Runs yes ts r es) :
      Runs (.ifThen test yes no) ts r es
  | no {test yes no ts r es} (htest : test.holds ts = false) (hno : Runs no ts r es) :
      Runs (.ifThen test yes no) ts r es
  | done {test body ts} (htest : test.holds ts = false) :
      Runs (.whileDo test body) ts (.stop ts) []
  | again {test body ts r s es fs} (htest : test.holds ts = true) (hbody : Runs body ts r es)
      (hloop : Runs (.whileDo test body) r.rest s fs) :
      Runs (.whileDo test body) ts (r.join s) (Point.before (.round test) ts :: es ++ fs)
  | node {kind body ts r es} (hbody : Runs body (afterTrivia ts) r es) :
      Runs (.node kind body) ts ((Reading.trivia ts).join (r.wrap kind))
        ((opening kind).map (Point.before · ts) ++ es)
  | bare {lead keywords otherwise body ts r es} (hlead : Runs lead (afterTrivia ts) r es)
      (hkind : headKind keywords otherwise r.rest = none) :
      Runs (.headed lead keywords otherwise body) ts ((Reading.trivia ts).join r) es
  | headed {lead keywords otherwise body ts r kind s es fs}
      (hlead : Runs lead (afterTrivia ts) r es)
      (hkind : headKind keywords otherwise r.rest = some kind)
      (hbody : Runs (body kind) r.rest s fs) :
      Runs (.headed lead keywords otherwise body) ts
        ((Reading.trivia ts).join ((r.join s).wrap kind)) (es ++ fs)
  | call {block ts r es} (hrule : Runs (rules block) ts r es) :
      Runs (.call block) ts r (Point.before (.entry block) ts :: es)

theorem Runs.reads {rule : Rule} {ts : List Token} {r : Reading} {es : List Event}
    (h : Runs rule ts r es) : Reads rule ts r := by
  induction h with
  | nothing => exact .nothing
  | take => exact .take
  | trivia => exact .trivia
  | missing => exact .missing
  | seq _ _ ihfirst ihsecond => exact .seq ihfirst ihsecond
  | yes htest _ ih => exact .yes htest ih
  | no htest _ ih => exact .no htest ih
  | done htest => exact .done htest
  | again htest _ _ ihbody ihloop => exact .again htest ihbody ihloop
  | node _ ih => exact .node ih
  | bare _ hkind ih => exact .bare ih hkind
  | headed _ hkind _ ihlead ihbody => exact .headed ihlead hkind ihbody
  | call _ ih => exact .call ih

/-- Whatever is read has its events. -/
theorem Reads.runs {rule : Rule} {ts : List Token} {r : Reading} (h : Reads rule ts r) :
    ∃ es, Runs rule ts r es := by
  induction h with
  | nothing => exact ⟨_, .nothing⟩
  | take => exact ⟨_, .take⟩
  | trivia => exact ⟨_, .trivia⟩
  | missing => exact ⟨_, .missing⟩
  | seq _ _ ihfirst ihsecond =>
      obtain ⟨es, hes⟩ := ihfirst
      obtain ⟨fs, hfs⟩ := ihsecond
      exact ⟨_, .seq hes hfs⟩
  | yes htest _ ih =>
      obtain ⟨es, hes⟩ := ih
      exact ⟨_, .yes htest hes⟩
  | no htest _ ih =>
      obtain ⟨es, hes⟩ := ih
      exact ⟨_, .no htest hes⟩
  | done htest => exact ⟨_, .done htest⟩
  | again htest _ _ ihbody ihloop =>
      obtain ⟨es, hes⟩ := ihbody
      obtain ⟨fs, hfs⟩ := ihloop
      exact ⟨_, .again htest hes hfs⟩
  | node _ ih =>
      obtain ⟨es, hes⟩ := ih
      exact ⟨_, .node hes⟩
  | bare _ hkind ih =>
      obtain ⟨es, hes⟩ := ih
      exact ⟨_, .bare hes hkind⟩
  | headed _ hkind _ ihlead ihbody =>
      obtain ⟨es, hes⟩ := ihlead
      obtain ⟨fs, hfs⟩ := ihbody
      exact ⟨_, .headed hes hkind hfs⟩
  | call _ ih =>
      obtain ⟨es, hes⟩ := ih
      exact ⟨_, .call hes⟩

/-! ### What may be pending -/

/-- The sights at which a nonterminal may stop with nothing taken since an event at the point:
those at which a nonterminal is entered in vain, and the end of the text. -/
def Point.behind : Point → List Sight
  | .entry block => Sight.all.filter (!block.starts.contains ·)
  | .nesting => [.ending]
  | .round _ => []

namespace Rule

/-- The sights at which the rule may stop with nothing taken since an event at the point. -/
def leaves (point : Point) : Rule → List Sight
  | seq first second => owes second (leaves point first) ++ leaves point second
  | ifThen _ yes no => leaves point yes ++ leaves point no
  | whileDo test body => (leaves point body).filter (test.may false)
  | node kind body =>
    (if point ∈ opening kind then owes body Sight.all else []) ++ leaves point body
  | headed lead keywords otherwise body =>
    (if otherwise.isNone then leaves point lead else []) ++
      (headKinds keywords otherwise).flatMap fun kind =>
        owes (body kind) (leaves point lead) ++ leaves point (body kind)
  | call _ => point.behind
  | _ => []

/-- Is a token taken in front of the first event at the point, when the rule is read at one of
the sights?  Of nonterminals `inside` has to know. -/
def delaysWith (point : Point) (inside : Nonterminal → List Sight → Bool) :
    Rule → List Sight → Bool
  | seq first second, seen => delaysWith point inside first seen &&
    delaysWith point inside second (owes first seen)
  | ifThen test yes no, seen => delaysWith point inside yes (seen.filter (test.may true)) &&
    delaysWith point inside no (seen.filter (test.may false))
  | whileDo test body, seen =>
    if point = .round test then (seen.filter (test.may true)).isEmpty
    else delaysWith point inside body (seen.filter (test.may true))
  | node kind body, seen =>
    if point ∈ opening kind then seen.isEmpty else delaysWith point inside body seen
  | headed lead keywords otherwise body, seen => delaysWith point inside lead seen &&
    (headKinds keywords otherwise).all fun kind =>
      delaysWith point inside (body kind) (owes lead seen)
  | call block, seen => seen.isEmpty || (point != .entry block && inside block seen)
  | _, _ => true

/-- Is a token taken in front of the first event at the point?  A nonterminal takes one before
it enters another. -/
def delays (point : Point) : Rule → List Sight → Bool :=
  delaysWith point fun block => (rules block).delaysWith point fun _ _ => false

/-- Is a token taken between any two events at the point? -/
def spaced (point : Point) : Rule → Bool
  | seq first second =>
    spaced point first && spaced point second && second.delays point (first.leaves point)
  | ifThen _ yes no => spaced point yes && spaced point no
  | whileDo test body => spaced point body &&
    (whileDo test body).delays point (body.leaves point) &&
    (point != .round test || body.delays point (Sight.all.filter (test.may true)))
  | node kind body => spaced point body &&
    (point ∉ opening kind || body.delays point Sight.all)
  | headed lead keywords otherwise body => spaced point lead &&
    (headKinds keywords otherwise).all fun kind =>
      spaced point (body kind) && (body kind).delays point (lead.leaves point)
  | _ => true

/-- Does every loop take a token in a round before it begins one inside? -/
def steady : Rule → Bool
  | seq first second => steady first && steady second
  | ifThen _ yes no => steady yes && steady no
  | whileDo test body =>
    steady body && body.delays (.round test) (Sight.all.filter (test.may true))
  | node _ body => steady body
  | headed lead keywords otherwise body =>
    steady lead && (headKinds keywords otherwise).all fun kind => steady (body kind)
  | _ => true

end Rule

/-- Is a token taken between any two events at the point in a nonterminal? -/
def Point.paces (point : Point) (block : Nonterminal) : Bool :=
  (rules block).spaced point && ((rules block).leaves point).all point.behind.contains &&
    (point != .entry block || (rules block).delays point Sight.all &&
      ((rules block).owes Sight.all).all point.behind.contains)

/-! ### The checks -/

namespace Rule

theorem owes_nil (rule : Rule) : rule.owes [] = [] := by
  induction rule with
  | nothing | take | trivia | missing | whileDo | call => rfl
  | seq first second ihfirst ihsecond => rw [owes, ihfirst, ihsecond]
  | ifThen test yes no ihyes ihno =>
      show yes.owes [] ++ no.owes [] = []
      rw [ihyes, ihno, List.append_nil]
  | node kind body ih => exact ih
  | headed lead keywords otherwise body ihlead ihbody => simp [owes, ihlead, ihbody]

theorem delaysWith_nil (point : Point) (inside : Nonterminal → List Sight → Bool) (rule : Rule) :
    rule.delaysWith point inside [] = true := by
  induction rule with
  | nothing | take | trivia | missing | call => rfl
  | seq first second ihfirst ihsecond => simp [delaysWith, owes_nil, ihfirst, ihsecond]
  | ifThen test yes no ihyes ihno => simp [delaysWith, ihyes, ihno]
  | whileDo test body ih => simp [delaysWith, ih]
  | node kind body ih => simp [delaysWith, ih]
  | headed lead keywords otherwise body ihlead ihbody =>
      simp [delaysWith, owes_nil, ihlead, ihbody]

theorem not_opening_round (test : Test) (kind : NodeKind) : Point.round test ∉ opening kind := by
  rw [opening]
  split <;> simp

/-- Behind every round a token has been taken. -/
theorem leaves_round (test : Test) (rule : Rule) : rule.leaves (.round test) = [] := by
  induction rule with
  | nothing | take | trivia | missing | call => rfl
  | seq first second ihfirst ihsecond => simp [leaves, ihfirst, ihsecond, owes_nil]
  | ifThen test' yes no ihyes ihno => simp [leaves, ihyes, ihno]
  | whileDo test' body ih => simp [leaves, ih]
  | node kind body ih => simp [leaves, ih, not_opening_round test kind]
  | headed lead keywords otherwise body ihlead ihbody =>
      simp [leaves, ihlead, ihbody, owes_nil]

/-- So for rounds it is enough to look at the bodies of loops. -/
theorem spaced_round (test : Test) {rule : Rule} (h : rule.steady = true) :
    rule.spaced (.round test) = true := by
  induction rule with
  | nothing | take | trivia | missing | call => rfl
  | seq first second ihfirst ihsecond =>
      rw [steady, Bool.and_eq_true] at h
      simp [spaced, leaves_round, delays, delaysWith_nil, ihfirst h.1, ihsecond h.2]
  | ifThen test' yes no ihyes ihno =>
      rw [steady, Bool.and_eq_true] at h
      simp [spaced, ihyes h.1, ihno h.2]
  | whileDo test' body ih =>
      rw [steady, Bool.and_eq_true] at h
      simp only [spaced, leaves_round, delays, delaysWith_nil, ih h.1, Bool.true_and]
      by_cases heq : test = test'
      · subst heq
        exact (congrArg (_ || ·) h.2).trans (Bool.or_true _)
      · simp [heq]
  | node kind body ih => simp [spaced, not_opening_round test kind, ih h]
  | headed lead keywords otherwise body ihlead ihbody =>
      rw [steady, Bool.and_eq_true, List.all_eq_true] at h
      simp only [spaced, leaves_round, delays, delaysWith_nil, ihlead h.1, Bool.true_and,
        Bool.and_true, List.all_eq_true]
      exact fun kind hkind => ihbody kind (h.2 kind hkind)

end Rule

theorem source_steady : source.steady = true := by decide +kernel

theorem rules_steady (block : Nonterminal) : (rules block).steady = true := by
  cases block <;> decide +kernel

theorem source_spaced (point : Point) : source.spaced point = true := by
  cases point with
  | round test => exact Rule.spaced_round test source_steady
  | entry block => cases block <;> decide +kernel
  | nesting => decide +kernel

theorem rules_pace (point : Point) (block : Nonterminal) : point.paces block = true := by
  cases point with
  | round test =>
      simp [Point.paces, Rule.leaves_round, Rule.spaced_round test (rules_steady block)]
  | entry entered => cases entered <;> cases block <;> decide +kernel
  | nesting => cases block <;> decide +kernel

/-! ### Tokens are taken in between -/

/-- Events at the point come up only when fewer than so many tokens are left. -/
def Late (bound : Nat) (point : Point) (es : List Event) : Prop :=
  ∀ e ∈ es, e.point = point → e.left < bound

theorem Late.append {bound : Nat} {point : Point} {es fs : List Event} (h : Late bound point es)
    (h' : Late bound point fs) : Late bound point (es ++ fs) :=
  List.forall_mem_append.mpr ⟨h, h'⟩

theorem Late.cons {bound : Nat} {point other : Point} {ts : List Token} {es : List Event}
    (h : other = point → (proper ts).length < bound) (h' : Late bound point es) :
    Late bound point (Point.before other ts :: es) :=
  List.forall_mem_cons.mpr ⟨h, h'⟩

theorem Within.mono {bound : Nat} {seen seen' : List Sight} {ts : List Token}
    (h : Within bound seen ts) (hseen : seen ⊆ seen') : Within bound seen' ts :=
  h.imp_right fun h => ⟨h.1, hseen h.2⟩

/-- Where no sight is pending a token has been taken. -/
theorem Within.less {bound : Nat} {seen : List Sight} {ts : List Token} (h : Within bound seen ts)
    (hseen : seen = []) : (proper ts).length < bound := by
  rcases h with h | ⟨-, h⟩
  · exact h
  · rw [hseen] at h
    cases h

theorem within_all (ts : List Token) : Within (proper ts).length Sight.all ts :=
  .inr ⟨Nat.le_refl _, Sight.mem_all _⟩

theorem within_filter {test : Test} {ts : List Token} (h : test.holds ts = true) :
    Within (proper ts).length (Sight.all.filter (test.may true)) ts :=
  (within_all ts).filter h

section
variable {rule : Rule} {ts : List Token} {r : Reading} {es : List Event} {point : Point}

/-- Tokens only get fewer. -/
theorem Runs.left_le (h : Runs rule ts r es) : ∀ e ∈ es, e.left ≤ (proper ts).length := by
  induction h with
  | nothing | take | trivia | missing | done => exact fun _ he => nomatch he
  | seq hfirst _ ihfirst ihsecond =>
      have hle := hfirst.reads.proper_length_le
      exact List.forall_mem_append.mpr ⟨ihfirst, fun e he => Nat.le_trans (ihsecond e he) hle⟩
  | yes _ _ ih | no _ _ ih => exact ih
  | again _ hbody _ ihbody ihloop =>
      have hle := hbody.reads.proper_length_le
      refine List.forall_mem_append.mpr ⟨?_, fun e he => Nat.le_trans (ihloop e he) hle⟩
      exact List.forall_mem_cons.mpr ⟨Nat.le_refl _, ihbody⟩
  | node _ ih =>
      rw [proper_afterTrivia] at ih
      refine List.forall_mem_append.mpr ⟨?_, ih⟩
      simp [Point.before]
  | bare _ _ ih => rwa [proper_afterTrivia] at ih
  | headed hlead _ _ ihlead ihbody =>
      have hle := hlead.reads.proper_length_le
      rw [proper_afterTrivia] at ihlead hle
      exact List.forall_mem_append.mpr ⟨ihlead, fun e he => Nat.le_trans (ihbody e he) hle⟩
  | call _ ih => exact List.forall_mem_cons.mpr ⟨Nat.le_refl _, ih⟩

theorem Runs.late_of_less (h : Runs rule ts r es) {bound : Nat}
    (hless : (proper ts).length < bound) : Late bound point es :=
  fun e he _ => Nat.lt_of_le_of_lt (h.left_le e he) hless

/-- A round of a loop takes a token. -/
theorem Runs.advances {test : Test} {body : Rule} (h : Runs body ts r es)
    (htest : test.holds ts = true) (hloops : (Rule.whileDo test body).loopsAdvance = true) :
    (proper r.rest).length < (proper ts).length := by
  rw [Rule.loopsAdvance, Bool.and_eq_true, List.isEmpty_iff] at hloops
  exact h.reads.advances htest hloops.1

/-- **Where a rule stops with nothing taken since an event, it leaves the sight.** -/
theorem Runs.leaves (h : Runs rule ts r es) (hloops : rule.loopsAdvance = true) :
    ∀ e ∈ es, e.point = point → Within e.left (rule.leaves point) r.rest := by
  induction h with
  | nothing | take | trivia | missing | done => exact fun _ he => nomatch he
  | seq _ hsecond ihfirst ihsecond =>
      rw [Rule.loopsAdvance, Bool.and_eq_true] at hloops
      intro e he hpoint
      rcases List.mem_append.mp he with he | he
      · exact ((ihfirst hloops.1 e he hpoint).rest hsecond.reads).mono
          (List.subset_append_left ..)
      · exact (ihsecond hloops.2 e he hpoint).mono (List.subset_append_right ..)
  | yes _ _ ih =>
      rw [Rule.loopsAdvance, Bool.and_eq_true] at hloops
      exact fun e he hpoint => (ih hloops.1 e he hpoint).mono (List.subset_append_left ..)
  | no _ _ ih =>
      rw [Rule.loopsAdvance, Bool.and_eq_true] at hloops
      exact fun e he hpoint => (ih hloops.2 e he hpoint).mono (List.subset_append_right ..)
  | again htest hbody hloop ihbody ihloop =>
      have hless := hbody.advances htest hloops
      have hle := hloop.reads.proper_length_le
      intro e he hpoint
      rcases List.mem_append.mp he with he | he
      · rcases List.mem_cons.mp he with rfl | he
        · exact .inl (Nat.lt_of_le_of_lt hle hless)
        · have hinner : _ = true := (Bool.and_eq_true _ _ ▸ hloops).2
          exact (ihbody hinner e he hpoint).rest hloop.reads
      · exact ihloop hloops e he hpoint
  | @node kind _ ts _ _ hbody ih =>
      intro e he hpoint
      rcases List.mem_append.mp he with he | he
      · obtain ⟨other, hopens, rfl⟩ := List.mem_map.mp he
        obtain rfl : other = point := hpoint
        rw [Rule.leaves, if_pos hopens]
        exact ((within_all ts).afterTrivia.rest hbody.reads).mono (List.subset_append_left ..)
      · exact (ih hloops e he hpoint).mono (List.subset_append_right ..)
  | bare _ hkind ih =>
      rw [Rule.loopsAdvance, Bool.and_eq_true] at hloops
      intro e he hpoint
      refine (ih hloops.1 e he hpoint).mono ?_
      rw [Rule.leaves, otherwise_of_headKind hkind]
      exact List.subset_append_left ..
  | headed _ hkind hbody ihlead ihbody =>
      simp only [Rule.loopsAdvance, Bool.and_eq_true, List.all_eq_true] at hloops
      have hmem := mem_headKinds hkind
      intro e he hpoint
      suffices hkept : Within e.left (_ ++ _) _ from
        hkept.mono fun s hs => List.mem_append_right _ (List.mem_flatMap.mpr ⟨_, hmem, hs⟩)
      rcases List.mem_append.mp he with he | he
      · exact ((ihlead hloops.1 e he hpoint).rest hbody.reads).mono (List.subset_append_left ..)
      · exact (ihbody (hloops.2 _ hmem) e he hpoint).mono (List.subset_append_right ..)
  | @call block ts _ _ hrule ih =>
      have hpace := rules_pace point block
      simp only [Point.paces, Bool.and_eq_true, Bool.or_eq_true, bne_iff_ne, List.all_eq_true,
        List.contains_iff_mem] at hpace
      intro e he hpoint
      rcases List.mem_cons.mp he with rfl | he
      · have howes := (hpace.2.resolve_left fun hne => hne hpoint.symm).2
        exact ((within_all ts).rest hrule.reads).mono howes
      · exact (ih (rules_loopsAdvance block) e he hpoint).mono hpace.1.2

/-- A rule that delays an event takes a token in front of it, if the nonterminals do. -/
theorem Runs.late_with {inside : Nonterminal → List Sight → Bool}
    (hinside : ∀ block seen, inside block seen = true → ∀ {ts r es},
      Runs (rules block) ts r es → ∀ {bound}, Within bound seen ts → Late bound point es)
    (h : Runs rule ts r es) (hloops : rule.loopsAdvance = true) :
    ∀ {seen}, rule.delaysWith point inside seen = true → ∀ {bound}, Within bound seen ts →
      Late bound point es := by
  induction h with
  | nothing | take | trivia | missing | done => exact fun _ _ _ _ he => nomatch he
  | seq hfirst _ ihfirst ihsecond =>
      rw [Rule.loopsAdvance, Bool.and_eq_true] at hloops
      intro seen hdelays bound hwithin
      rw [Rule.delaysWith, Bool.and_eq_true] at hdelays
      exact (ihfirst hloops.1 hdelays.1 hwithin).append
        (ihsecond hloops.2 hdelays.2 (hwithin.rest hfirst.reads))
  | yes htest _ ih =>
      rw [Rule.loopsAdvance, Bool.and_eq_true] at hloops
      intro seen hdelays bound hwithin
      rw [Rule.delaysWith, Bool.and_eq_true] at hdelays
      exact ih hloops.1 hdelays.1 (hwithin.filter htest)
  | no htest _ ih =>
      rw [Rule.loopsAdvance, Bool.and_eq_true] at hloops
      intro seen hdelays bound hwithin
      rw [Rule.delaysWith, Bool.and_eq_true] at hdelays
      exact ih hloops.2 hdelays.2 (hwithin.filter htest)
  | @again test body ts r s es fs htest hbody hloop ihbody =>
      have hless := hbody.advances htest hloops
      have hinner : body.loopsAdvance = true := (Bool.and_eq_true _ _ ▸ hloops).2
      intro seen hdelays bound hwithin
      have hround := hwithin.filter htest
      have hle := hwithin.le
      -- Behind the first round a token has been taken, so only that round matters.
      refine Late.append ?_ (hloop.late_of_less (by omega))
      rw [Rule.delaysWith] at hdelays
      split at hdelays
      · have hfew := hround.less (List.isEmpty_iff.mp hdelays)
        exact .cons (fun _ => hfew) (hbody.late_of_less hfew)
      · rename_i hne
        exact .cons (fun heq => absurd heq.symm hne) (ihbody hinner hdelays hround)
  | @node kind _ ts _ es hbody ih =>
      intro seen hdelays bound hwithin
      rw [Rule.delaysWith] at hdelays
      split at hdelays
      · have hfew := hwithin.less (List.isEmpty_iff.mp hdelays)
        exact (Runs.node hbody).late_of_less hfew
      · rename_i hopens
        refine Late.append (fun e he hpoint => ?_) (ih hloops hdelays hwithin.afterTrivia)
        obtain ⟨other, hother, rfl⟩ := List.mem_map.mp he
        exact absurd (hpoint ▸ hother) hopens
  | bare _ _ ih =>
      rw [Rule.loopsAdvance, Bool.and_eq_true] at hloops
      intro seen hdelays bound hwithin
      rw [Rule.delaysWith, Bool.and_eq_true] at hdelays
      exact ih hloops.1 hdelays.1 hwithin.afterTrivia
  | headed hlead hkind _ ihlead ihbody =>
      simp only [Rule.loopsAdvance, Bool.and_eq_true, List.all_eq_true] at hloops
      have hmem := mem_headKinds hkind
      intro seen hdelays bound hwithin
      rw [Rule.delaysWith, Bool.and_eq_true, List.all_eq_true] at hdelays
      exact (ihlead hloops.1 hdelays.1 hwithin.afterTrivia).append (ihbody (hloops.2 _ hmem)
        (hdelays.2 _ hmem) (hwithin.afterTrivia.rest hlead.reads))
  | @call block ts _ _ hrule ih =>
      intro seen hdelays bound hwithin
      rw [Rule.delaysWith, Bool.or_eq_true, List.isEmpty_iff, Bool.and_eq_true,
        bne_iff_ne] at hdelays
      rcases hdelays with hnone | ⟨hne, hdelays⟩
      · exact (Runs.call hrule).late_of_less (hwithin.less hnone)
      · exact .cons (fun heq => absurd heq.symm hne) (hinside block seen hdelays hrule hwithin)

/-- **A rule that delays an event takes a token in front of it.** -/
theorem Runs.late (h : Runs rule ts r es) (hloops : rule.loopsAdvance = true) {seen : List Sight}
    (hdelays : rule.delays point seen = true) {bound : Nat} (hwithin : Within bound seen ts) :
    Late bound point es := by
  refine h.late_with (fun block seen hinside ts r es hrule bound hwithin => ?_) hloops hdelays
    hwithin
  refine hrule.late_with (fun _ _ hfalse => ?_) (rules_loopsAdvance block) hinside hwithin
  exact absurd hfalse Bool.false_ne_true

/-- Of two events at the point the second one finds fewer tokens left. -/
def Spaced (point : Point) (es : List Event) : Prop :=
  es.Pairwise fun e e' => e.point = point → e'.point = point → e'.left < e.left

theorem Spaced.append {es fs : List Event} (h : Spaced point es) (h' : Spaced point fs)
    (hlate : ∀ e ∈ es, e.point = point → Late e.left point fs) : Spaced point (es ++ fs) :=
  List.pairwise_append.mpr ⟨h, h', fun e he f hf hpoint => hlate e he hpoint f hf⟩

theorem Spaced.cons {other : Point} {es : List Event} (h : Spaced point es)
    (hlate : other = point → Late (proper ts).length point es) :
    Spaced point (other.before ts :: es) :=
  List.pairwise_cons.mpr ⟨fun f hf hpoint => hlate hpoint f hf, h⟩

/-- **Between two events of one sort a token is taken.** -/
theorem Runs.spaced (h : Runs rule ts r es) (hloops : rule.loopsAdvance = true)
    (hspaced : rule.spaced point = true) : Spaced point es := by
  induction h with
  | nothing | take | trivia | missing | done => exact .nil
  | seq hfirst hsecond ihfirst ihsecond =>
      rw [Rule.loopsAdvance, Bool.and_eq_true] at hloops
      simp only [Rule.spaced, Bool.and_eq_true] at hspaced
      exact (ihfirst hloops.1 hspaced.1.1).append (ihsecond hloops.2 hspaced.1.2)
        fun e he hpoint => hsecond.late hloops.2 hspaced.2 (hfirst.leaves hloops.1 e he hpoint)
  | yes _ _ ih =>
      rw [Rule.loopsAdvance, Bool.and_eq_true] at hloops
      rw [Rule.spaced, Bool.and_eq_true] at hspaced
      exact ih hloops.1 hspaced.1
  | no _ _ ih =>
      rw [Rule.loopsAdvance, Bool.and_eq_true] at hloops
      rw [Rule.spaced, Bool.and_eq_true] at hspaced
      exact ih hloops.2 hspaced.2
  | @again test body ts r s es fs htest hbody hloop ihbody ihloop =>
      have hless := hbody.advances htest hloops
      have hinner : body.loopsAdvance = true := (Bool.and_eq_true _ _ ▸ hloops).2
      have hrounds := ihloop hloops hspaced
      simp only [Rule.spaced, Bool.and_eq_true, Bool.or_eq_true, bne_iff_ne] at hspaced
      refine .append (.cons (ihbody hinner hspaced.1.1) fun heq => ?_) hrounds fun e he hpoint => ?_
      · exact hbody.late hinner (hspaced.2.resolve_left fun hne => hne heq.symm)
          (within_filter htest)
      · rcases List.mem_cons.mp he with rfl | he
        · exact hloop.late_of_less hless
        · exact hloop.late hloops hspaced.1.2 (hbody.leaves hinner e he hpoint)
  | @node kind _ ts _ _ hbody ih =>
      simp only [Rule.spaced, Bool.and_eq_true, Bool.or_eq_true, decide_eq_true_eq] at hspaced
      refine .append ?_ (ih hloops hspaced.1) fun e he hpoint => ?_
      · rw [opening]
        split
        · exact List.pairwise_singleton ..
        · exact .nil
      · obtain ⟨other, hopens, rfl⟩ := List.mem_map.mp he
        obtain rfl : other = point := hpoint
        exact hbody.late hloops (hspaced.2.resolve_left fun hnot => hnot hopens)
          (within_all ts).afterTrivia
  | bare _ _ ih =>
      rw [Rule.loopsAdvance, Bool.and_eq_true] at hloops
      rw [Rule.spaced, Bool.and_eq_true] at hspaced
      exact ih hloops.1 hspaced.1
  | headed hlead hkind hbody ihlead ihbody =>
      simp only [Rule.loopsAdvance, Bool.and_eq_true, List.all_eq_true] at hloops
      simp only [Rule.spaced, Bool.and_eq_true, List.all_eq_true] at hspaced
      have hmem := mem_headKinds hkind
      have hkind := hspaced.2 _ hmem
      exact (ihlead hloops.1 hspaced.1).append (ihbody (hloops.2 _ hmem) hkind.1)
        fun e he hpoint => hbody.late (hloops.2 _ hmem) hkind.2
          (hlead.leaves hloops.1 e he hpoint)
  | @call block ts _ _ hrule ih =>
      have hpace := rules_pace point block
      simp only [Point.paces, Bool.and_eq_true, Bool.or_eq_true, bne_iff_ne] at hpace
      refine .cons (ih (rules_loopsAdvance block) hpace.1.1) fun heq => ?_
      have hdelays := (hpace.2.resolve_left fun hne => hne heq.symm).1
      exact hrule.late (rules_loopsAdvance block) hdelays (within_all ts)

end

/-- **Reading a row of tokens makes progress.**  It runs as its rules say, with no bound on
rounds or depth, and in one way only; between two rounds of a loop, two entries of a
nonterminal or two openings of a block of fields it takes a token; and it ends with no token
left. -/
theorem readSource_progress (ts : List Token) : (∃ es, Runs source ts (readSource ts) es) ∧
    ∀ r es, Runs source ts r es → r = readSource ts ∧ r.rest = [] ∧
      es.Pairwise fun e e' => e.point = e'.point → e'.left < e.left := by
  refine ⟨(reads_readSource ts).runs, fun r es h => ?_⟩
  obtain rfl := h.reads.unique (reads_readSource ts)
  refine ⟨rfl, readSource_rest ts, List.pairwise_iff_getElem.mpr fun i j hi hj hij hpoint => ?_⟩
  have hspaced : Spaced es[i].point es := h.spaced source_loopsAdvance (source_spaced _)
  exact List.pairwise_iff_getElem.mp hspaced i j hi hj hij rfl hpoint.symm

end DomainModel.Grammar
