/-
Every loop takes a token, and every block is entered behind one.

The reader of rules stops a loop after as many rounds as there are tokens, and goes as deep
as there are tokens.  Neither bound may ever decide what is read.  It does not, because no
round of a loop is free and no nonterminal is entered again before a token has gone.

Both are decided on the grammar alone.  All that matters of a row of tokens is its
`sight`: the kind of the next one, with the one word that the grammar tells from other
identifiers inside a loop.  `Test.verdict` answers a test as far as the sight decides it.
`Rule.owes` follows a set of sights through a rule and keeps those in front of which the
rule may have taken nothing; where it keeps none, the rule takes a token.  From there
`Rule.loopsAdvance` and `Rule.callsBehind` are checks that run, and `reads_readSource`
is their outcome: the bounded reader reads every row of tokens as `Reads` says.
-/
import DomainModel.Proofs.Grammar.Reads
import Mathlib.Data.List.Basic

namespace DomainModel.Grammar

/-! ### What is seen of a row of tokens -/

/-- What a rule may meet next: the end, the word between the ends of a relationship, or a
token of a kind. -/
inductive Sight where
  | ending
  | joiner
  | kind (k : TokenKind)
  deriving DecidableEq, Repr

namespace Sight

def all : List Sight := .ending :: .joiner :: TokenKind.all.map .kind

theorem mem_all (s : Sight) : s ∈ all := by
  cases s with
  | ending | joiner => simp [all]
  | kind k => cases k <;> decide

def ofToken : Option Token → Sight
  | none => .ending
  | some t => if t.isWord "to" then .joiner else .kind t.kind

end Sight

def sight (ts : List Token) : Sight := .ofToken (ahead? ts 0)

theorem sight_congr {ts us : List Token} (h : proper ts = proper us) : sight ts = sight us := by
  rw [sight, sight, ahead?_eq, ahead?_eq, h]

theorem sight_afterTrivia (ts : List Token) : sight (afterTrivia ts) = sight ts :=
  sight_congr (proper_afterTrivia ts)

/-- Both, where one that fails is enough to know. -/
def bothKnown : Option Bool → Option Bool → Option Bool
  | some false, _ | _, some false => some false
  | some true, some true => some true
  | _, _ => none

/-- Either, where one that holds is enough to know. -/
def eitherKnown : Option Bool → Option Bool → Option Bool
  | some true, _ | _, some true => some true
  | some false, some false => some false
  | _, _ => none

namespace Test

/-- The answer to a test, if the sight decides it. -/
def verdict (s : Sight) : Test → Option Bool
  | kind 0 kinds =>
    match s with
    | .ending => some false
    | .joiner => some (kinds.contains .ident)
    | .kind k => some (kinds.contains k)
  | word 0 words =>
    match s with
    | .ending => some false
    | .joiner => some (words.contains "to")
    | .kind k => if k = .ident && !words.all (· == "to") then none else some false
  | ends 0 => some (s == .ending)
  | kind (_ + 1) _ | word (_ + 1) _ => if s == .ending then some false else none
  | ends (_ + 1) => if s == .ending then some true else none
  | sameLine | breaksBehind _ => none
  | negation test => (verdict s test).map (!·)
  | both first second => bothKnown (verdict s first) (verdict s second)
  | either first second => eitherKnown (verdict s first) (verdict s second)

/-- The test may come out like this. -/
def may (test : Test) (outcome : Bool) (s : Sight) : Bool := verdict s test != some (!outcome)

theorem bothKnown_sound {a b : Option Bool} {x y v : Bool} (ha : ∀ v, a = some v → x = v)
    (hb : ∀ v, b = some v → y = v) (h : bothKnown a b = some v) : (x && y) = v := by
  unfold bothKnown at h
  split at h
  · rw [ha false rfl, Bool.false_and]
    exact Option.some.inj h
  · rw [hb false rfl, Bool.and_false]
    exact Option.some.inj h
  · rw [ha true rfl, hb true rfl]
    exact Option.some.inj h
  · cases h

theorem eitherKnown_sound {a b : Option Bool} {x y v : Bool} (ha : ∀ v, a = some v → x = v)
    (hb : ∀ v, b = some v → y = v) (h : eitherKnown a b = some v) : (x || y) = v := by
  unfold eitherKnown at h
  split at h
  · rw [ha true rfl, Bool.true_or]
    exact Option.some.inj h
  · rw [hb true rfl, Bool.or_true]
    exact Option.some.inj h
  · rw [ha false rfl, hb false rfl]
    exact Option.some.inj h
  · cases h

/-- At the end of the text nothing is ahead at any distance. -/
theorem ahead?_of_ending {ts : List Token} (h : sight ts = .ending) (n : Nat) :
    ahead? ts n = none := by
  have hzero : (proper ts)[0]? = none := by
    unfold sight Sight.ofToken at h
    rw [ahead?_eq] at h
    split at h
    · assumption
    · split at h <;> cases h
  have hlength : (proper ts).length ≤ 0 := List.getElem?_eq_none_iff.mp hzero
  rw [ahead?_eq, List.getElem?_eq_none_iff]
  omega

theorem kind_sound (kinds : List TokenKind) (ts : List Token) {v : Bool}
    (h : verdict (sight ts) (kind 0 kinds) = some v) : (kind 0 kinds).holds ts = v := by
  unfold sight at h
  unfold holds
  cases hnext : ahead? ts 0 with
  | none =>
      rw [hnext] at h
      exact Option.some.inj h
  | some t =>
      rw [hnext] at h
      by_cases hword : t.isWord "to" = true
      · have hident : t.kind = .ident := by
          simp only [Token.isWord, Bool.and_eq_true, beq_iff_eq] at hword
          exact hword.1
        simp only [Sight.ofToken, if_pos hword, verdict] at h
        simpa [hident] using Option.some.inj h
      · simp only [Sight.ofToken, if_neg hword, verdict] at h
        simpa using Option.some.inj h

theorem word_sound (words : List String) (ts : List Token) {v : Bool}
    (h : verdict (sight ts) (word 0 words) = some v) : (word 0 words).holds ts = v := by
  unfold sight at h
  unfold holds
  cases hnext : ahead? ts 0 with
  | none =>
      rw [hnext] at h
      exact Option.some.inj h
  | some t =>
      rw [hnext] at h
      rw [Option.any_some]
      by_cases hword : t.isWord "to" = true
      · obtain ⟨hident, htext⟩ : t.kind = .ident ∧ t.text = "to" := by
          simpa [Token.isWord] using hword
        simp only [Sight.ofToken, if_pos hword, verdict] at h
        rw [← Option.some.inj h, List.any_eq, List.contains_eq_mem]
        simp [Token.isWord, hident, htext]
      · simp only [Sight.ofToken, if_neg hword, verdict] at h
        split at h
        · cases h
        · rename_i hcond
          rw [← Option.some.inj h, List.any_eq_false]
          intro w hw hw'
          obtain ⟨hident, htext⟩ : t.kind = .ident ∧ t.text = w := by
            simpa [Token.isWord] using hw'
          have hall : words.all (· == "to") = true := by simpa [hident] using hcond
          have hto : w = "to" := by simpa using List.all_eq_true.mp hall w hw
          rw [hto] at hw'
          exact hword hw'

/-- Of what comes later the sight knows only that there is none at the end. -/
theorem far_sound {test : Test} {ts : List Token} {b v : Bool}
    (hend : sight ts = .ending → test.holds ts = b)
    (h : (if sight ts == .ending then some b else none) = some v) : test.holds ts = v := by
  split at h
  case isTrue hsight => exact (hend (beq_iff_eq.mp hsight)).trans (Option.some.inj h)
  case isFalse => cases h

/-- **What the sight decides is so.** -/
theorem verdict_sound (ts : List Token) :
    ∀ (test : Test) (v : Bool), verdict (sight ts) test = some v → test.holds ts = v := by
  intro test
  induction test with
  | kind n kinds =>
      intro v h
      cases n with
      | zero => exact kind_sound kinds ts h
      | succ n =>
          exact far_sound (fun hend => by rw [holds, ahead?_of_ending hend]; rfl) h
  | word n words =>
      intro v h
      cases n with
      | zero => exact word_sound words ts h
      | succ n =>
          exact far_sound (fun hend => by rw [holds, ahead?_of_ending hend]; rfl) h
  | ends n =>
      intro v h
      cases n with
      | zero =>
          have hv : (sight ts == .ending) = v := Option.some.inj h
          rw [holds, ← hv, sight]
          cases ahead? ts 0 with
          | none => rfl
          | some t =>
              rw [Sight.ofToken]
              by_cases hword : t.isWord "to" = true
              · rw [if_pos hword]
                rfl
              · rw [if_neg hword]
                rfl
      | succ n =>
          exact far_sound (fun hend => by rw [holds, ahead?_of_ending hend]; rfl) h
  | sameLine | breaksBehind => intro v h; cases h
  | negation test ih =>
      intro v h
      obtain ⟨w, hw, rfl⟩ := Option.map_eq_some_iff.mp h
      rw [holds, ih w hw]
  | both first second ihfirst ihsecond =>
      intro v h
      exact bothKnown_sound ihfirst ihsecond h
  | either first second ihfirst ihsecond =>
      intro v h
      exact eitherKnown_sound ihfirst ihsecond h

/-- A test only comes out as its sight allows. -/
theorem may_holds {test : Test} {ts : List Token} {v : Bool} (h : test.holds ts = v) :
    test.may v (sight ts) = true := by
  rw [may, bne_iff_ne]
  intro hverdict
  have := verdict_sound ts test _ hverdict
  rw [h] at this
  cases v <;> cases this

end Test

/-! ### What a rule owes -/

/-- The sights at which a nonterminal takes a token. -/
def Nonterminal.starts : Nonterminal → List Sight
  | .field => [.joiner, .kind .ident, .kind .javadoc, .kind .atSign]
  | .value =>
    [.joiner, .kind .ident, .kind .string, .kind .integer, .kind .decimal, .kind .lBrace,
      .kind .lBracket]

/-- The kinds of nodes that a rule with a keyword may make. -/
def headKinds (keywords : List (String × NodeKind)) (otherwise : Option NodeKind) :
    List NodeKind := keywords.map (·.2) ++ otherwise.toList

theorem mem_headKinds {keywords : List (String × NodeKind)} {otherwise : Option NodeKind}
    {ts : List Token} {kind : NodeKind} (h : headKind keywords otherwise ts = some kind) :
    kind ∈ headKinds keywords otherwise := by
  unfold headKind at h
  split at h
  · rename_i hfind
    obtain ⟨t, -, hfind⟩ := Option.bind_eq_some_iff.mp hfind
    obtain rfl := Option.some.inj h
    exact List.mem_append_left _ (List.mem_map.mpr ⟨_, List.mem_of_find?_eq_some hfind, rfl⟩)
  · rw [h]
    exact List.mem_append_right _ (by simp)

theorem otherwise_of_headKind {keywords : List (String × NodeKind)} {otherwise : Option NodeKind}
    {ts : List Token} (h : headKind keywords otherwise ts = none) : otherwise = none := by
  unfold headKind at h
  split at h
  · cases h
  · exact h

namespace Rule

/-- Those of the sights `seen` at which the rule may take no proper token. -/
def owes : Rule → List Sight → List Sight
  | nothing, seen | trivia, seen | missing _, seen => seen
  | take, seen => seen.filter (· == .ending)
  | seq first second, seen => owes second (owes first seen)
  | ifThen test yes no, seen =>
    owes yes (seen.filter (test.may true)) ++ owes no (seen.filter (test.may false))
  | whileDo test _, seen => seen.filter (test.may false)
  | node _ body, seen => owes body seen
  | headed lead keywords otherwise body, seen =>
    let behind := owes lead seen
    (if otherwise.isNone then behind else []) ++
      (headKinds keywords otherwise).flatMap fun kind => owes (body kind) behind
  | call block, seen => seen.filter (!block.starts.contains ·)

/-- Does every round of every loop take a token? -/
def loopsAdvance : Rule → Bool
  | whileDo test body => (owes body (Sight.all.filter (test.may true))).isEmpty && loopsAdvance body
  | seq first second | ifThen _ first second => loopsAdvance first && loopsAdvance second
  | node _ body => loopsAdvance body
  | headed lead keywords otherwise body =>
    loopsAdvance lead && (headKinds keywords otherwise).all fun kind => loopsAdvance (body kind)
  | _ => true

/-- Is a token taken before every nonterminal, when the rule is read at one of the sights? -/
def callsBehind : Rule → List Sight → Bool
  | call _, seen => seen.isEmpty
  | seq first second, seen => callsBehind first seen && callsBehind second (owes first seen)
  | ifThen test yes no, seen =>
    callsBehind yes (seen.filter (test.may true)) && callsBehind no (seen.filter (test.may false))
  | whileDo test body, seen => callsBehind body (seen.filter (test.may true))
  | node _ body, seen => callsBehind body seen
  | headed lead keywords otherwise body, seen =>
    callsBehind lead seen &&
      (headKinds keywords otherwise).all fun kind => callsBehind (body kind) (owes lead seen)
  | _, _ => true

end Rule

/-! ### The checks -/

theorem rules_owe_nothing (block : Nonterminal) : (rules block).owes block.starts = [] := by
  cases block <;> decide +kernel

theorem rules_loopsAdvance (block : Nonterminal) : (rules block).loopsAdvance = true := by
  cases block <;> decide +kernel

theorem rules_callsBehind (block : Nonterminal) :
    (rules block).callsBehind Sight.all = true := by
  cases block <;> decide +kernel

theorem source_loopsAdvance : source.loopsAdvance = true := by decide +kernel

theorem source_callsBehind : source.callsBehind Sight.all = true := by decide +kernel

/-! ### What is owed is what may be left standing -/

theorem proper_drop_of_sight {ts : List Token} (h : sight ts ≠ .ending) :
    (proper ((afterTrivia ts).drop 1)).length < (proper ts).length := by
  rw [← proper_afterTrivia ts]
  rw [← sight_afterTrivia, sight, ahead?_eq] at h
  cases hts : afterTrivia ts with
  | nil =>
      rw [hts] at h
      exact absurd rfl h
  | cons t us =>
      have ht : t.isTrivia = false := isTrivia_of_afterTrivia hts
      rw [proper, proper, List.filter_cons_of_pos (by simpa using ht)]
      exact Nat.lt_succ_self _

/-- A proper token was taken on the way from `ts` to `rest`, or none was and the sight is among
those where none need be. -/
def Took (ts rest : List Token) (seen : List Sight) : Prop :=
  (proper rest).length < (proper ts).length ∨ proper rest = proper ts ∧ sight ts ∈ seen

theorem Took.mono {ts rest : List Token} {seen seen' : List Sight} (h : Took ts rest seen)
    (hseen : sight ts ∈ seen → sight ts ∈ seen') : Took ts rest seen' :=
  h.imp_right fun h => ⟨h.1, hseen h.2⟩

theorem Took.trans {ts mid rest : List Token} {seen seen' : List Sight} (h : Took ts mid seen)
    (hle : (proper rest).length ≤ (proper mid).length)
    (hnext : sight mid ∈ seen → Took mid rest seen') : Took ts rest seen' := by
  rcases h with hless | ⟨heq, hseen⟩
  · exact .inl (Nat.lt_of_le_of_lt hle hless)
  · have htook := hnext (sight_congr heq ▸ hseen)
    rwa [Took, heq, sight_congr heq] at htook

/-- Trivia in front make no difference. -/
theorem Took.afterTrivia {ts rest : List Token} {seen : List Sight}
    (h : Took (afterTrivia ts) rest seen) : Took ts rest seen := by
  rwa [Took, proper_afterTrivia, sight_afterTrivia] at h

/-- Any set with the sight in it will do. -/
theorem Reads.took {rule : Rule} {ts : List Token} {r : Reading} {seen : List Sight}
    (h : Reads rule ts r) (hseen : sight ts ∈ seen) : Took ts r.rest seen := by
  rcases Nat.lt_or_ge (proper r.rest).length (proper ts).length with hless | hge
  · exact .inl hless
  · exact .inr ⟨h.proper_of_length hge, hseen⟩

theorem took_take {ts : List Token} {seen : List Sight} (hseen : sight ts ∈ seen) :
    Took ts (Reading.take ts).rest (Rule.take.owes seen) := by
  by_cases hend : sight ts = .ending
  · exact (Reads.take : Reads .take ts (.take ts)).took
      (List.mem_filter.mpr ⟨hseen, by simpa using hend⟩)
  · exact .inl (proper_drop_of_sight hend)

/-- **A rule takes a proper token, or leaves all of them where it owes at the sight.** -/
theorem Reads.owes {rule : Rule} {ts : List Token} {r : Reading} (h : Reads rule ts r) :
    ∀ seen, sight ts ∈ seen → Took ts r.rest (rule.owes seen) := by
  induction h with
  | nothing | missing => exact fun seen hseen => .inr ⟨rfl, hseen⟩
  | trivia => exact fun seen hseen => .inr ⟨proper_afterTrivia _, hseen⟩
  | take => exact fun seen hseen => took_take hseen
  | seq hfirst hsecond ihfirst ihsecond =>
      intro seen hseen
      exact (ihfirst seen hseen).trans hsecond.proper_length_le fun howes => ihsecond _ howes
  | yes htest _ ih =>
      intro seen hseen
      have hfilter := List.mem_filter.mpr ⟨hseen, Test.may_holds htest⟩
      exact (ih _ hfilter).mono (List.mem_append_left _)
  | no htest _ ih =>
      intro seen hseen
      have hfilter := List.mem_filter.mpr ⟨hseen, Test.may_holds htest⟩
      exact (ih _ hfilter).mono (List.mem_append_right _)
  | done htest =>
      exact fun seen hseen => .inr ⟨rfl, List.mem_filter.mpr ⟨hseen, Test.may_holds htest⟩⟩
  | again _ hbody hloop _ ihloop =>
      intro seen hseen
      exact (hbody.took hseen).trans hloop.proper_length_le fun h => ihloop seen h
  | node _ ih =>
      intro seen hseen
      exact (ih seen (by rwa [sight_afterTrivia])).afterTrivia
  | bare hlead hkind ih =>
      intro seen hseen
      refine (ih seen (by rwa [sight_afterTrivia])).afterTrivia.mono fun howes => ?_
      refine List.mem_append_left _ ?_
      rwa [otherwise_of_headKind hkind]
  | headed hlead hkind hbody ihlead ihbody =>
      intro seen hseen
      have hfirst := (ihlead seen (by rwa [sight_afterTrivia])).afterTrivia
      refine hfirst.trans hbody.proper_length_le fun howes => (ihbody _ howes).mono fun h => ?_
      exact List.mem_append_right _ (List.mem_flatMap.mpr ⟨_, mem_headKinds hkind, h⟩)
  | call hrule ih =>
      rename_i block ts r
      intro seen hseen
      by_cases hstart : sight ts ∈ block.starts
      · refine (ih _ hstart).mono fun howes => ?_
        rw [rules_owe_nothing] at howes
        cases howes
      · exact hrule.took (List.mem_filter.mpr ⟨hseen, by simpa using hstart⟩)

/-! ### The bounds are never felt -/

/-- Fewer proper tokens than the bound, or just as many at one of the sights. -/
def Within (bound : Nat) (seen : List Sight) (ts : List Token) : Prop :=
  (proper ts).length < bound ∨ (proper ts).length ≤ bound ∧ sight ts ∈ seen

theorem Within.le {bound : Nat} {seen : List Sight} {ts : List Token} (h : Within bound seen ts) :
    (proper ts).length ≤ bound := by
  rcases h with h | ⟨h, -⟩ <;> omega

theorem Within.afterTrivia {bound : Nat} {seen : List Sight} {ts : List Token}
    (h : Within bound seen ts) : Within bound seen (afterTrivia ts) := by
  rwa [Within, proper_afterTrivia, sight_afterTrivia]

theorem Within.filter {bound : Nat} {seen : List Sight} {ts : List Token} {test : Test} {v : Bool}
    (h : Within bound seen ts) (htest : test.holds ts = v) :
    Within bound (seen.filter (test.may v)) ts :=
  h.imp_right fun h => ⟨h.1, List.mem_filter.mpr ⟨h.2, Test.may_holds htest⟩⟩

theorem Within.rest {bound : Nat} {seen : List Sight} {ts : List Token} {rule : Rule} {r : Reading}
    (h : Within bound seen ts) (hreads : Reads rule ts r) :
    Within bound (rule.owes seen) r.rest := by
  have hle := hreads.proper_length_le
  rcases h with h | ⟨h, hseen⟩
  · exact .inl (by omega)
  · rcases hreads.owes seen hseen with hless | ⟨heq, howes⟩
    · exact .inl (by omega)
    · rw [Within, heq, sight_congr heq]
      exact .inr ⟨h, howes⟩

/-- A round of a loop that advances takes a proper token. -/
theorem Reads.advances {test : Test} {body : Rule} {ts : List Token} {r : Reading}
    (h : Reads body ts r) (htest : test.holds ts = true)
    (hadvance : body.owes (Sight.all.filter (test.may true)) = []) :
    (proper r.rest).length < (proper ts).length := by
  rcases h.owes _ (List.mem_filter.mpr ⟨Sight.mem_all _, Test.may_holds htest⟩) with
    hless | ⟨-, howes⟩
  · exact hless
  · rw [hadvance] at howes
    cases howes

/-- The bounded reader reads as `Reads` says, where that is so of the nonterminals that it
enters below the bound. -/
theorem read_reads {enter : Nonterminal → List Token → Reading} {bound : Nat}
    (henter : ∀ block ts, (proper ts).length < bound → Reads (.call block) ts (enter block ts)) :
    ∀ (rule : Rule) (seen : List Sight) (ts : List Token), rule.loopsAdvance = true →
      rule.callsBehind seen = true → Within bound seen ts → Reads rule ts (rule.read enter ts) := by
  intro rule
  induction rule with
  | nothing => exact fun _ _ _ _ _ => .nothing
  | take => exact fun _ _ _ _ _ => .take
  | trivia => exact fun _ _ _ _ _ => .trivia
  | missing => exact fun _ _ _ _ _ => .missing
  | seq first second ihfirst ihsecond =>
      intro seen ts hloops hcalls hwithin
      simp only [Rule.loopsAdvance, Rule.callsBehind, Bool.and_eq_true] at hloops hcalls
      have hfirst := ihfirst seen ts hloops.1 hcalls.1 hwithin
      exact .seq hfirst (ihsecond _ _ hloops.2 hcalls.2 (hwithin.rest hfirst))
  | ifThen test yes no ihyes ihno =>
      intro seen ts hloops hcalls hwithin
      simp only [Rule.loopsAdvance, Rule.callsBehind, Bool.and_eq_true] at hloops hcalls
      rw [Rule.read]
      cases htest : test.holds ts with
      | true => exact .yes htest (ihyes _ ts hloops.1 hcalls.1 (hwithin.filter htest))
      | false => exact .no htest (ihno _ ts hloops.2 hcalls.2 (hwithin.filter htest))
  | whileDo test body ih =>
      intro seen ts hloops hcalls hwithin
      simp only [Rule.loopsAdvance, Rule.callsBehind, Bool.and_eq_true, List.isEmpty_iff]
        at hloops hcalls
      -- The rounds that are left suffice as long as there are as many of them as proper tokens.
      suffices hrounds : ∀ rounds ts, (proper ts).length ≤ rounds → Within bound seen ts →
          Reads (.whileDo test body) ts (repeatWhile test (body.read enter) rounds ts) from
        hrounds ts.length ts (List.length_filter_le _ _) hwithin
      intro rounds
      induction rounds with
      | zero =>
          intro ts hlength hwithin
          rw [repeatWhile]
          refine .done (Bool.eq_false_iff.mpr fun htest => ?_)
          have hbody := ih _ ts hloops.2 hcalls (hwithin.filter htest)
          have := hbody.advances htest hloops.1
          omega
      | succ rounds ihrounds =>
          intro ts hlength hwithin
          rw [repeatWhile]
          cases htest : test.holds ts with
          | false => exact .done htest
          | true =>
              have hbody := ih _ ts hloops.2 hcalls (hwithin.filter htest)
              have hless := hbody.advances htest hloops.1
              have hle := hwithin.le
              exact .again htest hbody (ihrounds _ (by omega) (.inl (by omega)))
  | node kind body ih =>
      intro seen ts hloops hcalls hwithin
      exact .node (ih seen _ hloops hcalls hwithin.afterTrivia)
  | headed lead keywords otherwise body ihlead ihbody =>
      intro seen ts hloops hcalls hwithin
      simp only [Rule.loopsAdvance, Rule.callsBehind, Bool.and_eq_true, List.all_eq_true]
        at hloops hcalls
      have hlead := ihlead seen _ hloops.1 hcalls.1 hwithin.afterTrivia
      rw [Rule.read]
      simp only [Reading.andThen]
      split
      · rename_i hkind
        exact .bare hlead hkind
      · rename_i kind hkind
        have hmem := mem_headKinds hkind
        exact .headed hlead hkind
          (ihbody kind _ _ (hloops.2 kind hmem) (hcalls.2 kind hmem)
            (hwithin.afterTrivia.rest hlead))
  | call block =>
      intro seen ts _ hcalls hwithin
      refine henter block ts ?_
      rw [Rule.callsBehind, List.isEmpty_iff] at hcalls
      rcases hwithin with hless | ⟨-, hseen⟩
      · exact hless
      · rw [hcalls] at hseen
        cases hseen

theorem enter_reads (depth : Nat) : ∀ (block : Nonterminal) (ts : List Token),
    (proper ts).length < depth → Reads (.call block) ts (enter rules depth block ts) := by
  induction depth with
  | zero =>
      intro block ts h
      omega
  | succ depth ih =>
      intro block ts h
      exact .call (read_reads ih _ _ ts (rules_loopsAdvance block) (rules_callsBehind block)
        (.inr ⟨by omega, Sight.mem_all _⟩))

/-- **The bounded reader reads every row of tokens as its rules say.** -/
theorem reads_readSource (ts : List Token) : Reads source ts (readSource ts) :=
  read_reads (enter_reads ts.length) source Sight.all ts source_loopsAdvance source_callsBehind
    (.inr ⟨List.length_filter_le _ _, Sight.mem_all _⟩)

/-- Reading goes on until no token is left. -/
theorem readSource_rest (ts : List Token) : (readSource ts).rest = [] := by
  obtain ⟨r, s, hloop, htrivia, hrest⟩ : ∃ r s : Reading,
      Test.holds r.rest (.negation (.ends 0)) = false ∧ Reads .trivia r.rest s ∧
        (readSource ts).rest = s.rest := by
    have h := reads_readSource ts
    generalize readSource ts = t at h
    cases h with
    | seq hfirst hsecond =>
        cases hfirst with
        | seq _ hloop => exact ⟨_, _, hloop.loop_ends, hsecond, rfl⟩
  cases htrivia
  rw [hrest]
  have hnone : ahead? r.rest 0 = none := by
    simpa [Test.holds] using hloop
  rw [ahead?_eq, List.getElem?_eq_none_iff, ← proper_afterTrivia] at hnone
  cases hafter : afterTrivia r.rest with
  | nil => exact hafter
  | cons t us =>
      have ht : t.isTrivia = false := isTrivia_of_afterTrivia hafter
      rw [hafter, proper, List.filter_cons_of_pos (by simpa using ht)] at hnone
      cases hnone

end DomainModel.Grammar
