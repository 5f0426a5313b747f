/-
What it is to read a rule.

`Rule.read` carries two bounds, one on how often a loop runs and one on how deep
nonterminals go.  `Reads` is reading without either: a loop ends where its test fails and
nowhere else, and a nonterminal is read by its rule.  Everything that is said about trees,
complaints and rests is said by induction on `Reads`, one case for each way to read a
rule; that the bounds are never felt is the matter of `Proofs/Grammar/Progress.lean`.

The first two inductions are here.  The leaves of what is read, followed by the rest, are
the tokens that were there, so no token is lost, doubled or moved.  And reading either
takes a proper token or leaves the next one where it is.
-/
import DomainModel.Grammar.Source

namespace DomainModel.Grammar

/-- One reading and what is read behind it. -/
def Reading.join (r s : Reading) : Reading :=
  ⟨r.trees ++ s.trees, r.complaints ++ s.complaints, s.rest⟩

/-- A reading with a node around its trees. -/
def Reading.wrap (kind : NodeKind) (r : Reading) : Reading :=
  ⟨[.node kind r.trees], r.complaints, r.rest⟩

/-- Reading the rule can turn the tokens into this. -/
inductive Reads : Rule → List Token → Reading → Prop
  | nothing {ts} : Reads .nothing ts (.stop ts)
  | take {ts} : Reads .take ts (.take ts)
  | trivia {ts} : Reads .trivia ts (.trivia ts)
  | missing {what ts} : Reads (.missing what) ts ⟨[], [⟨what, ahead? ts 0⟩], ts⟩
  | seq {first second ts r s} (hfirst : Reads first ts r) (hsecond : Reads second r.rest s) :
      Reads (.seq first second) ts (r.join s)
  | yes {test yes no ts r} (htest : test.holds ts = true) (hyes : Reads yes ts r) :
      Reads (.ifThen test yes no) ts r
  | no {test yes no ts r} (htest : test.holds ts = false) (hno : Reads no ts r) :
      Reads (.ifThen test yes no) ts r
  | done {test body ts} (htest : test.holds ts = false) : Reads (.whileDo test body) ts (.stop ts)
  | again {test body ts r s} (htest : test.holds ts = true) (hbody : Reads body ts r)
      (hloop : Reads (.whileDo test body) r.rest s) : Reads (.whileDo test body) ts (r.join s)
  | node {kind body ts r} (hbody : Reads body (afterTrivia ts) r) :
      Reads (.node kind body) ts ((Reading.trivia ts).join (r.wrap kind))
  | bare {lead keywords otherwise body ts r} (hlead : Reads lead (afterTrivia ts) r)
      (hkind : headKind keywords otherwise r.rest = none) :
      Reads (.headed lead keywords otherwise body) ts ((Reading.trivia ts).join r)
  | headed {lead keywords otherwise body ts r kind s} (hlead : Reads lead (afterTrivia ts) r)
      (hkind : headKind keywords otherwise r.rest = some kind)
      (hbody : Reads (body kind) r.rest s) :
      Reads (.headed lead keywords otherwise body) ts
        ((Reading.trivia ts).join ((r.join s).wrap kind))
  | call {block ts r} (hrule : Reads (rules block) ts r) : Reads (.call block) ts r

/-! ### No token is lost -/

theorem leavesOfAll_append (ts us : List Tree) :
    Tree.leavesOfAll (ts ++ us) = Tree.leavesOfAll ts ++ Tree.leavesOfAll us := by
  induction ts with
  | nil => rfl
  | cons t ts ih => rw [List.cons_append, Tree.leavesOfAll, ih, Tree.leavesOfAll, List.append_assoc]

theorem leavesOfAll_leaf (ts : List Token) : Tree.leavesOfAll (ts.map .leaf) = ts := by
  induction ts with
  | nil => rfl
  | cons t ts ih => rw [List.map_cons, Tree.leavesOfAll, ih, Tree.leaves, List.singleton_append]

theorem leavesOfAll_wrap (kind : NodeKind) (r : Reading) :
    Tree.leavesOfAll (r.wrap kind).trees = Tree.leavesOfAll r.trees := by
  simp [Reading.wrap, Tree.leavesOfAll, Tree.leaves]

theorem pending_append_after (ts : List Token) : pendingTrivia ts ++ afterTrivia ts = ts :=
  List.takeWhile_append_dropWhile

/-- The tokens of a reading: those of its trees, then those it leaves. -/
def Reading.tokens (r : Reading) : List Token := Tree.leavesOfAll r.trees ++ r.rest

theorem Reading.tokens_join {r s : Reading} (hs : s.tokens = r.rest) :
    (r.join s).tokens = r.tokens := by
  simp only [Reading.tokens, Reading.join, leavesOfAll_append, List.append_assoc] at hs ⊢
  rw [hs]

theorem Reading.tokens_wrap (kind : NodeKind) (r : Reading) : (r.wrap kind).tokens = r.tokens := by
  simp only [Reading.tokens, leavesOfAll_wrap]
  rfl

theorem Reading.tokens_trivia (ts : List Token) : (Reading.trivia ts).tokens = ts := by
  simp only [Reading.tokens, Reading.trivia, leavesOfAll_leaf]
  exact pending_append_after ts

theorem Reading.tokens_take (ts : List Token) : (Reading.take ts).tokens = ts := by
  simp only [Reading.tokens, Reading.take, leavesOfAll_leaf, List.append_assoc,
    List.take_append_drop]
  exact pending_append_after ts

/-- **Reading neither drops nor doubles nor moves a token.** -/
theorem Reads.tokens_eq {rule : Rule} {ts : List Token} {r : Reading} (h : Reads rule ts r) :
    r.tokens = ts := by
  induction h with
  | nothing | missing | done => rfl
  | take => exact Reading.tokens_take _
  | trivia => exact Reading.tokens_trivia _
  | seq _ _ ihfirst ihsecond => rw [Reading.tokens_join ihsecond, ihfirst]
  | yes _ _ ih | no _ _ ih | call _ ih => exact ih
  | again _ _ _ ihbody ihloop => rw [Reading.tokens_join ihloop, ihbody]
  | node _ ih =>
      rw [Reading.tokens_join (by rw [Reading.tokens_wrap]; exact ih), Reading.tokens_trivia]
  | bare _ _ ih => rw [Reading.tokens_join ih, Reading.tokens_trivia]
  | headed _ _ _ ihlead ihbody =>
      rw [Reading.tokens_join, Reading.tokens_trivia]
      rw [Reading.tokens_wrap, Reading.tokens_join ihbody, ihlead]
      rfl

/-! ### What is left is a tail -/

/-- The proper tokens among some. -/
def proper (ts : List Token) : List Token := ts.filter fun t => !t.isTrivia

theorem proper_append (ts us : List Token) : proper (ts ++ us) = proper ts ++ proper us :=
  List.filter_append ..

theorem proper_pending (ts : List Token) : proper (pendingTrivia ts) = [] := by
  rw [proper, List.filter_eq_nil_iff]
  intro t ht
  have := List.all_eq_true.mp (List.all_takeWhile (p := Token.isTrivia) (l := ts)) t ht
  simp [this]

theorem proper_afterTrivia (ts : List Token) : proper (afterTrivia ts) = proper ts := by
  have h := congrArg proper (pending_append_after ts)
  rwa [proper_append, proper_pending, List.nil_append] at h

/-- What is behind the trivia is none. -/
theorem isTrivia_of_afterTrivia {ts us : List Token} {t : Token} (h : afterTrivia ts = t :: us) :
    t.isTrivia = false := by
  have := List.head?_dropWhile_not Token.isTrivia ts
  rw [show ts.dropWhile Token.isTrivia = t :: us from h] at this
  simpa using this

/-- A token that is taken is the next proper one. -/
theorem proper_take (ts : List Token) : proper (Reading.take ts).rest = (proper ts).drop 1 := by
  rw [← proper_afterTrivia ts]
  show proper ((afterTrivia ts).drop 1) = _
  cases hafter : afterTrivia ts with
  | nil => rfl
  | cons t us =>
      rw [proper, proper, List.filter_cons_of_pos (by simpa using isTrivia_of_afterTrivia hafter)]
      rfl

/-- The `n`-th token ahead is the `n`-th proper one. -/
theorem ahead?_eq (ts : List Token) (n : Nat) : ahead? ts n = (proper ts)[n]? := by
  induction ts generalizing n with
  | nil => rfl
  | cons t ts ih =>
      rw [ahead?.eq_def]
      by_cases ht : t.isTrivia = true
      · simp only [if_pos ht]
        rw [ih, proper, proper, List.filter_cons_of_neg (by simp [ht])]
      · simp only [if_neg ht]
        rw [proper, List.filter_cons_of_pos (by simpa using ht)]
        cases n with
        | zero => rfl
        | succ n => exact ih n

/-- The rest of a reading has no proper tokens but those that were there. -/
theorem Reads.proper_eq {rule : Rule} {ts : List Token} {r : Reading} (h : Reads rule ts r) :
    proper ts = proper (Tree.leavesOfAll r.trees) ++ proper r.rest := by
  rw [← h.tokens_eq, Reading.tokens, proper_append]

theorem Reads.proper_length_le {rule : Rule} {ts : List Token} {r : Reading} (h : Reads rule ts r) :
    (proper r.rest).length ≤ (proper ts).length := by
  rw [h.proper_eq, List.length_append]
  omega

/-- A reading that takes no proper token leaves all of them. -/
theorem Reads.proper_of_length {rule : Rule} {ts : List Token} {r : Reading} (h : Reads rule ts r)
    (hlength : (proper ts).length ≤ (proper r.rest).length) : proper r.rest = proper ts := by
  have heq := h.proper_eq
  have hnil : proper (Tree.leavesOfAll r.trees) = [] := by
    have := congrArg List.length heq
    rw [List.length_append] at this
    exact List.length_eq_zero_iff.mp (by omega)
  rw [heq, hnil, List.nil_append]

/-- A loop ends where its test fails. -/
theorem Reads.loop_ends {test : Test} {body : Rule} {ts : List Token} {r : Reading}
    (h : Reads (.whileDo test body) ts r) : test.holds r.rest = false := by
  generalize hrule : Rule.whileDo test body = rule at h
  induction h with
  | done htest =>
      obtain ⟨rfl, rfl⟩ := Rule.whileDo.inj hrule
      exact htest
  | again _ _ _ _ ihloop => exact ihloop hrule
  | _ => cases hrule

end DomainModel.Grammar
