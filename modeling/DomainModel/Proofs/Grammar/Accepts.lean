/-
Reading what is written as it should be.

`Accepts` is reading without a complaint, of tokens among which there is no trivia: then a
test sees the tokens that are there, and a node begins where its rule does.  There is a
lemma for each kind of rule, so that accepting a text follows its grammar.
-/
import DomainModel.Proofs.Token.Cut

namespace DomainModel.Grammar

open Lexer (mark word)

/-- On these tokens the rule reads the trees without a complaint and leaves the rest. -/
abbrev Accepts (rule : Rule) (ts : List Token) (trees : List Tree) (rest : List Token) : Prop :=
  Reads rule ts ⟨trees, [], rest⟩

variable {t : Token} {ts us vs : List Token} {trees more : List Tree} {k : TokenKind}

@[simp] theorem ahead?_zero (ht : t.isTrivia = false) : ahead? (t :: ts) 0 = some t := by
  simp [ahead?, ht]

@[simp] theorem ahead?_succ (ht : t.isTrivia = false) (n : Nat) :
    ahead? (t :: ts) (n + 1) = ahead? ts n := by
  rw [ahead?]
  simp [ht]

@[simp] theorem holds_next (ht : t.isTrivia = false) :
    (Test.next k).holds (t :: ts) = (t.kind == k) := by
  simp [Test.next, Test.holds, ht, Bool.beq_eq_decide_eq]

namespace Accepts

variable {rule first second : Rule} {test : Test} {kind : NodeKind}

theorem nothing : Accepts .nothing ts [] ts := Reads.nothing

theorem take (ht : t.isTrivia = false) : Accepts .take (t :: ts) [.leaf t] ts := by
  have htake : Reading.take (t :: ts) = ⟨[.leaf t], [], ts⟩ := by
    simp [Reading.take, pendingTrivia, afterTrivia, ht]
  rw [Accepts, ← htake]
  exact Reads.take

theorem seq (h : Accepts first ts trees us) (h' : Accepts second us more vs) :
    Accepts (first ++ second) ts (trees ++ more) vs := Reads.seq h h'

theorem again (htest : test.holds ts = true) (h : Accepts rule ts trees us)
    (h' : Accepts (.whileDo test rule) us more vs) :
    Accepts (.whileDo test rule) ts (trees ++ more) vs := Reads.again htest h h'

theorem done (htest : test.holds ts = false) : Accepts (.whileDo test rule) ts [] ts :=
  Reads.done htest

theorem node (ht : t.isTrivia = false) (h : Accepts rule (t :: ts) trees us) :
    Accepts (.node kind rule) (t :: ts) [.node kind trees] us := by
  have hafter : afterTrivia (t :: ts) = t :: ts := by simp [afterTrivia, ht]
  have hpending : Reading.trivia (t :: ts) = ⟨[], [], t :: ts⟩ := by
    simp [Reading.trivia, pendingTrivia, hafter, ht]
  have hreads : Reads (.node kind rule) (t :: ts)
      ((Reading.trivia (t :: ts)).join (Reading.wrap kind ⟨trees, [], us⟩)) :=
    .node (by rwa [hafter])
  rwa [hpending] at hreads

theorem headed {lead : Rule} {keywords : List (String × NodeKind)} {otherwise : Option NodeKind}
    {body : NodeKind → Rule} (ht : t.isTrivia = false) (hlead : Accepts lead (t :: ts) trees us)
    (hkind : headKind keywords otherwise us = some kind) (hbody : Accepts (body kind) us more vs) :
    Accepts (.headed lead keywords otherwise body) (t :: ts) [.node kind (trees ++ more)] vs := by
  have hafter : afterTrivia (t :: ts) = t :: ts := by simp [afterTrivia, ht]
  have hpending : Reading.trivia (t :: ts) = ⟨[], [], t :: ts⟩ := by
    simp [Reading.trivia, pendingTrivia, hafter, ht]
  have hreads : Reads (.headed lead keywords otherwise body) (t :: ts)
      ((Reading.trivia (t :: ts)).join
        ((Reading.join ⟨trees, [], us⟩ ⟨more, [], vs⟩).wrap kind)) :=
    .headed (by rwa [hafter]) hkind hbody
  rwa [hpending] at hreads

theorem single (ht : t.isTrivia = false) :
    Accepts (.single kind) (t :: ts) [.node kind [.leaf t]] ts := node ht (take ht)

theorem accept (ht : t.isTrivia = false) (hk : t.kind = k) :
    Accepts (.accept k) (t :: ts) [.leaf t] ts := Reads.yes (by simp [ht, hk]) (take ht)

theorem accept_none (h : (Test.next k).holds ts = false) : Accepts (.accept k) ts [] ts :=
  Reads.no h Reads.nothing

theorem expect (ht : t.isTrivia = false) (hk : t.kind = k) :
    Accepts (.expect k) (t :: ts) [.leaf t] ts := Reads.yes (by simp [ht, hk]) (take ht)

theorem accept_mark (k : TokenKind) (hk : k.isTrivia = false) :
    Accepts (.accept k) (mark k :: ts) [.leaf (mark k)] ts := accept hk rfl

theorem expect_mark (k : TokenKind) (hk : k.isTrivia = false) :
    Accepts (.expect k) (mark k :: ts) [.leaf (mark k)] ts := expect hk rfl

theorem expect_word (text : String) :
    Accepts (.expect .ident) (word text :: ts) [.leaf (word text)] ts := expect rfl rfl

theorem identifier {what : Expectation} (hk : t.kind = .ident) :
    Accepts (.identifier kind what) (t :: ts) [.node kind [.leaf t]] ts := by
  have ht : t.isTrivia = false := by rw [Token.isTrivia, hk]; rfl
  exact Reads.yes (by simp [ht, hk]) (single ht)

end Accepts

end DomainModel.Grammar
