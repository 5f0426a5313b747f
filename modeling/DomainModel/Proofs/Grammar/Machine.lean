/-
Reading with a stack of open nodes.

`Rule.read` returns finished trees.  A reader that goes through the tokens once has none
until the end: it opens a node, adds tokens, closes the node, and for a declaration it
goes back to a mark that it set before it knew the kind.  Each of these steps can go
wrong.  There may be no node to close, a mark may lie beyond what has been added or in
front of the innermost open node, and at the end there may be a node left open or more
than one tree.  `Rule.drive` is that reader, and every one of these faults stops it.

`drive_eq` is the simulation: started with any nodes open, the stack reader comes to its
end, leaves the stack as it found it, and has added the trees, complaints and tokens of
`Rule.read`.  The invariant is that the innermost open node began among the trees that are
there; a mark set now lies behind that beginning, and reading only adds trees.
-/
import DomainModel.Proofs.Grammar.Progress

namespace DomainModel.Grammar

/-- What goes wrong when nodes are not opened and closed in turn. -/
inductive StackFault where
  | nothingOpen
  | staleMark
  | leftOpen
  | notOneTree
  deriving DecidableEq, Repr

/-- A reader in the middle of a text: the open nodes, each with the number of trees in
front of it, the trees so far, and what is left to read. -/
structure Driver where
  opened : List (NodeKind × Nat) := []
  trees : List Tree := []
  complaints : List Complaint := []
  rest : List Token

namespace Driver

/-- Adds what a reading produced. -/
def after (d : Driver) (r : Reading) : Driver :=
  { d with trees := d.trees ++ r.trees, complaints := d.complaints ++ r.complaints, rest := r.rest }

/-- The place where the next tree will stand. -/
def mark (d : Driver) : Nat := d.trees.length

def start (d : Driver) (kind : NodeKind) : Driver := { d with opened := (kind, d.mark) :: d.opened }

/-- Opens a node around everything behind a mark. -/
def startAt (d : Driver) (mark : Nat) (kind : NodeKind) : Except StackFault Driver :=
  if d.trees.length < mark then .error .staleMark
  else if d.opened.head?.any fun o => mark < o.2 then .error .staleMark
  else .ok { d with opened := (kind, mark) :: d.opened }

/-- Closes the innermost node. -/
def finish (d : Driver) : Except StackFault Driver :=
  match d.opened with
  | [] => .error .nothingOpen
  | (kind, first) :: opened =>
    .ok { d with opened := opened, trees := d.trees.take first ++ [.node kind (d.trees.drop first)] }

/-- The tree of a whole text, when everything is closed. -/
def root (d : Driver) : Except StackFault Parse :=
  match d.opened, d.trees with
  | [], [tree] => .ok ⟨tree, d.complaints⟩
  | [], _ => .error .notOneTree
  | _ :: _, _ => .error .leftOpen

/-- Repeats a step while the test holds, `bound` times at most. -/
def repeatWhile (test : Test) (step : Driver → Except StackFault Driver) :
    Nat → Driver → Except StackFault Driver
  | 0, d => .ok d
  | bound + 1, d =>
    if test.holds d.rest then do repeatWhile test step bound (← step d) else .ok d

end Driver

/-- Reads a rule with a stack, where `enter` reads the nonterminals. -/
def Rule.drive (enter : Nonterminal → Driver → Except StackFault Driver) :
    Rule → Driver → Except StackFault Driver
  | nothing, d => .ok d
  | take, d => .ok (d.after (.take d.rest))
  | trivia, d => .ok (d.after (.trivia d.rest))
  | missing what, d => .ok { d with complaints := d.complaints ++ [⟨what, ahead? d.rest 0⟩] }
  | seq first second, d => do second.drive enter (← first.drive enter d)
  | ifThen test yes no, d => if test.holds d.rest then yes.drive enter d else no.drive enter d
  | whileDo test body, d => d.repeatWhile test (body.drive enter) d.rest.length
  | node kind body, d => do
    (← body.drive enter ((d.after (.trivia d.rest)).start kind)).finish
  | headed lead keywords otherwise body, d => do
    let d := d.after (.trivia d.rest)
    let mark := d.mark
    let d ← lead.drive enter d
    match headKind keywords otherwise d.rest with
    | none => return d
    | some kind => (← (body kind).drive enter (← d.startAt mark kind)).finish
  | call block, d => enter block d

/-- Reads nonterminals by their rules, going at most `depth` deep. -/
def driveInto (rules : Nonterminal → Rule) : Nat → Nonterminal → Driver → Except StackFault Driver
  | 0, _, d => .ok d
  | depth + 1, block, d => (rules block).drive (driveInto rules depth) d

/-- Reads a whole row of tokens with a stack. -/
def driveSource (ts : List Token) : Except StackFault Parse := do
  let d := Driver.start { rest := ts } .sourceFile
  (← (← source.drive (driveInto rules ts.length) d).finish).root

theorem ok_bind {ε α β : Type} (a : α) (f : α → Except ε β) : (Except.ok a >>= f) = f a := rfl

namespace Driver

/-- The innermost open node began among the trees that are there. -/
def Sound (d : Driver) : Prop := ∀ o ∈ d.opened.head?, o.2 ≤ d.trees.length

theorem Sound.after {d : Driver} (h : d.Sound) (r : Reading) : (d.after r).Sound := by
  intro o ho
  have := h o ho
  rw [Driver.after, List.length_append]
  omega

theorem Sound.start (d : Driver) (kind : NodeKind) : (d.start kind).Sound := by
  intro o ho
  obtain rfl := Option.some.inj ho
  exact Nat.le_refl _

theorem rest_after (d : Driver) (r : Reading) : (d.after r).rest = r.rest := rfl

theorem after_after (d : Driver) (r s : Reading) : (d.after r).after s = d.after (r.join s) := by
  simp [after, Reading.join, List.append_assoc]

theorem after_stop (d : Driver) : d.after (.stop d.rest) = d := by simp [after, Reading.stop]

/-- A mark set before anything was added is good. -/
theorem startAt_after {d : Driver} (h : d.Sound) (r : Reading) (kind : NodeKind) :
    (d.after r).startAt d.mark kind = .ok ((d.start kind).after r) := by
  have hlength : ¬(d.after r).trees.length < d.mark := by
    rw [after, List.length_append, mark]
    omega
  have hfirst : ¬(d.after r).opened.head?.any (fun o => decide (d.mark < o.2)) = true := by
    intro hany
    obtain ⟨o, ho, hless⟩ := (Option.any_eq_true _ _).mp hany
    have := h o ho
    have := of_decide_eq_true hless
    rw [mark] at this
    omega
  rw [startAt, if_neg hlength, if_neg hfirst]
  rfl

/-- Closing the node that was opened last puts it around what was added since. -/
theorem finish_start (d : Driver) (kind : NodeKind) (r : Reading) :
    ((d.start kind).after r).finish = .ok (d.after (r.wrap kind)) := by
  simp [finish, start, after, mark, Reading.wrap]

end Driver

theorem Reading.andThen_eq_join (r : Reading) (more : List Token → Reading) :
    r.andThen more = r.join (more r.rest) := rfl

/-- **The stack reader never faults**, and adds to the stack what the reader of trees
returns. -/
theorem drive_eq {enterStack : Nonterminal → Driver → Except StackFault Driver}
    {enterTrees : Nonterminal → List Token → Reading}
    (henter : ∀ block d, d.Sound → enterStack block d = .ok (d.after (enterTrees block d.rest))) :
    ∀ (rule : Rule) (d : Driver), d.Sound →
      rule.drive enterStack d = .ok (d.after (rule.read enterTrees d.rest)) := by
  intro rule
  induction rule with
  | nothing => exact fun d _ => by rw [Rule.drive, Rule.read, d.after_stop]
  | take | trivia => exact fun _ _ => rfl
  | missing => exact fun d _ => by simp [Rule.drive, Rule.read, Driver.after]
  | seq first second ihfirst ihsecond =>
      intro d hd
      rw [Rule.drive, ihfirst d hd, Rule.read, Reading.andThen_eq_join, ← Driver.after_after]
      exact ihsecond _ (hd.after _)
  | ifThen test yes no ihyes ihno =>
      intro d hd
      rw [Rule.drive, Rule.read]
      by_cases htest : test.holds d.rest = true
      · rw [if_pos htest, if_pos htest]
        exact ihyes d hd
      · rw [if_neg htest, if_neg htest]
        exact ihno d hd
  | whileDo test body ih =>
      intro d hd
      suffices hrounds : ∀ rounds (d : Driver), d.Sound →
          Driver.repeatWhile test (body.drive enterStack) rounds d =
            .ok (d.after (repeatWhile test (body.read enterTrees) rounds d.rest)) from
        hrounds d.rest.length d hd
      intro rounds
      induction rounds with
      | zero => exact fun d _ => by rw [Driver.repeatWhile, repeatWhile, d.after_stop]
      | succ rounds ihrounds =>
          intro d hd
          rw [Driver.repeatWhile, repeatWhile]
          by_cases htest : test.holds d.rest = true
          · rw [if_pos htest, if_pos htest, ih d hd, Reading.andThen_eq_join, ← Driver.after_after]
            exact ihrounds _ (hd.after _)
          · rw [if_neg htest, if_neg htest, d.after_stop]
  | node kind body ih =>
      intro d hd
      rw [Rule.drive, ih _ (Driver.Sound.start _ kind), Rule.read, Reading.andThen_eq_join,
        ← Driver.after_after]
      exact Driver.finish_start _ kind _
  | headed lead keywords otherwise body ihlead ihbody =>
      intro d hd
      have hlead := ihlead _ (hd.after (.trivia d.rest))
      rw [Rule.drive, Rule.read, Reading.andThen_eq_join, ← Driver.after_after]
      simp only [hlead, ok_bind]
      cases hkind : headKind keywords otherwise
          (lead.read enterTrees (Reading.trivia d.rest).rest).rest with
      | none =>
          simp only [Driver.rest_after, hkind]
          rfl
      | some kind =>
          simp only [Driver.rest_after, hkind]
          rw [Driver.startAt_after (hd.after _), ok_bind,
            ihbody kind _ ((Driver.Sound.start _ kind).after _), ok_bind, Driver.after_after]
          exact Driver.finish_start _ kind _
  | call block => exact fun d hd => henter block d hd

theorem driveInto_eq (depth : Nat) : ∀ (block : Nonterminal) (d : Driver), d.Sound →
    driveInto rules depth block d = .ok (d.after (enter rules depth block d.rest)) := by
  induction depth with
  | zero => exact fun _ d _ => by rw [driveInto, enter, d.after_stop]
  | succ depth ih => exact fun block d hd => drive_eq ih (rules block) d hd

/-- **Parsing with a stack gives the tree and the complaints of every text**: nodes are
closed in turn, marks stay good, and at the end one tree is left and none is open. -/
theorem driveSource_eq (text : String) : driveSource (scan text) = .ok (parse text) := by
  rw [driveSource, drive_eq (driveInto_eq _) source _ (Driver.Sound.start _ _), ok_bind,
    Driver.finish_start, ok_bind]
  rfl

end DomainModel.Grammar
