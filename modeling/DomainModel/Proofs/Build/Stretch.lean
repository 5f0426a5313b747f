/-
Stretches of a tree.

What is recorded for a path is cut from the leaves of the tree.  Mostly it is all leaves of
one part.  Twice it is a run of neighbours: a field that declares its type on the spot has a
span from the type to the end of the block, and the checks of what a relationship injects
have one from the first that is kept to the last.  All runs in one node begin at the same
child (`opens`), and therefore any two stretches of a tree are laminar (`Stretch.laminar`).

Leaves are counted from the left, so a stretch is a range of numbers of leaves; `offset`
turns these into bytes.
-/
import DomainModel.Build.Relationship
import DomainModel.Proofs.Grammar.Lossless
import DomainModel.Proofs.Source.Order

namespace DomainModel

open Source (byteLength byteLength_append)

namespace Tree

/-- How many leaves some trees have in front of the one at an index. -/
def leavesBefore (ts : List Tree) (n : Nat) : Nat := (leavesOfAll (ts.take n)).length

theorem leavesBefore_mono (ts : List Tree) {m n : Nat} (h : m ≤ n) :
    leavesBefore ts m ≤ leavesBefore ts n := by
  obtain ⟨more, hmore⟩ := List.take_prefix_take_left (l := ts) h
  rw [leavesBefore, leavesBefore, ← hmore, Grammar.leavesOfAll_append, List.length_append]
  exact Nat.le_add_right ..

theorem leavesOfAll_split {ts : List Tree} {n : Nat} {t : Tree} (h : ts[n]? = some t) :
    leavesOfAll ts = leavesOfAll (ts.take n) ++ t.leaves ++ leavesOfAll (ts.drop (n + 1)) := by
  obtain ⟨hn, rfl⟩ := List.getElem?_eq_some_iff.mp h
  have hsplit : ts = ts.take n ++ ts[n] :: ts.drop (n + 1) := by simp
  calc leavesOfAll ts = leavesOfAll (ts.take n ++ ts[n] :: ts.drop (n + 1)) := congrArg _ hsplit
    _ = _ := by rw [Grammar.leavesOfAll_append, leavesOfAll, List.append_assoc]

theorem leavesBefore_succ {ts : List Tree} {n : Nat} {t : Tree} (h : ts[n]? = some t) :
    leavesBefore ts (n + 1) = leavesBefore ts n + t.leaves.length := by
  rw [leavesBefore, List.take_add_one, h, Grammar.leavesOfAll_append, List.length_append,
    leavesBefore, Option.toList_some, leavesOfAll, leavesOfAll, List.append_nil]

theorem leavesBefore_le (ts : List Tree) (n : Nat) :
    leavesBefore ts n ≤ (leavesOfAll ts).length := by
  obtain ⟨more, hmore⟩ := List.take_prefix n ts
  conv_rhs => rw [← hmore, Grammar.leavesOfAll_append, List.length_append]
  exact Nat.le_add_right ..

/-- Does the run in a node of this kind begin with this child? -/
def opens : NodeKind → Tree → Bool
  | .field, t => t.isNode .fieldType
  | .relationshipField, t =>
    t.isNode .validation && (Build.endValidation t).isSome && t.range?.isSome
  | _, _ => false

end Tree

open DomainModel.Tree (leavesBefore leavesBefore_mono leavesBefore_succ leavesBefore_le
  leavesOfAll opens)

/-- `r` is a range of leaves of a tree: all of a part, or those of a run in one node. -/
inductive Stretch : Tree → Range → Prop
  | whole {t} : Stretch t ⟨0, t.leaves.length⟩
  | run {kind children last} (h : children.findIdx (opens kind) ≤ last) :
      Stretch (.node kind children)
        ⟨leavesBefore children (children.findIdx (opens kind)), leavesBefore children last⟩
  | inside {kind children n t r} (hchild : children[n]? = some t) (h : Stretch t r) :
      Stretch (.node kind children) (r.map (leavesBefore children n + ·))

namespace Stretch

theorem bounds {t : Tree} {r : Range} (h : Stretch t r) :
    r.start ≤ r.stop ∧ r.stop ≤ t.leaves.length := by
  induction h with
  | whole => exact ⟨Nat.zero_le _, Nat.le_refl _⟩
  | run h => exact ⟨leavesBefore_mono _ h, leavesBefore_le ..⟩
  | @inside kind children n t r hchild _ ih =>
      have hnext := leavesBefore_succ hchild
      have hend : leavesBefore children (n + 1) ≤ (leavesOfAll children).length :=
        leavesBefore_le ..
      rw [Tree.leaves]
      simp only [Range.map]
      omega

/-- A stretch inside one child, and a run. -/
theorem laminar_run {kind : NodeKind} {children : List Tree} {n last : Nat} {t : Tree} {r : Range}
    (hchild : children[n]? = some t) (h : Stretch t r) :
    (r.map (leavesBefore children n + ·)).Laminar
      ⟨leavesBefore children (children.findIdx (opens kind)), leavesBefore children last⟩ := by
  obtain ⟨hle, hstop⟩ := h.bounds
  have hnext := leavesBefore_succ hchild
  simp only [Range.Laminar, Range.Within, Range.map]
  rcases Nat.lt_or_ge n (children.findIdx (opens kind)) with hbefore | hfirst
  · have := leavesBefore_mono (m := n + 1) children hbefore
    omega
  · rcases Nat.lt_or_ge n last with hin | hbehind
    · have := leavesBefore_mono children hfirst
      have := leavesBefore_mono (m := n + 1) children hin
      omega
    · have := leavesBefore_mono children hbehind
      omega

/-- **Of two stretches of a tree one lies in the other, or they have no leaf in common.** -/
theorem laminar {t : Tree} {r : Range} (h : Stretch t r) :
    ∀ {s : Range}, Stretch t s → r.Laminar s := by
  induction h with
  | whole => exact fun h' => .inr (.inl ⟨Nat.zero_le _, h'.bounds.2⟩)
  | @run kind children last hlast =>
      intro s h'
      cases h' with
      | whole => exact .inl ⟨Nat.zero_le _, leavesBefore_le ..⟩
      | @run _ _ last' _ =>
          rcases Nat.le_total last last' with hle | hle
          · exact .inl ⟨Nat.le_refl _, leavesBefore_mono _ hle⟩
          · exact .inr (.inl ⟨Nat.le_refl _, leavesBefore_mono _ hle⟩)
      | inside hchild h' => exact (laminar_run hchild h').symm
  | @inside kind children n t r hchild h ih =>
      intro s h'
      cases h' with
      | whole => exact .inl ⟨Nat.zero_le _, (inside hchild h).bounds.2⟩
      | run => exact laminar_run hchild h
      | @inside _ _ n' t' r' hchild' h' =>
          obtain ⟨-, hstop⟩ := h.bounds
          obtain ⟨-, hstop'⟩ := h'.bounds
          have hnext := leavesBefore_succ hchild
          have hnext' := leavesBefore_succ hchild'
          rcases Nat.lt_trichotomy n n' with hlt | rfl | hlt
          · have := leavesBefore_mono (m := n + 1) children hlt
            simp only [Range.Laminar, Range.Within, Range.map]
            omega
          · obtain rfl := Option.some.inj (hchild.symm.trans hchild')
            exact (ih h').map (Nat.add_le_add_left · _)
          · have := leavesBefore_mono (m := n' + 1) children hlt
            simp only [Range.Laminar, Range.Within, Range.map]
            omega

end Stretch

/-- The stretches of a part are stretches of the tree, behind what is in front of the part. -/
theorem Tree.Part.stretch {s t : Tree} (h : s.Part t) :
    ∃ before after, t.leaves = before ++ s.leaves ++ after ∧
      ∀ r, Stretch s r → Stretch t (r.map (before.length + ·)) := by
  induction h with
  | whole => exact ⟨[], [], by simp, fun r hr => by simpa [Range.map] using hr⟩
  | @inside kind children t hmem _ ih =>
      obtain ⟨before, after, hsplit, hstretch⟩ := ih
      obtain ⟨n, hn⟩ := List.getElem?_of_mem hmem
      refine ⟨leavesOfAll (children.take n) ++ before,
        after ++ leavesOfAll (children.drop (n + 1)), ?_, fun r hr => ?_⟩
      · rw [Tree.leaves, Tree.leavesOfAll_split hn, hsplit]
        simp only [List.append_assoc]
      · have hinside : Stretch (.node kind children) _ := .inside hn (hstretch r hr)
        simpa [Range.map, leavesBefore, Nat.add_assoc] using hinside

/-! ### Bytes -/

/-- The byte at which the token with a number begins, or the row ends. -/
def offset (ts : List Token) (n : Nat) : Nat := byteLength (charsOf (ts.take n))

theorem offset_mono (ts : List Token) {m n : Nat} (h : m ≤ n) : offset ts m ≤ offset ts n := by
  obtain ⟨more, hmore⟩ := List.take_prefix_take_left (l := ts) h
  rw [offset, offset, ← hmore, charsOf_append, byteLength_append]
  exact Nat.le_add_right ..

/-- Tokens that are not empty begin at different bytes. -/
theorem offset_lt {ts : List Token} (hts : ∀ t ∈ ts, 0 < t.text.utf8ByteSize) {m n : Nat}
    (h : m < n) (hm : m < ts.length) : offset ts m < offset ts n := by
  refine Nat.lt_of_lt_of_le ?_ (offset_mono ts (Nat.succ_le_of_lt h))
  have hpos := hts ts[m] (List.getElem_mem hm)
  rw [← Source.byteLength_toList] at hpos
  rw [offset, offset, Nat.succ_eq_add_one, List.take_add_one, List.getElem?_eq_getElem hm,
    charsOf_append, byteLength_append, Option.toList_some, charsOf_cons, charsOf_nil,
    List.append_nil]
  exact Nat.lt_add_of_pos_right hpos

theorem boundary_offset {source : String} (n : Nat) :
    Source.Boundary source.toList (offset (scan source) n) := by
  refine ⟨charsOf ((scan source).take n), charsOf ((scan source).drop n), ?_, rfl⟩
  rw [← charsOf_append, List.take_append_drop, scan_chars]

/-- Behind some tokens the next one begins. -/
theorem offset_front {ts front back : List Token} (h : ts = front ++ back) :
    offset ts front.length = byteLength (charsOf front) := by
  rw [offset, h, List.take_left]

/-- A part lies where its leaves lie. -/
theorem range?_eq {ts before after : List Token} {s : Tree} {r : Range} (hts : Contiguous 0 ts)
    (hsplit : ts = before ++ s.leaves ++ after) (hrange : s.range? = some r) :
    s.leaves ≠ [] ∧ r = Range.map (offset ts)
      ⟨before.length, before.length + s.leaves.length⟩ := by
  simp only [Tree.range?, Option.bind_eq_bind, Option.bind_eq_some_iff] at hrange
  obtain ⟨first, hfirst, last, hlast, hrange⟩ := hrange
  obtain ⟨rest, hrest⟩ : ∃ rest, s.leaves = first :: rest :=
    ⟨s.leaves.tail, List.eq_cons_of_mem_head? hfirst⟩
  refine ⟨by simp [hrest], ?_⟩
  have hfront : ts = before ++ (s.leaves ++ after) := by rw [hsplit, List.append_assoc]
  have hstart : first.start = byteLength (charsOf before) := by
    have h := hts
    rw [hsplit, hrest, List.append_assoc, List.cons_append] at h
    rw [contiguous_split h, Nat.zero_add]
  have hstop : last.stop = byteLength (charsOf (before ++ s.leaves)) := by
    have h := (hsplit ▸ hts).front.tail.stop_last hlast
    rwa [Nat.zero_add, ← byteLength_append, ← charsOf_append] at h
  rw [← Option.some.inj hrange, Range.map, offset_front hfront, ← List.length_append,
    offset_front hsplit, hstart, hstop]

end DomainModel
