/-
White space around a text.

What is trimmed off is white space, and all of it: a text without white space at its ends is
left as it is (`trim_eq_self`), and white space put around it is taken off again
(`trim_around`).  Printed characters are no white space.  Delimiters are taken off where they
stand.
-/
import DomainModel.Text.DocComment
import Mathlib.Tactic.Common

namespace DomainModel.Text

/-- The printed characters of ASCII are no white space. -/
theorem not_isBlank {c : Char} (h : 33 ≤ c.val.toNat ∧ c.val.toNat ≤ 126) : isBlank c = false := by
  have hval (n : UInt32) (hn : n.toNat < 33 ∨ 126 < n.toNat) : (c.val == n) = false := by
    refine beq_eq_false_iff_ne.mpr fun heq => ?_
    rw [heq] at h
    omega
  have hfrom (n m : UInt32) (hm : m.toNat < 33 ∨ 126 < n.toNat) : (n ≤ c.val && c.val ≤ m) = false := by
    simp only [Bool.and_eq_false_iff, decide_eq_false_iff_not, UInt32.le_iff_toNat_le]
    omega
  simp [isBlank, hval, hfrom]

/-- White space in front is taken off. -/
theorem trimStart_append {blanks : List Char} (h : ∀ c ∈ blanks, isBlank c = true)
    (cs : List Char) : trimStart (blanks ++ cs) = trimStart cs := by
  unfold trimStart
  rw [List.dropWhile_append_of_pos h]

theorem trimStart_eq_self {cs : List Char} (h : ∀ c ∈ cs.head?, isBlank c = false) :
    trimStart cs = cs := by
  unfold trimStart
  cases cs with
  | nil => rfl
  | cons c cs =>
      have hc : isBlank c = false := h c rfl
      simp [hc]

/-- White space behind is taken off. -/
theorem trimEnd_append {blanks : List Char} (h : ∀ c ∈ blanks, isBlank c = true)
    (cs : List Char) : trimEnd (cs ++ blanks) = trimEnd cs := by
  unfold trimEnd
  rw [List.reverse_append, trimStart_append]
  intro c hc
  exact h c (List.mem_reverse.mp hc)

theorem trimEnd_eq_self {cs : List Char} (h : ∀ c ∈ cs.getLast?, isBlank c = false) :
    trimEnd cs = cs := by
  unfold trimEnd
  rw [trimStart_eq_self, List.reverse_reverse]
  rwa [List.head?_reverse]

/-- **A text without white space at its ends stays as it is.** -/
theorem trim_eq_self {cs : List Char} (hfirst : ∀ c ∈ cs.head?, isBlank c = false)
    (hlast : ∀ c ∈ cs.getLast?, isBlank c = false) : trim cs = cs := by
  unfold trim
  rw [trimStart_eq_self hfirst, trimEnd_eq_self hlast]

/-- **White space around such a text is taken off.** -/
theorem trim_around {before cs behind : List Char} (hbefore : ∀ c ∈ before, isBlank c = true)
    (hbehind : ∀ c ∈ behind, isBlank c = true) (hne : cs ≠ [])
    (hfirst : ∀ c ∈ cs.head?, isBlank c = false) (hlast : ∀ c ∈ cs.getLast?, isBlank c = false) :
    trim (before ++ (cs ++ behind)) = cs := by
  have hstart : trimStart (cs ++ behind) = cs ++ behind := by
    refine trimStart_eq_self fun c hc => hfirst c ?_
    cases cs with
    | nil => exact absurd rfl hne
    | cons d ds => exact hc
  unfold trim
  rw [trimStart_append hbefore, hstart, trimEnd_append hbehind, trimEnd_eq_self hlast]

theorem trim_of_not_isBlank {cs : List Char} (h : ∀ c ∈ cs, isBlank c = false) : trim cs = cs :=
  trim_eq_self (fun c hc => h c (List.mem_of_mem_head? hc))
    (fun c hc => h c (List.mem_of_mem_getLast? hc))

/-! ### Delimiters -/

theorem dropLead_append (lead cs : List Char) : dropLead lead (lead ++ cs) = cs := by
  unfold dropLead
  rw [if_pos (List.isPrefixOf_iff_prefix.mpr (List.prefix_append ..)), List.drop_left]

theorem dropTail_append (cs tail : List Char) : dropTail tail (cs ++ tail) = cs := by
  unfold dropTail
  rw [List.reverse_append, dropLead_append, List.reverse_reverse]

/-- What does not end with a character does not lose it. -/
theorem dropTail_of_not_mem {c : Char} {cs : List Char} (h : c ∉ cs) : dropTail [c] cs = cs := by
  have hlead : [c].isPrefixOf cs.reverse = false := by
    rw [Bool.eq_false_iff]
    intro hprefix
    have hmem := (List.isPrefixOf_iff_prefix.mp hprefix).subset (List.mem_singleton_self c)
    exact h (List.mem_reverse.mp hmem)
  unfold dropTail dropLead
  rw [List.reverse_singleton, hlead, if_neg Bool.false_ne_true, List.reverse_reverse]

end DomainModel.Text
