/-
Where comments end.

Behind its opening a comment is read in units: a character other than a star, or a star with
the character behind it, when that is no slash.  Stars that stand together are units two by
two, so in front of a star and a slash where a unit begins there is an even number of stars,
and an odd number in front of one where a unit is under way.  `Units.closes_iff` says that
counting stars tells the two apart.

`Comment.measure` counts the stars right behind the opening, because they may belong to the
opening of a doc comment; in each of its cases what it measures is an opening, units and a
closing (`measure_closed`).  So a comment ends at the first star and slash with an even number
of stars in front (`comment_closes`).  That need not be the first star and slash of all:
`/* a **/` is not closed and takes in whatever stands in front of the next closing.
-/
import DomainModel.Proofs.Token.Scan
import Mathlib.Algebra.Ring.Parity

namespace DomainModel

namespace Comment

/-- The characters with which a comment begins. -/
def opening : TokenKind → List Char
  | .javadoc => ['/', '*', '*']
  | _ => ['/', '*']

/-- A row of units: characters other than a star, and stars with the character behind each. -/
inductive Units : List Char → Prop
  | nil : Units []
  | plain {c cs} (hc : c ≠ '*') (h : Units cs) : Units (c :: cs)
  | star {c cs} (hc : c ≠ '/') (h : Units cs) : Units ('*' :: c :: cs)

/-- The number of stars at the end of a row of characters. -/
def starsAtEnd (cs : List Char) : Nat := cs.foldl (fun n c => if c = '*' then n + 1 else 0) 0

/-! ### Units -/

theorem Units.append {cs ds : List Char} (h : Units cs) (h' : Units ds) : Units (cs ++ ds) := by
  induction h with
  | nil => exact h'
  | plain hc _ ih => exact .plain hc ih
  | star hc _ ih => exact .star hc ih

/-- Stars are units two by two. -/
theorem Units.stars {k : Nat} (h : Even k) : Units (List.replicate k '*') := by
  obtain ⟨m, rfl⟩ := h
  induction m with
  | zero => exact .nil
  | succ m ih =>
      rw [show m + 1 + (m + 1) = m + m + 1 + 1 by omega, List.replicate_succ, List.replicate_succ]
      exact .star (by decide) ih

/-- A star that is left over from them makes a unit with what follows. -/
theorem Units.stars_cons {c : Char} {cs : List Char} (k : Nat) (hstar : c ≠ '*') (hslash : c ≠ '/')
    (h : Units cs) : Units (List.replicate k '*' ++ c :: cs) := by
  rcases Nat.even_or_odd' k with ⟨m, rfl | rfl⟩
  · exact (Units.stars (by simp)).append (.plain hstar h)
  · rw [List.replicate_succ', List.append_assoc]
    exact (Units.stars (by simp)).append (.star hslash h)

/-- Units end in an even number of stars. -/
theorem Units.even_starsAtEnd {cs : List Char} (h : Units cs) : Even (starsAtEnd cs) := by
  suffices ∀ n, Even n → Even (cs.foldl (fun n c => if c = '*' then n + 1 else 0) n) from
    this 0 (by simp)
  induction h with
  | nil => exact fun n hn => hn
  | plain hc _ ih =>
      intro n _
      rw [List.foldl_cons, if_neg hc]
      exact ih 0 (by simp)
  | @star c _ _ _ ih =>
      intro n hn
      rw [List.foldl_cons, List.foldl_cons, if_pos rfl]
      split
      · exact ih _ (by simpa [Nat.even_add_one] using hn)
      · exact ih 0 (by simp)

/-- A row of units is cut between two units or behind the star of one. -/
theorem Units.cut {front back : List Char} (h : Units (front ++ back)) :
    Units front ∧ Units back ∨ ∃ before, front = before ++ ['*'] ∧ Units before := by
  generalize hcs : front ++ back = cs at h
  induction h generalizing front with
  | nil =>
      obtain ⟨rfl, rfl⟩ := List.append_eq_nil_iff.mp hcs
      exact .inl ⟨.nil, .nil⟩
  | plain hc h ih =>
      cases front with
      | nil =>
          obtain rfl : back = _ := hcs
          exact .inl ⟨.nil, .plain hc h⟩
      | cons d front =>
          obtain ⟨rfl, hrest⟩ := List.cons.inj hcs
          rcases ih hrest with ⟨hfront, hback⟩ | ⟨before, rfl, hbefore⟩
          · exact .inl ⟨.plain hc hfront, hback⟩
          · exact .inr ⟨_, rfl, .plain hc hbefore⟩
  | star hc h ih =>
      match front, hcs with
      | [], hcs =>
          obtain rfl : back = _ := hcs
          exact .inl ⟨.nil, .star hc h⟩
      | [d], hcs =>
          obtain ⟨rfl, -⟩ := List.cons.inj hcs
          exact .inr ⟨[], rfl, .nil⟩
      | d :: e :: front, hcs =>
          simp only [List.cons_append, List.cons.injEq] at hcs
          obtain ⟨rfl, rfl, hrest⟩ := hcs
          rcases ih hrest with ⟨hfront, hback⟩ | ⟨before, rfl, hbefore⟩
          · exact .inl ⟨.star hc hfront, hback⟩
          · exact .inr ⟨_, rfl, .star hc hbefore⟩

/-- **Of units with a closing behind them a star and a slash are the closing just where an even
number of stars is in front.** -/
theorem Units.closes_iff {inner before after : List Char} (h : Units inner)
    (heq : inner ++ ['*', '/'] = before ++ '*' :: '/' :: after) :
    after = [] ↔ Even (starsAtEnd before) := by
  constructor
  · rintro rfl
    obtain ⟨rfl, -⟩ := List.append_inj' heq rfl
    exact h.even_starsAtEnd
  · intro heven
    by_contra hafter
    obtain ⟨rest, hrest⟩ : ∃ rest, inner = before ++ '*' :: '/' :: rest := by
      rcases List.append_eq_append_iff.mp heq with ⟨more, -, hmore⟩ | ⟨more, hinner, hmore⟩
      · exact absurd hmore (by match more with | [] => simp [hafter] | [c] => simp | c :: d :: more => simp)
      · match more, hmore with
        | [], hmore => simp [hafter] at hmore
        | [c], hmore => simp at hmore
        | c :: d :: rest, hmore =>
            simp only [List.cons_append, List.cons.injEq] at hmore
            exact ⟨rest, by rw [hinner, ← hmore.1, ← hmore.2.1]⟩
    subst hrest
    rcases h.cut with ⟨-, hback⟩ | ⟨front, rfl, hfront⟩
    · cases hback with
      | plain hc => exact hc rfl
      | star hc => exact hc rfl
    · have hone : starsAtEnd (front ++ ['*']) = starsAtEnd front + 1 := by
        rw [starsAtEnd, List.foldl_concat, if_pos rfl, starsAtEnd]
      rw [hone, Nat.even_add_one] at heven
      exact heven hfront.even_starsAtEnd

/-! ### What is measured -/

/-- What begins neither a closing nor a unit of two is no star. -/
theorem ne_star {c : Char} {cs : List Char} (hlast : c = '*' → cs = [] → False)
    (hstar : ∀ d ds, c = '*' → cs = d :: ds → False) : c ≠ '*' := by
  intro hc
  cases cs with
  | nil => exact hlast hc rfl
  | cons d ds => exact hstar d ds hc rfl

/-- What is read up to a closing is units and the closing. -/
theorem body_units {cs : List Char} {n : Nat} (h : body cs = (n, true)) :
    ∃ inner, cs.take n = inner ++ ['*', '/'] ∧ Units inner := by
  fun_induction body cs generalizing n with
  | case1 | case2 => cases h
  | case3 =>
    obtain ⟨rfl, -⟩ := Prod.mk.inj h
    exact ⟨[], rfl, .nil⟩
  | case4 c cs hc m closed hbody ih =>
    obtain ⟨rfl, rfl⟩ := Prod.mk.inj h
    obtain ⟨inner, htake, hunits⟩ := ih hbody
    exact ⟨'*' :: c :: inner, by simp [htake], .star hc hunits⟩
  | case5 c cs hlast hclose hstar m closed hbody ih =>
    obtain ⟨rfl, rfl⟩ := Prod.mk.inj h
    obtain ⟨inner, htake, hunits⟩ := ih hbody
    exact ⟨c :: inner, by simp [htake], .plain (ne_star hlast hstar) hunits⟩

/-- Units are read up to the closing behind them. -/
theorem Units.body_eq {cs : List Char} (h : Units cs) (rest : List Char) :
    body (cs ++ '*' :: '/' :: rest) = (cs.length + 2, true) := by
  induction h with
  | nil => rfl
  | plain hc _ ih =>
      rw [List.cons_append, body, ih]
      · simp
      all_goals
        intros
        contradiction
  | star hc _ ih =>
      rw [List.cons_append, List.cons_append, body, ih]
      · simp
      · exact hc

/-- The stars of a line that does not close a comment pair up with what is behind them, the
last one perhaps with the line feed. -/
theorem Units.line {l cs : List Char} (h : ¬ ['*', '/'] <:+: l) (hcs : Units cs) :
    Units (l ++ '\n' :: cs) := by
  induction l using body.induct with
  | case1 => exact .plain (by decide) hcs
  | case2 => exact .star (by decide) hcs
  | case3 l => exact absurd ⟨[], l, rfl⟩ h
  | case4 c l hc _ _ _ ih =>
      refine .star hc (ih fun hinfix => h ?_)
      exact hinfix.trans (List.suffix_append ['*', c] l).isInfix
  | case5 c l hlast _ hstar _ _ _ ih =>
      refine .plain (ne_star hlast hstar) (ih fun hinfix => h ?_)
      exact hinfix.trans (List.suffix_cons c l).isInfix

/-- A comment that is read on with units ends in a closing. -/
theorem readOn_units {long kind : TokenKind} {consumed n : Nat} {rest : List Char}
    (h : ((if (body rest).2 = true then long else .invalid), consumed + (body rest).1) = (kind, n))
    (hkind : kind = .blockComment ∨ kind = .javadoc) :
    kind = long ∧ ∃ m inner, n = consumed + m ∧ rest.take m = inner ++ ['*', '/'] ∧ Units inner := by
  obtain ⟨hlong, rfl⟩ := Prod.mk.inj h
  cases hclosed : (body rest).2 with
  | false =>
      rw [hclosed] at hlong
      rcases hkind with rfl | rfl <;> cases hlong
  | true =>
      rw [hclosed] at hlong
      obtain ⟨inner, htake, hunits⟩ := body_units (Prod.ext rfl hclosed : body rest = (_, true))
      exact ⟨hlong.symm, _, inner, rfl, htake, hunits⟩

/-- The stars at the beginning of a text, and what follows them. -/
theorem stars_split (cs : List Char) : ∃ stars rest, cs = List.replicate stars '*' ++ rest ∧
    (cs.takeWhile (· == '*')).length = stars ∧ ∀ c ∈ rest.head?, c ≠ '*' := by
  refine ⟨_, cs.dropWhile (· == '*'), ?_, rfl, fun c hc heq => ?_⟩
  · have hall : cs.takeWhile (· == '*') = List.replicate (cs.takeWhile (· == '*')).length '*' :=
      List.eq_replicate_of_mem fun c hc => by
        simpa using List.all_eq_true.mp List.all_takeWhile c hc
    rw [← hall, List.takeWhile_append_dropWhile]
  · have := List.head?_dropWhile_not (· == '*') cs
    rw [Option.mem_def.mp hc, heq] at this
    exact Bool.noConfusion this

/-- The first `n` characters of what begins with `/*` are an opening, units and a closing. -/
def Closed (cs : List Char) (kind : TokenKind) (n : Nat) : Prop :=
  ∃ m inner, n = m + 2 ∧ '/' :: '*' :: cs.take m = opening kind ++ inner ++ ['*', '/'] ∧ Units inner

/-- What is read behind the stars and one more character. -/
theorem take_past (stars m : Nat) (c : Char) (rest : List Char) :
    (List.replicate stars '*' ++ c :: rest).take (stars + 1 + m) =
      List.replicate stars '*' ++ c :: rest.take m := by
  rw [Nat.add_assoc, List.take_append, List.length_replicate, Nat.add_sub_cancel_left,
    Nat.add_comm 1 m, List.take_succ_cons, List.take_of_length_le (by simp)]

/-- With an odd number of stars before a slash the comment is plain, or a longer doc comment. -/
theorem closed_odd (k : Nat) (rest : List Char) :
    Closed (List.replicate (2 * k + 1) '*' ++ '/' :: rest) .blockComment (2 * k + 4) ∧
      ∀ m inner, rest.take m = inner ++ ['*', '/'] → Units inner →
        Closed (List.replicate (2 * k + 1) '*' ++ '/' :: rest) .javadoc (2 * k + 4 + m) := by
  have hpairs : Units (List.replicate (2 * k) '*') := Units.stars (by simp)
  constructor
  · refine ⟨2 * k + 1 + 1 + 0, _, by omega, ?_, hpairs⟩
    rw [take_past, List.replicate_succ']
    simp [opening]
  · intro m inner htake hunits
    refine ⟨2 * k + 1 + 1 + m, _, by omega, ?_, hpairs.append (.plain (c := '/') (by decide) hunits)⟩
    rw [take_past, htake, List.replicate_succ]
    simp [opening]

/-- With an even number of stars before a slash it is the other way round. -/
theorem closed_even (k : Nat) (rest : List Char) :
    Closed (List.replicate (2 * k + 2) '*' ++ '/' :: rest) .javadoc (2 * k + 5) ∧
      ∀ m inner, rest.take m = inner ++ ['*', '/'] → Units inner →
        Closed (List.replicate (2 * k + 2) '*' ++ '/' :: rest) .blockComment (2 * k + 5 + m) := by
  constructor
  · refine ⟨2 * k + 2 + 1 + 0, _, by omega, ?_,
      (Units.stars (by simp) : Units (List.replicate (2 * k) '*'))⟩
    rw [take_past, List.replicate_succ, List.replicate_succ']
    simp [opening]
  · intro m inner htake hunits
    have hpairs : Units (List.replicate (2 * k + 2) '*') := Units.stars (by simp [Nat.even_add])
    refine ⟨2 * k + 2 + 1 + m, _, by omega, ?_, hpairs.append (.plain (c := '/') (by decide) hunits)⟩
    rw [take_past, htake]
    simp [opening]

/-- **A comment is its opening, units and a closing.** -/
theorem measure_closed {cs : List Char} {kind : TokenKind} {n : Nat} (h : measure cs = (kind, n))
    (hkind : kind = .blockComment ∨ kind = .javadoc) : Closed cs kind n := by
  obtain ⟨stars, rest, rfl, hstars, hrest⟩ := stars_split cs
  unfold measure at h
  simp only [hstars, List.drop_left' List.length_replicate] at h
  cases rest with
  | nil =>
    obtain ⟨rfl, -⟩ := Prod.mk.inj h
    rcases hkind with hkind | hkind <;> cases hkind
  | cons c rest =>
    have hstar : c ≠ '*' := hrest c rfl
    clear hrest hstars
    cases stars with
    | zero =>
      have hbody : (if (body (c :: rest)).2 = true then TokenKind.blockComment else .invalid,
          2 + (body (c :: rest)).1) = (kind, n) := by
        by_cases hc : c = '/'
        · subst hc; simpa using h
        · simpa [hc] using h
      obtain ⟨rfl, m, inner, rfl, htake, hunits⟩ := readOn_units hbody hkind
      exact ⟨m, inner, by omega, by simpa [opening] using htake, hunits⟩
    | succ stars =>
      by_cases hc : c = '/'
      · subst hc
        simp only [Nat.succ_ne_zero, if_false] at h
        rcases Nat.even_or_odd' stars with ⟨k, rfl | rfl⟩
        · rw [if_pos (by omega : (2 * k + 1) % 2 = 1)] at h
          split at h
          · obtain ⟨rfl, rfl⟩ := Prod.mk.inj h
            convert (closed_odd k rest).1 using 1
            omega
          · obtain ⟨rfl, m, inner, rfl, htake, hunits⟩ := readOn_units h hkind
            convert (closed_odd k rest).2 m inner htake hunits using 1
            omega
        · rw [if_neg (by omega : ¬ (2 * k + 1 + 1) % 2 = 1)] at h
          split at h
          · obtain ⟨rfl, rfl⟩ := Prod.mk.inj h
            convert (closed_even k rest).1 using 1
            omega
          · obtain ⟨rfl, m, inner, rfl, htake, hunits⟩ := readOn_units h hkind
            convert (closed_even k rest).2 m inner htake hunits using 1
            omega
      · simp only [Nat.succ_ne_zero, if_false] at h
        obtain ⟨rfl, m, inner, rfl, htake, hunits⟩ := readOn_units h hkind
        refine ⟨stars + 1 + 1 + m, _, by omega, ?_, Units.stars_cons stars hstar hc hunits⟩
        rw [take_past, htake, List.replicate_succ]
        simp [opening]

end Comment

namespace Lexer

/-- Only behind a slash and a star a comment is cut. -/
theorem measure_comment {c : Char} {cs : List Char} {kind : TokenKind} {n : Nat}
    (h : measure c cs = (kind, n)) (hkind : kind = .blockComment ∨ kind = .javadoc) :
    ∃ rest m, c = '/' ∧ cs = '*' :: rest ∧ Comment.measure rest = (kind, m) ∧ n = m - 1 := by
  have hnumber := number_kind
  have hquoted := quoted_kind
  unfold measure at h
  by_cases hspace : isSpace c = true
  · rw [if_pos hspace] at h
    grind
  · rw [if_neg hspace] at h
    by_cases hword : isWordStart c = true
    · rw [if_pos hword] at h
      grind
    · rw [if_neg hword] at h
      by_cases hdigit : c.isDigit = true
      · rw [if_pos hdigit] at h
        grind
      · rw [if_neg hdigit] at h
        revert h
        split
        all_goals grind

/-- The comments among the tokens are openings, units and closings. -/
theorem tokensFrom_comment (start : Nat) (cs : List Char) : ∀ t ∈ tokensFrom start cs,
    t.kind = .blockComment ∨ t.kind = .javadoc → ∃ inner,
      t.text.toList = Comment.opening t.kind ++ inner ++ ['*', '/'] ∧ Comment.Units inner := by
  fun_induction tokensFrom start cs with
  | case1 => simp
  | case2 start c cs kind n hmeasure token ih =>
    refine List.forall_mem_cons.mpr ⟨fun hkind => ?_, ih⟩
    obtain ⟨rest, m, rfl, rfl, hcomment, rfl⟩ := measure_comment hmeasure hkind
    obtain ⟨m, inner, rfl, htext, hunits⟩ := Comment.measure_closed hcomment hkind
    exact ⟨inner, by rw [← htext]; simp [token, String.toList_ofList], hunits⟩

end Lexer

/-- **A comment ends at the first star and slash behind its opening that have an even number of
stars in front of them.** -/
theorem comment_closes {source : String} {t : Token} (ht : t ∈ scan source)
    (hkind : t.kind = .blockComment ∨ t.kind = .javadoc) :
    ∃ behind, t.text.toList = Comment.opening t.kind ++ behind ∧ ['*', '/'] <:+ behind ∧
      ∀ before after, behind = before ++ '*' :: '/' :: after →
        (after = [] ↔ Even (Comment.starsAtEnd before)) := by
  obtain ⟨inner, htext, hunits⟩ := Lexer.tokensFrom_comment 0 _ t ht hkind
  exact ⟨inner ++ ['*', '/'], by rw [htext, List.append_assoc], List.suffix_append _ _,
    fun _ _ heq => hunits.closes_iff heq⟩

theorem comment_closes_doc :
    let t : Token := ⟨.javadoc, "/** a ***/", 0⟩
    t ∈ scan "/** a ***/ b" ∧ ∀ before after, " a ***/".toList = before ++ '*' :: '/' :: after →
      (after = [] ↔ Even (Comment.starsAtEnd before)) := by
  intro t
  have ht : t ∈ scan "/** a ***/ b" := by decide +kernel
  have hopening : t.text.toList = Comment.opening t.kind ++ " a ***/".toList := by decide +kernel
  obtain ⟨behind, htext, -, hcloses⟩ := comment_closes ht (.inr rfl)
  obtain rfl := List.append_cancel_left (hopening.symm.trans htext)
  exact ⟨ht, hcloses⟩

/-- Two stars in front of a slash do not close a plain comment. -/
theorem comment_runs_on : ¬ ∀ source, ∀ t ∈ scan source, t.kind = .blockComment →
    ∀ before after, t.text.toList = Comment.opening t.kind ++ (before ++ '*' :: '/' :: after) →
      after = [] := by
  intro h
  have hclosed := h "/* a **/ b /* c */" ⟨.blockComment, "/* a **/ b /* c */", 0⟩
    (by decide +kernel) rfl " a *".toList " b /* c */".toList (by decide +kernel)
  exact absurd hclosed (by decide +kernel)

end DomainModel
