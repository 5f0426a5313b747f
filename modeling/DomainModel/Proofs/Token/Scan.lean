/-
The tokens of a text.

Every token takes at least the character it begins with, so cutting ends, and the rest it
leaves is what the next token is cut from: put together, the tokens are the text, and each
begins at the byte where the one before it stops.  `Contiguous` says the latter for a row
of tokens; `contiguous_split` turns it into the offset of any one of them.

Identifiers are the tokens that names are made of, and hold letters, digits, underscores
and dollar signs alone.  In particular no name holds a dot.  Tokens of white space hold white
space alone.
-/
import DomainModel.Token.Lexer
import DomainModel.Proofs.Source.Lines

namespace DomainModel

open Source (byteLength byteLength_ofList byteLength_toList)

/-- The characters of some tokens. -/
def charsOf (ts : List Token) : List Char := ts.flatMap fun t => t.text.toList

@[simp] theorem charsOf_nil : charsOf [] = [] := rfl

@[simp] theorem charsOf_cons (t : Token) (ts : List Token) :
    charsOf (t :: ts) = t.text.toList ++ charsOf ts := rfl

@[simp] theorem charsOf_append (ts us : List Token) :
    charsOf (ts ++ us) = charsOf ts ++ charsOf us := by
  simp [charsOf]

/-- Each token begins where the one before it stops, the first one at `start`. -/
def Contiguous : Nat → List Token → Prop
  | _, [] => True
  | start, t :: ts => t.start = start ∧ Contiguous t.stop ts

/-- The start of a token is the length of what stands in front of it. -/
theorem contiguous_split {start : Nat} {before after : List Token} {t : Token}
    (h : Contiguous start (before ++ t :: after)) :
    t.start = start + byteLength (charsOf before) := by
  induction before generalizing start with
  | nil => exact h.1
  | cons u us ih =>
      obtain ⟨hu, hrest⟩ := h
      rw [ih hrest, charsOf_cons, Source.byteLength_append, byteLength_toList, Token.stop, hu,
        Nat.add_assoc]

namespace Lexer

theorem tokensFrom_chars (start : Nat) (cs : List Char) : charsOf (tokensFrom start cs) = cs := by
  fun_induction tokensFrom start cs with
  | case1 => rfl
  | case2 start c cs kind n hmeasure token ih =>
      rw [charsOf_cons, ih, String.toList_ofList, List.cons_append, List.take_append_drop]

theorem tokensFrom_contiguous (start : Nat) (cs : List Char) :
    Contiguous start (tokensFrom start cs) := by
  fun_induction tokensFrom start cs with
  | case1 => trivial
  | case2 start c cs kind n hmeasure token ih => exact ⟨rfl, ih⟩

/-- No token is empty. -/
theorem tokensFrom_nonempty (start : Nat) (cs : List Char) :
    ∀ t ∈ tokensFrom start cs, 0 < t.text.utf8ByteSize := by
  fun_induction tokensFrom start cs with
  | case1 => simp
  | case2 start c cs kind n hmeasure token ih =>
      intro t ht
      rcases List.mem_cons.mp ht with rfl | ht
      · show 0 < (String.ofList (c :: cs.take n)).utf8ByteSize
        rw [byteLength_ofList, Source.byteLength_cons]
        have := c.utf8Size_pos
        omega
      · exact ih t ht

/-! ### Identifiers and brackets -/

theorem number_kind (cs : List Char) : (number cs).1 ∈ [TokenKind.integer, .decimal] := by
  unfold number
  simp only
  repeat' split
  all_goals simp

theorem quoted_kind (quote : Char) (cs : List Char) :
    (quoted quote cs).1 ∈ [TokenKind.string, .invalid] := by
  show (if (quotedBody quote cs).2 then TokenKind.string else .invalid) ∈ _
  split <;> simp

theorem comment_kind (cs : List Char) :
    (Comment.measure cs).1 ∈ [TokenKind.blockComment, .javadoc, .invalid] := by
  unfold Comment.measure
  simp only
  repeat' split
  all_goals simp

/-- What begins neither white space nor a word is cut as neither. -/
theorem measure_other {c : Char} (cs : List Char) (hspace : ¬ isSpace c = true)
    (hword : ¬ isWordStart c = true) :
    (measure c cs).1 ≠ .whitespace ∧ (measure c cs).1 ≠ .ident := by
  have hnumber := number_kind
  have hquoted := quoted_kind
  have hcomment := comment_kind
  unfold measure
  rw [if_neg hspace, if_neg hword]
  by_cases hdigit : c.isDigit = true
  · rw [if_pos hdigit]
    grind
  · rw [if_neg hdigit]
    split
    all_goals grind

/-- Only where a word begins is an identifier cut, and it takes the whole word. -/
theorem measure_ident {c : Char} {cs : List Char} (h : (measure c cs).1 = .ident) :
    isWordStart c = true ∧ (measure c cs).2 = (cs.takeWhile isWordPart).length := by
  have hother := measure_other (c := c) cs
  unfold measure at h hother ⊢
  by_cases hspace : isSpace c = true
  · rw [if_pos hspace] at h
    cases h
  · by_cases hword : isWordStart c = true
    · rw [if_neg hspace, if_pos hword]
      exact ⟨hword, rfl⟩
    · exact absurd h (hother hspace hword).2

/-- Only where white space begins is it cut, and as far as it goes. -/
theorem measure_whitespace {c : Char} {cs : List Char} (h : (measure c cs).1 = .whitespace) :
    isSpace c = true ∧ (measure c cs).2 = (cs.takeWhile isSpace).length := by
  have hother := measure_other (c := c) cs
  unfold measure at h hother ⊢
  by_cases hspace : isSpace c = true
  · rw [if_pos hspace]
    exact ⟨hspace, rfl⟩
  · by_cases hword : isWordStart c = true
    · rw [if_neg hspace, if_pos hword] at h
      cases h
    · exact absurd h (hother hspace hword).1

/-- A bracket is a token of its own. -/
theorem measure_bracket (c : Char) (cs : List Char) :
    ((measure c cs).1 = .lBracket → c = '[' ∧ (measure c cs).2 = 0) ∧
      ((measure c cs).1 = .rBracket → c = ']' ∧ (measure c cs).2 = 0) := by
  have hnumber := number_kind
  have hquoted := quoted_kind
  have hcomment := comment_kind
  unfold measure
  by_cases hspace : isSpace c = true
  · rw [if_pos hspace]
    exact ⟨nofun, nofun⟩
  · rw [if_neg hspace]
    by_cases hword : isWordStart c = true
    · rw [if_pos hword]
      exact ⟨nofun, nofun⟩
    · rw [if_neg hword]
      by_cases hdigit : c.isDigit = true
      · rw [if_pos hdigit]
        grind
      · rw [if_neg hdigit]
        split
        all_goals grind

/-- How the text of a token looks that is an identifier or a bracket. -/
structure Spelled (t : Token) : Prop where
  ident : t.kind = .ident → ∃ c cs, t.text.toList = c :: cs ∧ isWordStart c = true ∧
    cs.all isWordPart = true
  opening : t.kind = .lBracket → t.text = "["
  closing : t.kind = .rBracket → t.text = "]"

theorem tokensFrom_spelled (start : Nat) (cs : List Char) :
    ∀ t ∈ tokensFrom start cs, Spelled t := by
  fun_induction tokensFrom start cs with
  | case1 => simp
  | case2 start c cs kind n hmeasure token ih =>
      refine List.forall_mem_cons.mpr ⟨?_, ih⟩
      obtain ⟨hopening, hclosing⟩ := measure_bracket c cs
      rw [hmeasure] at hopening hclosing
      refine ⟨fun hkind => ⟨c, cs.take n, String.toList_ofList, ?_⟩, fun hkind => ?_, fun hkind => ?_⟩
      · obtain ⟨hstart, hlength⟩ := @measure_ident c cs (by rw [hmeasure]; exact hkind)
        have hn : n = (cs.takeWhile isWordPart).length := by rw [← hlength, hmeasure]
        rw [hn, ← List.prefix_iff_eq_take.mp (List.takeWhile_prefix _)]
        exact ⟨hstart, List.all_takeWhile⟩
      · obtain ⟨rfl, rfl⟩ := hopening hkind
        rfl
      · obtain ⟨rfl, rfl⟩ := hclosing hkind
        rfl

/-- A token of white space holds nothing else. -/
theorem tokensFrom_whitespace (start : Nat) (cs : List Char) : ∀ t ∈ tokensFrom start cs,
    t.kind = .whitespace → ∀ c ∈ t.text.toList, isSpace c = true := by
  fun_induction tokensFrom start cs with
  | case1 => simp
  | case2 start c cs kind n hmeasure token ih =>
      refine List.forall_mem_cons.mpr ⟨fun hkind => ?_, ih⟩
      obtain ⟨hspace, hlength⟩ := @measure_whitespace c cs (by rw [hmeasure]; exact hkind)
      have hn : n = (cs.takeWhile isSpace).length := by rw [← hlength, hmeasure]
      show ∀ d ∈ (String.ofList (c :: cs.take n)).toList, isSpace d = true
      rw [String.toList_ofList, hn, ← List.prefix_iff_eq_take.mp (List.takeWhile_prefix _)]
      exact List.forall_mem_cons.mpr ⟨hspace, List.all_eq_true.mp List.all_takeWhile⟩

end Lexer

/-- **The tokens of a text are the text, without a gap.** -/
theorem scan_chars (source : String) : charsOf (scan source) = source.toList :=
  Lexer.tokensFrom_chars 0 _

theorem scan_contiguous (source : String) : Contiguous 0 (scan source) :=
  Lexer.tokensFrom_contiguous 0 _

theorem scan_nonempty {source : String} {t : Token} (h : t ∈ scan source) :
    0 < t.text.utf8ByteSize :=
  Lexer.tokensFrom_nonempty 0 _ t h

theorem scan_spelled {source : String} {t : Token} (h : t ∈ scan source) : Lexer.Spelled t :=
  Lexer.tokensFrom_spelled 0 _ t h

theorem scan_whitespace {source : String} {t : Token} (h : t ∈ scan source)
    (hkind : t.kind = .whitespace) : ∀ c ∈ t.text.toList, Lexer.isSpace c = true :=
  Lexer.tokensFrom_whitespace 0 _ t h hkind

/-- An identifier is made of the characters of words. -/
theorem scan_ident_chars {source : String} {t : Token} (h : t ∈ scan source)
    (hkind : t.kind = .ident) : ∀ c ∈ t.text.toList, Lexer.isWordPart c = true := by
  obtain ⟨first, cs, htext, hstart, hall⟩ := (scan_spelled h).ident hkind
  rw [htext]
  refine List.forall_mem_cons.mpr ⟨?_, List.all_eq_true.mp hall⟩
  rw [Lexer.isWordPart, hstart, Bool.true_or]

/-- No identifier holds a dot. -/
theorem scan_ident_dotless {source : String} {t : Token} (h : t ∈ scan source)
    (hkind : t.kind = .ident) : '.' ∉ t.text.toList :=
  fun hdot => absurd (scan_ident_chars h hkind '.' hdot) (by decide)

end DomainModel
