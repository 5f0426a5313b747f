/-
Texts whose tokens are known.

Which token begins at a place depends on what follows it: a word goes on as long as it can.
`Cuts` says that a piece of text is one token in front of what follows, and `Clear` is what
most pieces need for that, a follower that cannot go on a word or a number.  `Cut` puts the
pieces of a text together: its proper tokens, with nothing but blanks between them.  Words,
literals and marks that are written with blanks between them make such a text (`Cut.spaced`).
-/
import DomainModel.Proofs.Grammar.Spacing
import DomainModel.Proofs.Token.Scan

namespace DomainModel

open Grammar (bareTokens)

namespace Lexer

/-- In front of `rest`, the characters of `word` are one token of this kind. -/
def Cuts (kind : TokenKind) (word rest : List Char) : Prop :=
  ∃ c cs, word = c :: cs ∧ measure c (cs ++ rest) = (kind, cs.length)

theorem Cuts.tokensFrom {kind : TokenKind} {word rest : List Char} (h : Cuts kind word rest)
    (start : Nat) : tokensFrom start (word ++ rest) =
      ⟨kind, String.ofList word, start⟩ ::
        tokensFrom (Token.stop ⟨kind, String.ofList word, start⟩) rest := by
  obtain ⟨c, cs, rfl, hmeasure⟩ := h
  rw [List.cons_append, Lexer.tokensFrom, hmeasure]
  simp only [List.take_left, List.drop_left]

/-! ### Followers -/

/-- What follows can go on neither a word nor a number. -/
def Clear (rest : List Char) : Prop := ∀ c ∈ rest.head?, isWordPart c = false ∧ c ≠ '.'

@[simp] theorem Clear.nil : Clear [] := fun _ h => nomatch h

@[simp] theorem clear_cons {c : Char} {rest : List Char} :
    Clear (c :: rest) ↔ isWordPart c = false ∧ c ≠ '.' := by
  simp [Clear]

theorem takeWhile_clear {p : Char → Bool} {cs rest : List Char} (hcs : ∀ c ∈ cs, p c = true)
    (hp : ∀ c, p c = true → isWordPart c = true) (h : Clear rest) :
    (cs ++ rest).takeWhile p = cs := by
  rw [List.takeWhile_append_of_pos hcs]
  cases rest with
  | nil => rw [List.takeWhile_nil, List.append_nil]
  | cons c rest =>
      have hc : p c = false := by
        by_contra hp'
        exact Bool.noConfusion ((clear_cons.mp h).1.symm.trans (hp c (by simpa using hp')))
      rw [List.takeWhile_cons_of_neg (by simp [hc]), List.append_nil]

theorem isWordPart_of_isDigit {c : Char} (h : c.isDigit = true) : isWordPart c = true := by
  rw [isWordPart, h, Bool.or_true]

/-! ### Words -/

/-- Is a text one identifier? -/
def isWord : List Char → Bool
  | [] => false
  | c :: cs => isWordStart c && cs.all isWordPart

/-- The token of a word. -/
def word (text : String) : Token := ⟨.ident, text, 0⟩

@[simp] theorem isWord_word (text other : String) : (word text).isWord other = (text == other) := by
  simp [Token.isWord, word]

theorem not_isSpace_of_isWordPart {c : Char} (h : isWordPart c = true) : isSpace c = false := by
  by_contra hspace
  simp only [isSpace, Bool.not_eq_false, Bool.or_eq_true, beq_iff_eq] at hspace
  rcases hspace with ((rfl | rfl) | rfl) | rfl <;> exact absurd h (by decide)

theorem isWordPart_of_isWordStart {c : Char} (h : isWordStart c = true) : isWordPart c = true := by
  rw [isWordPart, h, Bool.true_or]

theorem isWordPart_of_mem {cs : List Char} (h : isWord cs = true) {c : Char} (hc : c ∈ cs) :
    isWordPart c = true := by
  cases cs with
  | nil => cases hc
  | cons d ds =>
      rw [isWord, Bool.and_eq_true, List.all_eq_true] at h
      rcases List.mem_cons.mp hc with rfl | hc
      · exact isWordPart_of_isWordStart h.1
      · exact h.2 c hc

theorem word_cuts {cs rest : List Char} (h : isWord cs = true) (hrest : Clear rest) :
    Cuts .ident cs rest := by
  obtain ⟨c, cs, rfl⟩ : ∃ c ds, cs = c :: ds := by
    cases cs with
    | nil => exact Bool.noConfusion h
    | cons c cs => exact ⟨c, cs, rfl⟩
  rw [isWord, Bool.and_eq_true, List.all_eq_true] at h
  obtain ⟨hstart, hcs⟩ := h
  refine ⟨c, cs, rfl, ?_⟩
  unfold measure
  rw [if_neg (by simp [not_isSpace_of_isWordPart (isWordPart_of_isWordStart hstart)]),
    if_pos hstart, takeWhile_clear hcs (fun _ h => h) hrest]

/-- Letters are those of ASCII, capital ones and small ones. -/
theorem isAlpha_iff {c : Char} : c.isAlpha = true ↔
    65 ≤ c.val.toNat ∧ c.val.toNat ≤ 90 ∨ 97 ≤ c.val.toNat ∧ c.val.toNat ≤ 122 := by
  show (decide ('A'.val ≤ c.val ∧ c.val ≤ 'Z'.val) ||
    (decide ('a'.val ≤ c.val) && decide (c.val ≤ 'z'.val))) = true ↔ _
  rw [Bool.or_eq_true, Bool.and_eq_true, decide_eq_true_eq, decide_eq_true_eq, decide_eq_true_eq]
  rfl

/-- Words and numbers are made of printed characters of ASCII. -/
theorem printed_of_isWordPart {c : Char} (h : isWordPart c = true) :
    33 ≤ c.val.toNat ∧ c.val.toNat ≤ 126 := by
  simp only [isWordPart, isWordStart, Bool.or_eq_true, beq_iff_eq] at h
  rcases h with ((h | rfl) | rfl) | h
  · rw [isAlpha_iff] at h
    omega
  · decide
  · decide
  · simp only [Char.isDigit, Bool.and_eq_true, decide_eq_true_eq, UInt32.le_iff_toNat_le,
      ge_iff_le] at h
    have : '0'.val.toNat = 48 ∧ '9'.val.toNat = 57 := ⟨rfl, rfl⟩
    omega

/-! ### Numbers -/

/-- A row of digits, one at least. -/
def Digits (cs : List Char) : Prop := cs ≠ [] ∧ ∀ c ∈ cs, c.isDigit = true

theorem not_isWordStart_of_isDigit {c : Char} (h : c.isDigit = true) : isWordStart c = false := by
  have hmarks : c ≠ '_' ∧ c ≠ '$' := by
    constructor <;> rintro rfl <;> exact absurd h (by decide)
  have halpha : c.isAlpha = false := by
    refine Bool.eq_false_iff.mpr fun halpha => ?_
    rw [isAlpha_iff] at halpha
    simp only [Char.isDigit, Bool.and_eq_true, decide_eq_true_eq, UInt32.le_iff_toNat_le] at h
    have : '9'.val.toNat = 57 := rfl
    omega
  simp [isWordStart, halpha, hmarks]

/-- A number is what its first digit goes on to, behind a minus sign or without one. -/
theorem measure_digit {c : Char} (h : c.isDigit = true) (cs : List Char) :
    measure c cs = number cs ∧ measure '-' (c :: cs) = ((number cs).1, (number cs).2 + 1) := by
  have hminus : c ≠ '-' := by rintro rfl; exact absurd h (by decide)
  constructor
  · unfold measure
    rw [if_neg (by simp [not_isSpace_of_isWordPart (isWordPart_of_isDigit h)]),
      if_neg (by simp [not_isWordStart_of_isDigit h]), if_pos h]
  · unfold measure
    rw [if_neg (by decide), if_neg (by decide), if_neg (by decide)]
    split <;> simp_all

theorem number_clear {ds rest : List Char} (hds : ∀ c ∈ ds, c.isDigit = true) (h : Clear rest) :
    number (ds ++ rest) = (.integer, ds.length) := by
  unfold number
  rw [takeWhile_clear hds (fun _ => isWordPart_of_isDigit) h]
  simp only [List.drop_left]
  split
  · exact absurd rfl (clear_cons.mp h).2
  · rfl

theorem number_point {ds es rest : List Char} (hds : ∀ c ∈ ds, c.isDigit = true) (hes : Digits es)
    (h : Clear rest) : number (ds ++ '.' :: (es ++ rest)) = (.decimal, ds.length + 1 + es.length) := by
  have hwhole : (ds ++ '.' :: (es ++ rest)).takeWhile Char.isDigit = ds := by
    rw [List.takeWhile_append_of_pos hds, List.takeWhile_cons_of_neg (by decide), List.append_nil]
  have hlength : es.length ≠ 0 := fun hnil => hes.1 (List.length_eq_zero_iff.mp hnil)
  unfold number
  rw [hwhole]
  simp only [List.drop_left]
  rw [takeWhile_clear hes.2 (fun _ => isWordPart_of_isDigit) h, if_neg hlength]

/-- A minus sign, or nothing. -/
def sign (negative : Bool) : List Char := if negative then ['-'] else []

theorem cuts_number {kind : TokenKind} {c : Char} {cs rest : List Char} (negative : Bool)
    (hc : c.isDigit = true) (h : number (cs ++ rest) = (kind, cs.length)) :
    Cuts kind (sign negative ++ c :: cs) rest := by
  obtain ⟨hplain, hminus⟩ := measure_digit hc (cs ++ rest)
  cases negative with
  | false => exact ⟨c, cs, rfl, hplain.trans h⟩
  | true => exact ⟨'-', c :: cs, rfl, by rw [List.cons_append, hminus, h, List.length_cons]⟩

theorem Digits.cuts {ds rest : List Char} (negative : Bool) (h : Digits ds) (hrest : Clear rest) :
    Cuts .integer (sign negative ++ ds) rest := by
  obtain ⟨hne, hall⟩ := h
  cases ds with
  | nil => exact absurd rfl hne
  | cons c cs =>
      obtain ⟨hc, hcs⟩ := List.forall_mem_cons.mp hall
      exact cuts_number negative hc (number_clear hcs hrest)

theorem Digits.cuts_point {ds es rest : List Char} (negative : Bool) (h : Digits ds)
    (hes : Digits es) (hrest : Clear rest) :
    Cuts .decimal (sign negative ++ (ds ++ '.' :: es)) rest := by
  obtain ⟨hne, hall⟩ := h
  cases ds with
  | nil => exact absurd rfl hne
  | cons c cs =>
      obtain ⟨hc, hcs⟩ := List.forall_mem_cons.mp hall
      have hnumber : number ((cs ++ '.' :: es) ++ rest) =
          (.decimal, (cs ++ '.' :: es).length) := by
        rw [List.append_assoc, List.cons_append, number_point hcs hes hrest, List.length_append,
          List.length_cons, Nat.add_assoc, Nat.add_comm 1]
      exact cuts_number negative hc hnumber

/-! ### Quoted texts -/

/-- A character between double quotes, with a backslash in front of quotes and
backslashes. -/
def escaped (c : Char) : List Char := if c = '"' || c = '\\' then ['\\', c] else [c]

/-- A text between double quotes. -/
def quote (cs : List Char) : List Char := '"' :: (cs.flatMap escaped ++ ['"'])

theorem quotedBody_escaped (cs rest : List Char) :
    quotedBody '"' (cs.flatMap escaped ++ '"' :: rest) = ((cs.flatMap escaped).length + 1, true) := by
  induction cs with
  | nil => rfl
  | cons c cs ih =>
      rw [List.flatMap_cons, List.append_assoc, escaped]
      by_cases hc : c = '"' || c = '\\'
      · have hfeed : c ≠ '\n' := by rintro rfl; exact absurd hc (by decide)
        rw [if_pos hc, List.cons_append, List.singleton_append, quotedBody, if_neg hfeed, ih]
        simp
      · obtain ⟨hquote, hslash⟩ : c ≠ '"' ∧ c ≠ '\\' := by simpa using hc
        rw [if_neg hc, List.singleton_append, quotedBody, if_neg hquote, if_neg hslash, ih]
        · simp
        · exact fun _ _ heq _ => hslash heq

theorem quote_cuts (cs rest : List Char) : Cuts .string (quote cs) rest := by
  refine ⟨'"', cs.flatMap escaped ++ ['"'], rfl, ?_⟩
  show quoted '"' _ = _
  rw [List.append_assoc, List.singleton_append, quoted, quotedBody_escaped, List.length_append]
  rfl

/-! ### Texts -/

/-- Cutting the characters gives these proper tokens, with single blanks between them. -/
structure Cut (cs : List Char) (ts : List Token) : Prop where
  tokens : ∀ start, bareTokens (tokensFrom start cs) = ts
  blanks : ∀ start, ∀ t ∈ tokensFrom start cs, t.isTrivia = true → t.text = " "

theorem Cut.nil : Cut [] [] where
  tokens start := by rw [tokensFrom]; rfl
  blanks start := by rw [tokensFrom]; exact fun t ht => absurd ht List.not_mem_nil

variable {kind : TokenKind} {piece rest : List Char} {ts : List Token}

theorem Cut.token (h : Cuts kind piece rest) (hkind : kind.isTrivia = false) (hrest : Cut rest ts) :
    Cut (piece ++ rest) (⟨kind, String.ofList piece, 0⟩ :: ts) where
  tokens start := by
    have hproper : (Token.mk kind (String.ofList piece) start).isTrivia = false := hkind
    rw [h.tokensFrom, bareTokens, Grammar.proper, List.filter_cons_of_pos (by simp [hproper]),
      List.map_cons, ← Grammar.proper, ← bareTokens, hrest.tokens]
    rfl
  blanks start := by
    rw [h.tokensFrom]
    intro t ht htrivia
    rcases List.mem_cons.mp ht with rfl | ht
    · exact Bool.noConfusion (hkind.symm.trans htrivia)
    · exact hrest.blanks _ t ht htrivia

theorem Cut.word {text : String} (h : isWord text.toList = true) (hclear : Clear rest)
    (hrest : Cut rest ts) : Cut (text.toList ++ rest) (word text :: ts) := by
  have hcut := Cut.token (word_cuts h hclear) rfl hrest
  rwa [String.ofList_toList] at hcut

theorem measure_space {c : Char} (h : isSpace c = true) (cs : List Char) :
    measure c cs = (.whitespace, (cs.takeWhile isSpace).length) := by
  unfold measure
  rw [if_pos h]

/-- A blank in front of something else is a token of its own. -/
theorem Cut.blank {cs : List Char} (hcs : ∀ c ∈ cs.head?, isSpace c = false) (h : Cut cs ts) :
    Cut (' ' :: cs) ts := by
  have hcuts : Cuts .whitespace [' '] cs := by
    refine ⟨' ', [], rfl, ?_⟩
    rw [measure_space (by decide)]
    cases cs with
    | nil => rfl
    | cons c cs => rw [List.nil_append, List.takeWhile_cons_of_neg (by simp [hcs c rfl])]
  refine ⟨fun start => ?_, fun start => ?_⟩
  · rw [← List.singleton_append, hcuts.tokensFrom, bareTokens, Grammar.proper,
      List.filter_cons_of_neg Bool.false_ne_true, ← Grammar.proper, ← bareTokens, h.tokens]
  · rw [← List.singleton_append, hcuts.tokensFrom]
    exact List.forall_mem_cons.mpr ⟨fun _ => rfl, h.blanks _⟩

/-- A proper token does not begin with a blank. -/
theorem Cuts.head (h : Cuts kind piece rest) (hkind : kind.isTrivia = false) (more : List Char) :
    ∀ c ∈ (piece ++ more).head?, isSpace c = false := by
  obtain ⟨c, cs, rfl, hmeasure⟩ := h
  rintro _ ⟨⟩
  by_contra hspace
  obtain ⟨rfl, -⟩ := Prod.mk.inj ((measure_space (by simpa using hspace) _).symm.trans hmeasure)
  exact Bool.noConfusion hkind

/-- No proper token, no doc comment. -/
theorem Cut.undocumented {cs : List Char} (h : Cut cs ts) (hts : ∀ t ∈ ts, t.kind ≠ .javadoc)
    (start : Nat) : Grammar.Undocumented (tokensFrom start cs) := by
  intro t ht hkind
  refine hts t.bare ?_ hkind
  rw [← h.tokens start]
  refine List.mem_map_of_mem (List.mem_filter.mpr ⟨ht, ?_⟩)
  rw [Token.isTrivia, hkind]
  rfl

/-! ### Marks -/

/-- The character of a mark. -/
def symbol : TokenKind → Option Char
  | .lBrace => some '\x7b'
  | .rBrace => some '\x7d'
  | .lBracket => some '['
  | .rBracket => some ']'
  | .lParen => some '('
  | .rParen => some ')'
  | .colon => some ':'
  | .comma => some ','
  | .equals => some '='
  | .atSign => some '@'
  | _ => none

/-- The token of a mark. -/
def mark (kind : TokenKind) : Token := ⟨kind, String.ofList (symbol kind).toList, 0⟩

@[simp] theorem mark_kind (kind : TokenKind) : (mark kind).kind = kind := rfl

/-- A mark is a token whatever follows it. -/
theorem mark_cuts {kind : TokenKind} {c : Char} (h : symbol kind = some c) (rest : List Char) :
    Cuts kind [c] rest := by
  refine ⟨c, [], rfl, ?_⟩
  cases kind <;> cases h <;> rfl

theorem mark_proper {kind : TokenKind} {c : Char} (h : symbol kind = some c) :
    kind.isTrivia = false := by
  cases kind <;> first | rfl | cases h

theorem Cut.mark {c : Char} (h : symbol kind = some c) (hrest : Cut rest ts) :
    Cut (c :: rest) (mark kind :: ts) := by
  rw [Lexer.mark, h]
  exact Cut.token (mark_cuts h rest) (mark_proper h) hrest

/-! ### Literals by themselves -/

/-- The kinds of literals that are no words. -/
def literalKinds : List TokenKind := [.string, .integer, .decimal]

/-- What a number takes behind its first digit: digits, and for a decimal a point and digits. -/
theorem number_taken {cs : List Char} {kind : TokenKind} {n : Nat} (h : number cs = (kind, n)) :
    (kind = .integer → ∀ c ∈ cs.take n, c.isDigit = true) ∧
      (kind = .decimal → ∃ ds es, cs.take n = ds ++ '.' :: es ∧ (∀ c ∈ ds, c.isDigit = true) ∧
        Digits es) := by
  obtain ⟨whole, tail, hwhole, hcs⟩ : ∃ whole tail, cs.takeWhile Char.isDigit = whole ∧
      cs = whole ++ tail := ⟨_, _, rfl, List.takeWhile_append_dropWhile.symm⟩
  have hdigits : ∀ c ∈ whole, c.isDigit = true := hwhole ▸ List.all_eq_true.mp List.all_takeWhile
  have hdrop : cs.drop whole.length = tail := by rw [hcs, List.drop_left]
  have hinteger : ∀ c ∈ cs.take whole.length, c.isDigit = true := by
    rw [hcs, List.take_left]
    exact hdigits
  simp only [number, hwhole, hdrop] at h
  split at h
  · next places =>
      by_cases hn : (places.takeWhile Char.isDigit).length = 0
      · rw [if_pos hn] at h
        obtain ⟨rfl, rfl⟩ := Prod.mk.inj h
        exact ⟨fun _ => hinteger, fun hkind => absurd hkind (by decide)⟩
      · rw [if_neg hn] at h
        obtain ⟨rfl, rfl⟩ := Prod.mk.inj h
        have hplaces : Digits (places.takeWhile Char.isDigit) :=
          ⟨fun hnil => hn (by rw [hnil]; rfl), List.all_eq_true.mp List.all_takeWhile⟩
        refine ⟨fun hkind => absurd hkind (by decide), fun _ =>
          ⟨whole, places.takeWhile Char.isDigit, ?_, hdigits, hplaces⟩⟩
        have htake : places.take (places.takeWhile Char.isDigit).length =
            places.takeWhile Char.isDigit :=
          (List.prefix_iff_eq_take.mp (List.takeWhile_prefix _)).symm
        rw [hcs, Nat.add_assoc, List.take_length_add_append, Nat.add_comm 1,
          List.take_succ_cons, htake]
  · obtain ⟨rfl, rfl⟩ := Prod.mk.inj h
    exact ⟨fun _ => hinteger, fun hkind => absurd hkind (by decide)⟩

/-- What is a number by itself is one in front of something else. -/
theorem number_append {kind : TokenKind} {cs rest : List Char} (h : number cs = (kind, cs.length))
    (hrest : Clear rest) : number (cs ++ rest) = (kind, cs.length) := by
  have htaken := number_taken h
  rw [List.take_length] at htaken
  have hkind : kind ∈ [TokenKind.integer, .decimal] := by
    have hfirst := number_kind cs
    rwa [h] at hfirst
  rcases List.mem_pair.mp hkind with rfl | rfl
  · exact number_clear (htaken.1 rfl) hrest
  · obtain ⟨ds, es, rfl, hds, hes⟩ := htaken.2 rfl
    rw [List.append_assoc, List.cons_append, number_point hds hes hrest, List.length_append,
      List.length_cons, Nat.add_right_comm, Nat.add_assoc]

/-- Nothing behind the closing quote belongs to a quoted text. -/
theorem quotedBody_append {quote : Char} (hquote : quote ≠ '\\') {cs : List Char}
    (rest : List Char) {n : Nat} (h : quotedBody quote cs = (n, true)) :
    quotedBody quote (cs ++ rest) = (n, true) := by
  fun_induction quotedBody quote cs generalizing n with
  | case1 => cases h
  | case2 cs => cases h
  | case3 c cs hfeed m closed hbody ih =>
      obtain ⟨rfl, rfl⟩ := Prod.mk.inj h
      simp [quotedBody, hfeed, ih hbody]
  | case4 cs =>
      rw [List.cons_append, quotedBody, if_pos rfl, h]
      exact fun _ _ heq _ => hquote heq
  | case5 => cases h
  | case6 c cs hescape hc hslash m closed hbody ih =>
      obtain ⟨rfl, rfl⟩ := Prod.mk.inj h
      rw [List.cons_append, quotedBody, if_neg hc, if_neg hslash, ih hbody]
      exact fun _ _ heq _ => hslash heq

theorem comment_kind_literal (cs : List Char) : (Comment.measure cs).1 ∉ literalKinds := by
  unfold Comment.measure literalKinds
  simp only
  repeat' split
  all_goals simp_all

/-- How a literal that is no word begins: with a digit, a minus sign or a quote. -/
theorem measure_literal {kind : TokenKind} {c : Char} {cs : List Char} {n : Nat}
    (hkind : kind ∈ literalKinds) (h : measure c cs = (kind, n)) :
    c.isDigit = true ∨ (∃ d ds, c = '-' ∧ cs = d :: ds ∧ d.isDigit = true) ∨
      c = '"' ∨ c = '\'' := by
  have hne (k : TokenKind) (hk : k ∉ literalKinds) {m : Nat} : (k, m) ≠ (kind, n) :=
    fun heq => hk ((Prod.mk.inj heq).1 ▸ hkind)
  unfold measure at h
  by_cases hspace : isSpace c = true
  · exact absurd (if_pos hspace ▸ h) (hne _ (by decide))
  by_cases hword : isWordStart c = true
  · rw [if_neg hspace, if_pos hword] at h
    exact absurd h (hne _ (by decide))
  by_cases hdigit : c.isDigit = true
  · exact .inl hdigit
  rw [if_neg hspace, if_neg hword, if_neg hdigit] at h
  refine .inr ?_
  split at h
  case h_2 d ds _ =>
    split at h
    · next hd => exact .inl ⟨d, ds, rfl, rfl, hd⟩
    · exact absurd h (hne _ (by decide))
  case h_4 rest => exact absurd h (hne _ (comment_kind_literal rest))
  case h_5 => exact .inr (.inl rfl)
  case h_6 => exact .inr (.inr rfl)
  all_goals exact absurd h (hne _ (by decide))

/-- **What is a literal by itself is one in front of something else.** -/
theorem Cuts.clear {kind : TokenKind} {piece rest : List Char} (h : Cuts kind piece [])
    (hkind : kind ∈ literalKinds) (hrest : Clear rest) : Cuts kind piece rest := by
  obtain ⟨c, cs, rfl, hmeasure⟩ := h
  rw [List.append_nil] at hmeasure
  refine ⟨c, cs, rfl, ?_⟩
  rcases measure_literal hkind hmeasure with hc | ⟨d, ds, rfl, rfl, hd⟩ | hc
  · rw [(measure_digit hc _).1] at hmeasure ⊢
    exact number_append hmeasure hrest
  · rw [(measure_digit hd _).2, List.length_cons] at hmeasure
    obtain ⟨hkind, hlength⟩ := Prod.mk.inj hmeasure
    have hnumber : number ds = (kind, ds.length) := Prod.ext hkind (Nat.succ.inj hlength)
    rw [List.cons_append, (measure_digit hd _).2, number_append hnumber hrest, List.length_cons]
  · have hquoted (cs : List Char) : measure c cs = quoted c cs := by
      rcases hc with rfl | rfl <;> rfl
    have hslash : c ≠ '\\' := by rcases hc with rfl | rfl <;> decide
    rw [hquoted] at hmeasure ⊢
    obtain ⟨hclosed, hlength⟩ := Prod.mk.inj hmeasure
    cases hbody : (quotedBody c cs).2 with
    | false =>
        rw [hbody] at hclosed
        exact absurd hkind (hclosed ▸ by decide)
    | true =>
        have hpair : quotedBody c cs = ((quotedBody c cs).1, true) := Prod.ext rfl hbody
        rw [← hmeasure, quoted, quoted, quotedBody_append hslash rest hpair, ← hpair]

theorem number_integer {cs : List Char} (h : number cs = (.integer, cs.length)) :
    ∀ c ∈ cs, c.isDigit = true := by
  have htaken := (number_taken h).1 rfl
  rwa [List.take_length] at htaken

/-- An integer is made of digits, perhaps behind a minus sign. -/
theorem Cuts.integer {piece : List Char} (h : Cuts .integer piece []) :
    ∀ c ∈ piece, c.isDigit = true ∨ c = '-' := by
  obtain ⟨c, cs, rfl, hmeasure⟩ := h
  rw [List.append_nil] at hmeasure
  rcases measure_literal (by decide) hmeasure with hc | ⟨d, ds, rfl, rfl, hd⟩ | hc
  · rw [(measure_digit hc _).1] at hmeasure
    exact List.forall_mem_cons.mpr ⟨.inl hc, fun c hc => .inl (number_integer hmeasure c hc)⟩
  · rw [(measure_digit hd _).2, List.length_cons] at hmeasure
    obtain ⟨hkind, hlength⟩ := Prod.mk.inj hmeasure
    have hnumber : number ds = (.integer, ds.length) := Prod.ext hkind (Nat.succ.inj hlength)
    exact List.forall_mem_cons.mpr ⟨.inr rfl, List.forall_mem_cons.mpr
      ⟨.inl hd, fun c hc => .inl (number_integer hnumber c hc)⟩⟩
  · have hquoted : measure c cs = quoted c cs := by rcases hc with rfl | rfl <;> rfl
    rw [hquoted, quoted] at hmeasure
    have hkind : (if (quotedBody c cs).2 = true then TokenKind.string else .invalid) = .integer :=
      (Prod.mk.inj hmeasure).1
    split at hkind <;> cases hkind

/-! ### Tokens with blanks between them -/

/-- A token with a meaning of its own, which ends where nothing goes on behind it. -/
structure Solid (t : Token) : Prop where
  start : t.start = 0
  proper : t.kind.isTrivia = false
  undocumented : t.kind ≠ .javadoc
  cuts : ∀ {rest}, Clear rest → Cuts t.kind t.text.toList rest

theorem solid_word {text : String} (h : isWord text.toList = true) : Solid (word text) where
  start := rfl
  proper := rfl
  undocumented := by simp [word]
  cuts := word_cuts h

theorem solid_mark {kind : TokenKind} {c : Char} (h : symbol kind = some c) : Solid (mark kind) where
  start := rfl
  proper := mark_proper h
  undocumented := by rintro rfl; cases h
  cuts _ := by
    rw [mark, h, Option.toList_some, String.toList_ofList]
    exact mark_cuts h _

theorem solid_literal {kind : TokenKind} {text : String} (h : Cuts kind text.toList [])
    (hkind : kind ∈ literalKinds) : Solid ⟨kind, text, 0⟩ :=
  have hproper : ∀ k ∈ literalKinds, k.isTrivia = false ∧ k ≠ .javadoc := by decide
  ⟨rfl, (hproper kind hkind).1, (hproper kind hkind).2, h.clear hkind⟩

/-- Tokens written one after the other, with blanks between them. -/
def spaced (ts : List Token) : String := " ".intercalate (ts.map (·.text))

theorem spaced_cons (t u : Token) (ts : List Token) :
    (spaced (t :: u :: ts)).toList = t.text.toList ++ ' ' :: (spaced (u :: ts)).toList := by
  rw [spaced, List.map_cons, List.map_cons, String.intercalate_cons_cons]
  simp [spaced]

/-- **Solid tokens with blanks between them are cut as they are.** -/
theorem Cut.spaced {ts : List Token} (h : ∀ t ∈ ts, Solid t) : Cut (spaced ts).toList ts := by
  induction ts with
  | nil => exact .nil
  | cons t ts ih =>
      obtain ⟨⟨hstart, hproper, -, hcuts⟩, hts⟩ := List.forall_mem_cons.mp h
      obtain ⟨kind, text, start⟩ := t
      obtain rfl : start = 0 := hstart
      have htoken {rest : List Char} {us : List Token} (hclear : Clear rest) (hrest : Cut rest us) :
          Cut (text.toList ++ rest) (⟨kind, text, 0⟩ :: us) := by
        have hcut := Cut.token (hcuts hclear) hproper hrest
        rwa [String.ofList_toList] at hcut
      cases ts with
      | nil => simpa [Lexer.spaced] using htoken .nil .nil
      | cons u us =>
          have hu : Solid u := hts u (List.mem_cons_self ..)
          have hhead : ∀ c ∈ (Lexer.spaced (u :: us)).toList.head?, isSpace c = false := by
            cases us with
            | nil => simpa [Lexer.spaced] using (hu.cuts .nil).head hu.proper []
            | cons v vs =>
                rw [spaced_cons]
                exact (hu.cuts .nil).head hu.proper _
          rw [spaced_cons]
          exact htoken (clear_cons.mpr ⟨rfl, by decide⟩) ((ih hts).blank hhead)

end Lexer

end DomainModel
