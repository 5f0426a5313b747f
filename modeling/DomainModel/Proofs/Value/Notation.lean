/-
How values are written in a source text.

`Value.written` puts strings between quotes, the items of a list in brackets and the pairs of
a mapping in braces.  A key that is a word may stand without quotes, and a `KeyStyle` says
which keys do.  The tokens of a written value are `Value.tokens`, whatever follows it, as long
as that does not go on its last token.
-/
import DomainModel.Proofs.Value.Literal
import DomainModel.Value.Basic

namespace DomainModel

open Lexer (Clear Cut Cuts clear_cons mark quote)

/-- Which keys of mappings are written without quotes; they have to be words. -/
structure KeyStyle where
  bare : String → Bool
  word : ∀ key, bare key = true → Lexer.isWord key.toList = true

/-- All keys between quotes. -/
def KeyStyle.quoted : KeyStyle where
  bare _ := false
  word _ h := Bool.noConfusion h

namespace Value

/-- The token that a value without parts is. -/
def scalarToken : Value → Token
  | .int n => ⟨.integer, toString n, 0⟩
  | .decimal d => ⟨.decimal, d.text, 0⟩
  | .string s => ⟨.string, String.ofList (quote s.toList), 0⟩
  | v => ⟨.ident, v.text, 0⟩

/-- The token that a key is. -/
def keyToken (style : KeyStyle) (key : String) : Token :=
  if style.bare key then ⟨.ident, key, 0⟩ else (Value.string key).scalarToken

section

variable (style : KeyStyle)

mutual

/-- The text of a value. -/
def written : Value → List Char
  | .list items => '[' :: (writtenItems items ++ [']'])
  | .map entries => '\x7b' :: (writtenPairs entries ++ ['\x7d'])
  | v => (scalarToken v).text.toList

/-- Values with commas between them. -/
def writtenItems : List Value → List Char
  | [] => []
  | [v] => written v
  | v :: w :: vs => written v ++ ',' :: ' ' :: writtenItems (w :: vs)

/-- Pairs with commas between them. -/
def writtenPairs : List (String × Value) → List Char
  | [] => []
  | [(key, v)] => (keyToken style key).text.toList ++ ':' :: ' ' :: written v
  | (key, v) :: e :: es => (keyToken style key).text.toList ++
      ':' :: ' ' :: (written v ++ ',' :: ' ' :: writtenPairs (e :: es))

end

mutual

/-- The tokens of a written value. -/
def tokens : Value → List Token
  | .list items => mark .lBracket :: (itemTokens items ++ [mark .rBracket])
  | .map entries => mark .lBrace :: (pairTokens entries ++ [mark .rBrace])
  | v => [scalarToken v]

def itemTokens : List Value → List Token
  | [] => []
  | [v] => tokens v
  | v :: w :: vs => tokens v ++ mark .comma :: itemTokens (w :: vs)

def pairTokens : List (String × Value) → List Token
  | [] => []
  | [(key, v)] => keyToken style key :: mark .colon :: tokens v
  | (key, v) :: e :: es =>
    keyToken style key :: mark .colon :: (tokens v ++ mark .comma :: pairTokens (e :: es))

end

end

/-! ### Values that can be written -/

/-- A value without parts that a literal can stand for. -/
inductive Scalar : Value → Prop
  | bool (b : Bool) : Scalar (.bool b)
  | int {n : Int} (h : Int64 n) : Scalar (.int n)
  | decimal {d : Decimal} (h : d.Placed) : Scalar (.decimal d)
  | string (s : String) : Scalar (.string s)

/-- A value made of such scalars, where no mapping has a key twice. -/
inductive Writable : Value → Prop
  | scalar {v : Value} (h : Scalar v) : Writable v
  | list {items : List Value} (h : ∀ v ∈ items, Writable v) : Writable (.list items)
  | map {entries : List (String × Value)} (hkeys : (Dict.keys entries).Nodup)
      (h : ∀ e ∈ entries, Writable e.2) : Writable (.map entries)

/-- The ways to write a value as the argument of an option: as it is, and without the outer
brackets of two or more scalars or the outer braces of a pair or more. -/
inductive Argument (style : KeyStyle) : Value → List Char → Prop
  | whole (v : Value) : Argument style v (written style v)
  | items {items : List Value} (hitems : 2 ≤ items.length) (h : ∀ v ∈ items, Scalar v) :
      Argument style (.list items) (writtenItems style items)
  | pairs {entries : List (String × Value)} (hentries : entries ≠ []) :
      Argument style (.map entries) (writtenPairs style entries)

variable {style : KeyStyle} {v : Value} {rest : List Char} {ts : List Token}

/-- The token of a scalar is cut off, and its value is the scalar. -/
theorem Scalar.token (h : v.Scalar) :
    (∀ rest, Clear rest → Cuts v.scalarToken.kind v.scalarToken.text.toList rest) ∧
      v.scalarToken.kind ∈ [TokenKind.ident, .string, .integer, .decimal] ∧
      Literal.parse v.scalarToken.kind v.scalarToken.text = .ok v := by
  cases h with
  | bool b =>
      have hword : Lexer.isWord (Value.bool b).text.toList = true := by
        cases b <;> decide
      refine ⟨fun rest => Lexer.word_cuts hword, by simp [scalarToken], ?_⟩
      cases b <;> rfl
  | int h =>
      exact ⟨fun rest => integer_cuts _, by simp [scalarToken], Literal.parse_integer h⟩
  | decimal h =>
      refine ⟨fun rest => h.cuts, by simp [scalarToken], ?_⟩
      simp only [scalarToken, Literal.parse, h.parse_text]
  | string s =>
      refine ⟨fun rest _ => ?_, by simp [scalarToken], Literal.parse_string s⟩
      simp only [scalarToken, String.toList_ofList]
      exact Lexer.quote_cuts _ rest

theorem Scalar.written (h : v.Scalar) : v.written style = v.scalarToken.text.toList := by
  cases h <;> simp only [Value.written]

theorem Scalar.tokens (h : v.Scalar) : v.tokens style = [v.scalarToken] := by
  cases h <;> simp only [Value.tokens]

/-- The token of a key, which is a word or a quoted text. -/
theorem keyToken_token (style : KeyStyle) (key : String) :
    (∀ rest, Clear rest → Cuts (keyToken style key).kind (keyToken style key).text.toList rest) ∧
      (keyToken style key).kind ∈ [TokenKind.ident, .string] := by
  rw [keyToken]
  by_cases h : style.bare key = true
  · rw [if_pos h]
    exact ⟨fun rest => Lexer.word_cuts (style.word key h), List.mem_cons_self ..⟩
  · rw [if_neg h]
    exact ⟨(Scalar.string key).token.1, by simp [scalarToken]⟩

theorem Scalar.proper (h : v.Scalar) : v.scalarToken.isTrivia = false := by
  cases h <;> rfl

theorem keyToken_proper (style : KeyStyle) (key : String) :
    (keyToken style key).isTrivia = false := by
  rw [keyToken]
  split <;> rfl

/-! ### Cutting a written value -/

theorem Writable.head (h : v.Writable) (more : List Char) :
    ∀ c ∈ (written style v ++ more).head?, Lexer.isSpace c = false := by
  cases h with
  | scalar h =>
      rw [h.written]
      exact (h.token.1 [] .nil).head h.proper more
  | list | map =>
      rw [written]
      rintro _ ⟨⟩
      rfl

/-- Cutting a value off gives its tokens. -/
def Cuttable (style : KeyStyle) (v : Value) : Prop := ∀ {rest : List Char} {ts : List Token},
  Clear rest → Cut rest ts → Cut (written style v ++ rest) (tokens style v ++ ts)

theorem cut_items {items : List Value}
    (h : ∀ v ∈ items, v.Writable ∧ Cuttable style v) (hrest : Clear rest) (hcut : Cut rest ts) :
    Cut (writtenItems style items ++ rest) (itemTokens style items ++ ts) := by
  induction items with
  | nil => exact hcut
  | cons v vs ih =>
      obtain ⟨⟨-, hv⟩, hvs⟩ := List.forall_mem_cons.mp h
      cases vs with
      | nil => exact hv hrest hcut
      | cons w ws =>
          have hnext : ∀ c ∈ (writtenItems style (w :: ws) ++ rest).head?,
              Lexer.isSpace c = false := by
            have hw := (hvs w (List.mem_cons_self ..)).1
            cases ws with
            | nil => exact hw.head rest
            | cons => rw [writtenItems, List.append_assoc]; exact hw.head _
          rw [writtenItems, itemTokens, List.append_assoc, List.append_assoc]
          exact hv (clear_cons.mpr ⟨rfl, by decide⟩) (.mark rfl (.blank hnext (ih hvs)))

theorem cut_key (key : String) {cs : List Char} (h : Cut cs ts) :
    Cut ((keyToken style key).text.toList ++ ':' :: cs)
      (keyToken style key :: mark .colon :: ts) := by
  have htoken : keyToken style key = ⟨(keyToken style key).kind,
      String.ofList (keyToken style key).text.toList, 0⟩ := by
    rw [keyToken]
    split <;> simp [scalarToken]
  have hcut := Cut.token ((keyToken_token style key).1 (':' :: cs) (clear_cons.mpr ⟨rfl, by decide⟩))
    (keyToken_proper style key) (h.mark (rfl : Lexer.symbol .colon = some ':'))
  rwa [← htoken] at hcut

theorem cut_pairs {entries : List (String × Value)}
    (h : ∀ e ∈ entries, e.2.Writable ∧ Cuttable style e.2) (hrest : Clear rest)
    (hcut : Cut rest ts) :
    Cut (writtenPairs style entries ++ rest) (pairTokens style entries ++ ts) := by
  induction entries with
  | nil => exact hcut
  | cons e es ih =>
      obtain ⟨key, v⟩ := e
      obtain ⟨⟨hwritable, hv⟩, hes⟩ := List.forall_mem_cons.mp h
      cases es with
      | nil =>
          rw [writtenPairs, pairTokens, List.append_assoc]
          exact cut_key key (.blank (hwritable.head rest) (hv hrest hcut))
      | cons f fs =>
          have hnext : ∀ c ∈ (writtenPairs style (f :: fs) ++ rest).head?,
              Lexer.isSpace c = false := by
            have hf := ((keyToken_token style f.1).1 [] .nil).head (keyToken_proper style f.1)
            cases fs <;> rw [writtenPairs, List.append_assoc] <;> exact hf _
          rw [writtenPairs, pairTokens, List.append_assoc]
          simp only [List.cons_append, List.append_assoc]
          exact cut_key key (.blank (hwritable.head _)
            (hv (clear_cons.mpr ⟨rfl, by decide⟩) (.mark rfl (.blank hnext (ih hes)))))

/-- **The tokens of a written value**, in front of what does not go on its last token. -/
theorem Writable.cut (h : v.Writable) : Cuttable style v := by
  induction h with
  | @scalar v h =>
      intro rest ts hrest hcut
      have htoken : v.scalarToken = ⟨v.scalarToken.kind,
          String.ofList v.scalarToken.text.toList, 0⟩ := by
        cases h <;> simp [scalarToken]
      have htokens := Cut.token (h.token.1 rest hrest) h.proper hcut
      rwa [← htoken, ← h.written, ← List.singleton_append, ← h.tokens] at htokens
  | list hitems ih =>
      intro rest ts hrest hcut
      rw [written, tokens]
      simp only [List.cons_append, List.append_assoc, List.nil_append]
      exact .mark rfl (cut_items (fun v hv => ⟨hitems v hv, ih v hv⟩)
        (clear_cons.mpr ⟨rfl, by decide⟩) (.mark rfl hcut))
  | map _ hentries ih =>
      intro rest ts hrest hcut
      rw [written, tokens]
      simp only [List.cons_append, List.append_assoc, List.nil_append]
      exact .mark rfl (cut_pairs (fun e he => ⟨hentries e he, ih e he⟩)
        (clear_cons.mpr ⟨rfl, by decide⟩) (.mark rfl hcut))

/-! ### No doc comments -/

theorem undocumented_items {items : List Value}
    (h : ∀ v ∈ items, ∀ t ∈ tokens style v, t.kind ≠ .javadoc) :
    ∀ t ∈ itemTokens style items, t.kind ≠ .javadoc := by
  induction items with
  | nil => exact fun t ht => nomatch ht
  | cons v vs ih =>
      obtain ⟨hv, hvs⟩ := List.forall_mem_cons.mp h
      cases vs with
      | nil => exact hv
      | cons w ws =>
          rw [itemTokens]
          exact List.forall_mem_append.mpr
            ⟨hv, List.forall_mem_cons.mpr ⟨fun h => TokenKind.noConfusion h, ih hvs⟩⟩

theorem undocumented_pairs {entries : List (String × Value)}
    (h : ∀ e ∈ entries, ∀ t ∈ tokens style e.2, t.kind ≠ .javadoc) :
    ∀ t ∈ pairTokens style entries, t.kind ≠ .javadoc := by
  have hkey : ∀ key, (keyToken style key).kind ≠ .javadoc := fun key heq =>
    absurd (heq ▸ (keyToken_token style key).2) (by decide)
  have hmark : ∀ {kind : TokenKind}, kind ≠ .javadoc → (mark kind).kind ≠ .javadoc := fun h => h
  induction entries with
  | nil => exact fun t ht => nomatch ht
  | cons e es ih =>
      obtain ⟨key, v⟩ := e
      obtain ⟨hv, hes⟩ := List.forall_mem_cons.mp h
      cases es with
      | nil =>
          rw [pairTokens]
          exact List.forall_mem_cons.mpr ⟨hkey key, List.forall_mem_cons.mpr ⟨hmark (by decide), hv⟩⟩
      | cons f fs =>
          rw [pairTokens]
          exact List.forall_mem_cons.mpr ⟨hkey key, List.forall_mem_cons.mpr ⟨hmark (by decide),
            List.forall_mem_append.mpr
              ⟨hv, List.forall_mem_cons.mpr ⟨hmark (by decide), ih hes⟩⟩⟩⟩

/-- A written value has no doc comment. -/
theorem Writable.undocumented (h : v.Writable) : ∀ t ∈ tokens style v, t.kind ≠ .javadoc := by
  have hmark : ∀ {kind : TokenKind}, kind ≠ .javadoc → (mark kind).kind ≠ .javadoc := fun h => h
  induction h with
  | scalar h =>
      rw [h.tokens]
      refine List.forall_mem_singleton.mpr fun heq => ?_
      exact absurd (heq ▸ h.token.2.1) (by decide)
  | list _ ih =>
      rw [tokens]
      exact List.forall_mem_cons.mpr ⟨hmark (by decide), List.forall_mem_append.mpr
        ⟨undocumented_items ih, List.forall_mem_singleton.mpr (hmark (by decide))⟩⟩
  | map _ _ ih =>
      rw [tokens]
      exact List.forall_mem_cons.mpr ⟨hmark (by decide), List.forall_mem_append.mpr
        ⟨undocumented_pairs ih, List.forall_mem_singleton.mpr (hmark (by decide))⟩⟩

end Value

end DomainModel
