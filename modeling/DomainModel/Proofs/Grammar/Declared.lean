/-
Declarations as they are written.

A `Declaration` is an entity, an input, an output or an event with its fields; a field may
hold fields of its own, which declare its type.  `tokens` is how declarations are written,
with a comma behind every field, and `tree` how they are read.  No name is out of place: what
begins at a token is seen from the mark or the name behind it, or from its being no mark where
one has to stand, so words that have a meaning elsewhere are names like any other
(`accepts_declarations`).
-/
import DomainModel.Grammar.Source
import DomainModel.Proofs.Grammar.Written

namespace DomainModel

open Grammar
open Lexer (Cuts Solid isWord literalKinds mark)

namespace Declared

/-! ### Declarations -/

/-- A check on the value of a field, perhaps with a bound. -/
structure Check where
  word : String
  bound : Option String

/-- What a field is set to: a literal, or a word. -/
inductive Initial where
  | literal (kind : TokenKind) (text : String)
  | word (text : String)

/-- What is written of a field in front of the fields that it may hold. -/
structure Head where
  name : String
  type : String
  isArray : Bool
  table : Option String
  initial : Option Initial
  checks : List Check

/-- A field; one that holds fields may have more checks behind them. -/
inductive Field where
  | plain (head : Head)
  | block (head : Head) (inner : List Field) (behind : List Check)

def Field.head : Field → Head
  | plain head => head
  | block head _ _ => head

theorem Field.induct {P : Field → Prop} (plain : ∀ head, P (.plain head))
    (block : ∀ head inner behind, (∀ f ∈ inner, P f) → P (.block head inner behind)) :
    ∀ f, P f
  | .plain head => plain head
  | .block head inner behind => block head inner behind fun f _ => induct plain block f

inductive Keyword where
  | entity
  | input
  | output
  | event
  deriving DecidableEq

namespace Keyword

def text : Keyword → String
  | entity => "entity"
  | input => "input"
  | output => "output"
  | event => "event"

def kind : Keyword → NodeKind
  | entity => .entity
  | input => .input
  | output => .output
  | event => .event

end Keyword

structure Declaration where
  keyword : Keyword
  name : String
  fields : List Field

/-! ### What may be written -/

structure Check.Proper (c : Check) : Prop where
  word : c.word ∈ validationWords
  bound : ∀ text ∈ c.bound, Cuts .integer text.toList []

/-- Checks that are all different. -/
structure ProperChecks (checks : List Check) : Prop where
  each : ∀ c ∈ checks, c.Proper
  distinct : (checks.map Check.word).Nodup

def Initial.Proper : Initial → Prop
  | literal kind text => kind ∈ literalKinds ∧ Cuts kind text.toList []
  | word text => isWord text.toList = true

structure Head.Proper (h : Head) : Prop where
  name : isWord h.name.toList = true
  type : isWord h.type.toList = true
  table : ∀ name ∈ h.table, isWord name.toList = true
  initial : ∀ v ∈ h.initial, v.Proper
  checks : ProperChecks h.checks

/-- A field of identifiers, with different names for the fields that it holds. -/
inductive Field.Proper : Field → Prop
  | plain {head : Head} (h : head.Proper) : Proper (.plain head)
  | block {head : Head} {inner : List Field} {behind : List Check} (h : head.Proper)
      (each : ∀ f ∈ inner, f.Proper) (distinct : (inner.map (·.head.name)).Nodup)
      (checks : ProperChecks behind) : Proper (.block head inner behind)

structure Declaration.Proper (d : Declaration) : Prop where
  name : isWord d.name.toList = true
  each : ∀ f ∈ d.fields, f.Proper
  distinct : (d.fields.map (·.head.name)).Nodup

/-! ### Writing -/

def boundTokens : Option String → List Token
  | none => []
  | some text => [mark .lParen, ⟨.integer, text, 0⟩, mark .rParen]

def Check.tokens (c : Check) : List Token := Lexer.word c.word :: boundTokens c.bound

def Initial.token : Initial → Token
  | literal kind text => ⟨kind, text, 0⟩
  | word text => Lexer.word text

def arrayTokens : Bool → List Token
  | false => []
  | true => [mark .lBracket, mark .rBracket]

def tableTokens : Option String → List Token
  | none => []
  | some name => [mark .lParen, Lexer.word name, mark .rParen]

def initialTokens : Option Initial → List Token
  | none => []
  | some v => [mark .equals, v.token]

def Head.tokens (h : Head) : List Token :=
  Lexer.word h.name :: Lexer.word h.type :: (arrayTokens h.isArray ++ tableTokens h.table ++
    initialTokens h.initial ++ h.checks.flatMap Check.tokens)

mutual

def Field.tokens : Field → List Token
  | .plain head => head.tokens ++ [mark .comma]
  | .block head inner behind =>
    head.tokens ++ mark .lBrace :: (fieldTokens inner ++ mark .rBrace ::
      (behind.flatMap Check.tokens ++ [mark .comma]))

def fieldTokens : List Field → List Token
  | [] => []
  | f :: fs => f.tokens ++ fieldTokens fs

end

def Declaration.tokens (d : Declaration) : List Token :=
  Lexer.word d.keyword.text :: Lexer.word d.name :: mark .lBrace ::
    (fieldTokens d.fields ++ [mark .rBrace])

/-! ### Trees -/

def leaves (ts : List Token) : List Tree := ts.map .leaf

def Check.tree (c : Check) : Tree := .node .validation (leaves c.tokens)

def Initial.tree : Initial → Tree
  | literal kind text => Value.literalTree ⟨kind, text, 0⟩
  | word text => .leaf (Lexer.word text)

def nameTree (name : String) : Tree := .node .name [.leaf (Lexer.word name)]

def typeTree (h : Head) : Tree :=
  .node .fieldType (.leaf (Lexer.word h.type) :: leaves (arrayTokens h.isArray))

def tableTrees : Option String → List Tree
  | none => []
  | some name =>
    [.leaf (mark .lParen), .node .tableName [.leaf (Lexer.word name)], .leaf (mark .rParen)]

def initialTrees : Option Initial → List Tree
  | none => []
  | some v => [.leaf (mark .equals), .node .initialValue [v.tree]]

def Head.trees (h : Head) : List Tree :=
  nameTree h.name :: typeTree h :: (tableTrees h.table ++ initialTrees h.initial ++
    h.checks.map Check.tree)

mutual

def Field.tree : Field → Tree
  | .plain head => .node .field (head.trees ++ [.leaf (mark .comma)])
  | .block head inner behind =>
    .node .field (head.trees ++ [blockTree inner behind, .leaf (mark .comma)])

/-- The block of the fields that a field holds, with the checks behind it. -/
def blockTree (inner : List Field) (behind : List Check) : Tree :=
  .node .nestedField (.leaf (mark .lBrace) :: (fieldTrees inner ++ .leaf (mark .rBrace) ::
    behind.map Check.tree))

def fieldTrees : List Field → List Tree
  | [] => []
  | f :: fs => f.tree :: fieldTrees fs

end

theorem fieldTrees_eq (fs : List Field) : fieldTrees fs = fs.map Field.tree := by
  induction fs with
  | nil => rw [fieldTrees, List.map_nil]
  | cons f fs ih => rw [fieldTrees, ih, List.map_cons]

def Declaration.tree (d : Declaration) : Tree :=
  .node d.keyword.kind [.leaf (Lexer.word d.keyword.text), nameTree d.name,
    .node .declBody (.leaf (mark .lBrace) :: (fieldTrees d.fields ++ [.leaf (mark .rBrace)]))]

/-! ### Cutting -/

theorem Check.Proper.solid {c : Check} (h : c.Proper) : ∀ t ∈ c.tokens, Solid t := by
  have hwords : ∀ w ∈ validationWords, isWord w.toList = true := by decide
  have hword := Lexer.solid_word (hwords _ h.word)
  obtain ⟨w, bound⟩ := c
  cases bound with
  | none => exact List.forall_mem_singleton.mpr hword
  | some text =>
      refine List.forall_mem_cons.mpr ⟨hword, List.forall_mem_cons.mpr ⟨Lexer.solid_mark rfl,
        List.forall_mem_cons.mpr ⟨?_, List.forall_mem_singleton.mpr (Lexer.solid_mark rfl)⟩⟩⟩
      exact Lexer.solid_literal (h.bound text rfl) (by decide)

theorem ProperChecks.solid {checks : List Check} (h : ProperChecks checks) :
    ∀ t ∈ checks.flatMap Check.tokens, Solid t := by
  intro t ht
  obtain ⟨c, hc, ht⟩ := List.mem_flatMap.mp ht
  exact (h.each c hc).solid t ht

theorem Initial.Proper.solid {v : Initial} (h : v.Proper) : Solid v.token := by
  cases v with
  | literal kind text => exact Lexer.solid_literal h.2 h.1
  | word text => exact Lexer.solid_word h

theorem Head.Proper.solid {h : Head} (hh : h.Proper) : ∀ t ∈ h.tokens, Solid t := by
  have hmark {k : TokenKind} {c : Char} (hk : Lexer.symbol k = some c) := Lexer.solid_mark hk
  have harray : ∀ t ∈ arrayTokens h.isArray, Solid t := by
    cases h.isArray with
    | false => exact List.forall_mem_nil _
    | true => exact List.forall_mem_cons.mpr ⟨hmark rfl, List.forall_mem_singleton.mpr (hmark rfl)⟩
  have htable : ∀ t ∈ tableTokens h.table, Solid t := by
    cases hname : h.table with
    | none => exact List.forall_mem_nil _
    | some name =>
        exact List.forall_mem_cons.mpr ⟨hmark rfl, List.forall_mem_cons.mpr
          ⟨Lexer.solid_word (hh.table name hname), List.forall_mem_singleton.mpr (hmark rfl)⟩⟩
  have hinitial : ∀ t ∈ initialTokens h.initial, Solid t := by
    cases hvalue : h.initial with
    | none => exact List.forall_mem_nil _
    | some v =>
        exact List.forall_mem_cons.mpr ⟨hmark rfl,
          List.forall_mem_singleton.mpr (hh.initial v hvalue).solid⟩
  simp only [Head.tokens, List.forall_mem_cons, List.forall_mem_append]
  exact ⟨Lexer.solid_word hh.name, Lexer.solid_word hh.type, ⟨⟨harray, htable⟩, hinitial⟩,
    hh.checks.solid⟩

theorem solid_fields {fs : List Field} (h : ∀ f ∈ fs, ∀ t ∈ f.tokens, Solid t) :
    ∀ t ∈ fieldTokens fs, Solid t := by
  induction fs with
  | nil => exact List.forall_mem_nil _
  | cons f fs ih =>
      obtain ⟨hf, hfs⟩ := List.forall_mem_cons.mp h
      exact List.forall_mem_append.mpr ⟨hf, ih hfs⟩

theorem Field.Proper.solid {f : Field} (h : f.Proper) : ∀ t ∈ f.tokens, Solid t := by
  induction h with
  | plain h =>
      exact List.forall_mem_append.mpr ⟨h.solid, List.forall_mem_singleton.mpr (Lexer.solid_mark rfl)⟩
  | block h _ _ checks ih =>
      simp only [Field.tokens, List.forall_mem_append, List.forall_mem_cons]
      exact ⟨h.solid, Lexer.solid_mark rfl, solid_fields ih, Lexer.solid_mark rfl, checks.solid,
        Lexer.solid_mark rfl, List.forall_mem_nil _⟩

/-- **What declarations are made of can be cut out of a text.** -/
theorem Declaration.Proper.solid {d : Declaration} (h : d.Proper) : ∀ t ∈ d.tokens, Solid t := by
  have hkeyword : isWord d.keyword.text.toList = true := by cases d.keyword <;> decide
  simp only [Declaration.tokens, List.forall_mem_append, List.forall_mem_cons]
  exact ⟨Lexer.solid_word hkeyword, Lexer.solid_word h.name, Lexer.solid_mark rfl,
    solid_fields fun f hf => (h.each f hf).solid, Lexer.solid_mark rfl, List.forall_mem_nil _⟩

/-! ### Reading -/

/-- The next token is of one of these kinds. -/
def Next (kinds : List TokenKind) (ts : List Token) : Prop :=
  ∃ t us, ts = t :: us ∧ t.isTrivia = false ∧ t.kind ∈ kinds

section

variable {kinds others : List TokenKind} {ts rest : List Token} {test : Test}

theorem next_mark {k : TokenKind} (hk : k.isTrivia = false) (h : k ∈ kinds) (ts : List Token) :
    Next kinds (mark k :: ts) := ⟨_, _, rfl, hk, h⟩

theorem next_word (text : String) (h : .ident ∈ kinds) (ts : List Token) :
    Next kinds (Lexer.word text :: ts) := ⟨_, _, rfl, rfl, h⟩

theorem Next.mono (h : Next kinds ts) (hkinds : ∀ k ∈ kinds, k ∈ others) : Next others ts := by
  obtain ⟨t, us, rfl, ht, hmem⟩ := h
  exact ⟨t, us, rfl, ht, hkinds _ hmem⟩

theorem Next.not_kind (h : Next kinds ts) (hothers : ∀ k ∈ kinds, k ∉ others) :
    Test.holds ts (.kind 0 others) = false := by
  obtain ⟨t, us, rfl, ht, hmem⟩ := h
  simpa [Test.holds, ht] using hothers _ hmem

theorem Next.not_next (h : Next kinds ts) {k : TokenKind} (hk : k ∉ kinds) :
    (Test.next k).holds ts = false :=
  h.not_kind fun _ hmem heq => hk (List.mem_singleton.mp heq ▸ hmem)

theorem Next.not_both (h : Next kinds ts) {k : TokenKind} (hk : k ∉ kinds) (test : Test) :
    Test.holds ts (.both (.next k) test) = false := by
  rw [Test.holds, h.not_next hk, Bool.false_and]

theorem Next.not_word (h : Next kinds ts) (hkinds : .ident ∉ kinds) (words : List String) :
    Test.holds ts (.word 0 words) = false := by
  obtain ⟨t, us, rfl, ht, hmem⟩ := h
  have hident : t.kind ≠ .ident := fun heq => hkinds (heq ▸ hmem)
  simp [Test.holds, ht, Token.isWord, hident]

theorem accepts_bound (bound : Option String) (h : Next [.ident, .lBrace, .comma] rest) :
    Accepts (.ifThen (.next .lParen)
      (.take ++ .whileDo (.both (.negation (.kind 0 [.rParen, .rBrace])) (.negation (.ends 0))) .take ++
        .expect .rParen) .nothing)
      (boundTokens bound ++ rest) (leaves (boundTokens bound)) rest := by
  cases bound with
  | none => exact Reads.no (h.not_next (by decide)) Reads.nothing
  | some text =>
      exact Reads.yes rfl (Accepts.seq (Accepts.seq (Accepts.take rfl)
        (Accepts.again rfl (Accepts.take rfl) (Accepts.done rfl))) (Accepts.expect_mark .rParen rfl))

theorem accepts_checks {checks : List Check} (h : ∀ c ∈ checks, c.word ∈ validationWords)
    (hrest : Next [.lBrace, .comma] rest) :
    Accepts validations (checks.flatMap Check.tokens ++ rest) (checks.map Check.tree) rest := by
  induction checks with
  | nil => exact Accepts.done (hrest.not_word (by decide) _)
  | cons c cs ih =>
      obtain ⟨hc, hcs⟩ := List.forall_mem_cons.mp h
      have hnext : Next [.ident, .lBrace, .comma] (cs.flatMap Check.tokens ++ rest) := by
        cases cs with
        | nil => exact hrest.mono (by decide)
        | cons c cs => exact next_word _ (by decide) _
      have hahead (ts : List Token) : validationAhead.holds (Lexer.word c.word :: ts) = true := by
        have hword : (Lexer.word c.word).isTrivia = false := rfl
        simpa [validationAhead, Test.holds, hword] using hc
      rw [List.flatMap_cons, List.append_assoc, Check.tokens, List.cons_append]
      exact Accepts.again (hahead _) (Accepts.node rfl
        (Accepts.seq (Accepts.take rfl) (accepts_bound c.bound hnext))) (ih hcs)

theorem accepts_initial {initial : Option Initial} (h : ∀ v ∈ initial, v.Proper)
    (hrest : Next [.ident, .lBrace, .comma] rest) :
    Accepts (.ifThen (.next .equals) (.take ++ Grammar.initialValue) .nothing)
      (initialTokens initial ++ rest) (initialTrees initial) rest := by
  cases initial with
  | none => exact Reads.no (hrest.not_next (by decide)) Reads.nothing
  | some v =>
      have hv := h v rfl
      refine Reads.yes rfl (Accepts.seq (Accepts.take rfl) ?_)
      cases v with
      | literal kind text =>
          have hkinds : ∀ k ∈ literalKinds, k.isTrivia = false ∧
              k ∈ [TokenKind.string, .integer, .decimal] ∧
              k ∈ [TokenKind.ident, .string, .integer, .decimal] := by decide
          obtain ⟨hproper, hkind, hsimple⟩ := hkinds kind hv.1
          have htoken : (Initial.literal kind text).token.isTrivia = false := hproper
          have htest : Test.holds ((Initial.literal kind text).token :: rest)
              (.kind 0 [.string, .integer, .decimal]) = true := by
            rw [Test.holds, ahead?_zero htoken]
            exact List.contains_iff_mem.mpr hkind
          exact Accepts.node hproper (Reads.yes htest (Value.accepts_literal hproper hsimple))
      | word text =>
          exact Accepts.node rfl (Reads.no rfl (Reads.yes rfl (Accepts.seq
            (Accepts.seq (Accepts.take rfl) (Accepts.done (hrest.not_both (by decide) _)))
            (Reads.no (hrest.not_both (by decide) _) Reads.nothing))))

theorem accepts_table (table : Option String)
    (hrest : Next [.equals, .ident, .lBrace, .comma] rest) :
    Accepts Grammar.tableName (tableTokens table ++ rest) (tableTrees table) rest := by
  cases table with
  | none => exact Reads.no (hrest.not_next (by decide)) Reads.nothing
  | some name =>
      exact Reads.yes rfl (Accepts.seq (Accepts.seq (Accepts.take rfl) (Accepts.identifier rfl))
        (Accepts.expect_mark .rParen rfl))

theorem accepts_type (h : Head) (hrest : Next [.lParen, .equals, .ident, .lBrace, .comma] rest) :
    Accepts Grammar.fieldType (Lexer.word h.type :: (arrayTokens h.isArray ++ rest)) [typeTree h]
      rest := by
  rw [typeTree]
  refine Reads.yes rfl (Accepts.node rfl (Accepts.seq (Accepts.take rfl) ?_))
  cases h.isArray with
  | true => exact Reads.yes rfl (Accepts.seq (Accepts.take rfl) (Accepts.take rfl))
  | false => exact Reads.no (hrest.not_both (by decide) _) Reads.nothing

theorem accepts_head {h : Head} (hh : h.Proper) (hrest : Next [.lBrace, .comma] rest) :
    Accepts (preamble ++ Grammar.name ++ Grammar.fieldType ++ Grammar.tableName ++
      .ifThen (.next .equals) (.take ++ Grammar.initialValue) .nothing ++ validations)
      (h.tokens ++ rest) h.trees rest := by
  have hchecks := accepts_checks (fun c hc => (hh.checks.each c hc).word) hrest
  have hafter : Next [.ident, .lBrace, .comma] (h.checks.flatMap Check.tokens ++ rest) := by
    cases h.checks with
    | nil => exact hrest.mono (by decide)
    | cons c cs => exact next_word _ (by decide) _
  have hinitial := accepts_initial hh.initial hafter
  have hset : Next [.equals, .ident, .lBrace, .comma]
      (initialTokens h.initial ++ (h.checks.flatMap Check.tokens ++ rest)) := by
    cases h.initial with
    | none => exact hafter.mono (by decide)
    | some v => exact next_mark rfl (by decide) _
  have htable := accepts_table h.table hset
  have hnamed : Next [.lParen, .equals, .ident, .lBrace, .comma] (tableTokens h.table ++
      (initialTokens h.initial ++ (h.checks.flatMap Check.tokens ++ rest))) := by
    cases h.table with
    | none => exact hset.mono (by decide)
    | some name => exact next_mark rfl (by decide) _
  have htype := accepts_type h hnamed
  have hname (ts : List Token) : Accepts (preamble ++ Grammar.name) (Lexer.word h.name :: ts)
      [nameTree h.name] ts :=
    Accepts.seq (Accepts.seq (Accepts.accept_none rfl) (Accepts.done rfl)) (Accepts.identifier rfl)
  have hall := Accepts.seq (Accepts.seq (Accepts.seq (Accepts.seq (hname _) htype) htable) hinitial)
    hchecks
  simpa only [Head.tokens, Head.trees, List.cons_append, List.append_assoc, List.nil_append] using hall

/-- A field is read as its tree, in front of another field or the end of a block. -/
def Field.Readable (f : Field) : Prop :=
  ∀ {rest}, Next [.ident, .rBrace] rest → Accepts (.call .field) (f.tokens ++ rest) [f.tree] rest

theorem accepts_fields {fs : List Field} (h : ∀ f ∈ fs, f.Readable) (rest : List Token) :
    Accepts fields (fieldTokens fs ++ mark .rBrace :: rest) (fieldTrees fs)
      (mark .rBrace :: rest) := by
  induction fs with
  | nil =>
      rw [fieldTokens, fieldTrees]
      exact Accepts.done rfl
  | cons f fs ih =>
      obtain ⟨hf, hfs⟩ := List.forall_mem_cons.mp h
      have hbegins (f : Field) : ∃ ts, f.tokens = Lexer.word f.head.name :: ts := by
        cases f <;> exact ⟨_, rfl⟩
      have hnext : Next [.ident, .rBrace] (fieldTokens fs ++ mark .rBrace :: rest) := by
        cases fs with
        | nil => exact next_mark rfl (by decide) _
        | cons g gs =>
            obtain ⟨ts, hts⟩ := hbegins g
            rw [fieldTokens, hts]
            exact next_word _ (by decide) _
      have hfield := hf hnext
      obtain ⟨ts, hts⟩ := hbegins f
      rw [hts] at hfield
      rw [fieldTokens, fieldTrees, hts, List.append_assoc]
      exact Accepts.again rfl (Reads.yes rfl hfield) (ih hfs)

theorem accepts_block {inner : List Field} {behind : List Check} (hinner : ∀ f ∈ inner, f.Readable)
    (hbehind : ProperChecks behind) (hrest : Next [.lBrace, .comma] rest) :
    Accepts nestedField (mark .lBrace :: (fieldTokens inner ++ mark .rBrace ::
      (behind.flatMap Check.tokens ++ rest))) [blockTree inner behind] rest := by
  rw [blockTree]
  refine Reads.yes rfl (Accepts.node rfl ?_)
  have hopen (ts : List Token) : Accepts .take (mark .lBrace :: ts) [.leaf (mark .lBrace)] ts :=
    Accepts.take rfl
  have hall := Accepts.seq (Accepts.seq (Accepts.seq (hopen _) (accepts_fields hinner _))
    (Accepts.expect_mark .rBrace rfl))
    (accepts_checks (fun c hc => (hbehind.each c hc).word) hrest)
  simpa only [List.cons_append, List.append_assoc, List.nil_append] using hall

theorem accepts_comment (h : Next kinds ts) (hkinds : .javadoc ∉ kinds) :
    Accepts suffixJavadoc ts [] ts := Reads.no (h.not_both hkinds _) Reads.nothing

/-- **A field is read as its tree.** -/
theorem Field.Proper.readable {f : Field} (h : f.Proper) : f.Readable := by
  induction h with
  | plain h =>
      intro rest hrest
      have hcomma : Next [.lBrace, .comma] (mark .comma :: rest) := next_mark rfl (by decide) _
      have hblock : Accepts nestedField (mark .comma :: rest) [] (mark .comma :: rest) :=
        Reads.no rfl Reads.nothing
      have hall := Accepts.seq (Accepts.seq (Accepts.seq (Accepts.seq (accepts_head h hcomma)
        (accepts_comment hcomma (by decide))) hblock)
        (Accepts.accept_mark .comma rfl)) (accepts_comment hrest (by decide))
      rw [List.append_nil, List.append_nil, List.append_nil] at hall
      rw [Field.tokens, Field.tree, List.append_assoc]
      exact Reads.call (Accepts.node rfl hall)
  | @block head inner behind h _ _ hbehind ih =>
      intro rest hrest
      have hopen (ts : List Token) : Next [.lBrace, .comma] (mark .lBrace :: ts) :=
        next_mark rfl (by decide) _
      have hcomma : Next [.lBrace, .comma] (mark .comma :: rest) := next_mark rfl (by decide) _
      have hall := Accepts.seq (Accepts.seq (Accepts.seq (Accepts.seq (accepts_head h (hopen _))
        (accepts_comment (hopen _) (by decide))) (accepts_block ih hbehind hcomma))
        (Accepts.accept_mark .comma rfl)) (accepts_comment hrest (by decide))
      have htokens : (Field.block head inner behind).tokens ++ rest =
          head.tokens ++ mark .lBrace :: (fieldTokens inner ++ mark .rBrace ::
            (behind.flatMap Check.tokens ++ mark .comma :: rest)) := by
        simp only [Field.tokens, List.append_assoc, List.cons_append, List.nil_append]
      rw [List.append_nil, List.append_nil, List.append_assoc, List.singleton_append] at hall
      rw [htokens, Field.tree]
      exact Reads.call (Accepts.node rfl hall)

theorem Declaration.Proper.body {d : Declaration} (h : d.Proper) (rest : List Token) :
    Accepts (declarationRest .take d.keyword.kind) (d.tokens ++ rest) d.tree.children rest := by
  obtain ⟨keyword, name, fs⟩ := d
  have hfields := accepts_fields (fun f hf => (h.each f hf).readable) rest
  have hopen (ts : List Token) : Accepts .take (mark .lBrace :: ts) [.leaf (mark .lBrace)] ts :=
    Accepts.take rfl
  have hbody : Accepts declBody (mark .lBrace :: (fieldTokens fs ++ mark .rBrace :: rest))
      [.node .declBody (.leaf (mark .lBrace) :: (fieldTrees fs ++ [.leaf (mark .rBrace)]))] rest :=
    Accepts.node rfl (Reads.yes rfl (Accepts.seq (Accepts.seq (hopen _) hfields)
      (Accepts.expect_mark .rBrace rfl)))
  have hname (ts : List Token) : Accepts (.take ++ Grammar.name)
      (Lexer.word keyword.text :: Lexer.word name :: ts)
      [.leaf (Lexer.word keyword.text), nameTree name] ts :=
    Accepts.seq (Accepts.take rfl) (Accepts.identifier rfl)
  have htable (ts : List Token) : Accepts Grammar.tableName (mark .lBrace :: ts) []
      (mark .lBrace :: ts) := Reads.no rfl Reads.nothing
  have htokens : Declaration.tokens ⟨keyword, name, fs⟩ ++ rest = Lexer.word keyword.text ::
      Lexer.word name :: mark .lBrace :: (fieldTokens fs ++ mark .rBrace :: rest) := by
    simp only [Declaration.tokens, List.append_assoc, List.cons_append, List.nil_append]
  rw [htokens]
  cases keyword with
  | entity => exact Accepts.seq (Accepts.seq (hname _) (htable _)) hbody
  | input | output | event => exact Accepts.seq (hname _) hbody

/-- A declaration begins with its keyword, and with it alone. -/
theorem Declaration.Proper.accepts {d : Declaration} (h : d.Proper) (rest : List Token) :
    Accepts member (d.tokens ++ rest) [d.tree] rest := by
  have hbody := h.body rest
  obtain ⟨keyword, name, fs⟩ := d
  have hdeclaration : Accepts declaration (Declaration.tokens ⟨keyword, name, fs⟩ ++ rest)
      [Declaration.tree ⟨keyword, name, fs⟩] rest := by
    refine Reads.no rfl (Reads.no rfl (Accepts.headed rfl Accepts.nothing ?_ hbody))
    cases keyword <;> rfl
  cases keyword <;> exact Reads.no rfl (Reads.no rfl (Reads.no rfl (Reads.no rfl (Reads.no rfl
    (Reads.no rfl (Reads.no rfl (Reads.no rfl (Reads.yes rfl hdeclaration))))))))

/-- **Declarations are read as their trees**, whatever their names are. -/
theorem accepts_declarations {ds : List Declaration} (h : ∀ d ∈ ds, d.Proper) :
    Accepts source (ds.flatMap Declaration.tokens) (ds.map Declaration.tree) [] := by
  have hmembers : Accepts (.whileDo (.negation (.ends 0)) member)
      (ds.flatMap Declaration.tokens) (ds.map Declaration.tree) [] := by
    induction ds with
    | nil => exact Accepts.done rfl
    | cons d ds ih =>
        obtain ⟨hd, hds⟩ := List.forall_mem_cons.mp h
        exact Accepts.again rfl (hd.accepts _) (ih hds)
  have hcomment : Accepts globalJavadoc (ds.flatMap Declaration.tokens) []
      (ds.flatMap Declaration.tokens) := by
    cases ds with
    | nil => exact Reads.no rfl Reads.nothing
    | cons d ds => exact Reads.no rfl Reads.nothing
  have hend : Accepts .trivia [] [] [] := Reads.trivia
  have hall := Accepts.seq (Accepts.seq hcomment hmembers) hend
  rwa [List.nil_append, List.append_nil] at hall

end

end Declared

end DomainModel
