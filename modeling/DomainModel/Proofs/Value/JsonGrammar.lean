/-
What JSON texts say.

`Json.Denotes` is the grammar: which texts are JSON, and for which value.  White space may
stand around every value and every key.  Strings may be escaped in several ways, and numbers
with places or a power of ten are decimals; members of mappings are kept one by one, as they
are written.

`Json.read?` is a reader of such texts.  It decides by the next character, takes as many digits
as there are, and recurses with a bound on the depth that a text cannot exceed, as every
bracket takes a character.  `Denotes.read` says that it accepts every JSON text and finds the
value that it is for, so no text stands for two values.  The induction is on the grammar; what
carries it is that a value is read off in front of anything that cannot go on a number.
-/
import DomainModel.Proofs.Text.Lines
import DomainModel.Proofs.Value.Literal
import DomainModel.Value.Json
import Mathlib.Algebra.Group.Nat.Defs

namespace DomainModel.Json

open Lexer (Clear Digits clear_cons sign)
open Text (joinWith joinWith_cons length_piece length_pieces)

/-! ### The grammar -/

def isGap (c : Char) : Bool := c == ' ' || c == '\t' || c == '\n' || c == '\r'

/-- White space between the parts of a text. -/
def Gap (cs : List Char) : Prop := ∀ c ∈ cs, isGap c = true

/-- What a backslash makes of the character behind it. -/
def shortEscapes : List (Char × Char) :=
  [('"', '"'), ('\\', '\\'), ('/', '/'), ('b', '\x08'), ('f', '\x0c'), ('n', '\n'), ('r', '\r'),
    ('t', '\t')]

/-- The value of a hexadecimal digit. -/
def hexValue? (c : Char) : Option Nat := "0123456789abcdef".toList.idxOf? c.toLower

/-- The number that four hexadecimal digits are. -/
def code? (ds : List Char) : Option Nat :=
  if ds.length = 4 then ds.foldlM (fun n d => (hexValue? d).map (16 * n + ·)) 0 else none

/-- The first number of a pair that stands for one character. -/
def isHigh (n : Nat) : Bool := 0xD800 ≤ n && n < 0xDC00

/-- The second number of such a pair. -/
def isLow (n : Nat) : Bool := 0xDC00 ≤ n && n < 0xE000

/-- The character that a pair stands for. -/
def paired (high low : Nat) : Char :=
  Char.ofNat (0x10000 + (high - 0xD800) * 0x400 + (low - 0xDC00))

/-- A character of a string, as it is or escaped. -/
inductive Letter : List Char → Char → Prop
  | plain {c : Char} (hquote : c ≠ '"') (hslash : c ≠ '\\') (hcontrol : 0x20 ≤ c.toNat) :
      Letter [c] c
  | short {mark c : Char} (h : (mark, c) ∈ shortEscapes) : Letter ['\\', mark] c
  | code {ds : List Char} {n : Nat} (h : code? ds = some n) (hhigh : isHigh n = false)
      (hlow : isLow n = false) : Letter ('\\' :: 'u' :: ds) (Char.ofNat n)
  | pair {ds es : List Char} {m n : Nat} (hds : code? ds = some m) (hhigh : isHigh m = true)
      (hes : code? es = some n) (hlow : isLow n = true) :
      Letter ('\\' :: 'u' :: (ds ++ '\\' :: 'u' :: es)) (paired m n)

/-- A power of ten behind a number. -/
structure Power where
  mark : Char
  front : List Char
  digits : List Char
  mark_mem : mark ∈ ['e', 'E']
  front_mem : front ∈ [[], ['+'], ['-']]
  digits_digits : Digits digits

namespace Power

def written (p : Power) : List Char := p.mark :: (p.front ++ p.digits)

def exponent (p : Power) : Int :=
  signed (p.front == ['-']) (Nat.ofDigitChars 10 p.digits 0)

end Power

/-- A number: no zero stands in front of another digit, and behind a point are digits. -/
structure Numeral where
  negative : Bool
  whole : List Char
  places : List Char
  power : Option Power
  whole_digits : Digits whole
  whole_zero : whole.head? = some '0' → whole = ['0']
  places_digits : ∀ c ∈ places, c.isDigit = true

/-- A number without places and power is an integer, any other one a decimal. -/
def number (negative : Bool) (whole places : List Char) (power : Option Int) : Value :=
  let digits := Nat.ofDigitChars 10 (whole ++ places) 0
  match places, power with
  | [], none => .int (signed negative digits)
  | _, _ =>
    let shift := power.getD 0 - places.length
    .decimal ⟨signed negative (digits * 10 ^ shift.toNat), (-shift).toNat⟩

namespace Numeral

def pointed (places : List Char) : List Char := if places.isEmpty then [] else '.' :: places

def written (n : Numeral) : List Char :=
  sign n.negative ++ (n.whole ++ (pointed n.places ++ (n.power.map Power.written).getD []))

def value (n : Numeral) : Value :=
  number n.negative n.whole n.places (n.power.map Power.exponent)

end Numeral

/-- A member of a mapping: the text of its key with the key, and the same of its value. -/
structure Member where
  keyText : List Char
  key : String
  text : List Char
  value : Value

namespace Member

def written (m : Member) : List Char := m.keyText ++ ':' :: m.text

def entry (m : Member) : String × Value := (m.key, m.value)

end Member

/-- The text is JSON, and stands for the value. -/
inductive Denotes : List Char → Value → Prop
  | null : Denotes "null".toList .null
  | yes : Denotes "true".toList (.bool true)
  | no : Denotes "false".toList (.bool false)
  | number (n : Numeral) : Denotes n.written n.value
  | string {letters : List (List Char × Char)} (h : ∀ e ∈ letters, Letter e.1 e.2) :
      Denotes ('"' :: (letters.flatMap (·.1) ++ ['"'])) (.string (String.ofList (letters.map (·.2))))
  | list {items : List (List Char × Value)} {gap : List Char} (h : ∀ e ∈ items, Denotes e.1 e.2)
      (hgap : Gap gap) :
      Denotes ('[' :: (joinWith [','] (items.map (·.1)) ++ (gap ++ [']']))) (.list (items.map (·.2)))
  | map {members : List Member} {gap : List Char}
      (hkeys : ∀ m ∈ members, Denotes m.keyText (.string m.key))
      (h : ∀ m ∈ members, Denotes m.text m.value) (hgap : Gap gap) :
      Denotes ('\x7b' :: (joinWith [','] (members.map Member.written) ++ (gap ++ ['\x7d'])))
        (.map (members.map Member.entry))
  | spaced {before cs after : List Char} {v : Value} (hbefore : Gap before) (hafter : Gap after)
      (h : Denotes cs v) : Denotes (before ++ (cs ++ after)) v

/-! ### The reader -/

/-- A reader takes something off the front of a text and returns what is left. -/
abbrev Reader (α : Type) := List Char → Option (α × List Char)

def skip (cs : List Char) : List Char := cs.dropWhile isGap

def readCode : Reader Nat := fun cs => (code? (cs.take 4)).map (·, cs.drop 4)

def readLetter : Reader Char
  | '\\' :: 'u' :: cs => do
    let (m, rest) ← readCode cs
    if isHigh m then
      match rest with
      | '\\' :: 'u' :: rest =>
        let (n, rest) ← readCode rest
        if isLow n then some (paired m n, rest) else none
      | _ => none
    else if isLow m then none
    else some (Char.ofNat m, rest)
  | '\\' :: mark :: cs => (shortEscapes.lookup mark).map (·, cs)
  | c :: cs => if c = '"' ∨ c = '\\' ∨ c.toNat < 0x20 then none else some (c, cs)
  | [] => none

/-- Reads characters up to the closing quote. -/
def readLetters : Nat → Reader (List Char)
  | 0, _ => none
  | _ + 1, '"' :: cs => some ([], cs)
  | bound + 1, cs => do
    let (c, rest) ← readLetter cs
    let (letters, rest) ← readLetters bound rest
    return (c :: letters, rest)

def readDigits : Reader (List Char) := fun cs =>
  let digits := cs.takeWhile Char.isDigit
  if digits.isEmpty then none else some (digits, cs.dropWhile Char.isDigit)

/-- Reads a sign, if there is one. -/
def readSign (marks : List Char) : List Char → Bool × List Char
  | [] => (false, [])
  | c :: cs => if c ∈ marks then (c == '-', cs) else (false, c :: cs)

def readPlaces : Reader (List Char)
  | '.' :: cs => readDigits cs
  | cs => some ([], cs)

def readPower : Reader (Option Int)
  | [] => some (none, [])
  | c :: cs =>
    if c ∈ ['e', 'E'] then
      let (negative, cs) := readSign ['+', '-'] cs
      (readDigits cs).map fun (digits, rest) =>
        (some (signed negative (Nat.ofDigitChars 10 digits 0)), rest)
    else some (none, c :: cs)

def readNumber : Reader Value := fun cs => do
  let (negative, cs) := readSign ['-'] cs
  let (whole, cs) ← readDigits cs
  if whole.head? = some '0' ∧ whole ≠ ['0'] then none
  let (places, cs) ← readPlaces cs
  let (power, rest) ← readPower cs
  return (number negative whole places power, rest)

section

variable {α : Type}

/-- Reads items with commas between them up to the closing mark. -/
def readRow (item : Reader α) (close : Char) : Nat → Reader (List α)
  | 0, _ => none
  | bound + 1, cs => do
    let (a, rest) ← item cs
    match rest with
    | [] => none
    | c :: rest =>
      if c = ',' then (readRow item close bound rest).map fun (items, rest) => (a :: items, rest)
      else if c = close then some ([a], rest)
      else none

/-- Reads the closing mark. -/
def readClose (close : Char) : Reader (List α) := fun cs =>
  match skip cs with
  | [] => none
  | c :: rest => if c = close then some ([], rest) else none

/-- Reads a row of items, which may be empty. -/
def readAll (item : Reader α) (close : Char) : Reader (List α) := fun cs =>
  (readRow item close cs.length cs).or (readClose close cs)

end

def readMember (read : Reader Value) : Reader (String × Value) := fun cs =>
  match read cs with
  | some (.string key, ':' :: rest) => (read rest).map fun (v, rest) => ((key, v), rest)
  | _ => none

/-- Reads a value that begins here, where `read` reads the values inside. -/
def readBare (read : Reader Value) : Reader Value
  | 'n' :: 'u' :: 'l' :: 'l' :: cs => some (.null, cs)
  | 't' :: 'r' :: 'u' :: 'e' :: cs => some (.bool true, cs)
  | 'f' :: 'a' :: 'l' :: 's' :: 'e' :: cs => some (.bool false, cs)
  | '"' :: cs =>
    (readLetters cs.length cs).map fun (letters, rest) => (.string (String.ofList letters), rest)
  | '[' :: cs => (readAll read ']' cs).map fun (items, rest) => (.list items, rest)
  | '\x7b' :: cs =>
    (readAll (readMember read) '\x7d' cs).map fun (entries, rest) => (.map entries, rest)
  | cs => readNumber cs

/-- Reads a value with the white space around it, at most `depth` containers deep. -/
def readValue : Nat → Reader Value
  | 0, _ => none
  | depth + 1, cs => (readBare (readValue depth) (skip cs)).map fun (v, rest) => (v, skip rest)

/-- The value of a JSON text. -/
def read? (text : String) : Option Value :=
  match readValue text.toList.length text.toList with
  | some (v, []) => some v
  | _ => none

/-! ### White space -/

theorem skip_gap {gap : List Char} (h : Gap gap) (cs : List Char) : skip (gap ++ cs) = skip cs :=
  List.dropWhile_append_of_pos h

theorem skip_cons {c : Char} (h : isGap c = false) (cs : List Char) : skip (c :: cs) = c :: cs := by
  rw [skip, List.dropWhile_cons_of_neg (by simp [h])]

/-- White space goes on no number. -/
theorem clear_gap {gap rest : List Char} (h : Gap gap) (hrest : Clear rest) :
    Clear (gap ++ rest) := by
  cases gap with
  | nil => exact hrest
  | cons c gap =>
      have hc : isGap c = true := h c (List.mem_cons_self ..)
      simp only [isGap, Bool.or_eq_true, beq_iff_eq] at hc
      refine clear_cons.mpr ?_
      rcases hc with ((rfl | rfl) | rfl) | rfl <;> decide

/-! ### Strings -/

theorem readCode_append {ds : List Char} {n : Nat} (h : code? ds = some n) (rest : List Char) :
    readCode (ds ++ rest) = some (n, rest) := by
  have hlength : ds.length = 4 := by
    by_contra hlength
    rw [code?, if_neg hlength] at h
    cases h
  rw [readCode, List.take_left' hlength, List.drop_left' hlength, h]
  rfl

/-- **A character of a string is read as what it stands for**, and none begins with a quote. -/
theorem Letter.read {cs : List Char} {c : Char} (h : Letter cs c) (rest : List Char) :
    readLetter (cs ++ rest) = some (c, rest) ∧ ∃ d ds, cs = d :: ds ∧ d ≠ '"' := by
  cases h with
  | plain hquote hslash hcontrol =>
      refine ⟨?_, _, _, rfl, hquote⟩
      rw [List.singleton_append, readLetter]
      · exact if_neg (by simp [hquote, hslash, hcontrol])
      · exact fun _ heq _ => hslash heq
      · exact fun _ _ heq _ => hslash heq
  | short h =>
      refine ⟨?_, _, _, rfl, by decide⟩
      simp only [shortEscapes, List.mem_cons, Prod.mk.injEq, List.not_mem_nil, or_false] at h
      rcases h with h | h | h | h | h | h | h | h <;> obtain ⟨rfl, rfl⟩ := h <;> rfl
  | code h hhigh hlow =>
      refine ⟨?_, _, _, rfl, by decide⟩
      simp only [List.cons_append, readLetter, readCode_append h, Option.bind_eq_bind,
        Option.bind_some, hhigh, hlow, Bool.false_eq_true, if_false]
  | pair hds hhigh hes hlow =>
      refine ⟨?_, _, _, rfl, by decide⟩
      simp only [List.cons_append, List.append_assoc, readLetter, readCode_append hds,
        readCode_append hes, Option.bind_eq_bind, Option.bind_some, hhigh, hlow, if_true]

theorem readLetters_append {letters : List (List Char × Char)} (h : ∀ e ∈ letters, Letter e.1 e.2)
    (rest : List Char) : ∀ {bound : Nat}, letters.length < bound →
      readLetters bound (letters.flatMap (·.1) ++ '"' :: rest) =
        some (letters.map (·.2), rest) := by
  induction letters with
  | nil =>
      intro bound hbound
      obtain ⟨bound, rfl⟩ := Nat.exists_eq_succ_of_ne_zero (Nat.ne_of_gt hbound)
      rfl
  | cons e letters ih =>
      obtain ⟨he, hletters⟩ := List.forall_mem_cons.mp h
      intro bound hbound
      obtain ⟨bound, rfl⟩ := Nat.exists_eq_succ_of_ne_zero (Nat.ne_zero_of_lt hbound)
      obtain ⟨hread, d, ds, hd, hquote⟩ := he.read (letters.flatMap (·.1) ++ '"' :: rest)
      rw [List.flatMap_cons, List.append_assoc, readLetters]
      · simp only [hread, Option.bind_eq_bind, Option.bind_some,
          ih hletters (Nat.lt_of_succ_lt_succ hbound)]
        rfl
      · intro cs heq
        rw [hd] at heq
        exact hquote (List.cons.inj heq).1

/-- There are as many characters to read as the text has, at least. -/
theorem length_letters {letters : List (List Char × Char)} (h : ∀ e ∈ letters, Letter e.1 e.2) :
    letters.length ≤ (letters.flatMap (·.1)).length := by
  induction letters with
  | nil => exact Nat.le_refl _
  | cons e letters ih =>
      obtain ⟨he, hletters⟩ := List.forall_mem_cons.mp h
      obtain ⟨-, d, ds, hd, -⟩ := he.read []
      have := ih hletters
      rw [List.flatMap_cons, List.length_append, hd, List.length_cons, List.length_cons]
      omega

/-! ### Numbers -/

theorem not_isDigit_of_clear {rest : List Char} (h : Clear rest) :
    ∀ c ∈ rest.head?, c.isDigit = false := by
  intro c hc
  by_contra hdigit
  have hpart := Lexer.isWordPart_of_isDigit (by simpa using hdigit)
  exact Bool.noConfusion ((h c hc).1.symm.trans hpart)

/-- Digits are read as far as they go. -/
theorem readDigits_append {ds rest : List Char} (h : Digits ds)
    (hrest : ∀ c ∈ rest.head?, c.isDigit = false) : readDigits (ds ++ rest) = some (ds, rest) := by
  have hall : ∀ c ∈ ds, c.isDigit = true := h.2
  have htake : rest.takeWhile Char.isDigit = [] ∧ rest.dropWhile Char.isDigit = rest := by
    cases rest with
    | nil => exact ⟨rfl, rfl⟩
    | cons c rest =>
        have hc : c.isDigit = false := hrest c rfl
        simp [hc]
  rw [readDigits, List.takeWhile_append_of_pos hall, List.dropWhile_append_of_pos hall, htake.1,
    htake.2, List.append_nil]
  exact if_neg (by simpa using h.1)

/-- A digit is no sign. -/
theorem readSign_digits {marks ds : List Char} (hmarks : marks.any Char.isDigit = false)
    (h : Digits ds) (rest : List Char) : readSign marks (ds ++ rest) = (false, ds ++ rest) := by
  obtain ⟨c, ds, rfl⟩ := List.exists_cons_of_ne_nil h.1
  have hc : c.isDigit = true := h.2 c (List.mem_cons_self ..)
  rw [List.cons_append, readSign, if_neg]
  exact fun hmem => List.any_eq_false.mp hmarks c hmem hc

theorem Power.read (p : Power) {rest : List Char} (hrest : Clear rest) :
    readPower (p.written ++ rest) = some (some p.exponent, rest) := by
  have hsign : readSign ['+', '-'] (p.front ++ (p.digits ++ rest)) =
      (p.front == ['-'], p.digits ++ rest) := by
    have hfront := p.front_mem
    simp only [List.mem_cons, List.not_mem_nil, or_false] at hfront
    rcases hfront with hfront | hfront | hfront <;> rw [hfront]
    · exact readSign_digits rfl p.digits_digits rest
    · rfl
    · rfl
  rw [Power.written, List.cons_append, List.append_assoc, readPower, if_pos p.mark_mem]
  simp only [hsign, readDigits_append p.digits_digits (not_isDigit_of_clear hrest)]
  rfl

namespace Numeral

variable (n : Numeral) {rest : List Char}

theorem readPower_append (hrest : Clear rest) :
    readPower ((n.power.map Power.written).getD [] ++ rest) =
      some (n.power.map Power.exponent, rest) := by
  cases n.power with
  | some p => exact p.read hrest
  | none =>
      cases rest with
      | nil => rfl
      | cons c rest =>
          have hc : c ∉ ['e', 'E'] := by
            intro hmem
            have hpart := (clear_cons.mp hrest).1
            rcases List.mem_cons.mp hmem with rfl | hmem
            · exact absurd hpart (by decide)
            · rw [List.mem_singleton.mp hmem] at hpart
              exact absurd hpart (by decide)
          show readPower (c :: rest) = _
          rw [readPower, if_neg hc]
          rfl

/-- The power of a number begins with neither a digit nor a point. -/
theorem head_power (hrest : Clear rest) :
    ∀ c ∈ ((n.power.map Power.written).getD [] ++ rest).head?, c.isDigit = false ∧ c ≠ '.' := by
  cases n.power with
  | none => exact fun c hc => ⟨not_isDigit_of_clear hrest c hc, (hrest c hc).2⟩
  | some p =>
      intro c hc
      obtain rfl : p.mark = c := Option.some.inj hc
      have hmark := p.mark_mem
      rcases List.mem_cons.mp hmark with hmark | hmark
      · rw [hmark]
        decide
      · rw [List.mem_singleton.mp hmark]
        decide

theorem readPlaces_append {more : List Char} (hmore : ∀ c ∈ more.head?, c.isDigit = false ∧ c ≠ '.') :
    readPlaces (pointed n.places ++ more) = some (n.places, more) := by
  by_cases hplaces : n.places = []
  · rw [hplaces]
    show readPlaces more = _
    cases more with
    | nil => rfl
    | cons c more =>
        rw [readPlaces]
        exact fun cs heq => (hmore c rfl).2 (List.cons.inj heq).1
  · rw [pointed, if_neg (by simpa using hplaces)]
    exact readDigits_append ⟨hplaces, n.places_digits⟩ fun c hc => (hmore c hc).1

/-- A number begins with a digit or its sign. -/
theorem head_written : ∃ c cs, n.written = c :: cs ∧ (c = '-' ∨ c.isDigit = true) := by
  obtain ⟨d, ds, hd⟩ := List.exists_cons_of_ne_nil n.whole_digits.1
  have hdigit : d.isDigit = true := n.whole_digits.2 d (by rw [hd]; exact List.mem_cons_self ..)
  cases hnegative : n.negative with
  | true => exact ⟨_, _, by rw [written, hnegative]; rfl, .inl rfl⟩
  | false => exact ⟨_, _, by rw [written, hnegative, hd]; rfl, .inr hdigit⟩

/-- **A number is read as far as it goes.** -/
theorem read (hrest : Clear rest) : readNumber (n.written ++ rest) = some (n.value, rest) := by
  have hmore := n.head_power hrest
  generalize hpower : (n.power.map Power.written).getD [] ++ rest = more at hmore
  have hplaces : ∀ c ∈ (pointed n.places ++ more).head?, c.isDigit = false := by
    by_cases hnone : n.places = []
    · rw [hnone]
      exact fun c hc => (hmore c hc).1
    · rw [pointed, if_neg (by simpa using hnone)]
      rintro c ⟨⟩
      rfl
  have hsign : readSign ['-'] (n.written ++ rest) =
      (n.negative, n.whole ++ (pointed n.places ++ more)) := by
    rw [written, List.append_assoc, List.append_assoc, List.append_assoc, hpower]
    cases n.negative with
    | true => rfl
    | false => exact readSign_digits rfl n.whole_digits _
  have hzero : ¬ (n.whole.head? = some '0' ∧ n.whole ≠ ['0']) := fun h => h.2 (n.whole_zero h.1)
  simp only [readNumber, hsign, readDigits_append n.whole_digits hplaces, Option.bind_eq_bind,
    Option.bind_some, if_neg hzero, n.readPlaces_append hmore]
  rw [← hpower, n.readPower_append hrest]
  rfl

end Numeral

/-! ### Rows -/

/-- The reader takes the text for this, with the white space behind it, in front of anything
that cannot go on a number. -/
def ReadsAs {α : Type} (item : Reader α) (text : List Char) (a : α) : Prop :=
  ∀ rest, Clear rest → item (text ++ rest) = some (a, skip rest)

/-- A mark that closes a container. -/
def Closing (c : Char) : Prop := c = ']' ∨ c = '\x7d'

theorem Closing.apart {c : Char} (h : Closing c) : isGap c = false ∧ c ≠ ',' ∧ Clear [c] := by
  rcases h with rfl | rfl <;> exact ⟨by decide, by decide, clear_cons.mpr (by decide)⟩

section

variable {α : Type} {item : Reader α} {items : List (List Char × α)} {close : Char}
  {gap : List Char}

theorem readRow_joined (hclose : Closing close) (hgap : Gap gap) (hne : items ≠ [])
    (h : ∀ e ∈ items, ReadsAs item e.1 e.2) (rest : List Char) : ∀ {bound : Nat},
      items.length ≤ bound →
        readRow item close bound (joinWith [','] (items.map (·.1)) ++ (gap ++ close :: rest)) =
          some (items.map (·.2), rest) := by
  obtain ⟨hblank, hcomma, hclear⟩ := hclose.apart
  induction items with
  | nil => exact absurd rfl hne
  | cons e items ih =>
      obtain ⟨he, hitems⟩ := List.forall_mem_cons.mp h
      intro bound hbound
      obtain ⟨bound, rfl⟩ := Nat.exists_eq_succ_of_ne_zero (Nat.ne_zero_of_lt hbound)
      by_cases hnil : items = []
      · subst hnil
        have hread := he (gap ++ close :: rest) (clear_gap hgap (clear_cons.mpr (clear_cons.mp hclear)))
        rw [skip_gap hgap, skip_cons hblank] at hread
        simp [readRow, joinWith, hread, hcomma]
      · have hread := he (',' :: (joinWith [','] (items.map (·.1)) ++ (gap ++ close :: rest)))
          (clear_cons.mpr (by decide))
        rw [skip_cons (by decide)] at hread
        rw [List.map_cons, joinWith_cons _ _ (by simpa using hnil), List.append_assoc,
          List.append_assoc, List.singleton_append, readRow]
        simp only [hread, Option.bind_eq_bind, Option.bind_some, if_true,
          ih hnil hitems (Nat.le_of_succ_le_succ hbound)]
        rfl

/-- **A row of items is read item by item**, and an empty one where no item begins. -/
theorem readAll_joined (hclose : Closing close) (hgap : Gap gap)
    (h : ∀ e ∈ items, ReadsAs item e.1 e.2)
    (hnone : ∀ rest, item (gap ++ close :: rest) = none) (rest : List Char) :
    readAll item close (joinWith [','] (items.map (·.1)) ++ (gap ++ close :: rest)) =
      some (items.map (·.2), rest) := by
  unfold readAll
  by_cases hnil : items = []
  · subst hnil
    rw [List.map_nil, joinWith, List.nil_append, readRow.eq_def]
    split
    · rw [Option.none_or, readClose, skip_gap hgap, skip_cons hclose.apart.1]
      exact if_pos rfl
    · rw [hnone, readClose, skip_gap hgap, skip_cons hclose.apart.1]
      exact if_pos rfl
  · rw [readRow_joined hclose hgap hnil h, Option.some_or]
    have hlength := length_pieces ',' (items.map (·.1))
    rw [List.length_map] at hlength
    rw [List.length_append, List.length_append, List.length_cons]
    omega

end

/-! ### Values -/

theorem readValue_here {c : Char} (hc : isGap c = false) {depth : Nat} {cs rest : List Char}
    {v : Value} (h : readBare (readValue depth) (c :: cs) = some (v, rest)) :
    readValue (depth + 1) (c :: cs) = some (v, skip rest) := by
  rw [readValue, skip_cons hc, h]
  rfl

theorem readValue_gap {gap : List Char} (h : Gap gap) (depth : Nat) (cs : List Char) :
    readValue depth (gap ++ cs) = readValue depth cs := by
  cases depth with
  | zero => rfl
  | succ depth => rw [readValue, readValue, skip_gap h]

/-- No value begins with a closing mark. -/
theorem readValue_close {close : Char} (h : Closing close) (depth : Nat) (rest : List Char) :
    readValue depth (close :: rest) = none := by
  cases depth with
  | zero => rfl
  | succ depth =>
      rw [readValue, skip_cons h.apart.1]
      rcases h with rfl | rfl <;> rfl

theorem readBare_numeral (read : Reader Value) (n : Numeral) (rest : List Char) :
    readBare read (n.written ++ rest) = readNumber (n.written ++ rest) := by
  obtain ⟨c, cs, hwritten, hc⟩ := n.head_written
  rw [hwritten, List.cons_append]
  have hne : ∀ {d : Char}, d ≠ '-' → d.isDigit = false → c ≠ d := by
    rintro d hminus hdigit rfl
    exact hc.elim hminus fun h => Bool.noConfusion (h.symm.trans hdigit)
  -- Each of the other cases begins with a character of its own.
  rw [readBare]
  all_goals
    intro ds heq
    exact hne (by decide) (by decide) (List.cons.inj heq).1

/-- **Every JSON text is read as the value that it stands for.** -/
theorem Denotes.read {cs : List Char} {v : Value} (h : Denotes cs v) :
    ∀ {depth : Nat}, cs.length ≤ depth → ReadsAs (readValue depth) cs v := by
  have hdepth {c : Char} {cs : List Char} {depth : Nat} (h : (c :: cs).length ≤ depth) :
      ∃ below, depth = below + 1 ∧ cs.length ≤ below := by
    cases depth with
    | zero => cases h
    | succ below => exact ⟨below, rfl, Nat.le_of_succ_le_succ h⟩
  induction h with
  | null | yes | no =>
      intro depth hlength rest _
      obtain ⟨below, rfl, -⟩ := hdepth hlength
      exact readValue_here (by decide) rfl
  | number n =>
      intro depth hlength rest hrest
      obtain ⟨c, cs, hwritten, hc⟩ := n.head_written
      have hread : readBare (readValue (depth - 1)) (n.written ++ rest) = some (n.value, rest) := by
        rw [readBare_numeral, n.read hrest]
      rw [hwritten] at hlength hread ⊢
      obtain ⟨below, rfl, -⟩ := hdepth hlength
      refine readValue_here ?_ hread
      by_contra hgap
      simp only [isGap, Bool.not_eq_false, Bool.or_eq_true, beq_iff_eq] at hgap
      rcases hgap with ((rfl | rfl) | rfl) | rfl <;> revert hc <;> decide
  | @string letters h =>
      intro depth hlength rest _
      obtain ⟨below, rfl, -⟩ := hdepth hlength
      rw [List.cons_append, List.append_assoc, List.singleton_append]
      refine readValue_here (by decide) ?_
      rw [readBare, readLetters_append h]
      · rfl
      · have := length_letters h
        rw [List.length_append, List.length_cons]
        omega
  | @list items gap h hgap ih =>
      intro depth hlength rest _
      obtain ⟨below, rfl, hbelow⟩ := hdepth hlength
      have hitems : ∀ e ∈ items, ReadsAs (readValue below) e.1 e.2 := by
        intro e he
        have hpiece : e.1.length ≤ (joinWith [','] (items.map (·.1))).length :=
          length_piece (List.mem_map_of_mem he)
        rw [List.length_append] at hbelow
        exact ih e he (by omega)
      rw [List.cons_append, List.append_assoc, List.append_assoc, List.singleton_append]
      refine readValue_here (by decide) ?_
      rw [readBare, readAll_joined (.inl rfl) hgap hitems]
      · rfl
      · exact fun rest => (readValue_gap hgap ..).trans (readValue_close (.inl rfl) ..)
  | @map members gap hkeys h hgap ihkeys ih =>
      intro depth hlength rest _
      obtain ⟨below, rfl, hbelow⟩ := hdepth hlength
      have hmembers : ∀ e ∈ members.map fun m => (m.written, m.entry),
          ReadsAs (readMember (readValue below)) e.1 e.2 := by
        refine List.forall_mem_map.mpr fun m hm rest hrest => ?_
        have hpiece : m.written.length ≤ (joinWith [','] (members.map Member.written)).length :=
          length_piece (List.mem_map_of_mem hm)
        rw [List.length_append] at hbelow
        rw [Member.written, List.length_append, List.length_cons] at hpiece
        have hkeyText : m.keyText.length ≤ below := by omega
        have htext : m.text.length ≤ below := by omega
        have hkey := ihkeys m hm hkeyText (':' :: (m.text ++ rest)) (clear_cons.mpr (by decide))
        rw [skip_cons (by decide)] at hkey
        rw [Member.written, List.append_assoc, List.cons_append, readMember, hkey]
        simp only [ih m hm htext rest hrest]
        rfl
      have hnone : ∀ rest, readMember (readValue below) (gap ++ '\x7d' :: rest) = none := by
        intro rest
        rw [readMember, readValue_gap hgap, readValue_close (.inr rfl)]
      have hread := readAll_joined (.inr rfl) hgap hmembers hnone rest
      rw [List.map_map, List.map_map] at hread
      rw [List.cons_append, List.append_assoc, List.append_assoc, List.singleton_append]
      exact readValue_here (by decide) (congrArg (Option.map _) hread)
  | @spaced before cs after v hbefore hafter _ ih =>
      intro depth hlength rest hrest
      rw [List.length_append, List.length_append] at hlength
      rw [List.append_assoc, List.append_assoc, readValue_gap hbefore,
        ih (by omega) _ (clear_gap hafter hrest), skip_gap hafter]

/-- **A JSON text stands for one value**, which is the one that is read. -/
theorem Denotes.read? {text : String} {v : Value} (h : Denotes text.toList v) :
    Json.read? text = some v := by
  have hread := h.read (Nat.le_refl _) [] .nil
  rw [List.append_nil] at hread
  rw [Json.read?, hread]
  rfl

example : Json.read? " [1, -2.50, \"\\ud83d\\ude00\" ] " =
    some (.list [.int 1, .decimal ⟨-250, 2⟩, .string "😀"]) := by rfl

-- No zero stands in front of a digit, and no comma behind the last item.
example : Json.read? "[01]" = none ∧ Json.read? "[1,]" = none := ⟨by rfl, by rfl⟩

end DomainModel.Json
