/-
Literals are read as what they were written for.

A number is written in decimal digits behind its sign, a decimal with a point in front of
its last places, a string between quotes with quotes and backslashes escaped.  Each of these
texts is one token, and `Literal.parse` gives back what it was made from.  For a decimal that
says that reading the digits never comes near the bounds where it would round.
-/
import DomainModel.Proofs.Token.Cut
import DomainModel.Value.Literal

namespace DomainModel

open Lexer (Digits sign quote escaped)

/-! ### Digits -/

theorem digits_toDigits (n : Nat) : Digits (Nat.toDigits 10 n) :=
  ⟨fun h => absurd (congrArg List.length h) (Nat.pos_iff_ne_zero.mp Nat.length_toDigits_pos),
    fun _ => Nat.isDigit_of_mem_toDigits (by decide) (by decide)⟩

theorem Literal.natural?_digits {ds : List Char} (h : Digits ds) :
    natural? ds = some (Nat.ofDigitChars 10 ds 0) := by
  have hall : ds.all Char.isDigit = true := List.all_eq_true.mpr h.2
  have hempty : ds.isEmpty = false := by simpa using h.1
  rw [natural?, hall, hempty, Nat.ofDigitChars_eq_foldl]
  simp only [Nat.mul_comm]
  rfl

/-- A number behind its sign. -/
def signed (negative : Bool) (n : Nat) : Int := if negative then -n else n

theorem signed_natAbs (n : Int) : signed (decide (n < 0)) n.natAbs = n := by
  by_cases h : n < 0
  · rw [decide_eq_true h]
    show -(n.natAbs : Int) = n
    omega
  · rw [decide_eq_false h]
    show (n.natAbs : Int) = n
    omega

theorem signed_injective {negative : Bool} {m n : Nat} (h : signed negative m = signed negative n) :
    m = n := by
  cases negative with
  | true => exact Int.ofNat_inj.mp (Int.neg_inj.mp h)
  | false => exact Int.ofNat_inj.mp h

theorem Literal.integer?_digits (negative : Bool) {ds : List Char} (h : Digits ds) :
    integer? (sign negative ++ ds) = some (signed negative (Nat.ofDigitChars 10 ds 0)) := by
  cases negative with
  | true =>
      have hminus : integer? ('-' :: ds) = (natural? ds).map fun n => -(n : Int) := rfl
      exact hminus.trans (by rw [natural?_digits h]; rfl)
  | false =>
      have hdigit : ∀ c ∈ ds.head?, c.isDigit = true := fun c hc => h.2 c (List.mem_of_head? hc)
      show integer? ds = _
      unfold integer?
      split
      · exact absurd (hdigit _ rfl) (by decide)
      · exact absurd (hdigit _ rfl) (by decide)
      · rw [natural?_digits h]
        rfl

/-! ### Integers -/

theorem toList_integer (n : Int) :
    (toString n).toList = sign (decide (n < 0)) ++ Nat.toDigits 10 n.natAbs := by
  show n.repr.toList = _
  rw [Int.repr_eq_if]
  by_cases h : n < 0
  · rw [if_neg (by omega), String.toList_append, Nat.toList_repr,
      show (-n).toNat = n.natAbs by omega]
    simp [sign, h]
  · rw [if_pos (by omega), Nat.toList_repr, show n.toNat = n.natAbs by omega]
    simp [sign, h]

/-- Does a number fit in 64 bits? -/
def Int64 (n : Int) : Prop := Literal.minInt ≤ n ∧ n ≤ Literal.maxInt

instance (n : Int) : Decidable (Int64 n) := inferInstanceAs (Decidable (_ ∧ _))

theorem Literal.parse_integer {n : Int} (h : Int64 n) :
    parse .integer (toString n) = .ok (.int n) := by
  have hint : int64? (toString n).toList = some n := by
    rw [int64?, toList_integer, integer?_digits _ (digits_toDigits _), Nat.ofDigitChars_ten_toDigits,
      signed_natAbs]
    simpa [Option.filter, Int64] using h
  rw [parse, hint]

theorem integer_cuts (n : Int) {rest : List Char} (h : Lexer.Clear rest) :
    Lexer.Cuts .integer (toString n).toList rest := by
  rw [toList_integer]
  exact (digits_toDigits _).cuts _ h

/-! ### Decimals -/

namespace Decimal

/-- A decimal that can be held and has a place behind the point. -/
structure Placed (d : Decimal) : Prop where
  places : 1 ≤ d.scale
  scale : d.scale ≤ maxScale
  units : d.units.natAbs ≤ maxUnits

theorem le_ofDigitChars (ds : List Char) : ∀ n, n ≤ Nat.ofDigitChars 10 ds n := by
  intro n
  rw [Nat.ofDigitChars_eq_ofDigitChars_zero]
  exact Nat.le_add_right_of_le (Nat.le_mul_of_pos_left n (Nat.pow_pos (by decide)))

/-- Reading digits adds them to the units, as long as there is room for them. -/
theorem readUnits_digits (point : Bool) (ds rest : List Char) : ∀ (seen : Bool) (units scale : Nat),
    (∀ c ∈ ds, c.isDigit = true) → Nat.ofDigitChars 10 ds units ≤ maxUnits →
    (point = true → scale + ds.length ≤ maxScale) →
    readUnits seen point units scale (ds ++ rest) =
      readUnits (seen || !ds.isEmpty) point (Nat.ofDigitChars 10 ds units)
        (if point then scale + ds.length else scale) rest := by
  induction ds with
  | nil => simp
  | cons c ds ih =>
      intro seen units scale hds hunits hscale
      obtain ⟨hc, hds⟩ := List.forall_mem_cons.mp hds
      rw [Nat.ofDigitChars_cons, Nat.mul_comm] at hunits ⊢
      have hroom : (point && decide (scale = maxScale)) = false := by
        cases point with
        | false => rfl
        | true =>
            have := hscale rfl
            simp only [List.length_cons] at this
            simp
            omega
      have hmore := Nat.le_trans (le_ofDigitChars ds _) hunits
      rw [List.cons_append, readUnits, hroom, if_neg Bool.false_ne_true, if_pos hc]
      simp only [if_pos hmore]
      rw [ih _ _ _ hds hunits]
      · cases point <;> simp [Nat.add_assoc, Nat.add_comm 1]
      · rintro rfl
        have := hscale rfl
        simp only [List.length_cons] at this
        simp only [if_pos]
        omega

/-- A decimal is written as digits, a point and as many digits as it has places. -/
theorem digitsText_eq (n : Nat) {scale : Nat} (h : 1 ≤ scale) :
    ∃ front back, digitsText n scale = front ++ '.' :: back ∧ Digits front ∧ Digits back ∧
      back.length = scale ∧ Nat.ofDigitChars 10 (front ++ back) 0 = n := by
  generalize hpadded : List.replicate (scale + 1 - (Nat.toDigits 10 n).length) '0' ++
    Nat.toDigits 10 n = padded
  have hlength : scale + 1 ≤ padded.length := by
    rw [← hpadded, List.length_append, List.length_replicate]
    omega
  have hall : ∀ c ∈ padded, c.isDigit = true := by
    intro c hc
    rw [← hpadded] at hc
    rcases List.mem_append.mp hc with hc | hc
    · rw [List.eq_of_mem_replicate hc]
      rfl
    · exact (digits_toDigits n).2 c hc
  have hback : (padded.drop (padded.length - scale)).length = scale := by
    rw [List.length_drop]
    omega
  refine ⟨padded.take (padded.length - scale), padded.drop (padded.length - scale), ?_, ⟨?_, ?_⟩,
    ⟨?_, ?_⟩, hback, ?_⟩
  · rw [digitsText, hpadded]
    exact if_neg (by omega)
  · rw [← List.length_pos_iff, List.length_take]
    omega
  · exact fun c hc => hall c (List.mem_of_mem_take hc)
  · rw [← List.length_pos_iff, hback]
    omega
  · exact fun c hc => hall c (List.mem_of_mem_drop hc)
  · rw [List.take_append_drop, ← hpadded, Nat.ofDigitChars_append, Nat.ofDigitChars_replicate_zero,
      Nat.mul_zero, Nat.ofDigitChars_ten_toDigits]

/-- Reading units and places, then the sign. -/
theorem parse_sign (negative : Bool) {cs : List Char}
    (hdigit : ∃ c ∈ cs.head?, c.isDigit = true) : parse (sign negative ++ cs) =
      (readUnits false false 0 0 cs).map fun read => ⟨signed negative read.1, read.2⟩ := by
  obtain ⟨c, hc, hdigit⟩ := hdigit
  obtain ⟨cs, rfl⟩ : ∃ ds, cs = c :: ds := ⟨_, List.eq_cons_of_mem_head? hc⟩
  cases negative with
  | true =>
      rw [show sign true ++ c :: cs = '-' :: c :: cs from rfl]
      cases hread : readUnits false false 0 0 (c :: cs) <;> simp [parse, hread, signed, Except.map]
  | false =>
      rw [show sign false ++ c :: cs = c :: cs from rfl]
      have hmarks : c ≠ '-' ∧ c ≠ '+' := by
        constructor <;> rintro rfl <;> exact absurd hdigit (by decide)
      cases hread : readUnits false false 0 0 (c :: cs) <;> simp [parse, hmarks, hread, signed, Except.map]

theorem toList_text (d : Decimal) :
    d.text.toList = sign (decide (d.units < 0)) ++ digitsText d.units.natAbs d.scale := by
  rw [text, String.toList_ofList, sign]
  simp only [decide_eq_true_eq]

/-- **The text of a decimal is read as that decimal.** -/
theorem Placed.parse_text {d : Decimal} (h : d.Placed) : parse d.text.toList = .ok d := by
  obtain ⟨front, back, htext, hfront, hback, hlength, hvalue⟩ := digitsText_eq d.units.natAbs h.places
  have hunits := h.units
  rw [← hvalue] at hunits
  have hwhole : Nat.ofDigitChars 10 front 0 ≤ maxUnits := by
    rw [Nat.ofDigitChars_append] at hunits
    exact Nat.le_trans (le_ofDigitChars back _) hunits
  have hread : readUnits false false 0 0 (front ++ '.' :: back) =
      .ok (d.units.natAbs, d.scale) := by
    have hdigit : front.isEmpty = false := by simpa using hfront.1
    rw [readUnits_digits false front _ false 0 0 hfront.2 hwhole (fun h => Bool.noConfusion h),
      readUnits]
    simp only [Bool.false_and, Bool.false_eq_true, if_false, hdigit]
    rw [if_neg (by decide), if_pos (by decide), ← List.append_nil back,
      readUnits_digits true back [] _ _ _ hback.2 ?_ ?_, ← Nat.ofDigitChars_append, hvalue, readUnits]
    · simp [hlength]
    · rwa [← Nat.ofDigitChars_append]
    · intro _
      rw [hlength, Nat.zero_add]
      exact h.scale
  have hdigit : ∃ c ∈ (front ++ '.' :: back).head?, c.isDigit = true := by
    obtain ⟨c, cs, rfl⟩ := List.exists_cons_of_ne_nil hfront.1
    exact ⟨c, rfl, hfront.2 c (List.mem_cons_self ..)⟩
  rw [toList_text, htext, parse_sign _ hdigit, hread, Except.map, signed_natAbs]

theorem Placed.cuts {d : Decimal} (h : d.Placed) {rest : List Char} (hrest : Lexer.Clear rest) :
    Lexer.Cuts .decimal d.text.toList rest := by
  obtain ⟨front, back, htext, hfront, hback, -, -⟩ := digitsText_eq d.units.natAbs h.places
  rw [toList_text, htext]
  exact hfront.cuts_point _ hback hrest

end Decimal

/-! ### Strings -/

theorem Literal.unescape_escaped (cs : List Char) : unescape (cs.flatMap escaped) = cs := by
  induction cs with
  | nil => rfl
  | cons c cs ih =>
      rw [List.flatMap_cons, escaped]
      by_cases hc : c = '"' || c = '\\'
      · have hkept : ∀ ds, unescape ('\\' :: c :: ds) = c :: unescape ds := by
          rcases (by simpa using hc : c = '"' ∨ c = '\\') with rfl | rfl <;> exact fun _ => rfl
        rw [if_pos hc, List.cons_append, List.singleton_append, hkept, ih]
      · rw [if_neg hc, List.singleton_append, unescape, ih]
        exact fun _ _ heq _ => hc (by simp [heq])

theorem Literal.unquote_quote (cs : List Char) : unquote (quote cs) = cs := by
  rw [quote, unquote, if_pos (by decide), List.getLast?_concat, if_pos rfl, List.dropLast_concat,
    unescape_escaped]

theorem Literal.parse_string (s : String) :
    parse .string (String.ofList (quote s.toList)) = .ok (.string s) := by
  rw [parse, String.toList_ofList, unquote_quote, String.ofList_toList]

end DomainModel
