/-
What number literals are worth.

An integer literal is read as the integer that it denotes, if 64 bits hold it, and refused if
not.  A decimal literal has no such clear border.  It keeps all its places if there are few
enough of them and its digits make no number that is too large; it is refused if it would be
too large even as a whole number; and in between it is rounded, halves up, to as many places as
can be held, and no one is told.  `Held` says that in terms of the number that is denoted.

The digits are read from the front, with the number read so far as the invariant: the reading
stops at the first digit that does not fit, and that digit alone decides (`round_held`),
whatever follows it.
-/
import DomainModel.Proofs.Value.Literal
import DomainModel.Tree.Value
import Mathlib.Tactic.Linarith

namespace DomainModel

open Lexer (Digits sign)

/-! ### Numbers among tokens -/

instance (ds : List Char) : Decidable (Digits ds) :=
  decidable_of_iff (ds ≠ [] ∧ ds.all Char.isDigit = true)
    (and_congr_right fun _ => List.all_eq_true)

namespace Lexer

/-- A number is cut as its sign, its first digit and what that goes on to. -/
theorem measure_number {c : Char} {cs : List Char} {kind : TokenKind} {n : Nat}
    (h : measure c cs = (kind, n)) (hkind : kind = .integer ∨ kind = .decimal) :
    ∃ negative d ds m, c :: cs.take n = sign negative ++ d :: ds.take m ∧ d.isDigit = true ∧
      number ds = (kind, m) := by
  have hliteral : kind ∈ literalKinds := by rcases hkind with rfl | rfl <;> decide
  rcases measure_literal hliteral h with hc | ⟨d, ds, rfl, rfl, hd⟩ | hc
  · rw [(measure_digit hc cs).1] at h
    exact ⟨false, c, cs, n, rfl, hc, h⟩
  · rw [(measure_digit hd ds).2] at h
    obtain ⟨hkind, rfl⟩ := Prod.mk.inj h
    exact ⟨true, d, ds, _, rfl, hd, Prod.ext hkind rfl⟩
  · have hquoted : measure c cs = quoted c cs := by rcases hc with rfl | rfl <;> rfl
    have hmem : kind ∈ [TokenKind.string, .invalid] := by
      have hfirst := quoted_kind c cs
      rwa [← hquoted, h] at hfirst
    rcases hkind with rfl | rfl <;> simp at hmem

end Lexer

/-- A text denotes an integer: digits behind a minus sign or nothing. -/
def DenotesInteger (text : String) (n : Int) : Prop :=
  ∃ negative ds, Digits ds ∧ text.toList = sign negative ++ ds ∧
    n = signed negative (Nat.ofDigitChars 10 ds 0)

/-- A text denotes `n` units of so many places, less than nothing if `negative`: digits with a
point in front of the last `places` of them, behind a minus sign or nothing. -/
def DenotesDecimal (text : String) (negative : Bool) (n places : Nat) : Prop :=
  ∃ front back, Digits front ∧ Digits back ∧
    text.toList = sign negative ++ (front ++ '.' :: back) ∧
    n = Nat.ofDigitChars 10 (front ++ back) 0 ∧ places = back.length

/-- The numbers among the tokens denote something. -/
theorem Lexer.tokensFrom_number (start : Nat) (cs : List Char) : ∀ t ∈ tokensFrom start cs,
    (t.kind = .integer → ∃ n, DenotesInteger t.text n) ∧
      (t.kind = .decimal → ∃ negative n places, DenotesDecimal t.text negative n places) := by
  fun_induction tokensFrom start cs with
  | case1 => simp
  | case2 start c cs kind n hmeasure token ih =>
      refine List.forall_mem_cons.mpr ⟨⟨fun hkind => ?_, fun hkind => ?_⟩, ih⟩
      · obtain ⟨negative, d, ds, m, htext, hd, hnumber⟩ := measure_number hmeasure (.inl hkind)
        have hall := (number_taken hnumber).1 hkind
        refine ⟨_, negative, d :: ds.take m, ⟨List.cons_ne_nil _ _, ?_⟩, ?_, rfl⟩
        · exact List.forall_mem_cons.mpr ⟨hd, hall⟩
        · rw [← htext]
          exact String.toList_ofList
      · obtain ⟨negative, d, ds, m, htext, hd, hnumber⟩ := measure_number hmeasure (.inr hkind)
        obtain ⟨front, back, htake, hfront, hback⟩ := (number_taken hnumber).2 hkind
        refine ⟨negative, _, _, d :: front, back, ⟨List.cons_ne_nil _ _, ?_⟩, hback, ?_, rfl, rfl⟩
        · exact List.forall_mem_cons.mpr ⟨hd, hfront⟩
        · rw [List.cons_append, ← htake, ← htext]
          exact String.toList_ofList

/-! ### Integers -/

/-- **An integer is read as what it denotes, or refused if it is too large or too small.** -/
theorem Literal.parse_integer_eq {text : String} {n : Int} (h : DenotesInteger text n) :
    parse .integer text =
      if Int64 n then .ok (.int n) else .error (.integerOutOfRange text) := by
  obtain ⟨negative, ds, hds, htext, rfl⟩ := h
  have hread : integer? text.toList = some (signed negative (Nat.ofDigitChars 10 ds 0)) := by
    rw [htext, integer?_digits negative hds]
  rw [parse, int64?, hread]
  by_cases hrange : Int64 (signed negative (Nat.ofDigitChars 10 ds 0))
  · rw [if_pos hrange, Option.filter_some, if_pos (by simpa [Int64] using hrange)]
  · rw [if_neg hrange, Option.filter_some, if_neg (by simpa [Int64] using hrange)]

/-! ### Rounding -/

theorem digit_le {c : Char} (h : c.isDigit = true) : c.toNat - '0'.toNat ≤ 9 := by
  simp only [Char.isDigit, Bool.and_eq_true, decide_eq_true_eq, UInt32.le_iff_toNat_le,
    ge_iff_le] at h
  have : '0'.val.toNat = 48 ∧ '9'.val.toNat = 57 := ⟨rfl, rfl⟩
  show c.val.toNat - '0'.val.toNat ≤ 9
  omega

/-- A row of digits denotes less than a unit of the place in front of it. -/
theorem ofDigitChars_lt (ds : List Char) : ∀ n, (∀ c ∈ ds, c.isDigit = true) →
    Nat.ofDigitChars 10 ds n < (n + 1) * 10 ^ ds.length := by
  induction ds with
  | nil => simp
  | cons c ds ih =>
      intro n hds
      obtain ⟨hc, hds⟩ := List.forall_mem_cons.mp hds
      have hdigit := digit_le hc
      rw [Nat.ofDigitChars_cons, List.length_cons, Nat.pow_succ']
      refine Nat.lt_of_lt_of_le (ih _ hds) ?_
      rw [← Nat.mul_assoc]
      exact Nat.mul_le_mul_right _ (by omega)

namespace Decimal

/-- A number without its last `k` places, rounded to the nearest; halves go up. -/
def halfUp (n k : Nat) : Nat := (2 * n + 10 ^ k) / (2 * 10 ^ k)

theorem le_halfUp {m n k : Nat} : m ≤ halfUp n k ↔ 2 * m * 10 ^ k ≤ 2 * n + 10 ^ k := by
  have hpos : 0 < 2 * 10 ^ k := Nat.mul_pos (by decide) (Nat.pow_pos (by decide))
  rw [halfUp, Nat.le_div_iff_mul_le hpos, Nat.mul_left_comm, Nat.mul_assoc]

theorem halfUp_eq {m n k : Nat} (hlow : 2 * m * 10 ^ k ≤ 2 * n + 10 ^ k)
    (hhigh : 2 * n < (2 * m + 1) * 10 ^ k) : halfUp n k = m := by
  have hle : m ≤ halfUp n k := le_halfUp.mpr hlow
  have hnot : ¬ m + 1 ≤ halfUp n k := by
    rw [le_halfUp]
    linarith only [hhigh]
  omega

@[simp] theorem halfUp_zero_right (n : Nat) : halfUp n 0 = n := halfUp_eq (by omega) (by omega)

/-- Fewer places make no larger number. -/
theorem halfUp_mono (n : Nat) {k j : Nat} (h : k ≤ j) : halfUp n j ≤ halfUp n k := by
  induction h with
  | refl => exact Nat.le_refl _
  | @step j _ ih =>
      refine Nat.le_trans ?_ ih
      have hlarge := le_halfUp.mp (Nat.le_refl (halfUp n (j + 1)))
      rw [le_halfUp]
      rw [Nat.pow_succ] at hlarge
      by_cases hzero : halfUp n (j + 1) = 0
      · simp [hzero]
      · have hone : 1 * 10 ^ j ≤ halfUp n (j + 1) * 10 ^ j :=
          Nat.mul_le_mul_right _ (Nat.pos_of_ne_zero hzero)
        linarith only [hlarge, hone]

/-- As much of `n` units of so many places as a decimal can hold: `m`, which is `n` rounded to
`scale` places, where rounding it to more places would leave too large a number. -/
structure Held (n places m scale : Nat) : Prop where
  scale_le : scale ≤ places ∧ scale ≤ maxScale
  units_eq : m = halfUp n (places - scale)
  room : m ≤ maxUnits
  most : ∀ more, scale < more → more ≤ places → more ≤ maxScale →
    maxUnits < halfUp n (places - more)

variable {n places m scale : Nat}

/-- There is one way only to hold as much as can be held. -/
theorem Held.unique {m' scale' : Nat} (h : Held n places m scale)
    (h' : Held n places m' scale') : m = m' ∧ scale = scale' := by
  have hroom := h.units_eq ▸ h.room
  have hroom' := h'.units_eq ▸ h'.room
  have hscale : scale = scale' := by
    by_contra hne
    rcases Nat.lt_or_gt_of_ne hne with hlt | hlt
    · have := h.most _ hlt h'.scale_le.1 h'.scale_le.2
      omega
    · have := h'.most _ hlt h.scale_le.1 h.scale_le.2
      omega
  exact ⟨by rw [h.units_eq, h'.units_eq, hscale], hscale⟩

/-- A number that fits is held as it is. -/
theorem held_self (hplaces : places ≤ maxScale) (hn : n ≤ maxUnits) : Held n places n places where
  scale_le := ⟨Nat.le_refl _, hplaces⟩
  units_eq := by rw [Nat.sub_self, halfUp_zero_right]
  room := hn
  most _ hmore hle _ := absurd hmore (Nat.not_lt.mpr hle)

/-- It is enough to look at the next place. -/
theorem held_of_next (hscale : scale ≤ places ∧ scale ≤ maxScale)
    (hunits : m = halfUp n (places - scale)) (hroom : m ≤ maxUnits)
    (hnext : scale = maxScale ∨ maxUnits < halfUp n (places - (scale + 1))) :
    Held n places m scale where
  scale_le := hscale
  units_eq := hunits
  room := hroom
  most more hmore _ hle := by
    rcases hnext with rfl | hnext
    · exact absurd hmore (Nat.not_lt.mpr hle)
    · exact Nat.lt_of_lt_of_le hnext (halfUp_mono n (by omega))

/-- A number that is held is not too large without its places. -/
theorem Held.fits (h : Held n places m scale) : halfUp n places ≤ maxUnits :=
  Nat.le_trans (halfUp_mono n (Nat.sub_le _ _)) (h.units_eq ▸ h.room)

section
variable {d r k s : Nat} (hr : r < 10 ^ k)
include hr

/-- The digit behind the last one kept says which way to round, and the ones behind it say
nothing. -/
theorem halfUp_digit (hd : d ≤ 9) :
    halfUp ((n * 10 + d) * 10 ^ k + r) (k + 1) = if d < 5 then n else n + 1 := by
  have hpow : 10 ^ (k + 1) = 10 * 10 ^ k := Nat.pow_succ'
  by_cases h : d < 5
  · rw [if_pos h]
    have hhigh : d * 10 ^ k ≤ 4 * 10 ^ k := Nat.mul_le_mul_right _ (by omega)
    have hlow := Nat.zero_le (d * 10 ^ k)
    refine halfUp_eq ?_ ?_ <;> rw [hpow] <;> linarith only [hlow, hhigh, hr]
  · rw [if_neg h]
    have hlow : 5 * 10 ^ k ≤ d * 10 ^ k := Nat.mul_le_mul_right _ (by omega)
    have hhigh : d * 10 ^ k ≤ 9 * 10 ^ k := Nat.mul_le_mul_right _ hd
    refine halfUp_eq ?_ ?_ <;> rw [hpow] <;> linarith only [hlow, hhigh, hr]

/-- Rounding up the largest number of units makes a number whose last place is to be rounded up. -/
theorem halfUp_maxUnits (hd : 5 ≤ d ∧ d ≤ 9) :
    halfUp ((maxUnits * 10 + d) * 10 ^ k + r) (k + 2) = (maxUnits + 5) / 10 := by
  generalize hm : (maxUnits + 5) / 10 = m
  have hmul : maxUnits + 5 = 10 * m := by rw [← hm]; decide
  generalize maxUnits = most at hmul
  have hscaled : (most + 5) * 10 ^ k = 10 * m * 10 ^ k := by rw [hmul]
  have hlow : 5 * 10 ^ k ≤ d * 10 ^ k := Nat.mul_le_mul_right _ hd.1
  have hhigh : d * 10 ^ k ≤ 9 * 10 ^ k := Nat.mul_le_mul_right _ hd.2
  have hpow : 10 ^ (k + 2) = 100 * 10 ^ k := by rw [Nat.pow_add, Nat.mul_comm]
  refine halfUp_eq ?_ ?_ <;> rw [hpow] <;> linarith only [hscaled, hlow, hhigh, hr]

/-- Where the next digit does not fit, a number is held up to there, rounded by that digit. -/
theorem held_digit (hd : d ≤ 9) (hs : s ≤ maxScale)
    (hfull : s = maxScale ∨ maxUnits < n * 10 + d)
    (hroom : (if d < 5 then n else n + 1) ≤ maxUnits) :
    Held ((n * 10 + d) * 10 ^ k + r) (s + (k + 1)) (if d < 5 then n else n + 1) s := by
  refine held_of_next ⟨Nat.le_add_right _ _, hs⟩ ?_ hroom ?_
  · rw [Nat.add_sub_cancel_left, halfUp_digit hr hd]
  · refine hfull.imp_right fun hlarge => Nat.lt_of_lt_of_le hlarge ?_
    rw [show s + (k + 1) - (s + 1) = k by omega, le_halfUp]
    linarith only [Nat.zero_le r, Nat.zero_le (10 ^ k)]

/-- Where that would leave too large a number, it is held up to one place less. -/
theorem held_maxUnits (hd : 5 ≤ d ∧ d ≤ 9) (hs : 0 < s ∧ s ≤ maxScale) :
    Held ((maxUnits * 10 + d) * 10 ^ k + r) (s + (k + 1)) ((maxUnits + 5) / 10) (s - 1) := by
  refine held_of_next ⟨by omega, by omega⟩ ?_ (by decide) (.inr ?_)
  · rw [show s + (k + 1) - (s - 1) = k + 2 by omega, halfUp_maxUnits hr hd]
  · rw [show s + (k + 1) - (s - 1 + 1) = k + 1 by omega, halfUp_digit hr hd.2, if_neg (by omega)]
    exact Nat.lt_succ_self _

end

/-- A digit that does not fit rounds the number that it and the digits behind it go on. -/
theorem round_held {s : Nat} {c : Char} {rest : List Char} (hc : c.isDigit = true)
    (hrest : ∀ c ∈ rest, c.isDigit = true) (hn : n ≤ maxUnits) (hs : s ≤ maxScale)
    (hfull : s = maxScale ∨ maxUnits < n * 10 + (c.toNat - '0'.toNat))
    (hplaces : places = s + (rest.length + 1)) :
    (∃ m scale, round n s c = .ok (m, scale) ∧
      Held (Nat.ofDigitChars 10 (c :: rest) n) places m scale) ∨
    (round n s c = .error .roundingOverflow ∧
      maxUnits < halfUp (Nat.ofDigitChars 10 (c :: rest) n) places) := by
  have hr := ofDigitChars_lt rest 0 hrest
  rw [Nat.zero_add, Nat.one_mul] at hr
  have hd := digit_le hc
  rw [round, if_pos hc, hplaces, Nat.ofDigitChars_cons, Nat.ofDigitChars_eq_ofDigitChars_zero,
    Nat.mul_comm (10 ^ _), Nat.mul_comm 10 n]
  generalize c.toNat - '0'.toNat = d at hd hfull ⊢
  generalize Nat.ofDigitChars 10 rest 0 = r at hr ⊢
  have hheld := held_digit hr hd hs hfull
  by_cases hdown : d < 5
  · rw [if_pos hdown] at hheld
    exact .inl ⟨n, s, if_pos hdown, hheld hn⟩
  · rw [if_neg hdown] at hheld
    by_cases hroom : n + 1 ≤ maxUnits
    · exact .inl ⟨n + 1, s, (if_neg hdown).trans (if_pos hroom), hheld hroom⟩
    · obtain rfl : n = maxUnits := by omega
      by_cases hwhole : s = 0
      · refine .inr ⟨((if_neg hdown).trans (if_neg hroom)).trans (if_pos hwhole), ?_⟩
        rw [hwhole, Nat.zero_add, halfUp_digit hr hd, if_neg hdown]
        exact Nat.lt_succ_self _
      · refine .inl ⟨_, _, ((if_neg hdown).trans (if_neg hroom)).trans (if_neg hwhole), ?_⟩
        exact held_maxUnits hr ⟨by omega, hd⟩ ⟨by omega, hs⟩

/-- Digits before the point that make too large a number are refused. -/
theorem readUnits_overflow (ds rest : List Char) : ∀ (seen : Bool) (n scale : Nat),
    (∀ c ∈ ds, c.isDigit = true) → n ≤ maxUnits → maxUnits < Nat.ofDigitChars 10 ds n →
    readUnits seen false n scale (ds ++ rest) = .error .tooManyDigits := by
  induction ds with
  | nil => exact fun _ _ _ _ hn hlarge => absurd hlarge (Nat.not_lt.mpr hn)
  | cons c ds ih =>
      intro seen n scale hds hn hlarge
      obtain ⟨hc, hds⟩ := List.forall_mem_cons.mp hds
      rw [Nat.ofDigitChars_cons, Nat.mul_comm] at hlarge
      rw [List.cons_append, readUnits, Bool.false_and, if_neg Bool.false_ne_true, if_pos hc]
      by_cases hmore : n * 10 + (c.toNat - '0'.toNat) ≤ maxUnits
      · simp only [if_pos hmore]
        exact ih _ _ _ hds hmore hlarge
      · simp only [if_neg hmore, if_neg Bool.false_ne_true]

/-- Digits behind the point are read until one does not fit, and that one rounds. -/
theorem readUnits_places (ds : List Char) : ∀ (seen : Bool) (n scale : Nat),
    (∀ c ∈ ds, c.isDigit = true) → n ≤ maxUnits → scale ≤ maxScale → (ds = [] → seen = true) →
    places = scale + ds.length →
    (∃ m kept, readUnits seen true n scale ds = .ok (m, kept) ∧
      Held (Nat.ofDigitChars 10 ds n) places m kept) ∨
    (readUnits seen true n scale ds = .error .roundingOverflow ∧
      maxUnits < halfUp (Nat.ofDigitChars 10 ds n) places) := by
  induction ds with
  | nil =>
      intro seen n scale _ hn hscale hseen hplaces
      refine .inl ⟨n, scale, ?_, ?_⟩
      · rw [readUnits, if_pos (hseen rfl)]
      · obtain rfl : places = scale := by simpa using hplaces
        exact held_self hscale hn
  | cons c ds ih =>
      intro seen n scale hds hn hscale _ hplaces
      obtain ⟨hc, hds⟩ := List.forall_mem_cons.mp hds
      by_cases hfull : scale = maxScale
      · rw [readUnits, Bool.true_and, if_pos (decide_eq_true hfull)]
        exact round_held hc hds hn hscale (.inl hfull) hplaces
      · rw [readUnits, Bool.true_and, if_neg (by simpa using hfull), if_pos hc]
        by_cases hmore : n * 10 + (c.toNat - '0'.toNat) ≤ maxUnits
        · simp only [if_pos hmore]
          rw [Nat.ofDigitChars_cons, Nat.mul_comm 10]
          refine ih _ _ _ hds hmore (by simp only [if_pos]; omega) (fun _ => rfl) ?_
          simpa [Nat.add_assoc, Nat.add_comm 1] using hplaces
        · simp only [if_neg hmore, if_pos]
          exact round_held hc hds hn hscale (.inr (by omega)) hplaces

/-- **A decimal is read as as much of what it denotes as can be held**, or refused because that is
nothing. -/
theorem parse_denoted {text : String} {negative : Bool}
    (h : DenotesDecimal text negative n places) :
    (∃ m scale, Held n places m scale ∧ parse text.toList = .ok ⟨signed negative m, scale⟩) ∨
    (maxUnits < halfUp n places ∧ ∃ e, parse text.toList = .error e) := by
  obtain ⟨front, back, hfront, hback, htext, rfl, rfl⟩ := h
  have hdigit : ∃ c ∈ (front ++ '.' :: back).head?, c.isDigit = true := by
    obtain ⟨c, cs, rfl⟩ := List.exists_cons_of_ne_nil hfront.1
    exact ⟨c, rfl, hfront.2 c (List.mem_cons_self ..)⟩
  rw [htext, parse_sign negative hdigit, Nat.ofDigitChars_append]
  generalize hwhole : Nat.ofDigitChars 10 front 0 = whole
  by_cases hlarge : whole ≤ maxUnits
  · have hread : readUnits false false 0 0 (front ++ '.' :: back) =
        readUnits true true whole 0 back := by
      have hseen : (false || !front.isEmpty) = true := by simpa using hfront.1
      rw [readUnits_digits false front _ false 0 0 hfront.2 (by omega)
        (fun h => Bool.noConfusion h), hseen, readUnits, hwhole]
      rw [Bool.false_and, if_neg (by decide), if_neg (by decide), if_pos (by decide),
        if_neg (by decide)]
    rw [hread]
    rcases readUnits_places back true whole 0 hback.2 hlarge (Nat.zero_le _) (fun _ => rfl)
      (Nat.zero_add _).symm with ⟨m, scale, hok, hheld⟩ | ⟨herror, hlarge⟩
    · exact .inl ⟨m, scale, hheld, by rw [hok]; rfl⟩
    · exact .inr ⟨hlarge, _, by rw [herror]; rfl⟩
  · rw [readUnits_overflow front _ false 0 0 hfront.2 (Nat.zero_le _) (by omega)]
    refine .inr ⟨?_, _, rfl⟩
    refine Nat.lt_of_lt_of_le (Nat.lt_of_not_le hlarge) (le_halfUp.mpr ?_)
    rw [Nat.ofDigitChars_eq_ofDigitChars_zero]
    linarith only [Nat.zero_le (Nat.ofDigitChars 10 back 0), Nat.zero_le (10 ^ back.length)]

/-- It is read exactly if it fits, and only then. -/
theorem parse_exact_iff {text : String} {negative : Bool}
    (h : DenotesDecimal text negative n places) :
    parse text.toList = .ok ⟨signed negative n, places⟩ ↔ places ≤ maxScale ∧ n ≤ maxUnits := by
  constructor
  · intro hexact
    rcases parse_denoted h with ⟨m, scale, hheld, hok⟩ | ⟨-, e, herror⟩
    · obtain ⟨hunits, rfl⟩ := Decimal.mk.inj (Except.ok.inj (hexact.symm.trans hok))
      have hsame : n = m := signed_injective hunits
      exact ⟨hheld.scale_le.2, hsame ▸ hheld.room⟩
    · rw [herror] at hexact
      cases hexact
  · rintro ⟨hplaces, hn⟩
    have hself := held_self hplaces hn
    rcases parse_denoted h with ⟨m, scale, hheld, hok⟩ | ⟨hlarge, -⟩
    · obtain ⟨rfl, rfl⟩ := hheld.unique hself
      exact hok
    · exact absurd hself.fits (Nat.not_le.mpr hlarge)

end Decimal

/-! ### Literals -/

theorem Literal.parse_decimal_eq (text : String) : parse .decimal text =
    match Decimal.parse text.toList with
    | .ok d => .ok (.decimal d)
    | .error e => .error (.invalidDecimal text e) := rfl

/-- A literal has the value of its token, or the text of it where there is none. -/
theorem Tree.scalar_eq {node : Tree} {t : Token}
    (h : (node.children.filterMap Tree.token?).find? (·.kind.isLiteral) = some t) :
    (∀ v, Literal.parse t.kind t.text = .ok v → node.scalar = v) ∧
      ∀ e, Literal.parse t.kind t.text = .error e → node.scalar = .string t.text := by
  constructor <;> intro _ hparse <;> rw [scalar, scalarOf, h] <;> simp only [hparse]

/-- **What number literals are worth.**  An integer token denotes an integer, and is read as that
if 64 bits hold it and refused otherwise.  A decimal token is read as what it denotes exactly if
its places and its digits are few enough.  If not, it is refused only if it is too large even
without its places, and else it is rounded to as many places as can be held.  What is refused
stands for its text. -/
theorem literal_numbers (source : String) : ∀ t ∈ scan source,
    (t.kind = .integer → (∃ n, DenotesInteger t.text n) ∧
      ∀ n, DenotesInteger t.text n → Literal.parse t.kind t.text =
        if Int64 n then .ok (.int n) else .error (.integerOutOfRange t.text)) ∧
    (t.kind = .decimal → (∃ negative n places, DenotesDecimal t.text negative n places) ∧
      ∀ negative n places, DenotesDecimal t.text negative n places →
        (Literal.parse t.kind t.text = .ok (.decimal ⟨signed negative n, places⟩) ↔
          places ≤ Decimal.maxScale ∧ n ≤ Decimal.maxUnits) ∧
        ((∃ m scale, Decimal.Held n places m scale ∧
            Literal.parse t.kind t.text = .ok (.decimal ⟨signed negative m, scale⟩)) ∨
          (Decimal.maxUnits < Decimal.halfUp n places ∧
            ∃ e, Literal.parse t.kind t.text = .error (.invalidDecimal t.text e)))) ∧
    ∀ node : Tree, (node.children.filterMap Tree.token?).find? (·.kind.isLiteral) = some t →
      (∀ v, Literal.parse t.kind t.text = .ok v → node.scalar = v) ∧
        ∀ e, Literal.parse t.kind t.text = .error e → node.scalar = .string t.text := by
  intro t ht
  obtain ⟨hinteger, hdecimal⟩ := Lexer.tokensFrom_number _ _ t ht
  refine ⟨fun hkind => ⟨hinteger hkind, fun n hn => ?_⟩, fun hkind => ⟨hdecimal hkind, ?_⟩,
    fun node hnode => Tree.scalar_eq hnode⟩
  · rw [hkind]
    exact Literal.parse_integer_eq hn
  · intro negative n places hdenotes
    rw [hkind, Literal.parse_decimal_eq, ← Decimal.parse_exact_iff hdenotes]
    rcases Decimal.parse_denoted hdenotes with ⟨m, scale, hheld, hok⟩ | ⟨hlarge, e, herror⟩
    · rw [hok]
      exact ⟨by simp, .inl ⟨m, scale, hheld, rfl⟩⟩
    · rw [herror]
      exact ⟨by simp, .inr ⟨hlarge, e, rfl⟩⟩

/-- One unit more than 64 bits hold is refused, and so is half a unit more than a decimal holds. -/
theorem literal_numbers_large :
    (∃ t ∈ scan "9223372036854775808", t.kind = .integer ∧
      Literal.parse t.kind t.text = .error (.integerOutOfRange t.text)) ∧
    ∃ t ∈ scan "-79228162514264337593543950335.5", t.kind = .decimal ∧
      ∃ e, Literal.parse t.kind t.text = .error (.invalidDecimal t.text e) := by
  constructor
  · have ht : ⟨.integer, "9223372036854775808", 0⟩ ∈ scan "9223372036854775808" := by
      decide +kernel
    have hdenotes : DenotesInteger "9223372036854775808" 9223372036854775808 :=
      ⟨false, "9223372036854775808".toList, by decide +kernel, rfl, by decide +kernel⟩
    refine ⟨_, ht, rfl, ?_⟩
    rw [((literal_numbers _ _ ht).1 rfl).2 _ hdenotes, if_neg (by decide)]
  · have ht : ⟨.decimal, "-79228162514264337593543950335.5", 0⟩ ∈
        scan "-79228162514264337593543950335.5" := by decide +kernel
    have hdenotes : DenotesDecimal "-79228162514264337593543950335.5" true
        792281625142643375935439503355 1 :=
      ⟨"79228162514264337593543950335".toList, ['5'], by decide +kernel, by decide,
        by decide +kernel, by decide +kernel, rfl⟩
    refine ⟨_, ht, rfl, ?_⟩
    rcases (((literal_numbers _ _ ht).2.1 rfl).2 _ _ _ hdenotes).2 with
      ⟨m, scale, hheld, -⟩ | ⟨-, hrefused⟩
    · exact absurd hheld.fits (by decide)
    · exact hrefused

/-- One unit of 29 places is one place too many, so nothing is left of it. -/
theorem literal_rounded : ∃ t ∈ scan "0.00000000000000000000000000001",
    t.kind = .decimal ∧ DenotesDecimal t.text false 1 29 ∧
      Literal.parse t.kind t.text = .ok (.decimal ⟨0, 28⟩) := by
  have hparse : Decimal.parse "0.00000000000000000000000000001".toList = .ok ⟨0, 28⟩ := by
    decide +kernel
  refine ⟨⟨.decimal, "0.00000000000000000000000000001", 0⟩, by decide +kernel, rfl, ?_, ?_⟩
  · exact ⟨['0'], "00000000000000000000000000001".toList, by decide, by decide +kernel,
      by decide +kernel, by decide +kernel, by decide +kernel⟩
  · rw [Literal.parse_decimal_eq, hparse]

end DomainModel
