/-
Casing of ASCII letters.

Of the characters of ASCII none is looked up in a table: each has one small and one capital
form, so casing a text of them is casing its characters one by one, and each is a cluster of its
own.  What is asked of a single one is checked for all of them (`ascii_forall`).
-/
import DomainModel.Text.Casing

namespace DomainModel.Text

/-- A text of ASCII characters. -/
def Ascii (cs : List Char) : Prop := ∀ c ∈ cs, c.toNat < 128

theorem lowerChar_ascii {c : Char} (h : c.toNat < 128) : lowerChar c = [c.toLower] := if_pos h

theorem upperChar_ascii {c : Char} (h : c.toNat < 128) : upperChar c = [c.toUpper] := if_pos h

/-- A property that each character of ASCII has. -/
theorem ascii_forall {P : Char → Prop} (h : ∀ n < 128, P (Char.ofNat n)) {c : Char}
    (hc : c.toNat < 128) : P c := by
  have hn := h c.toNat hc
  rwa [Char.ofNat_toNat] at hn

/-- Of two casings the second one counts. -/
theorem cased_again {c : Char} (h : c.toNat < 128) : c.toUpper.toUpper = c.toUpper ∧
    c.toUpper.toLower = c.toLower ∧ c.toLower.toLower = c.toLower :=
  ascii_forall (P := fun c => c.toUpper.toUpper = c.toUpper ∧ c.toUpper.toLower = c.toLower ∧
    c.toLower.toLower = c.toLower) (by decide +kernel) h

theorem lowerAfter_ascii {cs : List Char} (h : Ascii cs) :
    ∀ before, lowerAfter before cs = cs.map Char.toLower := by
  induction cs with
  | nil => exact fun _ => rfl
  | cons c cs ih =>
      obtain ⟨hc, hcs⟩ := List.forall_mem_cons.mp h
      have hsigma : c ≠ 'Σ' := by
        rintro rfl
        exact absurd hc (by decide)
      intro before
      rw [lowerAfter, if_neg hsigma, lowerChar_ascii hc, ih hcs]
      rfl

theorem lower_ascii {cs : List Char} (h : Ascii cs) : lower cs = cs.map Char.toLower :=
  lowerAfter_ascii h []

/-- Nothing that small letters leave as it is counts as capital. -/
theorem not_isUpper_of_lower {cs : List Char} (h : lower cs = cs) : isUpper cs = false := by
  rw [isUpper, h, Bool.and_eq_false_iff]
  by_cases hupper : upper cs = cs
  · exact .inl (by simp [hupper])
  · exact .inr (by simpa using Ne.symm hupper)

/-- Every character of ASCII is a cluster. -/
theorem clusters_ascii {cs : List Char} (h : Ascii cs) : clusters cs = cs.map ([·]) := by
  induction cs with
  | nil => rfl
  | cons c cs ih =>
      obtain ⟨hc, hcs⟩ := List.forall_mem_cons.mp h
      have hmark : ∀ {d : Char}, d.toNat < 128 → isMark d = false ∧ isLead d = false := by
        intro d hd
        simp only [isMark, isLead, Bool.and_eq_false_iff, decide_eq_false_iff_not]
        omega
      rw [clusters, ih hcs]
      cases cs with
      | nil => rfl
      | cons d ds =>
          have hd : d.toNat < 128 := hcs d (List.mem_cons_self ..)
          simp [(hmark hd).1, (hmark hc).2]

end DomainModel.Text
