/-
Mappings that are equal but for what stands at some keys.

Two mappings are related key by key (`Dict.Rel`) if they have the same keys in the same order
and related values.  Writing related values into both at a key leaves them so, and what is
found in both at a key is related.  They are equal but for some keys (`EqualBut`) if nothing is
asked of the values there, and equality everywhere else.  Then whatever is written alike into
both leaves them so, at whatever key, and whatever is read at another key is the same.
-/
import DomainModel.Proofs.Value.Same

namespace DomainModel

/-! ### Rows -/

section
variable {α β γ : Type} {R : α → β → Prop} {as : List α} {bs : List β}

/-- What is collected alike from related rows is the same. -/
theorem flatMap_eq_of_forall₂ (h : List.Forall₂ R as bs) {f : α → List γ} {g : β → List γ}
    (hfg : ∀ a b, R a b → f a = g b) : as.flatMap f = bs.flatMap g := by
  induction h with
  | nil => rfl
  | cons hab _ ih => rw [List.flatMap_cons, List.flatMap_cons, hfg _ _ hab, ih]

/-- What is accumulated alike over related rows is the same. -/
theorem foldl_eq_of_forall₂ (h : List.Forall₂ R as bs) {f : γ → α → γ} {g : γ → β → γ}
    (hfg : ∀ c a b, R a b → f c a = g c b) : ∀ c, as.foldl f c = bs.foldl g c := by
  induction h with
  | nil => exact fun _ => rfl
  | cons hab _ ih =>
      intro c
      rw [List.foldl_cons, List.foldl_cons, hfg _ _ _ hab, ih]

end

/-! ### Mappings -/

namespace Dict

variable {α : Type}

/-- The same keys in the same order, and values that are related. -/
def Rel (R : String → α → α → Prop) (d d' : Dict α) : Prop :=
  List.Forall₂ (fun e e' => e.1 = e'.1 ∧ R e.1 e.2 e'.2) d d'

variable {R S : String → α → α → Prop} {d d' more more' : Dict α}

@[simp] theorem rel_nil : Rel R [] [] := .nil

@[simp] theorem rel_cons {e e' : String × α} :
    Rel R (e :: d) (e' :: d') ↔ (e.1 = e'.1 ∧ R e.1 e.2 e'.2) ∧ Rel R d d' := List.forall₂_cons

theorem Rel.refl (hR : ∀ key v, R key v v) (d : Dict α) : Rel R d d :=
  List.forall₂_same.mpr fun e _ => ⟨rfl, hR e.1 e.2⟩

theorem Rel.imp (h : Rel R d d') (hRS : ∀ key v w, R key v w → S key v w) : Rel S d d' :=
  List.Forall₂.imp (fun _ _ he => ⟨he.1, hRS _ _ _ he.2⟩) h

/-- What is related stands in the mappings. -/
theorem Rel.mem (h : Rel R d d') :
    Rel (fun key v w => (key, v) ∈ d ∧ (key, w) ∈ d' ∧ R key v w) d d' := by
  induction h with
  | nil => exact .nil
  | @cons e e' d d' he _ ih =>
      refine .cons ⟨he.1, List.mem_cons_self .., ?_, he.2⟩ ?_
      · rw [he.1]
        exact List.mem_cons_self ..
      · refine List.Forall₂.imp (fun _ _ hrest => ?_) ih
        obtain ⟨hsame, hleft, hright, hrel⟩ := hrest
        exact ⟨hsame, List.mem_cons_of_mem _ hleft, List.mem_cons_of_mem _ hright, hrel⟩

theorem Rel.get? (h : Rel R d d') (key : String) :
    Option.Rel (R key) (Dict.get? d key) (Dict.get? d' key) := by
  induction h with
  | nil => exact .none
  | @cons e e' _ _ he _ ih =>
      rw [get?_cons, get?_cons, ← he.1]
      by_cases hhere : key = e.1
      · rw [if_pos hhere, if_pos hhere, hhere]
        exact .some he.2
      · rw [if_neg hhere, if_neg hhere]
        exact ih

theorem Rel.insert (h : Rel R d d') {key : String} {v w : α} (hvw : R key v w) :
    Rel R (Dict.insert key v d) (Dict.insert key w d') := by
  induction h with
  | nil => exact .cons ⟨rfl, hvw⟩ .nil
  | @cons e e' _ _ he hrest ih =>
      rw [Dict.insert, Dict.insert, ← he.1]
      by_cases hhere : e.1 = key
      · rw [if_pos hhere, if_pos hhere]
        exact .cons ⟨rfl, hvw⟩ hrest
      · rw [if_neg hhere, if_neg hhere]
        exact .cons he ih

theorem Rel.extend (h : Rel R d d') (hmore : Rel R more more') :
    Rel R (Dict.extend d more) (Dict.extend d' more') := by
  induction hmore generalizing d d' with
  | nil => exact h
  | @cons e e' _ _ he _ ih =>
      refine ih ?_
      show Rel R (Dict.insert e.1 e.2 d) (Dict.insert e'.1 e'.2 d')
      rw [← he.1]
      exact h.insert he.2

theorem Rel.modify (h : Rel R d d') (key : String) {f g : α → α}
    (hfg : ∀ v w, R key v w → R key (f v) (g w)) :
    Rel R (Dict.modify key f d) (Dict.modify key g d') := by
  induction h with
  | nil => exact .nil
  | @cons e e' _ _ he hrest ih =>
      rw [Dict.modify, Dict.modify, ← he.1]
      by_cases hhere : e.1 = key
      · rw [if_pos hhere, if_pos hhere]
        exact .cons ⟨rfl, by rw [hhere] at he ⊢; exact hfg _ _ he.2⟩ hrest
      · rw [if_neg hhere, if_neg hhere]
        exact .cons he ih

end Dict

/-- Equal but for what stands at some keys. -/
def Members.EqualBut (keys : List String) (m m' : Members) : Prop :=
  Dict.Rel (fun key v w => key ∉ keys → v = w) m m'

namespace Members

variable {keys more : List String} {m m' : Members}

theorem EqualBut.refl (keys : List String) (m : Members) : m.EqualBut keys m :=
  Dict.Rel.refl (fun _ _ _ => rfl) m

theorem EqualBut.mono (h : m.EqualBut keys m') (hkeys : keys ⊆ more) : m.EqualBut more m' :=
  Dict.Rel.imp h fun _ _ _ hvw hmore => hvw fun hkey => hmore (hkeys hkey)

/-- What is found at another key is the same. -/
theorem EqualBut.get? (h : m.EqualBut keys m') {key : String} (hkey : key ∉ keys) :
    Dict.get? m key = Dict.get? m' key := by
  have hbind := bind_eq_of_rel (Dict.Rel.get? h key) (f := some) (g := some)
    fun _ _ hvw => congrArg some (hvw hkey)
  simpa using hbind

/-- What is written alike into both, at whatever key, leaves them equal but for the others. -/
theorem EqualBut.extend (h : m.EqualBut keys m') (written : Members) :
    Members.EqualBut keys (Dict.extend m written) (Dict.extend m' written) :=
  Dict.Rel.extend h (Dict.Rel.refl (fun _ _ _ => rfl) written)

/-- What is changed at another key was the same, so it stays the same. -/
theorem EqualBut.modify (h : m.EqualBut keys m') {key : String} (hkey : key ∉ keys)
    (f : Value → Value) : Members.EqualBut keys (Dict.modify key f m) (Dict.modify key f m') :=
  Dict.Rel.modify h key fun _ _ hvw _ => congrArg f (hvw hkey)

end Members

/-! ### Values -/

/-- Equal values, or mappings that are equal but for what stands at some keys. -/
inductive Value.EqualBut (keys : List String) : Value → Value → Prop
  | refl (v : Value) : EqualBut keys v v
  | map {m m' : Members} (h : m.EqualBut keys m') : EqualBut keys (.map m) (.map m')

namespace Value

variable {keys more : List String} {v w : Value}

theorem EqualBut.mono (h : v.EqualBut keys w) (hkeys : keys ⊆ more) : v.EqualBut more w := by
  cases h with
  | refl => exact .refl v
  | map h => exact .map (h.mono hkeys)

theorem EqualBut.get? (h : v.EqualBut keys w) {key : String} (hkey : key ∉ keys) :
    v.get? key = w.get? key := by
  cases h with
  | refl => rfl
  | map h => exact h.get? hkey

theorem EqualBut.getString? (h : v.EqualBut keys w) {key : String} (hkey : key ∉ keys) :
    v.getString? key = w.getString? key := by
  rw [Value.getString?, Value.getString?, h.get? hkey]

end Value

end DomainModel
