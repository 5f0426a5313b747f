/-
Values that differ at most in the order of their mappings.

`Value.same` compares mappings without regard to order.  It is to be trusted where no mapping
has a key twice (`Tidy`), and two values are `Alike` if they are such and the same.  Then
what is found in the one is alike to what is found in the other, under every key
(`alike_map`); what is written alike into both leaves them alike; and what is collected from
the entries of both is collected in another order at most (`Alike.flatMap_perm`).
-/
import DomainModel.Proofs.Value.Dict
import Mathlib.Data.List.Forall2
import Mathlib.Data.List.Perm.Subperm

namespace DomainModel

/-! ### Optional values -/

section
variable {α β γ δ : Type} {R : α → β → Prop} {S : γ → δ → Prop} {a : Option α} {b : Option β}

theorem rel_isSome (h : Option.Rel R a b) : a.isSome = b.isSome := by
  cases h <;> rfl

theorem rel_some {x : α} (h : Option.Rel R (some x) b) : ∃ y, b = some y ∧ R x y := by
  cases h with
  | some hxy => exact ⟨_, rfl, hxy⟩

/-- Going on from related options in related ways gives related options. -/
theorem rel_bind (h : Option.Rel R a b) {f : α → Option γ} {g : β → Option δ}
    (hfg : ∀ x y, R x y → Option.Rel S (f x) (g y)) : Option.Rel S (a.bind f) (b.bind g) := by
  cases h with
  | none => exact .none
  | some hxy => exact hfg _ _ hxy

theorem rel_map (h : Option.Rel R a b) {f : α → γ} {g : β → δ} (hfg : ∀ x y, R x y → S (f x) (g y)) :
    Option.Rel S (a.map f) (b.map g) := by
  cases h with
  | none => exact .none
  | some hxy => exact .some (hfg _ _ hxy)

/-- What stands in for nothing has to be related, too. -/
theorem rel_getD (h : Option.Rel R a b) {x : α} {y : β} (hxy : R x y) : R (a.getD x) (b.getD y) := by
  cases h with
  | none => exact hxy
  | some hab => exact hab

theorem rel_or {c : Option α} {d : Option β} (h : Option.Rel R a b) (h' : Option.Rel R c d) :
    Option.Rel R (a.or c) (b.or d) := by
  cases h with
  | none => exact h'
  | some hxy => exact .some hxy

theorem forall₂_toList (h : Option.Rel R a b) : List.Forall₂ R a.toList b.toList := by
  cases h with
  | none => exact .nil
  | some hxy => exact .cons hxy .nil

/-- Going on from related options to the same ends is the same. -/
theorem bind_eq_of_rel (h : Option.Rel R a b) {f : α → Option γ} {g : β → Option γ}
    (hfg : ∀ x y, R x y → f x = g y) : a.bind f = b.bind g := by
  cases h with
  | none => rfl
  | some hxy => exact hfg _ _ hxy

theorem any_eq_of_rel (h : Option.Rel R a b) {p : α → Bool} {q : β → Bool}
    (hpq : ∀ x y, R x y → p x = q y) : a.any p = b.any q := by
  cases h with
  | none => rfl
  | some hxy => exact hpq _ _ hxy

end

namespace Value

/-! ### Tidy values -/

/-- No mapping in a value has a key twice. -/
inductive Tidy : Value → Prop
  | null : Tidy .null
  | bool (b : Bool) : Tidy (.bool b)
  | int (n : Int) : Tidy (.int n)
  | decimal (d : Decimal) : Tidy (.decimal d)
  | string (s : String) : Tidy (.string s)
  | list {items : List Value} (h : ∀ v ∈ items, Tidy v) : Tidy (.list items)
  | map {entries : Members} (hkeys : (Dict.keys entries).Nodup)
      (h : ∀ e ∈ entries, Tidy e.2) : Tidy (.map entries)

attribute [simp] Tidy.null Tidy.bool Tidy.string

@[simp] theorem tidy_list {items : List Value} : (list items).Tidy ↔ ∀ v ∈ items, v.Tidy := by
  refine ⟨fun h => ?_, .list⟩
  cases h with
  | list h => exact h

@[simp] theorem tidy_map {m : Members} :
    (map m).Tidy ↔ (Dict.keys m).Nodup ∧ ∀ e ∈ m, e.2.Tidy := by
  refine ⟨fun h => ?_, fun h => .map h.1 h.2⟩
  cases h with
  | map hkeys h => exact ⟨hkeys, h⟩

@[simp] theorem tidy_ofString? (s : Option String) : (ofString? s).Tidy := by
  cases s with
  | none => exact .null
  | some s => exact .string s

/-- Writing keeps a mapping tidy. -/
theorem Tidy.insert {m : Members} (h : (Value.map m).Tidy) (key : String) {v : Value}
    (hv : v.Tidy) : (Value.map (Dict.insert key v m)).Tidy := by
  obtain ⟨hkeys, hall⟩ := tidy_map.mp h
  refine .map (Dict.nodup_keys_insert hkeys key v) fun e he => ?_
  rcases Dict.mem_insert he with rfl | he
  · exact hv
  · exact hall e he

theorem Tidy.extend {m more : Members} (h : (Value.map m).Tidy) (hmore : ∀ e ∈ more, e.2.Tidy) :
    (Value.map (Dict.extend m more)).Tidy := by
  induction more generalizing m with
  | nil => exact h
  | cons e more ih =>
      obtain ⟨he, hmore⟩ := List.forall_mem_cons.mp hmore
      exact ih (h.insert e.1 he) hmore

theorem tidy_ofList {entries : Members} (h : ∀ e ∈ entries, e.2.Tidy) :
    (map (Dict.ofList entries)).Tidy :=
  Tidy.extend (.map List.nodup_nil fun _ he => absurd he List.not_mem_nil) h

theorem Tidy.modify {m : Members} (h : (Value.map m).Tidy) (key : String) {f : Value → Value}
    (hf : ∀ v, v.Tidy → (f v).Tidy) : (Value.map (Dict.modify key f m)).Tidy := by
  obtain ⟨hkeys, hall⟩ := tidy_map.mp h
  refine .map (by rwa [Dict.keys_modify]) fun e he => ?_
  rcases Dict.mem_modify he with he | ⟨v, hv, rfl⟩
  · exact hall e he
  · exact hf v (hall _ hv)

/-! ### What the same means -/

theorem same_list (vs ws : List Value) : (list vs).same (list ws) = sameItems vs ws := rfl

theorem same_map (m m' : Members) :
    (map m).same (map m') = (m.length == m'.length && sameEntries m m') := rfl

theorem sameItems_iff {vs ws : List Value} :
    sameItems vs ws = true ↔ List.Forall₂ (fun v w => v.same w = true) vs ws := by
  induction vs generalizing ws with
  | nil =>
      cases ws with
      | nil => exact iff_of_true rfl .nil
      | cons => exact iff_of_false Bool.false_ne_true fun h => by cases h
  | cons v vs ih =>
      cases ws with
      | nil => exact iff_of_false Bool.false_ne_true fun h => by cases h
      | cons w ws =>
          rw [List.forall₂_cons, ← ih]
          exact Bool.and_eq_true_iff

theorem sameEntries_iff {m m' : Members} : sameEntries m m' = true ↔
    ∀ e ∈ m, ∃ w, Dict.get? m' e.1 = some w ∧ e.2.same w = true := by
  induction m with
  | nil => exact iff_of_true rfl fun _ he => absurd he List.not_mem_nil
  | cons e m ih =>
      rw [sameEntries, Bool.and_eq_true, ih, List.forall_mem_cons]
      cases Dict.get? m' e.1 <;> simp

/-- Tidy values that are the same. -/
structure Alike (v w : Value) : Prop where
  left : v.Tidy
  right : w.Tidy
  same : v.same w = true

theorem alike_list {vs ws : List Value} :
    (list vs).Alike (list ws) ↔ List.Forall₂ Alike vs ws := by
  constructor
  · rintro ⟨hv, hw, hsame⟩
    rw [same_list, sameItems_iff] at hsame
    rw [tidy_list] at hv hw
    refine List.forall₂_iff_zip.mpr ⟨hsame.length_eq, fun {v w} hmem => ?_⟩
    exact ⟨hv v (List.of_mem_zip hmem).1, hw w (List.of_mem_zip hmem).2,
      (List.forall₂_iff_zip.mp hsame).2 hmem⟩
  · intro h
    have hall : (∀ v ∈ vs, v.Tidy) ∧ ∀ w ∈ ws, w.Tidy := by
      induction h with
      | nil => simp
      | cons hvw _ ih =>
          rw [List.forall_mem_cons, List.forall_mem_cons]
          exact ⟨⟨hvw.left, ih.1⟩, hvw.right, ih.2⟩
    refine ⟨.list hall.1, .list hall.2, ?_⟩
    rw [same_list, sameItems_iff]
    exact h.imp fun _ _ hvw => hvw.same

/-- A mapping that holds what another one holds, and has as many keys, has the same keys. -/
theorem keys_perm_of_same {m m' : Members} (hkeys : (Dict.keys m).Nodup)
    (hsame : (map m).same (map m') = true) : (Dict.keys m).Perm (Dict.keys m') := by
  rw [same_map, Bool.and_eq_true, beq_iff_eq, sameEntries_iff] at hsame
  obtain ⟨hlength, hfound⟩ := hsame
  have hsubset : Dict.keys m ⊆ Dict.keys m' := by
    intro key hkey
    obtain ⟨e, he, rfl⟩ := List.mem_map.mp hkey
    obtain ⟨w, hw, -⟩ := hfound e he
    exact Dict.mem_keys_iff.mpr (Option.isSome_of_eq_some hw)
  refine (hkeys.subperm hsubset).perm_of_length_le ?_
  rw [Dict.keys, Dict.keys, List.length_map, List.length_map]
  exact Nat.le_of_eq hlength.symm

theorem keys_perm_of_rel {R : Value → Value → Prop} {m m' : Members}
    (hkeys : (Dict.keys m).Nodup) (hkeys' : (Dict.keys m').Nodup)
    (h : ∀ key, Option.Rel R (Dict.get? m key) (Dict.get? m' key)) :
    (Dict.keys m).Perm (Dict.keys m') := by
  refine (List.perm_ext_iff_of_nodup hkeys hkeys').mpr fun key => ?_
  rw [Dict.mem_keys_iff, Dict.mem_keys_iff, rel_isSome (h key)]

/-- **Mappings are alike if what they hold is**, under every key. -/
theorem alike_map {m m' : Members} : (map m).Alike (map m') ↔
    (Dict.keys m).Nodup ∧ (Dict.keys m').Nodup ∧
      ∀ key, Option.Rel Alike (Dict.get? m key) (Dict.get? m' key) := by
  constructor
  · rintro ⟨hm, hm', hsame⟩
    obtain ⟨hkeys, hall⟩ := tidy_map.mp hm
    obtain ⟨hkeys', hall'⟩ := tidy_map.mp hm'
    have hperm := keys_perm_of_same hkeys hsame
    rw [same_map, Bool.and_eq_true, sameEntries_iff] at hsame
    refine ⟨hkeys, hkeys', fun key => ?_⟩
    cases hget : Dict.get? m key with
    | none =>
        have hnot : key ∉ Dict.keys m' := fun hmem =>
          Dict.get?_eq_none_iff.mp hget (hperm.mem_iff.mpr hmem)
        rw [Dict.get?_eq_none_iff.mpr hnot]
        exact .none
    | some v =>
        have hmem := Dict.mem_of_get? hget
        obtain ⟨w, hw, hvw⟩ := hsame.2 _ hmem
        rw [hw]
        exact .some ⟨hall _ hmem, hall' _ (Dict.mem_of_get? hw), hvw⟩
  · rintro ⟨hkeys, hkeys', hrel⟩
    have hfound : ∀ e ∈ m, ∃ w, Dict.get? m' e.1 = some w ∧ e.2.Alike w := by
      intro e he
      have hhere := hrel e.1
      rw [Dict.get?_of_mem hkeys he] at hhere
      exact rel_some hhere
    refine ⟨.map hkeys fun e he => ?_, .map hkeys' fun e he => ?_, ?_⟩
    · obtain ⟨w, -, hvw⟩ := hfound e he
      exact hvw.left
    · have hmem : e.1 ∈ Dict.keys m :=
        (keys_perm_of_rel hkeys hkeys' hrel).mem_iff.mpr (List.mem_map_of_mem he)
      obtain ⟨entry, hentry, hkey⟩ := List.mem_map.mp hmem
      obtain ⟨w, hw, hvw⟩ := hfound entry hentry
      obtain rfl : w = e.2 :=
        Option.some.inj (hw.symm.trans (hkey ▸ Dict.get?_of_mem hkeys' he))
      exact hvw.right
    · rw [same_map, Bool.and_eq_true, beq_iff_eq, sameEntries_iff]
      have hlength := (keys_perm_of_rel hkeys hkeys' hrel).length_eq
      rw [Dict.keys, Dict.keys, List.length_map, List.length_map] at hlength
      refine ⟨hlength, fun e he => ?_⟩
      obtain ⟨w, hw, hvw⟩ := hfound e he
      exact ⟨w, hw, hvw.same⟩

/-- Entries that are alike one by one make mappings that are alike. -/
theorem alike_map_of_forall₂ {m m' : Members} (hkeys : (Dict.keys m).Nodup)
    (hkeys' : (Dict.keys m').Nodup)
    (h : List.Forall₂ (fun e e' => e.1 = e'.1 ∧ e.2.Alike e'.2) m m') :
    (map m).Alike (map m') := by
  refine alike_map.mpr ⟨hkeys, hkeys', fun key => ?_⟩
  clear hkeys hkeys'
  induction h with
  | nil => exact .none
  | cons he _ ih =>
      rw [Dict.get?_cons, Dict.get?_cons, he.1]
      split
      · exact .some he.2
      · exact ih

/-- A tidy value is alike to itself. -/
theorem Tidy.alike {v : Value} (h : v.Tidy) : v.Alike v := by
  induction h with
  | null => exact ⟨.null, .null, rfl⟩
  | bool b => exact ⟨.bool b, .bool b, beq_self_eq_true b⟩
  | int n => exact ⟨.int n, .int n, beq_self_eq_true n⟩
  | decimal d => exact ⟨.decimal d, .decimal d, beq_self_eq_true _⟩
  | string s => exact ⟨.string s, .string s, beq_self_eq_true s⟩
  | list _ ih => exact alike_list.mpr (List.forall₂_same.mpr ih)
  | @map entries hkeys _ ih =>
      refine alike_map.mpr ⟨hkeys, hkeys, fun key => ?_⟩
      cases hget : Dict.get? entries key with
      | none => exact .none
      | some v => exact .some (ih _ (Dict.mem_of_get? hget))

/-! ### Reading -/

section
variable {v w : Value} (h : v.Alike w)
include h

theorem Alike.string? : v.string? = w.string? := by
  have hsame := h.same
  cases v <;> cases w <;> first
    | rfl
    | exact congrArg some (eq_of_beq hsame)
    | exact absurd hsame Bool.false_ne_true

theorem Alike.isTrue : v.isTrue = w.isTrue := by
  have hsame := h.same
  cases v <;> cases w <;> first
    | rfl
    | exact eq_of_beq hsame
    | exact absurd hsame Bool.false_ne_true

theorem Alike.map? : Option.Rel (fun m m' => (map m).Alike (map m')) v.map? w.map? := by
  have hsame := h.same
  cases v <;> cases w <;> first
    | exact .some h
    | exact .none
    | exact absurd hsame Bool.false_ne_true

theorem Alike.list? : Option.Rel (List.Forall₂ Alike) v.list? w.list? := by
  have hsame := h.same
  cases v <;> cases w <;> first
    | exact .some (alike_list.mp h)
    | exact .none
    | exact absurd hsame Bool.false_ne_true

theorem Alike.get? (key : String) : Option.Rel Alike (v.get? key) (w.get? key) :=
  rel_bind h.map? fun _ _ hm => (alike_map.mp hm).2.2 key

theorem Alike.getString? (key : String) : v.getString? key = w.getString? key :=
  bind_eq_of_rel (h.get? key) fun _ _ hvw => hvw.string?

end

/-! ### Writing -/

section
variable {m m' : Members} (h : (map m).Alike (map m'))
include h

theorem Alike.mem_keys (key : String) : key ∈ Dict.keys m ↔ key ∈ Dict.keys m' := by
  rw [Dict.mem_keys_iff, Dict.mem_keys_iff, rel_isSome ((alike_map.mp h).2.2 key)]

theorem Alike.modify (key : String) {f g : Value → Value}
    (hfg : ∀ v w, v.Alike w → (f v).Alike (g w)) :
    (map (Dict.modify key f m)).Alike (map (Dict.modify key g m')) := by
  obtain ⟨hkeys, hkeys', hrel⟩ := alike_map.mp h
  refine alike_map.mpr ⟨?_, ?_, fun other => ?_⟩
  · rwa [Dict.keys_modify]
  · rwa [Dict.keys_modify]
  · rw [Dict.get?_modify, Dict.get?_modify]
    split
    · exact rel_map (hrel other) hfg
    · exact hrel other

theorem Alike.extend {more more' : Members} (hmore : (map more).Alike (map more')) :
    (map (Dict.extend m more)).Alike (map (Dict.extend m' more')) := by
  obtain ⟨-, -, hrel⟩ := alike_map.mp h
  obtain ⟨hkeys, hkeys', hrel'⟩ := alike_map.mp hmore
  have hleft := Tidy.extend h.left (tidy_map.mp hmore.left).2
  have hright := Tidy.extend h.right (tidy_map.mp hmore.right).2
  refine alike_map.mpr ⟨(tidy_map.mp hleft).1, (tidy_map.mp hright).1, fun key => ?_⟩
  rw [Dict.get?_extend_of_nodup hkeys, Dict.get?_extend_of_nodup hkeys']
  exact rel_or (hrel' key) (hrel key)

end

/-! ### Collecting -/

/-- **From mappings that are alike the same is collected**, in another order at most. -/
theorem Alike.flatMap_perm {β : Type} {m m' : Members} {f g : String × Value → List β}
    (h : (Value.map m).Alike (.map m'))
    (hfg : ∀ key v w, v.Alike w → (f (key, v)).Perm (g (key, w))) :
    (m.flatMap f).Perm (m'.flatMap g) := by
  obtain ⟨hkeys, hkeys', hrel⟩ := alike_map.mp h
  rw [Dict.flatMap_keys hkeys, Dict.flatMap_keys hkeys']
  refine .trans (.flatMap_left _ fun key _ => ?_)
    (.flatMap_right _ (keys_perm_of_rel hkeys hkeys' hrel))
  exact rel_getD (rel_map (hrel key) (hfg key)) (.refl _)

end Value

end DomainModel
