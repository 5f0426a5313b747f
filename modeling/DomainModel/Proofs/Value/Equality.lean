/-
When values are equal.

`Value.same` is a test that walks through two values.  `Value.Equal` says without a walk what it
tests: decimals are equal as numbers, lists element by element, mappings if they have the same
keys and equal values under each, and values of different shapes never, an integer and a decimal
included.  That is an equivalence by an induction that goes through the clauses.  The test looks
from the keys of one mapping into the other and compares how many there are; where no mapping
has a key twice that comes to the same, since a row of different keys that lies within another
row of the same length is all of it (`same_iff_equal`).

A query that keeps one of several equal values relies on that.  `Represents` says what it gives,
and the invariant of the loop is `Represents` itself, for the values seen so far: a value is
dropped because something equal to it was kept, and to be equal to the one is to be equal to
the other.
-/
import DomainModel.Model.Basic
import DomainModel.Proofs.Model.Document
import DomainModel.Proofs.Value.Selection
import Mathlib.Tactic.Positivity
import Mathlib.Data.Rat.Cast.Order

namespace DomainModel

/-- Options that are related by one relation are by another one that follows from it for what
they hold. -/
theorem rel_imp {α β : Type} {R S : α → β → Prop} {a : Option α} {b : Option β}
    (h : Option.Rel R a b) (hRS : ∀ x y, a = some x → b = some y → R x y → S x y) :
    Option.Rel S a b := by
  cases h with
  | none => exact .none
  | some hxy => exact .some (hRS _ _ rfl rfl hxy)

/-- The number that a decimal is. -/
def Decimal.toRat (d : Decimal) : ℚ := d.units / 10 ^ d.scale

theorem Decimal.same_iff {a b : Decimal} : a.same b = true ↔ a.toRat = b.toRat := by
  unfold same toRat
  rw [beq_iff_eq, div_eq_div_iff (by positivity) (by positivity), Nat.pow_eq, Nat.pow_eq]
  push_cast
  exact_mod_cast Iff.rfl

namespace Value

/-! ### Equal values -/

/-- Values that mean the same: numbers are compared as numbers of their kind, and mappings
without regard to order. -/
inductive Equal : Value → Value → Prop
  | null : Equal .null .null
  | bool (b : Bool) : Equal (.bool b) (.bool b)
  | int (n : Int) : Equal (.int n) (.int n)
  | decimal {a b : Decimal} (h : a.toRat = b.toRat) : Equal (.decimal a) (.decimal b)
  | string (s : String) : Equal (.string s) (.string s)
  | list {vs ws : List Value} (hlength : vs.length = ws.length)
      (h : ∀ (i : Nat) (v w : Value), vs[i]? = some v → ws[i]? = some w → Equal v w) :
      Equal (.list vs) (.list ws)
  | map {m m' : Members} (hkeys : ∀ key, key ∈ Dict.keys m ↔ key ∈ Dict.keys m')
      (h : ∀ key v w, Dict.get? m key = some v → Dict.get? m' key = some w → Equal v w) :
      Equal (.map m) (.map m')

theorem Tidy.equal_self {v : Value} (h : v.Tidy) : v.Equal v := by
  induction h with
  | null => exact .null
  | bool b => exact .bool b
  | int n => exact .int n
  | decimal d => exact .decimal rfl
  | string s => exact .string s
  | list _ ih =>
      refine .list rfl fun i v w hv hw => ?_
      obtain rfl := Option.some.inj (hv.symm.trans hw)
      exact ih v (List.mem_of_getElem? hv)
  | map _ _ ih =>
      refine .map (fun _ => Iff.rfl) fun key v w hv hw => ?_
      obtain rfl := Option.some.inj (hv.symm.trans hw)
      exact ih _ (Dict.mem_of_get? hv)

theorem Equal.symm {v w : Value} (h : v.Equal w) : w.Equal v := by
  induction h with
  | null => exact .null
  | bool b => exact .bool b
  | int n => exact .int n
  | decimal h => exact .decimal h.symm
  | string s => exact .string s
  | list hlength _ ih => exact .list hlength.symm fun i v w hv hw => ih i w v hw hv
  | map hkeys _ ih =>
      exact .map (fun key => (hkeys key).symm) fun key v w hv hw => ih key w v hw hv

theorem Equal.trans {u v w : Value} (h : u.Equal v) (h' : v.Equal w) : u.Equal w := by
  induction h generalizing w with
  | null => exact h'
  | bool b => exact h'
  | int n => exact h'
  | string s => exact h'
  | decimal h =>
      cases h' with
      | decimal h' => exact .decimal (h.trans h')
  | @list us vs hlength _ ih =>
      cases h' with
      | @list _ ws hlength' hall' =>
          refine .list (hlength.trans hlength') fun i u w hu hw => ?_
          -- The list in between reaches as far as the two others.
          have hi : i < vs.length := by
            have := (List.getElem?_eq_some_iff.mp hu).1
            omega
          have hv : vs[i]? = some vs[i] := List.getElem?_eq_getElem hi
          exact ih i u vs[i] hu hv (hall' i vs[i] w hv hw)
  | @map m m' hkeys _ ih =>
      cases h' with
      | @map _ m'' hkeys' hall' =>
          refine .map (fun key => (hkeys key).trans (hkeys' key)) fun key u w hu hw => ?_
          have hmem : key ∈ Dict.keys m' :=
            (hkeys key).mp (Dict.mem_keys_iff.mpr (Option.isSome_of_eq_some hu))
          obtain ⟨v, hv⟩ := Option.isSome_iff_exists.mp (Dict.mem_keys_iff.mp hmem)
          exact ih key u v hu hv (hall' key v w hv hw)

/-! ### The test -/

/-- Equal lists are equal element by element. -/
theorem equal_list {vs ws : List Value} :
    (list vs).Equal (list ws) ↔ List.Forall₂ Equal vs ws := by
  constructor
  · intro h
    cases h with
    | list hlength hall =>
        rw [List.forall₂_iff_get]
        refine ⟨hlength, fun i hi hi' => ?_⟩
        exact hall i _ _ (List.getElem?_eq_getElem hi) (List.getElem?_eq_getElem hi')
  · intro h
    refine .list h.length_eq fun i v w hv hw => ?_
    obtain ⟨hi, rfl⟩ := List.getElem?_eq_some_iff.mp hv
    obtain ⟨hi', rfl⟩ := List.getElem?_eq_some_iff.mp hw
    exact (List.forall₂_iff_get.mp h).2 i hi hi'

/-- Equal mappings hold equal values under every key, or both nothing. -/
theorem equal_map {m m' : Members} :
    (map m).Equal (map m') ↔ ∀ key, Option.Rel Equal (Dict.get? m key) (Dict.get? m' key) := by
  constructor
  · intro h key
    cases h with
    | map hkeys hall =>
        have hboth := hkeys key
        rw [Dict.mem_keys_iff, Dict.mem_keys_iff] at hboth
        cases hv : Dict.get? m key with
        | none =>
            have hw : Dict.get? m' key = none := by simpa [hv] using hboth
            rw [hw]
            exact .none
        | some v =>
            obtain ⟨w, hw⟩ := Option.isSome_iff_exists.mp (hboth.mp (Option.isSome_of_eq_some hv))
            rw [hw]
            exact .some (hall key v w hv hw)
  · intro h
    refine .map (fun key => ?_) fun key v w hv hw => ?_
    · rw [Dict.mem_keys_iff, Dict.mem_keys_iff, rel_isSome (h key)]
    · have hrel := h key
      rw [hv, hw] at hrel
      cases hrel with
      | some hvw => exact hvw

/-- What the test takes for the same is equal. -/
theorem Tidy.equal_of_same {v w : Value} (hv : v.Tidy) (hw : w.Tidy) (h : v.same w = true) :
    v.Equal w := by
  induction hv generalizing w with
  | null =>
      cases w with
      | null => exact .null
      | _ => simp [same] at h
  | bool b =>
      cases w with
      | bool b' =>
          obtain rfl : b = b' := by simpa [same] using h
          exact .bool b
      | _ => simp [same] at h
  | int n =>
      cases w with
      | int n' =>
          obtain rfl : n = n' := by simpa [same] using h
          exact .int n
      | _ => simp [same] at h
  | decimal d =>
      cases w with
      | decimal d' => exact .decimal (Decimal.same_iff.mp h)
      | _ => simp [same] at h
  | string s =>
      cases w with
      | string s' =>
          obtain rfl : s = s' := by simpa [same] using h
          exact .string s
      | _ => simp [same] at h
  | @list vs hvs ih =>
      cases w with
      | list ws =>
          have hall := alike_list.mp ⟨.list hvs, hw, h⟩
          rw [equal_list, List.forall₂_iff_zip]
          refine ⟨hall.length_eq, fun {v w} hmem => ?_⟩
          have hvw : v.Alike w := (List.forall₂_iff_zip.mp hall).2 hmem
          exact ih v (List.of_mem_zip hmem).1 hvw.right hvw.same
      | _ => simp [same] at h
  | @map m hkeys hm ih =>
      cases w with
      | map m' =>
          obtain ⟨-, -, hall⟩ := alike_map.mp ⟨.map hkeys hm, hw, h⟩
          rw [equal_map]
          intro key
          refine rel_imp (hall key) fun v w hget _ hvw => ?_
          exact ih _ (Dict.mem_of_get? hget) hvw.right hvw.same
      | _ => simp [same] at h

/-- What is equal passes the test, where no mapping has a key twice. -/
theorem Equal.alike {v w : Value} (h : v.Equal w) (hv : v.Tidy) (hw : w.Tidy) : v.Alike w := by
  induction h with
  | null | bool | int | string => exact hv.alike
  | decimal h => exact ⟨hv, hw, Decimal.same_iff.mpr h⟩
  | @list vs ws hlength _ ih =>
      rw [tidy_list] at hv hw
      rw [alike_list, List.forall₂_iff_get]
      refine ⟨hlength, fun i hi hi' => ?_⟩
      exact ih i _ _ (List.getElem?_eq_getElem hi) (List.getElem?_eq_getElem hi')
        (hv _ (List.getElem_mem hi)) (hw _ (List.getElem_mem hi'))
  | @map m m' hkeys hall ih =>
      obtain ⟨hnodup, hvs⟩ := tidy_map.mp hv
      obtain ⟨hnodup', hws⟩ := tidy_map.mp hw
      refine alike_map.mpr ⟨hnodup, hnodup', fun key => ?_⟩
      refine rel_imp (equal_map.mp (.map hkeys hall) key) fun v w hv hw _ => ?_
      exact ih key v w hv hw (hvs _ (Dict.mem_of_get? hv)) (hws _ (Dict.mem_of_get? hw))

/-- **The test tells whether values are equal**, where no mapping has a key twice. -/
theorem same_iff_equal {v w : Value} (hv : v.Tidy) (hw : w.Tidy) :
    v.same w = true ↔ v.Equal w :=
  ⟨hv.equal_of_same hw, fun h => (h.alike hv hw).same⟩

/-! ### What a query meets -/

theorem Tidy.step {v next : Value} (h : v.Tidy) {key : String} (hstep : v.step? key = some next) :
    next.Tidy := by
  cases h with
  | list hall =>
      obtain ⟨i, -, hi⟩ := Option.bind_eq_some_iff.mp hstep
      exact hall _ (List.mem_of_getElem? hi)
  | map _ hall => exact hall _ (Dict.mem_of_get? hstep)
  | _ => simp [step?] at hstep

theorem Tidy.child {v : Value} (h : v.Tidy) {e : String × Value} (he : e ∈ v.steppedChildren) :
    e.2.Tidy := by
  cases h with
  | list hall =>
      obtain ⟨i, hi, -⟩ := mem_of_steppedChildren he
      exact hall _ (List.mem_of_getElem? hi)
  | map _ hall => exact hall e he
  | _ => simp [steppedChildren] at he

/-- What holds of a tidy value when it holds of its members holds of every tidy value. -/
theorem Tidy.induct {P : Value → Prop}
    (step : ∀ v : Value, v.Tidy → (∀ e ∈ v.steppedChildren, P e.2) → P v) {v : Value}
    (h : v.Tidy) : P v := by
  have hleaf : ∀ v : Value, v.Tidy → v.steppedChildren = [] → P v := by
    intro v hv hnone
    refine step v hv fun e he => ?_
    simp [hnone] at he
  induction h with
  | null => exact hleaf _ .null rfl
  | bool b => exact hleaf _ (.bool b) rfl
  | int n => exact hleaf _ (.int n) rfl
  | decimal d => exact hleaf _ (.decimal d) rfl
  | string s => exact hleaf _ (.string s) rfl
  | list hall ih =>
      refine step _ (.list hall) fun e he => ?_
      obtain ⟨i, hi, -⟩ := mem_of_steppedChildren he
      exact ih _ (List.mem_of_getElem? hi)
  | map hkeys hall ih => exact step _ (.map hkeys hall) fun e he => ih e he

/-- **Whatever is found in a tidy value is tidy.** -/
theorem Tidy.selectFrom {v : Value} (h : v.Tidy) (segments : List Pattern.Step) :
    ∀ path, ∀ found ∈ Pattern.selectFrom segments path v, found.2.Tidy := by
  induction segments generalizing v with
  | nil =>
      intro path found hfound
      rw [Pattern.selectFrom, List.mem_singleton] at hfound
      rw [hfound]
      exact h
  | cons segment segments ih =>
      cases segment with
      | key name =>
          intro path found hfound
          rw [Pattern.selectFrom] at hfound
          cases hstep : v.step? name with
          | none => simp [hstep] at hfound
          | some next =>
              rw [hstep] at hfound
              exact ih (h.step hstep) _ found hfound
      | any =>
          intro path found hfound
          rw [Pattern.selectFrom, List.mem_flatMap] at hfound
          obtain ⟨e, he, hfound⟩ := hfound
          exact ih (h.child he) _ found hfound
      | descendants =>
          -- Going down meets the node itself and what is below its members.
          refine Tidy.induct (P := fun v => ∀ path, ∀ found ∈ Pattern.selectFrom
            (.descendants :: segments) path v, found.2.Tidy) ?_ h
          intro v hv ihv path found hfound
          rw [Pattern.selectFrom, Pattern.descend_eq, List.mem_append, List.mem_flatMap] at hfound
          rcases hfound with hfound | ⟨e, he, hfound⟩
          · exact ih hv path found hfound
          · exact ihv e he _ found hfound

end Value

/-! ### One of several equal values -/

open Value

/-- Of some values these are kept: no null, no two that are the same, and of all that are the
same as a value other than null the one that comes first. -/
structure Represents (values kept : List Value) : Prop where
  sublist : kept.Sublist values
  proper : ∀ v ∈ kept, v.isNull = false
  distinct : kept.Pairwise fun v w => v.same w = false
  first : ∀ v ∈ values, v.isNull = false → ∃ w ∈ kept, values.find? (·.same v) = some w ∧
    ∀ x ∈ kept, x.same v = true → x = w

namespace Model

theorem unique_concat (values : List Value) (v : Value) :
    unique (values ++ [v]) =
      if v.isNull || (unique values).any (·.same v) then unique values else unique values ++ [v] := by
  unfold unique
  rw [List.foldl_append]
  rfl

end Model

/-- The same as something that is not null is not null. -/
theorem Value.isNull_of_same {v w : Value} (h : v.same w = true) : v.isNull = w.isNull := by
  cases v <;> cases w <;> simp_all [same, isNull]

/-- Tests that agree on a list find the same in it. -/
theorem find?_eq_of_mem {α : Type} {p q : α → Bool} {xs : List α} (h : ∀ x ∈ xs, p x = q x) :
    xs.find? p = xs.find? q := by
  induction xs with
  | nil => rfl
  | cons x xs ih =>
      obtain ⟨hx, hxs⟩ := List.forall_mem_cons.mp h
      rw [List.find?_cons, List.find?_cons, hx, ih hxs]

theorem Represents.nil : Represents [] [] where
  sublist := List.Sublist.refl _
  proper := by simp
  distinct := List.Pairwise.nil
  first := by simp

section
variable {values kept : List Value} {v : Value}

/-- What is represented already changes nothing. -/
theorem Represents.append (h : Represents values kept)
    (hv : v.isNull = false → ∃ w ∈ kept, values.find? (·.same v) = some w ∧
      ∀ y ∈ kept, y.same v = true → y = w) : Represents (values ++ [v]) kept where
  sublist := h.sublist.trans (List.sublist_append_left ..)
  proper := h.proper
  distinct := h.distinct
  first := by
    intro x hx hproper
    have hfirst : ∃ w ∈ kept, values.find? (·.same x) = some w ∧
        ∀ y ∈ kept, y.same x = true → y = w := by
      rcases List.mem_append.mp hx with hx | hx
      · exact h.first x hx hproper
      · obtain rfl := List.mem_singleton.mp hx
        exact hv hproper
    obtain ⟨w, hw, hfind, honly⟩ := hfirst
    refine ⟨w, hw, ?_, honly⟩
    rw [List.find?_append, hfind, Option.some_or]

/-- A null changes nothing. -/
theorem Represents.null (h : Represents values kept) (hnull : v.isNull = true) :
    Represents (values ++ [v]) kept :=
  h.append fun hproper => Bool.noConfusion (hnull.symm.trans hproper)

/-- Neither does a value that something kept is the same as. -/
theorem Represents.again (h : Represents values kept) (htidy : ∀ x ∈ values, x.Tidy) (hv : v.Tidy)
    {k : Value} (hk : k ∈ kept) (hsame : k.same v = true) :
    Represents (values ++ [v]) kept := by
  have hmem : k ∈ values := h.sublist.subset hk
  obtain ⟨w, hw, hfind, honly⟩ := h.first k hmem (h.proper k hk)
  -- To be the same as the one is to be the same as the other.
  have hkv : k.Equal v := (same_iff_equal (htidy k hmem) hv).mp hsame
  have hboth : ∀ y ∈ values, y.same k = y.same v := by
    intro y hy
    rw [Bool.eq_iff_iff, same_iff_equal (htidy y hy) (htidy k hmem),
      same_iff_equal (htidy y hy) hv]
    exact ⟨fun hyk => hyk.trans hkv, fun hyv => hyv.trans hkv.symm⟩
  refine h.append fun _ => ⟨w, hw, ?_, fun y hy hyv => ?_⟩
  · rw [← hfind]
    exact (find?_eq_of_mem hboth).symm
  · refine honly y hy ?_
    rw [hboth y (h.sublist.subset hy)]
    exact hyv

/-- A value like no other is kept. -/
theorem Represents.fresh (h : Represents values kept) (htidy : ∀ x ∈ values, x.Tidy) (hv : v.Tidy)
    (hproper : v.isNull = false) (hnone : ∀ k ∈ kept, k.same v = false) :
    Represents (values ++ [v]) (kept ++ [v]) where
  sublist := h.sublist.append (List.Sublist.refl _)
  proper := by
    intro x hx
    rcases List.mem_append.mp hx with hx | hx
    · exact h.proper x hx
    · rw [List.mem_singleton.mp hx]
      exact hproper
  distinct := by
    rw [List.pairwise_append]
    refine ⟨h.distinct, List.pairwise_singleton _ _, fun k hk x hx => ?_⟩
    rw [List.mem_singleton.mp hx]
    exact hnone k hk
  first := by
    intro x hx hx'
    rcases List.mem_append.mp hx with hmem | hx
    · obtain ⟨w, hw, hfind, honly⟩ := h.first x hmem hx'
      have hwx : w.Equal x := by
        have hw' := h.sublist.subset hw
        refine (same_iff_equal (htidy w hw') (htidy x hmem)).mp ?_
        simpa using List.find?_some hfind
      refine ⟨w, List.mem_append_left _ hw, ?_, fun y hy hyx => ?_⟩
      · rw [List.find?_append, hfind, Option.some_or]
      · rcases List.mem_append.mp hy with hy | hy
        · exact honly y hy hyx
        · -- The new value would be the same as the one that was kept for this one.
          obtain rfl := List.mem_singleton.mp hy
          have hyx' := (same_iff_equal hv (htidy x hmem)).mp hyx
          have hwy := (same_iff_equal (htidy w (h.sublist.subset hw)) hv).mpr
            (hwx.trans hyx'.symm)
          simp [hnone w hw] at hwy
    · obtain rfl := List.mem_singleton.mp hx
      have hself : x.same x = true := (same_iff_equal hv hv).mpr hv.equal_self
      have hbefore : values.find? (·.same x) = none := by
        rw [List.find?_eq_none]
        intro y hy hyx
        obtain ⟨w, hw, hfind, -⟩ := h.first y hy (by rw [isNull_of_same hyx, hproper])
        have hw' := h.sublist.subset hw
        have hwy : w.same y = true := by simpa using List.find?_some hfind
        have hwx := ((same_iff_equal (htidy w hw') (htidy y hy)).mp hwy).trans
          ((same_iff_equal (htidy y hy) hv).mp hyx)
        have := (same_iff_equal (htidy w hw') hv).mpr hwx
        simp [hnone w hw] at this
      refine ⟨x, List.mem_append_right _ (List.mem_singleton_self x), ?_, fun y hy hyx => ?_⟩
      · rw [List.find?_append, hbefore]
        simp [hself]
      · rcases List.mem_append.mp hy with hy | hy
        · simp [hnone y hy] at hyx
        · exact List.mem_singleton.mp hy

end

/-- **Of tidy values that are the same the first is kept.** -/
theorem represents_unique {values : List Value} (htidy : ∀ v ∈ values, v.Tidy) :
    Represents values (Model.unique values) := by
  induction values using List.reverseRecOn with
  | nil => exact .nil
  | append_singleton values v ih =>
      have hvalues : ∀ x ∈ values, x.Tidy := fun x hx => htidy x (List.mem_append_left _ hx)
      have hv : v.Tidy := htidy v (by simp)
      have h := ih hvalues
      rw [Model.unique_concat]
      by_cases hnull : v.isNull = true
      · rw [if_pos (by simp [hnull])]
        exact h.null hnull
      · by_cases hkept : (Model.unique values).any (·.same v) = true
        · rw [if_pos (by simp [hkept])]
          obtain ⟨k, hk, hsame⟩ := List.any_eq_true.mp hkept
          exact h.again hvalues hv hk hsame
        · rw [if_neg (by simp [hnull, hkept])]
          refine h.fresh hvalues hv (by simpa using hnull) fun k hk => ?_
          by_contra hsame
          exact hkept (List.any_eq_true.mpr ⟨k, hk, by simpa using hsame⟩)

/-- **Equality of values is an equivalence, and queries that give distinct values keep the first
of each class.**  Values and models are taken as they can be built, with no key twice in any
mapping. -/
theorem Model.distinct_represents :
    Equivalence (fun v w : {v : Value // v.Tidy} => v.1.same w.1 = true) ∧
    (∀ v w : Value, v.Tidy → w.Tidy → (v.same w = true ↔ v.Equal w)) ∧
    ∀ (m : Model) (pattern : String), m.value.Tidy →
      Represents (m.selected pattern) (m.distinct pattern) := by
  refine ⟨⟨fun v => ?_, fun {v w} h => ?_, fun {u v w} h h' => ?_⟩, fun v w => same_iff_equal, ?_⟩
  · exact (same_iff_equal v.2 v.2).mpr v.2.equal_self
  · rw [same_iff_equal v.2 w.2] at h
    exact (same_iff_equal w.2 v.2).mpr h.symm
  · rw [same_iff_equal u.2 v.2] at h
    rw [same_iff_equal v.2 w.2] at h'
    exact (same_iff_equal u.2 w.2).mpr (h.trans h')
  · intro m pattern htidy
    refine represents_unique fun v hv => ?_
    obtain ⟨found, hfound, rfl⟩ := List.mem_map.mp hv
    exact htidy.selectFrom _ _ found hfound

/-- A decimal written in two ways is kept once, and so is a mapping in two orders; an integer is
kept beside them. -/
theorem Model.distinct_represents_shapes :
    let m : Model := { document := { config := [("a", .decimal ⟨10, 1⟩), ("b", .null),
      ("c", .decimal ⟨100, 2⟩), ("d", .int 1), ("e", .map [("x", .int 1), ("y", .int 2)]),
      ("f", .map [("y", .int 2), ("x", .int 1)])] } }
    m.value.Tidy ∧
      m.distinct "config.*" = [.decimal ⟨10, 1⟩, .int 1, .map [("x", .int 1), ("y", .int 2)]] ∧
      Represents (m.selected "config.*") (m.distinct "config.*") ∧
      (Value.map [("x", .int 1), ("y", .int 2)]).Equal (.map [("y", .int 2), ("x", .int 1)]) ∧
      ¬ (Value.int 1).Equal (.decimal ⟨1, 0⟩) := by
  intro m
  obtain ⟨-, htest, hqueries⟩ := Model.distinct_represents
  have hpair : ∀ k l : String, k ≠ l → ∀ i j : Int, (Value.map [(k, .int i), (l, .int j)]).Tidy := by
    intro k l hne i j
    simp [Dict.keys, hne, Tidy.int]
  have hm : m.value.Tidy := by
    refine .map m.document.nodup_keys_entries ?_
    simp [m, Document.entries, Collection.all, Document.collection, Dict.keys, Tidy.int,
      Tidy.decimal, hpair]
  have hselected : m.selected "config.*" = [.decimal ⟨10, 1⟩, .null, .decimal ⟨100, 2⟩, .int 1,
      .map [("x", .int 1), ("y", .int 2)], .map [("y", .int 2), ("x", .int 1)]] := by
    rfl
  refine ⟨hm, ?_, hqueries m _ hm, (htest _ _ ?_ ?_).mp rfl, fun h => ?_⟩
  · rw [Model.distinct, hselected]
    rfl
  · exact hpair "x" "y" (by decide) 1 2
  · exact hpair "y" "x" (by decide) 2 1
  · cases h

end DomainModel
