/-
What JSON keeps of a value.

Both layouts of a value are JSON (`Proofs/Value/JsonGrammar.lean`) for the same value, its
`jsonForm`: all of it is there, keys in their order and integers to the last digit, but a decimal
has become a string.  A JSON text stands for one value, so the texts of two values are the same
just if the values are the same in that form; and the string tells all about the decimal, its
scale included.

The two layouts differ in the white space in front of items and keys, behind colons and in
front of closing marks, which `denotes_list` and `denotes_map` leave open.
-/
import DomainModel.Proofs.Value.JsonGrammar

namespace DomainModel

open Lexer (Digits sign)
open Text (joinWith joinWith_cons)

namespace Value

mutual

/-- What JSON keeps of a value: each decimal becomes the string of its text. -/
def jsonForm : Value → Value
  | .decimal d => .string d.text
  | .list items => .list (jsonItems items)
  | .map entries => .map (jsonEntries entries)
  | v => v

def jsonItems : List Value → List Value
  | [] => []
  | v :: vs => jsonForm v :: jsonItems vs

def jsonEntries : List (String × Value) → List (String × Value)
  | [] => []
  | (key, v) :: rest => (key, jsonForm v) :: jsonEntries rest

end

theorem jsonForm_list (items : List Value) : (list items).jsonForm = .list (items.map jsonForm) := by
  rw [jsonForm]
  congr 1
  induction items with
  | nil => rfl
  | cons v vs ih => rw [jsonItems, ih, List.map_cons]

theorem jsonForm_map (entries : List (String × Value)) :
    (map entries).jsonForm = .map (entries.map fun e => (e.1, e.2.jsonForm)) := by
  rw [jsonForm]
  congr 1
  induction entries with
  | nil => rfl
  | cons e rest ih => rw [jsonEntries, ih, List.map_cons]

/-- Induction over values, with the hypothesis for all members at once. -/
theorem induct {P : Value → Prop} (scalar : ∀ v : Value, v.list? = none → v.map? = none → P v)
    (list : ∀ items, (∀ v ∈ items, P v) → P (.list items))
    (map : ∀ entries : List (String × Value), (∀ e ∈ entries, P e.2) → P (.map entries)) :
    ∀ v, P v
  | .null | .bool _ | .int _ | .decimal _ | .string _ => scalar _ rfl rfl
  | .list items => list items (allItems items)
  | .map entries => map entries (allEntries entries)
where
  allItems : ∀ items : List Value, ∀ v ∈ items, P v
    | [], _, h => nomatch h
    | w :: rest, v, h =>
      (List.mem_cons.mp h).elim (fun heq => heq ▸ induct scalar list map w)
        (fun hrest => allItems rest v hrest)
  allEntries : ∀ entries : List (String × Value), ∀ e ∈ entries, P e.2
    | [], _, h => nomatch h
    | (_, w) :: rest, e, h =>
      (List.mem_cons.mp h).elim (fun heq => heq ▸ induct scalar list map w)
        (fun hrest => allEntries rest e hrest)

end Value

namespace Json

/-! ### The two layouts -/

theorem compact_scalar {v : Value} (hlist : v.list? = none) (hmap : v.map? = none) :
    compact v = scalar v := by
  cases v with
  | list => cases hlist
  | map => cases hmap
  | _ => rfl

theorem pretty_scalar {v : Value} (hlist : v.list? = none) (hmap : v.map? = none) (depth : Nat) :
    pretty depth v = scalar v := by
  cases v with
  | list => cases hlist
  | map => cases hmap
  | _ => rfl

/-- What writes members one by one, with commas between them, joins them. -/
theorem row_eq_joinWith {α : Type} (row : List α → List Char) (one : α → List Char)
    (hnil : row [] = []) (hone : ∀ a, row [a] = one a)
    (hmore : ∀ a b rest, row (a :: b :: rest) = one a ++ ',' :: row (b :: rest)) :
    ∀ members, row members = joinWith [','] (members.map one) := by
  intro members
  induction members with
  | nil => exact hnil
  | cons a rest ih =>
      cases rest with
      | nil => exact hone a
      | cons b rest =>
          have hjoin : joinWith [','] ((a :: b :: rest).map one) =
              one a ++ [','] ++ joinWith [','] ((b :: rest).map one) := joinWith_cons _ _ (by simp)
          rw [hmore, ih, hjoin, List.append_assoc]
          rfl

theorem compact_list (items : List Value) :
    compact (.list items) = '[' :: (joinWith [','] (items.map compact) ++ [']']) := by
  have hrow := row_eq_joinWith compactItems compact rfl (fun _ => rfl)
    fun _ _ _ => rfl
  rw [compact, hrow, List.cons_append]

theorem compact_map (entries : List (String × Value)) : compact (.map entries) =
    '\x7b' :: (joinWith [','] (entries.map fun e => quoted e.1 ++ ':' :: compact e.2) ++
      ['\x7d']) := by
  have hrow := row_eq_joinWith compactEntries
    (fun e => quoted e.1 ++ ':' :: compact e.2) rfl (fun _ => rfl) fun e f rest => by
      rw [compactEntries, List.append_assoc]
      exact List.cons_ne_nil _ _
  rw [compact, hrow, List.cons_append]

/-- What stands in front of a closing mark: a line of its own, if there are members. -/
def closingGap {α : Type} (members : List α) (depth : Nat) : List Char :=
  if members.isEmpty then [] else newLine depth

theorem pretty_list (depth : Nat) (items : List Value) : pretty depth (.list items) =
    '[' :: (joinWith [','] (items.map fun v => newLine (depth + 1) ++ pretty (depth + 1) v) ++
      (closingGap items depth ++ [']'])) := by
  have hrow := row_eq_joinWith (prettyItems (depth + 1))
    (fun v => newLine (depth + 1) ++ pretty (depth + 1) v) rfl (fun _ => rfl)
    fun _ _ _ => rfl
  cases items with
  | nil => rfl
  | cons v vs =>
      rw [pretty, hrow, List.cons_append, List.cons_append, List.append_assoc]
      · rfl
      · exact List.cons_ne_nil _ _

theorem pretty_map (depth : Nat) (entries : List (String × Value)) : pretty depth (.map entries) =
    '\x7b' :: (joinWith [','] (entries.map fun e =>
      newLine (depth + 1) ++ (quoted e.1 ++ ':' :: ' ' :: pretty (depth + 1) e.2)) ++
      (closingGap entries depth ++ ['\x7d'])) := by
  have hrow := row_eq_joinWith (prettyEntries (depth + 1))
    (fun e => newLine (depth + 1) ++ (quoted e.1 ++ ':' :: ' ' :: pretty (depth + 1) e.2))
    rfl (fun e => by rw [prettyEntries, List.append_assoc]) fun e f rest => by
      rw [prettyEntries]
      · simp only [List.append_assoc, List.cons_append]
      · exact List.cons_ne_nil _ _
  cases entries with
  | nil => rfl
  | cons e rest =>
      rw [pretty, hrow, List.cons_append, List.cons_append, List.append_assoc]
      · rfl
      · exact List.cons_ne_nil _ _

/-! ### Values without parts -/

/-- A control character is escaped by its number. -/
theorem code?_control :
    ∀ n < 0x20, code? ['0', '0', Nat.digitChar (n / 16), Nat.digitChar (n % 16)] = some n := by
  decide

theorem letter_escape (c : Char) : Letter (escape c) c := by
  unfold escape
  split_ifs with hquote hslash hfeed hreturn htab hback hform hcontrol
  · exact .short (by subst hquote; decide)
  · exact .short (by subst hslash; decide)
  · exact .short (by subst hfeed; decide)
  · exact .short (by subst hreturn; decide)
  · exact .short (by subst htab; decide)
  · exact .short (by subst hback; decide)
  · exact .short (by subst hform; decide)
  · have hhigh : isHigh c.toNat = false := by
      simp only [isHigh, Bool.and_eq_false_iff, decide_eq_false_iff_not]
      omega
    have hlow : isLow c.toNat = false := by
      simp only [isLow, Bool.and_eq_false_iff, decide_eq_false_iff_not]
      omega
    have hletter := Letter.code (code?_control c.toNat hcontrol) hhigh hlow
    rwa [Char.ofNat_toNat] at hletter
  · exact .plain hquote hslash (Nat.le_of_not_lt hcontrol)

theorem denotes_quoted (s : String) : Denotes (quoted s) (.string s) := by
  have hletters : ∀ e ∈ s.toList.map fun c => (escape c, c), Letter e.1 e.2 :=
    List.forall_mem_map.mpr fun c _ => letter_escape c
  have hstring := Denotes.string hletters
  rw [List.flatMap_map, List.map_map] at hstring
  have hself : s.toList.map ((fun e : List Char × Char => e.2) ∘ fun c => (escape c, c)) = s.toList :=
    List.map_id' _
  rwa [hself, String.ofList_toList] at hstring

/-- Only zero is written with a zero in front. -/
theorem toDigits_zero_head (n : Nat) (h : (Nat.toDigits 10 n).head? = some '0') : n = 0 := by
  induction n using Nat.strongRecOn with
  | ind n ih =>
      by_cases hsmall : n < 10
      · rw [Nat.toDigits_of_lt_base hsmall] at h
        have hdigits : ∀ n < 10, [Nat.digitChar n].head? = some '0' → n = 0 := by decide
        exact hdigits n hsmall h
      · have hne : Nat.toDigits 10 (n / 10) ≠ [] := (digits_toDigits _).1
        rw [Nat.toDigits_of_base_le (by decide) (by omega), List.head?_append_of_ne_nil _ hne] at h
        have := ih (n / 10) (by omega) h
        omega

/-- An integer as the number that it is written as. -/
def integral (n : Int) : Numeral where
  negative := decide (n < 0)
  whole := Nat.toDigits 10 n.natAbs
  places := []
  power := none
  whole_digits := digits_toDigits _
  whole_zero h := by rw [toDigits_zero_head _ h]; rfl
  places_digits := fun _ h => nomatch h

theorem denotes_integer (n : Int) : Denotes (toString n).toList (.int n) := by
  have hwritten : (integral n).written = (toString n).toList := by
    rw [toList_integer]
    exact congrArg _ (List.append_nil _)
  have hvalue : (integral n).value = .int n := by
    show Value.int (signed (decide (n < 0)) (Nat.ofDigitChars 10 (Nat.toDigits 10 n.natAbs ++ []) 0)) = _
    rw [List.append_nil, Nat.ofDigitChars_ten_toDigits, signed_natAbs]
  have hnumber := Denotes.number (integral n)
  rwa [hwritten, hvalue] at hnumber

theorem denotes_scalar {v : Value} (hlist : v.list? = none) (hmap : v.map? = none) :
    Denotes (scalar v) v.jsonForm := by
  cases v with
  | null => exact .null
  | bool b =>
      cases b with
      | false => exact .no
      | true => exact .yes
  | int n => exact denotes_integer n
  | decimal d => exact denotes_quoted d.text
  | string s => exact denotes_quoted s
  | list => cases hlist
  | map => cases hmap

/-! ### Containers -/

theorem gap_nil : Gap [] := fun _ hc => nomatch hc

theorem gap_newLine (depth : Nat) : Gap (newLine depth) := by
  refine List.forall_mem_cons.mpr ⟨by decide, fun c hc => ?_⟩
  rw [List.eq_of_mem_replicate hc]
  decide

theorem gap_closing {α : Type} (members : List α) (depth : Nat) : Gap (closingGap members depth) := by
  unfold closingGap
  split
  · exact gap_nil
  · exact gap_newLine depth

/-- White space in front leaves the value as it is. -/
theorem Denotes.behind {gap cs : List Char} {v : Value} (hgap : Gap gap) (h : Denotes cs v) :
    Denotes (gap ++ cs) v := by
  have hspaced := Denotes.spaced hgap gap_nil h
  rwa [List.append_nil] at hspaced

theorem denotes_list {items : List Value} {one : Value → List Char} {gap : List Char}
    (hgap : Gap gap) (h : ∀ v ∈ items, Denotes (one v) v.jsonForm) :
    Denotes ('[' :: (joinWith [','] (items.map one) ++ (gap ++ [']'])))
      (Value.list items).jsonForm := by
  have hitems : ∀ e ∈ items.map fun v => (one v, v.jsonForm), Denotes e.1 e.2 :=
    List.forall_mem_map.mpr h
  have hlist := Denotes.list hitems hgap
  rw [List.map_map, List.map_map] at hlist
  rw [Value.jsonForm_list]
  exact hlist

theorem denotes_map {entries : List (String × Value)} (one : Value → List Char)
    {front gap : List Char} (hfront : Gap front) (hgap : Gap gap)
    (h : ∀ e ∈ entries, Denotes (one e.2) e.2.jsonForm) :
    Denotes ('\x7b' :: (joinWith [','] (entries.map fun e =>
      front ++ (quoted e.1 ++ ':' :: one e.2)) ++ (gap ++ ['\x7d'])))
      (Value.map entries).jsonForm := by
  have hkeys : ∀ m ∈ entries.map fun e =>
      Member.mk (front ++ quoted e.1) e.1 (one e.2) e.2.jsonForm, Denotes m.keyText (.string m.key) :=
    List.forall_mem_map.mpr fun e _ => (denotes_quoted e.1).behind hfront
  have hvalues : ∀ m ∈ entries.map fun e =>
      Member.mk (front ++ quoted e.1) e.1 (one e.2) e.2.jsonForm, Denotes m.text m.value :=
    List.forall_mem_map.mpr h
  have hmap := Denotes.map hkeys hvalues hgap
  rw [List.map_map, List.map_map] at hmap
  have hwritten : entries.map (Member.written ∘ fun e =>
      Member.mk (front ++ quoted e.1) e.1 (one e.2) e.2.jsonForm) =
      entries.map fun e => front ++ (quoted e.1 ++ ':' :: one e.2) :=
    List.map_congr_left fun e _ => List.append_assoc ..
  rw [hwritten] at hmap
  rw [Value.jsonForm_map]
  exact hmap

/-- **The compact text of a value is JSON for its form.** -/
theorem denotes_compact (v : Value) : Denotes (compact v) v.jsonForm := by
  induction v using Value.induct with
  | scalar v hlist hmap =>
      rw [compact_scalar hlist hmap]
      exact denotes_scalar hlist hmap
  | list items ih =>
      rw [compact_list]
      exact denotes_list gap_nil ih
  | map entries ih =>
      rw [compact_map]
      exact denotes_map compact gap_nil gap_nil ih

/-- **The text of a value laid out over lines is JSON for its form.** -/
theorem denotes_pretty (v : Value) : ∀ depth, Denotes (pretty depth v) v.jsonForm := by
  induction v using Value.induct with
  | scalar v hlist hmap =>
      intro depth
      rw [pretty_scalar hlist hmap]
      exact denotes_scalar hlist hmap
  | list items ih =>
      intro depth
      rw [pretty_list]
      exact denotes_list (gap_closing items depth) fun v hv =>
        (ih v hv (depth + 1)).behind (gap_newLine _)
  | map entries ih =>
      intro depth
      have hblank : Gap [' '] := List.forall_mem_singleton.mpr (by decide)
      rw [pretty_map]
      exact denotes_map (fun v => ' ' :: pretty (depth + 1) v) (gap_newLine _)
        (gap_closing entries depth) fun e he => (ih e he (depth + 1)).behind hblank

/-! ### The form says all that the texts do -/

theorem scalar_jsonForm {v : Value} (hlist : v.list? = none) (hmap : v.map? = none) :
    v.jsonForm.list? = none ∧ v.jsonForm.map? = none ∧ scalar v.jsonForm = scalar v := by
  cases v with
  | list => cases hlist
  | map => cases hmap
  | bool b => cases b <;> exact ⟨rfl, rfl, rfl⟩
  | _ => exact ⟨rfl, rfl, rfl⟩

theorem compact_jsonForm (v : Value) : compact v.jsonForm = compact v := by
  induction v using Value.induct with
  | scalar v hlist hmap =>
      obtain ⟨hlist', hmap', hscalar⟩ := scalar_jsonForm hlist hmap
      rw [compact_scalar hlist' hmap', compact_scalar hlist hmap, hscalar]
  | list items ih =>
      rw [Value.jsonForm_list, compact_list, compact_list, List.map_map]
      exact congrArg (fun texts => '[' :: (joinWith [','] texts ++ _)) (List.map_congr_left ih)
  | map entries ih =>
      rw [Value.jsonForm_map, compact_map, compact_map, List.map_map]
      refine congrArg (fun texts => '\x7b' :: (joinWith [','] texts ++ _))
        (List.map_congr_left fun e he => ?_)
      exact congrArg (fun text => quoted e.1 ++ ':' :: text) (ih e he)

theorem pretty_jsonForm (v : Value) : ∀ depth, pretty depth v.jsonForm = pretty depth v := by
  have hclosing {α : Type} (f : α → α) (members : List α) (depth : Nat) :
      closingGap (members.map f) depth = closingGap members depth := by
    cases members <;> rfl
  induction v using Value.induct with
  | scalar v hlist hmap =>
      intro depth
      obtain ⟨hlist', hmap', hscalar⟩ := scalar_jsonForm hlist hmap
      rw [pretty_scalar hlist' hmap', pretty_scalar hlist hmap, hscalar]
  | list items ih =>
      intro depth
      rw [Value.jsonForm_list, pretty_list, pretty_list, List.map_map, hclosing]
      refine congrArg (fun texts => '[' :: (joinWith [','] texts ++ _))
        (List.map_congr_left fun v hv => ?_)
      exact congrArg (newLine (depth + 1) ++ ·) (ih v hv _)
  | map entries ih =>
      intro depth
      rw [Value.jsonForm_map, pretty_map, pretty_map, List.map_map, hclosing]
      refine congrArg (fun texts => '\x7b' :: (joinWith [','] texts ++ _))
        (List.map_congr_left fun e he => ?_)
      exact congrArg (fun text => newLine (depth + 1) ++ (quoted e.1 ++ ':' :: ' ' :: text))
        (ih e he _)

/-- Texts that are JSON for the form of their value are the same just if the forms are. -/
theorem text_eq_iff {layout : Value → String}
    (hdenotes : ∀ v, Denotes (layout v).toList v.jsonForm)
    (hform : ∀ v : Value, layout v.jsonForm = layout v) (v w : Value) :
    layout v = layout w ↔ v.jsonForm = w.jsonForm := by
  constructor
  · intro h
    have hread := (hdenotes v).read?
    rw [h, (hdenotes w).read?] at hread
    exact (Option.some.inj hread).symm
  · intro h
    rw [← hform v, h, hform w]

end Json

/-! ### The text of a decimal -/

open Json.Numeral (pointed)

theorem pointed_injective {places places' : List Char} (h : pointed places = pointed places') :
    places = places' := by
  cases places with
  | nil =>
      cases places' with
      | nil => rfl
      | cons => cases h
  | cons =>
      cases places' with
      | nil => cases h
      | cons => exact (List.cons.inj h).2

/-- A decimal is written with its sign, digits, and as many places as it has. -/
theorem Decimal.text_parts (d : Decimal) : ∃ front back : List Char,
    d.text.toList = sign (decide (d.units < 0)) ++ (front ++ pointed back) ∧ Digits front ∧
      back.length = d.scale ∧ Nat.ofDigitChars 10 (front ++ back) 0 = d.units.natAbs := by
  rw [toList_text]
  by_cases hscale : d.scale = 0
  · refine ⟨Nat.toDigits 10 d.units.natAbs, [], ?_, digits_toDigits _, hscale.symm, ?_⟩
    · rw [digitsText, if_pos hscale]
      exact congrArg _ (List.append_nil _).symm
    · rw [List.append_nil, Nat.ofDigitChars_ten_toDigits]
  · obtain ⟨front, back, htext, hfront, hback, hlength, hvalue⟩ :=
      digitsText_eq d.units.natAbs (Nat.one_le_iff_ne_zero.mpr hscale)
    refine ⟨front, back, ?_, hfront, hlength, hvalue⟩
    rw [htext, pointed, if_neg (by simpa using hback.1)]

/-- **The text of a decimal tells its units and its scale.** -/
theorem Decimal.text_injective {d e : Decimal} (h : d.text = e.text) : d = e := by
  have hparts (negative : Bool) {front : List Char} (back : List Char) (hfront : Digits front) :
      Json.readSign ['-'] (sign negative ++ (front ++ pointed back)) =
          (negative, front ++ pointed back) ∧
        Json.readDigits (front ++ pointed back) = some (front, pointed back) := by
    constructor
    · cases negative with
      | true => rfl
      | false => exact Json.readSign_digits rfl hfront _
    · refine Json.readDigits_append hfront ?_
      cases back with
      | nil => exact fun c hc => nomatch hc
      | cons =>
          rintro c ⟨⟩
          rfl
  obtain ⟨front, back, htext, hfront, hscale, hunits⟩ := d.text_parts
  obtain ⟨front', back', htext', hfront', hscale', hunits'⟩ := e.text_parts
  obtain ⟨hsign, hdigits⟩ := hparts (decide (d.units < 0)) back hfront
  obtain ⟨hsign', hdigits'⟩ := hparts (decide (e.units < 0)) back' hfront'
  rw [← htext, h, htext', hsign'] at hsign
  obtain ⟨hnegative, hrest⟩ := Prod.mk.inj hsign
  rw [← hrest, hdigits'] at hdigits
  obtain ⟨rfl, hback⟩ := Prod.mk.inj (Option.some.inj hdigits)
  obtain rfl := pointed_injective hback
  have hequal : d.units = e.units := by
    rw [← signed_natAbs d.units, ← signed_natAbs e.units, ← hunits, ← hunits', hnegative]
  exact congrArg₂ Decimal.mk hequal (hscale.symm.trans hscale')

namespace Value

theorem denotes_toJson (v : Value) : Json.Denotes v.toJson.toList v.jsonForm := by
  rw [toJson, String.toList_ofList]
  exact Json.denotes_compact v

theorem denotes_toPrettyJson (v : Value) : Json.Denotes v.toPrettyJson.toList v.jsonForm := by
  rw [toPrettyJson, String.toList_ofList]
  exact Json.denotes_pretty v 0

theorem toJson_eq_iff (v w : Value) : v.toJson = w.toJson ↔ v.jsonForm = w.jsonForm :=
  Json.text_eq_iff denotes_toJson (fun v => congrArg String.ofList (Json.compact_jsonForm v)) v w

theorem toPrettyJson_eq_iff (v w : Value) :
    v.toPrettyJson = w.toPrettyJson ↔ v.jsonForm = w.jsonForm :=
  Json.text_eq_iff denotes_toPrettyJson
    (fun v => congrArg String.ofList (Json.pretty_jsonForm v 0)) v w

end Value

/-- **JSON keeps a value but for which of its texts are decimals.**  Either text of a value is
read as its form, and stands for nothing else; so values have the same text just if they have
the same form, where the string that a decimal becomes tells all about it. -/
theorem Value.json_faithful (v : Value) :
    (∀ text ∈ [v.toJson, v.toPrettyJson],
      Json.read? text = some v.jsonForm ∧ ∀ w, Json.Denotes text.toList w ↔ w = v.jsonForm) ∧
    (∀ w : Value, (v.toJson = w.toJson ↔ v.jsonForm = w.jsonForm) ∧
      (v.toPrettyJson = w.toPrettyJson ↔ v.jsonForm = w.jsonForm)) ∧
    ∀ d e : Decimal, d.text = e.text ↔ d = e := by
  refine ⟨fun text htext => ?_, fun w => ⟨toJson_eq_iff v w, toPrettyJson_eq_iff v w⟩,
    fun d e => ⟨Decimal.text_injective, congrArg _⟩⟩
  have hdenotes : Json.Denotes text.toList v.jsonForm := by
    simp only [List.mem_cons, List.not_mem_nil, or_false] at htext
    rcases htext with rfl | rfl
    · exact denotes_toJson v
    · exact denotes_toPrettyJson v
  refine ⟨hdenotes.read?, fun w => ⟨fun hw => ?_, fun heq => heq ▸ hdenotes⟩⟩
  exact Option.some.inj (hw.read?.symm.trans hdenotes.read?)

-- A decimal keeps its scale, and an empty list its line.
example : (Value.map [("a", .decimal ⟨150, 2⟩), ("b", .list [])]).toPrettyJson =
    "\x7b\n  \"a\": \"1.50\",\n  \"b\": []\n\x7d" := by
  decide +kernel

end DomainModel
