/-
Reading and writing at a path.

Several paths may lead to one node, as an index can be written in more than one way.  What
tells nodes apart is their address: the number of the member that is gone into at every step.
A path leads to an address and the address to the node, for reading (`follow?_eq`) as well as
for writing (`replace?_eq`), so both meet the same node.

What a write does is then said of addresses.  The new value is read back where it was written.
A node whose address neither goes on from there nor leads there is what it was, and a node on
the way there keeps its keys, their order and its length: every node outside of what is
replaced, stripped of what its members hold (`hollow`), is as before.  Each of these facts is
an induction on the address, with one member changed at every node on the way.
-/
import DomainModel.Proofs.Value.Path

namespace DomainModel

namespace Dict

variable {α : Type}

/-- The value under a key stands at the place of the key. -/
theorem get?_eq_findIdx? (d : Dict α) (key : String) :
    get? d key = ((keys d).findIdx? (· == key)).bind fun i => (values d)[i]? := by
  induction d with
  | nil => rfl
  | cons entry d ih =>
      rw [get?_cons, keys, values, List.map_cons, List.map_cons, List.findIdx?_cons]
      by_cases h : key = entry.1
      · simp [h]
      · rw [if_neg h, ih, if_neg (by simpa using Ne.symm h), Option.bind_map]
        simp [Function.comp_def, keys, values]

/-- To change the value under a key is to change the entry at its place. -/
theorem modify_eq_modify {d : Dict α} {key : String} {i : Nat}
    (h : (keys d).findIdx? (· == key) = some i) (f : α → α) :
    modify key f d = List.modify d i fun entry => (entry.1, f entry.2) := by
  induction d generalizing i with
  | nil => simp [keys] at h
  | cons entry d ih =>
      rw [keys, List.map_cons, List.findIdx?_cons] at h
      by_cases hkey : entry.1 = key
      · rw [if_pos (by simpa using hkey)] at h
        obtain rfl := Option.some.inj h
        rw [modify, if_pos hkey]
        rfl
      · rw [if_neg (by simpa using hkey)] at h
        obtain ⟨j, hj, rfl⟩ := Option.map_eq_some_iff.mp h
        rw [modify, if_neg hkey, ih hj]
        rfl

end Dict

namespace Value

/-! ### Members by number -/

/-- The number of the member that a step leads to. -/
def memberIndex? (v : Value) (key : String) : Option Nat :=
  match v with
  | .map entries => (Dict.keys entries).findIdx? (· == key)
  | .list items => (Path.index? key).filter (· < items.length)
  | _ => none

/-- A step leads to the member of its number. -/
theorem step?_eq (v : Value) (key : String) :
    v.step? key = (v.memberIndex? key).bind fun i => v.children[i]? := by
  cases v with
  | map entries => exact Dict.get?_eq_findIdx? entries key
  | list items =>
      show (Path.index? key).bind _ = ((Path.index? key).filter _).bind _
      cases Path.index? key with
      | none => rfl
      | some i =>
          by_cases hi : i < items.length
          · simp [Option.filter, hi, children]
          · simp [Option.filter, hi]
  | _ => rfl

/-- The value with another member of a number. -/
def setMember (v : Value) (i : Nat) (w : Value) : Value :=
  match v with
  | .map entries => .map (List.modify entries i fun entry => (entry.1, w))
  | .list items => .list (items.set i w)
  | v => v

@[simp] theorem children_setMember (v : Value) (i : Nat) (w : Value) :
    (v.setMember i w).children = v.children.set i w := by
  cases v with
  | map entries =>
      apply List.ext_getElem?
      intro j
      simp only [setMember, children, Dict.values, List.getElem?_map, List.getElem?_modify,
        List.getElem?_set, List.length_map]
      by_cases hj : i = j
      · subst hj
        by_cases hlt : i < entries.length
        · simp [hlt]
        · simp [hlt]
      · simp [hj]
  | _ => rfl

/-- A member that was there is the new one after a change of it. -/
theorem child_setMember {v old : Value} {i : Nat} (hold : v.children[i]? = some old) (w : Value) :
    (v.setMember i w).children[i]? = some w := by
  obtain ⟨hi, -⟩ := List.getElem?_eq_some_iff.mp hold
  rw [children_setMember, List.getElem?_set_self hi]

/-- The other members are what they were. -/
theorem child_setMember_of_ne {v w : Value} {i j : Nat} (h : i ≠ j) :
    (v.setMember i w).children[j]? = v.children[j]? := by
  rw [children_setMember, List.getElem?_set_ne h]

/-- What a change of one entry leaves alone can be read off the changed row. -/
theorem map_modify_of_eq {α β : Type} {f : α → α} {g : α → β} (h : ∀ a, g (f a) = g a)
    (as : List α) (i : Nat) : (List.modify as i f).map g = as.map g := by
  apply List.ext_getElem?
  intro j
  rw [List.getElem?_map, List.getElem?_map, List.getElem?_modify]
  by_cases hj : i = j <;> cases as[j]? <;> simp [hj, h]

@[simp] theorem memberIndex?_setMember (v : Value) (i : Nat) (w : Value) (key : String) :
    (v.setMember i w).memberIndex? key = v.memberIndex? key := by
  cases v with
  | map entries =>
      have hkeys : Dict.keys (List.modify entries i fun entry => (entry.1, w)) =
          Dict.keys entries := by
        refine map_modify_of_eq (fun entry => ?_) entries i
        rfl
      rw [setMember, memberIndex?, memberIndex?, hkeys]
  | list items => simp [setMember, memberIndex?]
  | _ => rfl

/-- A node without what its members hold: its keys in their order, or its length. -/
def hollow : Value → Value
  | .map entries => .map (entries.map fun entry => (entry.1, .null))
  | .list items => .list (items.map fun _ => .null)
  | v => v

@[simp] theorem hollow_setMember (v : Value) (i : Nat) (w : Value) :
    (v.setMember i w).hollow = v.hollow := by
  cases v with
  | map entries =>
      refine congrArg Value.map (map_modify_of_eq (fun entry => ?_) entries i)
      rfl
  | list items => simp [setMember, hollow]
  | _ => rfl

/-- Putting a member where it is changes nothing. -/
theorem setMember_self {v w : Value} {i : Nat} (h : v.children[i]? = some w) :
    v.setMember i w = v := by
  cases v with
  | map entries =>
      refine congrArg Value.map (List.ext_getElem? fun j => ?_)
      rw [List.getElem?_modify]
      by_cases hj : i = j
      · subst hj
        obtain ⟨entry, hentry, rfl⟩ : ∃ entry, entries[i]? = some entry ∧ entry.2 = w := by
          simpa [children, Dict.values] using h
        simp [hentry]
      · simp [hj]
  | list items =>
      obtain ⟨hi, rfl⟩ := List.getElem?_eq_some_iff.mp h
      exact congrArg Value.list (List.set_getElem_self hi)
  | _ => rfl

/-! ### Addresses -/

/-- The node at an address. -/
def at? : Value → List Nat → Option Value
  | v, [] => some v
  | v, i :: address => v.children[i]?.bind (at? · address)

/-- The value with `w` at an address, if there is a node. -/
def putAt? : Value → List Nat → Value → Option Value
  | _, [], w => some w
  | v, i :: address, w =>
      v.children[i]?.bind fun old => (old.putAt? address w).map (v.setMember i)

/-- The address that steps lead to. -/
def address? : Value → List String → Option (List Nat)
  | _, [] => some []
  | v, key :: more => (v.memberIndex? key).bind fun i =>
      v.children[i]?.bind fun next => (next.address? more).map (i :: ·)

theorem address?_cons {v : Value} {key : String} {more : List String} {address : List Nat} :
    v.address? (key :: more) = some address ↔ ∃ i next rest, v.memberIndex? key = some i ∧
      v.children[i]? = some next ∧ next.address? more = some rest ∧ address = i :: rest := by
  simp only [address?, Option.bind_eq_some_iff, Option.map_eq_some_iff]
  constructor
  · rintro ⟨i, hi, next, hnext, rest, hrest, rfl⟩
    exact ⟨i, next, rest, hi, hnext, hrest, rfl⟩
  · rintro ⟨i, next, rest, hi, hnext, hrest, rfl⟩
    exact ⟨i, hi, next, hnext, rest, hrest, rfl⟩

theorem putAt?_cons {v w v' : Value} {i : Nat} {address : List Nat} :
    v.putAt? (i :: address) w = some v' ↔ ∃ old new, v.children[i]? = some old ∧
      old.putAt? address w = some new ∧ v' = v.setMember i new := by
  simp only [putAt?, Option.bind_eq_some_iff, Option.map_eq_some_iff]
  constructor
  · rintro ⟨old, hold, new, hnew, rfl⟩
    exact ⟨old, new, hold, hnew, rfl⟩
  · rintro ⟨old, new, hold, hnew, rfl⟩
    exact ⟨old, hold, new, hnew, rfl⟩

/-- **Reading goes by way of the address.** -/
theorem follow?_eq (v : Value) (more : List String) :
    v.follow? more = (v.address? more).bind v.at? := by
  induction more generalizing v with
  | nil => rfl
  | cons key more ih =>
      rw [follow?, step?_eq, address?, Option.bind_assoc, Option.bind_assoc]
      refine congrArg _ (funext fun i => ?_)
      cases hnext : v.children[i]? with
      | none => rfl
      | some next => simp [ih, Option.bind_map, Function.comp_def, at?, hnext]

/-- Writing a member writes the entry of its number. -/
theorem replace?_cons (v w : Value) (key : String) (more : List String) :
    v.replace? w (key :: more) = (v.memberIndex? key).bind fun i =>
      v.children[i]?.bind fun old => (old.replace? w more).map (v.setMember i) := by
  rw [replace?, Option.bind_eq_bind, step?_eq, Option.bind_assoc]
  cases hi : v.memberIndex? key with
  | none => rfl
  | some i =>
      rw [Option.bind_some, Option.bind_some]
      refine congrArg _ (funext fun old => ?_)
      cases old.replace? w more with
      | none => rfl
      | some new =>
          rw [Option.bind_some, Option.map_some]
          cases v with
          | map entries =>
              have hi : (Dict.keys entries).findIdx? (· == key) = some i := hi
              simp only [Dict.modify_eq_modify hi, setMember]
          | list items =>
              obtain ⟨hindex, -⟩ := Option.filter_eq_some_iff.mp hi
              simp only [hindex, Option.map_some, setMember]
          | _ => cases hi

/-- **So does writing.** -/
theorem replace?_eq (v w : Value) (more : List String) :
    v.replace? w more = (v.address? more).bind (v.putAt? · w) := by
  induction more generalizing v with
  | nil => rfl
  | cons key more ih =>
      rw [replace?_cons, address?, Option.bind_assoc]
      refine congrArg _ (funext fun i => ?_)
      cases hold : v.children[i]? with
      | none => rfl
      | some old =>
          cases haddress : old.address? more with
          | none => simp [ih, haddress]
          | some address => simp [ih, haddress, putAt?, hold]

/-! ### What a write does -/

/-- There is something to replace where there is a node. -/
theorem isSome_putAt? (v w : Value) (address : List Nat) :
    (v.putAt? address w).isSome = (v.at? address).isSome := by
  induction address generalizing v with
  | nil => rfl
  | cons i address ih =>
      rw [putAt?, at?]
      cases v.children[i]? with
      | none => rfl
      | some old => simp [ih]

/-- To put a node in its own place changes nothing. -/
theorem putAt?_self {v w : Value} {address : List Nat} (h : v.at? address = some w) :
    v.putAt? address w = some v := by
  induction address generalizing v with
  | nil =>
      obtain rfl := Option.some.inj h
      rfl
  | cons i address ih =>
      obtain ⟨old, hold, hw⟩ := Option.bind_eq_some_iff.mp h
      exact putAt?_cons.mpr ⟨old, old, hold, ih hw, (setMember_self hold).symm⟩

section
variable {v v' w : Value} {address : List Nat} (h : v.putAt? address w = some v')
include h

/-- What was put at an address is there. -/
theorem at?_putAt? : v'.at? address = some w := by
  induction address generalizing v v' with
  | nil => exact h.symm
  | cons i address ih =>
      obtain ⟨old, new, hold, hnew, rfl⟩ := putAt?_cons.mp h
      rw [at?, child_setMember hold, Option.bind_some]
      exact ih hnew

/-- A node that is not in what is replaced keeps its keys, their order and its length. -/
theorem hollow_putAt? {other : List Nat} (hout : ¬address <+: other) :
    (v'.at? other).map hollow = (v.at? other).map hollow := by
  induction address generalizing v v' other with
  | nil => exact absurd (List.nil_prefix) hout
  | cons i address ih =>
      obtain ⟨old, new, hold, hnew, rfl⟩ := putAt?_cons.mp h
      cases other with
      | nil => simp [at?]
      | cons j other =>
          rw [at?, at?]
          by_cases hj : i = j
          · subst hj
            rw [child_setMember hold, hold, Option.bind_some, Option.bind_some]
            exact ih hnew fun hprefix => hout (List.cons_prefix_cons.mpr ⟨rfl, hprefix⟩)
          · rw [child_setMember_of_ne hj]

/-- A node that is neither in what is replaced nor around it is what it was. -/
theorem at?_putAt?_apart {other : List Nat} (hout : ¬address <+: other)
    (haround : ¬other <+: address) : v'.at? other = v.at? other := by
  induction address generalizing v v' other with
  | nil => exact absurd List.nil_prefix hout
  | cons i address ih =>
      obtain ⟨old, new, hold, hnew, rfl⟩ := putAt?_cons.mp h
      cases other with
      | nil => exact absurd List.nil_prefix haround
      | cons j other =>
          rw [at?, at?]
          by_cases hj : i = j
          · subst hj
            rw [child_setMember hold, hold, Option.bind_some, Option.bind_some]
            refine ih hnew (fun hprefix => ?_) fun hprefix => ?_
            · exact hout (List.cons_prefix_cons.mpr ⟨rfl, hprefix⟩)
            · exact haround (List.cons_prefix_cons.mpr ⟨rfl, hprefix⟩)
          · rw [child_setMember_of_ne hj]

/-- Steps lead where they led, unless they went on into what is replaced. -/
theorem address?_putAt? {more : List String} {other : List Nat}
    (hmore : v.address? more = some other) (hout : address <+: other → address = other) :
    v'.address? more = some other := by
  induction address generalizing v v' more other with
  | nil =>
      obtain rfl := hout List.nil_prefix
      cases more with
      | nil => rfl
      | cons key more =>
          obtain ⟨i, next, rest, -, -, -, hnil⟩ := address?_cons.mp hmore
          cases hnil
  | cons i address ih =>
      obtain ⟨old, new, hold, hnew, rfl⟩ := putAt?_cons.mp h
      cases more with
      | nil => exact hmore
      | cons key more =>
          obtain ⟨j, next, rest, hj, hnext, hrest, rfl⟩ := address?_cons.mp hmore
          rw [address?_cons]
          by_cases hij : i = j
          · subst hij
            obtain rfl := Option.some.inj (hold.symm.trans hnext)
            refine ⟨i, new, rest, ?_, child_setMember hold new, ih hnew hrest fun hprefix => ?_, rfl⟩
            · rw [memberIndex?_setMember, hj]
            · exact (List.cons.inj (hout (List.cons_prefix_cons.mpr ⟨rfl, hprefix⟩))).2
          · refine ⟨j, next, rest, ?_, ?_, hrest, rfl⟩
            · rw [memberIndex?_setMember, hj]
            · rw [child_setMember_of_ne hij, hnext]

end

/-- **Reading and writing at a path meet the same node, and a write reaches nothing else.**
There is a node to replace if and only if one is found.  To put back what was found changes
nothing.  After a write the new value is found, at the address of the node that was there; any
other path to a node neither in that node nor around it finds what it found before; and every
node outside keeps its keys, their order and its length. -/
theorem update?_lens (v : Value) (path : String) :
    (∀ w, (v.update? path w).isSome = (v.lookup? path).isSome) ∧
    (∀ old, v.lookup? path = some old → v.update? path old = some v) ∧
    ∀ w v', v.update? path w = some v' → v'.lookup? path = some w ∧
      ∃ address, v.address? (Path.steps path) = some address ∧
        v.at? address = v.lookup? path ∧ v'.at? address = some w ∧
        (∀ path' other, v.address? (Path.steps path') = some other →
          ¬address <+: other → ¬other <+: address → v'.lookup? path' = v.lookup? path') ∧
        ∀ other, ¬address <+: other → (v'.at? other).map hollow = (v.at? other).map hollow := by
  have hlookup : ∀ (v : Value) (path : String),
      v.lookup? path = (v.address? (Path.steps path)).bind v.at? :=
    fun v path => follow?_eq v (Path.steps path)
  have hupdate : ∀ w, v.update? path w =
      (v.address? (Path.steps path)).bind (v.putAt? · w) := fun w => replace?_eq v w _
  refine ⟨fun w => ?_, fun old hold => ?_, fun w v' hv' => ?_⟩
  · rw [hupdate, hlookup]
    cases v.address? (Path.steps path) with
    | none => rfl
    | some address => exact isSome_putAt? v w address
  · rw [hlookup] at hold
    obtain ⟨address, haddress, hat⟩ := Option.bind_eq_some_iff.mp hold
    rw [hupdate, haddress]
    exact putAt?_self hat
  · rw [hupdate] at hv'
    obtain ⟨address, haddress, hput⟩ := Option.bind_eq_some_iff.mp hv'
    have hhere : v'.address? (Path.steps path) = some address :=
      address?_putAt? hput haddress fun _ => rfl
    refine ⟨?_, address, haddress, ?_, at?_putAt? hput, ?_, fun other => hollow_putAt? hput⟩
    · rw [hlookup, hhere]
      exact at?_putAt? hput
    · rw [hlookup, haddress]
      rfl
    · intro path' other hother hout haround
      have hthere : v'.address? (Path.steps path') = some other :=
        address?_putAt? hput hother fun hprefix => absurd hprefix hout
      rw [hlookup, hlookup, hother, hthere]
      exact at?_putAt?_apart hput hout haround

/-- The second element of a list is replaced, by way of an index with a zero in front. -/
theorem update?_lens_index :
    let v : Value := .map [("tags", .list [.string "a", .string "b"]), ("name", .string "n")]
    let v' : Value := .map [("tags", .list [.string "a", .string "z"]), ("name", .string "n")]
    v.update? "tags.01" (.string "z") = some v' ∧ v'.lookup? "tags.01" = some (.string "z") ∧
      v.address? (Path.steps "tags.01") = some [0, 1] ∧
      v.address? (Path.steps "tags.0") = some [0, 0] ∧
      v'.lookup? "tags.0" = v.lookup? "tags.0" ∧
      (v'.at? [0]).map hollow = (v.at? [0]).map hollow ∧
      v.lookup? "tags.1" = some (.string "b") ∧ v.update? "tags.1" (.string "b") = some v := by
  intro v v'
  have hupdate : v.update? "tags.01" (.string "z") = some v' := by rfl
  have haddress : v.address? (Path.steps "tags.01") = some [0, 1] := by rfl
  have hother : v.address? (Path.steps "tags.0") = some [0, 0] := by rfl
  have hfound : v.lookup? "tags.1" = some (.string "b") := by rfl
  obtain ⟨-, -, hwrite⟩ := update?_lens v "tags.01"
  obtain ⟨hlookup, address, hpath, -, -, hapart, hhollow⟩ := hwrite _ _ hupdate
  obtain rfl := Option.some.inj (haddress.symm.trans hpath)
  have hself := (update?_lens v "tags.1").2.1 _ hfound
  refine ⟨hupdate, hlookup, haddress, hother, ?_, ?_, hfound, hself⟩
  · exact hapart "tags.0" [0, 0] hother (by decide) (by decide)
  · exact hhollow [0] (by decide)

end Value

end DomainModel
