/-
Laws of mappings that remember their order.

A mapping is known from two things: the order of its keys, and the value at each of them.
Every law here says what an operation does to both, and `eq_of_nodup` puts them together
again.

`Arranged` is what becomes of a row of entries when it is written from front to back: the
keys stand where they first occurred, and each has the last value that was written for it.
The row of names may differ from the row of entries, since a name can be reserved long
before its value is known; `arranged_writes` is the law for both kinds of writing mixed.
-/
import DomainModel.Value.Basic
import Mathlib.Data.List.Induction
import Mathlib.Data.List.Nodup
import Mathlib.Data.List.Perm.Subperm

namespace DomainModel

theorem eraseDups_concat (names : List String) (name : String) :
    (names ++ [name]).eraseDups =
      if name ∈ names then names.eraseDups else names.eraseDups ++ [name] := by
  rw [List.eraseDups_append]
  by_cases hmem : name ∈ names
  · simp [List.removeAll, hmem]
  · simp [List.removeAll, hmem, List.eraseDups_cons]

/-- What comes first in a row with more behind it depends on what comes first in the row. -/
theorem eraseDups_append_congr {front front' : List String}
    (h : front.eraseDups = front'.eraseDups) (names : List String) :
    (front ++ names).eraseDups = (front' ++ names).eraseDups := by
  have hmem : ∀ name, name ∈ front ↔ name ∈ front' := fun name => by
    rw [← List.mem_eraseDups, h, List.mem_eraseDups]
  rw [List.eraseDups_append, List.eraseDups_append, h, List.removeAll, List.removeAll]
  simp only [List.elem_eq_mem, hmem]

theorem eraseDups_of_nodup {names : List String} (h : names.Nodup) : names.eraseDups = names := by
  induction names using List.reverseRecOn with
  | nil => rfl
  | append_singleton names name ih =>
      obtain ⟨hnames, -, hfresh⟩ := List.nodup_append.mp h
      rw [eraseDups_concat, if_neg fun hmem => hfresh name hmem name (List.mem_singleton_self _) rfl,
        ih hnames]

theorem nodup_eraseDups (names : List String) : names.eraseDups.Nodup := by
  induction names using List.reverseRecOn with
  | nil => exact List.nodup_nil
  | append_singleton names name ih =>
      rw [eraseDups_concat]
      split
      · exact ih
      · rename_i hmem
        rw [← List.concat_eq_append]
        exact List.Nodup.concat (fun h => hmem (List.mem_eraseDups.mp h)) ih

/-- A row of names is as long as without its repetitions just if it has none. -/
theorem length_eraseDups_iff {names : List String} :
    names.eraseDups.length = names.length ↔ names.Nodup := by
  constructor
  · intro h
    have hsubperm : names.eraseDups.Subperm names :=
      (nodup_eraseDups names).subperm fun _ => List.mem_eraseDups.mp
    exact (hsubperm.perm_of_length_le (Nat.le_of_eq h.symm)).nodup_iff.mp (nodup_eraseDups names)
  · intro h
    rw [eraseDups_of_nodup h]

namespace Dict

variable {α : Type}

@[simp] theorem get?_nil (key : String) : get? ([] : Dict α) key = none := rfl

theorem get?_cons (entry : String × α) (d : Dict α) (key : String) :
    get? (entry :: d) key = if key = entry.1 then some entry.2 else get? d key := by
  rw [get?, List.lookup_cons]
  by_cases h : key = entry.1
  · rw [if_pos h, h, beq_self_eq_true]
  · rw [if_neg h, beq_false_of_ne h]
    rfl

theorem get?_append (d e : Dict α) (key : String) :
    get? (d ++ e) key = (get? d key).or (get? e key) := by
  induction d with
  | nil => rfl
  | cons entry d ih =>
      rw [List.cons_append, get?_cons, get?_cons, ih]
      by_cases h : key = entry.1
      · simp [h]
      · simp [h]

theorem mem_of_get? {d : Dict α} {key : String} {value : α} (h : get? d key = some value) :
    (key, value) ∈ d := by
  induction d with
  | nil => exact nomatch h
  | cons entry d ih =>
      rw [get?_cons] at h
      split at h
      case isTrue hkey =>
        obtain rfl := Option.some.inj h
        exact hkey ▸ List.mem_cons_self ..
      case isFalse => exact List.mem_cons_of_mem _ (ih h)

theorem get?_of_mem {d : Dict α} (hnodup : (keys d).Nodup) {entry : String × α} (h : entry ∈ d) :
    get? d entry.1 = some entry.2 := by
  induction d with
  | nil => exact nomatch h
  | cons first d ih =>
      obtain ⟨hfresh, hrest⟩ := List.nodup_cons.mp (show (first.1 :: keys d).Nodup from hnodup)
      rw [get?_cons]
      rcases List.mem_cons.mp h with rfl | hmem
      · rw [if_pos rfl]
      · have hne : entry.1 ≠ first.1 := fun heq => hfresh (heq ▸ List.mem_map_of_mem hmem)
        rw [if_neg hne, ih hrest hmem]

/-- What is found under a key in a row of entries comes from the first that makes it. -/
theorem get?_map {β : Type} (f : β → String × α) (bs : List β) (key : String) :
    get? (bs.map f) key = (bs.find? fun b => decide ((f b).1 = key)).map fun b => (f b).2 := by
  induction bs with
  | nil => rfl
  | cons b bs ih =>
      rw [List.map_cons, get?_cons, List.find?_cons, ih]
      by_cases h : (f b).1 = key
      · rw [if_pos h.symm, decide_eq_true h]
        rfl
      · rw [if_neg (Ne.symm h), decide_eq_false h]

/-- Values that are changed are found changed. -/
theorem get?_mapped {β : Type} (f : α → β) (d : Dict α) (key : String) :
    get? (d.map fun e => (e.1, f e.2)) key = (get? d key).map f := by
  induction d with
  | nil => rfl
  | cons e d ih =>
      rw [List.map_cons, get?_cons, get?_cons, ih]
      split <;> rfl

theorem mem_keys_iff {d : Dict α} {key : String} : key ∈ keys d ↔ (get? d key).isSome := by
  induction d with
  | nil => simp [keys]
  | cons entry d ih =>
      rw [get?_cons]
      by_cases h : key = entry.1
      · simp [keys, h]
      · rw [if_neg h, ← ih]
        simp [keys, h]

theorem hasKey_iff {d : Dict α} {key : String} : hasKey d key = true ↔ key ∈ keys d :=
  mem_keys_iff.symm

theorem get?_eq_none_iff {d : Dict α} {key : String} : get? d key = none ↔ key ∉ keys d := by
  rw [mem_keys_iff, Option.not_isSome_iff_eq_none]

/-- A mapping without repeated keys is the row of its keys, each with its value. -/
theorem eq_of_nodup {d : Dict α} (h : (keys d).Nodup) :
    d = (keys d).filterMap fun key => (get? d key).map (key, ·) := by
  induction d with
  | nil => rfl
  | cons entry d ih =>
      obtain ⟨hfresh, hrest⟩ := List.nodup_cons.mp (show (entry.1 :: keys d).Nodup from h)
      rw [show keys (entry :: d) = entry.1 :: keys d from rfl, List.filterMap_cons, get?_cons,
        if_pos rfl]
      refine congrArg (entry :: ·) ((ih hrest).trans (List.filterMap_congr fun key hkey => ?_))
      rw [get?_cons, if_neg]
      exact fun heq => hfresh (heq ▸ hkey)

/-- What is collected from the entries of a mapping is collected key by key. -/
theorem flatMap_keys {β : Type} {d : Dict α} (h : (keys d).Nodup) (f : String × α → List β) :
    d.flatMap f = (keys d).flatMap fun key =>
      ((get? d key).map fun value => f (key, value)).getD [] := by
  rw [keys, List.flatMap_map]
  refine List.flatMap_congr fun entry hentry => ?_
  rw [get?_of_mem h hentry]
  rfl

/-! ### Writing -/

theorem get?_insert (key : String) (value : α) (d : Dict α) (other : String) :
    get? (insert key value d) other = if other = key then some value else get? d other := by
  induction d with
  | nil => exact get?_cons (key, value) [] other
  | cons entry d ih =>
      rw [insert]
      by_cases h : entry.1 = key
      · rw [if_pos h, get?_cons, get?_cons, h]
        split <;> rfl
      · rw [if_neg h, get?_cons, get?_cons, ih]
        by_cases hother : other = entry.1
        · rw [if_pos hother, if_pos hother, if_neg (fun heq => h (hother ▸ heq))]
        · rw [if_neg hother, if_neg hother]

theorem keys_insert (key : String) (value : α) (d : Dict α) :
    keys (insert key value d) = if key ∈ keys d then keys d else keys d ++ [key] := by
  induction d with
  | nil => rfl
  | cons entry d ih =>
      rw [insert]
      by_cases h : entry.1 = key
      · rw [if_pos h, if_pos (by simp [keys, h])]
        simp [keys, h]
      · rw [if_neg h]
        show entry.1 :: keys (insert key value d) = _
        rw [ih]
        have hmem : key ∈ keys (entry :: d) ↔ key ∈ keys d := by
          simp [keys, Ne.symm h]
        by_cases hkey : key ∈ keys d
        · rw [if_pos hkey, if_pos (hmem.mpr hkey)]
          rfl
        · rw [if_neg hkey, if_neg (fun h => hkey (hmem.mp h))]
          rfl

theorem mem_keys_insert {key other : String} {value : α} {d : Dict α} :
    other ∈ keys (insert key value d) ↔ other = key ∨ other ∈ keys d := by
  rw [mem_keys_iff, get?_insert, mem_keys_iff]
  by_cases h : other = key
  · simp [h]
  · simp [h]

theorem nodup_keys_insert {d : Dict α} (h : (keys d).Nodup) (key : String) (value : α) :
    (keys (insert key value d)).Nodup := by
  rw [keys_insert]
  split
  · exact h
  · rename_i hmem
    rw [← List.concat_eq_append]
    exact h.concat hmem

theorem insert_insert (key : String) (value other : α) (d : Dict α) :
    insert key value (insert key other d) = insert key value d := by
  induction d with
  | nil => simp [insert]
  | cons entry d ih =>
      rw [insert, insert]
      by_cases h : entry.1 = key
      · rw [if_pos h, if_pos h, insert, if_pos rfl]
      · rw [if_neg h, if_neg h, insert, if_neg h, ih]

/-- Writing what is there already changes nothing. -/
theorem insert_get? {key : String} {value : α} {d : Dict α} (h : get? d key = some value) :
    insert key value d = d := by
  induction d with
  | nil => cases h
  | cons entry d ih =>
      rw [get?_cons] at h
      rw [insert]
      by_cases heq : entry.1 = key
      · rw [if_pos heq.symm] at h
        rw [if_pos heq, ← Option.some.inj h, ← heq]
      · rw [if_neg (Ne.symm heq)] at h
        rw [if_neg heq, ih h]

theorem insert_comm {key other : String} {value content : α} {d : Dict α} (hmem : key ∈ keys d)
    (hne : key ≠ other) :
    insert key value (insert other content d) = insert other content (insert key value d) := by
  induction d with
  | nil => cases hmem
  | cons entry d ih =>
      by_cases h : entry.1 = key
      · have hother : entry.1 ≠ other := h ▸ hne
        simp only [insert, if_neg hother, if_pos h, if_neg hne]
      · have hrest : key ∈ keys d := by
          rcases List.mem_cons.mp hmem with heq | hrest
          · exact absurd heq.symm h
          · exact hrest
        by_cases hother : entry.1 = other
        · simp only [insert, if_pos hother, if_neg h, if_neg hne.symm]
        · simp only [insert, if_neg hother, if_neg h, ih hrest]

theorem get?_reserve (key : String) (value : α) (d : Dict α) (other : String) :
    get? (reserve key value d) other =
      (get? d other).or (if other = key then some value else none) := by
  rw [reserve]
  by_cases hkey : hasKey d key = true
  · rw [if_pos hkey]
    by_cases h : other = key
    · rw [h, Option.or_of_isSome hkey]
    · rw [if_neg h, Option.or_none]
  · rw [if_neg hkey, get?_insert]
    by_cases h : other = key
    · rw [hasKey, Option.not_isSome_iff_eq_none] at hkey
      rw [if_pos h, if_pos h, h, hkey, Option.none_or]
    · rw [if_neg h, if_neg h, Option.or_none]

theorem keys_reserve (key : String) (value : α) (d : Dict α) :
    keys (reserve key value d) = if key ∈ keys d then keys d else keys d ++ [key] := by
  rw [reserve]
  by_cases hkey : hasKey d key = true
  · rw [if_pos hkey, if_pos (hasKey_iff.mp hkey)]
  · rw [if_neg hkey, keys_insert]

/-- A name that is reserved and then stored is stored. -/
theorem insert_reserve (key : String) (value other : α) (d : Dict α) :
    insert key value (reserve key other d) = insert key value d := by
  rw [reserve]
  split
  · rfl
  · exact insert_insert key value other d

/-! ### Writing in a row -/

theorem extend_concat (d more : Dict α) (entry : String × α) :
    extend d (more ++ [entry]) = insert entry.1 entry.2 (extend d more) := by
  rw [extend, List.foldl_append]
  rfl

theorem ofList_concat (entries : List (String × α)) (entry : String × α) :
    ofList (entries ++ [entry]) = insert entry.1 entry.2 (ofList entries) :=
  extend_concat [] entries entry

theorem extend_append (d more others : Dict α) :
    extend d (more ++ others) = extend (extend d more) others :=
  List.foldl_append

theorem get?_extend (d more : Dict α) (key : String) :
    get? (extend d more) key = (get? more.reverse key).or (get? d key) := by
  induction more using List.reverseRecOn with
  | nil => rfl
  | append_singleton more entry ih =>
      rw [extend_concat, get?_insert, ih, List.reverse_concat, get?_cons]
      split <;> rfl

/-- Writing entries whose names differ puts them in front of what was there. -/
theorem get?_extend_of_nodup {d more : Dict α} (h : (keys more).Nodup) (key : String) :
    get? (extend d more) key = (get? more key).or (get? d key) := by
  induction more generalizing d with
  | nil => rfl
  | cons entry more ih =>
      obtain ⟨hfresh, hrest⟩ := List.nodup_cons.mp (show (entry.1 :: keys more).Nodup from h)
      show get? (extend (insert entry.1 entry.2 d) more) key = _
      rw [ih hrest, get?_insert, get?_cons]
      by_cases hkey : key = entry.1
      · rw [if_pos hkey, if_pos hkey, get?_eq_none_iff.mpr (hkey ▸ hfresh), Option.none_or]
        rfl
      · rw [if_neg hkey, if_neg hkey]

/-- Writing entries that are there already changes nothing. -/
theorem extend_of_get? {d more : Dict α} (h : ∀ e ∈ more, get? d e.1 = some e.2) :
    extend d more = d := by
  induction more with
  | nil => rfl
  | cons entry more ih =>
      show extend (insert entry.1 entry.2 d) more = d
      rw [insert_get? (h entry (List.mem_cons_self ..))]
      exact ih fun e he => h e (List.mem_cons_of_mem _ he)

theorem insert_extend_of_not_mem {key : String} {value : α} {d more : Dict α}
    (hmem : key ∈ keys d) (hnot : key ∉ keys more) :
    insert key value (extend d more) = extend (insert key value d) more := by
  induction more generalizing d with
  | nil => rfl
  | cons entry more ih =>
      have hne : key ≠ entry.1 := fun heq => hnot (heq ▸ List.mem_cons_self ..)
      show insert key value (extend (insert entry.1 entry.2 d) more) =
        extend (insert entry.1 entry.2 (insert key value d)) more
      rw [ih (mem_keys_insert.mpr (.inr hmem)) fun hin => hnot (List.mem_cons_of_mem _ hin),
        insert_comm hmem hne]

/-- Writing one of the entries again is writing the entries with the new one in its place. -/
theorem insert_extend {key : String} {value : α} {d more : Dict α} (hnodup : (keys more).Nodup)
    (hmem : key ∈ keys more) :
    insert key value (extend d more) = extend d (insert key value more) := by
  induction more generalizing d with
  | nil => cases hmem
  | cons entry more ih =>
      obtain ⟨hfresh, hrest⟩ := List.nodup_cons.mp (show (entry.1 :: keys more).Nodup from hnodup)
      by_cases h : entry.1 = key
      · rw [insert, if_pos h]
        show insert key value (extend (insert entry.1 entry.2 d) more) =
          extend (insert key value d) more
        rw [h, insert_extend_of_not_mem (mem_keys_insert.mpr (.inl rfl)) (h ▸ hfresh),
          insert_insert]
      · rw [insert, if_neg h]
        exact ih hrest ((List.mem_cons.mp hmem).resolve_left fun heq => h heq.symm)

/-! ### Changing a value in its place -/

theorem keys_modify (key : String) (f : α → α) (d : Dict α) : keys (modify key f d) = keys d := by
  induction d with
  | nil => rfl
  | cons entry d ih =>
      rw [modify]
      split
      · rfl
      · show entry.1 :: keys (modify key f d) = entry.1 :: keys d
        rw [ih]

theorem get?_modify (key : String) (f : α → α) (d : Dict α) (other : String) :
    get? (modify key f d) other =
      if other = key then (get? d other).map f else get? d other := by
  induction d with
  | nil => rw [modify, get?_nil]; split <;> rfl
  | cons entry d ih =>
      rw [modify]
      by_cases h : entry.1 = key
      · rw [if_pos h, get?_cons, get?_cons]
        by_cases ho : other = entry.1
        · rw [if_pos ho, if_pos ho, if_pos (ho.trans h)]
          rfl
        · rw [if_neg ho, if_neg ho, if_neg fun heq => ho (heq.trans h.symm)]
      · rw [if_neg h, get?_cons, get?_cons, ih]
        by_cases ho : other = entry.1
        · rw [if_pos ho, if_pos ho, if_neg fun heq => h (ho.symm.trans heq)]
        · rw [if_neg ho, if_neg ho]

theorem modify_modify (key : String) (f g : α → α) (d : Dict α) :
    modify key g (modify key f d) = modify key (fun v => g (f v)) d := by
  induction d with
  | nil => rfl
  | cons entry d ih =>
      by_cases h : entry.1 = key
      · simp [modify, h]
      · simp [modify, h, ih]

/-- Only what is done to the value that is there matters. -/
theorem modify_congr {key : String} {f g : α → α} {d : Dict α}
    (h : ∀ v, get? d key = some v → f v = g v) : modify key f d = modify key g d := by
  induction d with
  | nil => rfl
  | cons entry d ih =>
      rw [modify, modify]
      by_cases hkey : entry.1 = key
      · rw [if_pos hkey, if_pos hkey, h entry.2 (by rw [get?_cons, if_pos hkey.symm])]
      · rw [if_neg hkey, if_neg hkey, ih]
        intro v hv
        exact h v (by rw [get?_cons, if_neg (Ne.symm hkey), hv])

theorem modify_self (key : String) (d : Dict α) : modify key (fun v => v) d = d := by
  induction d with
  | nil => rfl
  | cons entry d ih => rw [modify, ih, ite_self]

theorem modify_append {key : String} {front : Dict α} (h : key ∉ keys front) (f : α → α) (v : α)
    (back : Dict α) : modify key f (front ++ (key, v) :: back) = front ++ (key, f v) :: back := by
  induction front with
  | nil => rw [List.nil_append, modify, if_pos rfl]; rfl
  | cons entry front ih =>
      have hne : entry.1 ≠ key := fun heq => h (heq ▸ List.mem_cons_self ..)
      rw [List.cons_append, modify, if_neg hne, ih fun hmem => h (List.mem_cons_of_mem _ hmem)]
      rfl

/-- Changing the value under one key after the other changes each value once. -/
theorem foldl_modify {d : Dict α} (hnodup : (keys d).Nodup) (f : α → α → α) :
    d.foldl (fun acc e => modify e.1 (f e.2) acc) d = d.map fun e => (e.1, f e.2 e.2) := by
  -- The entries behind the one at hand are as they were.
  have hrest : ∀ back front : Dict α, (keys (front ++ back)).Nodup →
      back.foldl (fun acc e => modify e.1 (f e.2) acc) (front ++ back) =
        front ++ back.map fun e => (e.1, f e.2 e.2) := by
    intro back
    induction back with
    | nil => exact fun _ _ => rfl
    | cons entry back ih =>
        intro front hkeys
        have hfresh : entry.1 ∉ keys front := by
          rw [keys, List.map_append, List.nodup_append] at hkeys
          exact fun hmem => hkeys.2.2 _ hmem _ (List.mem_cons_self ..) rfl
        have hnext := ih (front ++ [(entry.1, f entry.2 entry.2)]) (by simpa [keys] using hkeys)
        rw [List.append_assoc, List.append_assoc, List.singleton_append] at hnext
        rw [List.foldl_cons, modify_append hfresh, hnext]
        rfl
  exact hrest d [] hnodup

/-! ### Where entries come from -/

theorem mem_insert {key : String} {value : α} {d : Dict α} {e : String × α}
    (h : e ∈ insert key value d) : e = (key, value) ∨ e ∈ d := by
  induction d with
  | nil => exact .inl (List.mem_singleton.mp h)
  | cons entry d ih =>
      rw [insert] at h
      split at h
      · rcases List.mem_cons.mp h with rfl | hmem
        · exact .inl rfl
        · exact .inr (List.mem_cons_of_mem _ hmem)
      · rcases List.mem_cons.mp h with rfl | hmem
        · exact .inr (List.mem_cons_self ..)
        · exact (ih hmem).imp_right (List.mem_cons_of_mem _)

theorem mem_extend {d more : Dict α} {e : String × α} (h : e ∈ extend d more) :
    e ∈ d ∨ e ∈ more := by
  induction more generalizing d with
  | nil => exact .inl h
  | cons entry more ih =>
      rcases ih (d := insert entry.1 entry.2 d) h with hmem | hmem
      · rcases mem_insert hmem with rfl | hmem
        · exact .inr (List.mem_cons_self ..)
        · exact .inl hmem
      · exact .inr (List.mem_cons_of_mem _ hmem)

theorem mem_ofList {entries : List (String × α)} {e : String × α} (h : e ∈ ofList entries) :
    e ∈ entries :=
  (mem_extend h).resolve_left List.not_mem_nil

theorem mem_modify {key : String} {f : α → α} {d : Dict α} {e : String × α}
    (h : e ∈ modify key f d) : e ∈ d ∨ ∃ value, (key, value) ∈ d ∧ e = (key, f value) := by
  induction d with
  | nil => exact nomatch h
  | cons entry d ih =>
      rw [modify] at h
      split at h
      · rename_i hkey
        rcases List.mem_cons.mp h with rfl | hmem
        · exact .inr ⟨entry.2, hkey ▸ List.mem_cons_self .., by rw [hkey]⟩
        · exact .inl (List.mem_cons_of_mem _ hmem)
      · rcases List.mem_cons.mp h with rfl | hmem
        · exact .inl (List.mem_cons_self ..)
        · rcases ih hmem with hmem | ⟨value, hmem, heq⟩
          · exact .inl (List.mem_cons_of_mem _ hmem)
          · exact .inr ⟨value, List.mem_cons_of_mem _ hmem, heq⟩

theorem mem_reserve {key : String} {value : α} {d : Dict α} {e : String × α}
    (h : e ∈ reserve key value d) : e = (key, value) ∨ e ∈ d := by
  rw [reserve] at h
  split at h
  · exact .inr h
  · exact mem_insert h

/-- Writing to keys that are there leaves the row of keys as it is. -/
theorem keys_extend_of_subset {d more : Dict α} (h : ∀ key ∈ keys more, key ∈ keys d) :
    keys (extend d more) = keys d := by
  induction more generalizing d with
  | nil => rfl
  | cons entry more ih =>
      have hkeys : keys (insert entry.1 entry.2 d) = keys d := by
        rw [keys_insert, if_pos (h entry.1 (List.mem_cons_self ..))]
      show keys (extend (insert entry.1 entry.2 d) more) = keys d
      rw [ih, hkeys]
      exact fun key hkey => hkeys ▸ h key (List.mem_cons_of_mem _ hkey)

/-! ### First places and last values -/

/-- The row of the names in the order of their first occurrence, each with its last entry. -/
def arrange (names : List String) (entries : List (String × α)) : Dict α :=
  names.eraseDups.filterMap fun name => (get? entries.reverse name).map (name, ·)

/-- A mapping holds the names in the order of their first occurrence, each with the value of
its last entry. -/
structure Arranged (names : List String) (entries : List (String × α)) (d : Dict α) : Prop where
  order : keys d = names.eraseDups
  last : ∀ key, get? d key = get? entries.reverse key

theorem Arranged.nodup {names : List String} {entries : List (String × α)} {d : Dict α}
    (h : Arranged names entries d) : (keys d).Nodup :=
  h.order ▸ nodup_eraseDups names

theorem Arranged.eq {names : List String} {entries : List (String × α)} {d : Dict α}
    (h : Arranged names entries d) : d = arrange names entries := by
  rw [eq_of_nodup h.nodup, h.order, arrange]
  exact List.filterMap_congr fun key _ => by rw [h.last]

theorem arranged_ofList (entries : List (String × α)) :
    Arranged (entries.map (·.1)) entries (ofList entries) where
  order := by
    induction entries using List.reverseRecOn with
    | nil => rfl
    | append_singleton entries entry ih =>
        rw [ofList, extend_concat, keys_insert, ← ofList, ih, List.map_append, List.map_singleton,
          eraseDups_concat]
        simp only [List.mem_eraseDups]
  last key := by rw [ofList, get?_extend, get?_nil, Option.or_none]

/-- Where no name occurs twice, the entries stand in the order of the names. -/
theorem arrange_of_perm {entries entries' : Dict α} (hperm : entries.Perm entries')
    (hnodup : (keys entries).Nodup) : arrange (keys entries) entries' = entries := by
  have hnodup' : (keys entries'.reverse).Nodup := by
    rw [keys, List.map_reverse, List.nodup_reverse]
    exact (hperm.map _).nodup_iff.mp hnodup
  rw [arrange, eraseDups_of_nodup hnodup]
  conv_rhs => rw [eq_of_nodup hnodup]
  refine List.filterMap_congr fun key hkey => ?_
  obtain ⟨entry, hentry, rfl⟩ := List.mem_map.mp hkey
  have hentry' : entry ∈ entries'.reverse := List.mem_reverse.mpr (hperm.mem_iff.mp hentry)
  rw [get?_of_mem hnodup hentry, get?_of_mem hnodup' hentry']

theorem ofList_of_nodup {entries : Dict α} (h : (keys entries).Nodup) : ofList entries = entries :=
  (arranged_ofList entries).eq.trans (arrange_of_perm (List.Perm.refl _) h)

/-- A name to be written, with its value unless it is only reserved. -/
abbrev Write := String × Option Value

def write (d : Members) (w : Write) : Members :=
  match w.2 with
  | none => reserve w.1 .null d
  | some v => insert w.1 v d

/-- The entries that are written, reservations left out. -/
def stores (ws : List Write) : List (String × Value) := ws.filterMap fun w => w.2.map (w.1, ·)

theorem keys_write (d : Members) (w : Write) :
    keys (write d w) = if w.1 ∈ keys d then keys d else keys d ++ [w.1] := by
  rw [write]
  split
  · exact keys_reserve ..
  · exact keys_insert ..

theorem keys_writes (ws : List Write) :
    keys (ws.foldl write []) = (ws.map (·.1)).eraseDups := by
  induction ws using List.reverseRecOn with
  | nil => rfl
  | append_singleton ws w ih =>
      rw [List.foldl_append, List.foldl_cons, List.foldl_nil, keys_write, ih, List.map_append,
        List.map_singleton, eraseDups_concat]
      simp only [List.mem_eraseDups]

theorem get?_writes (ws : List Write) (key : String) :
    get? (ws.foldl write []) key =
      (get? (stores ws).reverse key).or (if key ∈ ws.map (·.1) then some .null else none) := by
  induction ws using List.reverseRecOn with
  | nil => rfl
  | append_singleton ws w ih =>
      obtain ⟨name, value⟩ := w
      have hmem : key ∈ (ws ++ [(name, value)]).map (·.1) ↔ key ∈ ws.map (·.1) ∨ key = name := by
        rw [List.map_append, List.mem_append, List.map_singleton, List.mem_singleton]
      rw [List.foldl_append, List.foldl_cons, List.foldl_nil]
      cases value with
      | none =>
          have hstores : stores (ws ++ [(name, none)]) = stores ws := by simp [stores]
          rw [write, get?_reserve, ih, hstores, Option.or_assoc]
          congr 1
          by_cases hkey : key ∈ ws.map (·.1)
          · rw [if_pos hkey, if_pos (hmem.mpr (.inl hkey))]
            rfl
          · rw [if_neg hkey, Option.none_or]
            by_cases h : key = name
            · rw [if_pos h, if_pos (hmem.mpr (.inr h))]
            · rw [if_neg h, if_neg fun hor => (hmem.mp hor).elim hkey h]
      | some v =>
          have hstores : stores (ws ++ [(name, some v)]) = stores ws ++ [(name, v)] := by
            simp [stores]
          rw [write, get?_insert, ih, hstores, List.reverse_concat, get?_cons]
          by_cases h : key = name
          · rw [if_pos h, if_pos h]
            rfl
          · rw [if_neg h, if_neg h]
            simp only [hmem, h, or_false]

/-- **Names and values written in any mixture arrange themselves**, if every name gets a value
in the end. -/
theorem arranged_writes {ws : List Write} {names : List String}
    (hnames : (ws.map (·.1)).eraseDups = names.eraseDups)
    (hstores : ∀ name ∈ ws.map (·.1), name ∈ (stores ws).map (·.1)) :
    Arranged names (stores ws) (ws.foldl write []) where
  order := (keys_writes ws).trans hnames
  last key := by
    rw [get?_writes]
    by_cases hkey : key ∈ ws.map (·.1)
    · have hlast : (get? (stores ws).reverse key).isSome := by
        rw [← mem_keys_iff]
        simpa [keys] using hstores key hkey
      rw [Option.or_of_isSome hlast]
    · rw [if_neg hkey, Option.or_none]

end Dict

end DomainModel
