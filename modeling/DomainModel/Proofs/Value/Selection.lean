/-
What a pattern selects.

A path matches a pattern if its steps can be cut into stretches, one for each segment: the key
that the segment names, any one step, or any number of steps.  `Leads` says so without a word
on how matches are looked for.  The search goes through the segments and puts a path together
on its way; on values whose every node has a path of its own (`Navigable`) it finds exactly
what leads somewhere (`mem_selectFrom`), by induction on the segments and, where a segment
stands for any number of steps, on the value.

The length of a path tells where the stretches end as long as only one of them can have any
length.  So a pattern with one such segment finds nothing twice (`nodup_selectFrom`).
-/
import DomainModel.Proofs.Value.Literal
import DomainModel.Proofs.Value.Path

namespace DomainModel

/-! ### Numbers as steps -/

/-- What is read as a number is digits. -/
theorem Literal.digits_of_natural? {cs : List Char} {n : Nat} (h : natural? cs = some n) :
    Lexer.Digits cs := by
  unfold natural? at h
  split at h
  · cases h
  · rename_i hdigits
    simp only [Bool.or_eq_true, List.isEmpty_iff, Bool.not_eq_true', not_or, Bool.not_eq_false,
      List.all_eq_true] at hdigits
    exact hdigits

theorem Text.eq_or_eq_append_dropLead (lead cs : List Char) :
    cs = dropLead lead cs ∨ cs = lead ++ dropLead lead cs := by
  unfold dropLead
  by_cases h : lead.isPrefixOf cs = true
  · obtain ⟨rest, rfl⟩ := List.isPrefixOf_iff_prefix.mp h
    simp [h]
  · simp [h]

namespace Path

theorem digits_toString (n : Nat) : Lexer.Digits (toString n).toList := by
  rw [Nat.toString_eq_repr, Nat.toList_repr]
  exact digits_toDigits n

theorem dotless_toString (n : Nat) : Dotless (toString n) := by
  intro hdot
  have hdigit := (digits_toString n).2 '.' hdot
  exact absurd hdigit (by decide)

theorem toString_injective : Function.Injective (toString : Nat → String) := by
  intro m n h
  have hdigits : Nat.toDigits 10 m = Nat.toDigits 10 n := by
    simpa [Nat.toString_eq_repr, Nat.toList_repr] using congrArg String.toList h
  have hvalue := congrArg (fun digits => Nat.ofDigitChars 10 digits 0) hdigits
  simpa using hvalue

/-- A number leads to the member of that number, if an index can be so large. -/
theorem index?_toString (n : Nat) :
    index? (toString n) = if n ≤ maxIndex then some n else none := by
  have hdigits := digits_toString n
  have hlead : Text.dropLead ['+'] (toString n).toList = (toString n).toList := by
    rcases Text.eq_or_eq_append_dropLead ['+'] (toString n).toList with h | h
    · exact h.symm
    · have hplus : '+' ∈ (toString n).toList := h ▸ List.mem_cons_self ..
      exact absurd (hdigits.2 '+' hplus) (by decide)
  rw [index?, hlead, Literal.natural?_digits hdigits, Nat.toString_eq_repr, Nat.toList_repr,
    Nat.ofDigitChars_ten_toDigits]
  by_cases h : n ≤ maxIndex <;> simp [Option.filter, h]

/-! ### Paths that come apart -/

/-- A text that is one step wherever it stands in a path. -/
structure IsStep (key : String) : Prop where
  ne : key ≠ ""
  dotless : Dotless key

/-- However an index is written, it is one step. -/
theorem isStep_of_index? {key : String} {n : Nat} (h : index? key = some n) : IsStep key := by
  unfold index? at h
  obtain ⟨hnatural, -⟩ := Option.filter_eq_some_iff.mp h
  obtain ⟨hne, hdigits⟩ := Literal.digits_of_natural? hnatural
  have hmem : ∀ c ∈ key.toList, c = '+' ∨ c.isDigit = true := by
    intro c hc
    rcases Text.eq_or_eq_append_dropLead ['+'] key.toList with hkey | hkey
    · exact .inr (hdigits c (hkey ▸ hc))
    · rw [hkey, List.mem_append, List.mem_singleton] at hc
      exact hc.imp_right (hdigits c)
  refine ⟨?_, fun hdot => ?_⟩
  · rintro rfl
    exact hne rfl
  · rcases hmem '.' hdot with hc | hc
    · exact absurd hc (by decide)
    · exact absurd hc (by decide)

/-- The path that goes on from another one by these steps. -/
def walk (base : String) (more : List String) : String := more.foldl join base

@[simp] theorem walk_nil (base : String) : walk base [] = base := rfl

@[simp] theorem walk_cons (base key : String) (more : List String) :
    walk base (key :: more) = walk (join base key) more := rfl

/-- **Steps come back from the path that goes on by them.** -/
theorem steps_walk {more : List String} (h : ∀ key ∈ more, IsStep key) :
    ∀ base, steps (walk base more) = steps base ++ more := by
  induction more with
  | nil => simp
  | cons key more ih =>
      intro base
      obtain ⟨hkey, hmore⟩ := List.forall_mem_cons.mp h
      rw [walk_cons, ih hmore]
      by_cases hbase : base = ""
      · subst hbase
        have hsteps : steps key = [key] := by
          rw [steps, if_neg (by simpa using hkey.ne), Text.splitOn_of_not_mem hkey.dotless]
          simp
        rw [join, if_pos (by simp), hsteps]
        simp [steps]
      · rw [steps_join hbase hkey.dotless, List.append_assoc, List.singleton_append]

/-- Paths that go on from the same one by other steps differ. -/
theorem walk_injective {base : String} {more more' : List String} (h : ∀ key ∈ more, IsStep key)
    (h' : ∀ key ∈ more', IsStep key) (heq : walk base more = walk base more') : more = more' := by
  have hsteps := congrArg steps heq
  rw [steps_walk h, steps_walk h'] at hsteps
  exact List.append_cancel_left hsteps

end Path

/-- What is cut at a mark is put together again with the mark. -/
theorem Text.eq_of_splitOn {mark : Char} {cs piece : List Char} {pieces : List (List Char)}
    (h : splitOn mark cs = piece :: pieces) : cs = piece ++ pieces.flatMap (mark :: ·) := by
  induction cs generalizing piece pieces with
  | nil =>
      obtain ⟨rfl, rfl⟩ := List.cons.inj (h : [[]] = piece :: pieces)
      rfl
  | cons c cs ih =>
      cases hcs : splitOn mark cs with
      | nil => exact absurd hcs (splitOn_ne_nil mark cs)
      | cons first rest =>
          have hback := ih hcs
          rw [splitOn, hcs] at h
          by_cases hc : c = mark
          · rw [if_pos hc] at h
            obtain ⟨rfl, rfl⟩ := List.cons.inj h
            simp [hc, hback]
          · rw [if_neg hc] at h
            obtain ⟨rfl, rfl⟩ := List.cons.inj h
            simp [hback]

namespace Path

theorem toList_walk {base : String} (h : base ≠ "") (more : List String) :
    (walk base more).toList = base.toList ++ more.flatMap fun key => '.' :: key.toList := by
  induction more generalizing base with
  | nil => simp
  | cons key more ih =>
      rw [walk_cons, ih (join_ne_empty h key), join, if_neg (by simpa using h)]
      simp

/-- **A path is where its steps lead.** -/
theorem walk_steps {path : String} (h : ∀ key ∈ steps path, IsStep key) :
    walk "" (steps path) = path := by
  by_cases hpath : path = ""
  · subst hpath
    rfl
  · have hsteps : steps path = (Text.splitOn '.' path.toList).map String.ofList := by
      rw [steps, if_neg (by simpa using hpath)]
    rw [hsteps] at h ⊢
    cases hpieces : Text.splitOn '.' path.toList with
    | nil => exact absurd hpieces (Text.splitOn_ne_nil _ _)
    | cons piece pieces =>
        rw [hpieces] at h
        have hpiece : String.ofList piece ≠ "" := (h _ (by simp)).ne
        apply String.toList_injective
        rw [List.map_cons, walk_cons, join, if_pos (by simp), toList_walk hpiece,
          Text.eq_of_splitOn hpieces]
        simp [List.flatMap_map]

end Path

namespace Value

/-! ### Values to walk in -/

/-- Every node of the value has a path of its own: no mapping has a key twice, every key is one
step, and no list is longer than indices reach. -/
inductive Navigable : Value → Prop
  | null : Navigable .null
  | bool (b : Bool) : Navigable (.bool b)
  | int (n : Int) : Navigable (.int n)
  | decimal (d : Decimal) : Navigable (.decimal d)
  | string (s : String) : Navigable (.string s)
  | list {items : List Value} (hlength : items.length ≤ Path.maxIndex)
      (h : ∀ v ∈ items, Navigable v) : Navigable (.list items)
  | map {entries : Members} (hkeys : (Dict.keys entries).Nodup)
      (hsteps : ∀ key ∈ Dict.keys entries, Path.IsStep key)
      (h : ∀ e ∈ entries, Navigable e.2) : Navigable (.map entries)

theorem mem_of_steppedChildren {items : List Value} {e : String × Value}
    (h : e ∈ (Value.list items).steppedChildren) :
    ∃ i : Nat, items[i]? = some e.2 ∧ e.1 = toString i := by
  obtain ⟨⟨v, i⟩, hmem, rfl⟩ := List.mem_map.mp h
  exact ⟨i, List.mem_zipIdx_iff_getElem?.mp hmem, rfl⟩

/-- What is true of a node when it is of its members is true of every navigable value. -/
theorem Navigable.induct {motive : (v : Value) → v.Navigable → Prop}
    (step : ∀ v (h : v.Navigable),
      (∀ e ∈ v.steppedChildren, ∃ h : e.2.Navigable, motive e.2 h) → motive v h)
    {v : Value} (h : v.Navigable) : motive v h := by
  have hnone : ∀ v : Value, v.steppedChildren = [] →
      ∀ e ∈ v.steppedChildren, ∃ h : e.2.Navigable, motive e.2 h := by
    intro v hv e he
    simp [hv] at he
  induction h with
  | null => exact step _ .null (hnone _ rfl)
  | bool b => exact step _ (.bool b) (hnone _ rfl)
  | int n => exact step _ (.int n) (hnone _ rfl)
  | decimal d => exact step _ (.decimal d) (hnone _ rfl)
  | string s => exact step _ (.string s) (hnone _ rfl)
  | list hlength h ih =>
      refine step _ (.list hlength h) fun e he => ?_
      obtain ⟨i, hi, -⟩ := mem_of_steppedChildren he
      exact ⟨h _ (List.mem_of_getElem? hi), ih _ (List.mem_of_getElem? hi)⟩
  | map hkeys hsteps h ih =>
      exact step _ (.map hkeys hsteps h) fun e he => ⟨h e he, ih e he⟩

/-- A step that leads on from a node is written plainly if it is a key, or an index without a
sign and without zeros in front. -/
def Plain (v : Value) (key : String) : Prop := v.list?.isSome → ∃ i : Nat, key = toString i

/-- All steps on a way are written plainly. -/
def PlainAlong : Value → List String → Prop
  | _, [] => True
  | v, key :: more => v.Plain key ∧ ∀ next ∈ v.step? key, next.PlainAlong more

/-- The members of a node are what plain steps lead to. -/
theorem Navigable.mem_steppedChildren {v next : Value} (h : v.Navigable) {key : String} :
    (key, next) ∈ v.steppedChildren ↔ v.step? key = some next ∧ v.Plain key := by
  cases h with
  | @list items hlength _ =>
      have hindex : ∀ i, i < items.length → Path.index? (toString i) = some i := by
        intro i hi
        rw [Path.index?_toString, if_pos (by omega)]
      constructor
      · intro hmem
        obtain ⟨i, hi, rfl⟩ := mem_of_steppedChildren hmem
        obtain ⟨hlt, -⟩ := List.getElem?_eq_some_iff.mp hi
        refine ⟨?_, fun _ => ⟨i, rfl⟩⟩
        rw [step?, hindex i hlt]
        exact hi
      · rintro ⟨hstep, hplain⟩
        obtain ⟨i, rfl⟩ := hplain rfl
        rw [step?, Path.index?_toString] at hstep
        split at hstep
        · refine List.mem_map.mpr ⟨(next, i), ?_, rfl⟩
          exact List.mem_zipIdx_iff_getElem?.mpr hstep
        · cases hstep
  | map hkeys _ _ =>
      constructor
      · intro hmem
        exact ⟨Dict.get?_of_mem hkeys hmem, fun hlist => by cases hlist⟩
      · rintro ⟨hstep, -⟩
        exact Dict.mem_of_get? hstep
  | _ => simp [steppedChildren, step?]

theorem Navigable.nodup_steppedChildren {v : Value} (h : v.Navigable) :
    (v.steppedChildren.map (·.1)).Nodup := by
  cases h with
  | @list items _ _ =>
      have hsteps : (Value.list items).steppedChildren.map (·.1) =
          (items.zipIdx.map (·.2)).map toString := by
        rw [steppedChildren, List.map_map, List.map_map]
        rfl
      rw [hsteps, List.zipIdx_map_snd]
      exact List.Nodup.map Path.toString_injective List.nodup_range'
  | map hkeys _ _ => exact hkeys
  | _ => exact List.nodup_nil

/-- Whatever leads on from a node is one step. -/
theorem Navigable.isStep {v next : Value} (h : v.Navigable) {key : String}
    (hstep : v.step? key = some next) : Path.IsStep key ∧ next.Navigable := by
  cases h with
  | list _ hall =>
      obtain ⟨i, hi, hget⟩ := Option.bind_eq_some_iff.mp hstep
      exact ⟨Path.isStep_of_index? hi, hall _ (List.mem_of_getElem? hget)⟩
  | map _ hsteps hall =>
      have hmem := Dict.mem_of_get? hstep
      exact ⟨hsteps key (List.mem_map_of_mem hmem), hall _ hmem⟩
  | _ => cases hstep

theorem follow?_cons (v : Value) (key : String) (more : List String) :
    v.follow? (key :: more) = (v.step? key).bind (follow? · more) := rfl

theorem follow?_append (v : Value) (front back : List String) :
    v.follow? (front ++ back) = (v.follow? front).bind (follow? · back) := by
  induction front generalizing v with
  | nil => rfl
  | cons key front ih =>
      rw [List.cons_append, follow?_cons, follow?_cons, Option.bind_assoc]
      simp only [ih]

/-- **A way through a navigable value takes steps that come back from its path.** -/
theorem Navigable.isStep_of_follow? {v w : Value} (h : v.Navigable) {more : List String}
    (hfollow : v.follow? more = some w) : ∀ key ∈ more, Path.IsStep key := by
  induction more generalizing v with
  | nil => simp
  | cons key more ih =>
      obtain ⟨next, hstep, hrest⟩ := Option.bind_eq_some_iff.mp hfollow
      obtain ⟨hkey, hnext⟩ := h.isStep hstep
      exact List.forall_mem_cons.mpr ⟨hkey, ih hnext hrest⟩

end Value

/-! ### What leads along a pattern -/

namespace Pattern

/-- The stretches of steps from a node on that a segment stands for. -/
def Step.Covers (v : Value) : Step → List String → Prop
  | .key name, stretch => stretch = [name]
  | .any, stretch => stretch.length = 1 ∧ v.PlainAlong stretch
  | .descendants, stretch => v.PlainAlong stretch

/-- The steps lead from one node to another and can be cut into one stretch for each segment. -/
inductive Leads : List Step → Value → List String → Value → Prop
  | nil (v : Value) : Leads [] v [] v
  | cons {segment : Step} {segments : List Step} {v next w : Value} {stretch more : List String}
      (hcovers : segment.Covers v stretch) (hnext : v.follow? stretch = some next)
      (hrest : Leads segments next more w) : Leads (segment :: segments) v (stretch ++ more) w

theorem Leads.follow? {segments : List Step} {v w : Value} {more : List String}
    (h : Leads segments v more w) : v.follow? more = some w := by
  induction h with
  | nil => rfl
  | cons _ hnext _ ih => rw [Value.follow?_append, hnext, Option.bind_some, ih]

/-- Where no segment stands for any number of steps there is one step for each. -/
theorem Leads.length {segments : List Step} {v w : Value} {more : List String}
    (h : Leads segments v more w) (hnone : Step.descendants ∉ segments) :
    more.length = segments.length := by
  induction h with
  | nil => rfl
  | @cons segment _ _ _ _ stretch _ hcovers _ _ ih =>
      obtain ⟨hsegment, hrest⟩ := List.ne_and_not_mem_of_not_mem_cons hnone
      have hstretch : stretch.length = 1 := by
        cases segment with
        | key name => simp [show stretch = [name] from hcovers]
        | any => exact hcovers.1
        | descendants => exact absurd rfl hsegment
      rw [List.length_append, hstretch, ih hrest, List.length_cons]
      omega

/-- One segment for any number of steps only makes the way longer. -/
theorem Leads.length_le {segments : List Step} {v w : Value} {more : List String}
    (h : Leads (.descendants :: segments) v more w) (hnone : Step.descendants ∉ segments) :
    segments.length ≤ more.length := by
  cases h with
  | cons _ _ hrest =>
      rw [List.length_append, hrest.length hnone]
      omega

section
variable {segments : List Step} {v w : Value} {more : List String}

theorem leads_key {name : String} : Leads (.key name :: segments) v more w ↔
    ∃ next, v.step? name = some next ∧
      ∃ rest, more = name :: rest ∧ Leads segments next rest w := by
  constructor
  · intro h
    cases h with
    | cons hcovers hnext hrest =>
        obtain rfl : _ = [name] := hcovers
        rw [Value.follow?_cons] at hnext
        obtain ⟨next, hstep, hfollow⟩ := Option.bind_eq_some_iff.mp hnext
        obtain rfl := Option.some.inj hfollow
        exact ⟨_, hstep, _, rfl, hrest⟩
  · rintro ⟨next, hstep, rest, rfl, hrest⟩
    have hcovers : Step.Covers v (.key name) [name] := rfl
    exact .cons hcovers (by rw [Value.follow?_cons, hstep]; rfl) hrest

variable (h : v.Navigable)
include h

theorem leads_any : Leads (.any :: segments) v more w ↔
    ∃ e ∈ v.steppedChildren, ∃ rest, more = e.1 :: rest ∧ Leads segments e.2 rest w := by
  constructor
  · intro hleads
    cases hleads with
    | cons hcovers hnext hrest =>
        obtain ⟨hlength, hplain⟩ := hcovers
        obtain ⟨key, rfl⟩ := List.length_eq_one_iff.mp hlength
        rw [Value.follow?_cons] at hnext
        obtain ⟨next, hstep, hfollow⟩ := Option.bind_eq_some_iff.mp hnext
        obtain rfl := Option.some.inj hfollow
        exact ⟨(key, next), h.mem_steppedChildren.mpr ⟨hstep, hplain.1⟩, _, rfl, hrest⟩
  · rintro ⟨⟨key, next⟩, hmem, rest, rfl, hrest⟩
    obtain ⟨hstep, hplain⟩ := h.mem_steppedChildren.mp hmem
    have hcovers : Step.Covers v .any [key] := ⟨rfl, hplain, fun _ _ => trivial⟩
    refine .cons hcovers ?_ hrest
    rw [Value.follow?_cons, hstep]
    rfl

/-- Any number of steps are none, or one and any number behind it. -/
theorem leads_descendants : Leads (.descendants :: segments) v more w ↔
    Leads segments v more w ∨ ∃ e ∈ v.steppedChildren, ∃ rest, more = e.1 :: rest ∧
      Leads (.descendants :: segments) e.2 rest w := by
  constructor
  · intro hleads
    cases hleads with
    | @cons _ _ _ _ _ stretch _ hcovers hnext hrest =>
        cases stretch with
        | nil =>
            obtain rfl := Option.some.inj hnext
            exact .inl hrest
        | cons key stretch =>
            obtain ⟨hplain, halong⟩ := hcovers
            obtain ⟨next, hstep, hfollow⟩ := Option.bind_eq_some_iff.mp hnext
            refine .inr ⟨(key, next), h.mem_steppedChildren.mpr ⟨hstep, hplain⟩, _, rfl, ?_⟩
            exact .cons (halong next hstep) hfollow hrest
  · rintro (hleads | ⟨⟨key, next⟩, hmem, rest, rfl, hleads⟩)
    · have hcovers : Step.Covers v .descendants [] := trivial
      exact .cons hcovers rfl hleads
    · obtain ⟨hstep, hplain⟩ := h.mem_steppedChildren.mp hmem
      cases hleads with
      | @cons _ _ _ last _ stretch _ hcovers hnext hrest =>
          have hcovers' : Step.Covers v .descendants (key :: stretch) := by
            refine ⟨hplain, fun v hv => ?_⟩
            obtain rfl := Option.some.inj (hstep.symm.trans hv)
            exact hcovers
          refine .cons hcovers' ?_ hrest
          rw [Value.follow?_cons, hstep, Option.bind_some, hnext]

end

/-! ### What is found -/

theorem descendEntries_eq (f : String → Value → List (String × Value)) (path : String)
    (entries : Members) : descendEntries f path entries =
      entries.flatMap fun e => descend f (Path.join path e.1) e.2 := by
  induction entries with
  | nil => rfl
  | cons e entries ih => rw [descendEntries, ih, List.flatMap_cons]

theorem descendItems_eq (f : String → Value → List (String × Value)) (path : String)
    (items : List Value) : ∀ i, descendItems f path i items =
      (items.zipIdx i).flatMap fun e => descend f (Path.join path (toString e.2)) e.1 := by
  induction items with
  | nil => intro i; rfl
  | cons v items ih =>
      intro i
      rw [descendItems, ih, List.zipIdx_cons, List.flatMap_cons]

/-- Going down is looking at a node and going down into its members. -/
theorem descend_eq (f : String → Value → List (String × Value)) (path : String) (v : Value) :
    descend f path v =
      f path v ++ v.steppedChildren.flatMap fun e => descend f (Path.join path e.1) e.2 := by
  cases v with
  | map entries => rw [descend, descendEntries_eq]; rfl
  | list items => rw [descend, descendItems_eq, Value.steppedChildren, List.flatMap_map]
  | _ => simp [descend, Value.steppedChildren]

/-- **A search finds what its segments lead to**, each at the path of the steps. -/
theorem mem_selectFrom {v : Value} (h : v.Navigable) (segments : List Step) {path : String}
    {found : String × Value} : found ∈ selectFrom segments path v ↔
      ∃ more, found.1 = Path.walk path more ∧ Leads segments v more found.2 := by
  induction segments generalizing path v with
  | nil =>
      rw [selectFrom, List.mem_singleton]
      constructor
      · rintro rfl
        exact ⟨[], rfl, .nil v⟩
      · rintro ⟨more, hpath, hleads⟩
        cases hleads
        exact Prod.ext hpath rfl
  | cons segment segments ih =>
      cases segment with
      | key name =>
          rw [selectFrom]
          simp only [leads_key]
          cases hstep : v.step? name with
          | none => simp
          | some next =>
              dsimp only
              rw [ih (h.isStep hstep).2]
              constructor
              · rintro ⟨more, hpath, hleads⟩
                exact ⟨name :: more, hpath, next, rfl, more, rfl, hleads⟩
              · rintro ⟨_, hpath, _, hnext, more, rfl, hleads⟩
                obtain rfl := Option.some.inj hnext
                exact ⟨more, hpath, hleads⟩
      | any =>
          rw [selectFrom, List.mem_flatMap]
          simp only [leads_any h]
          constructor
          · rintro ⟨e, he, hfound⟩
            have hnext := (h.isStep (h.mem_steppedChildren.mp he).1).2
            obtain ⟨more, hpath, hleads⟩ := (ih hnext).mp hfound
            exact ⟨e.1 :: more, hpath, e, he, more, rfl, hleads⟩
          · rintro ⟨_, hpath, e, he, more, rfl, hleads⟩
            have hnext := (h.isStep (h.mem_steppedChildren.mp he).1).2
            exact ⟨e, he, (ih hnext).mpr ⟨more, hpath, hleads⟩⟩
      | descendants =>
          rw [selectFrom]
          induction h using Value.Navigable.induct generalizing path with
          | step v h ihv =>
              rw [descend_eq, List.mem_append, List.mem_flatMap, ih h]
              simp only [leads_descendants h]
              constructor
              · rintro (⟨more, hpath, hleads⟩ | ⟨e, he, hfound⟩)
                · exact ⟨more, hpath, .inl hleads⟩
                · obtain ⟨-, ihe⟩ := ihv e he
                  obtain ⟨more, hpath, hleads⟩ := ihe.mp hfound
                  exact ⟨e.1 :: more, hpath, .inr ⟨e, he, more, rfl, hleads⟩⟩
              · rintro ⟨more, hpath, hleads | ⟨e, he, rest, rfl, hleads⟩⟩
                · exact .inl ⟨more, hpath, hleads⟩
                · obtain ⟨-, ihe⟩ := ihv e he
                  exact .inr ⟨e, he, ihe.mpr ⟨rest, hpath, hleads⟩⟩

/-! ### Nothing twice -/

/-- What is found below the members of a node has different paths for different members. -/
theorem nodup_members {v : Value} (h : v.Navigable) (path : String)
    {below : String × Value → List (String × Value)}
    (hnodup : ∀ e ∈ v.steppedChildren, ((below e).map (·.1)).Nodup)
    (hpaths : ∀ e ∈ v.steppedChildren, ∀ found ∈ below e, ∃ more,
      found.1 = Path.walk path (e.1 :: more) ∧ ∀ key ∈ e.1 :: more, Path.IsStep key) :
    ((v.steppedChildren.flatMap below).map (·.1)).Nodup := by
  rw [List.map_flatMap, List.nodup_flatMap]
  refine ⟨hnodup, ?_⟩
  have hkeys : v.steppedChildren.Pairwise fun e e' => e.1 ≠ e'.1 :=
    List.pairwise_map.mp h.nodup_steppedChildren
  refine hkeys.imp_of_mem fun {e e'} he he' hne => ?_
  show List.Disjoint ((below e).map (·.1)) ((below e').map (·.1))
  rw [List.disjoint_left]
  intro p hp hp'
  obtain ⟨found, hfound, rfl⟩ := List.mem_map.mp hp
  obtain ⟨found', hfound', heq⟩ := List.mem_map.mp hp'
  obtain ⟨more, hpath, hsteps⟩ := hpaths e he found hfound
  obtain ⟨more', hpath', hsteps'⟩ := hpaths e' he' found' hfound'
  have hsame := Path.walk_injective hsteps hsteps' (hpath.symm.trans (heq.symm.trans hpath'))
  exact hne (List.cons.inj hsame).1

/-- What is found has a path of steps. -/
theorem isStep_selectFrom {v : Value} (h : v.Navigable) (segments : List Step) {path : String}
    {found : String × Value} (hfound : found ∈ selectFrom segments path v) :
    ∃ more, found.1 = Path.walk path more ∧ Leads segments v more found.2 ∧
      ∀ key ∈ more, Path.IsStep key := by
  obtain ⟨more, hpath, hleads⟩ := (mem_selectFrom h segments).mp hfound
  exact ⟨more, hpath, hleads, h.isStep_of_follow? hleads.follow?⟩

/-- **A search with at most one segment of any length finds no path twice.** -/
theorem nodup_selectFrom {v : Value} (h : v.Navigable) {segments : List Step}
    (hcount : segments.count .descendants ≤ 1) (path : String) :
    ((selectFrom segments path v).map (·.1)).Nodup := by
  induction segments generalizing path v with
  | nil => simp [selectFrom]
  | cons segment segments ih =>
      cases segment with
      | key name =>
          have hrest : segments.count .descendants ≤ 1 := by simpa using hcount
          rw [selectFrom]
          cases hstep : v.step? name with
          | none => simp
          | some next => exact ih (h.isStep hstep).2 hrest _
      | any =>
          have hrest : segments.count .descendants ≤ 1 := by simpa using hcount
          have hmember : ∀ e ∈ v.steppedChildren, Path.IsStep e.1 ∧ e.2.Navigable :=
            fun e he => h.isStep (h.mem_steppedChildren.mp he).1
          rw [selectFrom]
          refine nodup_members h path (fun e he => ih (hmember e he).2 hrest _) ?_
          intro e he found hfound
          obtain ⟨more, hpath, -, hsteps⟩ := isStep_selectFrom (hmember e he).2 segments hfound
          exact ⟨more, hpath, List.forall_mem_cons.mpr ⟨(hmember e he).1, hsteps⟩⟩
      | descendants =>
          have hnone : Step.descendants ∉ segments := by
            rw [← List.count_eq_zero]
            simpa using hcount
          have hrest : segments.count .descendants ≤ 1 := by
            rw [List.count_eq_zero.mpr hnone]
            omega
          -- A path found at the node itself has a step for each segment behind this one, and a
          -- path found below it has more.
          rw [selectFrom]
          induction h using Value.Navigable.induct generalizing path with
          | step v h ihv =>
              have hbelow : ∀ e ∈ v.steppedChildren,
                  ∀ found ∈ descend (selectFrom segments) (Path.join path e.1) e.2,
                  ∃ more, found.1 = Path.walk path (e.1 :: more) ∧
                    segments.length < (e.1 :: more).length ∧
                    ∀ key ∈ e.1 :: more, Path.IsStep key := by
                intro e he found hfound
                obtain ⟨hkey, hnext⟩ := h.isStep (h.mem_steppedChildren.mp he).1
                obtain ⟨more, hpath, hleads, hsteps⟩ :=
                  isStep_selectFrom hnext (.descendants :: segments) hfound
                refine ⟨more, hpath, ?_, List.forall_mem_cons.mpr ⟨hkey, hsteps⟩⟩
                exact Nat.lt_succ_of_le (hleads.length_le hnone)
              rw [descend_eq, List.map_append, List.nodup_append]
              refine ⟨ih h hrest path, ?_, ?_⟩
              · refine nodup_members h path ?_ ?_
                · intro e he
                  obtain ⟨-, ihe⟩ := ihv e he
                  exact ihe _
                · intro e he found hfound
                  obtain ⟨more, hpath, -, hsteps⟩ := hbelow e he found hfound
                  exact ⟨more, hpath, hsteps⟩
              · intro p hp p' hp' heq
                obtain ⟨found, hfound, rfl⟩ := List.mem_map.mp hp
                obtain ⟨found', hfound', rfl⟩ := List.mem_map.mp hp'
                obtain ⟨e, he, hfound'⟩ := List.mem_flatMap.mp hfound'
                obtain ⟨more, hpath, hleads, hsteps⟩ := isStep_selectFrom h segments hfound
                obtain ⟨more', hpath', hlength, hsteps'⟩ := hbelow e he found' hfound'
                rw [hpath, hpath'] at heq
                have hsame := Path.walk_injective hsteps hsteps' heq
                rw [← hsame, hleads.length hnone] at hlength
                omega

end Pattern

/-- **A pattern selects what it leads to.**  A path and a value are selected if and only if the
steps of the path lead to the value along the segments of the pattern.  Looking the path up then
gives the value.  And no path is selected twice if at most one segment stands for any number of
steps. -/
theorem Value.select_iff_leads {v : Value} (h : v.Navigable) (pattern : String) :
    (∀ path w, (path, w) ∈ v.select pattern ↔
      Pattern.Leads (Pattern.parse pattern) v (Path.steps path) w) ∧
    (∀ path w, (path, w) ∈ v.select pattern → v.lookup? path = some w) ∧
    ((Pattern.parse pattern).count .descendants ≤ 1 →
      ((v.select pattern).map (·.1)).Nodup) := by
  have hleads : ∀ path w, (path, w) ∈ v.select pattern ↔
      Pattern.Leads (Pattern.parse pattern) v (Path.steps path) w := by
    intro path w
    constructor
    · intro hfound
      obtain ⟨more, hpath, hleads, hsteps⟩ := Pattern.isStep_selectFrom h _ hfound
      have hmore : Path.steps path = more := by
        rw [show path = Path.walk "" more from hpath, Path.steps_walk hsteps]
        rfl
      rw [hmore]
      exact hleads
    · intro hleads
      have hsteps := h.isStep_of_follow? hleads.follow?
      exact (Pattern.mem_selectFrom h _).mpr ⟨_, (Path.walk_steps hsteps).symm, hleads⟩
  refine ⟨hleads, fun path w hfound => ((hleads path w).mp hfound).follow?, fun hcount => ?_⟩
  exact Pattern.nodup_selectFrom h hcount ""

/-- A name is found wherever it stands, also in a list, by way of the indices. -/
theorem Value.select_iff_leads_items :
    let v : Value := .map [("fields", .list [.map [("x", .int 1)], .map [("x", .int 2)]])]
    v.Navigable ∧ v.select "$..x" = [("fields.0.x", .int 1), ("fields.1.x", .int 2)] ∧
      Pattern.Leads (Pattern.parse "$..x") v ["fields", "1", "x"] (.int 2) ∧
      v.lookup? "fields.1.x" = some (.int 2) ∧
      (Pattern.parse "$..x").count .descendants ≤ 1 ∧ ((v.select "$..x").map (·.1)).Nodup := by
  intro v
  have hx : ∀ n, (Value.map [("x", .int n)]).Navigable := by
    intro n
    refine .map (by simp [Dict.keys]) ?_ ?_
    · simp [Dict.keys]
      exact ⟨by decide, by decide⟩
    · simp [Value.Navigable.int]
  have hitems : (Value.list [.map [("x", .int 1)], .map [("x", .int 2)]]).Navigable :=
    .list (by decide) (by simp [hx])
  have hv : v.Navigable := by
    refine .map (by decide) ?_ ?_
    · simp [Dict.keys]
      exact ⟨by decide, by decide⟩
    · simp [hitems]
  have hfound : v.select "$..x" = [("fields.0.x", .int 1), ("fields.1.x", .int 2)] := by
    rfl
  have hmem : ("fields.1.x", Value.int 2) ∈ v.select "$..x" := by
    simp [hfound]
  obtain ⟨hiff, hlookup, hnodup⟩ := Value.select_iff_leads hv "$..x"
  have hcount : (Pattern.parse "$..x").count .descendants ≤ 1 := by decide
  exact ⟨hv, hfound, (hiff _ _).mp hmem, hlookup _ _ hmem, hcount, hnodup hcount⟩

end DomainModel
