/-
A symbol table knows the keys of a document.

The table of a document is filled entry by entry and keeps a name once under each kind.
What it says in the end is what the document says: a name is declared under a kind if it is
a key of the collection of that kind, and an entity counts as an aggregate if it is marked
as one.  As a type a name stands for the last of the kinds under which it is declared
(`lookup?_ofDocument`).  So no question tells two tables apart whose documents declare the
same names (`agree_ofDocument`).
-/
import DomainModel.Model.Symbols
import DomainModel.Proofs.Value.Dict

namespace DomainModel.SymbolTable

/-! ### One entry -/

theorem contains_insert (t : SymbolTable) (kind kind' : SymbolKind) (name name' : String) :
    (t.insert kind name).contains kind' name' = true ↔
      t.contains kind' name' = true ∨ kind' = kind ∧ name' = name := by
  simp only [contains, insert, List.contains_iff_mem]
  split
  case isTrue hmem =>
    refine ⟨Or.inl, fun h => h.elim id ?_⟩
    rintro ⟨rfl, rfl⟩
    simpa [contains] using hmem
  case isFalse => simp

theorem contains_enter (t : SymbolTable) (kind kind' : SymbolKind) (entry : String × Value)
    (name : String) : (enter kind t entry).contains kind' name = true ↔
      t.contains kind' name = true ∨ kind' = kind ∧ name = entry.1 := by
  rw [← contains_insert, enter]
  split <;> rfl

theorem marked_enter (t : SymbolTable) (kind : SymbolKind) (entry : String × Value)
    (name : String) : name ∈ (enter kind t entry).aggregateEntities ↔
      name ∈ t.aggregateEntities ∨ kind = .entity ∧ marksAggregate entry.2 ∧ name = entry.1 := by
  have hinsert : (t.insert kind entry.1).aggregateEntities = t.aggregateEntities := rfl
  rw [enter]
  split
  case isTrue h =>
    obtain ⟨hkind, hmarks⟩ := Bool.and_eq_true_iff.mp h
    simp [markAggregate, ← of_decide_eq_true hkind, hinsert, hmarks, or_comm]
  case isFalse h =>
    rw [hinsert]
    refine ⟨Or.inl, fun hor => hor.elim id fun ⟨hkind, hmarks, _⟩ => ?_⟩
    exact absurd (Bool.and_eq_true_iff.mpr ⟨decide_eq_true hkind, hmarks⟩) h

/-! ### All entries -/

/-- What every step adds, a fold adds up. -/
theorem foldl_or {α β : Type} {f : β → α → β} {P : β → Prop} {Q : α → Prop}
    (hstep : ∀ b a, P (f b a) ↔ P b ∨ Q a) (as : List α) (b : β) :
    P (as.foldl f b) ↔ P b ∨ ∃ a ∈ as, Q a := by
  induction as generalizing b with
  | nil => simp
  | cons a as ih => rw [List.foldl_cons, ih, hstep, or_assoc, List.exists_mem_cons_iff]

/-- What entering an entry adds to a table, a document adds with all its entries. -/
theorem ofDocument_or {P : SymbolTable → Prop} {Q : SymbolKind → String × Value → Prop}
    (hstep : ∀ kind t entry, P (enter kind t entry) ↔ P t ∨ Q kind entry) (hempty : ¬P empty)
    (d : Document) :
    P (ofDocument d) ↔ ∃ kind, ∃ entry ∈ d.collection kind.collection, Q kind entry := by
  have hall : ∀ kind, kind ∈ SymbolKind.all := by
    intro kind
    cases kind <;> decide
  rw [ofDocument, foldl_or fun t kind => foldl_or (hstep kind) (d.collection kind.collection) t]
  simp [hempty, hall]

/-- **A name is known under a kind if the document declares it there.** -/
theorem contains_ofDocument (d : Document) (kind : SymbolKind) (name : String) :
    (ofDocument d).contains kind name = true ↔ name ∈ Dict.keys (d.collection kind.collection) := by
  have hor := ofDocument_or (P := fun t => t.contains kind name = true)
    (fun kind' t entry => contains_enter t kind' kind entry name) Bool.false_ne_true d
  rw [hor, Dict.keys, List.mem_map]
  constructor
  · rintro ⟨kind, entry, hentry, rfl, rfl⟩
    exact ⟨entry, hentry, rfl⟩
  · rintro ⟨entry, hentry, rfl⟩
    exact ⟨kind, entry, hentry, rfl, rfl⟩

theorem marked_ofDocument (d : Document) (name : String) :
    name ∈ (ofDocument d).aggregateEntities ↔
      ∃ entry ∈ d.entities, marksAggregate entry.2 ∧ name = entry.1 := by
  have hor := ofDocument_or (P := fun t => name ∈ t.aggregateEntities)
    (fun kind t entry => marked_enter t kind entry name) List.not_mem_nil d
  rw [hor]
  constructor
  · rintro ⟨kind, entry, hentry, rfl, hmarks, rfl⟩
    exact ⟨entry, hentry, hmarks, rfl⟩
  · rintro ⟨entry, hentry, hmarks, rfl⟩
    exact ⟨.entity, entry, hentry, rfl, hmarks, rfl⟩

/-- **An aggregate is declared as one, or is an entity marked as one.** -/
theorem isAggregate_ofDocument {d : Document} (hnodup : (Dict.keys d.entities).Nodup)
    (name : String) : (ofDocument d).isAggregate name = true ↔
      name ∈ Dict.keys d.aggregates ∨
        ∃ node ∈ Dict.get? d.entities name, marksAggregate node = true := by
  rw [isAggregate, Bool.or_eq_true, contains_ofDocument, List.contains_iff_mem, marked_ofDocument]
  refine or_congr Iff.rfl ⟨?_, ?_⟩
  · rintro ⟨entry, hentry, hmarks, rfl⟩
    exact ⟨entry.2, Dict.get?_of_mem hnodup hentry, hmarks⟩
  · rintro ⟨node, hnode, hmarks⟩
    exact ⟨(name, node), Dict.mem_of_get? hnode, hmarks, rfl⟩

/-! ### Types -/

theorem lookup?_enter (t : SymbolTable) (kind : SymbolKind) (entry : String × Value)
    (name : String) : (enter kind t entry).lookup? name =
      if kind.isType = true ∧ name = entry.1 then some kind else t.lookup? name := by
  have hinsert : (enter kind t entry).lookup? name = (t.insert kind entry.1).lookup? name := by
    rw [enter]
    split <;> rfl
  rw [hinsert]
  show Dict.get? (if kind.isType then Dict.insert entry.1 kind t.types else t.types) name = _
  by_cases htype : kind.isType = true
  · rw [if_pos htype, Dict.get?_insert]
    simp only [htype, true_and]
    rfl
  · rw [if_neg htype, if_neg fun hand => htype hand.1]
    rfl

theorem lookup?_entered (kind : SymbolKind) (m : Members) (t : SymbolTable) (name : String) :
    (m.foldl (enter kind) t).lookup? name =
      if kind.isType = true ∧ name ∈ Dict.keys m then some kind else t.lookup? name := by
  induction m generalizing t with
  | nil => exact (if_neg fun hand => absurd hand.2 List.not_mem_nil).symm
  | cons entry m ih =>
      have hkeys : name ∈ Dict.keys (entry :: m) ↔ name = entry.1 ∨ name ∈ Dict.keys m :=
        List.mem_cons
      rw [List.foldl_cons, ih, lookup?_enter]
      by_cases hrest : kind.isType = true ∧ name ∈ Dict.keys m
      · rw [if_pos hrest, if_pos ⟨hrest.1, hkeys.mpr (.inr hrest.2)⟩]
      · rw [if_neg hrest]
        simp only [hkeys, and_or_left, hrest, or_false]

/-- The kinds under which a document declares a name that can be a type. -/
def typeKinds (d : Document) (name : String) : List SymbolKind :=
  SymbolKind.all.filter fun kind =>
    kind.isType && (Dict.keys (d.collection kind.collection)).contains name

/-- **As a type a name stands for what it is declared as last.** -/
theorem lookup?_ofDocument (d : Document) (name : String) :
    (ofDocument d).lookup? name = (typeKinds d name).getLast? := by
  have hkinds : ∀ (kinds : List SymbolKind) (t : SymbolTable),
      (kinds.foldl (fun t kind => (d.collection kind.collection).foldl (enter kind) t) t).lookup?
          name =
        ((kinds.filter fun kind => kind.isType &&
          (Dict.keys (d.collection kind.collection)).contains name).getLast?).or
            (t.lookup? name) := by
    intro kinds
    induction kinds with
    | nil => exact fun _ => rfl
    | cons kind kinds ih =>
        intro t
        rw [List.foldl_cons, ih, lookup?_entered, List.filter_cons]
        simp only [← List.contains_iff_mem, ← Bool.and_eq_true]
        split
        · rw [List.getLast?_cons]
          cases (kinds.filter _).getLast? <;> rfl
        · rfl
  rw [ofDocument, hkinds, typeKinds]
  exact Option.or_none

/-! ### Tables that agree -/

theorem nodup_enter {t : SymbolTable} (h : t.declared.Nodup) (kind : SymbolKind)
    (entry : String × Value) : (enter kind t entry).declared.Nodup := by
  have hinsert : (enter kind t entry).declared = (t.insert kind entry.1).declared := by
    rw [enter]
    split <;> rfl
  rw [hinsert, insert]
  split
  case isTrue => exact h
  case isFalse hnew =>
    refine List.nodup_append.mpr ⟨h, List.nodup_singleton _, fun pair hpair other hother => ?_⟩
    obtain rfl := List.mem_singleton.mp hother
    rintro rfl
    exact hnew (List.contains_iff_mem.mpr hpair)

/-- A table declares nothing twice. -/
theorem nodup_ofDocument (d : Document) : (ofDocument d).declared.Nodup :=
  List.foldlRecOn (motive := fun t : SymbolTable => t.declared.Nodup) _ _ List.nodup_nil
    fun _ h kind _ => List.foldlRecOn (motive := fun t : SymbolTable => t.declared.Nodup) _ _ h
      fun _ h entry _ => nodup_enter h kind entry

/-- Two tables that no question tells apart. -/
structure Agree (s t : SymbolTable) : Prop where
  contains : ∀ kind name, s.contains kind name = t.contains kind name
  kinds : ∀ name, s.kinds name = t.kinds name
  isAggregate : ∀ name, s.isAggregate name = t.isAggregate name
  lookup? : ∀ name, s.lookup? name = t.lookup? name
  size : s.size = t.size
  isEmpty : s.isEmpty = t.isEmpty

/-- **Tables agree if their documents declare the same names** and mark the same entities. -/
theorem agree_ofDocument {d e : Document}
    (hkeys : ∀ kind : SymbolKind, ∀ name, name ∈ Dict.keys (d.collection kind.collection) ↔
      name ∈ Dict.keys (e.collection kind.collection))
    (hmarks : ∀ name, (ofDocument d).isAggregate name = (ofDocument e).isAggregate name) :
    (ofDocument d).Agree (ofDocument e) := by
  have hcontains : ∀ kind name,
      (ofDocument d).contains kind name = (ofDocument e).contains kind name := by
    intro kind name
    rw [Bool.eq_iff_iff, contains_ofDocument, contains_ofDocument, hkeys]
  have hdeclared : (ofDocument d).declared.Perm (ofDocument e).declared := by
    refine (List.perm_ext_iff_of_nodup (nodup_ofDocument d) (nodup_ofDocument e)).mpr ?_
    rintro ⟨kind, name⟩
    rw [← List.contains_iff_mem, ← List.contains_iff_mem]
    exact Bool.eq_iff_iff.mp (hcontains kind name)
  refine ⟨hcontains, fun name => ?_, hmarks, fun name => ?_, hdeclared.length_eq, ?_⟩
  · exact List.filter_congr fun kind _ => hcontains kind name
  · rw [lookup?_ofDocument, lookup?_ofDocument, typeKinds, typeKinds]
    refine congrArg List.getLast? (List.filter_congr fun kind _ => congrArg _ ?_)
    rw [Bool.eq_iff_iff, List.contains_iff_mem, List.contains_iff_mem, hkeys]
  · rw [isEmpty, isEmpty, Bool.eq_iff_iff, List.isEmpty_iff, List.isEmpty_iff,
      ← List.length_eq_zero_iff, ← List.length_eq_zero_iff, hdeclared.length_eq]

end DomainModel.SymbolTable
