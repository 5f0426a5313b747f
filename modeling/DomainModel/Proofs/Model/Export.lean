/-
What the export of a model holds.

An exported model is its document with two more members, the locations and the problems.  No
document has members of these names, so none of its own is lost and no key is there twice.
Read back from JSON it shows the document in its form, the place of every path and the problems
in order (`Model.read?_toJson`).

Places and problems are rows of numbers and texts, which JSON keeps and which tell all about
them.  So two models have the same export just if they have the same document, in that form,
the same places in the same order, and the same problems (`Model.toJson_eq_iff`).

Not exported: which of two places was recorded later, and the symbols of a model that has been
classified.
-/
import DomainModel.Model.Basic
import DomainModel.Proofs.Model.Document
import DomainModel.Proofs.Value.Json

namespace DomainModel

/-! ### Places and problems -/

theorem Span.jsonForm_toRow (s : Span) : s.toRow.jsonForm = s.toRow := rfl

theorem Span.toRow_injective {s t : Span} (h : s.toRow = t.toRow) : s = t := by
  obtain ⟨⟨line, column⟩, ⟨line', column'⟩, ⟨start, stop⟩⟩ := s
  simp only [toRow, Value.list.injEq, List.map_cons, List.map_nil, List.cons.injEq, Value.int.injEq,
    Int.natCast_inj] at h
  obtain ⟨rfl, rfl, rfl, rfl, rfl, rfl, -⟩ := h
  rfl

namespace Problem

theorem jsonForm_toListed (p : Problem) : p.toListed.jsonForm = p.toListed := by
  obtain ⟨code, path, value, message, location⟩ := p
  cases location <;> rfl

theorem toListed_injective {p q : Problem} (h : p.toListed = q.toListed) : p = q := by
  obtain ⟨code, path, value, message, location⟩ := p
  obtain ⟨code', path', value', message', location'⟩ := q
  simp only [toListed, Value.map.injEq, List.cons.injEq, Prod.mk.injEq, Value.string.injEq,
    true_and, and_true] at h
  obtain ⟨rfl, hlocation, rfl, rfl, rfl⟩ := h
  have hsame : location = location' := by
    cases location with
    | none =>
        cases location' with
        | none => rfl
        | some t => cases hlocation
    | some s =>
        cases location' with
        | none => cases hlocation
        | some t => rw [Span.toRow_injective hlocation]
  rw [hsame]

end Problem

/-! ### The members of an export -/

/-- The places of an index, as an export shows them. -/
def Locations.rows (index : Locations) : Members :=
  index.toList.map fun l => (l.1, l.2.toRow)

theorem Locations.get?_rows (index : Locations) (path : String) :
    Dict.get? index.rows path = (index.get? path).map Span.toRow := by
  rw [rows, Dict.get?_mapped, toList, Dict.get?_mapped]
  rfl

namespace Model

variable (m : Model)

/-- The members that an export has besides those of the document. -/
def additions : Members :=
  [("locations", .map m.locations.rows), ("problems", .list (m.problems.map Problem.toListed))]

theorem toValue_eq : m.toValue = .map (m.document.entries ++ m.additions) := rfl

/-- No member of a document is named like what an export adds. -/
theorem nodup_keys_export : (Dict.keys (m.document.entries ++ m.additions)).Nodup := by
  rw [Document.entries]
  cases m.document.javadoc <;> cases m.document.allEntitiesAndEnums <;>
    simp [Dict.keys, Collection.all, Collection.key, additions]

/-- JSON keeps what is added as it is. -/
theorem jsonForm_toValue : m.toValue.jsonForm =
    .map ((m.document.entries.map fun e => (e.1, e.2.jsonForm)) ++ m.additions) := by
  have hrows : (Value.map m.locations.rows).jsonForm = .map m.locations.rows := by
    rw [Value.jsonForm_map, Locations.rows, List.map_map]
    exact congrArg Value.map (List.map_congr_left fun l _ =>
      congrArg (Prod.mk l.1) l.2.jsonForm_toRow)
  have hproblems : (Value.list (m.problems.map Problem.toListed)).jsonForm =
      .list (m.problems.map Problem.toListed) := by
    rw [Value.jsonForm_list, List.map_map]
    exact congrArg Value.list (List.map_congr_left fun p _ => p.jsonForm_toListed)
  rw [toValue_eq, Value.jsonForm_map, List.map_append, additions, List.map_cons, List.map_cons,
    List.map_nil, hrows, hproblems]

/-- **What is read back from an export.**  The members of the document come first, in their JSON
form, then the places and the problems.  No key is there twice, every path has its place,
and the problems stand in order. -/
theorem read?_toJson : ∃ entries : Members, Json.read? m.toJson = some (.map entries) ∧
    (Dict.keys entries).Nodup ∧
    Dict.keys entries = Dict.keys m.document.entries ++ ["locations", "problems"] ∧
    (∀ key ∈ Dict.keys m.document.entries,
      Dict.get? entries key = (m.value.get? key).map Value.jsonForm) ∧
    (∃ rows, Dict.get? entries "locations" = some (.map rows) ∧
      ∀ path, Dict.get? rows path = (m.location? path).map Span.toRow) ∧
    Dict.get? entries "problems" = some (.list (m.problems.map Problem.toListed)) := by
  have hform : Json.Denotes m.toJson.toList
      (.map ((m.document.entries.map fun e => (e.1, e.2.jsonForm)) ++ m.additions)) :=
    m.jsonForm_toValue ▸ m.toValue.denotes_toPrettyJson
  have hkeys : Dict.keys ((m.document.entries.map fun e => (e.1, e.2.jsonForm)) ++ m.additions) =
      Dict.keys (m.document.entries ++ m.additions) := by
    simp [Dict.keys]
  have hadded : ∀ e ∈ m.additions,
      Dict.get? ((m.document.entries.map fun e => (e.1, e.2.jsonForm)) ++ m.additions) e.1 =
        some e.2 := by
    intro e he
    exact Dict.get?_of_mem (hkeys ▸ m.nodup_keys_export) (List.mem_append_right _ he)
  refine ⟨_, hform.read?, hkeys ▸ m.nodup_keys_export, ?_, fun key hkey => ?_,
    ⟨_, hadded _ (List.mem_cons_self ..), m.locations.get?_rows⟩,
    hadded _ (List.mem_cons_of_mem _ (List.mem_singleton_self _))⟩
  · rw [hkeys, Dict.keys, List.map_append]
    rfl
  · obtain ⟨v, hv⟩ := Option.isSome_iff_exists.mp (Dict.mem_keys_iff.mp hkey)
    rw [Dict.get?_append, Dict.get?_mapped, hv]
    show _ = (Dict.get? m.document.entries key).map Value.jsonForm
    rw [hv]
    rfl

/-- **An export tells its model**, as far as JSON can: two models are exported alike just if they
have the same document in JSON form, the same places in the same order, and the same
problems. -/
theorem toJson_eq_iff {m m' : Model} : m.toJson = m'.toJson ↔
    m.value.jsonForm = m'.value.jsonForm ∧ m.locations.toList = m'.locations.toList ∧
      m.problems = m'.problems := by
  have hrow : Function.Injective fun l : String × Span => (l.1, l.2.toRow) := by
    rintro ⟨path, span⟩ ⟨path', span'⟩ h
    obtain ⟨hpath, hspan⟩ := Prod.mk.inj h
    exact Prod.ext hpath (Span.toRow_injective hspan)
  have hlisted : Function.Injective Problem.toListed := fun _ _ => Problem.toListed_injective
  rw [toJson, toJson, Value.toPrettyJson_eq_iff, jsonForm_toValue, jsonForm_toValue, value, value,
    Document.toValue, Document.toValue, Value.jsonForm_map, Value.jsonForm_map,
    Value.map.injEq, Value.map.injEq]
  constructor
  · intro h
    obtain ⟨hdocument, hadditions⟩ := List.append_inj' h rfl
    simp only [additions, List.cons.injEq, Prod.mk.injEq, true_and, Value.map.injEq,
      Value.list.injEq, and_true] at hadditions
    exact ⟨hdocument, hrow.list_map hadditions.1, hlisted.list_map hadditions.2⟩
  · rintro ⟨hdocument, hlocations, hproblems⟩
    rw [hdocument, additions, additions, Locations.rows, Locations.rows, hlocations, hproblems]

end Model

end DomainModel
