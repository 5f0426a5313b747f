/-
Documents, one collection at a time.

A document is known by its collections and the few parts beside them (`eq_of`).  Changing
one collection leaves everything else as it was, and seen as one value a document has every
collection at its key.  So two documents are alike as values if their parts are
(`alike_toValue`).
-/
import DomainModel.Model.Document
import DomainModel.Proofs.Value.Same

namespace DomainModel.Document

theorem update_self (d : Document) (c : Collection) : (d.update c fun m => m) = d := by
  cases c <;> rfl

/-- Only what is done to the collection as it is matters. -/
theorem update_congr {d : Document} {c : Collection} {f g : Members → Members}
    (h : f (d.collection c) = g (d.collection c)) : d.update c f = d.update c g := by
  have hconst : ∀ f : Members → Members, d.update c f = d.update c fun _ => f (d.collection c) := by
    cases c <;> exact fun _ => rfl
  rw [hconst f, hconst g, h]

theorem update_update (d : Document) (c : Collection) (f g : Members → Members) :
    (d.update c f).update c g = d.update c (fun m => g (f m)) := by
  cases c <;> rfl

theorem collection_update (d : Document) (c c' : Collection) (f : Members → Members) :
    (d.update c f).collection c' = if c = c' then f (d.collection c') else d.collection c' := by
  cases c <;> cases c' <;> rfl

/-- What is not in a collection stays. -/
theorem rest_update (d : Document) (c : Collection) (f : Members → Members) :
    (d.update c f).imports = d.imports ∧ (d.update c f).javadoc = d.javadoc ∧
      (d.update c f).allEntitiesAndEnums = d.allEntitiesAndEnums := by
  cases c <;> exact ⟨rfl, rfl, rfl⟩

theorem get?_key (d : Document) (c : Collection) :
    d.toValue.get? c.key = some (.map (d.collection c)) := by
  cases c <;> rfl

theorem eq_of {d e : Document} (himports : d.imports = e.imports)
    (hcollections : ∀ c, d.collection c = e.collection c) (hjavadoc : d.javadoc = e.javadoc)
    (hall : d.allEntitiesAndEnums = e.allEntitiesAndEnums) : d = e := by
  cases d
  cases e
  rw [Document.mk.injEq]
  exact ⟨himports, hcollections .config, hcollections .apis, hcollections .plugins,
    hcollections .policies, hcollections .aggregates, hcollections .entities,
    hcollections .enums, hcollections .relationships, hcollections .services,
    hcollections .inputs, hcollections .outputs, hcollections .events, hcollections .constants,
    hjavadoc, hall⟩

/-! ### Documents that are alike -/

theorem get?_javadoc (d : Document) : d.toValue.get? "javadoc" = d.javadoc.map .string := by
  cases d with
  | mk _ _ _ _ _ _ _ _ _ _ _ _ _ _ javadoc view => cases javadoc <;> cases view <;> rfl

theorem get?_view (d : Document) :
    d.toValue.get? "allEntitiesAndEnums" = d.allEntitiesAndEnums.map .map := by
  cases d with
  | mk _ _ _ _ _ _ _ _ _ _ _ _ _ _ javadoc view => cases javadoc <;> cases view <;> rfl

theorem nodup_keys_entries (d : Document) : (Dict.keys d.entries).Nodup := by
  rw [entries]
  cases d.javadoc <;> cases d.allEntitiesAndEnums <;>
    simp [Dict.keys, Collection.all, Collection.key]

/-- **Two documents are alike if their parts are.** -/
theorem alike_toValue {d e : Document} : d.toValue.Alike e.toValue ↔
    List.Forall₂ Value.Alike d.imports e.imports ∧
      (∀ c, (Value.map (d.collection c)).Alike (.map (e.collection c))) ∧
      d.javadoc = e.javadoc ∧
      Option.Rel (fun m m' => (Value.map m).Alike (.map m')) d.allEntitiesAndEnums
        e.allEntitiesAndEnums := by
  constructor
  · intro h
    refine ⟨?_, fun c => ?_, ?_, ?_⟩
    · obtain ⟨items, hitems, himports⟩ := rel_some (h.get? "imports")
      obtain rfl := Option.some.inj hitems
      exact Value.alike_list.mp himports
    · have hget := h.get? c.key
      rw [get?_key, get?_key] at hget
      exact Option.rel_some_some.mp hget
    · have hget := h.getString? "javadoc"
      rw [Value.getString?, Value.getString?, get?_javadoc, get?_javadoc] at hget
      cases hd : d.javadoc <;> cases he : e.javadoc <;> simp_all [Value.string?]
    · have hget := h.get? "allEntitiesAndEnums"
      rw [get?_view, get?_view] at hget
      cases hd : d.allEntitiesAndEnums <;> cases he : e.allEntitiesAndEnums <;> simp_all
  · rintro ⟨himports, hcollections, hjavadoc, hview⟩
    refine Value.alike_map_of_forall₂ d.nodup_keys_entries e.nodup_keys_entries ?_
    rw [entries, entries, hjavadoc]
    refine List.rel_append (List.rel_append (List.rel_append ?_ ?_) ?_) ?_
    · exact .cons ⟨rfl, Value.alike_list.mpr himports⟩ .nil
    · rw [List.forall₂_map_left_iff, List.forall₂_map_right_iff, List.forall₂_same]
      exact fun c _ => ⟨rfl, hcollections c⟩
    · cases e.javadoc with
      | none => exact .nil
      | some text => exact .cons ⟨rfl, (Value.Tidy.string text).alike⟩ .nil
    · exact forall₂_toList (rel_map hview fun _ _ hmaps => ⟨rfl, hmaps⟩)

end DomainModel.Document
