/-
Which of the methods made up for a service are there in the end.

Each entity of a service without a body gets five methods, one for each `Operation`; `Made` says
what such a method holds.  They are stored by name, and a later one replaces an earlier one of
the same name.  Names of different operations differ in their first letter, and the names that
hold the entity itself differ as entities do, so only methods that list entities can get lost:
their names hold the plural, and different entities can have the same plural
(`key_eq_iff`).  So the methods are complete just if no two entities blur, and what is lost
otherwise is the listing of an entity in front of another one with its plural.
-/
import DomainModel.Build.Crud
import DomainModel.Proofs.Name.Plural
import DomainModel.Proofs.Text.Blank
import DomainModel.Proofs.Token.Cut
import DomainModel.Proofs.Value.Dict

namespace DomainModel

/-- Different entities that have the same plural. -/
def Name.Blurred (a b : String) : Prop := Blurs a.toList b.toList ∨ Blurs b.toList a.toList

/-- White space is no part of a word, so words are trimmed to themselves. -/
theorem Lexer.trim_of_isWord {cs : List Char} (h : isWord cs = true) : Text.trim cs = cs :=
  Text.trim_of_not_isBlank fun _ hc =>
    Text.not_isBlank (printed_of_isWordPart (isWordPart_of_mem h hc))

theorem Naming.pluralize_eq_iff {a b : String} (ha : Lexer.isWord a.toList = true)
    (hb : Lexer.isWord b.toList = true) :
    english.pluralize a = english.pluralize b ↔ a = b ∨ Name.Blurred a b := by
  have hplural : ∀ {w : String}, Lexer.isWord w.toList = true →
      (english.pluralize w).toList = Name.pluralOf w.toList := by
    intro w hw
    show (String.ofList (Name.pluralOf (Text.trim w.toList))).toList = _
    rw [String.toList_ofList, Lexer.trim_of_isWord hw]
  have hne : ∀ {w : String}, Lexer.isWord w.toList = true → w.toList ≠ [] := by
    intro w hw hnil
    simp [hnil, Lexer.isWord] at hw
  rw [← String.toList_inj, hplural ha, hplural hb, Name.pluralOf_eq_iff (hne ha) (hne hb),
    String.toList_inj]
  rfl

namespace Crud

/-! ### Operations -/

/-- What a method that is made up for an entity does. -/
inductive Operation where
  | create
  | update
  | get
  | list
  | delete
  deriving DecidableEq

namespace Operation

/-- The operations in the order of their methods. -/
def all : List Operation := [create, update, get, list, delete]

def word : Operation → String
  | create => "create"
  | update => "update"
  | get => "get"
  | list => "list"
  | delete => "delete"

/-- The name of the method: a listing is named for all entities of the kind. -/
def key (n : Naming) (entity : String) (op : Operation) : String :=
  op.word ++ if op = list then n.pluralize entity else entity

/-- How the route is asked for. -/
def verb : Operation → String
  | create => "post"
  | update => "put"
  | get | list => "get"
  | delete => "delete"

/-- The route to all entities of a kind, or to one of them. -/
def path (n : Naming) (entity : String) (op : Operation) : String :=
  let all := "/" ++ n.kebabCase (n.pluralize (onText Text.lower entity))
  if op = create ∨ op = list then all else all ++ "/\x7b" ++ n.instanceName entity ++ "Id\x7d"

end Operation

/-- The method of a service for an entity: it is called by its operation and the entity, takes
the entity to create or to update it, gives it back unless it is deleted, and has its route. -/
structure Made (n : Naming) (service entity : String) (op : Operation) (v : Value) : Prop where
  name : v.getString? "name" = some (op.key n entity)
  service : v.getString? "serviceName" = some service
  parameter : v.getString? "parameter" =
    if op = .create ∨ op = .update then some entity else none
  returnType : v.getString? "returnType" = if op = .delete then none else some entity
  route : ((v.get? "options").bind Value.map?) = some [(op.verb, .string (op.path n entity))]

/-- Five methods are made up for an entity, one for each operation. -/
theorem made_methodsOf (n : Naming) (service : String) {entity : String}
    (h : Lexer.isWord entity.toList = true) :
    List.Forall₂ (fun op entry => entry.1 = op.key n entity ∧ Made n service entity op entry.2)
      Operation.all (methodsOf n service entity) := by
  have htrim : onText Text.trim entity = entity := by
    unfold onText
    rw [Lexer.trim_of_isWord h, String.ofList_toList]
  unfold methodsOf
  rw [htrim]
  refine .cons ⟨rfl, rfl, rfl, rfl, rfl, rfl⟩ (.cons ⟨rfl, rfl, rfl, rfl, rfl, rfl⟩
    (.cons ⟨rfl, rfl, rfl, rfl, rfl, rfl⟩ (.cons ⟨rfl, rfl, rfl, rfl, rfl, rfl⟩
      (.cons ⟨rfl, rfl, rfl, rfl, rfl, rfl⟩ .nil))))

/-! ### Names -/

theorem keys_methodsOf (n : Naming) (service : String) {entity : String}
    (h : Lexer.isWord entity.toList = true) :
    Dict.keys (methodsOf n service entity) = Operation.all.map (·.key n entity) := by
  have hkeys : List.Forall₂ (fun op entry => entry.1 = op.key n entity) Operation.all
      (methodsOf n service entity) :=
    (made_methodsOf n service h).imp fun _ _ hrow => hrow.1
  refine Eq.symm ?_
  rw [← List.forall₂_eq_eq_eq, Dict.keys, List.forall₂_map_left_iff, List.forall₂_map_right_iff]
  exact hkeys.imp fun _ _ heq => heq.symm

theorem made_of_mem {n : Naming} {service entity : String} (h : Lexer.isWord entity.toList = true)
    {entry : String × Value} (hmem : entry ∈ methodsOf n service entity) :
    ∃ op : Operation, entry.1 = op.key n entity ∧ Made n service entity op entry.2 := by
  obtain ⟨i, hi, rfl⟩ := List.mem_iff_getElem.mp hmem
  obtain ⟨hlength, hrows⟩ := List.forall₂_iff_get.mp (made_methodsOf n service h)
  exact ⟨_, hrows i (hlength ▸ hi) hi⟩

theorem Operation.eq_of_word {op op' : Operation} {rest rest' : List Char}
    (h : op.word.toList ++ rest = op'.word.toList ++ rest') : op = op' := by
  have hfirst := congrArg List.head? h
  cases op <;> cases op' <;> simp [word] at hfirst ⊢

/-- **Methods of the same name do the same**, and that to the same entity, unless they list
entities that blur. -/
theorem key_eq_iff {op op' : Operation} {a b : String} (ha : Lexer.isWord a.toList = true)
    (hb : Lexer.isWord b.toList = true) : op.key .english a = op'.key .english b ↔
      op = op' ∧ (a = b ∨ op = .list ∧ Name.Blurred a b) := by
  unfold Operation.key
  constructor
  · intro h
    have hlist := congrArg String.toList h
    rw [String.toList_append, String.toList_append] at hlist
    obtain rfl := Operation.eq_of_word hlist
    have hrest := String.toList_injective (List.append_cancel_left hlist)
    refine ⟨rfl, ?_⟩
    by_cases hop : op = .list
    · rw [if_pos hop, if_pos hop, Naming.pluralize_eq_iff ha hb] at hrest
      exact hrest.imp_right fun hblurred => ⟨hop, hblurred⟩
    · rw [if_neg hop, if_neg hop] at hrest
      exact .inl hrest
  · rintro ⟨rfl, rfl | ⟨rfl, hblurred⟩⟩
    · rfl
    · rw [if_pos rfl, if_pos rfl, (Naming.pluralize_eq_iff ha hb).mpr (.inr hblurred)]

/-- The name of a method is that of one for another entity just if both list and blur. -/
theorem mem_keys_methodsOf (service : String) {op : Operation} {a b : String}
    (ha : Lexer.isWord a.toList = true) (hb : Lexer.isWord b.toList = true) :
    op.key .english a ∈ Dict.keys (methodsOf .english service b) ↔
      a = b ∨ op = .list ∧ Name.Blurred a b := by
  rw [keys_methodsOf .english service hb, List.mem_map]
  constructor
  · rintro ⟨op', -, heq⟩
    exact ((key_eq_iff ha hb).mp heq.symm).2
  · intro h
    exact ⟨op, by cases op <;> simp [Operation.all], ((key_eq_iff ha hb).mpr ⟨rfl, h⟩).symm⟩

/-- The names of methods of different entities differ, unless the entities blur. -/
theorem disjoint_methodsOf_iff (service : String) {a b : String}
    (ha : Lexer.isWord a.toList = true) (hb : Lexer.isWord b.toList = true) (hne : a ≠ b) :
    List.Disjoint (Dict.keys (methodsOf .english service a))
      (Dict.keys (methodsOf .english service b)) ↔ ¬ Name.Blurred a b := by
  rw [List.disjoint_left, keys_methodsOf .english service ha, List.forall_mem_map]
  simp only [mem_keys_methodsOf service ha hb, hne, false_or, not_and]
  constructor
  · intro h
    exact h .list (by simp [Operation.all]) rfl
  · intro h _ _ _
    exact h

theorem nodup_methodsOf (service : String) {entity : String}
    (h : Lexer.isWord entity.toList = true) :
    (Dict.keys (methodsOf .english service entity)).Nodup := by
  rw [keys_methodsOf .english service h]
  refine List.Nodup.map_on (fun op _ op' _ heq => ((key_eq_iff h h).mp heq).1) ?_
  simp [Operation.all]

/-! ### Several entities -/

section
variable (service : String) {entities : List String}
  (hwords : ∀ e ∈ entities, Lexer.isWord e.toList = true) (hnodup : entities.Nodup)
include hwords hnodup

/-- **No two methods have the same name just if no two entities blur.** -/
theorem nodup_keys_iff :
    (Dict.keys (entities.flatMap (methodsOf .english service))).Nodup ↔
      entities.Pairwise fun a b => ¬ Name.Blurred a b := by
  unfold Dict.keys
  rw [List.map_flatMap, List.nodup_flatMap]
  have hdisjoint : ∀ {a b}, a ∈ entities → b ∈ entities → a ≠ b → (List.Disjoint
      (Dict.keys (methodsOf .english service a)) (Dict.keys (methodsOf .english service b)) ↔
        ¬ Name.Blurred a b) :=
    fun ha hb hne => disjoint_methodsOf_iff service (hwords _ ha) (hwords _ hb) hne
  constructor
  · rintro ⟨-, h⟩
    refine (hnodup.and h).imp_of_mem fun {a b} ha hb hboth => ?_
    exact (hdisjoint ha hb hboth.1).mp hboth.2
  · intro h
    refine ⟨fun e he => nodup_methodsOf service (hwords e he), ?_⟩
    refine (hnodup.and h).imp_of_mem fun {a b} ha hb hboth => ?_
    exact (hdisjoint ha hb hboth.1).mpr hboth.2

omit hnodup in
theorem length_flatMap_methodsOf :
    (entities.flatMap (methodsOf .english service)).length = 5 * entities.length := by
  induction entities with
  | nil => rfl
  | cons e entities ih =>
      have hfive : (methodsOf .english service e).length = 5 :=
        (made_methodsOf .english service (hwords e (List.mem_cons_self ..))).length_eq.symm
      rw [List.flatMap_cons, List.length_append, hfive, List.length_cons,
        ih fun x hx => hwords x (List.mem_cons_of_mem _ hx)]
      omega

omit hnodup in
/-- Behind a method there is another one of its name just if it is a listing and its entity
blurs with one behind it. -/
theorem get?_reverse_eq_none_iff {e : String} (he : Lexer.isWord e.toList = true)
    (hfresh : e ∉ entities) {op : Operation} :
    Dict.get? (entities.flatMap (methodsOf .english service)).reverse (op.key .english e) = none ↔
      (op = .list → ∀ x ∈ entities, ¬ Name.Blurred e x) := by
  have hkeys : op.key .english e ∈ Dict.keys (entities.flatMap (methodsOf .english service)) ↔
      ∃ x ∈ entities, op.key .english e ∈ Dict.keys (methodsOf .english service x) := by
    unfold Dict.keys
    rw [List.map_flatMap, List.mem_flatMap]
  rw [Dict.get?_eq_none_iff, Dict.keys, List.map_reverse, List.mem_reverse, ← Dict.keys, hkeys]
  constructor
  · rintro h rfl x hx hblurred
    exact h ⟨x, hx, (mem_keys_methodsOf service he (hwords x hx)).mpr (.inr ⟨rfl, hblurred⟩)⟩
  · rintro h ⟨x, hx, hmem⟩
    rcases (mem_keys_methodsOf service he (hwords x hx)).mp hmem with rfl | ⟨hlist, hblurred⟩
    · exact hfresh hx
    · exact h hlist x hx hblurred

/-- A method is there in the end just if none behind it has its name: what would replace it
gives back another entity. -/
theorem get?_methods_iff {before after : List String} {e : String}
    (hsplit : entities = before ++ e :: after) {op : Operation} {entry : String × Value}
    (hentry : entry ∈ methodsOf .english service e) (hkey : entry.1 = op.key .english e)
    (hmade : Made .english service e op entry.2) :
    Dict.get? (methods .english service entities) entry.1 = some entry.2 ↔
      (op = .list → ∀ x ∈ after, ¬ Name.Blurred e x) := by
  subst hsplit
  have he := hwords e (by simp)
  have hafter : ∀ x ∈ after, Lexer.isWord x.toList = true := fun x hx => hwords x (by simp [hx])
  have hfresh : e ∉ after := (List.nodup_cons.mp (List.nodup_append.mp hnodup).2.1).1
  have hown : Dict.get? (methodsOf .english service e).reverse entry.1 = some entry.2 := by
    refine Dict.get?_of_mem ?_ (List.mem_reverse.mpr hentry)
    rw [Dict.keys, List.map_reverse, List.nodup_reverse]
    exact nodup_methodsOf service he
  rw [← get?_reverse_eq_none_iff service hafter he hfresh, ← hkey, methods,
    (Dict.arranged_ofList _).last, List.flatMap_append, List.flatMap_cons, List.reverse_append,
    List.reverse_append, List.append_assoc, Dict.get?_append, Dict.get?_append, hown]
  cases hlater : Dict.get? (after.flatMap (methodsOf .english service)).reverse entry.1 with
  | none => simp
  | some v =>
      refine iff_of_false (fun heq => ?_) (Option.some_ne_none v)
      obtain rfl : v = entry.2 := by simpa using heq
      obtain ⟨x, hx, hmem⟩ := List.mem_flatMap.mp (List.mem_reverse.mp (Dict.mem_of_get? hlater))
      obtain ⟨op', hkey', hmade'⟩ := made_of_mem (hafter x hx) hmem
      obtain ⟨rfl, hsame | ⟨rfl, -⟩⟩ := (key_eq_iff he (hafter x hx)).mp (hkey.symm.trans hkey')
      · exact hfresh (hsame ▸ hx)
      · have hreturn := hmade.returnType.symm.trans hmade'.returnType
        rw [if_neg (by decide), if_neg (by decide)] at hreturn
        exact hfresh (Option.some.inj hreturn ▸ hx)

/-- Each name is there once, where it first occurred. -/
theorem length_methods_iff :
    (methods .english service entities).length = 5 * entities.length ↔
      entities.Pairwise fun a b => ¬ Name.Blurred a b := by
  have horder := (Dict.arranged_ofList (entities.flatMap (methodsOf .english service))).order
  have hlength := congrArg List.length horder
  rw [Dict.keys, List.length_map] at hlength
  rw [← nodup_keys_iff service hwords hnodup, methods, hlength,
    ← length_flatMap_methodsOf service hwords, Dict.keys, ← length_eraseDups_iff, List.length_map]

/-- **What is there of the methods of a service.**  For each of its entities there is made up
one method for each operation, called and routed by the entity.  All of these are there in the
end, except that the listing of an entity is replaced when one behind it has the same plural.
So there are five times as many methods as entities, those of each in order, just if no two
entities blur. -/
theorem methods_kept :
    (∀ before e after, entities = before ++ e :: after →
      List.Forall₂ (fun op entry => entry.1 = op.key .english e ∧
          Made .english service e op entry.2 ∧
          (Dict.get? (methods .english service entities) entry.1 = some entry.2 ↔
            (op = .list → ∀ x ∈ after, ¬ Name.Blurred e x)))
        Operation.all (methodsOf .english service e)) ∧
    ((methods .english service entities).length = 5 * entities.length ↔
      entities.Pairwise fun a b => ¬ Name.Blurred a b) ∧
    ((entities.Pairwise fun a b => ¬ Name.Blurred a b) →
      methods .english service entities = entities.flatMap (methodsOf .english service)) := by
  refine ⟨fun before e after hsplit => ?_, length_methods_iff service hwords hnodup, fun h => ?_⟩
  · have hrows := made_methodsOf .english service (hwords e (by simp [hsplit]))
    rw [List.forall₂_iff_get] at hrows ⊢
    refine ⟨hrows.1, fun i hop hentry => ?_⟩
    obtain ⟨hkey, hmade⟩ := hrows.2 i hop hentry
    exact ⟨hkey, hmade, get?_methods_iff service hwords hnodup hsplit (List.getElem_mem hentry)
      hkey hmade⟩
  · exact Dict.ofList_of_nodup ((nodup_keys_iff service hwords hnodup).mpr h)

end

/-- An ox and an oxe have one plural, so the oxen are not listed. -/
theorem methods_kept_oxen :
    (∀ e ∈ ["Ox", "Oxe", "Cat"], Lexer.isWord e.toList = true) ∧ ["Ox", "Oxe", "Cat"].Nodup ∧
    ((methods .english "S" ["Ox", "Oxe", "Cat"]).length = 5 * 3 ↔
      ["Ox", "Oxe", "Cat"].Pairwise fun a b => ¬ Name.Blurred a b) ∧
    (methods .english "S" ["Ox", "Oxe", "Cat"]).length = 14 := by
  have hwords : ∀ e ∈ ["Ox", "Oxe", "Cat"], Lexer.isWord e.toList = true := by decide
  have hnodup : ["Ox", "Oxe", "Cat"].Nodup := by decide
  exact ⟨hwords, hnodup, (methods_kept "S" hwords hnodup).2.1, by decide +kernel⟩

/-- So not every row of different entities gets all of its methods. -/
theorem not_all_methods :
    ¬ ∀ (service : String) (entities : List String),
      (∀ e ∈ entities, Lexer.isWord e.toList = true) → entities.Nodup →
        (methods .english service entities).length = 5 * entities.length := by
  intro h
  have hlength : (methods .english "S" ["Ox", "Oxe"]).length = 9 := by decide +kernel
  have hall := h "S" ["Ox", "Oxe"] (by decide) (by decide)
  rw [hlength] at hall
  exact absurd hall (by decide)

end Crud

end DomainModel
