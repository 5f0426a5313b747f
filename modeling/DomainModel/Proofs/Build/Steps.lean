/-
Steps of a walk, and rows of them.

`Building.after` is a state with some changes made to the document and the innermost scope
changed as well.  Opening a construct, closing it and walking a row of children all are of
this form, and they compose: `run_scope` and `run_plain` say what the steps of a node do
when it is known what those of its children do.
-/
import DomainModel.Proofs.Build.Slots
import DomainModel.Proofs.Model.Document

namespace DomainModel

open Direct

theorem Scope.updateMap_updateMap (s : Scope) (slot : String) (f g : Members → Members) :
    (s.updateMap slot f).updateMap slot g = s.updateMap slot fun m => g (f m) := by
  have hmap : (s.updateMap slot f).mapAt slot = f (s.mapAt slot) := by
    rw [mapAt, updateMap, Dict.get?_insert, if_pos rfl]
    rfl
  rw [updateMap, hmap, updateMap, updateMap, Dict.insert_insert]

namespace Building

def draft (b : Building) : Draft := ⟨b.document, b.locations⟩

/-- The state after some changes, with the innermost scope changed too. -/
def after (b : Building) (changes : List Change) (f : Scope → Scope) : Building :=
  let d := changes.foldl Draft.change b.draft
  ⟨d.document, d.locations, b.stack.modifyTop f⟩

/-- The state with one more open scope. -/
def under (b : Building) (s : Scope) : Building := { b with stack := s :: b.stack }

/-- All steps of a walk. -/
def run (input : BuildInput) (b : Building) (visits : List Visit) : Except Fault Building :=
  visits.foldlM (step input) b

theorem modifyTop_id (stack : Scopes) : (stack.modifyTop fun s => s) = stack := by
  cases stack <;> rfl

theorem modifyTop_modifyTop (f g : Scope → Scope) (stack : Scopes) :
    (stack.modifyTop f).modifyTop g = stack.modifyTop fun s => g (f s) := by
  cases stack <;> rfl

theorem after_after (b : Building) (cs ds : List Change) (f g : Scope → Scope) :
    (b.after cs f).after ds g = b.after (cs ++ ds) fun s => g (f s) := by
  rw [after, after, after, List.foldl_append, modifyTop_modifyTop]
  rfl

theorem after_id (b : Building) : b.after [] (fun s => s) = b := by
  obtain ⟨document, locations, stack⟩ := b
  exact congrArg _ (modifyTop_id stack)

theorem head?_modifyTop (f : Scope → Scope) (stack : Scopes) :
    (stack.modifyTop f).head? = stack.head?.map f := by
  cases stack <;> rfl

/-- Where nothing is open, nothing is done to the innermost scope. -/
theorem after_of_empty {b : Building} (h : b.stack = []) (cs : List Change) (f g : Scope → Scope) :
    b.after cs f = b.after cs g := by
  rw [after, after, h]
  rfl

theorem run_append {input : BuildInput} {b b' : Building} {vs : List Visit}
    (h : run input b vs = .ok b') (ws : List Visit) :
    run input b (vs ++ ws) = run input b' ws := by
  rw [run, List.foldlM_append, ← run, h]
  rfl

theorem run_single {input : BuildInput} {b : Building} (v : Visit) :
    run input b [v] = step input b v := by
  rw [run, List.foldlM_cons]
  cases step input b v <;> rfl

theorem storeEntry_eq (b : Building) (c : Collection) (entry : String × Value) :
    b.storeEntry c entry = b.after (entered c entry) (fun s => s) := by
  have hentry : (fun m => Dict.insert entry.1 entry.2 (Dict.reserve entry.1 .null m)) =
      Dict.insert entry.1 entry.2 := funext fun m => Dict.insert_reserve _ _ _ m
  obtain ⟨document, locations, stack⟩ := b
  show Building.mk (document.update c _) locations stack =
    ⟨(document.update c _).update c _, locations, stack.modifyTop fun s => s⟩
  rw [Document.update_update, hentry, modifyTop_id]

/-- What opening a construct does to the scope in which its node will be stored. -/
def reserving (place : Place) (s : Scope) : Scope :=
  match place.slot with
  | none => s
  | some slot => s.updateMap slot (Dict.reserve place.name .null)

/-- What storing a node does to the scope in which it is stored. -/
def placing (place : Place) (v : Value) (s : Scope) : Scope :=
  match place.slot with
  | none => s
  | some slot => s.put slot (place.name, v)

theorem opening_eq (b : Building) (o : Opening) :
    b.opening o = (b.after (.recorded o.records :: reservation o.scope.place)
      (reserving o.scope.place)).under o.scope := by
  obtain ⟨document, locations, stack⟩ := b
  obtain ⟨records, kind, path, node, c, slot, name⟩ := o
  cases slot with
  | none => exact congrArg (fun rest => Building.mk _ _ (_ :: rest)) (modifyTop_id stack).symm
  | some slot => rfl

theorem closing_eq {b : Building} {s : Scope} (hslot : s.place.slot = none ∨ b.stack ≠ []) :
    (b.under s).closing s.kind =
      .ok (b.after (storage s.place (.map s.node)) (placing s.place (.map s.node))) := by
  obtain ⟨document, locations, stack⟩ := b
  obtain ⟨kind, path, node, c, slot, name⟩ := s
  rw [closing, under, Scopes.pop, if_pos rfl]
  cases slot with
  | none => exact congrArg (fun rest => Except.ok (Building.mk _ _ rest)) (modifyTop_id stack).symm
  | some slot =>
      cases stack with
      | nil => exact absurd rfl (hslot.resolve_left (by simp))
      | cons top rest => rfl

theorem placing_reserving (place : Place) (v : Value) (s : Scope) :
    placing place v (reserving place s) = placing place v s := by
  obtain ⟨c, slot, name⟩ := place
  cases slot with
  | none => rfl
  | some slot =>
      show (s.updateMap slot _).updateMap slot _ = s.updateMap slot _
      rw [Scope.updateMap_updateMap]
      exact congrArg _ (funext fun m => Dict.insert_reserve _ _ _ m)

end Building

/-! ### What a child leaves alone -/

/-- What belongs to a scope from its opening to its end. -/
def Scope.frame (s : Scope) : ScopeKind × String × Place := (s.kind, s.path, s.place)

theorem frame_withEnumValue (s : Scope) (t : Tree) :
    (Build.withEnumValue s t).frame = s.frame := by
  rw [Build.withEnumValue]
  cases t.literal? <;> rfl

theorem frame_annotated (s : Scope) (t : Tree) : (s.annotated t).frame = s.frame := by
  rw [Scope.annotated]
  cases t.identifier? <;> rfl

theorem frame_effect (t : Tree) : ∀ parent s, (effect parent t s).frame = s.frame := by
  induction t using Tree.induct with
  | leaf => exact fun _ _ => rfl
  | node kind children ih =>
      have hall : ∀ parent ts, (∀ t ∈ ts, t ∈ children) → ∀ s,
          (effectOfAll parent ts s).frame = s.frame := by
        intro parent ts hts
        induction ts with
        | nil => exact fun _ => rfl
        | cons t ts ihts =>
            intro s
            rw [effectOfAll, ihts fun u hu => hts u (List.mem_cons_of_mem _ hu)]
            exact ih t (hts t (List.mem_cons_self ..)) parent s
      intro parent s
      unfold effect
      split <;> first
        | rfl
        | exact frame_annotated s _
        | exact frame_withEnumValue s _
        | exact hall _ children (fun _ h => h) s

theorem frame_effectOfAll (parent : Option Tree) (ts : List Tree) (s : Scope) :
    (effectOfAll parent ts s).frame = s.frame := by
  induction ts generalizing s with
  | nil => rfl
  | cons t ts ih => rw [effectOfAll, ih, frame_effect]

/-! ### Walking children -/

namespace Building

/-- Children are walked one after the other, each with what those before it have left. -/
theorem run_all {input : BuildInput} {home : Option Home} {parent : Option Tree} {ts : List Tree} :
    ∀ {b : Building},
      (∀ front t back, ts = front ++ t :: back → ∀ b' : Building,
        b'.stack = b.stack.modifyTop (effectOfAll parent front) →
        run input b' (t.visitsUnder parent) =
          .ok (b'.after (changes input home parent t) (effect parent t))) →
      run input b (Tree.visitsOfAll parent ts) =
        .ok (b.after (changesOfAll input home parent ts) (effectOfAll parent ts)) := by
  induction ts with
  | nil => exact fun {b} _ => congrArg Except.ok b.after_id.symm
  | cons t ts ih =>
      intro b h
      rw [Tree.visitsOfAll, run_append (h [] t ts rfl b (modifyTop_id b.stack).symm), ih]
      · rw [after_after]
        rfl
      · intro front u back hsplit b' hb'
        refine h (t :: front) u back (by rw [hsplit]; rfl) b' ?_
        rw [hb', after, modifyTop_modifyTop]
        rfl

theorem under_after (b : Building) (s : Scope) (cs : List Change) (f : Scope → Scope) :
    (b.under s).after cs f = (b.after cs fun s => s).under (f s) := by
  rw [under, after, after, under, modifyTop_id]
  rfl

theorem stack_after (b : Building) (cs : List Change) (f : Scope → Scope) :
    (b.after cs f).stack = b.stack.modifyTop f := rfl

theorem modifyTop_ne_nil {stack : Scopes} (h : stack ≠ []) (f : Scope → Scope) :
    stack.modifyTop f ≠ [] := by
  cases stack with
  | nil => exact absurd rfl h
  | cons s rest => exact List.cons_ne_nil _ _

/-- **A construct that opens a scope**: if its children do `f` to the scope and make the
changes `cs`, the construct makes these between its own and stores what the scope holds. -/
theorem run_scope {input : BuildInput} {b : Building} {o : Opening} {kind : NodeKind}
    {parent : Option Tree} {children : List Tree} {cs : List Change} {f g : Scope → Scope}
    (hreported : kind.isReported = true) (hscope : kind.isScope = true)
    (henter : b.enter input kind (.node kind children) parent = .ok ((b.after [] g).opening o))
    (hkind : scopeKind? kind = some o.scope.kind)
    (hslot : o.scope.place.slot = none ∨ b.stack ≠ [])
    (hchildren : ∀ b' : Building, b'.stack.head? = some o.scope →
      run input b' (Tree.visitsOfAll (some (.node kind children)) children) = .ok (b'.after cs f))
    (hframe : (f o.scope).frame = o.scope.frame) :
    run input b (Tree.visitsUnder parent (.node kind children)) =
      .ok (b.after
        (.recorded o.records :: reservation o.scope.place ++ cs ++
          storage o.scope.place (.map (f o.scope).node))
        fun s => placing o.scope.place (.map (f o.scope).node) (g s)) := by
  obtain ⟨hfkind, -, hfplace⟩ : (f o.scope).kind = o.scope.kind ∧ (f o.scope).path = o.scope.path ∧
      (f o.scope).place = o.scope.place := by
    simpa [Scope.frame] using hframe
  -- The three legs: the scope is opened, the children are walked under it, it is closed.
  have hopen : run input b [.enter kind (.node kind children) parent] =
      .ok ((b.after (.recorded o.records :: reservation o.scope.place)
        fun s => reserving o.scope.place (g s)).under o.scope) := by
    rw [run_single, step, henter, opening_eq, after_after]
    rfl
  have hinside := hchildren ((b.after (.recorded o.records :: reservation o.scope.place)
    fun s => reserving o.scope.place (g s)).under o.scope) rfl
  rw [under_after, after_after] at hinside
  rw [Tree.visitsUnder, if_pos hreported, if_pos hscope, List.append_assoc, run_append hopen,
    run_append hinside, run_single, step, leave, hkind]
  show closing _ o.scope.kind = _
  rw [← hfkind, closing_eq, after_after, hfplace]
  · simp only [placing_reserving]
  · rw [hfplace, stack_after]
    exact hslot.imp_right fun h => modifyTop_ne_nil h _

/-- A node that opens no scope: what it does itself, then what its children do. -/
theorem run_plain {input : BuildInput} {b : Building} {kind : NodeKind} {parent : Option Tree}
    {children : List Tree} {own cs : List Change} {f g : Scope → Scope}
    (hscope : kind.isScope = false)
    (henter : (if kind.isReported then b.enter input kind (.node kind children) parent
      else .ok b) = .ok (b.after own f))
    (hchildren : run input (b.after own f)
      (Tree.visitsOfAll (some (.node kind children)) children) = .ok ((b.after own f).after cs g)) :
    run input b (Tree.visitsUnder parent (.node kind children)) =
      .ok (b.after (own ++ cs) fun s => g (f s)) := by
  have hopen : run input b (if kind.isReported then [.enter kind (.node kind children) parent]
      else []) = .ok (b.after own f) := by
    split at henter
    · rw [if_pos (by assumption), run_single, step, henter]
    · rw [if_neg (by assumption)]
      exact henter
  rw [Tree.visitsUnder, hscope, List.append_assoc, run_append hopen, run_append hchildren,
    after_after]
  rfl

end Building

end DomainModel
