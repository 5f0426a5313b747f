/-
Nothing can go wrong on the way from a text to its model.

The stack reader has no node to close too many and no mark that is out of date
(`driveSource_eq`), and the walk ends without a fault (`run_parse`).  A walk that ends
without a fault has met none on the way: so before every step the scope on top is of the
kind that the step asks for (`Admits`).  `Rooted` is kept by every step: the path of an open
scope begins with the key of the collection it goes to, so what a scope looks up at the root
of the document is always a mapping.
-/
import DomainModel.Proofs.Build.Document
import DomainModel.Proofs.Grammar.Lossless
import DomainModel.Proofs.Grammar.Machine

namespace DomainModel

namespace Building

/-! ### What a step asks for -/

/-- The kinds of scopes in which a construct has to stand, for one that has to. -/
def owners : NodeKind → List ScopeKind
  | .field => [.declaration, .nestedField]
  | .nestedField => [.field]
  | .serviceMethod => [.service]
  | .aggregateCommand => [.aggregate]
  | _ => []

/-- What a step asks of the open scopes and of the node it is at: an owner of the right kind
on top, a field as the parent of a block, a scope of its own kind to close, and one below
where the node goes into a slot. -/
def Admits (b : Building) : Visit → Prop
  | .enter kind _ parent =>
    (owners kind ≠ [] → ∃ s ∈ b.stack.head?, s.kind ∈ owners kind) ∧
      (kind = .nestedField → ∃ owner ∈ parent, owner.kind? = some .field)
  | .leave kind _ => ∀ scope ∈ scopeKind? kind,
      ∃ s ∈ b.stack.head?, s.kind = scope ∧ (s.place.slot ≠ none → b.stack.tail ≠ [])

theorem owner_ok {kinds : List ScopeKind} {what : String} {stack : Scopes} {s : Scope}
    (h : stack.owner kinds what = .ok s) : s ∈ stack.head? ∧ s.kind ∈ kinds := by
  cases stack with
  | nil => cases h
  | cons top rest =>
      rw [Scopes.owner] at h
      split at h
      case isTrue hkind =>
        obtain rfl := Except.ok.inj h
        exact ⟨rfl, List.contains_iff_mem.mp hkind⟩
      case isFalse => cases h

theorem bind_ok {α β : Type} {x : Except Fault α} {f : α → Except Fault β} {r : β}
    (h : (x >>= f) = .ok r) : ∃ a, x = .ok a ∧ f a = .ok r := by
  cases x with
  | error fault => cases h
  | ok a => exact ⟨a, rfl, h⟩

theorem closing_ok {b b' : Building} {kind : ScopeKind} (h : b.closing kind = .ok b') :
    ∃ s rest, b.stack = s :: rest ∧ s.kind = kind ∧ (s.place.slot ≠ none → rest ≠ []) ∧
      b' = { b with stack := rest }.updateAt s.place (Dict.insert s.place.name (.map s.node)) := by
  obtain ⟨document, locations, stack⟩ := b
  cases stack with
  | nil => cases h
  | cons s rest =>
      by_cases hkind : s.kind = kind
      · rw [closing, Scopes.pop, if_pos hkind] at h
        by_cases hslot : s.place.slot.isSome && rest.isEmpty
        · cases (if_pos hslot).symm.trans h
        · refine ⟨s, rest, rfl, hkind, fun hsome hrest => hslot ?_, ?_⟩
          · rw [hrest, Option.isSome_iff_ne_none.mpr hsome]
            rfl
          · exact (Except.ok.inj ((if_neg hslot).symm.trans h)).symm
      · rw [closing, Scopes.pop, if_neg hkind] at h
        cases h

/-- A step that is made has found what it asks for. -/
theorem step_admits {input : BuildInput} {b b' : Building} {v : Visit}
    (h : step input b v = .ok b') : b.Admits v := by
  cases v with
  | leave kind t =>
      intro scope hscope
      rw [step, leave, Option.mem_def.mp hscope] at h
      obtain ⟨s, rest, hstack, hkind, hslot, -⟩ := closing_ok h
      rw [hstack]
      exact ⟨s, rfl, hkind, hslot⟩
  | enter kind t parent =>
      rw [step] at h
      have howner {kinds : List ScopeKind} {what : String} {f : Scope → Building}
          (h : (b.stack.owner kinds what >>= fun s => Except.ok (f s)) = .ok b') :
          ∃ s ∈ b.stack.head?, s.kind ∈ kinds := by
        obtain ⟨s, hs, -⟩ := bind_ok h
        obtain ⟨htop, hkind⟩ := owner_ok hs
        exact ⟨s, htop, hkind⟩
      refine ⟨fun hne => ?_, fun hkind => ?_⟩
      · cases kind <;> first
          | exact absurd rfl hne
          | exact howner h
          | skip
        obtain ⟨s, hs, -⟩ := bind_ok h
        obtain ⟨htop, hkind⟩ := owner_ok hs
        exact ⟨s, htop, hkind⟩
      · subst hkind
        obtain ⟨s, -, hs⟩ := bind_ok (show openNested input b parent t = .ok b' from h)
        cases howner : parent.filter (Tree.isNode .field) with
        | none =>
            simp only [howner] at hs
            cases hs
        | some owner =>
            obtain ⟨hparent, hfield⟩ := Option.filter_eq_some_iff.mp howner
            exact ⟨owner, hparent, beq_iff_eq.mp hfield⟩

/-- Every step of a run that comes to its end has found what it asks for. -/
theorem run_admits {input : BuildInput} {b b' : Building} {visits : List Visit}
    (h : run input b visits = .ok b') {front back : List Visit} {v : Visit}
    (hsplit : visits = front ++ v :: back) :
    ∃ mid, run input b front = .ok mid ∧ mid.Admits v := by
  rw [hsplit, run, List.foldlM_append] at h
  obtain ⟨mid, hmid, hrest⟩ := bind_ok h
  rw [List.foldlM_cons] at hrest
  obtain ⟨next, hnext, -⟩ := bind_ok hrest
  exact ⟨mid, hmid, step_admits hnext⟩

/-! ### What is looked up at the root -/

/-- The path of every open scope begins with the key of the collection that it goes to. -/
def Rooted (stack : Scopes) : Prop := ∀ s ∈ stack, s.collectionKey = s.place.collection.key

theorem head_append (path rest : String) : Path.head (path ++ "." ++ rest) = Path.head path := by
  have htake : ∀ front back : List Char,
      (front ++ '.' :: back).takeWhile (· != '.') = front.takeWhile (· != '.') := by
    intro front back
    induction front with
    | nil => rfl
    | cons c front ih =>
        rw [List.cons_append, List.takeWhile_cons, List.takeWhile_cons, ih]
  rw [Path.head, Path.head, String.toList_append, String.toList_append, List.append_assoc]
  exact congrArg String.ofList (htake path.toList rest.toList)

theorem head_key (c : Collection) (name : String) : Path.head (c.key ++ "." ++ name) = c.key := by
  rw [head_append]
  cases c <;> decide

theorem head_lead {c : Collection} {lead : String} (h : lead = c.key ++ ".") (name : String) :
    Path.head (lead ++ name) = c.key := by
  rw [h]
  exact head_key c name

theorem head_behind {step : String} (rest : String) (h : step = "." ++ rest) (path name : String) :
    Path.head (path ++ step ++ name) = Path.head path := by
  rw [h, ← String.append_assoc, String.append_assoc, head_append]

theorem Rooted.modifyTop {stack : Scopes} (h : Rooted stack) {f : Scope → Scope}
    (hf : ∀ s, (f s).frame = s.frame) : Rooted (stack.modifyTop f) := by
  cases stack with
  | nil => exact h
  | cons s rest =>
      obtain ⟨-, hpath, hplace⟩ : (f s).kind = s.kind ∧ (f s).path = s.path ∧
          (f s).place = s.place := by
        simpa [Scope.frame] using hf s
      have hs := h s (List.mem_cons_self ..)
      intro s' hs'
      rcases List.mem_cons.mp hs' with rfl | hrest
      · rwa [Scope.collectionKey, hpath, hplace]
      · exact h s' (List.mem_cons_of_mem _ hrest)

theorem Rooted.updateAt {b : Building} (h : Rooted b.stack) (place : Place)
    (f : Members → Members) : Rooted (b.updateAt place f).stack := by
  obtain ⟨c, slot, name⟩ := place
  cases slot with
  | none => exact h
  | some slot => exact h.modifyTop fun _ => rfl

theorem Rooted.opening {b : Building} (h : Rooted b.stack) {o : Opening}
    (ho : o.scope.collectionKey = o.scope.place.collection.key) : Rooted (b.opening o).stack := by
  intro s hs
  rcases List.mem_cons.mp (show s ∈ o.scope :: _ from hs) with rfl | hrest
  · exact ho
  · exact Rooted.updateAt (b := b.record o.records) h _ _ s hrest

theorem rooted_enter {input : BuildInput} {b b' : Building} {kind : NodeKind} {t : Tree}
    {parent : Option Tree} (h : Rooted b.stack) (hstep : b.enter input kind t parent = .ok b') :
    Rooted b'.stack := by
  have hself {b'' : Building} (heq : Except.ok (ε := Fault) b'' = .ok b')
      (hrooted : Rooted b''.stack) : Rooted b'.stack := by
    obtain rfl := Except.ok.inj heq
    exact hrooted
  have howner {kinds : List ScopeKind} {what : String} {f : Scope → Opening}
      (heq : (b.stack.owner kinds what >>= fun s => Except.ok (b.opening (f s))) = .ok b')
      (hf : ∀ s, s.collectionKey = s.place.collection.key →
        (f s).scope.collectionKey = (f s).scope.place.collection.key) : Rooted b'.stack := by
    obtain ⟨s, hs, heq⟩ := bind_ok heq
    have hmem : s ∈ b.stack := List.mem_of_mem_head? (owner_ok hs).1
    exact hself heq (h.opening (hf s (h s hmem)))
  cases kind
  case api => exact hself hstep (h.opening (head_lead (c := .apis) (by decide) _))
  case plugin => exact hself hstep (h.opening (head_lead (c := .plugins) (by decide) _))
  case enumeration => exact hself hstep (h.opening (head_lead (c := .enums) (by decide) _))
  case service | legacyService =>
    exact hself hstep (h.opening (head_lead (c := .services) (by decide) _))
  case aggregate => exact hself hstep (h.opening (head_lead (c := .aggregates) (by decide) _))
  case entity | input | output | event => exact hself hstep (h.opening (head_key _ _))
  case field =>
    exact howner hstep fun s hs => (head_behind "fields." (by decide) _ _).trans hs
  case serviceMethod | aggregateCommand =>
    exact howner hstep fun s hs => (head_append _ _).trans ((head_append _ _).trans hs)
  case nestedField =>
    obtain ⟨s, -, hs⟩ := bind_ok (show openNested input b parent t = .ok b' from hstep)
    have htop : Rooted (b.updateTop fun f => Build.withNestedValidations f t).stack :=
      h.modifyTop fun _ => rfl
    split at hs
    · exact nomatch hs
    · exact hself hs (htop.opening (head_key _ _))
  case globalJavadoc | importStatement =>
    rw [enter] at hstep
    split at hstep <;> exact hself hstep h
  case apiConfig | pluginConfigOption | pluginCliOption =>
    exact hself hstep (h.modifyTop fun _ => rfl)
  case enumValue => exact hself hstep (h.modifyTop fun s => frame_withEnumValue s t)
  case annotationNode =>
    rw [enter, annotate] at hstep
    split at hstep
    · exact hself hstep h
    · exact hself hstep (h.modifyTop fun _ => rfl)
  all_goals exact hself hstep h

/-- Every step keeps it so. -/
theorem rooted_step {input : BuildInput} {b b' : Building} {v : Visit} (h : Rooted b.stack)
    (hstep : step input b v = .ok b') : Rooted b'.stack := by
  cases v with
  | enter kind t parent => exact rooted_enter h hstep
  | leave kind t =>
      rw [step, leave] at hstep
      split at hstep
      · obtain ⟨s, rest, hstack, -, -, rfl⟩ := closing_ok hstep
        rw [hstack] at h
        exact Rooted.updateAt (b := { b with stack := rest })
          (fun s hs => h s (List.mem_cons_of_mem _ hs)) _ _
      · obtain rfl := Except.ok.inj hstep
        exact h

theorem rooted_run {input : BuildInput} {visits : List Visit} :
    ∀ {b b' : Building}, Rooted b.stack → run input b visits = .ok b' → Rooted b'.stack := by
  induction visits with
  | nil =>
      intro b b' h hrun
      obtain rfl := Except.ok.inj hrun
      exact h
  | cons v visits ih =>
      intro b b' h hrun
      rw [run, List.foldlM_cons] at hrun
      obtain ⟨mid, hmid, hrest⟩ := bind_ok hrun
      exact ih (rooted_step h hmid) hrest

/-- Whatever is looked up at the root of the document is a mapping: the collections, and what
the open scopes take their collection to be. -/
def Mapped (b : Building) : Prop :=
  ∀ key, (∃ c : Collection, key = c.key) ∨ (∃ s ∈ b.stack, key = s.collectionKey) →
    ∃ m, b.document.toValue.get? key = some (.map m)

end Building

theorem Building.Rooted.mapped {b : Building} (h : Rooted b.stack) : b.Mapped := by
  rintro key (⟨c, rfl⟩ | ⟨s, hs, rfl⟩)
  · exact ⟨_, b.document.get?_key c⟩
  · rw [h s hs]
    exact ⟨_, b.document.get?_key s.place.collection⟩

/-- **Every text can be analyzed**, with any options and any naming.  Reading it with a stack
of nodes ends in its tree.  Every step of the walk finds the scopes that it asks for, and
nothing but mappings where it looks for a collection; at the end nothing is open.  There is
an analysis, and its collections are mappings.  And the table of lines has a span for every
part of the tree. -/
theorem analyze_safe (options : Options) (naming : Naming) (source : String) :
    let input : BuildInput := ⟨naming, source.toList⟩
    let tree := (parse source).tree
    Grammar.driveSource (scan source) = .ok (parse source) ∧
      (∀ front v back, tree.visits = front ++ v :: back →
        ∃ b, Building.run input {} front = .ok b ∧ b.Admits v ∧ b.Mapped) ∧
      (∃ b, Building.run input {} tree.visits = .ok b ∧ b.stack = []) ∧
      (∃ a, analyze options naming source = .ok a ∧
        ∀ c : Collection, a.model.topMapping? c.key = some (a.model.document.collection c)) ∧
      ∃ index, Source.LineIndex.ofText? source.toList = some index ∧
        ∀ (part : Tree) (range : Range), part.Part tree → part.range? = some range →
          index.span? range = some (Source.span source.toList range) := by
  intro input tree
  have hrun := run_parse input source
  refine ⟨Grammar.driveSource_eq source, ?_, ⟨_, hrun, rfl⟩, ?_, ?_⟩
  · intro front v back hsplit
    obtain ⟨b, hb, hadmits⟩ := Building.run_admits hrun hsplit
    have hrooted : Building.Rooted b.stack :=
      Building.rooted_run (fun s hs => nomatch (show s ∈ [] from hs)) hb
    exact ⟨b, hb, hadmits, hrooted.mapped⟩
  · refine ⟨_, analyze_eq options naming source, fun c => ?_⟩
    rw [Model.topMapping?, Model.value, Document.get?_key]
    rfl
  · obtain ⟨index, hindex, -⟩ := Source.position?_boundary source.toList []
    rw [List.append_nil] at hindex
    refine ⟨index, hindex, fun part range hpart hrange => ?_⟩
    obtain ⟨index', hindex', hspan⟩ := span?_part hpart hrange
    rwa [Option.some.inj (hindex.symm.trans hindex')]

end DomainModel
