/-
What a position resolves to.

An index holds every path once, with the span recorded for it last.  The search goes
through the paths whose spans contain a position and keeps the best so far, so what it
ends with is one of them and none of them is to be preferred to it (`resolve_spec`).
-/
import DomainModel.Model.Locations
import DomainModel.Proofs.Value.Dict

namespace DomainModel.Locations

/-! ### Recording -/

/-- An index holds no path twice. -/
def Proper (index : Locations) : Prop := (Dict.keys index.entries).Nodup

theorem Proper.empty : Proper .empty := List.nodup_nil

theorem Proper.record {index : Locations} (h : index.Proper) (path : String) (span : Span) :
    (index.record path span).Proper :=
  Dict.nodup_keys_insert h path _

theorem mem_record {index : Locations} {path : String} {span : Span} {e : String × Entry}
    (h : e ∈ (index.record path span).entries) :
    e = (path, ⟨span, index.turns⟩) ∨ e ∈ index.entries :=
  Dict.mem_insert h

/-- In a proper index, a path is found with its own span. -/
theorem Proper.get?_of_mem {index : Locations} (h : index.Proper) {e : String × Entry}
    (he : e ∈ index.entries) : index.get? e.1 = some e.2.span := by
  rw [get?, Dict.get?_of_mem h he]
  rfl

theorem mem_toList {index : Locations} {l : String × Span} :
    l ∈ index.toList ↔ ∃ e ∈ index.entries, (e.1, e.2.span) = l := List.mem_map

/-! ### Searching -/

theorem Entry.length_le_of_not_precedes {r s : Entry} (h : r.precedes s = false) :
    s.span.length ≤ r.span.length := by
  simp only [precedes, Bool.or_eq_false_iff, decide_eq_false_iff_not] at h
  exact Nat.le_of_not_lt h.1

theorem Entry.not_precedes_self (r : Entry) : r.precedes r = false := by
  simp [precedes]

theorem Entry.precedes_trans {r s t : Entry} (h : r.precedes s = true) (h' : s.precedes t = true) :
    r.precedes t = true := by
  simp only [precedes, Bool.or_eq_true, Bool.and_eq_true, decide_eq_true_eq, beq_iff_eq] at *
  omega

/-- What gives way to a better entry is not to be preferred to it. -/
theorem Entry.precedes_asymm {r s : Entry} (h : r.precedes s = true) : s.precedes r = false := by
  by_contra hback
  have hself := precedes_trans h (by simpa using hback)
  rw [not_precedes_self] at hself
  exact Bool.noConfusion hself

/-- One step keeps the better of two. -/
theorem better_some (b e : String × Entry) : ∃ kept, better (some b) e = some kept ∧
    (kept = b ∨ kept = e) ∧ b.2.precedes kept.2 = false ∧ e.2.precedes kept.2 = false := by
  rw [better]
  by_cases h : e.2.precedes b.2 = true
  · exact ⟨e, if_pos h, .inr rfl, Entry.precedes_asymm h, Entry.not_precedes_self _⟩
  · exact ⟨b, if_neg h, .inl rfl, Entry.not_precedes_self _, by simpa using h⟩

/-- The search keeps the best of all. -/
theorem foldl_better (entries : List (String × Entry)) : ∀ b : String × Entry,
    ∃ kept ∈ b :: entries, entries.foldl better (some b) = some kept ∧
      ∀ e ∈ b :: entries, e.2.precedes kept.2 = false := by
  induction entries with
  | nil =>
      intro b
      refine ⟨b, List.mem_cons_self .., rfl, fun e he => ?_⟩
      rw [List.mem_singleton.mp he]
      exact Entry.not_precedes_self _
  | cons e entries ih =>
      intro b
      obtain ⟨first, hfirst, hmem, hb, he⟩ := better_some b e
      obtain ⟨kept, hkept, hfold, hbest⟩ := ih first
      -- Whatever `first` was preferred to cannot be preferred to what is kept in the end.
      have hfirstKept := hbest first (List.mem_cons_self ..)
      have hbeaten : ∀ x : String × Entry, x.2.precedes first.2 = false →
          x.2.precedes kept.2 = false := by
        intro x hx
        rcases List.mem_cons.mp hkept with rfl | hin
        · exact hx
        · simp only [Entry.precedes, Bool.or_eq_false_iff, Bool.and_eq_false_iff,
            decide_eq_false_iff_not, beq_eq_false_iff_ne] at hx hfirstKept ⊢
          omega
      refine ⟨kept, ?_, by rw [List.foldl_cons, hfirst, hfold], ?_⟩
      · rcases List.mem_cons.mp hkept with rfl | hin
        · rcases hmem with rfl | rfl <;> simp
        · exact List.mem_cons_of_mem _ (List.mem_cons_of_mem _ hin)
      · intro x hx
        rcases List.mem_cons.mp hx with rfl | hx
        · exact hbeaten x hb
        · rcases List.mem_cons.mp hx with rfl | hx
          · exact hbeaten x he
          · exact hbest x (List.mem_cons_of_mem _ hx)

/-- **Where some span contains a position, it resolves to the best of those that do.** -/
theorem resolve_spec {index : Locations} {p : Position} {e : String × Entry}
    (he : e ∈ index.entries) (hcontains : e.2.span.contains p = true) :
    ∃ kept ∈ index.entries, index.resolve p = some kept.1 ∧ kept.2.span.contains p = true ∧
      ∀ x ∈ index.entries, x.2.span.contains p = true → x.2.precedes kept.2 = false := by
  have hmem : e ∈ index.entries.filter fun e => e.2.span.contains p :=
    List.mem_filter.mpr ⟨he, hcontains⟩
  rw [resolve]
  cases hfilter : index.entries.filter fun e => e.2.span.contains p with
  | nil =>
      rw [hfilter] at hmem
      exact nomatch hmem
  | cons first rest =>
      obtain ⟨kept, hkept, hfold, hbest⟩ := foldl_better rest first
      rw [← hfilter] at hkept hbest
      obtain ⟨hin, hhas⟩ := List.mem_filter.mp hkept
      refine ⟨kept, hin, ?_, hhas, fun x hx hxp => hbest x (List.mem_filter.mpr ⟨hx, hxp⟩)⟩
      show (rest.foldl better (some first)).map (·.1) = _
      rw [hfold]
      rfl

end DomainModel.Locations
