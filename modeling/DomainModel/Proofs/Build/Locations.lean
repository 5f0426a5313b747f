/-
Where positions of a text lead.

Recorded spans are laminar, so of all that contain a position the shortest is the innermost,
and inside a span nothing is found but what belongs to it (`buildModel_locations`).  At its
two ends this is not so.  Both ends of a span belong to it, and where spans touch, the one
that ends and the one that begins are both candidates; the shorter one wins, whichever it is
(`resolve_ends`).
-/
import DomainModel.Proofs.Build.Spans

namespace DomainModel

/-- A range that contains a number, and is as long as another one that does at most, lies in
that or meets it there from outside. -/
theorem within_or_touches {r s : Range} {n : Nat} (hlaminar : r.Laminar s)
    (hlength : r.length ≤ s.length) (hs : s.start < s.stop) (hstart : r.start ≤ n)
    (hstop : n ≤ r.stop) (hstart' : s.start ≤ n) (hstop' : n ≤ s.stop) :
    r.Within s ∨ n = s.start ∧ r.stop = s.start ∨ n = s.stop ∧ r.start = s.stop := by
  simp only [Range.Laminar, Range.Within, Range.length] at *
  omega

/-- A boundary that a recorded span contains leads to a recorded span that is not longer, and
lies in the first or meets it there from outside. -/
theorem resolve_boundary {naming : Naming} {source : String} {e : String × Locations.Entry}
    (he : e ∈ (Direct.model naming source).locations.entries) {n : Nat}
    (hn : Source.Boundary source.toList n) (hstart : e.2.span.range.start ≤ n)
    (hstop : n ≤ e.2.span.range.stop) :
    ∃ path span, (Direct.model naming source).resolve (Source.position source.toList n) = some path ∧
      (Direct.model naming source).location? path = some span ∧ span.length ≤ e.2.span.length ∧
      (span.range.Within e.2.span.range ∨
        n = e.2.span.range.start ∧ span.range.stop = e.2.span.range.start ∨
        n = e.2.span.range.stop ∧ span.range.start = e.2.span.range.stop) := by
  obtain ⟨hproper, hcut⟩ := cut_locations naming source
  have hcontains := ((hcut e he).contains_iff hn).mpr ⟨hstart, hstop⟩
  obtain ⟨kept, hkept, hresolve, hhas, hbest⟩ := Locations.resolve_spec he hcontains
  obtain ⟨hfrom, hto⟩ := ((hcut kept hkept).contains_iff hn).mp hhas
  have hlength := Locations.Entry.length_le_of_not_precedes (hbest e he hcontains)
  exact ⟨kept.1, kept.2.span, hresolve, hproper.get?_of_mem hkept, hlength,
    within_or_touches ((hcut kept hkept).laminar (hcut e he)) hlength (hcut e he).start_lt_stop
      hfrom hto hstart hstop⟩

/-- **Recorded spans are laminar, and inside one of them a position leads to a path whose
span lies in it.** -/
theorem buildModel_locations (naming : Naming) (source : String) :
    ∃ m, buildModel naming source = .ok m ∧
      (∀ l ∈ m.locations.toList, ∀ l' ∈ m.locations.toList, l.2.range.Laminar l'.2.range) ∧
      ∀ l ∈ m.locations.toList, ∀ n, Source.Boundary source.toList n →
        l.2.range.start < n → n < l.2.range.stop →
        ∃ path span, m.resolve (Source.position source.toList n) = some path ∧
          m.location? path = some span ∧ span.range.Within l.2.range := by
  obtain ⟨-, hcut⟩ := cut_locations naming source
  refine ⟨_, buildModel_eq naming source, ?_, ?_⟩
  · intro l hl l' hl'
    obtain ⟨e, he, rfl⟩ := Locations.mem_toList.mp hl
    obtain ⟨e', he', rfl⟩ := Locations.mem_toList.mp hl'
    exact (hcut e he).laminar (hcut e' he')
  · intro l hl n hn hstart hstop
    obtain ⟨e, he, rfl⟩ := Locations.mem_toList.mp hl
    obtain ⟨path, span, hresolve, hlocation, -, hplace⟩ :=
      resolve_boundary he hn (Nat.le_of_lt hstart) (Nat.le_of_lt hstop)
    refine ⟨path, span, hresolve, hlocation, ?_⟩
    rcases hplace with hwithin | ⟨hn, -⟩ | ⟨hn, -⟩
    · exact hwithin
    · exact absurd hn (Nat.ne_of_gt hstart)
    · exact absurd hn (Nat.ne_of_lt hstop)

/-- A type that is declared in place: its span goes from its name to the end of its block,
and a position in the block leads to a span inside. -/
theorem buildModel_locations_block :
    let source := "/*\u00e9*/ entity A \x7bb B\x7bc D\x7d\x7d"
    let block : Span := ⟨⟨1, 18⟩, ⟨1, 24⟩, ⟨19, 25⟩⟩
    ∃ m, buildModel .english source = .ok m ∧
      ("entities.B", block) ∈ m.locations.toList ∧ Source.Boundary source.toList 22 ∧
      ∃ path span, m.resolve (Source.position source.toList 22) = some path ∧
        m.location? path = some span ∧ span.range.Within block.range := by
  intro source block
  obtain ⟨m, hm, -, hinside⟩ := buildModel_locations .english source
  obtain rfl := Except.ok.inj (hm.symm.trans (buildModel_eq .english source))
  have hmem : ("entities.B", block) ∈ (Direct.model .english source).locations.toList := by
    decide +kernel
  have hboundary : Source.Boundary source.toList 22 :=
    ⟨source.toList.take 21, source.toList.drop 21, by decide +kernel, by decide +kernel⟩
  exact ⟨_, hm, hmem, hboundary, hinside _ hmem 22 hboundary (by decide) (by decide)⟩

/-- **The ends of a recorded span lead into it, or to a span that meets it just there** from
outside and is not longer. -/
theorem resolve_ends (naming : Naming) (source : String) :
    ∃ m, buildModel naming source = .ok m ∧ ∀ l ∈ m.locations.toList,
      (∃ path span, m.resolve l.2.start = some path ∧ m.location? path = some span ∧
        (span.range.Within l.2.range ∨
          span.range.stop = l.2.range.start ∧ span.length ≤ l.2.length)) ∧
      ∃ path span, m.resolve l.2.stop = some path ∧ m.location? path = some span ∧
        (span.range.Within l.2.range ∨
          span.range.start = l.2.range.stop ∧ span.length ≤ l.2.length) := by
  obtain ⟨-, hcut⟩ := cut_locations naming source
  refine ⟨_, buildModel_eq naming source, fun l hl => ?_⟩
  obtain ⟨e, he, rfl⟩ := Locations.mem_toList.mp hl
  have hlt := (hcut e he).start_lt_stop
  obtain ⟨hstart, hstop⟩ := (hcut e he).boundaries
  refine ⟨?_, ?_⟩
  · obtain ⟨path, span, hresolve, hlocation, hlength, hplace⟩ :=
      resolve_boundary he hstart (Nat.le_refl _) (Nat.le_of_lt hlt)
    rw [← (hcut e he).start_eq] at hresolve
    refine ⟨path, span, hresolve, hlocation, ?_⟩
    rcases hplace with hwithin | ⟨-, htouch⟩ | ⟨hn, -⟩
    · exact .inl hwithin
    · exact .inr ⟨htouch, hlength⟩
    · exact absurd hn (Nat.ne_of_lt hlt)
  · obtain ⟨path, span, hresolve, hlocation, hlength, hplace⟩ :=
      resolve_boundary he hstop (Nat.le_of_lt hlt) (Nat.le_refl _)
    rw [← (hcut e he).stop_eq] at hresolve
    refine ⟨path, span, hresolve, hlocation, ?_⟩
    rcases hplace with hwithin | ⟨hn, -⟩ | ⟨-, htouch⟩
    · exact .inl hwithin
    · exact absurd hn (Nat.ne_of_gt hlt)
    · exact .inr ⟨htouch, hlength⟩

/-- A body right behind a name begins where the name ends. -/
theorem resolve_ends_body :
    let source := "entity A\x7b\x7d"
    let body : Span := ⟨⟨1, 8⟩, ⟨1, 10⟩, ⟨8, 10⟩⟩
    ∃ m, buildModel .english source = .ok m ∧ ("entities.A.body", body) ∈ m.locations.toList ∧
      ∃ path span, m.resolve body.start = some path ∧ m.location? path = some span ∧
        (span.range.Within body.range ∨
          span.range.stop = body.range.start ∧ span.length ≤ body.length) := by
  intro source body
  obtain ⟨m, hm, hends⟩ := resolve_ends .english source
  obtain rfl := Except.ok.inj (hm.symm.trans (buildModel_eq .english source))
  have hmem : ("entities.A.body", body) ∈ (Direct.model .english source).locations.toList := by
    decide +kernel
  exact ⟨_, hm, hmem, (hends _ hmem).1⟩

/-- Its beginning leads to the name, which is shorter, and not into the body. -/
theorem resolve_start_of_body :
    let source := "entity A\x7b\x7d"
    let body : Span := ⟨⟨1, 8⟩, ⟨1, 10⟩, ⟨8, 10⟩⟩
    let name : Span := ⟨⟨1, 7⟩, ⟨1, 8⟩, ⟨7, 8⟩⟩
    (parse source).errors source = [] ∧
      ∃ m, buildModel .english source = .ok m ∧ ("entities.A.body", body) ∈ m.locations.toList ∧
        m.resolve body.start = some "entities.A.name" ∧
        m.location? "entities.A.name" = some name ∧ ¬name.range.Within body.range := by
  intro source body name
  refine ⟨by decide +kernel, _, buildModel_eq .english source, ?_, ?_, ?_, by decide⟩
  all_goals decide +kernel

end DomainModel
