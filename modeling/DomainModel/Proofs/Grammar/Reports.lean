/-
Errors stand in the order of the text.

A complaint holds the token that was next when it was made, and reading only takes tokens: what
is left at one complaint is what is left at the one after it, with some tokens in front.
`Advancing` says that of a row of complaints, and rows of complaints made one behind the other
make such a row again (`Advancing.trans`), so it holds of every way to read a rule.

In the text it means that errors are reported from the front to the back, each at a token or
at the end.
-/
import DomainModel.Proofs.Grammar.Lossless

namespace DomainModel

open Source (byteLength byteLength_append byteLength_toList)

namespace Grammar

/-- The complaints are made one after the other on the way from `ts` to a tail `us` of it, each
at the first token of what is left then. -/
inductive Advancing : List Token → List Complaint → List Token → Prop
  | stop {ts us} (h : us <:+ ts) : Advancing ts [] us
  | complain {ts us vs c cs} (h : vs <:+ ts) (hfound : c.found = vs.head?)
      (hmore : Advancing vs cs us) : Advancing ts (c :: cs) us

namespace Advancing

variable {ts us vs : List Token} {cs ds : List Complaint}

theorem mono (h : us <:+ ts) (hcs : Advancing us cs vs) : Advancing ts cs vs := by
  cases hcs with
  | stop h' => exact .stop (h'.trans h)
  | complain h' hfound hmore => exact .complain (h'.trans h) hfound hmore

theorem trans (h : Advancing ts cs us) (h' : Advancing us ds vs) : Advancing ts (cs ++ ds) vs := by
  induction h with
  | stop h => exact h'.mono h
  | complain h hfound _ ih => exact .complain h hfound (ih h')

/-- The complaints are found at tokens of the row, or at its end. -/
theorem found_mem (h : Advancing ts cs us) : ∀ c ∈ cs, ∀ t ∈ c.found, t ∈ ts := by
  induction h with
  | stop => exact fun c hc => nomatch hc
  | complain h hfound _ ih =>
      refine List.forall_mem_cons.mpr ⟨fun t ht => ?_, fun c hc t ht => h.subset (ih c hc t ht)⟩
      rw [hfound] at ht
      exact h.subset (List.mem_of_mem_head? ht)

end Advancing

/-- **Reading a rule makes its complaints on the way to what it leaves.** -/
theorem Reads.advancing {rule : Rule} {ts : List Token} {r : Reading} (h : Reads rule ts r) :
    Advancing (proper ts) r.complaints (proper r.rest) := by
  have htrivia (ts : List Token) :
      Advancing (proper ts) (Reading.trivia ts).complaints (proper (Reading.trivia ts).rest) :=
    .stop ((proper_afterTrivia ts).symm ▸ List.suffix_rfl)
  induction h with
  | nothing | done => exact .stop List.suffix_rfl
  | take => exact .stop (by rw [proper_take]; exact List.drop_suffix _ _)
  | trivia => exact htrivia _
  | missing =>
      refine .complain List.suffix_rfl ?_ (.stop List.suffix_rfl)
      rw [ahead?_eq, List.head?_eq_getElem?]
  | seq _ _ ihfirst ihsecond => exact ihfirst.trans ihsecond
  | yes _ _ ih | no _ _ ih | call _ ih => exact ih
  | again _ _ _ ihbody ihloop => exact ihbody.trans ihloop
  | node _ ih | bare _ _ ih => exact (htrivia _).trans ih
  | headed _ _ _ ihlead ihbody => exact (htrivia _).trans (ihlead.trans ihbody)

end Grammar

/-! ### Places in the text -/

/-- The tokens of a contiguous row begin one behind the other. -/
theorem Contiguous.starts_ordered {start : Nat} {ts : List Token} (h : Contiguous start ts) :
    ts.Pairwise (fun t u => t.start ≤ u.start) ∧ ∀ t ∈ ts, start ≤ t.start := by
  induction ts generalizing start with
  | nil => exact ⟨.nil, fun t ht => nomatch ht⟩
  | cons t ts ih =>
      obtain ⟨ht, hts⟩ := h
      obtain ⟨hordered, hbehind⟩ := ih hts
      have hstop : t.start ≤ t.stop := Nat.le_add_right ..
      refine ⟨.cons (fun u hu => Nat.le_trans hstop (hbehind u hu)) hordered,
        List.forall_mem_cons.mpr ⟨Nat.le_of_eq ht.symm, fun u hu => ?_⟩⟩
      rw [← ht]
      exact Nat.le_trans hstop (hbehind u hu)

/-- A token of a text is a stretch of its characters. -/
theorem scan_stretch {source : String} {t : Token} (h : t ∈ scan source) :
    ∃ front middle back, source.toList = front ++ middle ++ back ∧
      t.range = ⟨byteLength front, byteLength (front ++ middle)⟩ := by
  obtain ⟨before, after, hsplit⟩ := List.append_of_mem h
  refine ⟨charsOf before, t.text.toList, charsOf after, ?_, ?_⟩
  · rw [← scan_chars, hsplit, charsOf_append, charsOf_cons, List.append_assoc]
  · have hcontiguous := scan_contiguous source
    rw [hsplit] at hcontiguous
    rw [Token.range, Token.stop, contiguous_split hcontiguous, Nat.zero_add, byteLength_append,
      byteLength_toList]

namespace Grammar

/-- Complaints that are made on the way through a row are reported in its order. -/
theorem Advancing.ordered {ts us : List Token} {cs : List Complaint} {stop : Nat}
    (h : Advancing ts cs us) (hordered : ts.Pairwise fun t u => t.start ≤ u.start)
    (hstop : ∀ t ∈ ts, t.start ≤ stop) :
    (cs.map (·.report stop)).Pairwise fun e f => e.range.start ≤ f.range.start := by
  induction h with
  | stop => exact .nil
  | @complain ts us vs c cs h hfound hmore ih =>
      have hvs := hordered.sublist h.sublist
      refine .cons (List.forall_mem_map.mpr fun d hd => ?_)
        (ih hvs fun t ht => hstop t (h.subset ht))
      -- What is found later is a token from `vs`, which `c` found the first one of.
      have hlater := hmore.found_mem d hd
      show ((c.found.map Token.range).getD ⟨stop, stop⟩).start ≤
        ((d.found.map Token.range).getD ⟨stop, stop⟩).start
      rw [hfound]
      cases vs with
      | nil =>
          cases hdfound : d.found with
          | none => exact Nat.le_refl _
          | some t => exact nomatch hlater t hdfound
      | cons t vs =>
          cases hdfound : d.found with
          | none => exact hstop t (h.subset (List.mem_cons_self ..))
          | some u =>
              rcases List.mem_cons.mp (hlater u hdfound) with rfl | hu
              · exact Nat.le_refl _
              · exact (List.pairwise_cons.mp hvs).1 u hu

end Grammar

/-- **Errors are listed from the front of the text to its back.**  Each is about the bytes of a
token that is no trivia, or about the empty range at the end, and so about a stretch of the
text between two boundaries of characters. -/
theorem errors_ordered (source : String) :
    ((parse source).errors source).Pairwise (fun e f => e.range.start ≤ f.range.start) ∧
      ∀ e ∈ (parse source).errors source,
        ((∃ t ∈ scan source, t.isTrivia = false ∧ e.range = t.range) ∨
          e.range = ⟨source.utf8ByteSize, source.utf8ByteSize⟩) ∧
        ∃ front middle back, source.toList = front ++ middle ++ back ∧
          e.range = ⟨byteLength front, byteLength (front ++ middle)⟩ := by
  have hadvancing := (Grammar.reads_readSource (scan source)).advancing
  have hproper : ∀ t ∈ Grammar.proper (scan source), t ∈ scan source ∧ t.isTrivia = false := by
    intro t ht
    obtain ⟨hmem, htrivia⟩ := List.mem_filter.mp ht
    exact ⟨hmem, by simpa using htrivia⟩
  constructor
  · refine hadvancing.ordered ((scan_contiguous source).starts_ordered.1.filter _) fun t ht => ?_
    obtain ⟨front, middle, back, hsource, hrange⟩ := scan_stretch (hproper t ht).1
    rw [← byteLength_toList, hsource, byteLength_append, byteLength_append,
      show t.start = byteLength front from congrArg Range.start hrange]
    omega
  · refine List.forall_mem_map.mpr fun c hc => ?_
    have hmem := hadvancing.found_mem c hc
    unfold Complaint.report
    cases hfound : c.found with
    | none =>
        refine ⟨.inr rfl, source.toList, [], [], by simp, ?_⟩
        rw [List.append_nil, byteLength_toList]
        rfl
    | some t =>
        obtain ⟨ht, htrivia⟩ := hproper t (hmem t hfound)
        exact ⟨.inl ⟨t, ht, htrivia, rfl⟩, scan_stretch ht⟩

end DomainModel
