/-
The derived names of an identifier agree with each other.

Two ways of cutting a name into words meet here.  Class and instance names cut at separators
alone, and of those an identifier can hold the underscore only; what they put together has none
left and is one word.  The names with separators cut at changes of case, too, but find none in
what has been put into small letters, so there the words are what stands between the marks.
Both are cases of `wordsFrom_joined`: pieces without separators and cuts come back as the words
of the text they are joined to.
-/
import DomainModel.Name.Naming
import DomainModel.Proofs.Text.Blank
import DomainModel.Proofs.Text.Casing
import DomainModel.Proofs.Text.Lines
import DomainModel.Proofs.Token.Cut

namespace DomainModel.Name

open Text

/-! ### Characters of identifiers -/

/-- The characters that a word of an identifier can have. -/
def Inner (c : Char) : Prop := Lexer.isWordPart c = true ∧ c ≠ '_'

instance : DecidablePred Inner := fun c =>
  inferInstanceAs (Decidable (Lexer.isWordPart c = true ∧ c ≠ '_'))

theorem ascii_of_isWordPart {cs : List Char} (h : ∀ c ∈ cs, Lexer.isWordPart c = true) :
    Ascii cs := by
  intro c hc
  have hprinted := Lexer.printed_of_isWordPart (h c hc)
  show c.val.toNat < 128
  omega

theorem trim_of_isWordPart {cs : List Char} (h : ∀ c ∈ cs, Lexer.isWordPart c = true) :
    trim cs = cs :=
  trim_of_not_isBlank fun c hc => not_isBlank (Lexer.printed_of_isWordPart (h c hc))

theorem ascii_of_inner {cs : List Char} (h : ∀ c ∈ cs, Inner c) : Ascii cs :=
  ascii_of_isWordPart fun c hc => (h c hc).1

theorem Inner.ascii {c : Char} (h : Inner c) : c.toNat < 128 :=
  ascii_of_inner (List.forall_mem_singleton.mpr h) c (List.mem_singleton_self c)

/-- Letters change into letters, and the rest stays. -/
theorem Inner.cased {c : Char} (h : Inner c) : Inner c.toUpper ∧ Inner c.toLower :=
  ascii_forall (P := fun c => Inner c → Inner c.toUpper ∧ Inner c.toLower)
    (by decide +kernel) h.ascii h

theorem inner_upperFirst {w : List Char} (h : ∀ c ∈ w, Inner c) : ∀ c ∈ upperFirst w, Inner c := by
  cases w with
  | nil => exact fun c hc => nomatch hc
  | cons c w =>
      obtain ⟨hc, hw⟩ := List.forall_mem_cons.mp h
      rw [upperFirst, upperChar_ascii (ascii_of_inner h c (List.mem_cons_self ..))]
      exact List.forall_mem_cons.mpr ⟨hc.cased.1, hw⟩

/-! ### Words -/

section

variable {isSeparator : List Char → Bool} {isBreak : List (List Char) → Bool}

/-- The words of a row hold no separator, and nothing that was not there. -/
theorem mem_wordsFrom {word w cs : List Char} {c : Char}
    (hw : w ∈ wordsFrom isSeparator isBreak word (cs.map ([·]))) (hc : c ∈ w) :
    c ∈ word ∨ c ∈ cs ∧ isSeparator [c] = false := by
  induction cs generalizing word with
  | nil =>
      rw [List.map_nil, wordsFrom, List.mem_singleton] at hw
      exact .inl (hw ▸ hc)
  | cons d cs ih =>
      rw [List.map_cons, wordsFrom] at hw
      by_cases hd : isSeparator [d] = true
      · rw [if_pos hd] at hw
        rcases List.mem_cons.mp hw with rfl | hw
        · exact .inl hc
        · rcases ih hw with hnone | ⟨hmem, hsep⟩
          · cases hnone
          · exact .inr ⟨List.mem_cons_of_mem _ hmem, hsep⟩
      · have hadded : c ∈ word ++ [d] → c ∈ word ∨ c ∈ d :: cs ∧ isSeparator [c] = false := by
          intro hmem
          rcases List.mem_append.mp hmem with hmem | hmem
          · exact .inl hmem
          · rw [List.mem_singleton.mp hmem]
            exact .inr ⟨List.mem_cons_self .., by simpa using hd⟩
        have hbehind : c ∈ cs ∧ isSeparator [c] = false →
            c ∈ word ∨ c ∈ d :: cs ∧ isSeparator [c] = false :=
          fun h => .inr ⟨List.mem_cons_of_mem _ h.1, h.2⟩
        rw [if_neg hd] at hw
        split at hw
        · rcases List.mem_cons.mp hw with rfl | hw
          · exact hadded hc
          · exact (ih hw).elim (fun hnone => nomatch hnone) hbehind
        · exact (ih hw).elim hadded hbehind

theorem wordsFrom_ne_nil (word : List Char) (gs : List (List Char)) :
    wordsFrom isSeparator isBreak word gs ≠ [] := by
  induction gs generalizing word with
  | nil => exact List.cons_ne_nil _ _
  | cons g gs ih =>
      rw [wordsFrom]
      split
      · exact List.cons_ne_nil _ _
      · split
        · exact List.cons_ne_nil _ _
        · exact ih _

/-- Where nothing is cut the word goes on. -/
theorem wordsFrom_piece {word piece : List Char} {rest : List (List Char)}
    (hsep : ∀ c ∈ piece, isSeparator [c] = false)
    (hbreak : ∀ gs, gs <:+ piece.map ([·]) ++ rest → isBreak gs = false) :
    wordsFrom isSeparator isBreak word (piece.map ([·]) ++ rest) =
      wordsFrom isSeparator isBreak (word ++ piece) rest := by
  induction piece generalizing word with
  | nil => rw [List.append_nil, List.map_nil, List.nil_append]
  | cons c piece ih =>
      obtain ⟨hc, hpiece⟩ := List.forall_mem_cons.mp hsep
      have hhere := hbreak _ List.suffix_rfl
      rw [List.map_cons, List.cons_append] at hhere hbreak ⊢
      rw [wordsFrom, if_neg (by simp [hc]), if_neg (by simp [hhere]),
        ih hpiece fun gs hgs => hbreak gs (hgs.trans (List.suffix_cons ..)), List.append_assoc,
        List.singleton_append]

/-- **Pieces in which nothing is cut are the words of the text that they are joined to.** -/
theorem wordsFrom_joined (mark : Char) {pieces : List (List Char)} (hne : pieces ≠ [])
    (hmark : isSeparator [mark] = true)
    (hsep : ∀ piece ∈ pieces, ∀ c ∈ piece, isSeparator [c] = false)
    (hbreak : ∀ gs, gs <:+ (joinWith [mark] pieces).map ([·]) → isBreak gs = false) :
    wordsFrom isSeparator isBreak [] ((joinWith [mark] pieces).map ([·])) = pieces := by
  induction pieces with
  | nil => exact absurd rfl hne
  | cons piece pieces ih =>
      obtain ⟨hpiece, hpieces⟩ := List.forall_mem_cons.mp hsep
      by_cases hnil : pieces = []
      · subst hnil
        have hwords : wordsFrom isSeparator isBreak [] (piece.map ([·]) ++ []) = [piece] :=
          wordsFrom_piece hpiece (by rw [List.append_nil]; exact hbreak)
        rw [List.append_nil] at hwords
        exact hwords
      · have hrow : (joinWith [mark] (piece :: pieces)).map ([·]) =
            piece.map ([·]) ++ [mark] :: (joinWith [mark] pieces).map ([·]) := by
          rw [joinWith_cons _ _ hnil]
          simp
        rw [hrow] at hbreak ⊢
        rw [wordsFrom_piece hpiece hbreak, List.nil_append, wordsFrom, if_pos hmark, ih hnil hpieces]
        exact fun gs hgs => hbreak gs
          (hgs.trans ((List.suffix_cons ..).trans (List.suffix_append ..)))

end

/-- No cut is seen in front of anything but a capital. -/
theorem not_caseBreak {gs : List (List Char)} (h : ∀ g ∈ gs, isUpper g = false) :
    caseBreak gs = false := by
  unfold caseBreak
  split
  · rename_i a b rest
    simp [h b (by simp)]
  · rfl

/-! ### Words of identifiers -/

section

variable {cs : List Char} (h : ∀ c ∈ cs, Lexer.isWordPart c = true)

include h

theorem inner_of_words {isSeparator : List Char → Bool} {isBreak : List (List Char) → Bool}
    (hmark : isSeparator ['_'] = true) :
    ∀ w ∈ wordsFrom isSeparator isBreak [] (clusters cs), ∀ c ∈ w, Inner c := by
  intro w hw c hc
  rw [clusters_ascii (ascii_of_isWordPart h)] at hw
  rcases mem_wordsFrom hw hc with hnone | ⟨hmem, hsep⟩
  · cases hnone
  · refine ⟨h c hmem, ?_⟩
    rintro rfl
    exact Bool.false_ne_true (hsep.symm.trans hmark)

/-! ### Class and instance names -/

/-- An identifier without a word has empty names.  Otherwise class and instance name differ in
the case of their first letter alone, and have no underscore. -/
theorem forms_cases : (classForm cs = [] ∧ instanceForm cs = []) ∨
    ∃ c tail, (∀ d ∈ c :: tail, Inner d) ∧ classForm cs = c.toUpper :: tail ∧
      instanceForm cs = c.toLower :: tail := by
  have hwords : ∀ w ∈ separatedWords cs, ∀ c ∈ w, Inner c := inner_of_words h rfl
  unfold classForm instanceForm
  rw [trim_of_isWordPart h]
  cases hfilter : (separatedWords cs).filter (!·.isEmpty) with
  | nil => exact .inl ⟨rfl, rfl⟩
  | cons w ws =>
      have hkept : ∀ v ∈ w :: ws, v ≠ [] ∧ ∀ c ∈ v, Inner c := by
        intro v hv
        rw [← hfilter] at hv
        obtain ⟨hmem, hne⟩ := List.mem_filter.mp hv
        exact ⟨by simpa using hne, hwords v hmem⟩
      obtain ⟨⟨hne, hw⟩, hws⟩ := List.forall_mem_cons.mp hkept
      obtain ⟨c, w, rfl⟩ := List.exists_cons_of_ne_nil hne
      obtain ⟨hc, hw⟩ := List.forall_mem_cons.mp hw
      have hascii : c.toNat < 128 :=
        ascii_of_inner (List.forall_mem_singleton.mpr hc) c (List.mem_singleton_self c)
      refine .inr ⟨c, w ++ ws.flatMap upperFirst, ?_, ?_, ?_⟩
      · refine List.forall_mem_cons.mpr ⟨hc, List.forall_mem_append.mpr ⟨hw, fun d hd => ?_⟩⟩
        obtain ⟨v, hv, hd⟩ := List.mem_flatMap.mp hd
        exact inner_upperFirst (hws v hv).2 d hd
      · rw [List.flatMap_cons, upperFirst, upperChar_ascii hascii]
        rfl
      · show lowerFirst (c :: w) ++ ws.flatMap upperFirst = _
        rw [lowerFirst, lowerChar_ascii hascii]
        rfl

end

/-- What holds no separator is one word. -/
theorem separatedWords_inner {cs : List Char} (h : ∀ c ∈ cs, Inner c) : separatedWords cs = [cs] := by
  rw [separatedWords, clusters_ascii (ascii_of_inner h)]
  refine wordsFrom_joined '_' (List.cons_ne_nil cs []) rfl
    (List.forall_mem_singleton.mpr fun c hc => ?_) (fun _ _ => rfl)
  obtain ⟨hpart, hmark⟩ := h c hc
  have hother : (c ≠ '-' ∧ c ≠ ' ') ∧ c ≠ '.' := by
    refine ⟨⟨?_, ?_⟩, ?_⟩ <;> rintro rfl <;> exact absurd hpart (by decide)
  simpa [hmark] using hother

theorem forms_inner {c : Char} {cs : List Char} (h : ∀ d ∈ c :: cs, Inner d) :
    classForm (c :: cs) = c.toUpper :: cs ∧ instanceForm (c :: cs) = c.toLower :: cs := by
  have hascii := ascii_of_inner h c (List.mem_cons_self ..)
  unfold classForm instanceForm
  rw [trim_of_isWordPart fun d hd => (h d hd).1, separatedWords_inner h]
  constructor
  · show upperFirst (c :: cs) ++ [] = _
    rw [upperFirst, upperChar_ascii hascii, List.append_nil]
    rfl
  · show lowerFirst (c :: cs) ++ [] = _
    rw [lowerFirst, lowerChar_ascii hascii, List.append_nil]
    rfl

/-- **Names of a class name are names of what it was made from.** -/
theorem forms_classForm {cs : List Char} (h : ∀ c ∈ cs, Lexer.isWordPart c = true) :
    classForm (classForm cs) = classForm cs ∧ instanceForm (classForm cs) = instanceForm cs := by
  rcases forms_cases h with ⟨hclass, hinstance⟩ | ⟨c, tail, hinner, hclass, hinstance⟩
  · rw [hclass, hinstance]
    exact ⟨rfl, rfl⟩
  · obtain ⟨hc, htail⟩ := List.forall_mem_cons.mp hinner
    obtain ⟨hagain, hagain'⟩ := forms_inner (List.forall_mem_cons.mpr ⟨hc.cased.1, htail⟩)
    obtain ⟨hupper, hlower, -⟩ := cased_again hc.ascii
    rw [hclass, hinstance, hagain, hagain', hupper, hlower]
    exact ⟨rfl, rfl⟩

/-! ### Names with separators -/

section

variable {cs : List Char} (h : ∀ c ∈ cs, Lexer.isWordPart c = true)

include h

theorem separatedForm_eq (mark : Char) :
    separatedForm mark cs = joinWith [mark] ((caseWords cs).map lower) := by
  rw [separatedForm, trim_of_isWordPart h]

/-- The words of such a name are small and without separators. -/
theorem inner_of_lowered :
    ∀ w ∈ (caseWords cs).map lower, (∀ c ∈ w, Inner c ∧ c.toLower = c) ∧ lower w = w := by
  refine List.forall_mem_map.mpr fun w hw => ?_
  have hinner : ∀ c ∈ w, Inner c := inner_of_words h rfl w hw
  have hlower : ∀ c ∈ lower w, Inner c ∧ c.toLower = c := by
    rw [lower_ascii (ascii_of_inner hinner)]
    exact List.forall_mem_map.mpr fun c hc =>
      ⟨(hinner c hc).cased.2, (cased_again (hinner c hc).ascii).2.2⟩
  refine ⟨hlower, ?_⟩
  rw [lower_ascii (ascii_of_inner fun c hc => (hlower c hc).1)]
  exact (List.map_congr_left fun c hc => (hlower c hc).2).trans (List.map_id' _)

/-- **One mark for the other** is all that the names with separators differ in. -/
theorem separatedForm_replaced :
    separatedForm '-' cs = (separatedForm '_' cs).map fun c => if c = '_' then '-' else c := by
  rw [separatedForm_eq h, separatedForm_eq h, map_joinWith '-']
  exact fun w hw hmark => ((inner_of_lowered h w hw).1 '_' hmark).1.2 rfl

/-- **Small words with underscores between them are these words again.** -/
theorem separatedForm_again :
    separatedForm '_' (separatedForm '_' cs) = separatedForm '_' cs := by
  have hwords := inner_of_lowered h
  rw [separatedForm_eq h]
  generalize hpieces : (caseWords cs).map lower = pieces at hwords
  have hchars : ∀ c ∈ joinWith ['_'] pieces, Lexer.isWordPart c = true ∧ c.toLower = c := by
    intro c hc
    rcases mem_joinWith hc with hc | ⟨w, hw, hc⟩
    · rw [List.mem_singleton.mp hc]
      exact ⟨by decide, by decide⟩
    · obtain ⟨hinner, hsmall⟩ := (hwords w hw).1 c hc
      exact ⟨hinner.1, hsmall⟩
  have hpart : ∀ c ∈ joinWith ['_'] pieces, Lexer.isWordPart c = true :=
    fun c hc => (hchars c hc).1
  have hagain : caseWords (joinWith ['_'] pieces) = pieces := by
    rw [caseWords, clusters_ascii (ascii_of_isWordPart hpart)]
    refine wordsFrom_joined '_' ?_ rfl (fun w hw c hc => ?_) (fun gs hgs => not_caseBreak ?_)
    · rw [← hpieces]
      exact fun hnil => wordsFrom_ne_nil _ _ (List.map_eq_nil_iff.mp hnil)
    · obtain ⟨hpart, hmark⟩ := ((hwords w hw).1 c hc).1
      have hhyphen : c ≠ '-' := by
        rintro rfl
        exact absurd hpart (by decide)
      simp [hmark, hhyphen]
    · intro g hg
      obtain ⟨c, hc, rfl⟩ := List.mem_map.mp (hgs.subset hg)
      refine not_isUpper_of_lower ?_
      rw [lower_ascii (ascii_of_isWordPart (List.forall_mem_singleton.mpr (hpart c hc)))]
      exact congrArg ([·]) (hchars c hc).2
  rw [separatedForm_eq hpart, hagain]
  exact congrArg _ ((List.map_congr_left fun w hw => (hwords w hw).2).trans (List.map_id' _))

end

end DomainModel.Name

namespace DomainModel

/-- **The names derived from an identifier are coherent.**  A class name is its own class name
and has the instance name of the identifier, which is so the one that is derived; the name with
hyphens is the one with underscores but for these; and the latter derives itself. -/
theorem Naming.english_coherent {x : String} (h : Lexer.isWord x.toList = true) :
    english.className (english.className x) = english.className x ∧
      english.instanceName (english.className x) = english.instanceName x ∧
      (english.formsOf x).instanceName = english.instanceName x ∧
      (english.kebabCase x).toList =
        (english.snakeCase x).toList.map (fun c => if c = '_' then '-' else c) ∧
      english.snakeCase (english.snakeCase x) = english.snakeCase x := by
  have hpart : ∀ c ∈ x.toList, Lexer.isWordPart c = true := fun c => Lexer.isWordPart_of_mem h
  obtain ⟨hclass, hinstance⟩ := Name.forms_classForm hpart
  have hagain {f g k : List Char → List Char} (heq : g (f x.toList) = k x.toList) :
      onText g (onText f x) = onText k x := by
    unfold onText
    rw [String.toList_ofList, heq]
  refine ⟨hagain hclass, hagain hinstance, hagain hinstance, ?_,
    hagain (Name.separatedForm_again hpart)⟩
  show (onText (Name.separatedForm '-') x).toList = (onText (Name.separatedForm '_') x).toList.map _
  unfold onText
  rw [String.toList_ofList, String.toList_ofList]
  exact Name.separatedForm_replaced hpart

theorem Naming.english_coherent_mixed :
    let x := "_order__lineV2HTTPClient$9"
    Lexer.isWord x.toList = true ∧ english.className x = "OrderLineV2HTTPClient$9" ∧
      english.snakeCase x = "_order__line_v2_http_client$9" ∧
      english.className "OrderLineV2HTTPClient$9" = "OrderLineV2HTTPClient$9" ∧
      (english.formsOf x).instanceName = english.instanceName x ∧
      english.snakeCase "_order__line_v2_http_client$9" = "_order__line_v2_http_client$9" := by
  intro x
  have hword : Lexer.isWord x.toList = true := by decide
  have hclass : english.className x = "OrderLineV2HTTPClient$9" := by decide +kernel
  have hsnake : english.snakeCase x = "_order__line_v2_http_client$9" := by decide +kernel
  obtain ⟨hclassAgain, -, hderived, -, hsnakeAgain⟩ := english_coherent hword
  rw [hclass] at hclassAgain
  rw [hsnake] at hsnakeAgain
  exact ⟨hword, hclass, hsnake, hclassAgain, hderived, hsnakeAgain⟩

end DomainModel
