/-
Lines of a text.

A text is cut into pieces at a mark, and the cut of two texts with a mark between them is the
cut of both; put together, pieces keep their characters and get those of the glue between them.
Cut at its line feeds it falls into lines, so lines that are each ended by one come
back (`lines_ended`).  Those between two line feeds are the whole lines of a text, and it has
some just if it has two line feeds.
-/
import DomainModel.Text.DocComment
import Mathlib.Data.List.Basic

namespace DomainModel.Text

/-! ### Pieces -/

theorem splitOn_ne_nil (mark : Char) (cs : List Char) : splitOn mark cs ≠ [] := by
  cases cs with
  | nil => exact List.cons_ne_nil _ _
  | cons c cs =>
      rw [splitOn]
      split
      · exact List.cons_ne_nil _ _
      · split <;> exact List.cons_ne_nil _ _

theorem splitOn_of_not_mem {mark : Char} {cs : List Char} (h : mark ∉ cs) :
    splitOn mark cs = [cs] := by
  induction cs with
  | nil => rfl
  | cons c cs ih =>
      have hc : c ≠ mark := fun heq => h (heq ▸ List.mem_cons_self ..)
      rw [splitOn, if_neg hc, ih fun hmem => h (List.mem_cons_of_mem _ hmem)]

/-- A mark ends the last piece of what is in front of it. -/
theorem splitOn_append (mark : Char) (front back : List Char) :
    splitOn mark (front ++ mark :: back) = splitOn mark front ++ splitOn mark back := by
  induction front with
  | nil =>
      show splitOn mark (mark :: back) = [[]] ++ splitOn mark back
      rw [splitOn.eq_2, if_pos rfl]
      rfl
  | cons c front ih =>
      rw [List.cons_append, splitOn, splitOn, ih]
      split
      · rfl
      · cases hpieces : splitOn mark front with
        | nil => exact absurd hpieces (splitOn_ne_nil mark front)
        | cons piece pieces => rfl

/-! ### Pieces with glue between them -/

theorem joinWith_cons (glue piece : List Char) {pieces : List (List Char)} (h : pieces ≠ []) :
    joinWith glue (piece :: pieces) = piece ++ glue ++ joinWith glue pieces := by
  cases pieces with
  | nil => exact absurd rfl h
  | cons => rfl

theorem joinWith_concat (glue piece : List Char) {pieces : List (List Char)} (h : pieces ≠ []) :
    joinWith glue (pieces ++ [piece]) = joinWith glue pieces ++ (glue ++ piece) := by
  induction pieces with
  | nil => exact absurd rfl h
  | cons first pieces ih =>
      rw [List.cons_append, joinWith_cons _ _ (by simp)]
      by_cases hpieces : pieces = []
      · subst hpieces
        simp [joinWith]
      · rw [ih hpieces, joinWith_cons _ _ hpieces]
        simp only [List.append_assoc]

theorem head?_joinWith {glue piece : List Char} {pieces : List (List Char)} (h : piece ≠ []) :
    (joinWith glue (piece :: pieces)).head? = piece.head? := by
  obtain ⟨c, cs, rfl⟩ := List.exists_cons_of_ne_nil h
  cases pieces <;> rfl

theorem getLast?_joinWith {glue piece : List Char} {pieces : List (List Char)} (h : piece ≠ []) :
    (joinWith glue (pieces ++ [piece])).getLast? = piece.getLast? := by
  by_cases hpieces : pieces = []
  · subst hpieces
    rfl
  · rw [joinWith_concat _ _ hpieces, List.getLast?_append_of_ne_nil _ (by simp [h]),
      List.getLast?_append_of_ne_nil _ h]

/-- Joined pieces have their own characters and those of the glue. -/
theorem mem_joinWith {glue : List Char} {pieces : List (List Char)} {c : Char}
    (h : c ∈ joinWith glue pieces) : c ∈ glue ∨ ∃ piece ∈ pieces, c ∈ piece := by
  induction pieces with
  | nil => cases h
  | cons piece pieces ih =>
      by_cases hpieces : pieces = []
      · subst hpieces
        exact .inr ⟨piece, List.mem_cons_self .., h⟩
      · rw [joinWith_cons _ _ hpieces, List.append_assoc] at h
        rcases List.mem_append.mp h with hc | hc
        · exact .inr ⟨piece, List.mem_cons_self .., hc⟩
        · rcases (List.mem_append.mp hc).imp_right ih with hc | hc | ⟨other, hother, hc⟩
          · exact .inl hc
          · exact .inl hc
          · exact .inr ⟨other, List.mem_cons_of_mem _ hother, hc⟩

/-- To replace the mark between pieces is to join them with the new one. -/
theorem map_joinWith {mark : Char} (mark' : Char) {pieces : List (List Char)}
    (h : ∀ piece ∈ pieces, mark ∉ piece) :
    (joinWith [mark] pieces).map (fun c => if c = mark then mark' else c) =
      joinWith [mark'] pieces := by
  have hkept : ∀ {piece : List Char}, mark ∉ piece →
      piece.map (fun c => if c = mark then mark' else c) = piece := by
    intro piece hpiece
    refine (List.map_congr_left fun c hc => if_neg ?_).trans (List.map_id' _)
    exact fun heq => hpiece (heq ▸ hc)
  induction pieces with
  | nil => rfl
  | cons piece pieces ih =>
      obtain ⟨hpiece, hpieces⟩ := List.forall_mem_cons.mp h
      by_cases hnil : pieces = []
      · subst hnil
        exact hkept hpiece
      · rw [joinWith_cons _ _ hnil, joinWith_cons _ _ hnil, List.map_append, List.map_append,
          hkept hpiece, ih hpieces]
        simp

/-- There are at most as many pieces as characters, but for one. -/
theorem length_pieces (mark : Char) (pieces : List (List Char)) :
    pieces.length ≤ (joinWith [mark] pieces).length + 1 := by
  induction pieces with
  | nil => exact Nat.zero_le _
  | cons piece pieces ih =>
      by_cases hnil : pieces = []
      · subst hnil
        exact Nat.le_add_left _ _
      · rw [joinWith_cons _ _ hnil, List.length_append, List.length_append, List.length_cons,
          List.length_singleton]
        omega

theorem length_piece {glue piece : List Char} {pieces : List (List Char)} (h : piece ∈ pieces) :
    piece.length ≤ (joinWith glue pieces).length := by
  induction pieces with
  | nil => cases h
  | cons first pieces ih =>
      by_cases hnil : pieces = []
      · subst hnil
        rw [List.mem_singleton.mp h]
        exact Nat.le_refl _
      · rw [joinWith_cons _ _ hnil, List.length_append, List.length_append]
        rcases List.mem_cons.mp h with rfl | h
        · omega
        · have := ih h
          omega

/-! ### Ended lines -/

theorem splitOn_ended {mark : Char} {ls : List (List Char)} (h : ∀ l ∈ ls, mark ∉ l)
    (rest : List Char) :
    splitOn mark (ls.flatMap (· ++ [mark]) ++ rest) = ls ++ splitOn mark rest := by
  induction ls with
  | nil => rfl
  | cons l ls ih =>
      obtain ⟨hl, hls⟩ := List.forall_mem_cons.mp h
      rw [List.flatMap_cons, List.append_assoc, List.append_assoc, List.singleton_append,
        splitOn_append, splitOn_of_not_mem hl, ih hls]
      rfl

/-- Lines that are each ended by a line feed come back, with what is behind the last one. -/
theorem lines_ended {ls : List (List Char)} (h : ∀ l ∈ ls, '\n' ∉ l) {rest : List Char}
    (hrest : '\n' ∉ rest) (hne : rest ≠ []) :
    lines (ls.flatMap (· ++ ['\n']) ++ rest) = ls.map (dropTail ['\r']) ++ [rest] := by
  unfold lines
  rw [splitOn_ended h, splitOn_of_not_mem hrest]
  simp only [List.dropLast_concat, List.getLast?_concat]

/-! ### Whole lines -/

/-- A whole line of a text lies between two line feeds. -/
def WholeLine (cs line : List Char) : Prop :=
  ∃ front back, cs = front ++ '\n' :: (line ++ '\n' :: back) ∧ '\n' ∉ line

/-- There is a whole line just if there are two line feeds. -/
theorem exists_wholeLine_iff {cs : List Char} :
    (∃ line, WholeLine cs line) ↔ 2 ≤ cs.count '\n' := by
  constructor
  · rintro ⟨line, front, back, rfl, -⟩
    simp only [List.count_append, List.count_cons_self]
    omega
  · intro h
    obtain ⟨front, rest, rfl, hfront⟩ :=
      List.eq_append_cons_of_mem (List.count_pos_iff.mp (show 0 < cs.count '\n' by omega))
    rw [List.count_append, List.count_eq_zero.mpr hfront, List.count_cons_self] at h
    obtain ⟨line, back, rfl, hline⟩ :=
      List.eq_append_cons_of_mem (List.count_pos_iff.mp (show 0 < rest.count '\n' by omega))
    exact ⟨line, front, back, rfl, hline⟩

/-- A whole line is a piece of the text, and neither the first nor the last one. -/
theorem WholeLine.mem_splitOn {cs line : List Char} (h : WholeLine cs line) :
    line ∈ ((splitOn '\n' cs).drop 1).dropLast := by
  obtain ⟨front, back, rfl, hline⟩ := h
  rw [splitOn_append, splitOn_append, splitOn_of_not_mem hline]
  cases hfront : splitOn '\n' front with
  | nil => exact absurd hfront (splitOn_ne_nil _ _)
  | cons piece pieces =>
      rw [List.cons_append, List.drop_one, List.tail_cons, ← List.append_assoc,
        List.dropLast_append_of_ne_nil (splitOn_ne_nil _ _)]
      simp

end DomainModel.Text
