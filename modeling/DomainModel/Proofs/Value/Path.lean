/-
Paths come apart into the steps they were put together from.

A path is text with dots between its steps, and nothing keeps a step from having a dot
itself; then it comes apart in the wrong place.  Steps without dots come back, even empty
ones, and so a path that a query returns leads to the node it was returned for.
-/
import DomainModel.Model.Document
import DomainModel.Proofs.Text.Lines
import DomainModel.Proofs.Value.Dict

namespace DomainModel

/-- A text that can be a step of a path. -/
def Dotless (s : String) : Prop := '.' ∉ s.toList

instance (s : String) : Decidable (Dotless s) := inferInstanceAs (Decidable (_ ∉ _))

namespace Path

theorem join_ne_empty {base : String} (h : base ≠ "") (key : String) : join base key ≠ "" := by
  rw [join, if_neg (by simpa using h)]
  exact fun heq => h (by simpa using congrArg String.toList heq)

/-- What stands beyond a path follows the steps of the path. -/
theorem steps_append {base : String} (h : base ≠ "") (rest : String) :
    steps (base ++ "." ++ rest) =
      steps base ++ (Text.splitOn '.' rest.toList).map String.ofList := by
  rw [steps, if_neg (by simp), steps, if_neg (by simpa using h),
    String.toList_append, String.toList_append, List.append_assoc]
  show (Text.splitOn '.' (base.toList ++ '.' :: rest.toList)).map String.ofList = _
  rw [Text.splitOn_append, List.map_append]

/-- What stands beyond a path and has no dots is one more step. -/
theorem steps_below {base key : String} (h : base ≠ "") (hkey : Dotless key) :
    steps (base ++ "." ++ key) = steps base ++ [key] := by
  rw [steps_append h, Text.splitOn_of_not_mem hkey, List.map_singleton, String.ofList_toList]

/-- The same of a step that is written with its dot. -/
theorem steps_dot (tail key : String) {base : String} (h : base ≠ "") (htail : tail = "." ++ key)
    (hkey : Dotless key) : steps (base ++ tail) = steps base ++ [key] := by
  rw [htail, ← String.append_assoc, steps_below h hkey]

/-- **A step without dots comes back from a path.** -/
theorem steps_join {base key : String} (h : base ≠ "") (hkey : Dotless key) :
    steps (join base key) = steps base ++ [key] := by
  rw [join, if_neg (by simpa using h), steps_below h hkey]

/-- One more step of a path. -/
theorem intercalate_concat {steps : List String} (h : steps ≠ []) (step : String) :
    ".".intercalate (steps ++ [step]) = ".".intercalate steps ++ ("." ++ step) := by
  rw [String.intercalate_append_of_ne_nil h (List.cons_ne_nil _ _),
    String.intercalate_singleton, String.append_assoc]

/-- **Steps without dots come back from the path that is made of them.** -/
theorem steps_intercalate {first : String} {more : List String} (hne : first ≠ "")
    (hfirst : Dotless first) (hmore : ∀ step ∈ more, Dotless step) :
    ".".intercalate (first :: more) ≠ "" ∧
      steps (".".intercalate (first :: more)) = first :: more := by
  induction more using List.reverseRecOn with
  | nil =>
      rw [String.intercalate_singleton, steps, if_neg (by simpa using hne),
        Text.splitOn_of_not_mem hfirst]
      exact ⟨hne, by simp⟩
  | append_singleton more step ih =>
      obtain ⟨hmore, hstep⟩ := List.forall_mem_append.mp hmore
      obtain ⟨hpath, hsteps⟩ := ih hmore
      rw [← List.cons_append, intercalate_concat (List.cons_ne_nil _ _), ← String.append_assoc,
        steps_below hpath (hstep step (List.mem_singleton_self _)), hsteps]
      exact ⟨by simp, rfl⟩

end Path

/-- A step into a mapping replaces the member that it leads to. -/
theorem Value.replace?_map {m : Members} {key : String} {rest : List String} {w old new : Value}
    (hold : Dict.get? m key = some old) (hnew : old.replace? w rest = some new) :
    (Value.map m).replace? w (key :: rest) = some (.map (Dict.modify key (fun _ => new) m)) := by
  rw [replace?, show (Value.map m).step? key = some old from hold, Option.bind_eq_bind,
    Option.bind_some, hnew]
  rfl

end DomainModel
