/-
Mappings that remember their order.

A `Dict` is a list of entries, read from the front.  Writing a key that is there already
replaces its value and leaves it in its place; a new key goes to the end.  So the order
of the keys is the order in which they were first written.
-/

namespace DomainModel

abbrev Dict (α : Type) := List (String × α)

namespace Dict

variable {α : Type}

def keys (d : Dict α) : List String := d.map (·.1)

def values (d : Dict α) : List α := d.map (·.2)

def get? (d : Dict α) (key : String) : Option α := d.lookup key

def hasKey (d : Dict α) (key : String) : Bool := (Dict.get? d key).isSome

/-- Writes `value` at `key`. -/
def insert (key : String) (value : α) : Dict α → Dict α
  | [] => [(key, value)]
  | entry :: d => if entry.1 = key then (key, value) :: d else entry :: insert key value d

/-- Applies `f` to the value at `key`, if there is one. -/
def modify (key : String) (f : α → α) : Dict α → Dict α
  | [] => []
  | entry :: d => if entry.1 = key then (entry.1, f entry.2) :: d else entry :: modify key f d

/-- Makes sure that `key` is present, with `value` where it was not. -/
def reserve (key : String) (value : α) (d : Dict α) : Dict α :=
  if hasKey d key then d else insert key value d

/-- Writes every entry of `more`, in order. -/
def extend (d more : Dict α) : Dict α := more.foldl (fun acc e => insert e.1 e.2 acc) d

/-- The mapping that results from writing the entries in order. -/
def ofList (entries : List (String × α)) : Dict α := extend [] entries

end Dict

end DomainModel
