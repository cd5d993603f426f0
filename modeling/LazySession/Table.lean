/-!
# Tables

A table gives names their values. It keeps the order in which the names first came in.
-/

namespace LazySession

abbrev Table (α : Type) := List (String × α)

namespace Table

variable {α : Type}

def get? (t : Table α) (name : String) : Option α :=
  match t with
  | [] => none
  | (n, a) :: t => if n = name then some a else get? t name

def has (t : Table α) (name : String) : Bool :=
  (t.get? name).isSome

/-- Gives a name a value. A name that is there already keeps its place. -/
def put (t : Table α) (name : String) (a : α) : Table α :=
  match t with
  | [] => [(name, a)]
  | (n, b) :: t => if n = name then (n, a) :: t else (n, b) :: put t name a

def names (t : Table α) : List String :=
  t.map (·.1)

/-- The names in ascending order of their code points. -/
def sortedNames (t : Table α) : List String :=
  t.names.mergeSort fun a b => a ≤ b

theorem get?_put (t : Table α) (name : String) (a : α) (x : String) :
    (t.put name a).get? x = if name = x then some a else t.get? x := by
  induction t with
  | nil => simp [put, get?]
  | cons p t ih => grind [put, get?]

theorem names_put (t : Table α) (name : String) (a : α) :
    (t.put name a).names = if name ∈ t.names then t.names else t.names ++ [name] := by
  induction t with
  | nil => simp [put, names]
  | cons p t ih => grind [put, names]

end Table

end LazySession
