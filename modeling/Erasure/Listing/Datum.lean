/-
Structured listings.

A listing of a declaration or of a tree is a `Datum`: records with labelled fields, lists, texts
and numbers. Tools choose how to write it down.
-/

namespace Erasure

/-- A piece of structured output. -/
inductive Datum where
  | absent
  | truth (b : Bool)
  | number (n : Nat)
  | string (s : String)
  | list (xs : List Datum)
  | record (fields : List (String × Datum))
deriving Inhabited

namespace Datum

/-- A list with each entry listed by `f`. -/
def each {α : Type} (f : α → Datum) (xs : List α) : Datum := list (xs.map f)

/-- What may be absent, listed by `f` if it is not. -/
def optional {α : Type} (f : α → Datum) : Option α → Datum
  | some a => f a
  | none => absent

/-- The labels of the properties that hold. -/
def labels (properties : List (Bool × String)) : Datum :=
  each (fun p => string p.2) (properties.filter (·.1))

end Datum

end Erasure
