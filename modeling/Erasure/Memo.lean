/-
Memo tables: finite maps that remember results by key.

* `find?_insert` — after an insertion the key has the new value and every other key its old one.
-/

namespace Erasure

/-- Remembered results, the latest first, at most one for each key. -/
structure Memo (κ α : Type) where
  /-- The keys with their results. -/
  entries : List (κ × α)

namespace Memo

variable {κ α : Type}

/-- The table that remembers nothing. -/
def empty : Memo κ α := ⟨[]⟩

instance : EmptyCollection (Memo κ α) := ⟨empty⟩

/-- How many keys have a result. -/
def size (m : Memo κ α) : Nat := m.entries.length

variable [DecidableEq κ]

/-- The result remembered for `k`. -/
def find? (m : Memo κ α) (k : κ) : Option α := (m.entries.find? (·.1 = k)).map (·.2)

/-- Remembers `a` for `k` in place of whatever was remembered before. -/
def insert (m : Memo κ α) (k : κ) (a : α) : Memo κ α :=
  ⟨(k, a) :: m.entries.filter (·.1 ≠ k)⟩

theorem find?_insert (m : Memo κ α) (k j : κ) (a : α) :
    (m.insert k a).find? j = if j = k then some a else m.find? j := by
  by_cases h : j = k
  · simp [find?, insert, h]
  · have hk : ¬ k = j := fun e => h e.symm
    simp only [find?, insert, List.find?_cons, hk, decide_false, h, if_false, List.find?_filter]
    congr 1
    congr 1
    funext x
    by_cases hx : x.1 = j <;> simp_all

@[simp] theorem find?_empty (k : κ) : (empty : Memo κ α).find? k = none := rfl

end Memo

end Erasure
