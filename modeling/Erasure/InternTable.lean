/-
Append-only tables of entries with pairwise distinct keys.

An entry is known by its position, handed out in order of first appearance. The main statements:

* `get?_intern` — the position answered for an entry holds an entry with that key.
* `get?_intern_of_get?` — a position once handed out keeps its entry.
* `find?_eq_some_iff` — searching by key finds exactly the position that holds the key.
-/

namespace Erasure

/-- Entries in order of first appearance, no two with one key. -/
structure InternTable {α κ : Type} (key : α → κ) where
  /-- The entries; an entry's number is its position. -/
  entries : Array α
  /-- No key occurs twice. -/
  distinct : (entries.toList.map key).Nodup

namespace InternTable

variable {α κ : Type} {key : α → κ}

/-- The table without entries. -/
def empty : InternTable key := ⟨#[], by simp⟩

/-- How many entries the table holds; also the next position to be handed out. -/
def size (t : InternTable key) : Nat := t.entries.size

/-- The entry at a position. -/
def get? (t : InternTable key) (i : Nat) : Option α := t.entries[i]?

/-- A key stands at one position only. -/
theorem key_inj {t : InternTable key} {i j : Nat} {k : κ} (hi : (t.get? i).map key = some k)
    (hj : (t.get? j).map key = some k) : i = j := by
  obtain ⟨a, ha, hka⟩ := Option.map_eq_some_iff.mp hi
  obtain ⟨b, hb, hkb⟩ := Option.map_eq_some_iff.mp hj
  have hil : i < (t.entries.toList.map key).length := by
    simpa using (Array.getElem?_eq_some_iff.mp ha).1
  refine (List.getElem?_inj hil t.distinct).mp ?_
  rw [get?] at ha hb
  simp [List.getElem?_map, Array.getElem?_toList, ha, hb, hka, hkb]

section Search

variable [DecidableEq κ]

/-- Searches the first `n` positions for key `k`, the latest first. -/
def findBelow (t : InternTable key) (k : κ) : Nat → Option Nat
  | 0 => none
  | n + 1 => if (t.get? n).map key = some k then some n else t.findBelow k n

/-- The position of the entry with key `k`. -/
def find? (t : InternTable key) (k : κ) : Option Nat := t.findBelow k t.size

theorem findBelow_eq_none {t : InternTable key} {k : κ} {n : Nat} (h : t.findBelow k n = none) :
    ∀ i < n, (t.get? i).map key ≠ some k := by
  induction n with
  | zero => intro i hi; omega
  | succ n ih =>
    intro i hi
    unfold findBelow at h
    split at h
    · simp at h
    · rcases Nat.lt_succ_iff_lt_or_eq.mp hi with hlt | rfl
      · exact ih h i hlt
      · assumption

theorem findBelow_eq_some {t : InternTable key} {k : κ} {n i : Nat}
    (h : t.findBelow k n = some i) : i < n ∧ (t.get? i).map key = some k := by
  induction n with
  | zero => simp [findBelow] at h
  | succ n ih =>
    unfold findBelow at h
    split at h
    · obtain rfl := Option.some.inj h
      exact ⟨Nat.lt_succ_self _, by assumption⟩
    · exact ⟨Nat.lt_succ_of_lt (ih h).1, (ih h).2⟩

theorem key_notMem_of_find?_eq_none {t : InternTable key} {k : κ} (h : t.find? k = none) :
    k ∉ t.entries.toList.map key := by
  intro hmem
  obtain ⟨a, ha, hk⟩ := List.mem_map.mp hmem
  obtain ⟨i, hi, hget⟩ := List.getElem_of_mem ha
  refine findBelow_eq_none h i (by simpa [size] using hi) ?_
  rw [get?, ← Array.getElem?_toList, List.getElem?_eq_getElem hi, hget]
  simp [hk]

/-- The position of the entry with the key of `a`, which is `a` itself when the key is new. -/
def intern (t : InternTable key) (a : α) : Nat × InternTable key :=
  match h : t.find? (key a) with
  | some i => (i, t)
  | none =>
    (t.size,
      { entries := t.entries.push a
        distinct := by
          have hnew := key_notMem_of_find?_eq_none h
          simp only [Array.toList_push, List.map_append, List.map_cons, List.map_nil,
            List.nodup_append]
          refine ⟨t.distinct, by simp, ?_⟩
          rintro x hx y hy rfl
          rw [List.mem_singleton] at hy
          exact hnew (hy ▸ hx) })

/-- The table of the entries of a list, each at its first appearance. -/
def ofList (as : List α) : InternTable key := as.foldl (fun t a => (t.intern a).2) empty

/-! ### Searching and interning -/

theorem find?_eq_some_iff {t : InternTable key} {k : κ} {i : Nat} :
    t.find? k = some i ↔ (t.get? i).map key = some k := by
  constructor
  · exact fun h => (findBelow_eq_some h).2
  · intro h
    obtain ⟨a, ha, -⟩ := Option.map_eq_some_iff.mp h
    have hi : i < t.size := (Array.getElem?_eq_some_iff.mp ha).1
    cases hf : t.find? k with
    | none => exact absurd h (findBelow_eq_none hf i hi)
    | some j => rw [key_inj h (findBelow_eq_some hf).2]

theorem intern_of_find?_eq_some {t : InternTable key} {a : α} {i : Nat}
    (h : t.find? (key a) = some i) : t.intern a = (i, t) := by
  unfold intern
  split <;> simp_all

theorem intern_of_find?_eq_none {t : InternTable key} {a : α} (h : t.find? (key a) = none) :
    (t.intern a).1 = t.size ∧ (t.intern a).2.entries = t.entries.push a := by
  unfold intern
  split <;> simp_all

/-- A position once handed out keeps its entry. -/
theorem get?_intern_of_get? {t : InternTable key} {a b : α} {i : Nat} (h : t.get? i = some b) :
    (t.intern a).2.get? i = some b := by
  cases hf : t.find? (key a) with
  | some j => rw [intern_of_find?_eq_some hf]; exact h
  | none =>
    have hi : i < t.entries.size := (Array.getElem?_eq_some_iff.mp h).1
    rw [get?, (intern_of_find?_eq_none hf).2, Array.getElem?_push, if_neg (by omega)]
    exact h

/-- The position answered for `a` holds an entry with the key of `a`. -/
theorem get?_intern (t : InternTable key) (a : α) :
    ((t.intern a).2.get? (t.intern a).1).map key = some (key a) := by
  cases hf : t.find? (key a) with
  | some j => rw [intern_of_find?_eq_some hf]; exact find?_eq_some_iff.mp hf
  | none =>
    rw [get?, (intern_of_find?_eq_none hf).2, (intern_of_find?_eq_none hf).1]
    simp [size]

end Search

end InternTable

end Erasure
