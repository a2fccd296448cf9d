/-
How many marks are still to be met along a relation without cycles.

Some elements carry a mark below `n`, and no two carry the same one. Along a step the marks met
from there on can only get fewer (`card_reached_le`), and they do get fewer along a step from a
marked element that is on no cycle (`card_reached_lt`).
-/
import Mathlib.Data.Finset.Card
import Mathlib.Data.Finset.Range
import Mathlib.Logic.Relation

namespace Erasure

variable {α : Type} {R : α → α → Prop} {marks : α → Nat → Prop} {n : Nat} {a b : α}

open Classical in
/-- The marks below `n` that are met from an element on. -/
noncomputable def reached (R : α → α → Prop) (marks : α → Nat → Prop) (n : Nat) (a : α) :
    Finset Nat :=
  (Finset.range n).filter fun i => ∃ x, Relation.ReflTransGen R a x ∧ marks x i

theorem mem_reached {i : Nat} :
    i ∈ reached R marks n a ↔ i < n ∧ ∃ x, Relation.ReflTransGen R a x ∧ marks x i := by
  simp only [reached, Finset.mem_filter, Finset.mem_range]

theorem card_reached_bound (R : α → α → Prop) (marks : α → Nat → Prop) (n : Nat) (a : α) :
    (reached R marks n a).card ≤ n := by
  classical
  exact (Finset.card_filter_le _ _).trans (Finset.card_range n).le

theorem reached_subset (h : R a b) : reached R marks n b ⊆ reached R marks n a := by
  intro i hi
  obtain ⟨hlt, x, hx, hmark⟩ := mem_reached.mp hi
  exact mem_reached.mpr ⟨hlt, x, .head h hx, hmark⟩

theorem card_reached_le (marks : α → Nat → Prop) (n : Nat) (h : R a b) :
    (reached R marks n b).card ≤ (reached R marks n a).card :=
  Finset.card_le_card (reached_subset h)

theorem card_reached_lt {i : Nat} (marks : α → Nat → Prop) (h : R a b) (hacyclic : ¬ Relation.TransGen R a a) (hi : i < n)
    (hmark : marks a i) (hunique : ∀ x, marks x i → x = a) :
    (reached R marks n b).card < (reached R marks n a).card := by
  refine Finset.card_lt_card ⟨reached_subset h, fun hsubset => ?_⟩
  obtain ⟨-, x, hx, hx'⟩ := mem_reached.mp (hsubset (mem_reached.mpr ⟨hi, a, .refl, hmark⟩))
  rw [hunique x hx'] at hx
  exact hacyclic (.head' h hx)

end Erasure
