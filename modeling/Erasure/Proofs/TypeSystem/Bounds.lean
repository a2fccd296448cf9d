/-
How far bounds, element types and candidates lead.

The walks through a type go from a type variable to its bound, from an array to its elements and
from an open upper bound to its candidates. If no variable is met again from its own bound, they
come to an end: `rank` counts mostly the variables that are still to be met. The main statements:

* `rank_lt`: the rank falls along every step.
* `rank_lt_mul`: it is bounded by the numbers of variables and types.
-/
import Erasure.Proofs.Canonical.Rank
import Erasure.Proofs.TypeSystem.Validity

namespace Erasure.TypeSystem

variable {ts us : TypeSystem}

/-! ### Steps -/

/-- A walk through the first type looks into the second: a bound, an element type or a candidate. -/
inductive LooksInto (ts : TypeSystem) : TypeId → TypeId → Prop
  | bound {ty : TypeId} {v : TypeVarId} : ts.pool.HasKind ty (.var v) →
      LooksInto ts ty (ts.typeVar v).bound
  | elem {ty elem : TypeId} : ts.pool.HasKind ty (.array elem) → LooksInto ts ty elem
  | candidate {ty u : TypeId} {l : LubId} : ts.pool.HasKind ty (.lub l) →
      u ∈ ts.pool.candidates l → LooksInto ts ty u

/-- The types that kinds and bounds refer to are types of the pool. -/
structure Grounded (ts : TypeSystem) : Prop where
  pool : ts.pool.Valid
  bound : ∀ v, ts.pool.Has (ts.typeVar v).bound

theorem Valid.grounded (hts : ts.Valid) : ts.Grounded := ⟨hts.pool, hts.bound⟩

/-- No type variable is reached again from its own bound. -/
def AcyclicBounds (ts : TypeSystem) : Prop :=
  ∀ ty v, ts.pool.HasKind ty (.var v) → ¬ Relation.ReflTransGen ts.LooksInto (ts.typeVar v).bound ty

/-- A type variable at the position has a bound before it. -/
def isBoundedBelow (ts : TypeSystem) (i : Nat) : TypeKind → Bool
  | .var v => (ts.typeVar v).bound.index < i
  | .prim _ | .null | .array _ | .raw _ | .inst _ _ _ | .lub _ => true

/-- Bounds that are older than their variables lead to older types only. -/
theorem acyclicBounds_of_isBoundedBelow (hp : ts.pool.Valid)
    (h : ∀ i < ts.pool.size, ts.isBoundedBelow i (ts.kind ⟨i⟩) = true) : ts.AcyclicBounds := by
  have hbound : ∀ {ty v}, ts.pool.HasKind ty (.var v) → (ts.typeVar v).bound.index < ty.index := by
    intro ty v hk
    have hty := h ty.index hk.has
    rw [show ts.kind ⟨ty.index⟩ = .var v from hk.kind_eq] at hty
    exact of_decide_eq_true hty
  have hle : ∀ {ty u}, Relation.ReflTransGen ts.LooksInto ty u → u.index ≤ ty.index := by
    intro ty u hsteps
    induction hsteps with
    | refl => exact Nat.le_refl _
    | tail _ hstep ih =>
      cases hstep with
      | bound hk => exact (hbound hk).le.trans ih
      | elem hk => exact (hp.parts_lt hk _ List.mem_cons_self).le.trans ih
      | candidate hk hu => exact (hp.parts_lt hk _ hu).le.trans ih
  exact fun ty v hk hcycle => absurd (hle hcycle) (Nat.not_le_of_lt (hbound hk))

/-! ### Rank -/

/-- A type variable has its number as its mark. -/
def varMark (ts : TypeSystem) (ty : TypeId) (i : Nat) : Prop := ts.pool.HasKind ty (.var ⟨i⟩)

/-- How far a type is from the end of all walks through it: mostly the variables that are still to
be met, between two of them the number of the type. -/
noncomputable def rank (ts : TypeSystem) (ty : TypeId) : Nat :=
  (reached ts.LooksInto ts.varMark ts.typeVars.size ty).card * (ts.pool.size + 1) + ty.index

theorem LooksInto.has (hts : ts.Grounded) {ty u : TypeId} (h : ts.LooksInto ty u) :
    ts.pool.Has u := by
  cases h with
  | bound => exact hts.bound _
  | elem hk => exact hts.pool.has_part hk List.mem_cons_self
  | candidate hk hu => exact hts.pool.has_part hk hu

/-- Types get older along a step, except at the bound of a declared variable. -/
theorem LooksInto.lt_or_var (hts : ts.Grounded) {ty u : TypeId} (h : ts.LooksInto ty u) :
    u.index < ty.index ∨ ∃ v, ts.pool.HasKind ty (.var v) ∧ v.index < ts.typeVars.size := by
  cases h with
  | @bound v hk =>
    by_cases hlt : v.index < ts.typeVars.size
    · exact Or.inr ⟨v, hk, hlt⟩
    · -- an undeclared variable has the default bound, the oldest type of all
      refine Or.inl ?_
      rw [typeVar, Array.getD_eq_getD_getElem?, Array.getElem?_eq_none (Nat.le_of_not_lt hlt)]
      refine Nat.pos_of_ne_zero fun hzero => ?_
      have hboolean : ty = Primitive.boolean.typeId := TypeId.eq_of_index hzero
      subst hboolean
      cases hk.unique (hts.pool.prims .boolean)
  | elem hk => exact Or.inl (hts.pool.parts_lt hk _ List.mem_cons_self)
  | candidate hk hu => exact Or.inl (hts.pool.parts_lt hk _ hu)

/-- Beyond a declared variable there are fewer variables to be met. -/
theorem card_reached_lt_of_var (hacyclic : ts.AcyclicBounds) {ty u : TypeId} {v : TypeVarId}
    (h : ts.LooksInto ty u) (hk : ts.pool.HasKind ty (.var v)) (hv : v.index < ts.typeVars.size) :
    (reached ts.LooksInto ts.varMark ts.typeVars.size u).card <
      (reached ts.LooksInto ts.varMark ts.typeVars.size ty).card := by
  have hnot : ¬ Relation.TransGen ts.LooksInto ty ty := by
    intro hcycle
    obtain ⟨w, hw, hrest⟩ := Relation.TransGen.head'_iff.mp hcycle
    cases hw with
    | bound hk' =>
      cases hk.unique hk'
      exact hacyclic _ _ hk hrest
    | elem hk' => cases hk.unique hk'
    | candidate hk' _ => cases hk.unique hk'
  exact card_reached_lt ts.varMark h hnot hv hk fun x hx => hx.inj hk

/-- The rank falls along every step. -/
theorem rank_lt (hts : ts.Grounded) (hacyclic : ts.AcyclicBounds) {ty u : TypeId}
    (h : ts.LooksInto ty u) : ts.rank u < ts.rank ty := by
  have hle := card_reached_le ts.varMark ts.typeVars.size h
  rcases h.lt_or_var hts with hlt | ⟨v, hk, hv⟩
  · have := Nat.mul_le_mul_right (ts.pool.size + 1) hle
    rw [rank, rank]
    omega
  · have hfewer := card_reached_lt_of_var hacyclic h hk hv
    have := Nat.mul_le_mul_right (ts.pool.size + 1) hfewer
    have hu : u.index < ts.pool.size := h.has hts
    rw [Nat.succ_mul] at this
    rw [rank, rank]
    omega

/-- A rank counts the variables and types that there are at most. -/
theorem rank_lt_mul {ty : TypeId} (hty : ts.pool.Has ty) :
    ts.rank ty < (ts.typeVars.size + 1) * (ts.pool.size + 1) := by
  have hcard := card_reached_bound ts.LooksInto ts.varMark ts.typeVars.size ty
  have hmul := Nat.mul_le_mul_right (ts.pool.size + 1) hcard
  have hindex : ty.index < ts.pool.size := hty
  rw [rank, Nat.succ_mul]
  omega

/-! ### Growth -/

theorem LooksInto.of_extends (hts : ts.Grounded) (hext : Extends ts us) {ty u : TypeId}
    (hty : ts.pool.Has ty) (h : us.LooksInto ty u) : ts.LooksInto ty u := by
  have hkind : ∀ {k}, us.pool.HasKind ty k → ts.pool.HasKind ty k := fun hk =>
    hk.of_ge hext.le.1 hty
  cases h with
  | bound hk =>
    rw [hext.typeVar_eq]
    exact .bound (hkind hk)
  | elem hk => exact .elem (hkind hk)
  | @candidate _ l hk hu =>
    have hold := hkind hk
    have hparts : us.pool.candidates l = ts.pool.candidates l :=
      Pool.parts_of_le hext.le.1 (hts.pool.linked hold)
    exact .candidate hold (hparts ▸ hu)

theorem looksInto_star_of_extends (hts : ts.Grounded) (hext : Extends ts us) {ty u : TypeId}
    (hty : ts.pool.Has ty) (h : Relation.ReflTransGen us.LooksInto ty u) :
    ts.pool.Has u ∧ Relation.ReflTransGen ts.LooksInto ty u := by
  induction h with
  | refl => exact ⟨hty, .refl⟩
  | tail _ hstep ih =>
    have hold := hstep.of_extends hts hext ih.1
    exact ⟨hold.has hts, ih.2.tail hold⟩

/-- Growth without declarations brings in no cycle of bounds. -/
theorem AcyclicBounds.of_extends (hts : ts.Grounded) (hext : Extends ts us)
    (h : ts.AcyclicBounds) : us.AcyclicBounds := by
  intro ty v hk hcycle
  rw [hext.typeVar_eq] at hcycle
  obtain ⟨hty, hcycle⟩ := looksInto_star_of_extends hts hext (hts.bound v) hcycle
  exact h ty v (hk.of_ge hext.le.1 hty) hcycle

end Erasure.TypeSystem
