/-
Shapes: erased types apart from their numbers.

* `HasShape.inj`, `HasShape.unique`: in one pool a shape and its type determine each other.
* `isErased_flags_iff`: the flags of a type tell whether it has a shape.
-/
import Erasure.Proofs.Pool.Validity

namespace Erasure

/-- An erased type, built from primitive types, the null type, raw classes and arrays. -/
inductive Shape where
  | prim (p : Primitive)
  | null
  | raw (c : ClassId)
  | array (elem : Shape)
  deriving DecidableEq, Repr

namespace Pool

variable {p q : Pool}

/-- The type of the pool is erased and has the given shape. -/
inductive HasShape (p : Pool) : TypeId → Shape → Prop
  | prim {ty : TypeId} {r : Primitive} : p.HasKind ty (.prim r) → HasShape p ty (.prim r)
  | null {ty : TypeId} : p.HasKind ty .null → HasShape p ty .null
  | raw {ty : TypeId} {c : ClassId} : p.HasKind ty (.raw c) → HasShape p ty (.raw c)
  | array {ty elem : TypeId} {shape : Shape} : p.HasKind ty (.array elem) →
      HasShape p elem shape → HasShape p ty (.array shape)

/-- The type is in erased form. -/
def IsNormal (p : Pool) (ty : TypeId) : Prop := ∃ shape, p.HasShape ty shape

theorem HasShape.has {ty : TypeId} {shape : Shape} (h : p.HasShape ty shape) : p.Has ty := by
  cases h with
  | prim hk | null hk | raw hk | array hk _ => exact hk.has

theorem HasShape.of_le (hle : p ≤ q) {ty : TypeId} {shape : Shape} (h : p.HasShape ty shape) :
    q.HasShape ty shape := by
  induction h with
  | prim hk => exact .prim (hk.of_le hle)
  | null hk => exact .null (hk.of_le hle)
  | raw hk => exact .raw (hk.of_le hle)
  | array hk _ ih => exact .array (hk.of_le hle) ih

theorem IsNormal.of_le (hle : p ≤ q) {ty : TypeId} (h : p.IsNormal ty) : q.IsNormal ty :=
  h.imp fun _ hshape => hshape.of_le hle

theorem IsNormal.has {ty : TypeId} (h : p.IsNormal ty) : p.Has ty :=
  h.elim fun _ hshape => hshape.has

/-- An instantiation is not erased. -/
theorem IsNormal.not_inst {ty : TypeId} {base : ClassId} {s : SubstId} {outer : Option TypeId}
    (h : p.IsNormal ty) : ¬ p.HasKind ty (.inst base s outer) := by
  intro hinst
  obtain ⟨shape, hshape⟩ := h
  cases hshape with
  | prim hk | null hk | raw hk | array hk _ => cases hk.unique hinst

/-- Two types of one shape are one type. -/
theorem HasShape.inj {t u : TypeId} {shape : Shape} (ht : p.HasShape t shape)
    (hu : p.HasShape u shape) : t = u := by
  induction ht generalizing u with
  | prim hk => cases hu with | prim hk' => exact hk.inj hk'
  | null hk => cases hu with | null hk' => exact hk.inj hk'
  | raw hk => cases hu with | raw hk' => exact hk.inj hk'
  | array hk _ ih =>
    cases hu with
    | array hk' helem => exact hk.inj (ih helem ▸ hk')

/-- A type has one shape only. -/
theorem HasShape.unique {ty : TypeId} {shape shape' : Shape} (h : p.HasShape ty shape)
    (h' : p.HasShape ty shape') : shape = shape' := by
  induction h generalizing shape' with
  | prim hk =>
    cases h' with
    | prim hk' => cases hk.unique hk'; rfl
    | null hk' | raw hk' | array hk' _ => cases hk.unique hk'
  | null hk =>
    cases h' with
    | null _ => rfl
    | prim hk' | raw hk' | array hk' _ => cases hk.unique hk'
  | raw hk =>
    cases h' with
    | raw hk' => cases hk.unique hk'; rfl
    | prim hk' | null hk' | array hk' _ => cases hk.unique hk'
  | array hk _ ih =>
    cases h' with
    | array hk' helem =>
      cases hk.unique hk'
      rw [ih helem]
    | prim hk' | null hk' | raw hk' => cases hk.unique hk'

/-- Whether an array type is erased depends on its element type. -/
theorem isNormal_array_iff {ty elem : TypeId} (h : p.HasKind ty (.array elem)) :
    p.IsNormal ty ↔ p.IsNormal elem := by
  constructor
  · rintro ⟨shape, hshape⟩
    cases hshape with
    | array hk helem =>
      cases h.unique hk
      exact ⟨_, helem⟩
    | prim hk | null hk | raw hk => cases h.unique hk
  · rintro ⟨shape, hshape⟩
    exact ⟨_, .array h hshape⟩

theorem isErased_addPart (f g : TypeFlags) :
    (f.addPart g).isErased = (f.isErased && g.isErased) := by
  simp only [TypeFlags.addPart, TypeFlags.isErased]
  cases f.hasVar <;> cases f.hasInst <;> cases f.hasLub <;> cases g.hasVar <;> cases g.hasInst <;>
    cases g.hasLub <;> rfl

theorem isErased_foldl_addPart {f : TypeFlags} (h : f.isErased = false) (tys : List TypeId) :
    (tys.foldl (fun f part => f.addPart (p.flags part)) f).isErased = false := by
  induction tys generalizing f with
  | nil => exact h
  | cons ty tys ih => exact ih (by rw [isErased_addPart, h, Bool.false_and])

/-- A type is in erased form exactly when its flags say so. -/
theorem isErased_flags_iff (hp : p.Valid) {ty : TypeId} (h : p.Has ty) :
    (p.flags ty).isErased = true ↔ p.IsNormal ty := by
  induction hn : ty.index using Nat.strongRecOn generalizing ty with
  | ind n ih =>
    have hkind := h.hasKind
    rw [hp.flags_eq hkind]
    cases hk : p.kind ty with
    | prim r => exact ⟨fun _ => ⟨_, .prim (hk ▸ hkind)⟩, fun _ => rfl⟩
    | null => exact ⟨fun _ => ⟨_, .null (hk ▸ hkind)⟩, fun _ => rfl⟩
    | raw c => exact ⟨fun _ => ⟨_, .raw (hk ▸ hkind)⟩, fun _ => rfl⟩
    | array elem =>
      rw [hk] at hkind
      have hlt := hp.parts_lt hkind elem List.mem_cons_self
      rw [isNormal_array_iff hkind, ← ih _ (hn ▸ hlt) (hp.has_part hkind List.mem_cons_self) rfl,
        flagsOfKind, isErased_addPart]
      simp [TypeFlags.isErased]
    | var v | inst base s outer | lub l =>
      rw [hk] at hkind
      constructor
      · intro herased
        simp only [flagsOfKind] at herased
        first
          | rw [isErased_foldl_addPart rfl] at herased; cases herased
          | cases herased
      · rintro ⟨shape, hshape⟩
        cases hshape with
        | prim hk' | null hk' | raw hk' | array hk' _ => cases hkind.unique hk'

/-- A type that is in erased form later on was so from the start. -/
theorem IsNormal.of_ge (hp : p.Valid) (hq : q.Valid) (hle : p ≤ q) {ty : TypeId} (hty : p.Has ty)
    (h : q.IsNormal ty) : p.IsNormal ty := by
  rw [← isErased_flags_iff hp hty, ← flags_of_le hle hty]
  exact (isErased_flags_iff hq (hty.of_le hle)).mpr h

end Pool

end Erasure
