/-
Erasure as a relation.

`Erases ts M ty shape` says what the declarations and a memo `M` of earlier results say about the
canonical form of a type: the shape remembered for it, or else the shape of the type that its bound,
or the join of its bound, comes down to. The main statements:

* `Erases.unique`: the declarations and the memo leave one shape only.
* `Erases.of_extends`: growth without declarations changes no shape.
* `erases_of_hasShape`: an erased type is its own canonical form.
-/
import Erasure.Canonical.Basic
import Erasure.Proofs.TypeSystem.Join

namespace Erasure.TypeSystem

variable {ts us : TypeSystem} {M : Memo TypeId TypeId}

/-! ### What a type comes down to -/

/-- The type that a type comes down to when bounds are followed and upper bounds computed. -/
def ComesDownTo (ts : TypeSystem) (ty u : TypeId) : Prop :=
  ∃ r, ts.Resolves (ts.boundErasure ty) r ∧ u = ts.boundErasure r

theorem ComesDownTo.has (hts : ts.Valid) {ty u : TypeId} (h : ts.ComesDownTo ty u)
    (hty : ts.pool.Has ty) : ts.pool.Has u := by
  obtain ⟨r, hr, rfl⟩ := h
  exact has_boundErasure hts (hr.has (has_boundErasure hts hty))

theorem ComesDownTo.unique {ty u u' : TypeId} (h : ts.ComesDownTo ty u)
    (h' : ts.ComesDownTo ty u') : u = u' := by
  obtain ⟨r, hr, rfl⟩ := h
  obtain ⟨r', hr', rfl⟩ := h'
  rw [hr.unique hr']

theorem ComesDownTo.kind_ne_var (hts : ts.Valid) {ty u : TypeId} (h : ts.ComesDownTo ty u)
    (v : TypeVarId) : ts.kind u ≠ .var v := by
  obtain ⟨r, -, rfl⟩ := h
  exact kind_boundErasure_ne_var hts.object.kind_eq r v

theorem ComesDownTo.of_preserves (hts : ts.Valid) (h : Preserves ts us) {ty u : TypeId}
    (hty : ts.pool.Has ty) (hdown : ts.ComesDownTo ty u) : us.ComesDownTo ty u := by
  obtain ⟨r, hr, rfl⟩ := hdown
  have hbound := has_boundErasure hts hty
  refine ⟨r, ?_, (h.boundErasure_eq (hr.has hbound)).symm⟩
  rw [h.boundErasure_eq hty]
  exact hr.of_preserves hts h hbound

theorem ComesDownTo.of_extends (hts : ts.Valid) (hext : Extends ts us) {ty u : TypeId}
    (hty : ts.pool.Has ty) (h : ts.ComesDownTo ty u) : us.ComesDownTo ty u :=
  h.of_preserves hts (hext.preserves hts) hty

/-- A type that is neither a variable nor an upper bound comes down to itself. -/
theorem comesDownTo_self {ty : TypeId} (hvar : ∀ v, ts.kind ty ≠ .var v)
    (hlub : ∀ l, ts.kind ty ≠ .lub l) : ts.ComesDownTo ty ty := by
  refine ⟨ty, ?_, (boundErasure_of_ne_var hvar).symm⟩
  rw [boundErasure_of_ne_var hvar, Resolves]
  split
  · rename_i l hk
    exact absurd hk (hlub l)
  · rfl

/-! ### Erasure -/

/-- The canonical form of the type has the given shape, where `M` holds earlier results. -/
inductive Erases (ts : TypeSystem) (M : Memo TypeId TypeId) : TypeId → Shape → Prop
  | remembered {ty r : TypeId} {shape : Shape} : M.find? ty = some r →
      ts.pool.HasShape r shape → Erases ts M ty shape
  | prim {ty u : TypeId} {p : Primitive} : M.find? ty = none → ts.ComesDownTo ty u →
      ts.pool.HasKind u (.prim p) → Erases ts M ty (.prim p)
  | null {ty u : TypeId} : M.find? ty = none → ts.ComesDownTo ty u → ts.pool.HasKind u .null →
      Erases ts M ty .null
  | raw {ty u : TypeId} {c : ClassId} : M.find? ty = none → ts.ComesDownTo ty u →
      ts.pool.HasKind u (.raw c) → Erases ts M ty (.raw c)
  | inst {ty u : TypeId} {c : ClassId} {s : SubstId} {outer : Option TypeId} :
      M.find? ty = none → ts.ComesDownTo ty u → ts.pool.HasKind u (.inst c s outer) →
      Erases ts M ty (.raw c)
  | array {ty u elem : TypeId} {shape : Shape} : M.find? ty = none → ts.ComesDownTo ty u →
      ts.pool.HasKind u (.array elem) → Erases ts M elem shape → Erases ts M ty (.array shape)
  /-- An upper bound of upper bounds is not looked into. -/
  | lub {ty u : TypeId} {l : LubId} : M.find? ty = none → ts.ComesDownTo ty u →
      ts.pool.HasKind u (.lub l) → Erases ts M ty (.raw .object)

/-- The substitution puts the erased form of every one of the variables in its place. -/
def BindsErased (ts : TypeSystem) (M : Memo TypeId TypeId) (vs : List TypeVarId) (sub : SubstId) :
    Prop :=
  ∃ bs : List (TypeVarId × TypeId), ts.pool.HasBindings sub (Bindings.ofList bs) ∧
    List.Forall₂ (fun v b => b.1 = v ∧ ∃ ty shape, ts.pool.HasKind ty (.var v) ∧
      ts.Erases M ty shape ∧ ts.pool.HasShape b.2 shape) vs bs

/-- The declarations and the memo leave one shape only. -/
theorem Erases.unique {ty : TypeId} {shape shape' : Shape} (h : ts.Erases M ty shape)
    (h' : ts.Erases M ty shape') : shape = shape' := by
  induction h generalizing shape' with
  | remembered hM hr =>
    cases h' with
    | remembered hM' hr' =>
      rw [hM] at hM'
      cases hM'
      exact hr.unique hr'
    | prim hM' _ _ | null hM' _ _ | raw hM' _ _ | inst hM' _ _ | array hM' _ _ _ | lub hM' _ _ =>
      rw [hM] at hM'
      cases hM'
  | prim hM hdown hk | null hM hdown hk | raw hM hdown hk | inst hM hdown hk | lub hM hdown hk =>
    cases h' with
    | remembered hM' _ =>
      rw [hM] at hM'
      cases hM'
    | prim _ hdown' hk' | null _ hdown' hk' | raw _ hdown' hk' | inst _ hdown' hk'
    | array _ hdown' hk' _ | lub _ hdown' hk' =>
      cases hdown.unique hdown'
      cases hk.unique hk' <;> rfl
  | array hM hdown hk _ ih =>
    cases h' with
    | remembered hM' _ =>
      rw [hM] at hM'
      cases hM'
    | array _ hdown' hk' helem =>
      cases hdown.unique hdown'
      cases hk.unique hk'
      rw [ih helem]
    | prim _ hdown' hk' | null _ hdown' hk' | raw _ hdown' hk' | inst _ hdown' hk'
    | lub _ hdown' hk' =>
      cases hdown.unique hdown'
      cases hk.unique hk'

/-- No shape changes while bounds and joins are what they were. -/
theorem Erases.of_preserves (hts : ts.Valid) (h : Preserves ts us) {ty : TypeId} {shape : Shape}
    (hty : ts.pool.Has ty) (herases : ts.Erases M ty shape) : us.Erases M ty shape := by
  induction herases with
  | remembered hM hr => exact .remembered hM (hr.of_le h.le.1)
  | prim hM hdown hk => exact .prim hM (hdown.of_preserves hts h hty) (hk.of_le h.le.1)
  | null hM hdown hk => exact .null hM (hdown.of_preserves hts h hty) (hk.of_le h.le.1)
  | raw hM hdown hk => exact .raw hM (hdown.of_preserves hts h hty) (hk.of_le h.le.1)
  | inst hM hdown hk => exact .inst hM (hdown.of_preserves hts h hty) (hk.of_le h.le.1)
  | array hM hdown hk _ ih =>
    refine .array hM (hdown.of_preserves hts h hty) (hk.of_le h.le.1) (ih ?_)
    exact hts.pool.has_part hk List.mem_cons_self
  | lub hM hdown hk => exact .lub hM (hdown.of_preserves hts h hty) (hk.of_le h.le.1)

/-- Growth without declarations changes no shape. -/
theorem Erases.of_extends (hts : ts.Valid) (hext : Extends ts us) {ty : TypeId} {shape : Shape}
    (hty : ts.pool.Has ty) (h : ts.Erases M ty shape) : us.Erases M ty shape :=
  h.of_preserves hts (hext.preserves hts) hty

/-- An erased type is its own canonical form, if the memo does not say otherwise. -/
theorem erases_of_hasShape {ty : TypeId} {shape : Shape} (h : ts.pool.HasShape ty shape)
    (hM : ∀ t r, M.find? t = some r → ts.pool.IsNormal t → r = t) : ts.Erases M ty shape := by
  have hself : ∀ {ty k}, ts.pool.HasKind ty k → (∀ v, k ≠ .var v) → (∀ l, k ≠ .lub l) →
      ts.ComesDownTo ty ty := fun hk hvar hlub =>
    comesDownTo_self (fun v hv => hvar v (hk.kind_eq.symm.trans hv))
      fun l hl => hlub l (hk.kind_eq.symm.trans hl)
  induction h with
  | @prim ty r hk =>
    cases hfind : M.find? ty with
    | some u => exact .remembered hfind (hM _ _ hfind ⟨_, .prim hk⟩ ▸ .prim hk)
    | none => exact .prim hfind (hself hk nofun nofun) hk
  | @null ty hk =>
    cases hfind : M.find? ty with
    | some u => exact .remembered hfind (hM _ _ hfind ⟨_, .null hk⟩ ▸ .null hk)
    | none => exact .null hfind (hself hk nofun nofun) hk
  | @raw ty c hk =>
    cases hfind : M.find? ty with
    | some u => exact .remembered hfind (hM _ _ hfind ⟨_, .raw hk⟩ ▸ .raw hk)
    | none => exact .raw hfind (hself hk nofun nofun) hk
  | @array ty elem shape hk helem ih =>
    cases hfind : M.find? ty with
    | some u =>
      have hshape := Pool.HasShape.array hk helem
      exact .remembered hfind (hM _ _ hfind ⟨_, hshape⟩ ▸ hshape)
    | none => exact .array hfind (hself hk nofun nofun) hk ih

end Erasure.TypeSystem
