/-
Subtyping among outlines.

What a type that leads to no open upper bound is erased to, its outline, is enough to tell which
erased types relate. The rules of subtyping come down to four among outlines: the bound of a variable
has the outline of the variable, and no open upper bound has one. The main statements:

* `SubtypeOf.outline_below`: the outline of a subtype is below that of its supertype.
* `isSubtype_iff_below`, `isAssignable_iff_fits`: erased types relate as their shapes do.
* `fits_of_isAssignable`: the outline of a type fits that of what it is assignable to.
-/
import Erasure.Proofs.Canonical.Outline
import Erasure.Proofs.Subtyping.Derivation

namespace Erasure

namespace Shape

/-- Whether the shape is that of references. -/
def isReference : Shape → Bool
  | prim _ => false
  | null | raw _ | array _ => true

/-- The shapes of subtypes and supertypes, where classes inherit as given. -/
inductive Below (inherits : ClassId → ClassId → Prop) : Shape → Shape → Prop
  | refl {a : Shape} : Below inherits a a
  | null {a : Shape} : a.isReference = true → Below inherits .null a
  | elems {a b : Shape} : a.isReference = true → b.isReference = true → Below inherits a b →
      Below inherits (.array a) (.array b)
  | array {a : Shape} : Below inherits (.array a) (.raw .object)
  | inherits {b c : ClassId} : Relation.ReflTransGen inherits b c → Below inherits (.raw b) (.raw c)

/-- The shapes of which the first converts to the second. -/
inductive Fits (inherits : ClassId → ClassId → Prop) : Shape → Shape → Prop
  | widens {p q : Primitive} : p.widensTo q = true → Fits inherits (.prim p) (.prim q)
  | below {a b : Shape} : Below inherits a b → Fits inherits a b

end Shape

namespace TypeSystem

variable {ts : TypeSystem} {V : TypeVarId → Prop} {t u : TypeId} {a b : Shape}

/-- The bounds of the declared type variables are references. -/
def BoundsReferences (ts : TypeSystem) : Prop :=
  ∀ v, v.index < ts.typeVars.size → ts.isReference (ts.typeVar v).bound = true

/-! ### Outlines by kinds -/

namespace HasOutline

theorem of_null (h : ts.HasOutline V t a) (hk : ts.pool.HasKind t .null) : a = .null :=
  h.unique (.null hk)

theorem of_prim {p : Primitive} (h : ts.HasOutline V t a) (hk : ts.pool.HasKind t (.prim p)) :
    a = .prim p :=
  h.unique (.prim hk)

theorem kind_ne_lub (h : ts.HasOutline V t a) (l : LubId) : ts.kind t ≠ .lub l := by
  intro hl
  have hk : ts.pool.HasKind t (.lub l) := hl ▸ h.has.hasKind
  exact h.not_lub hk

/-- The outline of an array is that of an array. -/
theorem of_array {elem : TypeId} (h : ts.HasOutline V t a) (hk : ts.pool.HasKind t (.array elem)) :
    ∃ b, a = .array b ∧ ts.HasOutline V elem b := by
  cases h with
  | array hk' helem =>
    cases hk.unique hk'
    exact ⟨_, rfl, helem⟩
  | prim hk' | null hk' | raw hk' | inst hk' | var hk' _ _ _ => cases hk.unique hk'

/-- The outline of a class type is the class. -/
theorem of_class {c : ClassId} (h : ts.HasOutline V t a) (hc : ts.classOf? t = some c) :
    a = .raw c := by
  have hkind := (has_of_classOf? hc).hasKind
  rw [classOf?, kind] at hc
  cases hk : ts.pool.kind t with rw [hk] at hc hkind
  | raw d =>
    cases hc
    exact h.unique (.raw hkind)
  | inst d _ _ =>
    cases hc
    exact h.unique (.inst hkind)
  | prim _ | null | array _ | var _ | lub _ => cases hc

/-- The outline is that of references for references only. -/
theorem isReference_eq (hbounds : ts.BoundsReferences) (hg : ts.Grounded)
    (h : ts.HasOutline V t a) : a.isReference = (ts.kind t).isReference := by
  induction h with
  | prim hk | null hk | raw hk | inst hk | array hk _ =>
    rw [show ts.kind _ = _ from hk.kind_eq]
    rfl
  | var hk _ hlt _ ih =>
    rw [ih, ← isReference_eq_kind hg.pool (hg.bound _), hbounds _ hlt,
      show ts.kind _ = _ from hk.kind_eq]
    rfl

/-- A type of a primitive outline is primitive. -/
theorem hasKind_of_prim (hbounds : ts.BoundsReferences) (hg : ts.Grounded) {p : Primitive}
    (h : ts.HasOutline V t (.prim p)) : ts.pool.HasKind t (.prim p) := by
  cases h with
  | prim hk => exact hk
  | var _ _ hlt hbound =>
    have href := hbounds _ hlt
    rw [isReference_eq_kind hg.pool (hg.bound _), ← hbound.isReference_eq hbounds hg] at href
    cases href

end HasOutline

/-! ### Subtyping -/

/-- The outline of a subtype is below that of its supertype. -/
theorem SubtypeOf.outline_below (hbounds : ts.BoundsReferences) (hg : ts.Grounded)
    (htu : ts.SubtypeOf t u) (ha : ts.HasOutline V t a) (hb : ts.HasOutline V u b) :
    a.Below ts.Inherits b := by
  induction htu generalizing a b with
  | refl => exact ha.unique hb ▸ .refl
  | null hk href =>
    rw [ha.of_null hk]
    exact .null ((hb.isReference_eq hbounds hg).trans href)
  | candidates hk _ _ _ => exact absurd hk ha.not_lub
  | candidate hk _ _ _ _ _ => exact absurd hk hb.not_lub
  | bound hk _ _ _ _ ih => exact ih (ha.of_var hk).2 hb
  | elems hkt hku hreft hrefu _ ih =>
    obtain ⟨a', rfl, ha'⟩ := ha.of_array hkt
    obtain ⟨b', rfl, hb'⟩ := hb.of_array hku
    exact .elems ((ha'.isReference_eq hbounds hg).trans hreft)
      ((hb'.isReference_eq hbounds hg).trans hrefu) (ih ha' hb')
  | array hk hc =>
    obtain ⟨a', rfl, -⟩ := ha.of_array hk
    rw [hb.of_class hc]
    exact .array
  | inherits hb' hc hinherits =>
    rw [ha.of_class hb', hb.of_class hc]
    exact .inherits hinherits

end TypeSystem

/-- The kind of an erased type is that of references if its shape is. -/
theorem Pool.HasShape.isReference_eq {p : Pool} {t : TypeId} {a : Shape} (h : p.HasShape t a) :
    a.isReference = (p.kind t).isReference := by
  cases h with
  | prim hk | null hk | raw hk | array hk _ =>
    rw [hk.kind_eq]
    rfl

namespace TypeSystem

variable {ts : TypeSystem} {V : TypeVarId → Prop} {t u : TypeId} {a b : Shape}

/-- Erased types are subtypes if their shapes are below each other. -/
theorem subtypeOf_of_below (hab : a.Below ts.Inherits b) (ht : ts.pool.HasShape t a)
    (hu : ts.pool.HasShape u b) : ts.SubtypeOf t u := by
  induction hab generalizing t u with
  | refl => exact ht.inj hu ▸ .refl
  | null href =>
    cases ht with
    | null hk => exact .null hk (hu.isReference_eq.symm.trans href)
  | elems hrefa hrefb _ ih =>
    cases ht with
    | array hkt ha =>
      cases hu with
      | array hku hb =>
        exact .elems hkt hku (ha.isReference_eq.symm.trans hrefa)
          (hb.isReference_eq.symm.trans hrefb) (ih ha hb)
  | array =>
    cases ht with
    | array hkt _ =>
      cases hu with
      | raw hku => exact .array hkt (congrArg TypeKind.class? hku.kind_eq)
  | inherits hinherits =>
    cases ht with
    | raw hkt =>
      cases hu with
      | raw hku =>
        exact .inherits (congrArg TypeKind.class? hkt.kind_eq)
          (congrArg TypeKind.class? hku.kind_eq) hinherits

/-- Erased types relate as their shapes do. -/
theorem isSubtype_iff_below (h : ts.WellFormed) (hbounds : ts.BoundsReferences)
    (ht : ts.pool.HasShape t a) (hu : ts.pool.HasShape u b) :
    ts.isSubtype t u = true ↔ a.Below ts.Inherits b := by
  rw [isSubtype_iff_subtypeOf h ht.has hu.has]
  exact ⟨fun htu => htu.outline_below hbounds h.toGrounded (V := fun _ => True) (hasOutline_of_hasShape ht)
    (hasOutline_of_hasShape hu), fun hab => subtypeOf_of_below hab ht hu⟩

/-! ### Assignment -/

theorem widensTo_self (p : Primitive) : p.widensTo p = true := by cases p <;> rfl

/-- A type is assignable to its supertypes, and a primitive type to what it widens to. -/
theorem isAssignable_iff (h : ts.WellFormed) (ht : ts.pool.Has t) (hu : ts.pool.Has u) :
    ts.isAssignable t u = true ↔
      (∃ p q, ts.kind t = .prim p ∧ ts.kind u = .prim q ∧ p.widensTo q = true) ∨
        ts.isSubtype t u = true := by
  unfold isAssignable
  split
  case h_1 p q hp hq =>
    refine ⟨fun hw => .inl ⟨p, q, hp, hq, hw⟩, ?_⟩
    rintro (⟨p', q', hp', hq', hw⟩ | htu)
    · cases hp.symm.trans hp'
      cases hq.symm.trans hq'
      exact hw
    · obtain rfl := (isSubtype_prim_iff h ht hu hp).mp htu
      cases hp.symm.trans hq
      exact widensTo_self p
  case h_2 hne =>
    refine ⟨.inr, ?_⟩
    rintro (⟨p, q, hp, hq, -⟩ | htu)
    · exact absurd hq (hne p q hp)
    · exact htu

theorem widensTo_trans {p q r : Primitive} (hpq : p.widensTo q = true)
    (hqr : q.widensTo r = true) : p.widensTo r = true := by
  cases q <;> cases p <;> cases hpq <;> cases r <;> first | rfl | cases hqr

/-- Assignability is transitive. -/
theorem isAssignable_trans (h : ts.WellFormed) {w : TypeId} (ht : ts.pool.Has t)
    (hu : ts.pool.Has u) (hw : ts.pool.Has w) (htu : ts.isAssignable t u = true)
    (huw : ts.isAssignable u w = true) : ts.isAssignable t w = true := by
  rw [isAssignable_iff h ht hw]
  rcases (isAssignable_iff h ht hu).mp htu with ⟨p, q, hp, hq, hpq⟩ | htu
  · rcases (isAssignable_iff h hu hw).mp huw with ⟨q', r, hq', hr, hqr⟩ | huw
    · cases hq.symm.trans hq'
      exact .inl ⟨p, r, hp, hr, widensTo_trans hpq hqr⟩
    · obtain rfl := (isSubtype_prim_iff h hu hw hq).mp huw
      exact .inl ⟨p, q, hp, hq, hpq⟩
  · rcases (isAssignable_iff h hu hw).mp huw with ⟨q, r, hq, hr, hqr⟩ | huw
    · obtain rfl := (isSubtype_to_prim_iff h ht hu hq).mp htu
      exact .inl ⟨q, r, hq, hr, hqr⟩
    · exact .inr (isSubtype_trans h ht hu hw htu huw)

/-- Growth without declarations changes nothing about what is assignable to what. -/
theorem isAssignable_of_extends (h : ts.WellFormed) {us : TypeSystem} (hext : Extends ts us)
    (hp : us.pool.Valid) (ht : ts.pool.Has t) (hu : ts.pool.Has u) :
    us.isAssignable t u = ts.isAssignable t u := by
  have hself : ∀ {x}, ts.pool.Has x →
      ts.pool.Mirrors us.pool x x ∧ us.pool.Mirrors ts.pool x x := fun hx =>
    ⟨Pool.mirrors_self h.pool h.pool (le_refl _) hext.le.1 hx,
      Pool.mirrors_self h.pool hp hext.le.1 (le_refl _) hx⟩
  have hsub : us.isSubtype t u = ts.isSubtype t u := Bool.eq_iff_iff.mpr
    ⟨isSubtype_of_mirrors h hext (.refl ts) hp h.pool (hself ht).2 (hself hu).2,
      isSubtype_of_mirrors h (.refl ts) hext h.pool hp (hself ht).1 (hself hu).1⟩
  rw [isAssignable, isAssignable, kind_of_le hext.le ht, kind_of_le hext.le hu, hsub]

/-- The outline of a type fits that of what the type is assignable to. -/
theorem fits_of_isAssignable (h : ts.WellFormed) (hbounds : ts.BoundsReferences)
    (ha : ts.HasOutline V t a) (hb : ts.HasOutline V u b) (htu : ts.isAssignable t u = true) :
    a.Fits ts.Inherits b := by
  rcases (isAssignable_iff h ha.has hb.has).mp htu with ⟨p, q, hp, hq, hw⟩ | htu
  · have hkt : ts.pool.HasKind t (.prim p) := hp ▸ ha.has.hasKind
    have hku : ts.pool.HasKind u (.prim q) := hq ▸ hb.has.hasKind
    rw [ha.of_prim hkt, hb.of_prim hku]
    exact .widens hw
  · rw [isSubtype_iff_subtypeOf h ha.has hb.has] at htu
    exact .below (htu.outline_below hbounds h.toGrounded ha hb)

/-- Erased types are assignable as their shapes fit. -/
theorem isAssignable_iff_fits (h : ts.WellFormed) (hbounds : ts.BoundsReferences)
    (ht : ts.pool.HasShape t a) (hu : ts.pool.HasShape u b) :
    ts.isAssignable t u = true ↔ a.Fits ts.Inherits b := by
  refine ⟨fits_of_isAssignable h hbounds (V := fun _ => True) (hasOutline_of_hasShape ht)
    (hasOutline_of_hasShape hu), fun hab => ?_⟩
  rw [isAssignable_iff h ht.has hu.has]
  cases hab with
  | widens hw =>
    cases ht with
    | prim hkt =>
      cases hu with
      | prim hku => exact .inl ⟨_, _, hkt.kind_eq, hku.kind_eq, hw⟩
  | below hab => exact .inr ((isSubtype_iff_below h hbounds ht hu).mpr hab)

end TypeSystem

end Erasure
