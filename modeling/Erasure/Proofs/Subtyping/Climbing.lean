/-
What subtyping asks for beyond erasure.

Erasure replaces every variable by the end of its bounds, on both sides. Subtyping goes up the bounds
of the subtype only: below a variable it finds nothing but that variable, what is bounded by it and
the null type, and the same for arrays of the variable. `Climbs` says that a type comes up to the
variable of another one, if that is or holds a variable; then the outlines decide the rest. The main
statements:

* `isSubtype_iff_climbs`, `isAssignable_iff_climbs`: one type relates to another exactly if their
  outlines relate and the first climbs to the second.
* `not_climbs_of_hasShape`: no erased type climbs to an array of a variable.
-/
import Erasure.Proofs.Subtyping.Outline

namespace Erasure.TypeSystem

variable {ts us : TypeSystem} {V : TypeVarId → Prop} {t u : TypeId} {a b : Shape} {k : TypeKind}

/-! ### Open types -/

/-- The type is of the kind, or an array of types that are. -/
inductive UnderArrays (ts : TypeSystem) : TypeId → TypeKind → Prop
  | self {ty : TypeId} {k : TypeKind} : ts.pool.HasKind ty k → UnderArrays ts ty k
  | array {ty elem : TypeId} {k : TypeKind} : ts.pool.HasKind ty (.array elem) →
      UnderArrays ts elem k → UnderArrays ts ty k

theorem UnderArrays.of_le (hle : ts ≤ us) (h : ts.UnderArrays t k) : us.UnderArrays t k := by
  induction h with
  | self hk => exact .self (hk.of_le hle.1)
  | array hk _ ih => exact .array (hk.of_le hle.1) ih

/-- A type variable or the null type, or an array of such: the types that not all types of their
outline are assignable to. -/
def IsOpen (ts : TypeSystem) (ty : TypeId) : Prop :=
  (∃ v, ts.UnderArrays ty (.var v)) ∨ ts.UnderArrays ty .null

theorem IsOpen.of_elem {elem : TypeId} (hk : ts.pool.HasKind t (.array elem))
    (h : ts.IsOpen elem) : ts.IsOpen t :=
  h.imp (fun ⟨v, hv⟩ => ⟨v, .array hk hv⟩) fun hnull => .array hk hnull

/-- A class type is not open. -/
theorem not_isOpen_of_classOf? {c : ClassId} (hc : ts.classOf? t = some c) : ¬ ts.IsOpen t := by
  rw [classOf?, kind] at hc
  rintro (⟨v, hv⟩ | hnull)
  · cases hv with | self hk | array hk _ => rw [hk.kind_eq] at hc; cases hc
  · cases hnull with | self hk | array hk _ => rw [hk.kind_eq] at hc; cases hc

theorem not_isOpen_of_prim {p : Primitive} (hk : ts.pool.HasKind t (.prim p)) :
    ¬ ts.IsOpen t := by
  rintro (⟨v, hv⟩ | hnull)
  · cases hv with | self hk' | array hk' _ => cases hk.unique hk'
  · cases hnull with | self hk' | array hk' _ => cases hk.unique hk'

/-! ### Climbing -/

/-- The first type comes up to the second one by the bounds of its variables, below as many arrays as
the second one has, unless the second one is not open or the null type is found. -/
inductive Climbs (ts : TypeSystem) : TypeId → TypeId → Prop
  | refl {t : TypeId} : Climbs ts t t
  | closed {t u : TypeId} : ¬ ts.IsOpen u → Climbs ts t u
  | null {t u : TypeId} : ts.pool.HasKind t .null → Climbs ts t u
  | bound {t u : TypeId} {v : TypeVarId} : ts.pool.HasKind t (.var v) → ts.kind u ≠ .null →
      Climbs ts (ts.typeVar v).bound u → Climbs ts t u
  | elems {t u x y : TypeId} : ts.pool.HasKind t (.array x) → ts.pool.HasKind u (.array y) →
      Climbs ts x y → Climbs ts t u

/-- A subtype climbs to its supertype. -/
theorem SubtypeOf.climbs (htu : ts.SubtypeOf t u) (ha : ts.HasOutline V t a)
    (hb : ts.HasOutline V u b) : ts.Climbs t u := by
  induction htu generalizing a b with
  | refl => exact .refl
  | null hk _ => exact .null hk
  | candidates hk _ _ _ => exact absurd hk ha.not_lub
  | candidate hk _ _ _ _ _ => exact absurd hk hb.not_lub
  | bound hk _ hnull _ _ ih => exact .bound hk hnull (ih (ha.of_var hk).2 hb)
  | elems hkt hku _ _ _ ih =>
    obtain ⟨_, -, ha'⟩ := ha.of_array hkt
    obtain ⟨_, -, hb'⟩ := hb.of_array hku
    exact .elems hkt hku (ih ha' hb')
  | array _ hc | inherits _ hc _ => exact .closed (not_isOpen_of_classOf? hc)

/-- Only references relate to references. -/
theorem isReference_of_below (hab : a.Below ts.Inherits b) : b.isReference = a.isReference := by
  cases hab with
  | refl => rfl
  | null href => exact href
  | elems _ _ _ | array | inherits _ => rfl

section

variable (hbounds : ts.BoundsReferences) (hg : ts.Grounded)
include hbounds hg

/-- The rule for arrays, and that an array of a primitive type is a subtype of itself. -/
theorem subtypeOf_array {x y : TypeId} {a b : Shape} (hkt : ts.pool.HasKind t (.array x))
    (hku : ts.pool.HasKind u (.array y)) (ha : ts.HasOutline V x a) (hb : ts.HasOutline V y b)
    (hab : (Shape.array a).Below ts.Inherits (.array b))
    (hsub : a.Below ts.Inherits b → ts.SubtypeOf x y) : ts.SubtypeOf t u := by
  have hrefa := ha.isReference_eq hbounds hg
  have hrefb := hb.isReference_eq hbounds hg
  cases hab with
  | elems ha' hb' hab =>
    exact .elems hkt hku (hrefa.symm.trans ha') (hrefb.symm.trans hb') (hsub hab)
  | refl =>
    by_cases href : a.isReference = true
    · exact .elems hkt hku (hrefa.symm.trans href) (hrefb.symm.trans href) (hsub .refl)
    · cases a with
      | prim p =>
        obtain rfl := (ha.hasKind_of_prim hbounds hg).inj (hb.hasKind_of_prim hbounds hg)
        exact hkt.inj hku ▸ .refl
      | null | raw _ | array _ => exact absurd rfl href

/-- A type is a subtype of what its outline is below, if that is not open. -/
theorem subtypeOf_of_not_isOpen (hopen : ¬ ts.IsOpen u) (ha : ts.HasOutline V t a)
    (hb : ts.HasOutline V u b) (hab : a.Below ts.Inherits b) : ts.SubtypeOf t u := by
  have hnull : ts.kind u ≠ .null := fun hk => hopen (.inr (.self (hk ▸ hb.has.hasKind)))
  induction ha generalizing u b with
  | null hk =>
    exact .null hk ((hb.isReference_eq hbounds hg).symm.trans (isReference_of_below hab))
  | @var t v a hk _ hlt hbound ih =>
    have href := hbound.isReference_eq hbounds hg
    rw [← isReference_eq_kind hg.pool (hg.bound _), hbounds v hlt] at href
    refine .bound hk ?_ hnull hb.kind_ne_lub (ih hopen hb hab hnull)
    exact (hb.isReference_eq hbounds hg).symm.trans ((isReference_of_below hab).trans href)
  | prim hk =>
    cases hab with
    | refl => exact hk.inj (hb.hasKind_of_prim hbounds hg) ▸ .refl
  | @array t x a hk helem ih =>
    cases hb with
    | array hku hb' =>
      have helem_open : ¬ ts.IsOpen _ := fun h => hopen (h.of_elem hku)
      refine subtypeOf_array hbounds hg hk hku helem hb' hab fun hab' => ih helem_open hb' hab' ?_
      exact fun hk' => helem_open (.inr (.self (hk' ▸ hb'.has.hasKind)))
    | var hku _ _ _ => exact absurd (.inl ⟨_, .self hku⟩) hopen
    | raw hku | inst hku =>
      cases hab with
      | array => exact .array hk (congrArg TypeKind.class? hku.kind_eq)
    | prim hku | null hku => cases hab
  | raw hk | inst hk =>
    cases hb with
    | raw hku | inst hku =>
      refine .inherits (congrArg TypeKind.class? hk.kind_eq)
        (congrArg TypeKind.class? hku.kind_eq) ?_
      cases hab with
      | refl => exact .refl
      | inherits hinherits => exact hinherits
    | var hku _ _ _ => exact absurd (.inl ⟨_, .self hku⟩) hopen
    | prim hku | null hku | array hku _ => cases hab

/-- A type is a subtype of what it climbs to, if its outline is below. -/
theorem Climbs.subtypeOf (h : ts.Climbs t u) (ha : ts.HasOutline V t a) (hb : ts.HasOutline V u b)
    (hab : a.Below ts.Inherits b) : ts.SubtypeOf t u := by
  have hrefu := hb.isReference_eq hbounds hg
  induction h generalizing a b with
  | refl => exact .refl
  | closed hopen => exact subtypeOf_of_not_isOpen hbounds hg hopen ha hb hab
  | null hk =>
    refine .null hk (hrefu.symm.trans ((isReference_of_below hab).trans ?_))
    rw [ha.of_null hk]
    rfl
  | bound hk hnull _ ih =>
    have href := ha.isReference_eq hbounds hg
    rw [show ts.kind _ = _ from hk.kind_eq] at href
    exact .bound hk (hrefu.symm.trans ((isReference_of_below hab).trans href)) hnull
      hb.kind_ne_lub (ih (ha.of_var hk).2 hb hab hrefu)
  | elems hkt hku _ ih =>
    obtain ⟨a', rfl, ha'⟩ := ha.of_array hkt
    obtain ⟨b', rfl, hb'⟩ := hb.of_array hku
    exact subtypeOf_array hbounds hg hkt hku ha' hb' hab fun hab' =>
      ih ha' hb' hab' (hb'.isReference_eq hbounds hg)

end

section

variable (h : ts.WellFormed) (hbounds : ts.BoundsReferences) (ha : ts.HasOutline V t a)
  (hb : ts.HasOutline V u b)
include h hbounds ha hb

/-- A type is a subtype of another exactly if its outline is below and it climbs to it. -/
theorem isSubtype_iff_climbs :
    ts.isSubtype t u = true ↔ a.Below ts.Inherits b ∧ ts.Climbs t u := by
  rw [isSubtype_iff_subtypeOf h ha.has hb.has]
  refine ⟨fun htu => ⟨htu.outline_below hbounds h.toGrounded ha hb, htu.climbs ha hb⟩, ?_⟩
  exact fun ⟨hab, hclimbs⟩ => hclimbs.subtypeOf hbounds h.toGrounded ha hb hab

/-- A type is assignable to another exactly if its outline fits and it climbs to it. -/
theorem isAssignable_iff_climbs :
    ts.isAssignable t u = true ↔ a.Fits ts.Inherits b ∧ ts.Climbs t u := by
  constructor
  case mp =>
    intro htu
    refine ⟨fits_of_isAssignable h hbounds ha hb htu, ?_⟩
    rcases (isAssignable_iff h ha.has hb.has).mp htu with ⟨p, q, -, hq, -⟩ | htu
    · have hu : ts.pool.HasKind u (.prim q) := hq ▸ hb.has.hasKind
      exact .closed (not_isOpen_of_prim hu)
    · exact ((isSubtype_iff_climbs h hbounds ha hb).mp htu).2
  case mpr =>
    rintro ⟨hfits, hclimbs⟩
    rw [isAssignable_iff h ha.has hb.has]
    cases hfits with
    | widens hw =>
      exact .inl ⟨_, _, (ha.hasKind_of_prim hbounds h.toGrounded).kind_eq,
        (hb.hasKind_of_prim hbounds h.toGrounded).kind_eq, hw⟩
    | below hab => exact .inr ((isSubtype_iff_climbs h hbounds ha hb).mpr ⟨hab, hclimbs⟩)

end

/-! ### Erased types -/

/-- If nothing is bounded by the null type, only the null type has its outline. -/
theorem HasOutline.hasKind_null (hg : ts.Grounded)
    (hnull : ∀ v, v.index < ts.typeVars.size → (ts.typeVar v).bound ≠ .null)
    (h : ts.HasOutline V t .null) : ts.pool.HasKind t .null := by
  generalize ha : Shape.null = a at h
  induction h with
  | null hk => exact hk
  | var _ _ hlt _ ih => exact absurd ((ih ha).inj hg.pool.null) (hnull _ hlt)
  | prim _ | raw _ | inst _ | array _ _ _ => cases ha

/-- No erased type climbs to a variable or an array of one that has its outline. -/
theorem not_climbs_of_hasShape (hg : ts.Grounded)
    (hnull : ∀ v, v.index < ts.typeVars.size → (ts.typeVar v).bound ≠ .null) {v : TypeVarId}
    (hv : ts.UnderArrays u (.var v)) (hu : ts.HasOutline V u a) (ht : ts.pool.HasShape t a) :
    ¬ ts.Climbs t u := by
  generalize hk' : TypeKind.var v = k at hv
  induction hv generalizing t a with
  | self hk =>
    subst hk'
    obtain ⟨hlt, hbound⟩ := hu.of_var hk
    intro hclimbs
    cases hclimbs with
    | refl => cases ht with | prim hk' | null hk' | raw hk' | array hk' _ => cases hk.unique hk'
    | closed hopen => exact hopen (.inl ⟨v, .self hk⟩)
    | null hkt =>
      cases ht with
      | null _ => exact hnull v hlt ((hbound.hasKind_null hg hnull).inj hg.pool.null)
      | prim hk' | raw hk' | array hk' _ => cases hkt.unique hk'
    | bound hkt _ _ =>
      cases ht with | prim hk' | null hk' | raw hk' | array hk' _ => cases hkt.unique hk'
    | elems _ hku _ => cases hk.unique hku
  | array hk hunder ih =>
    subst hk'
    obtain ⟨a', rfl, hu'⟩ := hu.of_array hk
    cases ht with
    | array hkt ht' =>
      intro hclimbs
      cases hclimbs with
      | refl =>
        cases hk.unique hkt
        exact ih hu' ht' rfl .refl
      | closed hopen => exact hopen (.inl ⟨v, .array hk hunder⟩)
      | null hk' | bound hk' _ _ => cases hkt.unique hk'
      | elems hkt' hku hclimbs' =>
        cases hkt.unique hkt'
        cases hk.unique hku
        exact ih hu' ht' rfl hclimbs'

end Erasure.TypeSystem
