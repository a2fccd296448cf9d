/-
A join is a minimal upper bound.

Types whose bounds, elements and candidates are references and whose classes extend the root class
are below the root class, and below every class in the closure of their erasure. The main
statements:

* `IsRooted.subtypeOf_raw`: such a type has a derivation below every class in its closure.
* `JoinsTo.subtypeOf`: the types joined are below the type of the form of their join.
* `isMinimalSupertype_iff`: the minimal common supertypes of class types are their nearest classes.
* `isSubtype_join`: what `join` answers is an upper bound, and that of class types is a minimal one,
  which is no interface unless all minimal ones are.
-/
import Erasure.Proofs.Joins.CommonClass
import Erasure.Proofs.Joins.Rules
import Erasure.Proofs.Subtyping.Derivation

namespace Erasure.TypeSystem

variable {ts us : TypeSystem} {ty u j : TypeId} {tys : List TypeId} {form : JoinForm}
  {b c d : ClassId}

/-! ### Rooted types -/

/-- The upper bounds that the type leads to are those of references. -/
def JoinsReferencesOnly (ts : TypeSystem) (ty : TypeId) : Prop :=
  ∀ {u l}, Relation.ReflTransGen ts.LooksInto ty u → ts.pool.HasKind u (.lub l) →
    ∀ c ∈ ts.pool.candidates l, ts.isReference c = true

/-- A reference type whose bounds, candidates and elements, as far as these are no primitive types,
lead to the null type or to classes that extend the root class. -/
inductive IsRooted (ts : TypeSystem) : TypeId → Prop
  | null {ty : TypeId} : ts.pool.HasKind ty .null → IsRooted ts ty
  | array {ty elem : TypeId} : ts.pool.HasKind ty (.array elem) →
      (ts.isReference elem = true → IsRooted ts elem) → IsRooted ts ty
  | ofClass {ty : TypeId} {c : ClassId} : ts.classOf? ty = some c → ts.ExtendsRoot c →
      IsRooted ts ty
  | var {ty : TypeId} {v : TypeVarId} : ts.pool.HasKind ty (.var v) →
      ts.boundErasure ty = ts.boundErasure (ts.typeVar v).bound →
      IsRooted ts (ts.typeVar v).bound → IsRooted ts ty
  | lub {ty : TypeId} {l : LubId} : ts.pool.HasKind ty (.lub l) →
      (∀ u ∈ ts.pool.candidates l, IsRooted ts u) → IsRooted ts ty

theorem IsRooted.isReference_kind (h : ts.IsRooted ty) : (ts.kind ty).isReference = true := by
  cases h with
  | null hk | array hk _ | var hk _ _ | lub hk _ => rw [kind, hk.kind_eq]; rfl
  | ofClass hc _ =>
    rw [classOf?] at hc
    cases hk : ts.kind ty with
    | prim _ => simp [hk, TypeKind.class?] at hc
    | null | array _ | raw _ | var _ | inst _ _ _ | lub _ => rfl

theorem IsRooted.has (h : ts.IsRooted ty) : ts.pool.Has ty := by
  cases h with
  | null hk | array hk _ | var hk _ _ | lub hk _ => exact hk.has
  | ofClass hc _ => exact has_of_classOf? hc

theorem IsRooted.elem (h : ts.IsRooted ty) (hk : ts.kind ty = .array u)
    (href : ts.isReference u = true) : ts.IsRooted u := by
  have hk' : ts.pool.HasKind ty (.array u) := hk ▸ h.has.hasKind
  cases h with
  | array hk'' helem =>
    cases hk'.unique hk''
    exact helem href
  | null hk'' | var hk'' _ _ | lub hk'' _ => cases hk'.unique hk''
  | ofClass hc _ => simp [classOf?, hk, TypeKind.class?] at hc

theorem IsRooted.of_extends (hts : ts.Valid) (h : ts.WellFormed) (hext : Extends ts us)
    (hty : ts.IsRooted ty) : us.IsRooted ty := by
  induction hty with
  | null hk => exact .null (hk.of_le hext.le.1)
  | array hk _ ih =>
    have helem := hts.pool.has_part hk List.mem_cons_self
    refine .array (hk.of_le hext.le.1) fun href => ih ?_
    rwa [(hext.preserves hts).isReference_eq helem] at href
  | ofClass hc hroot =>
    refine .ofClass ((classOf?_of_le hext.le (has_of_classOf? hc)).trans hc) ?_
    rwa [ExtendsRoot, h.inherits_eq hext]
  | @var _ v hk hbound _ ih =>
    rw [← hext.typeVar_eq] at ih
    refine .var (hk.of_le hext.le.1) ?_ ih
    rw [hext.typeVar_eq, hext.boundErasure_eq hts hk.has, hext.boundErasure_eq hts (hts.bound v),
      hbound]
  | lub hk _ ih =>
    refine .lub (hk.of_le hext.le.1) fun u hu => ih u ?_
    rwa [candidates_of_le hts hext.le hk.has hk.kind_eq] at hu

/-- In a type system whose classes extend the root class and whose bounds are references, reference
types are rooted, if the upper bounds that they lead to are those of references. -/
theorem Rooted.isRooted (hts : ts.Valid) (hacyclic : ts.AcyclicBounds) (h : ts.Rooted)
    (hty : ts.pool.Has ty) (href : ts.isReference ty = true) (hjoins : ts.JoinsReferencesOnly ty) :
    ts.IsRooted ty := by
  induction hn : ts.rank ty using Nat.strongRecOn generalizing ty with
  | ind n ih =>
    have hpart : ∀ {u}, ts.LooksInto ty u → ts.isReference u = true → ts.IsRooted u :=
      fun hstep href =>
        ih _ (hn ▸ rank_lt hts.grounded hacyclic hstep) (hstep.has hts.grounded) href
          (fun hu hk => hjoins (.head hstep hu) hk) rfl
    have hkind := hty.hasKind
    cases hk : ts.pool.kind ty with rw [hk] at hkind
    | prim r => exact absurd hk ((isReference_iff hts hty).mp href r)
    | null => exact .null hkind
    | array elem => exact .array hkind (hpart (.elem hkind))
    | raw c | inst c _ _ =>
      have hc : ts.classOf? ty = some c := by rw [classOf?, kind, hk]; rfl
      exact .ofClass hc (h.root c ⟨ty, hty, hc⟩)
    | var v =>
      exact .var hkind (boundErasure_var_of_declared hts hacyclic hkind fun _ hk => h.vars hk)
        (hpart (.bound hkind) (h.bound v (h.vars hkind)))
    | lub l =>
      exact .lub hkind fun u hu => hpart (.candidate hkind hu) (hjoins .refl hkind u hu)

/-! ### Below a class -/

theorem classOf?_raw (hk : ts.pool.HasKind ty (.raw c)) : ts.classOf? ty = some c := by
  rw [classOf?, kind, hk.kind_eq]
  rfl

theorem erasedClosure_of_classOf? (hc : ts.classOf? ty = some c) :
    ts.erasedClosure ty = ts.classClosure c := by
  rw [erasedClosure_of_ne_var fun v hk => by simp [classOf?, hk, TypeKind.class?] at hc, hc]

theorem erasedClosure_of_classOf?_eq_none (hvar : ∀ v, ts.kind ty ≠ .var v)
    (hc : ts.classOf? ty = none) : ts.erasedClosure ty = [.object] := by
  rw [erasedClosure_of_ne_var hvar, hc]

/-- The root class is above every rooted type. -/
theorem IsRooted.object_mem_erasedClosure (h : ts.IsRooted ty) : .object ∈ ts.erasedClosure ty := by
  induction h with
  | null hk | array hk _ _ | lub hk _ _ =>
    have hkind : ts.kind _ = _ := hk.kind_eq
    rw [erasedClosure_of_classOf?_eq_none (by simp [hkind]) (by rw [classOf?, hkind]; rfl)]
    exact List.mem_cons_self
  | ofClass hc hroot =>
    rw [erasedClosure_of_classOf? hc]
    exact mem_classClosure_iff.mpr hroot
  | var _ hbound _ ih => rwa [erasedClosure, hbound]

section Raw

variable (hobject : ts.pool.HasKind .object (.raw .object))
include hobject

/-- A rooted type is below the root class. -/
theorem IsRooted.subtypeOf_object (h : ts.IsRooted ty) : ts.SubtypeOf ty .object := by
  have hkind : ts.kind .object = .raw .object := hobject.kind_eq
  have hroot : ts.classOf? .object = some .object := by rw [classOf?, hkind]; rfl
  have href : (ts.kind .object).isReference = true := by rw [hkind]; rfl
  induction h with
  | null hk => exact .null hk href
  | array hk _ _ => exact .array hk hroot
  | ofClass hc hextends => exact .inherits hc hroot hextends
  | var hk _ _ ih => exact .bound hk href (by simp [hkind]) (by simp [hkind]) ih
  | lub hk _ ih => exact .candidates hk href (by simp [hkind]) ih

/-- A rooted type is below each class in the closure of its erasure. -/
theorem IsRooted.subtypeOf_raw (h : ts.IsRooted ty) (hu : ts.pool.HasKind u (.raw c))
    (hc : c ∈ ts.erasedClosure ty) : ts.SubtypeOf ty u := by
  have hkind : ts.kind u = .raw c := hu.kind_eq
  have hroot : ∀ {t}, ts.IsRooted t → (∀ v, ts.kind t ≠ .var v) → ts.classOf? t = none →
      c ∈ ts.erasedClosure t → ts.SubtypeOf t u := by
    intro t ht hvar hclass hc
    rw [erasedClosure_of_classOf?_eq_none hvar hclass] at hc
    obtain rfl := List.mem_singleton.mp hc
    exact hu.inj hobject ▸ ht.subtypeOf_object hobject
  induction h with
  | null hk =>
    exact hroot (.null hk) (by simp [kind, hk.kind_eq]) (by rw [classOf?, kind, hk.kind_eq]; rfl) hc
  | array hk helem _ =>
    exact hroot (.array hk helem) (by simp [kind, hk.kind_eq])
      (by rw [classOf?, kind, hk.kind_eq]; rfl) hc
  | lub hk hcandidates _ =>
    exact hroot (.lub hk hcandidates) (by simp [kind, hk.kind_eq])
      (by rw [classOf?, kind, hk.kind_eq]; rfl) hc
  | ofClass hclass _ =>
    rw [erasedClosure_of_classOf? hclass] at hc
    exact .inherits hclass (by rw [classOf?, hkind]; rfl) (mem_classClosure_iff.mp hc)
  | var hk hbound _ ih =>
    rw [erasedClosure, hbound] at hc
    exact .bound hk (by rw [hkind]; rfl) (by simp [hkind]) (by simp [hkind]) (ih hc)

end Raw

/-! ### The join is above -/

/-- What is above a reference type is a reference type. -/
theorem SubtypeOf.isReference_kind (h : ts.SubtypeOf ty u)
    (href : (ts.kind ty).isReference = true) : (ts.kind u).isReference = true := by
  cases h with
  | refl => exact href
  | null _ hu | candidates _ hu _ _ | bound _ hu _ _ _ => exact hu
  | candidate hk _ _ _ _ _ | elems _ hk _ _ _ => rw [kind, hk.kind_eq]; rfl
  | array _ hc | inherits _ hc _ =>
    rw [classOf?] at hc
    cases hk : ts.kind u with
    | prim _ => simp [hk, TypeKind.class?] at hc
    | null | array _ | raw _ | var _ | inst _ _ _ | lub _ => rfl

/-- What the candidates that count are below, of which there is one, the null type is below as
well. -/
theorem subtypeOf_of_nonNull (hnull : ts.pool.HasKind .null .null)
    (hrooted : ∀ t ∈ tys, ts.IsRooted t) (hu : u ∈ nonNull tys)
    (h : ∀ t ∈ nonNull tys, ts.SubtypeOf t j) : ∀ t ∈ tys, ts.SubtypeOf t j := by
  intro t ht
  by_cases heq : t = .null
  · exact .null (heq ▸ hnull)
      ((h u hu).isReference_kind (hrooted u (mem_nonNull.mp hu).1).isReference_kind)
  · exact h t (mem_nonNull.mpr ⟨ht, heq⟩)

/-- Rooted types are below the type of the form of their join. -/
theorem JoinsTo.subtypeOf (hts : ts.Valid) (h : ts.JoinsTo tys form)
    (hrooted : ∀ t ∈ tys, ts.IsRooted t) (hj : HasForm ts.pool j form) :
    ∀ t ∈ tys, ts.SubtypeOf t j := by
  have hobject : ∀ {tys : List TypeId}, (∀ t ∈ tys, ts.IsRooted t) →
      ∀ t ∈ tys, ts.SubtypeOf t .object :=
    fun hrooted t ht => (hrooted t ht).subtypeOf_object hts.object
  induction h generalizing j with
  | null hnil =>
    cases hj
    exact fun t ht => eq_null_of_nonNull_eq_nil hnil t ht ▸ .refl
  | same hfirst hall =>
    cases hj
    exact subtypeOf_of_nonNull hts.pool.null hrooted hfirst fun t ht => hall t ht ▸ .refl
  | @elems tys elems _ hdiffer helems hrefs _ ih =>
    obtain ⟨first, hfirst, -⟩ := hdiffer
    have hparts : ∀ e ∈ elems, ts.IsRooted e := by
      intro e he
      obtain ⟨t, ht, hk⟩ := (mem_of_arrayElements? helems).mp he
      exact (hrooted t (mem_nonNull.mp ht).1).elem hk (hrefs e he)
    refine subtypeOf_of_nonNull hts.pool.null hrooted hfirst fun t ht => ?_
    obtain ⟨e, he, hk⟩ := exists_elem_of_mem_arrayElements? helems t ht
    cases hj with
    | array hkj hform =>
      have hsub := ih hparts hform e he
      have href := (hparts e he).isReference_kind
      exact .elems (hk ▸ (hrooted t (mem_nonNull.mp ht).1).has.hasKind) hkj href
        (hsub.isReference_kind href) hsub
  | arrays _ _ _ _ | root _ _ _ =>
    cases hj
    exact hobject hrooted
  | common hdiffer _ hcommon =>
    obtain ⟨first, hfirst, -⟩ := hdiffer
    refine subtypeOf_of_nonNull hts.pool.null hrooted hfirst fun t ht => ?_
    cases hj with
    | raw hk =>
      have hc := (isPreferred_of_commonClass? hcommon).above t ht
      exact (hrooted t (mem_nonNull.mp ht).1).subtypeOf_raw hts.object hk hc

/-! ### Minimal supertypes -/

/-- Asks whether a type is a subtype of a class. -/
def askBelow (ty : TypeId) (c : ClassId) : StateM TypeSystem Bool := do
  let u ← liftM (Pool.rawClass c)
  return (← get).isSubtype ty u

/-- Asks whether a class is a subtype of another. -/
def askClassBelow (c d : ClassId) : StateM TypeSystem Bool := do
  askBelow (← liftM (Pool.rawClass c)) d

/-- The class is a supertype of all the types, and no other such class is a subtype of it. -/
structure IsMinimalSupertype (ts : TypeSystem) (tys : List TypeId) (c : ClassId) : Prop where
  above : ∀ t ∈ tys, (askBelow t c ts).1 = true
  minimal : ∀ d, (∀ t ∈ tys, (askBelow t d ts).1 = true) → d ≠ c → (askClassBelow d c ts).1 = false

/-- A class type is a subtype of the classes that its class inherits from. -/
theorem askBelow_iff (hts : ts.Valid) (h : ts.WellFormed) (hty : ts.classOf? ty = some b) :
    (askBelow ty c ts).1 = true ↔ c ∈ ts.classClosure b := by
  have hraw := lift_computes hts (Pool.rawClass_computes hts.pool c)
  have hext : Extends ts _ := hraw.grows
  have hhas := has_of_classOf? hty
  have hclass := classOf?_raw hraw.post
  rw [askBelow, bind_apply, get_bind_apply, pure_apply, mem_classClosure_iff, ← h.inherits_eq hext]
  exact isSubtype_class_iff (h.of_extends hext hraw.valid.pool) (hhas.of_le hext.le.1)
    hraw.post.has ((classOf?_of_le hext.le hhas).trans hty) hclass

theorem askClassBelow_iff (hts : ts.Valid) (h : ts.WellFormed) :
    (askClassBelow d c ts).1 = true ↔ c ∈ ts.classClosure d := by
  have hraw := lift_computes hts (Pool.rawClass_computes hts.pool d)
  have hext : Extends ts _ := hraw.grows
  have hclass := classOf?_raw hraw.post
  rw [askClassBelow, bind_apply, askBelow_iff hraw.valid (h.of_extends hext hraw.valid.pool) hclass,
    hext.classClosure_eq hts]

/-- The minimal common supertypes of class types are their nearest classes. -/
theorem isMinimalSupertype_iff (hts : ts.Valid) (h : ts.WellFormed)
    (hclasses : ∀ t ∈ tys, (ts.classOf? t).isSome) :
    ts.IsMinimalSupertype tys c ↔ ts.IsNearest tys c := by
  have habove : ∀ d, (∀ t ∈ tys, (askBelow t d ts).1 = true) ↔ ts.IsCommon tys d := by
    refine fun d => forall₂_congr fun t ht => ?_
    obtain ⟨b, hb⟩ := Option.isSome_iff_exists.mp (hclasses t ht)
    rw [askBelow_iff hts h hb, erasedClosure_of_classOf? hb]
  have hbelow : ∀ d, (askClassBelow d c ts).1 = false ↔ c ∉ ts.classClosure d := fun d => by
    rw [← askClassBelow_iff hts h, Bool.not_eq_true]
  constructor
  · rintro ⟨hc, hminimal⟩
    refine ⟨(habove c).mp hc, fun d hd hcd => ?_⟩
    by_contra hne
    exact (hbelow d).mp (hminimal d ((habove d).mpr hd) hne) hcd
  · rintro ⟨hc, heq⟩
    refine ⟨(habove c).mpr hc, fun d hd hne => (hbelow d).mpr fun hcd => ?_⟩
    exact hne (heq d ((habove d).mp hd) hcd)

/-! ### What is answered -/

/-- The join of reference types is a supertype of all of them. That of class types which are not all
one type is a raw class, a minimal one among the classes that are supertypes of all of them, and no
interface if another minimal one is none. -/
theorem isSubtype_join (hts : ts.Valid) (h : ts.WellFormed) (hrooted : ts.Rooted)
    (hclasses : ∀ c, ¬ Relation.TransGen ts.Inherits c c) (hhas : ∀ t ∈ tys, ts.pool.Has t)
    (hrefs : ∀ t ∈ tys, ts.isReference t = true) (hjoins : ∀ t ∈ tys, ts.JoinsReferencesOnly t) :
    let r := (join tys ts).1
    let us := (join tys ts).2
    (∀ t ∈ tys, us.isSubtype t r = true) ∧
      ((∀ t ∈ tys, (ts.classOf? t).isSome) → (∃ t ∈ tys, ∃ u ∈ tys, t ≠ u) →
        ∃ c, us.pool.HasKind r (.raw c) ∧ ts.IsMinimalSupertype tys c ∧
          ((∃ d, ts.IsMinimalSupertype tys d ∧ ts.isInterface d = false) →
            ts.isInterface c = false)) := by
  have hjoin := join_keeps hts hhas hrefs
  obtain ⟨form, hform, hr⟩ := hjoin.post
  have hext : Extends ts _ := hjoin.grows
  have hform' := (joinsTo_iff_of_extends hts hhas hrefs hjoin.valid hext).mpr hform
  have hrooted' : ∀ t ∈ tys, ts.IsRooted t := fun t ht =>
    hrooted.isRooted hts h.acyclic (hhas t ht) (hrefs t ht) (hjoins t ht)
  refine ⟨fun t ht => ?_, fun hclass hdiffer => ?_⟩
  · have hsub := hform'.subtypeOf hjoin.valid
      (fun t ht => (hrooted' t ht).of_extends hts h hext) hr t ht
    exact hsub.isSubtype (h.of_extends hext hjoin.valid.pool) ((hhas t ht).of_le hext.le.1) hr.has
  · have hnonNull := nonNull_eq_self hts hclass
    obtain ⟨t, ht, u, hu, hne⟩ := hdiffer
    obtain ⟨b, hb⟩ := Option.isSome_iff_exists.mp (hclass t ht)
    have hcommon : ts.IsCommon tys .object := fun t ht => (hrooted' t ht).object_mem_erasedClosure
    obtain ⟨c, hc⟩ := exists_commonClass? hclasses (List.ne_nil_of_mem ht) hcommon
    have hraw := hform.of_common ⟨t, hnonNull.symm ▸ ht, u, hnonNull.symm ▸ hu, hne⟩
      (hnonNull.symm ▸ arrayElements?_eq_none_of_class ht hb)
    rw [hnonNull, hc] at hraw
    obtain rfl : form = .raw c := hraw
    have hpreferred := isPreferred_of_commonClass? hc
    cases hr with
    | raw hk =>
      simp only [isMinimalSupertype_iff hts h hclass]
      exact ⟨c, hk, hpreferred.toIsNearest, hpreferred.isInterface⟩

end Erasure.TypeSystem

namespace Erasure.Canonicalizer

/-- A session in which `Cube` extends `Solid`, which extends `Body`, and `Ball` extends `Body`; both
implement the interface `Shape`. -/
def kinSession : Canonicalizer :=
  let s := (fresh .initial).declared (.declareClass "Shape" { isInterface := true })
  let s := (s.declared (.declareClass "Body" {})).declared (.declareClass "Solid" {})
  let s := (s.declared (.declareClass "Cube" {})).declared (.declareClass "Ball" {})
  let s := ((s.asked (.rawClass ⟨2⟩)).asked (.rawClass ⟨3⟩)).asked (.rawClass ⟨4⟩)
  let s := (s.asked (.rawClass ⟨5⟩)).asked (.rawClass ⟨6⟩)
  let s := (s.declared (.setSuperclass ⟨4⟩ ⟨14⟩)).declared (.setSuperclass ⟨5⟩ ⟨15⟩)
  let s := (s.declared (.addInterface ⟨5⟩ ⟨13⟩)).declared (.setSuperclass ⟨6⟩ ⟨14⟩)
  s.declared (.addInterface ⟨6⟩ ⟨13⟩)

theorem kinSession_reachable : Reachable kinSession := by
  refine .declare _ (.declare _ (.declare _ (.declare _ (.declare _ (.ask _ (.ask _ (.ask _ (.ask _
    (.ask _ (.declare _ (.declare _ (.declare _ (.declare _ (.declare _ .initial ?_) ?_) ?_) ?_) ?_)
    ?_) ?_) ?_) ?_) ?_) ?_) ?_) ?_) ?_) ?_
  iterate 10 exact trivial
  all_goals
    unfold TypeSystem.Declaration.Admitted
    decide +kernel

theorem kinSession_isSoundKind : ∀ i < kinSession.types.pool.size,
    kinSession.types.isSoundKind (kinSession.types.kind ⟨i⟩) = true := by decide +kernel

theorem kinSession_wellFormed : kinSession.types.WellFormed :=
  kinSession_reachable.valid.types.wellFormed (by decide +kernel)

theorem kinSession_rooted : kinSession.types.Rooted :=
  TypeSystem.rooted_of_isSoundKind kinSession_isSoundKind (by decide +kernel)

/-- Both `Shape`, which is looked at first, and `Body` are nearest to `Cube` and `Ball`, and their
join is the one that is no interface. -/
theorem isSubtype_join_kin :
    let r := (TypeSystem.join [⟨16⟩, ⟨17⟩] kinSession.types).1
    let us := (TypeSystem.join [⟨16⟩, ⟨17⟩] kinSession.types).2
    kinSession.types.nearestClasses [⟨16⟩, ⟨17⟩] = [⟨2⟩, ⟨3⟩] ∧
      us.isSubtype ⟨16⟩ r = true ∧ us.isSubtype ⟨17⟩ r = true ∧
      ∃ c, us.pool.HasKind r (.raw c) ∧
        kinSession.types.IsMinimalSupertype [⟨16⟩, ⟨17⟩] c ∧
        kinSession.types.isInterface c = false := by
  intro r us
  have hts := kinSession_reachable.valid.types
  have hnearest : kinSession.types.nearestClasses [⟨16⟩, ⟨17⟩] = [⟨2⟩, ⟨3⟩] := by decide +kernel
  have hclass : ∀ t ∈ ([⟨16⟩, ⟨17⟩] : List TypeId), (kinSession.types.classOf? t).isSome := by
    decide +kernel
  have hrefs : ∀ t ∈ ([⟨16⟩, ⟨17⟩] : List TypeId), kinSession.types.isReference t = true := by
    decide +kernel
  have hjoins := TypeSystem.joinsReferences_of_isSoundKind kinSession_isSoundKind
  obtain ⟨habove, hminimal⟩ := TypeSystem.isSubtype_join hts kinSession_wellFormed kinSession_rooted
    (TypeSystem.not_inherits_self (by decide +kernel)) (by decide +kernel) hrefs
    fun t _ _ _ hu hk => (hjoins t hu hk).2
  obtain ⟨c, hk, hc, hinterface⟩ := hminimal hclass ⟨⟨16⟩, by decide, ⟨17⟩, by decide, by decide⟩
  refine ⟨hnearest, habove _ (by decide), habove _ (by decide), c, hk, hc, hinterface ⟨⟨3⟩, ?_, ?_⟩⟩
  · rw [TypeSystem.isMinimalSupertype_iff hts kinSession_wellFormed hclass,
      ← TypeSystem.mem_nearestClasses (by decide), hnearest]
    decide
  · decide +kernel

end Erasure.Canonicalizer
