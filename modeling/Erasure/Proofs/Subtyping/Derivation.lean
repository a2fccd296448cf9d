/-
Subtyping by derivation.

The subtyping test is a procedure. `SubtypeOf` is the relation that it decides, with one rule for
each way in which a test succeeds, so that facts about subtyping go by induction on a derivation.
The main statements:

* `isSubtype_iff_subtypeOf`: the test succeeds for exactly the pairs that have a derivation.
* `isSubtype_of_mirrors`: types that are built alike in two type systems relate alike.
-/
import Erasure.Proofs.Canonical.Addition
import Erasure.Proofs.Pool.Correspondence
import Erasure.Proofs.Subtyping.Preorder

namespace Erasure

/-! ### Kinds of one form -/

namespace Pool

variable {p q : Pool} {R : TypeId → TypeId → Prop} {k l : TypeKind}

theorem SameForm.isReference_eq (h : SameForm p q R k l) : l.isReference = k.isReference := by
  cases h <;> rfl

theorem SameForm.class?_eq (h : SameForm p q R k l) : l.class? = k.class? := by
  cases h <;> rfl

theorem SameForm.eq_null (h : SameForm p q R k l) (hl : l = .null) : k = .null := by
  subst hl
  cases h
  rfl

theorem SameForm.exists_lub {m' : LubId} (h : SameForm p q R k l) (hl : l = .lub m') :
    ∃ m, k = .lub m := by
  subst hl
  cases h
  exact ⟨_, rfl⟩

theorem Mirrors.of_hasKind (hp : p.Valid) {t u : TypeId} (h : p.Mirrors q t u)
    (hk : p.HasKind t k) : ∃ l, q.HasKind u l ∧ SameForm p q (p.Mirrors q) k l := by
  obtain ⟨k', l, hk', hl, hform⟩ := (mirrors_iff hp).mp h
  exact ⟨l, hl, hk.unique hk' ▸ hform⟩

theorem Mirrors.kind (hp : p.Valid) {t u : TypeId} (h : p.Mirrors q t u) :
    SameForm p q (p.Mirrors q) (p.kind t) (q.kind u) := by
  obtain ⟨k, l, hk, hl, hform⟩ := (mirrors_iff hp).mp h
  exact hk.kind_eq ▸ hl.kind_eq ▸ hform

end Pool

namespace TypeSystem

variable {ts us vs : TypeSystem} {t u : TypeId}

/-! ### Derivations -/

/-- The rules of subtyping. Where several of them could apply, the conditions on the other type
leave the one that the test tries. -/
inductive SubtypeOf (ts : TypeSystem) : TypeId → TypeId → Prop
  | refl {t : TypeId} : SubtypeOf ts t t
  | null {t u : TypeId} : ts.pool.HasKind t .null → (ts.kind u).isReference = true →
      SubtypeOf ts t u
  | candidates {t u : TypeId} {l : LubId} : ts.pool.HasKind t (.lub l) →
      (ts.kind u).isReference = true → ts.kind u ≠ .null →
      (∀ c ∈ ts.pool.candidates l, SubtypeOf ts c u) → SubtypeOf ts t u
  | candidate {t u c : TypeId} {l : LubId} : ts.pool.HasKind u (.lub l) →
      (ts.kind t).isReference = true → ts.kind t ≠ .null → (∀ m, ts.kind t ≠ .lub m) →
      c ∈ ts.pool.candidates l → SubtypeOf ts t c → SubtypeOf ts t u
  | bound {t u : TypeId} {v : TypeVarId} : ts.pool.HasKind t (.var v) →
      (ts.kind u).isReference = true → ts.kind u ≠ .null → (∀ l, ts.kind u ≠ .lub l) →
      SubtypeOf ts (ts.typeVar v).bound u → SubtypeOf ts t u
  | elems {t u a b : TypeId} : ts.pool.HasKind t (.array a) → ts.pool.HasKind u (.array b) →
      (ts.kind a).isReference = true → (ts.kind b).isReference = true → SubtypeOf ts a b →
      SubtypeOf ts t u
  | array {t u a : TypeId} : ts.pool.HasKind t (.array a) → ts.classOf? u = some .object →
      SubtypeOf ts t u
  | inherits {t u : TypeId} {b c : ClassId} : ts.classOf? t = some b → ts.classOf? u = some c →
      Relation.ReflTransGen ts.Inherits b c → SubtypeOf ts t u

/-- What has a derivation the test finds. -/
theorem SubtypeOf.isSubtype (h : ts.WellFormed) (htu : ts.SubtypeOf t u) (ht : ts.pool.Has t)
    (hu : ts.pool.Has u) : ts.isSubtype t u = true := by
  induction htu with
  | refl => exact isSubtype_self ts _
  | null hk href => exact (isSubtype_null_iff h ht hu hk.kind_eq).mpr href
  | candidates hk href hnull _ ih =>
    refine (isSubtype_lub_iff h ht hu hk.kind_eq href hnull).mpr (.inr fun c hc => ?_)
    exact ih c hc (h.pool.has_part hk hc) hu
  | candidate hk href hnull hlub hc _ ih =>
    exact (isSubtype_to_lub_iff h ht hu hk.kind_eq href hnull hlub).mpr
      ⟨_, hc, ih ht (h.pool.has_part hk hc)⟩
  | bound hk href hnull hlub _ ih =>
    exact (isSubtype_var_iff h ht hu hk.kind_eq href hnull hlub).mpr (.inr (ih (h.bound _) hu))
  | elems hkt hku ha hb _ ih =>
    have hsub := ih (h.pool.has_part hkt List.mem_cons_self)
      (h.pool.has_part hku List.mem_cons_self)
    exact (isSubtype_array_iff h ht hu hkt.kind_eq hku.kind_eq).mpr (.inr ⟨ha, hb, hsub⟩)
  | array hk hc => exact (isSubtype_array_class_iff h ht hu hk.kind_eq hc).mpr rfl
  | inherits hb hc hinherits => exact (isSubtype_class_iff h ht hu hb hc).mpr hinherits

/-- A test among arrays and class types succeeds by a rule, if that of the element types does. -/
theorem subtypeOf_of_isArrayOrClass (h : ts.WellFormed) (ht : ts.pool.Has t) (hu : ts.pool.Has u)
    (hkindt : ts.IsArrayOrClass t) (hkindu : ts.IsArrayOrClass u)
    (helems : ∀ a b, ts.pool.HasKind t (.array a) → ts.pool.HasKind u (.array b) →
      ts.isSubtype a b = true → ts.SubtypeOf a b)
    (htu : ts.isSubtype t u = true) : ts.SubtypeOf t u := by
  rcases hkindt with ⟨a, hkt⟩ | ⟨b, hb⟩
  · have hkt' : ts.pool.HasKind t (.array a) := hkt ▸ ht.hasKind
    rcases hkindu with ⟨b, hku⟩ | ⟨c, hc⟩
    · have hku' : ts.pool.HasKind u (.array b) := hku ▸ hu.hasKind
      rcases (isSubtype_array_iff h ht hu hkt hku).mp htu with rfl | ⟨ha, hb, hab⟩
      · exact .refl
      · exact .elems hkt' hku' ha hb (helems a b hkt' hku' hab)
    · obtain rfl := (isSubtype_array_class_iff h ht hu hkt hc).mp htu
      exact .array hkt' hc
  · rcases hkindu with ⟨a, hku⟩ | ⟨c, hc⟩
    · exact absurd htu (not_isSubtype_class_array h ht hu hb hku)
    · exact .inherits hb hc ((isSubtype_class_iff h ht hu hb hc).mp htu)

/-- A test that succeeds does so by a derivation. -/
theorem subtypeOf_of_isSubtype (h : ts.WellFormed) (ht : ts.pool.Has t) (hu : ts.pool.Has u)
    (htu : ts.isSubtype t u = true) : ts.SubtypeOf t u := by
  induction hn : ts.rank t + u.index using Nat.strongRecOn generalizing t u with
  | ind n ih =>
    by_cases hne : t = u
    · exact hne ▸ .refl
    obtain ⟨hreft, hrefu, hnullu⟩ := isReference_of_isSubtype h ht hu hne htu
    have hbelow : ∀ {t' u'}, ts.Compares (t, u) (t', u') → ts.isSubtype t' u' = true →
        ts.SubtypeOf t' u' := by
      intro t' u' hcomp htu'
      obtain ⟨ht', hu'⟩ := hcomp.has h.toGrounded ht hu
      exact ih _ (hn ▸ hcomp.lt h.toGrounded h.acyclic) ht' hu' htu' rfl
    by_cases hnullt : ts.kind t = .null
    · exact .null (hnullt ▸ ht.hasKind) hrefu
    by_cases hlubt : ∃ l, ts.kind t = .lub l
    · obtain ⟨l, hk⟩ := hlubt
      have hkt : ts.pool.HasKind t (.lub l) := hk ▸ ht.hasKind
      have hall := ((isSubtype_lub_iff h ht hu hk hrefu hnullu).mp htu).resolve_left hne
      exact .candidates hkt hrefu hnullu fun c hc => hbelow (.candidates hkt hc) (hall c hc)
    rw [not_exists] at hlubt
    by_cases hlubu : ∃ l, ts.kind u = .lub l
    · obtain ⟨l, hk⟩ := hlubu
      have hku : ts.pool.HasKind u (.lub l) := hk ▸ hu.hasKind
      obtain ⟨c, hc, htc⟩ := (isSubtype_to_lub_iff h ht hu hk hreft hnullt hlubt).mp htu
      exact .candidate hku hreft hnullt hlubt hc (hbelow (.candidate hku hc) htc)
    rw [not_exists] at hlubu
    by_cases hvart : ∃ v, ts.kind t = .var v
    · obtain ⟨v, hk⟩ := hvart
      have hkt : ts.pool.HasKind t (.var v) := hk ▸ ht.hasKind
      have hbound := ((isSubtype_var_iff h ht hu hk hrefu hnullu hlubu).mp htu).resolve_left hne
      exact .bound hkt hrefu hnullu hlubu (hbelow (.bound hkt) hbound)
    rw [not_exists] at hvart
    have hvaru : ∀ v, ts.kind u ≠ .var v := fun v hk =>
      hne ((isSubtype_to_var_iff h ht hu hk hnullt hlubt hvart).mp htu)
    exact subtypeOf_of_isArrayOrClass h ht hu (isArrayOrClass_of_kind_ne hreft hnullt hlubt hvart)
      (isArrayOrClass_of_kind_ne hrefu hnullu hlubu hvaru)
      (fun _ _ hkt hku => hbelow (.elems hkt hku)) htu

/-- The test succeeds for exactly the pairs that have a derivation. -/
theorem isSubtype_iff_subtypeOf (h : ts.WellFormed) (ht : ts.pool.Has t) (hu : ts.pool.Has u) :
    ts.isSubtype t u = true ↔ ts.SubtypeOf t u :=
  ⟨subtypeOf_of_isSubtype h ht hu, fun htu => htu.isSubtype h ht hu⟩

/-! ### Growth -/

/-- Growth without declarations changes nothing about which class inherits from which. -/
theorem WellFormed.inherits_eq (h : ts.WellFormed) (hext : Extends ts us) :
    us.Inherits = ts.Inherits := by
  have hclass : ∀ c, us.superclasses c = ts.superclasses c := by
    intro c
    rw [superclasses, superclasses, hext.declaredSupertypes_eq]
    refine List.filterMap_congr fun ty hty => ?_
    obtain ⟨d, hd⟩ := h.supertypes c ty hty
    exact classOf?_of_le hext.le (has_of_classOf? hd)
  funext b c
  rw [Inherits, Inherits, hclass]

/-- Growth without declarations keeps a type system well-formed. -/
theorem WellFormed.of_extends (h : ts.WellFormed) (hext : Extends ts us) (hp : us.pool.Valid) :
    us.WellFormed where
  pool := hp
  bound v := by
    rw [hext.typeVar_eq]
    exact (h.bound v).of_le hext.le.1
  object := h.object.of_le hext.le.1
  supertypes c ty hty := by
    rw [hext.declaredSupertypes_eq] at hty
    obtain ⟨d, hd⟩ := h.supertypes c ty hty
    exact ⟨d, (classOf?_of_le hext.le (has_of_classOf? hd)).trans hd⟩
  root := (hext.declaredSupertypes_eq _).trans h.root
  acyclic := h.acyclic.of_extends h.toGrounded hext

/-! ### Types built alike -/

/-- A derivation holds as well of types that are built alike in another type system, in which bounds
are built alike and classes inherit alike. -/
theorem SubtypeOf.of_mirrors (hp : us.pool.Valid) (hq : vs.pool.Valid)
    (hbound : ∀ v, us.pool.Mirrors vs.pool (us.typeVar v).bound (vs.typeVar v).bound)
    (hinherits : vs.Inherits = us.Inherits) {t' u' : TypeId} (htu : us.SubtypeOf t u)
    (ht : us.pool.Mirrors vs.pool t t') (hu : us.pool.Mirrors vs.pool u u') :
    vs.SubtypeOf t' u' := by
  have href : ∀ {x y}, us.pool.Mirrors vs.pool x y → (us.kind x).isReference = true →
      (vs.kind y).isReference = true := fun h hx => (h.kind hp).isReference_eq.trans hx
  have hnull : ∀ {x y}, us.pool.Mirrors vs.pool x y → us.kind x ≠ .null → vs.kind y ≠ .null :=
    fun h hx hy => hx ((h.kind hp).eq_null hy)
  have hlub : ∀ {x y}, us.pool.Mirrors vs.pool x y → (∀ l, us.kind x ≠ .lub l) →
      ∀ l, vs.kind y ≠ .lub l := fun h hx l hy =>
    have ⟨m, hm⟩ := (h.kind hp).exists_lub hy
    hx m hm
  have hclass : ∀ {x y}, us.pool.Mirrors vs.pool x y → vs.classOf? y = us.classOf? x :=
    fun h => (h.kind hp).class?_eq
  induction htu generalizing t' u' with
  | refl => exact ht.unique hp hq hu ▸ .refl
  | null hk hrefu =>
    obtain ⟨_, hk', ⟨⟩⟩ := ht.of_hasKind hp hk
    exact .null hk' (href hu hrefu)
  | candidates hk hrefu hnullu _ ih =>
    obtain ⟨_, hk', hform⟩ := ht.of_hasKind hp hk
    cases hform with
    | lub hcs hcs' hrelated =>
      refine .candidates hk' (href hu hrefu) (hnull hu hnullu) fun c' hc' => ?_
      rw [hcs'.candidates_eq] at hc'
      obtain ⟨c, hc, hmirrors⟩ := hrelated.right c' hc'
      exact ih c (hcs.candidates_eq.symm ▸ hc) hmirrors hu
  | candidate hk hreft hnullt hlubt hc _ ih =>
    obtain ⟨_, hk', hform⟩ := hu.of_hasKind hp hk
    cases hform with
    | lub hcs hcs' hrelated =>
      obtain ⟨c', hc', hmirrors⟩ := hrelated.left _ (hcs.candidates_eq ▸ hc)
      exact .candidate hk' (href ht hreft) (hnull ht hnullt) (hlub ht hlubt)
        (hcs'.candidates_eq.symm ▸ hc') (ih ht hmirrors)
  | bound hk hrefu hnullu hlubu _ ih =>
    obtain ⟨_, hk', ⟨⟩⟩ := ht.of_hasKind hp hk
    exact .bound hk' (href hu hrefu) (hnull hu hnullu) (hlub hu hlubu) (ih (hbound _) hu)
  | elems hkt hku ha hb _ ih =>
    obtain ⟨_, hkt', hform⟩ := ht.of_hasKind hp hkt
    obtain ⟨_, hku', hform'⟩ := hu.of_hasKind hp hku
    cases hform with
    | array helem =>
      cases hform' with
      | array helem' =>
        exact .elems hkt' hku' (href helem ha) (href helem' hb) (ih helem helem')
  | array hk hc =>
    obtain ⟨_, hk', hform⟩ := ht.of_hasKind hp hk
    cases hform with
    | array _ => exact .array hk' ((hclass hu).trans hc)
  | inherits hb hc hreaches =>
    exact .inherits ((hclass ht).trans hb) ((hclass hu).trans hc) (hinherits ▸ hreaches)

/-- Types that are built alike in two type systems that grew from one relate alike. -/
theorem isSubtype_of_mirrors (h : ts.WellFormed) (hus : Extends ts us) (hvs : Extends ts vs)
    (hp : us.pool.Valid) (hq : vs.pool.Valid) {t' u' : TypeId}
    (ht : us.pool.Mirrors vs.pool t t') (hu : us.pool.Mirrors vs.pool u u')
    (htu : us.isSubtype t u = true) : vs.isSubtype t' u' = true := by
  have has : ∀ {x y}, us.pool.Mirrors vs.pool x y → us.pool.Has x ∧ vs.pool.Has y := by
    intro x y hxy
    obtain ⟨k, l, hk, hl, -⟩ := (Pool.mirrors_iff hp).mp hxy
    exact ⟨hk.has, hl.has⟩
  have hbound : ∀ v, us.pool.Mirrors vs.pool (us.typeVar v).bound (vs.typeVar v).bound := by
    intro v
    rw [hus.typeVar_eq, hvs.typeVar_eq]
    exact Pool.mirrors_self h.pool hp hus.le.1 hvs.le.1 (h.bound v)
  have hinherits : vs.Inherits = us.Inherits := (h.inherits_eq hvs).trans (h.inherits_eq hus).symm
  rw [isSubtype_iff_subtypeOf (h.of_extends hus hp) (has ht).1 (has hu).1] at htu
  rw [isSubtype_iff_subtypeOf (h.of_extends hvs hq) (has ht).2 (has hu).2]
  exact htu.of_mirrors hp hq hbound hinherits ht hu

end TypeSystem

end Erasure
