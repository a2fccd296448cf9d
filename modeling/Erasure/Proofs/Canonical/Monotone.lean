/-
Erasure keeps the subtype order.

Subtyping goes up the bounds of a variable one at a time and looks into arrays, while erasure goes to
the end of the bounds at once. What carries over from one to the other is the outline, which a type
shares with all bounds on its way and with its canonical form. The main statements:

* `Later.faithful`: what a canonicalizer remembers follows the outlines.
* `canonicalize_follows`: the canonical form has the outline of the type.
* `canonicalize_monotone`: canonical forms of subtypes are subtypes, and likewise for assignment.
-/
import Erasure.Proofs.Canonical.NormalForm
import Erasure.Proofs.Subtyping.Outline
import Erasure.Proofs.Symbol.Independence

namespace Erasure.Canonicalizer

variable {s t : Canonicalizer} {V : TypeVarId → Prop}

/-! ### Canonical forms and outlines -/

theorem Faithful.of_grows (hs : s.Valid) (hacyclic : s.types.Acyclic) (hf : Faithful V s)
    (hst : Store.Grows s t) (ht : t.Valid) : Faithful V t :=
  hf.of_coherent hs ht (acyclic_of_grows hs hst hacyclic) (Extends.types hst)
    (Extends.coherent hst (coherent_self hs))

/-- Without declarations a memo that was empty at first follows the outlines. -/
theorem Later.faithful {ts : TypeSystem} (hts : ts.Valid) (hacyclic : ts.Acyclic)
    (h : Later (fresh ts) s) : Faithful V s := by
  obtain ⟨hgrows, hvalid⟩ := h.grows (fresh_valid hts) hacyclic
  exact (faithful_fresh ts).of_grows (fresh_valid hts) hacyclic hgrows hvalid

/-- The canonical form has the outline of the type, if the memo follows the outlines. -/
theorem canonicalize_follows (hs : s.Valid) (hacyclic : s.types.Acyclic) (hf : Faithful V s)
    {ty : TypeId} (hty : s.types.pool.Has ty) :
    Keeps (canonicalize ty) s fun r t => Faithful V t ∧ FollowsOutline V t.types ty r := by
  refine (canonicalize_computes hs hacyclic hty).toKeeps.mono fun r t hst ht hfind => ?_
  have hf' := hf.of_grows hs hacyclic hst ht
  exact ⟨hf', fun shape => hf' _ _ _ hfind⟩

end Erasure.Canonicalizer

namespace Erasure.TypeSystem

/-- Growth without declarations adds no outline to the types there were before. -/
theorem HasOutline.of_extended {ts us : TypeSystem} {V : TypeVarId → Prop} {ty : TypeId}
    {shape : Shape} (hts : ts.Valid) (hext : Extends ts us) (hty : ts.pool.Has ty)
    (h : us.HasOutline V ty shape) : ts.HasOutline V ty shape :=
  h.of_ge hts hext.le hty fun v _ _ => by rw [bound?, bound?, hext.typeVars_eq]

/-- A plain type has an outline. -/
theorem IsPlain.exists_outline {ts : TypeSystem} (hts : ts.Valid) (hacyclic : ts.Acyclic)
    {ty : TypeId} (hty : ts.pool.Has ty) (h : ts.IsPlain ty) :
    ∃ shape, ts.HasOutline (fun _ => True) ty shape :=
  TypeSystem.exists_outline hts hacyclic hty h.noLub fun v hv => ⟨trivial, h.declared v hv⟩

/-- Whether the kind is no upper bound, and a variable only if that is declared. -/
def isPlainKind (ts : TypeSystem) : TypeKind → Bool
  | .var v => v.index < ts.typeVars.size
  | .lub _ => false
  | .prim _ | .null | .array _ | .raw _ | .inst _ _ _ => true

theorem isPlain_of_kinds {ts : TypeSystem}
    (hkinds : ∀ i < ts.pool.size, ts.isPlainKind (ts.kind ⟨i⟩) = true) (ty : TypeId) :
    ts.IsPlain ty := by
  have hkind : ∀ {u k}, ts.pool.HasKind u k → ts.isPlainKind k = true := by
    intro u k hk
    rw [← show ts.kind u = k from hk.kind_eq]
    exact hkinds u.index hk.has
  constructor
  case noLub =>
    intro u l _ hk
    cases hkind hk
  case declared =>
    rintro v ⟨u, -, hk⟩
    exact of_decide_eq_true (hkind hk)

/-- A well-formed type system without inner classes is acyclic. -/
theorem WellFormed.acyclic_of_outer {ts : TypeSystem} (h : ts.WellFormed)
    (houter : ∀ i < ts.classes.size, (ts.classDef ⟨i⟩).outer = none) : ts.Acyclic := by
  have hnone : ∀ c, (ts.classDef c).outer = none := by
    intro c
    by_cases hc : c.index < ts.classes.size
    · exact houter c.index hc
    · rw [classDef_of_not_lt hc]
      rfl
  have hclass : ∀ c d, ts.outerClass? c ≠ some d := by
    intro c d hd
    rw [outerClass?, hnone c] at hd
    cases hd
  refine ⟨fun hc => ?_, fun c hc => ?_, fun hk => h.acyclic _ _ hk⟩
  · rw [hnone] at hc
    cases hc
  · obtain ⟨d, hd, -⟩ := Relation.TransGen.head'_iff.mp hc
    exact hclass c d hd

theorem BoundsReferences.of_extends {ts us : TypeSystem} (hts : ts.Valid) (hext : Extends ts us)
    (h : ts.BoundsReferences) : us.BoundsReferences := by
  intro v hv
  rw [hext.typeVars_eq] at hv
  rw [hext.typeVar_eq, (hext.preserves hts).isReference_eq (hts.bound v)]
  exact h v hv

end Erasure.TypeSystem

namespace Erasure.Canonicalizer

variable {s : Canonicalizer} {t u : TypeId}

/-- A canonicalizer of a well-formed type system whose bounds are references, with a memo that follows
the outlines. -/
structure WellFormed (s : Canonicalizer) : Prop where
  valid : s.Valid
  acyclic : s.types.Acyclic
  types : s.types.WellFormed
  bounds : s.types.BoundsReferences
  faithful : Faithful (fun _ => True) s

theorem WellFormed.of_grows {s t : Canonicalizer} (h : s.WellFormed) (hst : Store.Grows s t)
    (ht : t.Valid) : t.WellFormed where
  valid := ht
  acyclic := acyclic_of_grows h.valid hst h.acyclic
  types := h.types.of_extends (Extends.types hst) ht.types.pool
  bounds := h.bounds.of_extends h.valid.types (Extends.types hst)
  faithful := h.faithful.of_grows h.valid h.acyclic hst ht

theorem wellFormed_fresh {ts : TypeSystem} (hts : ts.Valid) (hacyclic : ts.Acyclic)
    (hwf : ts.WellFormed) (hbounds : ts.BoundsReferences) : (fresh ts).WellFormed where
  valid := fresh_valid hts
  acyclic := hacyclic
  types := hwf
  bounds := hbounds
  faithful := faithful_fresh ts

/-- The declarations of a session without member classes are well-formed if supertypes lead to classes
and bounds go down. -/
theorem Reachable.wellFormed_of_flat (h : Reachable s)
    (hflat : (∀ i < s.types.classes.size, (s.types.classDef ⟨i⟩).outer = none) ∧
      (∀ i < s.types.typeVars.size, s.types.isReference (s.types.typeVar ⟨i⟩).bound = true) ∧
      (∀ i < s.types.classes.size,
        ∀ ty ∈ s.types.declaredSupertypes ⟨i⟩, (s.types.classOf? ty).isSome) ∧
      s.types.declaredSupertypes .object = [] ∧
      ∀ i < s.types.pool.size, s.types.isBoundedBelow i (s.types.kind ⟨i⟩) = true) :
    s.types.Acyclic ∧ s.types.WellFormed ∧ s.types.BoundsReferences := by
  obtain ⟨houter, hbounds, hsupertypes⟩ := hflat
  have hwf : s.types.WellFormed := h.valid.types.wellFormed hsupertypes
  exact ⟨hwf.acyclic_of_outer houter, hwf, fun v hv => hbounds v.index hv⟩

theorem later_canonicalized {ts : TypeSystem} {ty : TypeId} (hty : ts.pool.Has ty) :
    Later (fresh ts) ((fresh ts).canonicalized (.type ty)) :=
  .canonicalize _ (.refl _) hty

theorem Later.wellFormed {ts : TypeSystem} (hts : Reachable (fresh ts)) (hacyclic : ts.Acyclic)
    (hwf : ts.WellFormed) (hbounds : ts.BoundsReferences) (hs : Later (fresh ts) s) :
    s.WellFormed := by
  obtain ⟨hgrows, hvalid⟩ := hs.grows hts.valid hacyclic
  exact (wellFormed_fresh hts.valid.types hacyclic hwf hbounds).of_grows hgrows hvalid

/-! ### Monotonicity -/

/-- Whether the canonical forms of two types relate. -/
def relatesCanonical (relates : TypeSystem → TypeId → TypeId → Bool) (t u : TypeId) :
    CanonicalM Bool := do
  let t' ← canonicalize t
  let u' ← canonicalize u
  return relates (← get).types t' u'

/-- Two types come to canonical forms of their outlines in one state. -/
theorem relatesCanonical_follows (hs : s.WellFormed) {a b : Shape}
    (ha : s.types.HasOutline (fun _ => True) t a) (hb : s.types.HasOutline (fun _ => True) u b)
    (relates : TypeSystem → TypeId → TypeId → Bool) :
    Keeps (relatesCanonical relates t u) s fun answer w => ∃ t' u',
      answer = relates w.types t' u' ∧ w.types.pool.HasShape t' a ∧
        w.types.pool.HasShape u' b := by
  unfold relatesCanonical
  refine (canonicalize_follows hs.valid hs.acyclic hs.faithful ha.has).bind
    fun t' v hsv hv ⟨_, ht'⟩ => ?_
  have hvw := hs.of_grows hsv hv
  have hb' := hb.of_extends (Extends.types hsv)
  refine (canonicalize_follows hv hvw.acyclic hvw.faithful hb'.has).bind
    fun u' w hvw hw ⟨_, hu'⟩ => ?_
  have ht := (ht' a (ha.of_extends (Extends.types hsv))).of_le hvw.le.1.1
  exact Keeps.get_bind (Keeps.pure hw ⟨t', u', rfl, ht, hu' b (hb'.of_extends (Extends.types hvw))⟩)

/-- In a well-formed type system whose bounds are references, and whatever was made canonical before:
of types that lead to no open upper bound, the canonical forms of a subtype and its supertype are
again a subtype and a supertype, and what is assignable stays assignable. -/
theorem canonicalize_monotone {ts : TypeSystem} (hts : Reachable (fresh ts))
    (hacyclic : ts.Acyclic) (hwf : ts.WellFormed) (hbounds : ts.BoundsReferences)
    (hs : Later (fresh ts) s) (ht : s.types.pool.Has t) (hu : s.types.pool.Has u)
    (hplaint : s.types.IsPlain t) (hplainu : s.types.IsPlain u) :
    (s.types.isSubtype t u = true → (relatesCanonical TypeSystem.isSubtype t u s).1 = true) ∧
      (s.types.isAssignable t u = true →
        (relatesCanonical TypeSystem.isAssignable t u s).1 = true) := by
  have h := hs.wellFormed hts hacyclic hwf hbounds
  obtain ⟨a, ha⟩ := hplaint.exists_outline h.valid.types h.acyclic ht
  obtain ⟨b, hb⟩ := hplainu.exists_outline h.valid.types h.acyclic hu
  constructor
  case left =>
    intro htu
    have hrun := relatesCanonical_follows h ha hb TypeSystem.isSubtype
    obtain ⟨t', u', hanswer, ht', hu'⟩ := hrun.post
    have hw := h.of_grows hrun.grows hrun.valid
    have hbelow := ((TypeSystem.isSubtype_iff_subtypeOf h.types ht hu).mp htu).outline_below
      h.bounds h.types.toGrounded ha hb
    rw [hanswer, TypeSystem.isSubtype_iff_below hw.types hw.bounds ht' hu',
      h.types.inherits_eq (Extends.types hrun.grows)]
    exact hbelow
  case right =>
    intro htu
    have hrun := relatesCanonical_follows h ha hb TypeSystem.isAssignable
    obtain ⟨t', u', hanswer, ht', hu'⟩ := hrun.post
    have hw := h.of_grows hrun.grows hrun.valid
    rw [hanswer, TypeSystem.isAssignable_iff_fits hw.types hw.bounds ht' hu',
      h.types.inherits_eq (Extends.types hrun.grows)]
    exact TypeSystem.fits_of_isAssignable h.types h.bounds ha hb htu

/-- A session with a variable `U` bounded by `String[]`, a variable `T` bounded by `U`, and the types
`T[]` and `String[][]`. -/
def arraySession : Canonicalizer :=
  let s := (fresh .initial).asked (.array .string)
  let s := (s.declared (.addMethodTypeParam "U" (some ⟨13⟩))).asked (.typeVar ⟨0⟩)
  let s := (s.declared (.addMethodTypeParam "T" (some ⟨14⟩))).asked (.typeVar ⟨1⟩)
  (s.asked (.array ⟨15⟩)).asked (.array ⟨13⟩)

theorem arraySession_wellFormed : Reachable arraySession ∧ arraySession.types.Acyclic ∧
    arraySession.types.WellFormed ∧ arraySession.types.BoundsReferences := by
  -- The steps and the last state make one goal, so that the prelude is evaluated once.
  suffices h : (_ ∧ _ ∧ _ ∧ _ ∧ _) ∧ _ by
    obtain ⟨⟨h₁, h₂, h₃, h₄, h₅⟩, hflat⟩ := h
    have hreachable : Reachable arraySession :=
      .ask _ (.ask _ (.ask _ (.declare _ (.ask _ (.declare _ (.ask _ .initial h₁) h₂) trivial) h₃)
        trivial) h₄) h₅
    exact ⟨hreachable, hreachable.wellFormed_of_flat hflat⟩
  unfold TypeSystem.Query.Admitted TypeSystem.Declaration.Admitted
  decide +kernel

/-- The array `T[]` is a subtype of `String[][]` by the bounds of `T`, and so are their canonical
forms after `U` was made canonical. -/
theorem canonicalize_monotone_arrays :
    let s := (fresh arraySession.types).canonicalized (.type ⟨14⟩)
    s.types.isSubtype ⟨16⟩ ⟨17⟩ = true ∧
      (relatesCanonical TypeSystem.isSubtype ⟨16⟩ ⟨17⟩ s).1 = true ∧
      (relatesCanonical TypeSystem.isAssignable ⟨16⟩ ⟨17⟩ s).1 = true := by
  intro s
  obtain ⟨hvar, ht, hu, hkinds, hsub, hassignable⟩ :
      arraySession.types.pool.Has ⟨14⟩ ∧ s.types.pool.Has ⟨16⟩ ∧ s.types.pool.Has ⟨17⟩ ∧
        (∀ i < s.types.pool.size, s.types.isPlainKind (s.types.kind ⟨i⟩) = true) ∧
        s.types.isSubtype ⟨16⟩ ⟨17⟩ = true ∧ s.types.isAssignable ⟨16⟩ ⟨17⟩ = true := by
    decide +kernel
  have hlater : Later (fresh arraySession.types) s := later_canonicalized hvar
  have hplain : ∀ ty, s.types.IsPlain ty := TypeSystem.isPlain_of_kinds hkinds
  obtain ⟨hreachable, hacyclic, hwf, hbounds⟩ := arraySession_wellFormed
  have hmonotone := canonicalize_monotone hreachable.forget hacyclic hwf hbounds hlater ht hu
    (hplain _) (hplain _)
  exact ⟨hsub, hmonotone.1 hsub, hmonotone.2 hassignable⟩

end Erasure.Canonicalizer
