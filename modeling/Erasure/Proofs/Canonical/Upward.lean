/-
Erasure moves up in the subtype order.

A reference type is below its canonical form: a type variable by its bound, an instantiation by its
class, an array by its elements, and an upper bound still to be computed by its candidates, each of
which is below the canonical form of the join. The main statements:

* `isSubtypeWithin_join`: the types joined are below the canonical form of the join, by the rules of
  joining.
* `isUpward_inst`, `isUpward_array`, `isUpward_var`, `isUpward_lub`: one lemma for each kind of type.
* `isSubtypeWithin_erased`: a sound reference type is below its canonical form.
* `isSubtype_canonicalize`: so it is found below the answer of `canonicalize`.
-/
import Erasure.Proofs.Canonical.NormalForm
import Erasure.Proofs.Joins.CommonClass
import Erasure.Proofs.Joins.Rules

namespace Erasure.TypeSystem

variable {ts us : TypeSystem} {ty : TypeId} {shape : Shape}

/-! ### Erasure by kinds -/

theorem comesDownTo_of_hasKind {k : TypeKind} (hk : ts.pool.HasKind ty k)
    (hvar : ∀ v, k ≠ .var v) (hlub : ∀ l, k ≠ .lub l) : ts.ComesDownTo ty ty :=
  comesDownTo_self (fun v hv => hvar v (hk.kind_eq.symm.trans hv))
    fun l hl => hlub l (hk.kind_eq.symm.trans hl)

/-- A type comes down to the end of its bounds, unless that is an upper bound. -/
theorem comesDownTo_boundErasure (hts : ts.Valid)
    (hlub : ∀ l, ts.kind (ts.boundErasure ty) ≠ .lub l) :
    ts.ComesDownTo ty (ts.boundErasure ty) := by
  have hvar := kind_boundErasure_ne_var hts.object.kind_eq ty
  obtain ⟨r, hr, hu⟩ := comesDownTo_self hvar hlub
  exact ⟨r, boundErasure_of_ne_var hvar ▸ hr, hu⟩

theorem Erases.exists_comesDownTo (h : ts.Erases ∅ ty shape) :
    ∃ u, ts.ComesDownTo ty u ∧ ts.pool.Has u := by
  cases h with
  | remembered hM _ => cases hM
  | prim _ hdown hk | null _ hdown hk | raw _ hdown hk | inst _ hdown hk | array _ hdown hk _
  | lub _ hdown hk => exact ⟨_, hdown, hk.has⟩

/-- Erasure sees of a type what it comes down to. -/
theorem Erases.of_comesDownTo {t u : TypeId} (h : ts.Erases ∅ ty shape)
    (hty : ts.ComesDownTo ty u) (ht : ts.ComesDownTo t u) : ts.Erases ∅ t shape := by
  cases h with
  | remembered hM _ => cases hM
  | prim _ hdown hk => exact .prim rfl (hdown.unique hty ▸ ht) hk
  | null _ hdown hk => exact .null rfl (hdown.unique hty ▸ ht) hk
  | raw _ hdown hk => exact .raw rfl (hdown.unique hty ▸ ht) hk
  | inst _ hdown hk => exact .inst rfl (hdown.unique hty ▸ ht) hk
  | array _ hdown hk helem => exact .array rfl (hdown.unique hty ▸ ht) hk helem
  | lub _ hdown hk => exact .lub rfl (hdown.unique hty ▸ ht) hk

/-- A sound type variable is erased as its bound. -/
theorem Erases.of_var (hts : ts.Valid) (hacyclic : ts.Acyclic) {v : TypeVarId}
    (h : ts.Erases ∅ ty shape) (hk : ts.pool.HasKind ty (.var v)) (hsound : ts.Sound ty) :
    ts.Erases ∅ (ts.typeVar v).bound shape := by
  obtain ⟨u, hdown, -⟩ := h.exists_comesDownTo
  obtain ⟨r, hr, hu⟩ := id hdown
  exact h.of_comesDownTo hdown ⟨r, boundErasure_var hts hacyclic hk hsound ▸ hr, hu⟩

/-- An erased type is erased already. -/
theorem Erases.eq_of_hasShape {r : TypeId} {shape' : Shape} (h : ts.Erases ∅ ty shape)
    (hty : ts.pool.HasShape ty shape') (hr : ts.pool.HasShape r shape) : r = ty := by
  obtain rfl := h.unique (erases_of_hasShape hty nofun)
  exact hr.inj hty

/-- An array is erased element by element. -/
theorem Erases.of_array {elem : TypeId} (h : ts.Erases ∅ ty shape)
    (hk : ts.pool.HasKind ty (.array elem)) :
    ∃ shape', shape = .array shape' ∧ ts.Erases ∅ elem shape' := by
  have hself := comesDownTo_of_hasKind hk nofun nofun
  cases h with
  | remembered hM _ => cases hM
  | array _ hdown hk' helem =>
    cases hself.unique hdown
    cases hk.unique hk'
    exact ⟨_, rfl, helem⟩
  | prim _ hdown hk' | null _ hdown hk' | raw _ hdown hk' | inst _ hdown hk' | lub _ hdown hk' =>
    cases hself.unique hdown
    cases hk.unique hk'

/-- An upper bound is erased as its join, or as the root class if that is an upper bound again. -/
theorem Erases.of_lub (hts : ts.Valid) {l : LubId} (h : ts.Erases ∅ ty shape)
    (hk : ts.pool.HasKind ty (.lub l)) :
    ∃ j, HasForm ts.pool j (ts.joinForm (ts.pool.size + 1) (ts.pool.candidates l)) ∧
      (shape = .raw .object ∨ ts.Erases ∅ j shape) := by
  obtain ⟨u, hdown, hhas⟩ := h.exists_comesDownTo
  obtain ⟨j, hj, rfl⟩ := id hdown
  have hlub : ts.kind ty = .lub l := hk.kind_eq
  rw [boundErasure_of_ne_var (by rw [hlub]; exact nofun), Resolves, hlub] at hj
  refine ⟨j, hj, ?_⟩
  have hkind := hhas.hasKind
  by_cases hagain : ∃ l', ts.pool.kind (ts.boundErasure j) = .lub l'
  · obtain ⟨l', hl'⟩ := hagain
    exact Or.inl (h.unique (.lub rfl hdown (hl' ▸ hkind)))
  · exact Or.inr (h.of_comesDownTo hdown (comesDownTo_boundErasure hts (not_exists.mp hagain)))

/-! ### Joins -/

/-- The type is below its canonical form. -/
def IsUpward (ts : TypeSystem) (ty : TypeId) : Prop :=
  ∀ {shape r}, ts.Erases ∅ ty shape → ts.pool.HasShape r shape →
    ts.isSubtypeWithin (ts.rank ty + 1) ty r = true

/-- Arrays are below an array if their elements are below its element. -/
theorem isSubtypeWithin_array (hts : ts.Valid) (hacyclic : ts.Acyclic) {t elem u elem' : TypeId}
    (ht : ts.pool.HasKind t (.array elem)) (hu : ts.pool.HasKind u (.array elem'))
    (href : ts.isReference elem = true)
    (h : ts.isSubtypeWithin (ts.rank elem + 1) elem elem' = true) :
    ts.isSubtypeWithin (ts.rank t + 1) t u = true := by
  have helem := hts.pool.has_part ht List.mem_cons_self
  have helem' := hts.pool.has_part hu List.mem_cons_self
  have href' : ts.isReference elem' = true := by
    rw [isReference_iff hts helem'] 
    exact ne_prim_of_isSubtypeWithin ((isReference_iff hts helem).mp href) h
  exact isSubtypeWithin_of_elems ht.kind_eq hu.kind_eq href href'
    (isSubtypeWithin_mono (rank_lt hts.grounded hacyclic.acyclicBounds (.elem ht)) h)

/-- A sound reference type of lesser rank than `n`. -/
structure LowRank (ts : TypeSystem) (n : Nat) (ty : TypeId) : Prop where
  rank : ts.rank ty < n
  has : ts.pool.Has ty
  isReference : ts.isReference ty = true
  sound : ts.Sound ty

theorem LowRank.ne_prim {n : Nat} (hts : ts.Valid) (h : ts.LowRank n ty) (p : Primitive) :
    ts.kind ty ≠ .prim p := (isReference_iff hts h.has).mp h.isReference p

theorem LowRank.elem {n : Nat} {elem : TypeId} (hts : ts.Valid) (hacyclic : ts.Acyclic)
    (h : ts.LowRank n ty) (hk : ts.pool.HasKind ty (.array elem))
    (href : ts.isReference elem = true) : ts.LowRank n elem where
  rank := (rank_lt hts.grounded hacyclic.acyclicBounds (.elem hk)).trans h.rank
  has := hts.pool.has_part hk List.mem_cons_self
  isReference := href
  sound := h.sound.part (.elem hk)

/-- The null type is below what another of the types is below. -/
theorem isSubtypeWithin_of_nonNull {n : Nat} {tys : List TypeId} {r : TypeId} (hts : ts.Valid)
    (hlow : ∀ t ∈ tys, ts.LowRank n t) (hne : nonNull tys ≠ [])
    (h : ∀ t ∈ nonNull tys, ts.isSubtypeWithin (ts.rank t + 1) t r = true) :
    ∀ t ∈ tys, ts.isSubtypeWithin (ts.rank t + 1) t r = true := by
  intro t ht
  by_cases hnull : t = .null
  · subst hnull
    obtain ⟨u, hu⟩ := List.exists_mem_of_ne_nil _ hne
    have hprim := (hlow u (mem_nonNull.mp hu).1).ne_prim hts
    exact isSubtypeWithin_of_null hts.pool.null.kind_eq (ne_prim_of_isSubtypeWithin hprim (h u hu))
  · exact h t (mem_nonNull.mpr ⟨ht, hnull⟩)

section Induction

variable (hts : ts.Valid) (hacyclic : ts.Acyclic) {n : Nat}
  (hupward : ∀ t, ts.LowRank n t → ts.IsUpward t)
include hts hacyclic hupward

/-- The types joined are below the canonical form of the join, if types of lesser rank than `n` are
below theirs. -/
theorem isSubtypeWithin_join {tys : List TypeId} {form : JoinForm} (hjoins : ts.JoinsTo tys form)
    (hlow : ∀ t ∈ tys, ts.LowRank n t) {j r : TypeId} (hj : HasForm ts.pool j form)
    (herases : ts.Erases ∅ j shape) (hr : ts.pool.HasShape r shape) :
    ∀ t ∈ tys, ts.isSubtypeWithin (ts.rank t + 1) t r = true := by
  induction hjoins generalizing j r shape with
  | null hnil =>
    cases hj
    obtain rfl := herases.eq_of_hasShape (.null hts.pool.null) hr
    intro t ht
    exact eq_null_of_nonNull_eq_nil hnil t ht ▸ isSubtypeWithin_self _ _
  | same hu hall =>
    cases hj
    refine isSubtypeWithin_of_nonNull hts hlow (List.ne_nil_of_mem hu) fun t ht => ?_
    obtain rfl := hall t ht
    exact hupward t (hlow t (mem_nonNull.mp ht).1) herases hr
  | elems hdiffer helems hrefs _ ih =>
    have hkind : ∀ t ∈ nonNull _, ∀ e, ts.kind t = .array e → ts.pool.HasKind t (.array e) :=
      fun t ht _ hk => (hlow t (mem_nonNull.mp ht).1).has.hasKind_of_eq hk
    cases hj with
    | array hkj hform =>
      obtain ⟨shape', rfl, herases'⟩ := herases.of_array hkj
      cases hr with
      | array hkr hr' =>
        refine isSubtypeWithin_of_nonNull hts hlow hdiffer.ne_nil fun t ht => ?_
        obtain ⟨e, he, hk⟩ := exists_elem_of_mem_arrayElements? helems t ht
        refine isSubtypeWithin_array hts hacyclic (hkind t ht e hk) hkr (hrefs e he)
          (ih (fun e he => ?_) hform herases' hr' e he)
        obtain ⟨u, hu, hk⟩ := (mem_of_arrayElements? helems).mp he
        exact (hlow u (mem_nonNull.mp hu).1).elem hts hacyclic (hkind u hu e hk) (hrefs e he)
  | arrays hdiffer _ _ _ | root hdiffer _ _ =>
    cases hj
    obtain rfl := herases.eq_of_hasShape (.raw hts.object) hr
    intro t ht
    have ht := hlow t ht
    exact isSubtypeWithin_object hts hacyclic ht.has ht.isReference ht.sound
  | common hdiffer _ hcommon =>
    cases hj with
    | raw hk =>
      obtain rfl := herases.eq_of_hasShape (.raw hk) hr
      refine isSubtypeWithin_of_nonNull hts hlow hdiffer.ne_nil fun t ht => ?_
      have hclosure := (isPreferred_of_commonClass? hcommon).above t ht
      have ht := hlow t (mem_nonNull.mp ht).1
      exact isSubtypeWithin_raw hts hacyclic ht.has ht.isReference ht.sound hk hclosure

end Induction

/-! ### Types of all kinds -/

theorem kind_ne_lub_of_hasShape {r : TypeId} (h : ts.pool.HasShape r shape) (l : LubId) :
    ts.kind r ≠ .lub l := by
  intro hl
  cases h with
  | prim hk | null hk | raw hk | array hk _ => cases hl.symm.trans hk.kind_eq

/-- Of two or more candidates one is not the null type. -/
theorem exists_candidate_ne_null (hts : ts.Valid) {l : LubId} (hk : ts.pool.HasKind ty (.lub l))
    (htwo : 2 ≤ (ts.pool.candidates l).length) : ∃ c ∈ ts.pool.candidates l, c ≠ .null := by
  obtain ⟨cs, hcs⟩ := hts.pool.linked hk
  have hsorted := (hts.pool.candidates hcs).1
  rw [hcs.candidates_eq] at htwo ⊢
  match cs, htwo, hsorted with
  | a :: b :: _, _, hsorted =>
    have hlt : a.index < b.index := List.rel_of_pairwise_cons hsorted List.mem_cons_self
    by_cases ha : a = .null
    · refine ⟨b, List.mem_cons_of_mem _ List.mem_cons_self, fun hb => ?_⟩
      exact Nat.lt_irrefl _ (ha ▸ hb ▸ hlt)
    · exact ⟨a, List.mem_cons_self, ha⟩

/-- An instantiation is below its class. -/
theorem isUpward_inst {c : ClassId} {sub : SubstId} {outer : Option TypeId}
    (hkind : ts.pool.HasKind ty (.inst c sub outer)) : ts.IsUpward ty := by
  intro shape r herases hr
  obtain rfl := herases.unique (.inst rfl (comesDownTo_of_hasKind hkind nofun nofun) hkind)
  have hk : ts.kind ty = .inst c sub outer := hkind.kind_eq
  cases hr with
  | raw hraw =>
    have hclass : ts.classOf? ty = some c := by rw [classOf?, hk]; rfl
    refine isSubtypeWithin_of_class hclass hraw.kind_eq ?_
    rw [erasedClosure_of_ne_var (by rw [hk]; exact nofun), hclass]
    exact mem_classClosure_iff.mpr .refl

section Kinds

variable (hts : ts.Valid) (hacyclic : ts.Acyclic)
  (hupward : ∀ t, ts.LowRank (ts.rank ty) t → ts.IsUpward t)
include hts hacyclic hupward

/-- An array goes up element by element; arrays of a primitive type are erased already. -/
theorem isUpward_array {elem : TypeId} (hkind : ts.pool.HasKind ty (.array elem))
    (hsound : ts.Sound ty) : ts.IsUpward ty := by
  intro shape r herases hr
  have helem := hts.pool.has_part hkind List.mem_cons_self
  obtain ⟨shape', rfl, herases'⟩ := herases.of_array hkind
  cases hr with
  | array hkr hr' =>
    by_cases href : ts.isReference elem = true
    · have hlow : ts.LowRank (ts.rank ty) elem :=
        ⟨rank_lt hts.grounded hacyclic.acyclicBounds (.elem hkind), helem, href,
          hsound.part (.elem hkind)⟩
      exact isSubtypeWithin_array hts hacyclic hkind hkr href (hupward elem hlow herases' hr')
    · rw [isReference_iff hts helem] at href
      obtain ⟨p, hp⟩ := not_forall_not.mp href
      have hkp : ts.pool.HasKind elem (.prim p) := hp ▸ helem.hasKind
      obtain rfl := herases'.eq_of_hasShape (.prim hkp) hr'
      obtain rfl := hkr.inj hkind
      exact isSubtypeWithin_self _ _

/-- A type variable goes up through its bound. -/
theorem isUpward_var {v : TypeVarId} (hkind : ts.pool.HasKind ty (.var v)) (hsound : ts.Sound ty) :
    ts.IsUpward ty := by
  intro shape r herases hr
  have hlt := rank_lt hts.grounded hacyclic.acyclicBounds (.bound hkind)
  obtain ⟨-, href, hnull⟩ := hsound.var .refl hkind
  have hlow : ts.LowRank (ts.rank ty) (ts.typeVar v).bound :=
    ⟨hlt, hts.bound v, href, hsound.part (.bound hkind)⟩
  have hbound := hupward _ hlow (herases.of_var hts hacyclic hkind hsound) hr
  refine isSubtypeWithin_of_bound hkind.kind_eq ?_ ?_ (kind_ne_lub_of_hasShape hr)
    (isSubtypeWithin_mono hlt hbound)
  · exact ne_prim_of_isSubtypeWithin (hlow.ne_prim hts) hbound
  · intro hr
    have hk := kind_eq_null_of_isSubtypeWithin hr hbound
    exact hnull (hts.pool.null.inj (hk ▸ (hts.bound v).hasKind)).symm

/-- An upper bound goes up through its candidates. -/
theorem isUpward_lub {l : LubId} (hkind : ts.pool.HasKind ty (.lub l)) (hsound : ts.Sound ty) :
    ts.IsUpward ty := by
  intro shape r herases hr
  have hhas := has_candidates hts hkind.has hkind.kind_eq
  obtain ⟨htwo, hrefs⟩ := hsound.candidates .refl hkind
  have hlow : ∀ c ∈ ts.pool.candidates l, ts.LowRank (ts.rank ty) c := fun c hc =>
    ⟨rank_lt hts.grounded hacyclic.acyclicBounds (.candidate hkind hc), hhas c hc, hrefs c hc,
      hsound.part (.candidate hkind hc)⟩
  have hall : ∀ c ∈ ts.pool.candidates l, ts.isSubtypeWithin (ts.rank c + 1) c r = true := by
    obtain ⟨j, hj, rfl | herases'⟩ := herases.of_lub hts hkind
    · intro c hc
      obtain rfl := hr.inj (.raw hts.object)
      exact isSubtypeWithin_object hts hacyclic (hhas c hc) (hrefs c hc) (hlow c hc).sound
    · exact isSubtypeWithin_join hts hacyclic hupward ((joinsTo_iff hts hhas hrefs).mpr rfl) hlow hj
        herases' hr
  obtain ⟨c, hc, hnull⟩ := exists_candidate_ne_null hts hkind htwo
  refine isSubtypeWithin_of_candidates hkind.kind_eq ?_ ?_ fun c hc =>
    isSubtypeWithin_mono (hlow c hc).rank (hall c hc)
  · exact ne_prim_of_isSubtypeWithin ((hlow c hc).ne_prim hts) (hall c hc)
  · intro hr
    have hk := kind_eq_null_of_isSubtypeWithin hr (hall c hc)
    exact hnull (hts.pool.null.inj (hk ▸ (hhas c hc).hasKind)).symm

end Kinds

/-- A sound reference type is below its canonical form. -/
theorem isSubtypeWithin_erased (hts : ts.Valid) (hacyclic : ts.Acyclic) (hty : ts.pool.Has ty)
    (href : ts.isReference ty = true) (hsound : ts.Sound ty) : ts.IsUpward ty := by
  induction hn : ts.rank ty using Nat.strongRecOn generalizing ty with
  | ind n ih =>
    subst hn
    have hupward : ∀ t, ts.LowRank (ts.rank ty) t → ts.IsUpward t := fun t h =>
      ih _ h.rank h.has h.isReference h.sound rfl
    intro shape r herases hr
    have hkind := hty.hasKind
    cases hk : ts.pool.kind ty with rw [hk] at hkind
    | prim p => exact absurd hk ((isReference_iff hts hty).mp href p)
    | null =>
      obtain rfl := herases.eq_of_hasShape (.null hkind) hr
      exact isSubtypeWithin_self _ _
    | raw c =>
      obtain rfl := herases.eq_of_hasShape (.raw hkind) hr
      exact isSubtypeWithin_self _ _
    | inst c sub outer => exact isUpward_inst hkind herases hr
    | array elem => exact isUpward_array hts hacyclic hupward hkind hsound herases hr
    | var v => exact isUpward_var hts hacyclic hupward hkind hsound herases hr
    | lub l => exact isUpward_lub hts hacyclic hupward hkind hsound herases hr

end Erasure.TypeSystem

namespace Erasure.Canonicalizer

variable {s : Canonicalizer}

/-- Whatever was made canonical before, a reference type is a subtype of its canonical form: if the
classes extend the root class, bounds are references other than the null type, and the upper bounds
that the type leads to are those of two or more references. -/
theorem isSubtype_canonicalize {ts : TypeSystem} (hts : Reachable (fresh ts))
    (hacyclic : ts.Acyclic) (hs : Later (fresh ts) s) (hrooted : s.types.Rooted)
    (hnull : ∀ v, v.index < s.types.typeVars.size → (s.types.typeVar v).bound ≠ .null)
    {ty : TypeId} (hty : s.types.pool.Has ty) (href : s.types.isReference ty = true)
    (hjoins : s.types.JoinsReferences ty) :
    (canonicalize ty s).2.types.isSubtype ty (canonicalize ty s).1 = true := by
  obtain ⟨hgrows, hvalid⟩ := hs.grows hts.valid hacyclic
  have hM : Coherent ∅ s := Extends.coherent hgrows (coherent_fresh ts)
  have hacyclic' := acyclic_of_grows hts.valid hgrows hacyclic
  have h := canonicalize_coherent hvalid hacyclic' hM hty
  have hext : TypeSystem.Extends s.types (canonicalize ty s).2.types := Extends.types h.grows
  have hty' := hty.of_le hext.le.1
  obtain ⟨hMt, hfind⟩ := h.post
  obtain ⟨shape, herases, hshape⟩ := hMt.erases hfind
  have hsound := (hrooted.sound hvalid.types hnull hty hjoins).of_extends hvalid.types hext hty
  have href' := (hext.preserves hvalid.types).isReference_eq hty ▸ href
  have hup := TypeSystem.isSubtypeWithin_erased h.valid.types
    (hacyclic'.of_extends hvalid.types hext) hty' href' hsound herases hshape
  refine TypeSystem.isSubtypeWithin_mono ?_ hup
  exact (TypeSystem.rank_lt_mul hty').trans_le (Nat.mul_le_mul_right _ (Nat.le_succ _))

/-- A session in which two classes extend an interface, a type variable is bounded by one of them,
and an array of the variable meets an array of the other class in an upper bound. -/
def shapeSession : Canonicalizer :=
  let s := (fresh .initial).declared (.declareClass "Shape" { isInterface := true })
  let s := (s.declared (.declareClass "Circle" {})).declared (.declareClass "Square" {})
  let s := ((s.asked (.rawClass ⟨2⟩)).asked (.rawClass ⟨3⟩)).asked (.rawClass ⟨4⟩)
  let s := (s.declared (.addInterface ⟨3⟩ ⟨13⟩)).declared (.addInterface ⟨4⟩ ⟨13⟩)
  let s := (s.declared (.addMethodTypeParam "T" (some ⟨15⟩))).asked (.typeVar ⟨0⟩)
  ((s.asked (.array ⟨14⟩)).asked (.array ⟨16⟩)).asked (.lubOf [⟨17⟩, ⟨18⟩])

theorem shapeSession_reachable : Reachable shapeSession := by
  refine .ask _ (.ask _ (.ask _ (.ask _ (.declare _ (.declare _ (.declare _ (.ask _ (.ask _ (.ask _
    (.declare _ (.declare _ (.declare _ .initial ?_) ?_) ?_) ?_) ?_) ?_) ?_) ?_) ?_) ?_) ?_) ?_) ?_
  · trivial
  · trivial
  · trivial
  · trivial
  · trivial
  · trivial
  · unfold TypeSystem.Declaration.Admitted; decide +kernel
  · unfold TypeSystem.Declaration.Admitted; decide +kernel
  · unfold TypeSystem.Declaration.Admitted; decide +kernel
  · trivial
  · unfold TypeSystem.Query.Admitted; decide +kernel
  · unfold TypeSystem.Query.Admitted; decide +kernel
  · unfold TypeSystem.Query.Admitted TypeSystem.HasAll; decide +kernel

/-- The upper bound of `Circle[]` and `T[]`, for a variable `T` bounded by `Square`, after `T[]` was
made canonical. -/
theorem isSubtype_canonicalize_shapes :
    let s := (fresh shapeSession.types).canonicalized (.type ⟨18⟩)
    (canonicalize ⟨19⟩ s).2.types.isSubtype ⟨19⟩ (canonicalize ⟨19⟩ s).1 = true := by
  intro s
  have hacyclic : shapeSession.types.Acyclic :=
    TypeSystem.acyclic_of_isEnd (by decide +kernel)
  have hadmitted : (Canonicalization.type ⟨18⟩).Admitted (fresh shapeSession.types) := by
    unfold Canonicalization.Admitted fresh
    decide +kernel
  have hkinds : ∀ i < s.types.pool.size, s.types.isSoundKind (s.types.kind ⟨i⟩) = true := by
    decide +kernel
  have hbound : ∀ i < s.types.typeVars.size, (s.types.typeVar ⟨i⟩).bound ≠ .null ∧
      s.types.isReference (s.types.typeVar ⟨i⟩).bound = true := by decide +kernel
  have hlater : Later (fresh shapeSession.types) s := .canonicalize _ (.refl _) hadmitted
  have hty : s.types.pool.Has ⟨19⟩ := by decide +kernel
  have href : s.types.isReference ⟨19⟩ = true := by decide +kernel
  exact isSubtype_canonicalize shapeSession_reachable.forget hacyclic hlater
    (TypeSystem.rooted_of_isSoundKind hkinds fun i hi => (hbound i hi).2)
    (fun v hv => (hbound v.index hv).1) hty href
    (TypeSystem.joinsReferences_of_isSoundKind hkinds _)

/-- A session that declares a type variable bounded by the null type. -/
def nullBoundSession : Canonicalizer :=
  ((fresh .initial).declared (.addMethodTypeParam "T" (some .null))).asked (.typeVar ⟨0⟩)

/-- The null type is a reference type that may bound a variable, and yet the variable is not below
it. -/
theorem not_isSubtype_canonicalize_null :
    Reachable nullBoundSession ∧ nullBoundSession.types.Acyclic ∧ nullBoundSession.types.Rooted ∧
      (∀ c, ¬ Relation.TransGen nullBoundSession.types.Inherits c c) ∧
      (∀ i < nullBoundSession.types.classes.size,
        ∀ ty ∈ nullBoundSession.types.declaredSupertypes ⟨i⟩,
          (nullBoundSession.types.classOf? ty).isSome) ∧
      nullBoundSession.types.declaredSupertypes .object = [] ∧
      nullBoundSession.types.pool.HasKind ⟨13⟩ (.var ⟨0⟩) ∧
      nullBoundSession.types.isReference ⟨13⟩ = true ∧
      nullBoundSession.types.JoinsReferences ⟨13⟩ ∧
      (canonicalize ⟨13⟩ nullBoundSession).2.types.isSubtype ⟨13⟩
        (canonicalize ⟨13⟩ nullBoundSession).1 = false := by
  have hkinds : ∀ i < nullBoundSession.types.pool.size,
      nullBoundSession.types.isSoundKind (nullBoundSession.types.kind ⟨i⟩) = true := by
    decide +kernel
  refine ⟨?_, TypeSystem.acyclic_of_isEnd (by decide +kernel),
    TypeSystem.rooted_of_isSoundKind hkinds (by decide +kernel),
    TypeSystem.not_inherits_self (by decide +kernel), by decide +kernel, by decide +kernel,
    by decide +kernel, by decide +kernel, TypeSystem.joinsReferences_of_isSoundKind hkinds _,
    by decide +kernel⟩
  refine .ask _ (.declare _ .initial ?_) trivial
  unfold TypeSystem.Declaration.Admitted
  decide +kernel

end Erasure.Canonicalizer
