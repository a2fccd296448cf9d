/-
Subtyping is a preorder.

Transitivity goes by induction on the rank of the first type and the numbers of the other two: an
upper bound on the left is taken apart first, then one in the middle and one on the right, then the
bound of a type variable, and last the element types of arrays. The main statements:

* `isSubtype_trans`: subtyping is transitive.
* `isSubtype_preorder`: it comes to an end, is reflexive and transitive.
-/
import Erasure.Proofs.Canonical.Session
import Erasure.Proofs.Subtyping.Recursion

namespace Erasure.TypeSystem

variable {ts : TypeSystem} {t u w : TypeId}

/-- The root class inherits from no other class. -/
theorem WellFormed.eq_object (h : ts.WellFormed) {c : ClassId}
    (hc : Relation.ReflTransGen ts.Inherits .object c) : c = .object := by
  rcases Relation.ReflTransGen.cases_head hc with rfl | ⟨d, hd, -⟩
  · rfl
  · rw [Inherits, superclasses, h.root] at hd
    exact absurd hd List.not_mem_nil

/-- Different types of which one is a subtype of the other are references, and the second is not the
null type. -/
theorem isReference_of_isSubtype (h : ts.WellFormed) (ht : ts.pool.Has t) (hu : ts.pool.Has u)
    (hne : t ≠ u) (htu : ts.isSubtype t u = true) :
    (ts.kind t).isReference = true ∧ (ts.kind u).isReference = true ∧ ts.kind u ≠ .null := by
  refine ⟨?_, ?_, fun hk => hne ((isSubtype_to_null_iff h ht hu hk).mp htu)⟩
  · cases hk : ts.kind t with
    | prim r => exact absurd ((isSubtype_prim_iff h ht hu hk).mp htu) hne
    | null | array _ | raw _ | var _ | inst _ _ _ | lub _ => rfl
  · cases hk : ts.kind u with
    | prim r => exact absurd ((isSubtype_to_prim_iff h ht hu hk).mp htu) hne
    | null | array _ | raw _ | var _ | inst _ _ _ | lub _ => rfl

/-- The type is an array or a class type. -/
def IsArrayOrClass (ts : TypeSystem) (ty : TypeId) : Prop :=
  (∃ a, ts.kind ty = .array a) ∨ ∃ c, ts.classOf? ty = some c

theorem isArrayOrClass_of_kind_ne (href : (ts.kind t).isReference = true)
    (hnull : ts.kind t ≠ .null) (hlub : ∀ l, ts.kind t ≠ .lub l) (hvar : ∀ v, ts.kind t ≠ .var v) :
    ts.IsArrayOrClass t := by
  unfold IsArrayOrClass classOf?
  cases hk : ts.kind t with
  | array a => exact .inl ⟨a, rfl⟩
  | raw c | inst c _ _ => exact .inr ⟨c, rfl⟩
  | prim r => rw [hk] at href; cases href
  | null => exact absurd hk hnull
  | var v => exact absurd hk (hvar v)
  | lub l => exact absurd hk (hlub l)

/-- Transitivity among arrays and class types, if it holds for the element types of the arrays. -/
theorem isSubtype_trans_of_elems (h : ts.WellFormed) (ht : ts.pool.Has t) (hu : ts.pool.Has u)
    (hw : ts.pool.Has w)
    (helems : ∀ a b c, ts.kind t = .array a → ts.kind u = .array b → ts.kind w = .array c →
      ts.isSubtype a b = true → ts.isSubtype b c = true → ts.isSubtype a c = true)
    (hkindt : ts.IsArrayOrClass t) (hkindu : ts.IsArrayOrClass u) (hkindw : ts.IsArrayOrClass w)
    (hne : t ≠ u) (hne' : u ≠ w)
    (h₁ : ts.isSubtype t u = true) (h₂ : ts.isSubtype u w = true) : ts.isSubtype t w = true := by
  rcases hkindt with ⟨a, hkt⟩ | ⟨c, hct⟩
  · rcases hkindu with ⟨b, hku⟩ | ⟨d, hcu⟩
    · obtain ⟨ha, hb, hab⟩ := ((isSubtype_array_iff h ht hu hkt hku).mp h₁).resolve_left hne
      rcases hkindw with ⟨c, hkw⟩ | ⟨e, hcw⟩
      · obtain ⟨-, hc, hbc⟩ := ((isSubtype_array_iff h hu hw hku hkw).mp h₂).resolve_left hne'
        exact (isSubtype_array_iff h ht hw hkt hkw).mpr
          (.inr ⟨ha, hc, helems a b c hkt hku hkw hab hbc⟩)
      · rw [isSubtype_array_class_iff h hu hw hku hcw] at h₂
        exact (isSubtype_array_class_iff h ht hw hkt hcw).mpr h₂
    · obtain rfl := (isSubtype_array_class_iff h ht hu hkt hcu).mp h₁
      rcases hkindw with ⟨c, hkw⟩ | ⟨e, hcw⟩
      · exact absurd h₂ (not_isSubtype_class_array h hu hw hcu hkw)
      · have hinherits := (isSubtype_class_iff h hu hw hcu hcw).mp h₂
        exact (isSubtype_array_class_iff h ht hw hkt hcw).mpr (h.eq_object hinherits)
  · rcases hkindu with ⟨b, hku⟩ | ⟨d, hcu⟩
    · exact absurd h₁ (not_isSubtype_class_array h ht hu hct hku)
    · rcases hkindw with ⟨c, hkw⟩ | ⟨e, hcw⟩
      · exact absurd h₂ (not_isSubtype_class_array h hu hw hcu hkw)
      · have hinherits := (isSubtype_class_iff h ht hu hct hcu).mp h₁
        exact (isSubtype_class_iff h ht hw hct hcw).mpr
          (hinherits.trans ((isSubtype_class_iff h hu hw hcu hcw).mp h₂))

/-- Subtyping is transitive. -/
theorem isSubtype_trans (h : ts.WellFormed) (ht : ts.pool.Has t) (hu : ts.pool.Has u)
    (hw : ts.pool.Has w) (h₁ : ts.isSubtype t u = true) (h₂ : ts.isSubtype u w = true) :
    ts.isSubtype t w = true := by
  induction hn : ts.rank t + u.index + w.index using Nat.strongRecOn generalizing t u w with
  | ind n ih =>
    by_cases hne : t = u
    · exact hne ▸ h₂
    by_cases hne' : u = w
    · exact hne' ▸ h₁
    obtain ⟨hreft, hrefu, hnullu⟩ := isReference_of_isSubtype h ht hu hne h₁
    obtain ⟨-, hrefw, hnullw⟩ := isReference_of_isSubtype h hu hw hne' h₂
    have hstep : ∀ {x}, ts.LooksInto t x → ts.isSubtype x u = true → ts.isSubtype x w = true := by
      intro x hx hxu
      have hlt := rank_lt h.toGrounded h.acyclic hx
      exact ih _ (by omega) (hx.has h.toGrounded) hu hw hxu h₂ rfl
    by_cases hnullt : ts.kind t = .null
    · exact (isSubtype_null_iff h ht hw hnullt).mpr hrefw
    by_cases hlubt : ∃ l, ts.kind t = .lub l
    · obtain ⟨l, hk⟩ := hlubt
      have hall := ((isSubtype_lub_iff h ht hu hk hrefu hnullu).mp h₁).resolve_left hne
      refine (isSubtype_lub_iff h ht hw hk hrefw hnullw).mpr (.inr fun c hc => ?_)
      exact hstep (.candidate (hk ▸ ht.hasKind) hc) (hall c hc)
    rw [not_exists] at hlubt
    by_cases hlubu : ∃ l, ts.kind u = .lub l
    · obtain ⟨l, hk⟩ := hlubu
      have hku : ts.pool.HasKind u (.lub l) := hk ▸ hu.hasKind
      obtain ⟨c, hc, htc⟩ := (isSubtype_to_lub_iff h ht hu hk hreft hnullt hlubt).mp h₁
      have hcw := ((isSubtype_lub_iff h hu hw hk hrefw hnullw).mp h₂).resolve_left hne' c hc
      have hlt := h.pool.parts_lt hku c hc
      exact ih _ (by omega) ht (h.pool.has_part hku hc) hw htc hcw rfl
    rw [not_exists] at hlubu
    by_cases hlubw : ∃ l, ts.kind w = .lub l
    · obtain ⟨l, hk⟩ := hlubw
      have hkw : ts.pool.HasKind w (.lub l) := hk ▸ hw.hasKind
      obtain ⟨c, hc, huc⟩ := (isSubtype_to_lub_iff h hu hw hk hrefu hnullu hlubu).mp h₂
      have hlt := h.pool.parts_lt hkw c hc
      refine (isSubtype_to_lub_iff h ht hw hk hreft hnullt hlubt).mpr ⟨c, hc, ?_⟩
      exact ih _ (by omega) ht hu (h.pool.has_part hkw hc) h₁ huc rfl
    rw [not_exists] at hlubw
    by_cases hvart : ∃ v, ts.kind t = .var v
    · obtain ⟨v, hk⟩ := hvart
      have hbound := ((isSubtype_var_iff h ht hu hk hrefu hnullu hlubu).mp h₁).resolve_left hne
      refine (isSubtype_var_iff h ht hw hk hrefw hnullw hlubw).mpr (.inr ?_)
      exact hstep (.bound (hk ▸ ht.hasKind)) hbound
    rw [not_exists] at hvart
    have hvaru : ∀ v, ts.kind u ≠ .var v := fun v hk =>
      hne ((isSubtype_to_var_iff h ht hu hk hnullt hlubt hvart).mp h₁)
    have hvarw : ∀ v, ts.kind w ≠ .var v := fun v hk =>
      hne' ((isSubtype_to_var_iff h hu hw hk hnullu hlubu hvaru).mp h₂)
    refine isSubtype_trans_of_elems h ht hu hw (fun a b c hkt hku hkw hab hbc => ?_)
      (isArrayOrClass_of_kind_ne hreft hnullt hlubt hvart)
      (isArrayOrClass_of_kind_ne hrefu hnullu hlubu hvaru)
      (isArrayOrClass_of_kind_ne hrefw hnullw hlubw hvarw) hne hne' h₁ h₂
    have hkt' : ts.pool.HasKind t (.array a) := hkt ▸ ht.hasKind
    have hku' : ts.pool.HasKind u (.array b) := hku ▸ hu.hasKind
    have hkw' : ts.pool.HasKind w (.array c) := hkw ▸ hw.hasKind
    have hlt := rank_lt h.toGrounded h.acyclic (.elem hkt')
    have hltu := h.pool.parts_lt hku' b List.mem_cons_self
    have hltw := h.pool.parts_lt hkw' c List.mem_cons_self
    exact ih _ (by omega) (h.pool.has_part hkt' List.mem_cons_self)
      (h.pool.has_part hku' List.mem_cons_self) (h.pool.has_part hkw' List.mem_cons_self) hab hbc
      rfl

/-- In a well-formed type system:

* the subtyping test comes to an end on all pairs of types: what it comes down to is well-founded,
  its answer is that of one step on what it comes down to, and more steps than its bound change
  nothing;
* so does the search for the classes above a class;
* subtyping is reflexive and transitive. -/
theorem isSubtype_preorder (h : ts.WellFormed) :
    (∀ t u, ts.pool.Has t → ts.pool.Has u → Acc (fun q p => ts.Compares p q) (t, u) ∧
      (∀ below : TypeId → TypeId → Bool,
        (∀ t' u', ts.Compares (t, u) (t', u') → below t' u' = ts.isSubtype t' u') →
          ts.isSubtype t u = ts.subtypeStep below t u) ∧
      ∀ d, ts.subtypingDepth ≤ d → ts.isSubtypeWithin d t u = ts.isSubtype t u) ∧
      (∀ c levels, ts.classes.size ≤ levels →
        ts.closureWithin levels [c] [c] = ts.classClosure c) ∧
      (∀ t, ts.isSubtype t t = true) ∧
      ∀ t u w, ts.pool.Has t → ts.pool.Has u → ts.pool.Has w →
        ts.isSubtype t u = true → ts.isSubtype u w = true → ts.isSubtype t w = true := by
  refine ⟨fun t u ht hu => ⟨acc_compares h.toGrounded h.acyclic t u,
      fun below => isSubtype_eq_step h.toGrounded h.acyclic ht hu, fun d hd => ?_⟩,
    fun c levels hlevels => closureWithin_eq_classClosure hlevels c, isSubtype_self ts,
    fun t u w ht hu hw => isSubtype_trans h ht hu hw⟩
  exact isSubtypeWithin_eq_isSubtype h.toGrounded h.acyclic ht hu hd

/-! ### An example -/

/-- A session with a variable `U` bounded by a variable `T`, an instantiation `Box<U>`, the upper
bound of `U` and `Box<U>`, arrays of that and of the root class, and the upper bound of the first
array and `T`. -/
def chainSession : Canonicalizer :=
  let s := (Canonicalizer.fresh .initial).declared (.declareClass "Box" {})
  let s := (s.declared (.addTypeParam ⟨2⟩ "T" none)).asked (.typeVar ⟨0⟩)
  let s := (s.declared (.addMethodTypeParam "U" (some ⟨13⟩))).asked (.typeVar ⟨1⟩)
  let s := (s.asked (.instantiate ⟨2⟩ [⟨14⟩] none)).asked (.lubOf [⟨14⟩, ⟨15⟩])
  ((s.asked (.array ⟨16⟩)).asked (.lubOf [⟨17⟩, ⟨13⟩])).asked (.array .object)

theorem chainSession_reachable : Canonicalizer.Reachable chainSession := by
  refine .ask _ (.ask _ (.ask _ (.ask _ (.ask _ (.ask _ (.declare _ (.ask _ (.declare _ (.declare _
    .initial ?_) ?_) ?_) ?_) ?_) ?_) ?_) ?_) ?_) ?_
  · trivial
  · unfold Declaration.Admitted; decide +kernel
  · trivial
  · unfold Declaration.Admitted; decide +kernel
  · trivial
  · unfold Query.Admitted HasAll; decide +kernel
  · unfold Query.Admitted HasAll; decide +kernel
  · unfold Query.Admitted; decide +kernel
  · unfold Query.Admitted HasAll; decide +kernel
  · unfold Query.Admitted; decide +kernel

theorem chainSession_wellFormed : chainSession.types.WellFormed :=
  chainSession_reachable.valid.types.wellFormed (by decide +kernel)

/-- The variable `U` is a subtype of its bound `T`, and by that of an upper bound with the candidate
`T`. -/
theorem isSubtype_preorder_chain : chainSession.types.WellFormed ∧
    chainSession.types.isSubtype ⟨14⟩ ⟨13⟩ = true ∧ chainSession.types.isSubtype ⟨13⟩ ⟨18⟩ = true ∧
      chainSession.types.isSubtype ⟨14⟩ ⟨18⟩ = true := by
  obtain ⟨-, -, -, htrans⟩ := isSubtype_preorder chainSession_wellFormed
  obtain ⟨hbound, hcandidate⟩ : chainSession.types.isSubtype ⟨14⟩ ⟨13⟩ = true ∧
      chainSession.types.isSubtype ⟨13⟩ ⟨18⟩ = true := by
    decide +kernel
  obtain ⟨hU, hT, hlub⟩ : chainSession.types.pool.Has ⟨14⟩ ∧ chainSession.types.pool.Has ⟨13⟩ ∧
      chainSession.types.pool.Has ⟨18⟩ := by
    decide +kernel
  exact ⟨chainSession_wellFormed, hbound, hcandidate, htrans _ _ _ hU hT hlub hbound hcandidate⟩

end Erasure.TypeSystem
