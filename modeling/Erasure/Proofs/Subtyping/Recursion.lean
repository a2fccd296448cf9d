/-
Subtyping satisfies its own recursion.

A subtyping test goes from a type to its bound or a part of it, or from the other type to a part.
If no type variable is met again from its own bound, this comes to an end, so the bound on the
number of steps is never met and the answer is that of the recursion without one. The main
statements:

* `acc_compares`: from every pair of types the test comes to an end.
* `isSubtypeWithin_eq_isSubtype`: more steps than the bound change no answer.
* `isSubtype_eq_step`: subtyping is a step of the test in terms of subtyping, from which follows one
  statement for each pair of kinds.
-/
import Erasure.Proofs.Canonical.Subtyping

namespace Erasure.TypeSystem

variable {ts : TypeSystem}

/-! ### Well-formed type systems -/

/-- Classes extend class types, the root class extends nothing, and no type variable is reached
again from its own bound. -/
structure WellFormed (ts : TypeSystem) : Prop extends Grounded ts where
  object : ts.pool.HasKind .object (.raw .object)
  supertypes : ∀ c, ∀ ty ∈ ts.declaredSupertypes c, ∃ d, ts.classOf? ty = some d
  root : ts.declaredSupertypes .object = []
  acyclic : ts.AcyclicBounds

/-- A valid type system is well-formed if all classes extend class types, the root class extends
nothing, and bounds are older than their variables. -/
theorem Valid.wellFormed (hts : ts.Valid)
    (h : (∀ i < ts.classes.size, ∀ ty ∈ ts.declaredSupertypes ⟨i⟩, (ts.classOf? ty).isSome) ∧
      ts.declaredSupertypes .object = [] ∧
      ∀ i < ts.pool.size, ts.isBoundedBelow i (ts.kind ⟨i⟩) = true) : ts.WellFormed where
  toGrounded := hts.grounded
  object := hts.object
  supertypes c ty hty := by
    by_cases hc : c.index < ts.classes.size
    · exact Option.isSome_iff_exists.mp (h.1 c.index hc ty hty)
    · rw [declaredSupertypes, classDef_of_not_lt hc] at hty
      exact absurd hty List.not_mem_nil
  root := h.2.1
  acyclic := acyclicBounds_of_isBoundedBelow hts.pool h.2.2

/-! ### Steps of a test -/

/-- A test of the first pair of types may come down to one of the second. -/
inductive Compares (ts : TypeSystem) : TypeId × TypeId → TypeId × TypeId → Prop
  | candidates {t u c : TypeId} {l : LubId} : ts.pool.HasKind t (.lub l) →
      c ∈ ts.pool.candidates l → Compares ts (t, u) (c, u)
  | candidate {t u c : TypeId} {l : LubId} : ts.pool.HasKind u (.lub l) →
      c ∈ ts.pool.candidates l → Compares ts (t, u) (t, c)
  | bound {t u : TypeId} {v : TypeVarId} : ts.pool.HasKind t (.var v) →
      Compares ts (t, u) ((ts.typeVar v).bound, u)
  | elems {t u a b : TypeId} : ts.pool.HasKind t (.array a) → ts.pool.HasKind u (.array b) →
      Compares ts (t, u) (a, b)

/-- Answers that agree on all pairs that a test comes down to give the same answer for the test. -/
theorem subtypeStep_congr {below below' : TypeId → TypeId → Bool} {t u : TypeId}
    (ht : ts.pool.Has t) (hu : ts.pool.Has u)
    (h : ∀ t' u', ts.Compares (t, u) (t', u') → below t' u' = below' t' u') :
    ts.subtypeStep below t u = ts.subtypeStep below' t u := by
  have hkt := ht.hasKind
  have hku := hu.hasKind
  unfold subtypeStep
  congr 1
  unfold kind
  cases hk : ts.pool.kind t with rw [hk] at hkt
  | lub l =>
    have hall : (ts.pool.candidates l).all (fun c => below c u) =
        (ts.pool.candidates l).all fun c => below' c u :=
      all_congr_of_mem fun c hc => h _ _ (.candidates hkt hc)
    cases ts.pool.kind u <;> first | rfl | exact hall
  | var v =>
    have hbound := h _ _ (.bound hkt)
    cases hk' : ts.pool.kind u with rw [hk'] at hku
    | lub l => exact any_congr_of_mem fun c hc => h _ _ (.candidate hku hc)
    | array _ | raw _ | var _ | inst _ _ _ => exact hbound
  | array a =>
    cases hk' : ts.pool.kind u with rw [hk'] at hku
    | lub l => exact any_congr_of_mem fun c hc => h _ _ (.candidate hku hc)
    | array b =>
      dsimp only
      rw [h _ _ (.elems hkt hku)]
  | raw _ | inst _ _ _ =>
    cases hk' : ts.pool.kind u with rw [hk'] at hku
    | lub l => exact any_congr_of_mem fun c hc => h _ _ (.candidate hku hc)
  | null => cases ts.pool.kind u <;> rfl

/-! ### The test comes to an end -/

section Recursion

variable (hts : ts.Grounded) (hacyclic : ts.AcyclicBounds)
include hts hacyclic

/-- Along a test the rank of the first type falls, or that of the second stays behind. -/
theorem Compares.lt {t u t' u' : TypeId} (h : ts.Compares (t, u) (t', u')) :
    ts.rank t' + u'.index < ts.rank t + u.index := by
  cases h with
  | candidates hk hc => exact Nat.add_lt_add_right (rank_lt hts hacyclic (.candidate hk hc)) _
  | candidate hk hc => exact Nat.add_lt_add_left (hts.pool.parts_lt hk _ hc) _
  | bound hk => exact Nat.add_lt_add_right (rank_lt hts hacyclic (.bound hk)) _
  | elems hk hk' =>
    exact Nat.add_lt_add (rank_lt hts hacyclic (.elem hk))
      (hts.pool.parts_lt hk' _ List.mem_cons_self)

omit hacyclic in
theorem Compares.has {t u t' u' : TypeId} (h : ts.Compares (t, u) (t', u'))
    (ht : ts.pool.Has t) (hu : ts.pool.Has u) : ts.pool.Has t' ∧ ts.pool.Has u' := by
  cases h with
  | candidates hk hc => exact ⟨hts.pool.has_part hk hc, hu⟩
  | candidate hk hc => exact ⟨ht, hts.pool.has_part hk hc⟩
  | bound => exact ⟨hts.bound _, hu⟩
  | elems hk hk' =>
    exact ⟨hts.pool.has_part hk List.mem_cons_self, hts.pool.has_part hk' List.mem_cons_self⟩

/-- From every pair of types the test comes to an end. -/
theorem acc_compares (t u : TypeId) : Acc (fun q p => ts.Compares p q) (t, u) := by
  induction hn : ts.rank t + u.index using Nat.strongRecOn generalizing t u with
  | ind n ih =>
    refine ⟨_, fun ⟨t', u'⟩ h => ?_⟩
    exact ih _ (hn ▸ h.lt hts hacyclic) t' u' rfl

theorem isSubtypeWithin_eq_of_lt {d d' : Nat} {t u : TypeId} (ht : ts.pool.Has t)
    (hu : ts.pool.Has u) (hd : ts.rank t + u.index < d) (hd' : ts.rank t + u.index < d') :
    ts.isSubtypeWithin d t u = ts.isSubtypeWithin d' t u := by
  induction d generalizing d' t u with
  | zero => exact absurd hd (Nat.not_lt_zero _)
  | succ d ih =>
    obtain ⟨d', rfl⟩ := Nat.exists_eq_succ_of_ne_zero (Nat.ne_zero_of_lt hd')
    rw [isSubtypeWithin_succ, isSubtypeWithin_succ]
    refine subtypeStep_congr ht hu fun t' u' h => ?_
    have hlt := h.lt hts hacyclic
    obtain ⟨ht', hu'⟩ := h.has hts ht hu
    exact ih ht' hu' (by omega) (by omega)

omit hts hacyclic in
theorem rank_add_lt_subtypingDepth {t u : TypeId} (ht : ts.pool.Has t) (hu : ts.pool.Has u) :
    ts.rank t + u.index < ts.subtypingDepth := by
  have hrank := rank_lt_mul ht
  have hindex : u.index < ts.pool.size := hu
  have hdepth : ts.subtypingDepth =
      (ts.typeVars.size + 1) * (ts.pool.size + 1) + (ts.pool.size + 1) := by
    rw [subtypingDepth, ← Nat.succ_mul]
  omega

/-- More steps than the bound change no answer. -/
theorem isSubtypeWithin_eq_isSubtype {d : Nat} {t u : TypeId} (ht : ts.pool.Has t)
    (hu : ts.pool.Has u) (hd : ts.subtypingDepth ≤ d) :
    ts.isSubtypeWithin d t u = ts.isSubtype t u := by
  have hlt := rank_add_lt_subtypingDepth ht hu
  exact isSubtypeWithin_eq_of_lt hts hacyclic ht hu (by omega) hlt

/-- Subtyping is a step of the test whose answers on the pairs that it comes down to are those of
subtyping. -/
theorem isSubtype_eq_step {below : TypeId → TypeId → Bool} {t u : TypeId} (ht : ts.pool.Has t)
    (hu : ts.pool.Has u)
    (h : ∀ t' u', ts.Compares (t, u) (t', u') → below t' u' = ts.isSubtype t' u') :
    ts.isSubtype t u = ts.subtypeStep below t u := by
  rw [← isSubtypeWithin_eq_isSubtype hts hacyclic ht hu (Nat.le_succ _), isSubtypeWithin_succ]
  exact (subtypeStep_congr ht hu h).symm

end Recursion

/-! ### Pairs of kinds -/

theorem isReference_eq_kind (hp : ts.pool.Valid) {ty : TypeId} (hty : ts.pool.Has ty) :
    ts.isReference ty = (ts.kind ty).isReference := by
  rw [isReference, flags, Pool.flags_of_head TypeFlags.isReference (fun _ _ => rfl) hp hty, kind]
  cases ts.pool.kind ty <;> rfl

theorem isSubtype_self (ts : TypeSystem) (t : TypeId) : ts.isSubtype t t = true := by
  have hpos : 0 < ts.subtypingDepth := Nat.mul_pos (Nat.succ_pos _) (Nat.succ_pos _)
  rw [isSubtype, ← Nat.succ_pred_eq_of_pos hpos]
  exact isSubtypeWithin_self _ t

section Kinds

variable (h : ts.WellFormed) {t u : TypeId} (ht : ts.pool.Has t) (hu : ts.pool.Has u)
include h ht hu

theorem isSubtype_iff : ts.isSubtype t u = true ↔ ts.subtypeStep ts.isSubtype t u = true := by
  rw [← isSubtype_eq_step h.toGrounded h.acyclic ht hu fun _ _ _ => rfl]

omit h in
theorem eq_of_kind_eq {k : TypeKind} (hkt : ts.kind t = k) (hku : ts.kind u = k) : t = u := by
  have hkt' : ts.pool.HasKind t k := hkt ▸ ht.hasKind
  exact hkt'.inj (hku ▸ hu.hasKind)

/-- A primitive type is a subtype of itself only. -/
theorem isSubtype_prim_iff {r : Primitive} (hk : ts.kind t = .prim r) :
    ts.isSubtype t u = true ↔ t = u := by
  rw [isSubtype_iff h ht hu, subtypeStep, hk]
  simp

/-- Nothing but itself is a subtype of a primitive type. -/
theorem isSubtype_to_prim_iff {r : Primitive} (hk : ts.kind u = .prim r) :
    ts.isSubtype t u = true ↔ t = u := by
  rw [isSubtype_iff h ht hu, subtypeStep, hk]
  cases ts.kind t <;> simp

/-- The null type is a subtype of every reference type. -/
theorem isSubtype_null_iff (hk : ts.kind t = .null) :
    ts.isSubtype t u = true ↔ (ts.kind u).isReference = true := by
  rw [isSubtype_iff h ht hu, subtypeStep, hk]
  cases hku : ts.kind u <;> simp [TypeKind.isReference]
  rintro rfl
  rw [hk] at hku
  cases hku

/-- Nothing but itself is a subtype of the null type. -/
theorem isSubtype_to_null_iff (hk : ts.kind u = .null) :
    ts.isSubtype t u = true ↔ t = u := by
  rw [isSubtype_iff h ht hu, subtypeStep, hk]
  cases hkt : ts.kind t <;> simp
  exact eq_of_kind_eq ht hu hkt hk

/-- An upper bound is a subtype of what all its candidates are subtypes of. -/
theorem isSubtype_lub_iff {l : LubId} (hk : ts.kind t = .lub l)
    (href : (ts.kind u).isReference = true) (hnull : ts.kind u ≠ .null) :
    ts.isSubtype t u = true ↔
      t = u ∨ ∀ c ∈ ts.pool.candidates l, ts.isSubtype c u = true := by
  rw [isSubtype_iff h ht hu, subtypeStep, hk]
  cases hku : ts.kind u <;> simp_all [TypeKind.isReference]

/-- Any other type is a subtype of an upper bound if it is one of a candidate. -/
theorem isSubtype_to_lub_iff {l : LubId} (hk : ts.kind u = .lub l)
    (href : (ts.kind t).isReference = true) (hnull : ts.kind t ≠ .null)
    (hlub : ∀ m, ts.kind t ≠ .lub m) :
    ts.isSubtype t u = true ↔ ∃ c ∈ ts.pool.candidates l, ts.isSubtype t c = true := by
  have hne : t ≠ u := fun heq => hlub l (heq ▸ hk)
  rw [isSubtype_iff h ht hu, subtypeStep, hk]
  cases hkt : ts.kind t <;> simp_all [TypeKind.isReference]

/-- A type variable is a subtype of what its bound is a subtype of. -/
theorem isSubtype_var_iff {v : TypeVarId} (hk : ts.kind t = .var v)
    (href : (ts.kind u).isReference = true) (hnull : ts.kind u ≠ .null)
    (hlub : ∀ l, ts.kind u ≠ .lub l) :
    ts.isSubtype t u = true ↔ t = u ∨ ts.isSubtype (ts.typeVar v).bound u = true := by
  rw [isSubtype_iff h ht hu, subtypeStep, hk]
  cases hku : ts.kind u <;> simp_all [TypeKind.isReference]

/-- An array is a subtype of an array of a type that its element type is a subtype of. -/
theorem isSubtype_array_iff {a b : TypeId} (hkt : ts.kind t = .array a)
    (hku : ts.kind u = .array b) : ts.isSubtype t u = true ↔
      t = u ∨ ((ts.kind a).isReference = true ∧ (ts.kind b).isReference = true ∧
        ts.isSubtype a b = true) := by
  have hkt' : ts.pool.HasKind t (.array a) := hkt ▸ ht.hasKind
  have hku' : ts.pool.HasKind u (.array b) := hku ▸ hu.hasKind
  have ha := isReference_eq_kind h.pool (h.pool.has_part hkt' List.mem_cons_self)
  have hb := isReference_eq_kind h.pool (h.pool.has_part hku' List.mem_cons_self)
  rw [isSubtype_iff h ht hu, subtypeStep, hkt, hku]
  simp only [ha, hb, Bool.or_eq_true, decide_eq_true_eq, ← and_assoc]
  split
  case isTrue href => simp_all
  case isFalse href =>
    rw [Bool.and_eq_true] at href
    simp only [href, false_and, or_false, decide_eq_true_eq]
    refine ⟨fun heq => heq.elim id fun hab => ?_, Or.inl⟩
    exact eq_of_kind_eq ht hu hkt (hab ▸ hku)

/-- Of the class types an array is a subtype of those of the root class. -/
theorem isSubtype_array_class_iff {a : TypeId} {c : ClassId} (hkt : ts.kind t = .array a)
    (hcu : ts.classOf? u = some c) : ts.isSubtype t u = true ↔ c = .object := by
  have hne : t ≠ u := by
    rintro rfl
    rw [classOf?, hkt] at hcu
    cases hcu
  unfold classOf? at hcu
  rw [isSubtype_iff h ht hu, subtypeStep, hkt]
  cases hku : ts.kind u <;> simp_all [TypeKind.class?]

/-- A class type is a subtype of those of the classes it inherits from. -/
theorem isSubtype_class_iff {b c : ClassId} (hct : ts.classOf? t = some b)
    (hcu : ts.classOf? u = some c) :
    ts.isSubtype t u = true ↔ Relation.ReflTransGen ts.Inherits b c := by
  have hclosure : ts.erasedClosure t = ts.classClosure b := by
    have hvar : ∀ v, ts.kind t ≠ .var v := by
      intro v hk
      rw [classOf?, hk] at hct
      cases hct
    rw [erasedClosure_of_ne_var hvar, hct]
  have hself : t = u → c ∈ ts.classClosure b := by
    rintro rfl
    obtain rfl := Option.some.inj (hct.symm.trans hcu)
    exact mem_classClosure_iff.mpr .refl
  rw [← mem_classClosure_iff, isSubtype_iff h ht hu, subtypeStep, hclosure]
  unfold classOf? at hct hcu
  cases hkt : ts.kind t <;> cases hku : ts.kind u <;> simp_all [TypeKind.class?]

/-- No class type is a subtype of an array. -/
theorem not_isSubtype_class_array {b : ClassId} {a : TypeId} (hct : ts.classOf? t = some b)
    (hku : ts.kind u = .array a) : ¬ ts.isSubtype t u = true := by
  have hne : t ≠ u := by
    rintro rfl
    rw [classOf?, hku] at hct
    cases hct
  unfold classOf? at hct
  rw [isSubtype_iff h ht hu, subtypeStep, hku]
  cases hkt : ts.kind t <;> simp_all [TypeKind.class?]

/-- Nothing but a type variable, an upper bound or the null type is a subtype of another type
variable. -/
theorem isSubtype_to_var_iff {v : TypeVarId} (hk : ts.kind u = .var v) (hnull : ts.kind t ≠ .null)
    (hlub : ∀ l, ts.kind t ≠ .lub l) (hvar : ∀ w, ts.kind t ≠ .var w) :
    ts.isSubtype t u = true ↔ t = u := by
  rw [isSubtype_iff h ht hu, subtypeStep, hk]
  cases hkt : ts.kind t <;> simp_all

end Kinds

end Erasure.TypeSystem
