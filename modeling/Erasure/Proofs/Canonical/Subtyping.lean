/-
The classes above a class, and the types below the root class.

The closure of a class is found level by level, in a bounded number of levels; it is nevertheless
everything that the class inherits from. Subtyping takes a bounded number of steps as well, and more
steps find no fewer subtypes. The main statements:

* `mem_classClosure_iff`: the closure of a class are the classes that it inherits from.
* `isSubtypeWithin_mono`: more steps find no fewer subtypes.
* `isSubtypeWithin_raw`: a type is below each class in the closure of its erasure.
-/
import Erasure.Proofs.Canonical.Addition

namespace Erasure.TypeSystem

variable {ts us : TypeSystem}

/-! ### The classes above a class -/

theorem mem_appendNew {α : Type} [DecidableEq α] {seen xs : List α} {x : α} :
    x ∈ appendNew seen xs ↔ x ∈ seen ∨ x ∈ xs := by
  induction xs generalizing seen with
  | nil => simp [appendNew]
  | cons y xs ih =>
    rw [show appendNew seen (y :: xs) = appendNew (if y ∈ seen then seen else seen ++ [y]) xs from rfl,
      ih, List.mem_cons]
    split
    case isTrue hy =>
      constructor
      · exact Or.imp_right Or.inr
      · rintro (h | rfl | h)
        · exact Or.inl h
        · exact Or.inl hy
        · exact Or.inr h
    case isFalse => rw [List.mem_append, List.mem_singleton, or_assoc]

/-- The first class extends the second one directly. -/
def Inherits (ts : TypeSystem) (c d : ClassId) : Prop := d ∈ ts.superclasses c

theorem mem_closureWithin_of_mem {levels : Nat} {seen level : List ClassId} {c : ClassId}
    (h : c ∈ seen) : c ∈ ts.closureWithin levels seen level := by
  induction levels generalizing seen level with
  | zero => exact h
  | succ levels ih =>
    obtain ⟨new, -, -, hstep⟩ := exists_closureWithin_succ ts seen level
    rw [hstep]
    split
    · exact h
    · exact ih (List.mem_append_left _ h)

/-- What a class seen before the next level extends is seen with the next level, if this held of the
classes before the current one. -/
theorem mem_appendNew_of_inherits {seen level : List ClassId} {c d : ClassId}
    (hdone : ∀ c ∈ seen, c ∉ level → ∀ d, ts.Inherits c d → d ∈ seen) (hc : c ∈ seen)
    (h : ts.Inherits c d) : d ∈ appendNew seen (level.flatMap ts.superclasses) := by
  rw [mem_appendNew]
  by_cases hlevel : c ∈ level
  · exact Or.inr (List.mem_flatMap.mpr ⟨c, hlevel, h⟩)
  · exact Or.inl (hdone c hc hlevel d h)

/-- What a class found in some levels extends is found with one level more. -/
theorem mem_closureWithin_succ {levels : Nat} {seen level : List ClassId} {c d : ClassId}
    (hdone : ∀ c ∈ seen, c ∉ level → ∀ d, ts.Inherits c d → d ∈ seen)
    (hc : c ∈ ts.closureWithin levels seen level) (h : ts.Inherits c d) :
    d ∈ ts.closureWithin (levels + 1) seen level := by
  induction levels generalizing seen level with
  | zero =>
    obtain ⟨new, heq, -, hstep⟩ := exists_closureWithin_succ ts seen level
    have hd : d ∈ seen ++ new := heq ▸ mem_appendNew_of_inherits hdone hc h
    rw [hstep]
    split
    case isTrue hnone => rwa [hnone, List.append_nil] at hd
    case isFalse => exact hd
  | succ levels ih =>
    obtain ⟨new, heq, -, hstep⟩ := exists_closureWithin_succ ts seen level
    rw [hstep] at hc ⊢
    split at hc
    case isTrue hnone =>
      have hd : d ∈ seen ++ new := heq ▸ mem_appendNew_of_inherits hdone hc h
      rw [if_pos hnone]
      rwa [hnone, List.append_nil] at hd
    case isFalse hnone =>
      rw [if_neg hnone]
      refine ih (fun e he hnew f hf => ?_) hc
      exact heq ▸ mem_appendNew_of_inherits hdone ((List.mem_append.mp he).resolve_right hnew) hf

/-- Classes found in some levels are extended by classes seen before. -/
theorem inherits_of_mem_closureWithin {levels : Nat} {seen level : List ClassId} {c d : ClassId}
    (hlevel : ∀ e ∈ level, e ∈ seen) (hseen : ∀ e ∈ seen, Relation.ReflTransGen ts.Inherits c e)
    (h : d ∈ ts.closureWithin levels seen level) : Relation.ReflTransGen ts.Inherits c d := by
  induction levels generalizing seen level with
  | zero => exact hseen d h
  | succ levels ih =>
    obtain ⟨new, -, hnew, hstep⟩ := exists_closureWithin_succ ts seen level
    rw [hstep] at h
    split at h
    · exact hseen d h
    · refine ih (fun e he => List.mem_append_right _ he) (fun e he => ?_) h
      rcases List.mem_append.mp he with he | he
      · exact hseen e he
      · obtain ⟨-, b, hb, hbe⟩ := hnew e he
        exact (hseen b (hlevel b hb)).tail hbe

/-- The closure of a class are the classes that it inherits from. -/
theorem mem_classClosure_iff {c d : ClassId} :
    d ∈ ts.classClosure c ↔ Relation.ReflTransGen ts.Inherits c d := by
  have hself : ∀ e ∈ [c], e = c := fun e he => List.mem_singleton.mp he
  constructor
  · exact inherits_of_mem_closureWithin (fun _ he => he) fun e he => hself e he ▸ .refl
  · intro h
    induction h with
    | refl => exact mem_closureWithin_of_mem List.mem_cons_self
    | tail _ hstep ih =>
      rw [← closureWithin_eq_classClosure (Nat.le_succ _)]
      exact mem_closureWithin_succ (fun e he hnot => absurd he hnot) ih hstep

/-- No class inherits from itself when all extend older classes only. -/
theorem not_inherits_self
    (hold : ∀ i < ts.classes.size, ∀ d ∈ ts.superclasses ⟨i⟩, d.index < i) (c : ClassId) :
    ¬ Relation.TransGen ts.Inherits c c := by
  have hstep : ∀ {c d}, ts.Inherits c d → d.index < c.index := by
    intro c d h
    by_cases hlt : c.index < ts.classes.size
    · exact hold c.index hlt d h
    · rw [Inherits, superclasses_of_not_lt hlt] at h
      exact absurd h List.not_mem_nil
  have hlt : ∀ {c d}, Relation.TransGen ts.Inherits c d → d.index < c.index := by
    intro c d h
    induction h with
    | single h => exact hstep h
    | tail _ h ih => exact Nat.lt_trans (hstep h) ih
  exact fun h => Nat.lt_irrefl _ (hlt h)

/-- No class inherits from itself when none is in the closure of a class that it extends. -/
theorem not_inherits_self_of_closure
    (h : ∀ i < ts.classes.size, ∀ d ∈ ts.superclasses ⟨i⟩, ⟨i⟩ ∉ ts.classClosure d) (c : ClassId) :
    ¬ Relation.TransGen ts.Inherits c c := by
  intro hcycle
  obtain ⟨d, hd, hdc⟩ := Relation.TransGen.head'_iff.mp hcycle
  by_cases hlt : c.index < ts.classes.size
  · exact h c.index hlt d hd (mem_classClosure_iff.mpr hdc)
  · rw [Inherits, superclasses_of_not_lt hlt] at hd
    exact absurd hd List.not_mem_nil

/-! ### Steps of a subtyping test -/

/-- One step of a subtyping test, which asks `below` about the pairs that it comes down to. -/
def subtypeStep (ts : TypeSystem) (below : TypeId → TypeId → Bool) (sub sup : TypeId) : Bool :=
  sub = sup ||
  match ts.kind sub, ts.kind sup with
  | .prim _, _ | _, .prim _ => false
  | .null, _ => true
  | _, .null => false
  | .lub l, _ => (ts.pool.candidates l).all fun c => below c sup
  | _, .lub l => (ts.pool.candidates l).any fun c => below sub c
  | .var v, _ => below (ts.typeVar v).bound sup
  | _, .var _ => false
  | .array a, .array b => if ts.isReference a && ts.isReference b then below a b else a = b
  | .array _, k => k.class? = some .object
  | _, .array _ => false
  | _, .raw c | _, .inst c _ _ => c ∈ ts.erasedClosure sub

theorem isSubtypeWithin_succ (d : Nat) (t u : TypeId) :
    ts.isSubtypeWithin (d + 1) t u = ts.subtypeStep (ts.isSubtypeWithin d) t u := by
  unfold isSubtypeWithin subtypeStep
  cases ts.kind t <;> cases ts.kind u <;> rfl

/-- More steps find no fewer subtypes. -/
theorem isSubtypeWithin_mono {d d' : Nat} {t u : TypeId} (hle : d ≤ d')
    (h : ts.isSubtypeWithin d t u = true) : ts.isSubtypeWithin d' t u = true := by
  induction d generalizing d' t u with
  | zero => cases h
  | succ d ih =>
    obtain ⟨k, rfl⟩ := Nat.exists_eq_add_of_le hle
    rw [Nat.add_right_comm]
    have hrest : ∀ {t u}, ts.isSubtypeWithin d t u = true → ts.isSubtypeWithin (d + k) t u = true :=
      ih (Nat.le_add_right d k)
    rw [isSubtypeWithin_succ, subtypeStep, Bool.or_eq_true] at h ⊢
    refine h.imp_right fun h => ?_
    have helems : ∀ {a b : TypeId},
        (if ts.isReference a && ts.isReference b then ts.isSubtypeWithin d a b
          else decide (a = b)) = true →
        (if ts.isReference a && ts.isReference b then ts.isSubtypeWithin (d + k) a b
          else decide (a = b)) = true := by
      intro a b h
      split at h
      case isTrue href => exact (if_pos href).trans (hrest h)
      case isFalse href => exact (if_neg href).trans h
    cases ht : ts.kind t <;> cases hu : ts.kind u <;>
      simp only [ht, hu, List.all_eq_true, List.any_eq_true] at h ⊢ <;>
      first
      | exact h
      | exact hrest h
      | exact fun c hc => hrest (h c hc)
      | exact h.imp fun c hc => ⟨hc.1, hrest hc.2⟩
      | exact helems h

theorem isSubtypeWithin_self (d : Nat) (t : TypeId) : ts.isSubtypeWithin (d + 1) t t = true := by
  rw [isSubtypeWithin_succ, subtypeStep, decide_eq_true rfl, Bool.true_or]

section Rules

variable {d : Nat} {t u : TypeId}

theorem isSubtypeWithin_of_null (ht : ts.kind t = .null) (hu : ∀ r, ts.kind u ≠ .prim r) :
    ts.isSubtypeWithin (d + 1) t u = true := by
  rw [isSubtypeWithin_succ, subtypeStep, Bool.or_eq_true, ht]
  cases hk : ts.kind u with
  | prim r => exact absurd hk (hu r)
  | null | array _ | raw _ | var _ | inst _ _ _ | lub _ => exact Or.inr rfl

theorem isSubtypeWithin_of_candidates {l : LubId} (ht : ts.kind t = .lub l)
    (hprim : ∀ r, ts.kind u ≠ .prim r) (hnull : ts.kind u ≠ .null)
    (h : ∀ c ∈ ts.pool.candidates l, ts.isSubtypeWithin d c u = true) :
    ts.isSubtypeWithin (d + 1) t u = true := by
  rw [isSubtypeWithin_succ, subtypeStep, Bool.or_eq_true, ht]
  cases hk : ts.kind u with
  | prim r => exact absurd hk (hprim r)
  | null => exact absurd hk hnull
  | array _ | raw _ | var _ | inst _ _ _ | lub _ => exact Or.inr (List.all_eq_true.mpr h)

theorem isSubtypeWithin_of_bound {v : TypeVarId} (ht : ts.kind t = .var v)
    (hprim : ∀ r, ts.kind u ≠ .prim r) (hnull : ts.kind u ≠ .null) (hlub : ∀ l, ts.kind u ≠ .lub l)
    (h : ts.isSubtypeWithin d (ts.typeVar v).bound u = true) :
    ts.isSubtypeWithin (d + 1) t u = true := by
  rw [isSubtypeWithin_succ, subtypeStep, Bool.or_eq_true, ht]
  cases hk : ts.kind u with
  | prim r => exact absurd hk (hprim r)
  | null => exact absurd hk hnull
  | lub l => exact absurd hk (hlub l)
  | array _ | raw _ | var _ | inst _ _ _ => exact Or.inr h

theorem isSubtypeWithin_of_elems {a b : TypeId} (ht : ts.kind t = .array a)
    (hu : ts.kind u = .array b) (ha : ts.isReference a = true) (hb : ts.isReference b = true)
    (h : ts.isSubtypeWithin d a b = true) : ts.isSubtypeWithin (d + 1) t u = true := by
  rw [isSubtypeWithin_succ, subtypeStep, Bool.or_eq_true, ht, hu]
  dsimp only
  rw [ha, hb]
  exact Or.inr h

theorem isSubtypeWithin_of_array {a : TypeId} (ht : ts.kind t = .array a)
    (hu : ts.kind u = .raw .object) : ts.isSubtypeWithin (d + 1) t u = true := by
  rw [isSubtypeWithin_succ, subtypeStep, Bool.or_eq_true, ht, hu]
  exact Or.inr rfl

theorem isSubtypeWithin_of_class {b c : ClassId} (ht : ts.classOf? t = some b)
    (hu : ts.kind u = .raw c) (h : c ∈ ts.erasedClosure t) :
    ts.isSubtypeWithin (d + 1) t u = true := by
  rw [isSubtypeWithin_succ, subtypeStep, Bool.or_eq_true, hu]
  unfold classOf? at ht
  cases hk : ts.kind t with rw [hk] at ht
  | raw _ | inst _ _ _ => exact Or.inr (decide_eq_true h)
  | prim _ | null | array _ | var _ | lub _ => cases ht

/-- Nothing but a primitive type is below a primitive type. -/
theorem ne_prim_of_isSubtypeWithin (ht : ∀ r, ts.kind t ≠ .prim r)
    (h : ts.isSubtypeWithin d t u = true) (r : Primitive) : ts.kind u ≠ .prim r := by
  intro hu
  cases d with
  | zero => cases h
  | succ d =>
    rw [isSubtypeWithin_succ, subtypeStep, Bool.or_eq_true, hu] at h
    rcases h with heq | h
    · exact ht r (of_decide_eq_true heq ▸ hu)
    · cases hk : ts.kind t with rw [hk] at h
      | prim r' => exact ht r' hk
      | null | array _ | raw _ | var _ | inst _ _ _ | lub _ => cases h

/-- Nothing but the null type is below the null type. -/
theorem kind_eq_null_of_isSubtypeWithin (hu : ts.kind u = .null)
    (h : ts.isSubtypeWithin d t u = true) : ts.kind t = .null := by
  cases d with
  | zero => cases h
  | succ d =>
    rw [isSubtypeWithin_succ, subtypeStep, Bool.or_eq_true, hu] at h
    rcases h with heq | h
    · exact of_decide_eq_true heq ▸ hu
    · cases hk : ts.kind t with
      | null => rfl
      | prim _ | array _ | raw _ | var _ | inst _ _ _ | lub _ =>
        rw [hk] at h
        cases h

end Rules

/-! ### References -/

/-- The flags tell which types are references: all but the primitive ones. -/
theorem isReference_iff (hts : ts.Valid) {ty : TypeId} (hty : ts.pool.Has ty) :
    ts.isReference ty = true ↔ ∀ r, ts.kind ty ≠ .prim r := by
  rw [isReference, flags, Pool.flags_of_head TypeFlags.isReference (fun _ _ => rfl) hts.pool hty,
    kind]
  cases ts.pool.kind ty <;> simp [TypeKind.headFlags]

/-! ### Sound types -/

/-- The class extends the root class. -/
def ExtendsRoot (ts : TypeSystem) (c : ClassId) : Prop :=
  Relation.ReflTransGen ts.Inherits c .object

/-- Type variables that erasure meets in the type are declared with a bound that is a reference
type other than the null type, classes extend the root class, and upper bounds are those of at least
two types, all of them references. -/
structure Sound (ts : TypeSystem) (ty : TypeId) : Prop where
  var : ∀ {u v}, Relation.ReflTransGen ts.LooksInto ty u → ts.pool.HasKind u (.var v) →
    v.index < ts.typeVars.size ∧ ts.isReference (ts.typeVar v).bound = true ∧
      (ts.typeVar v).bound ≠ .null
  root : ∀ {u c}, Relation.ReflTransGen ts.LooksInto ty u → ts.classOf? u = some c →
    ts.ExtendsRoot c
  candidates : ∀ {u l}, Relation.ReflTransGen ts.LooksInto ty u → ts.pool.HasKind u (.lub l) →
    2 ≤ (ts.pool.candidates l).length ∧ ∀ c ∈ ts.pool.candidates l, ts.isReference c = true

theorem Sound.part {ty u : TypeId} (h : ts.Sound ty) (hstep : ts.LooksInto ty u) : ts.Sound u where
  var hu hk := h.var (.head hstep hu) hk
  root hu hc := h.root (.head hstep hu) hc
  candidates hu hk := h.candidates (.head hstep hu) hk

theorem Sound.of_extends (hts : ts.Valid) (hext : Extends ts us) {ty : TypeId}
    (hty : ts.pool.Has ty) (h : ts.Sound ty) : us.Sound ty where
  var {u v} hu hk := by
    obtain ⟨hhas, hu⟩ := looksInto_star_of_extends hts.grounded hext hty hu
    obtain ⟨hlt, href, hnull⟩ := h.var hu (hk.of_ge hext.le.1 hhas)
    rw [hext.typeVars_eq, hext.typeVar_eq]
    exact ⟨hlt, (hext.preserves hts).isReference_eq (hts.bound v) ▸ href, hnull⟩
  root {u c} hu hc := by
    obtain ⟨hhas, hu⟩ := looksInto_star_of_extends hts.grounded hext hty hu
    rw [classOf?_of_le hext.le hhas] at hc
    have hinherits : us.Inherits = ts.Inherits := by
      funext a b
      rw [Inherits, Inherits, hext.superclasses_eq hts]
    rw [ExtendsRoot, hinherits]
    exact h.root hu hc
  candidates {u l} hu hk := by
    obtain ⟨hhas, hu⟩ := looksInto_star_of_extends hts.grounded hext hty hu
    have hk' := hk.of_ge hext.le.1 hhas
    rw [candidates_of_le hts hext.le hhas hk'.kind_eq]
    obtain ⟨htwo, hrefs⟩ := h.candidates hu hk'
    refine ⟨htwo, fun c hc => ?_⟩
    rw [(hext.preserves hts).isReference_eq (has_candidates hts hhas hk'.kind_eq c hc)]
    exact hrefs c hc

/-- The types mention declared variables only, bounds are references, and every class mentioned
extends the root class. -/
structure Rooted (ts : TypeSystem) : Prop where
  vars : ts.DeclaresVars
  bound : ∀ v, v.index < ts.typeVars.size → ts.isReference (ts.typeVar v).bound = true
  root : ∀ c, ts.Mentions c → ts.ExtendsRoot c

/-- The upper bounds that the type leads to are those of at least two types, all references. -/
def JoinsReferences (ts : TypeSystem) (ty : TypeId) : Prop :=
  ∀ {u l}, Relation.ReflTransGen ts.LooksInto ty u → ts.pool.HasKind u (.lub l) →
    2 ≤ (ts.pool.candidates l).length ∧ ∀ c ∈ ts.pool.candidates l, ts.isReference c = true

theorem Rooted.sound (hts : ts.Valid) (h : ts.Rooted)
    (hnull : ∀ v, v.index < ts.typeVars.size → (ts.typeVar v).bound ≠ .null) {ty : TypeId}
    (hty : ts.pool.Has ty) (hjoins : ts.JoinsReferences ty) : ts.Sound ty where
  var {u v} _ hk := ⟨h.vars hk, h.bound v (h.vars hk), hnull v (h.vars hk)⟩
  root {u c} hu hc := by
    have hhas : ts.pool.Has u := by
      cases hu with
      | refl => exact hty
      | tail _ hstep => exact hstep.has hts.grounded
    exact h.root c ⟨u, hhas, hc⟩
  candidates := hjoins

/-- Whether the kind mentions a declared variable, a class that extends the root class, or two or
more candidates that are references, if it mentions any of these. -/
def isSoundKind (ts : TypeSystem) : TypeKind → Bool
  | .var v => v.index < ts.typeVars.size
  | .raw c | .inst c _ _ => .object ∈ ts.classClosure c
  | .lub l => 2 ≤ (ts.pool.candidates l).length && (ts.pool.candidates l).all ts.isReference
  | .prim _ | .null | .array _ => true

section

variable (hkinds : ∀ i < ts.pool.size, ts.isSoundKind (ts.kind ⟨i⟩) = true)
include hkinds

theorem isSoundKind_of_hasKind {ty : TypeId} {k : TypeKind} (hk : ts.pool.HasKind ty k) :
    ts.isSoundKind k = true := hk.kind_eq ▸ hkinds ty.index hk.has

theorem rooted_of_isSoundKind
    (hbound : ∀ i < ts.typeVars.size, ts.isReference (ts.typeVar ⟨i⟩).bound = true) :
    ts.Rooted where
  vars hk := of_decide_eq_true (isSoundKind_of_hasKind hkinds hk)
  bound v hv := hbound v.index hv
  root c hc := by
    obtain ⟨ty, hty, hc⟩ := hc
    have hkind := isSoundKind_of_hasKind hkinds hty.hasKind
    refine mem_classClosure_iff.mp ?_
    rw [classOf?, kind] at hc
    cases hk : ts.pool.kind ty with rw [hk] at hc hkind
    | raw _ | inst _ _ _ =>
      cases hc
      exact of_decide_eq_true hkind
    | prim _ | null | array _ | var _ | lub _ => cases hc

theorem joinsReferences_of_isSoundKind (ty : TypeId) : ts.JoinsReferences ty := by
  intro u l _ hk
  obtain ⟨htwo, hrefs⟩ := Bool.and_eq_true_iff.mp (isSoundKind_of_hasKind hkinds hk)
  exact ⟨of_decide_eq_true htwo, List.all_eq_true.mp hrefs⟩

end

/-- Bounds of a type variable end where those of its bound do, if all variables met are declared. -/
theorem boundErasure_var_of_declared (hts : ts.Valid) (hacyclic : ts.AcyclicBounds) {ty : TypeId}
    {v : TypeVarId} (hk : ts.pool.HasKind ty (.var v))
    (hvars : ∀ {u w}, Relation.ReflTransGen ts.LooksInto ty u → ts.pool.HasKind u (.var w) →
      w.index < ts.typeVars.size) :
    ts.boundErasure ty = ts.boundErasure (ts.typeVar v).bound := by
  have hstep := LooksInto.bound hk
  have hfewer := card_reached_lt_of_var hacyclic hstep hk (hvars .refl hk)
  have hle := card_reached_bound ts.LooksInto ts.varMark ts.typeVars.size ty
  obtain ⟨u, hu⟩ := exists_followBounds hts hacyclic (hts.bound v)
    (fun h hk => hvars (.head hstep h) hk) (le_refl _)
  rw [boundErasure, boundErasure, followBounds, show ts.kind ty = .var v from hk.kind_eq]
  dsimp only
  rw [followBounds_of_le (by omega) hu, followBounds_of_le (by omega) hu]

/-- Bounds of a sound type variable end where those of its bound do. -/
theorem boundErasure_var (hts : ts.Valid) (hacyclic : ts.Acyclic) {ty : TypeId} {v : TypeVarId}
    (hk : ts.pool.HasKind ty (.var v)) (hsound : ts.Sound ty) :
    ts.boundErasure ty = ts.boundErasure (ts.typeVar v).bound :=
  boundErasure_var_of_declared hts hacyclic.acyclicBounds hk fun hu hk => (hsound.var hu hk).1

theorem erasedClosure_var (hts : ts.Valid) (hacyclic : ts.Acyclic) {ty : TypeId} {v : TypeVarId}
    (hk : ts.pool.HasKind ty (.var v)) (hsound : ts.Sound ty) :
    ts.erasedClosure ty = ts.erasedClosure (ts.typeVar v).bound := by
  rw [erasedClosure, boundErasure_var hts hacyclic hk hsound, erasedClosure]

theorem erasedClosure_of_ne_var {ty : TypeId} (h : ∀ v, ts.kind ty ≠ .var v) :
    ts.erasedClosure ty = match ts.classOf? ty with
      | some c => ts.classClosure c
      | none => [.object] := by
  have hclass : ts.classOf? (ts.boundErasure ty) = ts.classOf? ty := by
    rw [boundErasure_of_ne_var h]
  exact hclass ▸ rfl

/-! ### Below a class -/

/-- A sound reference type is below the root class. -/
theorem isSubtypeWithin_object (hts : ts.Valid) (hacyclic : ts.Acyclic) {ty : TypeId}
    (hty : ts.pool.Has ty) (href : ts.isReference ty = true) (hsound : ts.Sound ty) :
    ts.isSubtypeWithin (ts.rank ty + 1) ty .object = true := by
  have hobject : ts.kind .object = .raw .object := hts.object.kind_eq
  have hprim : ∀ r, ts.kind .object ≠ .prim r := by simp [hobject]
  have hnull : ts.kind .object ≠ .null := by simp [hobject]
  induction hn : ts.rank ty using Nat.strongRecOn generalizing ty with
  | ind n ih =>
    have hpart : ∀ u, ts.LooksInto ty u → ts.isReference u = true →
        ts.isSubtypeWithin n u .object = true := by
      intro u hu href
      have hlt := hn ▸ rank_lt hts.grounded hacyclic.acyclicBounds hu
      exact isSubtypeWithin_mono hlt (ih _ hlt (hu.has hts.grounded) href (hsound.part hu) rfl)
    have hkind := hty.hasKind
    cases hk : ts.pool.kind ty with rw [hk] at hkind
    | prim r => exact absurd hk ((isReference_iff hts hty).mp href r)
    | null => exact isSubtypeWithin_of_null hk hprim
    | array elem => exact isSubtypeWithin_of_array hk hobject
    | raw c | inst c _ _ =>
      have hclass : ts.classOf? ty = some c := by rw [classOf?, kind, hk]; rfl
      refine isSubtypeWithin_of_class hclass hobject ?_
      rw [erasedClosure_of_ne_var (by simp [kind, hk]), hclass]
      exact mem_classClosure_iff.mpr (hsound.root .refl hclass)
    | var v =>
      have hbound := hpart _ (.bound hkind) (hsound.var .refl hkind).2.1
      exact isSubtypeWithin_of_bound hk hprim hnull (by simp [hobject]) hbound
    | lub l =>
      have hrefs := (hsound.candidates .refl hkind).2
      exact isSubtypeWithin_of_candidates hk hprim hnull fun c hc =>
        hpart c (.candidate hkind hc) (hrefs c hc)

/-- A sound reference type is below each class in the closure of its erasure. -/
theorem isSubtypeWithin_raw (hts : ts.Valid) (hacyclic : ts.Acyclic) {ty u : TypeId} {c : ClassId}
    (hty : ts.pool.Has ty) (href : ts.isReference ty = true) (hsound : ts.Sound ty)
    (hu : ts.pool.HasKind u (.raw c)) (hc : c ∈ ts.erasedClosure ty) :
    ts.isSubtypeWithin (ts.rank ty + 1) ty u = true := by
  have hraw : ts.kind u = .raw c := hu.kind_eq
  induction hn : ts.rank ty using Nat.strongRecOn generalizing ty with
  | ind n ih =>
    have hkind := hty.hasKind
    cases hk : ts.pool.kind ty with rw [hk] at hkind
    | prim r => exact absurd hk ((isReference_iff hts hty).mp href r)
    | null | array _ | lub _ =>
      have hclass : ts.classOf? ty = none := by rw [classOf?, kind, hk]; rfl
      rw [erasedClosure_of_ne_var (by simp [kind, hk]), hclass] at hc
      obtain rfl := List.mem_singleton.mp hc
      obtain rfl := hu.inj hts.object
      exact hn ▸ isSubtypeWithin_object hts hacyclic hty href hsound
    | raw b | inst b _ _ =>
      exact isSubtypeWithin_of_class (b := b) (by rw [classOf?, kind, hk]; rfl) hraw hc
    | var v =>
      have hstep := LooksInto.bound hkind
      have hlt := hn ▸ rank_lt hts.grounded hacyclic.acyclicBounds hstep
      rw [erasedClosure_var hts hacyclic hkind hsound] at hc
      have hbound := ih _ hlt (hts.bound v) (hsound.var .refl hkind).2.1 (hsound.part hstep) hc rfl
      refine isSubtypeWithin_of_bound hk ?_ ?_ ?_ (isSubtypeWithin_mono hlt hbound)
      all_goals simp [hraw]

end Erasure.TypeSystem
