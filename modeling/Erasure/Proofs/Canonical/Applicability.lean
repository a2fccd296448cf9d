/-
Applicability and erasure.

A procedure is applicable to arguments that are assignable to its formals with the bounds of type
variables in their place. Only a variable that is a formal is replaced by its bound, not one that is
the element type of an array. So what is applicable is so after erasure, but not the other way
around. The main statements:

* `canonicalizeAll_shapes`: canonical forms have the outlines of the types.
* `erasedApplicable_iff`: after erasure the outlines of the arguments and formals decide.
* `isApplicable_iff_erased`: what is applicable after erasure is so before, exactly if the arguments
  climb to the formals; the canonical forms of the formals do not, if a formal holds an array of a
  variable.
-/
import Erasure.Proofs.Canonical.Monotone
import Erasure.Proofs.Subtyping.Climbing

namespace Erasure

/-! ### Lists -/

section Lists

variable {α β α' β' : Type}

/-- A test of the lengths and of all pairs of two lists. -/
theorem length_and_all_zip_iff {xs : List α} {ys : List β} {p : α × β → Bool} :
    (xs.length = ys.length && (xs.zip ys).all p) = true ↔
      List.Forall₂ (fun x y => p (x, y) = true) xs ys := by
  rw [List.forall₂_iff_zip, Bool.and_eq_true, decide_eq_true_eq, List.all_eq_true]
  exact and_congr_right fun _ => ⟨fun h _ _ => h _, fun h ⟨_, _⟩ => h⟩

/-- Lists relate as the lists of their images do, if their members do. -/
theorem forall₂_iff_of_related {R : α → α' → Prop} {S : β → β' → Prop} {P : α → β → Prop}
    {P' : α' → β' → Prop} {xs : List α} {xs' : List α'} {ys : List β} {ys' : List β'}
    (hxs : List.Forall₂ R xs xs') (hys : List.Forall₂ S ys ys')
    (h : ∀ {x x' y y'}, R x x' → S y y' → (P' x' y' ↔ P x y)) :
    List.Forall₂ P' xs' ys' ↔ List.Forall₂ P xs ys := by
  induction hxs generalizing ys ys' with
  | nil => cases hys <;> simp
  | cons hx _ ih =>
    cases hys with
    | nil => simp
    | cons hy hys => rw [List.forall₂_cons, List.forall₂_cons, h hx hy, ih hys]

theorem forall₂_congr_of_mem {P P' : α → β → Prop} {xs : List α} {ys : List β}
    (h : ∀ x ∈ xs, ∀ y ∈ ys, (P x y ↔ P' x y)) : List.Forall₂ P xs ys ↔ List.Forall₂ P' xs ys := by
  rw [List.forall₂_iff_zip, List.forall₂_iff_zip]
  refine and_congr_right fun _ => forall_congr' fun x => forall_congr' fun y => ?_
  exact ⟨fun hp hmem => (h x (List.of_mem_zip hmem).1 y (List.of_mem_zip hmem).2).mp (hp hmem),
    fun hp hmem => (h x (List.of_mem_zip hmem).1 y (List.of_mem_zip hmem).2).mpr (hp hmem)⟩

theorem forall₂_and_iff {P Q : α → β → Prop} {xs : List α} {ys : List β} :
    List.Forall₂ (fun x y => P x y ∧ Q x y) xs ys ↔
      List.Forall₂ P xs ys ∧ List.Forall₂ Q xs ys := by
  rw [List.forall₂_iff_zip, List.forall₂_iff_zip, List.forall₂_iff_zip]
  exact ⟨fun ⟨hl, h⟩ => ⟨⟨hl, fun hm => (h hm).1⟩, hl, fun hm => (h hm).2⟩,
    fun ⟨⟨hl, h⟩, _, h'⟩ => ⟨hl, fun hm => ⟨h hm, h' hm⟩⟩⟩

end Lists

namespace TypeSystem

variable {ts : TypeSystem}

/-- The outline of the second type fits that of the first one. -/
def TakesErased (ts : TypeSystem) (formal arg : TypeId) : Prop :=
  ∃ a b, ts.HasOutline (fun _ => True) arg a ∧ ts.HasOutline (fun _ => True) formal b ∧
    a.Fits ts.Inherits b

theorem isApplicable_iff_forall₂ {m : MemberId} {args : List TypeId} :
    ts.isApplicable m args = true ↔ List.Forall₂ (fun formal arg =>
      ts.isAssignable arg (ts.boundErasure formal) = true) (ts.member m).kind.formals args :=
  length_and_all_zip_iff

theorem takesErased_iff {formal arg : TypeId} {a b : Shape}
    (ha : ts.HasOutline (fun _ => True) arg a) (hb : ts.HasOutline (fun _ => True) formal b) :
    ts.TakesErased formal arg ↔ a.Fits ts.Inherits b := by
  refine ⟨?_, fun hfits => ⟨a, b, ha, hb, hfits⟩⟩
  rintro ⟨a', b', ha', hb', hfits⟩
  rwa [ha.unique ha', hb.unique hb']

/-- A formal takes what it takes after erasure and what climbs to its bound. -/
theorem isAssignable_boundErasure_iff (h : ts.WellFormed) (hacyclic : ts.Acyclic)
    (hbounds : ts.BoundsReferences) {formal arg : TypeId} {a b : Shape}
    (ha : ts.HasOutline (fun _ => True) arg a) (hb : ts.HasOutline (fun _ => True) formal b) :
    ts.isAssignable arg (ts.boundErasure formal) = true ↔
      ts.TakesErased formal arg ∧ ts.Climbs arg (ts.boundErasure formal) := by
  rw [isAssignable_iff_climbs h hbounds ha (hb.boundErasure hacyclic), takesErased_iff ha hb]

end TypeSystem

namespace Canonicalizer

variable {s : Canonicalizer} {m : MemberId} {args : List TypeId}

/-! ### Applicability after erasure -/

/-- The canonical forms of the formals of a procedure. -/
def erasedFormals (m : MemberId) : CanonicalM (List TypeId) := do
  ((← get).types.member m).kind.formals.mapM canonicalize

/-- Whether the canonical forms of the arguments are as many as the formals and assignable to the
canonical forms of these. -/
def erasedApplicable (m : MemberId) (args : List TypeId) : CanonicalM Bool := do
  let formals ← erasedFormals m
  let args ← args.mapM canonicalize
  let ts := (← get).types
  return formals.length = args.length &&
    (formals.zip args).all fun (formal, arg) => ts.isAssignable arg formal

/-- Every type of the list has an outline. -/
def HaveOutlines (ts : TypeSystem) (tys : List TypeId) : Prop :=
  ∀ ty ∈ tys, ∃ shape, ts.HasOutline (fun _ => True) ty shape

/-- The canonical forms of types with outlines have these for their shapes. -/
theorem canonicalizeAll_shapes {ts : TypeSystem} {tys : List TypeId} (hs : s.WellFormed)
    (hext : TypeSystem.Extends ts s.types) (htys : HaveOutlines ts tys) :
    Keeps (tys.mapM canonicalize) s fun rs (t : Canonicalizer) => List.Forall₂ (fun ty r =>
      ∃ shape, ts.HasOutline (fun _ => True) ty shape ∧ t.types.pool.HasShape r shape) tys rs := by
  refine Keeps.mapM (R := fun ty r (t : Canonicalizer) => ∃ shape,
    ts.HasOutline (fun _ => True) ty shape ∧ t.types.pool.HasShape r shape) ?_ hs.valid ?_
  · exact fun _ _ _ _ htu ⟨shape, houtline, hshape⟩ => ⟨shape, houtline, hshape.of_le htu.le.1.1⟩
  · intro ty hty t hst ht
    have hwt := hs.of_grows hst ht
    obtain ⟨shape, houtline⟩ := htys ty hty
    have houtline' := houtline.of_extends (hext.trans (Extends.types hst))
    have hrun := canonicalize_follows ht hwt.acyclic hwt.faithful houtline'.has
    refine hrun.mono fun r u htu _ ⟨_, hr⟩ => ⟨shape, houtline, ?_⟩
    exact hr shape (houtline'.of_extends (Extends.types htu))

theorem erasedFormals_shapes (hs : s.WellFormed)
    (hformals : HaveOutlines s.types (s.types.member m).kind.formals) :
    Keeps (erasedFormals m) s fun rs t => List.Forall₂ (fun ty r => ∃ shape,
      s.types.HasOutline (fun _ => True) ty shape ∧ t.types.pool.HasShape r shape)
        (s.types.member m).kind.formals rs :=
  Keeps.get_bind (canonicalizeAll_shapes hs (.refl _) hformals)

/-- After erasure the outlines decide. -/
theorem erasedApplicable_iff (hs : s.WellFormed)
    (hformals : HaveOutlines s.types (s.types.member m).kind.formals)
    (hargs : HaveOutlines s.types args) :
    (erasedApplicable m args s).1 = true ↔
      List.Forall₂ s.types.TakesErased (s.types.member m).kind.formals args := by
  have hrun : Keeps (erasedApplicable m args) s fun answer _ => answer = true ↔
      List.Forall₂ s.types.TakesErased (s.types.member m).kind.formals args := by
    unfold erasedApplicable
    refine (erasedFormals_shapes hs hformals).bind fun formals' t hst ht hformals' => ?_
    have hwt := hs.of_grows hst ht
    refine (canonicalizeAll_shapes hwt (Extends.types hst) hargs).bind
      fun args' u htu hu hargs' => ?_
    have hwu := hwt.of_grows htu hu
    have hext : TypeSystem.Extends s.types u.types := Extends.types (hst.trans htu)
    refine Keeps.get_bind (Keeps.pure hu ?_)
    rw [length_and_all_zip_iff]
    refine forall₂_iff_of_related hformals' hargs' fun hformal harg => ?_
    obtain ⟨b, hb, hb'⟩ := hformal
    obtain ⟨a, ha, ha'⟩ := harg
    rw [TypeSystem.isAssignable_iff_fits hwu.types hwu.bounds ha' (hb'.of_le htu.le.1.1),
      hs.types.inherits_eq hext, TypeSystem.takesErased_iff ha hb]
  exact hrun.post

/-! ### Applicability -/

/-- A procedure is applicable exactly if it is so after erasure and the arguments climb. -/
theorem isApplicable_iff_climbs (hs : s.WellFormed)
    (hformals : HaveOutlines s.types (s.types.member m).kind.formals)
    (hargs : HaveOutlines s.types args) :
    s.types.isApplicable m args = true ↔ (erasedApplicable m args s).1 = true ∧
      List.Forall₂ (fun formal arg => s.types.Climbs arg (s.types.boundErasure formal))
        (s.types.member m).kind.formals args := by
  rw [erasedApplicable_iff hs hformals hargs, TypeSystem.isApplicable_iff_forall₂,
    ← forall₂_and_iff]
  refine forall₂_congr_of_mem fun formal hformal arg harg => ?_
  obtain ⟨b, hb⟩ := hformals formal hformal
  obtain ⟨a, ha⟩ := hargs arg harg
  exact TypeSystem.isAssignable_boundErasure_iff hs.types hs.acyclic hs.bounds ha hb

/-- A procedure with a formal that ends in an array of a variable is not applicable to the canonical
forms of its formals, though it is after erasure. -/
theorem not_isApplicable_erasedFormals (hs : s.WellFormed) (hm : s.types.HasMember m)
    (hformals : HaveOutlines s.types (s.types.member m).kind.formals)
    (hnull : ∀ v, v.index < s.types.typeVars.size → (s.types.typeVar v).bound ≠ .null)
    {formal : TypeId} (hformal : formal ∈ (s.types.member m).kind.formals) {v : TypeVarId}
    (hv : s.types.UnderArrays (s.types.boundErasure formal) (.var v)) :
    let args := (erasedFormals m s).1
    let t := (erasedFormals m s).2
    t.types.isApplicable m args = false ∧ (erasedApplicable m args t).1 = true := by
  intro args t
  have hrun := erasedFormals_shapes hs hformals
  have ht : t.WellFormed := hs.of_grows hrun.grows hrun.valid
  have hext : TypeSystem.Extends s.types t.types := Extends.types hrun.grows
  have hshapes := hrun.post
  have hmember : t.types.member m = s.types.member m := TypeSystem.member_of_le hext.le hm
  have hformals' : HaveOutlines t.types (t.types.member m).kind.formals := fun ty hty =>
    (hformals ty (hmember ▸ hty)).imp fun _ h => h.of_extends hext
  have hargs : HaveOutlines t.types args := by
    intro arg harg
    obtain ⟨_, -, shape, -, hshape⟩ := exists_of_forall₂_right hshapes harg
    exact ⟨shape, TypeSystem.hasOutline_of_hasShape hshape⟩
  constructor
  case left =>
    rw [Bool.eq_false_iff]
    intro happlicable
    have hclimbs := ((isApplicable_iff_climbs ht hformals' hargs).mp happlicable).2
    rw [hmember] at hclimbs
    obtain ⟨arg, -, ⟨shape, hb, hshape⟩, hclimb⟩ :=
      exists_of_forall₂_left (forall₂_and_iff.mpr ⟨hshapes, hclimbs⟩) hformal
    have hbound : t.types.boundErasure formal = s.types.boundErasure formal :=
      (hext.preserves hs.valid.types).boundErasure_eq hb.has
    have hnull' : ∀ v, v.index < t.types.typeVars.size → (t.types.typeVar v).bound ≠ .null := by
      intro v hv
      rw [hext.typeVars_eq] at hv
      rw [hext.typeVar_eq]
      exact hnull v hv
    have houtline := (hb.of_extends hext).boundErasure ht.acyclic
    rw [hbound] at hclimb houtline
    exact TypeSystem.not_climbs_of_hasShape ht.types.toGrounded hnull' (hv.of_le hext.le) houtline
      hshape hclimb
  case right =>
    rw [erasedApplicable_iff ht hformals' hargs, hmember]
    refine hshapes.imp fun formal arg ⟨shape, hb, hshape⟩ => ?_
    exact ⟨shape, shape, TypeSystem.hasOutline_of_hasShape hshape, hb.of_extends hext,
      .below .refl⟩

/-- In a well-formed type system whose bounds are references, and whatever was made canonical before:
a procedure is applicable to arguments exactly if it is so after erasure and the arguments climb to the
formals. So the two agree for all arguments if no formal is, by its bounds, an array of a variable. If
one is, and no variable is bounded by the null type, the procedure is not applicable to the canonical
forms of its own formals, though it is after erasure. -/
theorem isApplicable_iff_erased {ts : TypeSystem} (hts : Reachable (fresh ts))
    (hacyclic : ts.Acyclic) (hwf : ts.WellFormed) (hbounds : ts.BoundsReferences)
    (hs : Later (fresh ts) s) (hm : s.types.HasMember m)
    (hplain : ∀ formal ∈ (s.types.member m).kind.formals, s.types.IsPlain formal) :
    let formals := (s.types.member m).kind.formals
    (∀ args, (∀ arg ∈ args, s.types.pool.Has arg ∧ s.types.IsPlain arg) →
      (s.types.isApplicable m args = true ↔ (erasedApplicable m args s).1 = true ∧
        List.Forall₂ (fun formal arg => s.types.Climbs arg (s.types.boundErasure formal))
          formals args) ∧
      ((∀ formal ∈ formals, ¬ s.types.IsOpen (s.types.boundErasure formal)) →
        s.types.isApplicable m args = (erasedApplicable m args s).1)) ∧
    ((∀ v, v.index < s.types.typeVars.size → (s.types.typeVar v).bound ≠ .null) →
      ∀ formal ∈ formals, ∀ v, s.types.UnderArrays (s.types.boundErasure formal) (.var v) →
        let args := (erasedFormals m s).1
        let t := (erasedFormals m s).2
        t.types.isApplicable m args = false ∧ (erasedApplicable m args t).1 = true) := by
  have h := hs.wellFormed hts hacyclic hwf hbounds
  have hformals : HaveOutlines s.types (s.types.member m).kind.formals := fun formal hformal =>
    (hplain formal hformal).exists_outline h.valid.types h.acyclic
      ((h.valid.types.keys hm.hasKey).types formal (MemberKind.mem_types_of_mem_formals hformal))
  refine ⟨fun args hargs => ?_, fun hnull formal hformal v hv => ?_⟩
  · have hargs' : HaveOutlines s.types args := fun arg harg =>
      (hargs arg harg).2.exists_outline h.valid.types h.acyclic (hargs arg harg).1
    have hiff := isApplicable_iff_climbs h hformals hargs'
    refine ⟨hiff, fun hclosed => Bool.eq_iff_iff.mpr (hiff.trans (and_iff_left_of_imp ?_))⟩
    intro herased
    rw [erasedApplicable_iff h hformals hargs'] at herased
    obtain ⟨hlength, -⟩ := List.forall₂_iff_zip.mp herased
    exact List.forall₂_iff_zip.mpr ⟨hlength, fun hpair =>
      .closed (hclosed _ (List.of_mem_zip hpair).1)⟩
  · exact not_isApplicable_erasedFormals h hm hformals hnull hformal hv

/-- A session with a class `Sort` that declares a method `<U> void sort(U[])`, and with the array
`String[]`. -/
def sortSession : Canonicalizer :=
  let s := (fresh .initial).declared (.declareClass "Sort" {})
  let s := (s.declared (.addMethodTypeParam "U" none)).asked (.typeVar ⟨0⟩)
  let s := ((s.asked (.array ⟨13⟩)).asked (.array .string)).asked (.intern "sort")
  s.declared (.declareMember ⟨2⟩ (.method ⟨11⟩ [⟨14⟩] Primitive.void.typeId [⟨0⟩]) {})

theorem sortSession_wellFormed : Reachable sortSession ∧ sortSession.types.Acyclic ∧
    sortSession.types.WellFormed ∧ sortSession.types.BoundsReferences := by
  -- The steps and the last state make one goal, so that the prelude is evaluated once.
  suffices h : (_ ∧ _ ∧ _) ∧ _ by
    obtain ⟨⟨h₁, h₂, h₃⟩, hflat⟩ := h
    have hreachable : Reachable sortSession :=
      .declare _ (.ask _ (.ask _ (.ask _ (.ask _ (.declare _ (.declare _ .initial trivial) nofun)
        trivial) h₁) h₂) trivial) h₃
    exact ⟨hreachable, hreachable.wellFormed_of_flat hflat⟩
  unfold TypeSystem.Query.Admitted TypeSystem.Declaration.Admitted
  decide +kernel

/-- The method takes an array of strings after erasure only: `String[]` does not climb to `U[]`, nor does
`Object[]`, the canonical form of the formal. -/
theorem isApplicable_iff_erased_sort :
    let s := (fresh sortSession.types).canonicalized (.type ⟨14⟩)
    s.types.isApplicable ⟨15⟩ [⟨15⟩] = false ∧ (erasedApplicable ⟨15⟩ [⟨15⟩] s).1 = true ∧
      ¬ s.types.Climbs ⟨15⟩ ⟨14⟩ ∧
      (erasedFormals ⟨15⟩ s).2.types.isApplicable ⟨15⟩ (erasedFormals ⟨15⟩ s).1 = false := by
  intro s
  obtain ⟨harg, harray, hvar, hmember, hformals, hbound⟩ :
      sortSession.types.pool.Has ⟨14⟩ ∧ s.types.pool.HasKind ⟨14⟩ (.array ⟨13⟩) ∧
        s.types.pool.HasKind ⟨13⟩ (.var ⟨0⟩) ∧ s.types.HasMember ⟨15⟩ ∧
        (s.types.member ⟨15⟩).kind.formals = [⟨14⟩] ∧ s.types.boundErasure ⟨14⟩ = ⟨14⟩ := by
    decide +kernel
  obtain ⟨hhas, hkinds, hnull, hnot, herased⟩ :
      s.types.pool.Has ⟨15⟩ ∧
        (∀ i < s.types.pool.size, s.types.isPlainKind (s.types.kind ⟨i⟩) = true) ∧
        (∀ i < s.types.typeVars.size, (s.types.typeVar ⟨i⟩).bound ≠ .null) ∧
        s.types.isApplicable ⟨15⟩ [⟨15⟩] = false ∧ (erasedApplicable ⟨15⟩ [⟨15⟩] s).1 = true := by
    decide +kernel
  obtain ⟨hreachable, hacyclic, hwf, hbounds⟩ := sortSession_wellFormed
  have hlater : Later (fresh sortSession.types) s := later_canonicalized harg
  have hplain : ∀ ty, s.types.IsPlain ty := TypeSystem.isPlain_of_kinds hkinds
  have happlicable := isApplicable_iff_erased hreachable.forget hacyclic hwf hbounds hlater hmember
    fun _ _ => hplain _
  rw [hformals] at happlicable
  have hexact := (happlicable.1 [⟨15⟩] fun arg harg =>
    ⟨List.mem_singleton.mp harg ▸ hhas, hplain arg⟩).1
  have hown := happlicable.2 (fun v hv => hnull v.index hv) ⟨14⟩ List.mem_cons_self ⟨0⟩
    (hbound.symm ▸ .array harray (.self hvar))
  refine ⟨hnot, herased, fun hclimbs => ?_, hown.1⟩
  have hwrong := hexact.mpr ⟨herased, .cons (hbound.symm ▸ hclimbs) .nil⟩
  exact Bool.false_ne_true (hnot.symm.trans hwrong)

end Canonicalizer

end Erasure
