/-
Erasure in two steps.

A member is made canonical in two steps: first the type variables of its class and of itself are
replaced by their canonical forms, then the types that result are made canonical. The replacement
keeps outlines, so nothing is lost or gained by it. The main statements:

* `canonicalizeAfter_follows`: the two steps end at the outline of the type.
* `canonicalizeAfter_agrees`: they end where the second step alone does, in whichever order both are
  taken.
-/
import Erasure.Proofs.Canonical.Monotone

namespace Erasure.Canonicalizer

variable {s t : Canonicalizer} {V : TypeVarId → Prop} {ty : TypeId}

/-- The canonical form of what a substitution makes of a type, if there is a substitution. -/
def canonicalizeAfter (erasing : CanonicalM (Option SubstId)) (ty : TypeId) :
    CanonicalM TypeId := do
  match ← erasing with
  | some sub => do
    let image ← liftM (Pool.substitute sub ty : StateM Pool TypeId)
    canonicalize image
  | none => canonicalize ty

/-- Now and in all states that follow, the action answers with a substitution that replaces variables
by their canonical forms, if it answers with any. -/
def BindsErased (erasing : CanonicalM (Option SubstId)) (s : Canonicalizer) : Prop :=
  ∀ t, Store.Grows s t → t.Valid →
    Keeps erasing t fun x u => ∀ sub ∈ x, ∃ vs, u.BindsCanonical vs sub

theorem bindsErased_classErasure (hs : s.Valid) (hacyclic : s.types.Acyclic) (c : ClassId) :
    BindsErased (classErasure c) s := by
  intro t hst ht
  refine (classErasure_computes ht (acyclic_of_grows hs hst hacyclic) c).toKeeps.mono ?_
  exact fun x u _ hu hfind => hu.classSubsts hfind

theorem bindsErased_memberErasure (hs : s.Valid) (hacyclic : s.types.Acyclic) {m : MemberId}
    (hm : s.types.HasMember m) : BindsErased (memberErasure m) s := by
  intro t hst ht
  have hm' : t.types.HasMember m := hm.of_le hst.le.1
  refine (memberErasure_computes ht (acyclic_of_grows hs hst hacyclic) hm').toKeeps.mono ?_
  exact fun x u _ hu hfind sub hsub => ⟨_, (hu.memberSubsts hfind).binds sub hsub⟩

theorem BindsErased.of_grows {erasing : CanonicalM (Option SubstId)} (h : BindsErased erasing s)
    (hst : Store.Grows s t) : BindsErased erasing t :=
  fun u htu hu => h u (hst.trans htu) hu

section

variable (hs : s.Valid) (hacyclic : s.types.Acyclic) (hf : Faithful V s)
  (hty : s.types.pool.Has ty)
include hs hacyclic hf hty

/-- Replacing variables by their canonical forms keeps the outline of a type. -/
theorem substitute_keepsOutline {vs : List TypeVarId} {sub : SubstId}
    (hbinds : s.BindsCanonical vs sub) :
    Keeps (liftM (Pool.substitute sub ty : StateM Pool TypeId) : CanonicalM TypeId) s fun r t =>
      Faithful V t ∧ t.types.pool.Has r ∧ KeepsOutline V t.types ty r := by
  obtain ⟨bs, hbs⟩ := hbinds.exists_bindings
  have hrun := lift_computes hs (TypeSystem.lift_computes hs.types
    (Pool.substitute_computes hs.types.pool hbs hty))
  refine hrun.toKeeps.mono fun r t hst ht hr => ?_
  have hf' := hf.of_grows hs hacyclic hst ht
  exact ⟨hf', hr.2, hf'.keepsOutline (hbinds.of_le hst.le) (hbs.of_le hst.le.1.1) hr.1⟩

/-- In two steps a type comes to its outline. -/
theorem canonicalizeAfter_follows {erasing : CanonicalM (Option SubstId)}
    (herasing : BindsErased erasing s) :
    Keeps (canonicalizeAfter erasing ty) s fun r t =>
      Faithful V t ∧ FollowsOutline V t.types ty r := by
  unfold canonicalizeAfter
  refine (herasing s (.refl s) hs).bind fun x t hst ht hx => ?_
  have hacyclic' := acyclic_of_grows hs hst hacyclic
  have hf' := hf.of_grows hs hacyclic hst ht
  have hty' : t.types.pool.Has ty := hty.of_le hst.le.1.1
  cases x with
  | none => exact canonicalize_follows ht hacyclic' hf' hty'
  | some sub =>
    obtain ⟨vs, hbinds⟩ := hx sub rfl
    refine (substitute_keepsOutline ht hacyclic' hf' hty' hbinds).bind
      fun image u htu hu ⟨hfu, himage, hkeeps⟩ => ?_
    have hcanonical := canonicalize_follows hu (acyclic_of_grows ht htu hacyclic') hfu himage
    refine hcanonical.mono fun r w huw hw ⟨hfw, hr⟩ => ⟨hfw, fun shape houtline => ?_⟩
    have hold := houtline.of_extended hu.types (Extends.types huw) (hty'.of_le htu.le.1.1)
    exact hr shape ((hkeeps shape hold).of_extends (Extends.types huw))

end

/-! ### Agreement -/

/-- After either of the actions the other one finds the same type. -/
def FindSame (act act' : CanonicalM TypeId) (s : Canonicalizer) : Prop :=
  (act' (act s).2).1 = (act s).1 ∧ (act (act' s).2).1 = (act' s).1

/-- Actions that come to the outline of one type, one after the other, find one type. -/
theorem eq_of_follows {act act' : CanonicalM TypeId} {shape : Shape}
    (hshape : s.types.HasOutline V ty shape)
    (hact : Keeps act s fun r t => Faithful V t ∧ FollowsOutline V t.types ty r)
    (hact' : ∀ t, Store.Grows s t → t.Valid → Faithful V t →
      Keeps act' t fun r u => Faithful V u ∧ FollowsOutline V u.types ty r) :
    (act' (act s).2).1 = (act s).1 := by
  have hthen := hact' _ hact.grows hact.valid hact.post.1
  have hext : TypeSystem.Extends s.types (act s).2.types := Extends.types hact.grows
  have hext' : TypeSystem.Extends (act s).2.types (act' (act s).2).2.types :=
    Extends.types hthen.grows
  have hold := hact.post.2 shape (hshape.of_extends hext)
  have hnew := hthen.post.2 shape ((hshape.of_extends hext).of_extends hext')
  exact hnew.inj (hold.of_le hext'.le.1)

/-- In an acyclic type system, and whatever was made canonical before: replacing the type parameters
in scope of a class, or those of a member, by their canonical forms does not change the canonical form
of a type that leads to no open upper bound. -/
theorem canonicalizeAfter_agrees {ts : TypeSystem} (hts : Reachable (fresh ts))
    (hacyclic : ts.Acyclic) (hs : Later (fresh ts) s) (hty : s.types.pool.Has ty)
    (hplain : s.types.IsPlain ty) :
    (∀ c, FindSame (canonicalizeAfter (classErasure c) ty) (canonicalize ty) s) ∧
      ∀ m, s.types.HasMember m →
        FindSame (canonicalizeAfter (memberErasure m) ty) (canonicalize ty) s := by
  obtain ⟨hgrows, hvalid⟩ := hs.grows hts.valid hacyclic
  have hacyclic' := acyclic_of_grows hts.valid hgrows hacyclic
  have hf : Faithful (fun _ => True) s := hs.faithful hts.valid.types hacyclic
  obtain ⟨shape, hshape⟩ := hplain.exists_outline hvalid.types hacyclic' hty
  have hagree : ∀ {erasing}, BindsErased erasing s →
      FindSame (canonicalizeAfter erasing ty) (canonicalize ty) s := by
    intro erasing herasing
    have htwo : ∀ t, Store.Grows s t → t.Valid → Faithful (fun _ => True) t →
        Keeps (canonicalizeAfter erasing ty) t fun r u =>
          Faithful (fun _ => True) u ∧ FollowsOutline (fun _ => True) u.types ty r :=
      fun t hst ht hft => canonicalizeAfter_follows ht (acyclic_of_grows hvalid hst hacyclic') hft
        (hty.of_le hst.le.1.1) (herasing.of_grows hst)
    have hone : ∀ t, Store.Grows s t → t.Valid → Faithful (fun _ => True) t →
        Keeps (canonicalize ty) t fun r u =>
          Faithful (fun _ => True) u ∧ FollowsOutline (fun _ => True) u.types ty r :=
      fun t hst ht hft => canonicalize_follows ht (acyclic_of_grows hvalid hst hacyclic') hft
        (hty.of_le hst.le.1.1)
    exact ⟨eq_of_follows hshape (htwo s (.refl s) hvalid hf) hone,
      eq_of_follows hshape (hone s (.refl s) hvalid hf) htwo⟩
  exact ⟨fun c => hagree (bindsErased_classErasure hvalid hacyclic' c),
    fun m hm => hagree (bindsErased_memberErasure hvalid hacyclic' hm)⟩

/-- A session with a class `Row<T extends String[]>` that declares a method `<U extends T> U get()`,
and with the array `U[]`. -/
def rowSession : Canonicalizer :=
  let s := (fresh .initial).asked (.array .string)
  let s := s.declared (.declareClass "Row" {})
  let s := (s.declared (.addTypeParam ⟨2⟩ "T" (some ⟨13⟩))).asked (.typeVar ⟨0⟩)
  let s := (s.declared (.addMethodTypeParam "U" (some ⟨14⟩))).asked (.typeVar ⟨1⟩)
  let s := (s.asked (.intern "get")).asked (.array ⟨15⟩)
  s.declared (.declareMember ⟨2⟩ (.method ⟨12⟩ [] ⟨15⟩ [⟨1⟩]) {})

theorem rowSession_wellFormed : Reachable rowSession ∧ rowSession.types.Acyclic ∧
    rowSession.types.WellFormed ∧ rowSession.types.BoundsReferences := by
  -- The steps and the last state make one goal, so that the prelude is evaluated once.
  suffices h : (_ ∧ _ ∧ _ ∧ _ ∧ _) ∧ _ by
    obtain ⟨⟨h₁, h₂, h₃, h₄, h₅⟩, hflat⟩ := h
    have hreachable : Reachable rowSession :=
      .declare _ (.ask _ (.ask _ (.ask _ (.declare _ (.ask _ (.declare _ (.declare _ (.ask _ .initial
        h₁) trivial) h₂) trivial) h₃) trivial) trivial) h₄) h₅
    exact ⟨hreachable, hreachable.wellFormed_of_flat hflat⟩
  unfold TypeSystem.Query.Admitted TypeSystem.Declaration.Admitted
  decide +kernel

/-- The array `U[]` and the erasing substitutions of the class and of its method, after `T` was made
canonical. -/
theorem canonicalizeAfter_agrees_row :
    let s := (fresh rowSession.types).canonicalized (.type ⟨14⟩)
    FindSame (canonicalizeAfter (classErasure ⟨2⟩) ⟨16⟩) (canonicalize ⟨16⟩) s ∧
      FindSame (canonicalizeAfter (memberErasure ⟨15⟩) ⟨16⟩) (canonicalize ⟨16⟩) s := by
  intro s
  obtain ⟨hvar, harray, hmember, hkinds⟩ :
      rowSession.types.pool.Has ⟨14⟩ ∧ s.types.pool.Has ⟨16⟩ ∧ s.types.HasMember ⟨15⟩ ∧
        ∀ i < s.types.pool.size, s.types.isPlainKind (s.types.kind ⟨i⟩) = true := by
    decide +kernel
  obtain ⟨hreachable, hacyclic, -⟩ := rowSession_wellFormed
  have hlater : Later (fresh rowSession.types) s := later_canonicalized hvar
  have hagrees := canonicalizeAfter_agrees hreachable.forget hacyclic hlater harray
    (TypeSystem.isPlain_of_kinds hkinds _)
  exact ⟨hagrees.1 ⟨2⟩, hagrees.2 ⟨15⟩ hmember⟩

end Erasure.Canonicalizer
