/-
Compilations in order.

A compilation is in order when what is remembered of canonical forms is sound and the layout cache is
right. The stages of a compilation keep it in order, also when they fail, and they declare nothing. It
does not matter what is declared, and how the declarations came about. The main statements:

* `IfOk`: what an answer satisfies, if there is one. `Keeps.ifOk_bind` and `Keeps.ifOk_mapM` put such
  work together.
* `canonical_keeps`, `cached_keeps`: canonicalization, and requests to the layout cache.
* `ofDecl_keeps`: the plan of a class lists the raw types of the interfaces above it.
* `gathered_keeps`: everything that precedes the making of symbols.
-/
import Erasure.Proofs.Canonical.Soundness
import Erasure.Proofs.Compile.Gathering

namespace Erasure

/-! ### Work that can fail -/

section

variable {σ ε α β : Type} [Store σ]

open Store (Grows)

/-- An answer satisfies `P`, if there is one. -/
def IfOk (P : α → σ → Prop) (x : Except ε α) (t : σ) : Prop := ∀ a, x = .ok a → P a t

namespace Keeps

variable {act : ExceptT ε (StateM σ) α} {s : σ} {P Q : α → σ → Prop}

theorem ifOk_mono (h : Keeps act.run s (IfOk P))
    (hPQ : ∀ a t, Grows s t → Store.Valid t → P a t → Q a t) : Keeps act.run s (IfOk Q) :=
  h.mono fun _ t hst ht hP a ha => hPQ a t hst ht (hP a ha)

theorem ifOk_pure {a : α} (hs : Store.Valid s) (ha : P a s) :
    Keeps (Pure.pure a : ExceptT ε (StateM σ) α).run s (IfOk P) :=
  Keeps.pure hs fun _ h => Except.ok.inj h ▸ ha

theorem ifOk_throw {e : ε} (hs : Store.Valid s) :
    Keeps (throw e : ExceptT ε (StateM σ) α).run s (IfOk P) :=
  Keeps.pure hs fun _ h => nomatch h

theorem ifOk_bind {f : α → ExceptT ε (StateM σ) β} {R : β → σ → Prop}
    (h : Keeps act.run s (IfOk P))
    (hf : ∀ a t, Grows s t → Store.Valid t → P a t → Keeps (f a).run t (IfOk R)) :
    Keeps (act >>= f).run s (IfOk R) := by
  apply h.run_bind
  · intro e t _ _ _ b hb
    cases hb
  · intro a t hst ht ha
    exact hf a t hst ht (ha a rfl)

theorem ifOk_map {f : α → β} {R : β → σ → Prop} (h : Keeps act.run s (IfOk P))
    (hf : ∀ a t, P a t → R (f a) t) : Keeps (f <$> act).run s (IfOk R) := by
  rw [map_eq_pure_bind]
  apply h.ifOk_bind
  intro a t _ ht ha
  exact ifOk_pure ht (hf a t ha)

theorem ifOk_lift {act : StateM σ α} (h : Keeps act s P) :
    Keeps (liftM act : ExceptT ε (StateM σ) α).run s (IfOk P) :=
  h.run_lift fun _ _ _ ha _ h => Except.ok.inj h ▸ ha

/-- What holds of the answers from the start holds in the end. -/
theorem ifOk_mapM {f : α → ExceptT ε (StateM σ) β} {R : α → β → σ → Prop} {as : List α}
    (hmono : ∀ a b t u, Grows t u → Store.Valid t → R a b t → R a b u) (hs : Store.Valid s)
    (h : ∀ a ∈ as, ∀ t, Grows s t → Store.Valid t → Keeps (f a).run t (IfOk (R a))) :
    Keeps (as.mapM f).run s (IfOk fun bs t => List.Forall₂ (R · · t) as bs) := by
  induction as generalizing s with
  | nil => exact ifOk_pure hs .nil
  | cons a as ih =>
    rw [List.mapM_cons]
    apply (h a List.mem_cons_self s (.refl s) hs).ifOk_bind
    intro b t hst ht hb
    apply (ih ht fun a' ha' u htu => h a' (List.mem_cons_of_mem _ ha') u (hst.trans htu)).ifOk_bind
    intro bs u htu hu hbs
    exact ifOk_pure hu (.cons (hmono a b t u htu ht hb) hbs)

/-- What every step keeps of the accumulator holds in the end. -/
theorem ifOk_foldlM {f : β → α → ExceptT ε (StateM σ) β} {I : β → σ → Prop} {as : List α} {b : β}
    (hs : Store.Valid s) (hb : I b s)
    (h : ∀ a ∈ as, ∀ b t, Grows s t → Store.Valid t → I b t → Keeps (f b a).run t (IfOk I)) :
    Keeps (as.foldlM f b).run s (IfOk I) := by
  induction as generalizing b s with
  | nil => exact ifOk_pure hs hb
  | cons a as ih =>
    rw [List.foldlM_cons]
    apply (h a List.mem_cons_self b s (.refl s) hs hb).ifOk_bind
    intro c t hst ht hc
    apply ih ht hc
    intro a' ha' d u htu
    exact h a' (List.mem_cons_of_mem _ ha') d u (hst.trans htu)

end Keeps

end

variable {ts us : TypeSystem}

/-! ### Names and interfaces -/

namespace TypeSystem.Extends

theorem isInterface_eq (h : Extends ts us) (c : ClassId) : us.isInterface c = ts.isInterface c := by
  rw [isInterface, isInterface, h.classDef_eq]

theorem className_eq (hts : ts.Valid) (h : Extends ts us) (c : ClassId) :
    us.className c = ts.className c := by
  rw [className, className, h.classDef_eq]
  exact text_of_le h.le (hts.classes c).name

theorem keepsNames (hts : ts.Valid) (h : Extends ts us) : KeepsNames ts us where
  le := h.le
  className _ := h.className_eq hts _
  isInterface _ := h.isInterface_eq _

theorem interfacesAbove_eq (hts : ts.Valid) (h : Extends ts us) (c : ClassId) :
    ClassPlan.interfacesAbove us c = ClassPlan.interfacesAbove ts c := by
  rw [ClassPlan.interfacesAbove, ClassPlan.interfacesAbove, h.classClosure_eq hts]
  simp only [h.isInterface_eq]

end TypeSystem.Extends

open scoped Canonicalizer.Sound

/-! ### Checking -/

namespace Validation

variable {s : Canonicalizer}

theorem checkNode_keeps (hs : s.Sound) {a : Arena} {n : NodeId}
    (hn : ∀ m ∈ memberOf? a n, s.types.HasMember m) :
    Keeps (checkNode a n).run s (IfOk fun _ _ => True) := by
  unfold checkNode
  cases stringError? a n with
  | some e => exact .ifOk_throw hs
  | none =>
    cases hm : memberOf? a n with
    | none => exact .ifOk_pure hs trivial
    | some m =>
      apply (Keeps.ifOk_lift (hs.canonicalizeMember_keeps (hn m hm))).ifOk_bind
      intro x t _ ht _
      cases x with
      | ok _ => exact .ifOk_pure ht trivial
      | error e => exact .ifOk_throw ht

theorem validate_keeps (hs : s.Sound) {u : CompilationUnit}
    (hu : ∀ n ∈ u.nodes, ∀ m ∈ memberOf? u.arena n, s.types.HasMember m) :
    Keeps (validate u).run s (IfOk fun _ _ => True) := by
  apply Keeps.ifOk_foldlM (I := fun _ _ => True) hs trivial
  intro n hn checked t hst ht _
  have hknown : ∀ m ∈ memberOf? u.arena n, t.types.HasMember m := fun m hm =>
    (hu n hn m hm).of_le hst.le
  apply (checkNode_keeps ht hknown).ifOk_bind
  intro _ _ _ hu _
  exact .ifOk_pure hu trivial

end Validation

/-! ### Plans -/

namespace ClassPlan

variable {s : Canonicalizer}

/-- The plan is one of the class `c`, and it lists the raw types of the interfaces above the class. -/
structure ListsInterfaces (plan : ClassPlan) (ts : TypeSystem) (c : ClassId) : Prop where
  type : ts.pool.HasKind plan.type (.raw c)
  isInterface : plan.isInterface = ts.isInterface c
  interfaces : List.Forall₂ (fun d ty => ts.pool.HasKind ty (.raw d)) (interfacesAbove ts c)
    plan.interfaces

theorem ListsInterfaces.of_extends (hts : ts.Valid) (h : TypeSystem.Extends ts us) {plan : ClassPlan}
    {c : ClassId} (hplan : plan.ListsInterfaces ts c) : plan.ListsInterfaces us c where
  type := hplan.type.of_le h.le.1
  isInterface := by rw [hplan.isInterface, h.isInterface_eq]
  interfaces := by
    rw [h.interfacesAbove_eq hts]
    exact hplan.interfaces.imp fun _ _ hk => hk.of_le h.le.1

theorem rawClass_keeps (hs : s.Sound) (c : ClassId) :
    Keeps (liftM (liftM (Pool.rawClass c) : StateM TypeSystem TypeId) : CanonicalM TypeId) s
      fun ty t => t.types.pool.HasKind ty (.raw c) :=
  hs.lift_keeps
    (TypeSystem.lift_computes hs.types (Pool.rawClass_computes hs.types.pool c)).toKeeps

theorem definitions_keeps (hs : s.Sound) {d : ClassDecl}
    (hd : ∀ m ∈ d.members, s.types.HasMember m.member) :
    Keeps (definitions d).run s (IfOk fun _ _ => True) := by
  unfold definitions
  apply Keeps.run_get_bind
  apply Keeps.ifOk_mono (Keeps.ifOk_mapM (R := fun _ _ _ => True) (fun _ _ _ _ _ _ => id) hs _)
  · exact fun _ _ _ _ _ => trivial
  · intro m hm t hst ht
    have hknown := (hd m (List.mem_filter.mp hm).1).of_le hst.le
    exact (Canonicalizer.Sound.canonicalizeMember_keeps ht hknown).mono fun _ _ _ _ _ _ _ => trivial

/-- The plan of a class lists the raw types of the interfaces above it. -/
theorem ofDecl_keeps (hs : s.Sound) {d : ClassDecl}
    (hd : ∀ m ∈ d.members, s.types.HasMember m.member) :
    Keeps (ofDecl d).run s (IfOk fun plan t => plan.ListsInterfaces t.types d.classId) := by
  unfold ofDecl
  apply (Keeps.ifOk_lift (rawClass_keeps hs d.classId)).ifOk_bind
  intro raw t₁ h₁ ht₁ hraw
  apply (Keeps.ifOk_lift (Canonicalizer.Sound.canonicalize_keeps ht₁ hraw.has)).ifOk_bind
  intro type t₂ h₂ ht₂ herased
  -- a raw type is its own canonical form
  obtain rfl : type = raw := herased.raw (hraw.of_le h₂.le.1)
  apply Keeps.run_get_bind
  apply (Keeps.ifOk_mapM
    (R := fun c ty (t : Canonicalizer) => t.types.pool.HasKind ty (.raw c))
    (fun _ _ _ _ htu _ hk => hk.of_le htu.le.1) ht₂
    fun c _ t _ ht => Keeps.ifOk_lift (rawClass_keeps ht c)).ifOk_bind
  intro interfaces t₃ h₃ ht₃ hinterfaces
  apply (definitions_keeps ht₃ fun m hm =>
    (hd m hm).of_le ((h₁.trans h₂).trans h₃).le).ifOk_bind
  intro members t₄ h₄ ht₄ _
  have hplanned : TypeSystem.Extends t₂.types t₄.types := h₃.trans h₄
  refine .run_get_bind (.ifOk_pure ht₄ ⟨hraw.of_le (h₂.trans hplanned).le.1, rfl, ?_⟩)
  rw [hplanned.interfacesAbove_eq ht₂.types]
  exact hinterfaces.imp fun _ _ hk => hk.of_le h₄.le.1

end ClassPlan

/-! ### Compilations -/

namespace Compiler

variable {ε α : Type} {s : Compilation}

/-- What is remembered of canonical forms is sound, and what the layout cache remembers would be
computed again. -/
structure InOrder (s : Compilation) : Prop where
  canonical : (held s).Sound
  layouts : s.compiler.layouts.Right s.types

instance : Store Compilation where
  toPreorder := Preorder.lift Compilation.types
  Grows s t := TypeSystem.Extends s.types t.types
  Valid := InOrder
  grows_refl s := .refl s.types
  grows_trans h h' := h.trans h'
  le_of_grows h := h.le

theorem InOrder.valid (hs : InOrder s) : s.types.Valid := hs.canonical.types

theorem canonical_keeps {wrap : ε → CompileError} {act : ExceptT ε CanonicalM α}
    {P : α → Canonicalizer → Prop} (hs : InOrder s) (h : Keeps act.run (held s) (IfOk P)) :
    Keeps (canonical wrap act).run s
      (IfOk fun a t => P a (held t) ∧ t.compiled = s.compiled) := by
  have hext : TypeSystem.Extends s.types (act.run (held s)).2.types := h.grows
  refine ⟨hext, ⟨h.valid, ?_⟩, fun a ha => ⟨h.post a ?_, rfl⟩⟩
  · exact hs.layouts.of_keepsNames (hext.keepsNames hs.valid)
  · rw [run_canonical] at ha
    change (act.run (held s)).1.mapError wrap = .ok a at ha
    cases hx : (act.run (held s)).1 with
    | ok b =>
      rw [hx] at ha
      exact congrArg Except.ok (Except.ok.inj ha)
    | error e =>
      rw [hx] at ha
      cases ha

/-- A request to the layout cache whose answer does not depend on what is cached. -/
theorem cached_keeps {act : TypeSystem → ExceptT MangleError (StateM LayoutCache) α}
    {x : Except MangleError α} (hs : InOrder s) (h : ∀ cache : LayoutCache, cache.Right s.types →
      ∃ cache', (act s.types).run cache = (x, cache') ∧ cache'.Right s.types) :
    Keeps (cached act).run s (IfOk fun a t => t.types = s.types ∧ x = .ok a) := by
  obtain ⟨cache, hrun, hright⟩ := h s.compiler.layouts hs.layouts
  have heq := run_cached act s
  rw [hrun] at heq
  constructor
  all_goals rw [heq]
  · exact .refl s.types
  · exact ⟨hs.canonical, hright⟩
  · intro a ha
    refine ⟨rfl, ?_⟩
    cases x with
    | ok b => exact congrArg Except.ok (Except.ok.inj ha)
    | error e => cases ha

theorem mangled_keeps (hs : InOrder s) (symbol : TypeSystem → Except MangleError Symbol) :
    Keeps (mangled symbol).run s (IfOk fun text t =>
      t.types = s.types ∧ ∃ y, symbol s.types = .ok y ∧ y.encode = text) := by
  unfold mangled
  refine .run_get_bind ?_
  cases h : symbol s.types with
  | ok y => exact .ifOk_pure hs ⟨rfl, y, rfl, rfl⟩
  | error e => exact .ifOk_throw hs

theorem desugared_keeps (hs : InOrder s) (hstring : s.types.pool.Has .string)
    (hu : s.compiled.IsKnown s.types) :
    Keeps desugared.run s (IfOk fun _ t =>
      t.types = (StringForm.desugar s.types s.compiled).2.1 ∧
        t.compiled = (StringForm.desugar s.types s.compiled).2.2) := by
  obtain ⟨hext, hvalid, -⟩ := desugar_nodes CompilationUnit.accepts_hasMember hs.valid hstring
    hu.members hu.types
  refine ⟨hext, ⟨?_, ?_⟩, fun _ _ => ⟨rfl, rfl⟩⟩
  · exact hs.canonical.of_le hext.le hvalid
  · exact hs.layouts.of_keepsNames (hext.keepsNames hs.valid)

theorem validated_keeps (hs : InOrder s) (hu : ∀ n ∈ s.compiled.nodes,
      ∀ m ∈ Validation.memberOf? s.compiled.arena n, s.types.HasMember m) :
    Keeps validated.run s (IfOk fun _ t => t.compiled = s.compiled) := by
  unfold validated
  apply Keeps.run_get_bind
  split
  · exact (canonical_keeps hs (Validation.validate_keeps hs.canonical hu)).ifOk_map
      fun _ _ h => h.2
  · exact .ifOk_pure hs rfl

theorem mapM_ofDecl_keeps (hs : InOrder s) {classes : List ClassDecl}
    (hd : ∀ d ∈ classes, ∀ m ∈ d.members, s.types.HasMember m.member) :
    Keeps (canonical .canon (classes.mapM ClassPlan.ofDecl)).run s (IfOk fun plans t =>
      List.Forall₂ (fun d (plan : ClassPlan) => plan.ListsInterfaces t.types d.classId)
        classes plans) := by
  apply Keeps.ifOk_mono (canonical_keeps hs (Keeps.ifOk_mapM
    (R := fun d (plan : ClassPlan) (t : Canonicalizer) => plan.ListsInterfaces t.types d.classId)
    _ hs.canonical _))
  · exact fun _ _ _ _ h => h.1
  · intro _ _ t u htu ht hplan
    exact hplan.of_extends (Canonicalizer.Sound.types ht) htu
  · intro d hmem t hst ht
    exact ClassPlan.ofDecl_keeps ht fun m hm => (hd d hmem m hm).of_le hst.le

theorem mapM_canonicalizeMember_keeps (hs : InOrder s) {ms : List MemberId}
    (hms : ∀ m ∈ ms, s.types.HasMember m) :
    Keeps (canonical .canon (ms.mapM Canonicalizer.canonicalizeMember)).run s
      (IfOk fun _ _ => True) := by
  apply Keeps.ifOk_mono (canonical_keeps hs (Keeps.ifOk_mapM (R := fun _ _ _ => True)
    (fun _ _ _ _ _ _ => id) hs.canonical _))
  · exact fun _ _ _ _ _ => trivial
  · intro m hm t hst ht
    exact (Canonicalizer.Sound.canonicalizeMember_keeps ht ((hms m hm).of_le hst.le)).mono
      fun _ _ _ _ _ _ _ => trivial

theorem mapM_canonicalize_keeps (hs : InOrder s) {tys : List TypeId}
    (htys : ∀ ty ∈ tys, s.types.pool.Has ty) :
    Keeps (canonical .canon (tys.mapM fun ty => liftM (Canonicalizer.canonicalize ty))).run s
      (IfOk fun rs t => ∀ r ∈ rs, t.types.pool.IsNormal r) := by
  apply Keeps.ifOk_mono (canonical_keeps hs (Keeps.ifOk_mapM
    (R := fun _ r (t : Canonicalizer) => t.types.pool.IsNormal r)
    (fun _ _ _ _ htu _ h => h.of_le htu.le.1) hs.canonical _))
  · intro rs t _ _ h r hr
    obtain ⟨_, -, hnormal⟩ := exists_of_forall₂_right h.1 hr
    exact hnormal
  · intro ty hty t hst ht
    exact Keeps.ifOk_lift ((Canonicalizer.Sound.canonicalize_keeps ht
      ((htys ty hty).of_le hst.le.1)).mono fun _ _ _ _ hr => hr.normal)

/-- What the making of symbols relies on: plans that list the interfaces above their classes, and
erased types in allocations. -/
structure Gathered.IsNormal (g : Gathered) (ts : TypeSystem) (classes : List ClassDecl) : Prop where
  plans : List.Forall₂ (fun d (plan : ClassPlan) => plan.ListsInterfaces ts d.classId)
    classes g.plans
  allocations : ∀ ty ∈ g.allocations, ts.pool.IsNormal ty

/-- Everything that precedes the making of symbols keeps a compilation in order. -/
theorem gathered_keeps (hs : InOrder s) (hstring : s.types.pool.Has .string)
    (hu : s.compiled.IsKnown s.types) :
    Keeps gathered.run s (IfOk fun g t => g.IsNormal t.types s.compiled.classes) := by
  obtain ⟨hext, -, hclasses, hmembers, htypes⟩ := desugar_nodes
    CompilationUnit.accepts_hasMember hs.valid hstring hu.members hu.types
  have hdesugared := desugared_keeps hs hstring hu
  generalize StringForm.desugar s.types s.compiled = r at hext hclasses hmembers htypes hdesugared
  obtain ⟨result, ts, v⟩ := r
  dsimp only at hext hclasses hmembers htypes hdesugared
  have hdeclared : ∀ d ∈ v.classes, ∀ m ∈ d.members, ts.HasMember m.member := fun d hd m hm =>
    (hu.declared d (hclasses ▸ hd) m hm).of_le hext.le
  unfold gathered
  apply hdesugared.ifOk_bind
  rintro _ t₁ - ht₁ ⟨rfl, rfl⟩
  apply (validated_keeps ht₁ hmembers).ifOk_bind
  intro _ t₂ h₂ ht₂ hcompiled₂
  apply Keeps.run_get_bind
  rw [hcompiled₂]
  apply (mapM_ofDecl_keeps ht₂ fun d hd m hm => (hdeclared d hd m hm).of_le h₂.le).ifOk_bind
  intro plans t₃ h₃ ht₃ hplans
  have h₁₃ := h₂.trans h₃
  apply Keeps.run_get_bind
  obtain ⟨hprocedures, hstatics, hallocations⟩ := Reference.of_nodes
    (Q := fun m ts => ts.HasMember m) hmembers htypes t₃.types
  apply (mapM_canonicalizeMember_keeps ht₃ fun m hm =>
    (hprocedures m hm).of_le h₁₃.le).ifOk_bind
  intro procedures t₄ h₄ ht₄ _
  have h₁₄ := h₁₃.trans h₄
  apply (mapM_canonicalizeMember_keeps ht₄ fun m hm => (hstatics m hm).of_le h₁₄.le).ifOk_bind
  intro staticFields t₅ h₅ ht₅ _
  have h₁₅ := h₁₄.trans h₅
  apply (mapM_canonicalize_keeps ht₅ fun ty hty =>
    (hallocations ty hty).of_le h₁₅.le.1).ifOk_bind
  intro allocations t₆ h₆ ht₆ hallocated
  refine .ifOk_pure ht₆ ⟨?_, hallocated⟩
  rw [← hclasses]
  exact hplans.imp fun _ _ hplan => hplan.of_extends ht₃.valid ((h₄.trans h₅).trans h₆)

end Compiler

end Erasure
