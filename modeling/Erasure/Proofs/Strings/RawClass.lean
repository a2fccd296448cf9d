/-
Lookups in a raw class.

A lookup in a raw class meets what the class declares itself first, without a substitution, and then
what is declared above it. The main statements:

* `lookupChain_raw`: the chain has types of classes above the class only.
* `findMethod_raw`: the most specific method that the class declares is found, if those above it do
  not matter.
* `AddsOnly.of_formal`: when a method of one formal does not matter.
* `mostSpecific?_of_takesAbove`: a method that takes a class is more specific than those above it.
-/
import Erasure.Proofs.Strings.TextMethod

namespace Erasure

open Relation (ReflTransGen TransGen)

namespace TypeSystem

variable {ts us : TypeSystem}

/-! ### Types above a class -/

/-- What a class declares to extend are class types. -/
def LinksClasses (ts : TypeSystem) : Prop :=
  ∀ c, ∀ s ∈ ts.declaredSupertypes c, ∃ d, ts.classOf? s = some d

theorem LinksClasses.of_extends (hts : ts.Valid) (hext : Extends ts us) (h : ts.LinksClasses) :
    us.LinksClasses := by
  intro c s hs
  rw [hext.declaredSupertypes_eq] at hs
  obtain ⟨d, hd⟩ := h c s hs
  exact ⟨d, (classOf?_of_le hext.le (hts.has_declaredSupertypes hs)).trans hd⟩

/-- A type of a class that the given class extends. -/
def IsAbove (ts : TypeSystem) (c : ClassId) (ty : TypeId) : Prop :=
  ∃ d, ts.classOf? ty = some d ∧ TransGen ts.Inherits c d

theorem IsAbove.of_extends (hts : ts.Valid) (hext : Extends ts us) {c : ClassId} {ty : TypeId}
    (h : ts.IsAbove c ty) : us.IsAbove c ty := by
  obtain ⟨d, hd, hcd⟩ := h
  refine ⟨d, (classOf?_of_le hext.le (has_of_classOf? hd)).trans hd, ?_⟩
  rwa [hext.inherits_eq hts]

/-- The direct supertypes of a type of a class, or of one above it, are above the class. -/
theorem supertypes_isAbove (hts : ts.Valid) (hlinks : ts.LinksClasses) {ty : TypeId}
    {c d : ClassId} (hd : ts.classOf? ty = some d) (hcd : ReflTransGen ts.Inherits c d) :
    Keeps (supertypes ty) ts fun tys us => ∀ s ∈ tys, us.IsAbove c s := by
  apply (supertypes_of_class hts hd).toKeeps.mono
  intro tys us hus _ htys s hs
  obtain ⟨sup, hsup, -, hclass⟩ := exists_of_forall₂_right htys hs
  obtain ⟨e, he⟩ := hlinks d sup hsup
  refine ⟨e, hclass e he, ?_⟩
  rw [hus.inherits_eq hts]
  exact .tail' hcd (List.mem_filterMap.mpr ⟨sup, hsup, he⟩)

/-- What a chain adds to the types seen before is above the class of the level. -/
theorem chainWithin_isAbove (hts : ts.Valid) (hlinks : ts.LinksClasses) {c : ClassId} {levels : Nat}
    {seen level : List TypeId}
    (hlevel : ∀ ty ∈ level, ∃ d, ts.classOf? ty = some d ∧ ReflTransGen ts.Inherits c d) :
    Keeps (chainWithin levels seen level) ts fun chain us =>
      ∃ more, chain = seen ++ more ∧ ∀ ty ∈ more, us.IsAbove c ty := by
  induction levels generalizing ts seen level with
  | zero =>
    exact Keeps.pure hts ⟨[], (List.append_nil seen).symm, fun _ h => absurd h List.not_mem_nil⟩
  | succ levels ih =>
    unfold chainWithin
    have hstep : ∀ ty ∈ level, ∀ us, Store.Grows ts us → us.Valid →
        Keeps (supertypes ty) us fun sups vs =>
          ∀ ws, Extends vs ws → ∀ s ∈ sups, ws.IsAbove c s := by
      intro ty hty us hus hvalid
      obtain ⟨d, hd, hcd⟩ := hlevel ty hty
      have hd' : us.classOf? ty = some d := (classOf?_of_le hus.le (has_of_classOf? hd)).trans hd
      rw [← hus.inherits_eq hts] at hcd
      exact (supertypes_isAbove hvalid (hlinks.of_extends hts hus) hd' hcd).mono
        fun _ _ _ hvs h ws hws s hs => (h s hs).of_extends hvs hws
    refine (Keeps.mapM (R := fun _ sups us => ∀ vs, Extends us vs → ∀ s ∈ sups, vs.IsAbove c s)
      ?_ hts hstep).bind fun sups us hus hvalid hsups => ?_
    · exact fun _ _ us vs hus h ws hws => h ws (hus.trans hws)
    have habove : ∀ s ∈ sups.flatten, us.IsAbove c s := by
      intro s hs
      obtain ⟨tys, htys, hs⟩ := List.mem_flatten.mp hs
      obtain ⟨_, -, htys⟩ := exists_of_forall₂_right hsups htys
      exact htys us (.refl us) s hs
    obtain ⟨new, heq, hnew⟩ := exists_appendNew_eq seen sups.flatten
    dsimp only
    rw [heq, List.drop_left]
    cases new with
    | nil =>
      refine Keeps.pure hvalid ⟨[], (List.append_nil seen).symm, ?_⟩
      exact fun _ h => absurd h List.not_mem_nil
    | cons ty new =>
      have hlevel' : ∀ u ∈ ty :: new,
          ∃ d, us.classOf? u = some d ∧ ReflTransGen us.Inherits c d := by
        intro u hu
        obtain ⟨d, hd, hcd⟩ := habove u (hnew u hu).1
        exact ⟨d, hd, hcd.to_reflTransGen⟩
      apply (ih hvalid (hlinks.of_extends hts hus) hlevel').mono
      rintro chain vs hvs - ⟨more, rfl, hmore⟩
      refine ⟨ty :: new ++ more, List.append_assoc .., fun u hu => ?_⟩
      rcases List.mem_append.mp hu with hu | hu
      · exact (habove u (hnew u hu).1).of_extends hvalid hvs
      · exact hmore u hu

/-- The chain of a raw class begins with it, and what follows is above the class. -/
theorem lookupChain_raw (hts : ts.Valid) (hlinks : ts.LinksClasses) {ty : TypeId} {c : ClassId}
    (hk : ts.kind ty = .raw c) :
    ∃ more us, (lookupChain ty).run ts = (.ok (ty :: more), us) ∧ Extends ts us ∧ us.Valid ∧
      ∀ u ∈ more, us.IsAbove c u := by
  have hresolve : resolveLub ty ts = (ty, ts) := resolveLub_eq (by rw [Resolves, hk])
  have hlevel : ∀ u ∈ [ty], ∃ d, ts.classOf? u = some d ∧ ReflTransGen ts.Inherits c d := by
    intro u hu
    obtain rfl := List.mem_singleton.mp hu
    exact ⟨c, by rw [classOf?, hk]; rfl, .refl⟩
  have hchain : Keeps (chainWithin ts.chainLevels [ty] [ty]) ts fun chain us =>
      ∃ more, chain = [ty] ++ more ∧ ∀ u ∈ more, us.IsAbove c u :=
    chainWithin_isAbove hts hlinks hlevel
  obtain ⟨more, heq, hmore⟩ := hchain.post
  refine ⟨more, _, ?_, hchain.grows, hchain.valid, hmore⟩
  rw [lookupChain_apply (by simp [hk]) (by simp [hk]), hresolve]
  exact congrArg (Except.ok ·, _) heq

/-! ### Types with a fixed head -/

/-- Neither a type variable nor a least upper bound: a substitution changes parts of the type
only. -/
def IsRigid (ts : TypeSystem) (ty : TypeId) : Prop :=
  (∀ v, ts.kind ty ≠ .var v) ∧ ∀ l, ts.kind ty ≠ .lub l

theorem IsRigid.of_le (hle : ts ≤ us) {ty : TypeId} (hty : ts.pool.Has ty) (h : ts.IsRigid ty) :
    us.IsRigid ty := by rwa [IsRigid, kind_of_le hle hty]

theorem IsRigid.boundErasure_eq {ty : TypeId} (h : ts.IsRigid ty) : ts.boundErasure ty = ty :=
  boundErasure_of_ne_var h.1

theorem isRigid_of_classOf? {ty : TypeId} {c : ClassId} (h : ts.classOf? ty = some c) :
    ts.IsRigid ty := by
  unfold classOf? at h
  constructor <;> intro _ hk <;> rw [hk] at h <;> cases h

theorem IsRigid.substitutes {f : TypeVarId → Option TypeId} {ty r : TypeId} (h : ts.IsRigid ty)
    (hr : ts.pool.Substitutes f ty r) : ts.IsRigid r ∧ ts.classOf? r = ts.classOf? ty := by
  cases hr with
  | prim _ | null _ | raw _ => exact ⟨h, rfl⟩
  | var hk => exact absurd hk.kind_eq (h.1 _)
  | lub _ hk _ _ _ => exact absurd hk.kind_eq (h.2 _)
  | array hk _ hk' | inst _ hk _ _ _ _ hk' =>
    simp [IsRigid, classOf?, kind, hk.kind_eq, hk'.kind_eq, TypeKind.class?]

/-- Only a primitive type itself is mapped to it. -/
theorem IsRigid.eq_of_prim {f : TypeVarId → Option TypeId} {ty r : TypeId} {p : Primitive}
    (h : ts.IsRigid ty) (hr : ts.pool.Substitutes f ty r) (hp : ts.kind r = .prim p) : r = ty := by
  cases hr with
  | prim _ | null _ | raw _ => rfl
  | var hk => exact absurd hk.kind_eq (h.1 _)
  | lub _ hk _ _ _ => exact absurd hk.kind_eq (h.2 _)
  | array _ _ hk | inst _ _ _ _ _ _ hk => cases hk.kind_eq.symm.trans hp

/-! ### Candidates -/

/-- The candidates with a declared method, if it is applicable and none of them has its formals. -/
def withCandidate (ts : TypeSystem) (args : List TypeId) (candidates : List MemberId)
    (decl : MemberId) : List MemberId :=
  if ts.isApplicable decl args &&
      !candidates.any fun c => (ts.member c).kind.formals = (ts.member decl).kind.formals
  then candidates ++ [decl] else candidates

section

variable {ty : TypeId} {args : List TypeId} {candidates : List MemberId} {n : Name}

theorem memberIn_raw {c : ClassId} (hk : ts.kind ty = .raw c) (m : MemberId) :
    memberIn m ty ts = (m, ts) := by
  unfold memberIn
  rw [get_bind_apply, hk]
  rfl

theorem addMethodCandidate_raw {c : ClassId} (hk : ts.kind ty = .raw c) (decl : MemberId) :
    addMethodCandidate args ty candidates decl ts =
      (ts.withCandidate args candidates decl, ts) := by
  unfold addMethodCandidate withCandidate
  rw [bind_apply, memberIn_raw hk, get_bind_apply]
  dsimp only
  split <;> rfl

/-- What a raw class declares is added without a substitution. -/
theorem candidatesAt_raw {c : ClassId} (hk : ts.kind ty = .raw c) :
    candidatesAt n args candidates ty ts =
      ((ts.declaredMethods c n).foldl (ts.withCandidate args) candidates, ts) := by
  have hclass : ts.classOf? ty = some c := by rw [classOf?, hk]; rfl
  unfold candidatesAt
  rw [get_bind_apply, hclass]
  dsimp only [Option.map_some, Option.getD_some]
  induction ts.declaredMethods c n generalizing candidates with
  | nil => rfl
  | cons decl decls ih =>
    rw [List.foldlM_cons, bind_apply, addMethodCandidate_raw hk]
    exact ih

/-- The formal of a signature that has one is the image of the only formal. -/
theorem SubstitutesKind.exists_formal {p : Pool} {bs : Bindings} {k l : MemberKind} {r : TypeId}
    (h : SubstitutesKind p bs k l) (hr : l.formals = [r]) :
    ∃ ty, k.formals = [ty] ∧ p.Substitutes bs.lookup? ty r := by
  obtain ⟨kind, hkind, rfl⟩ := h
  cases hkind with
  | method hformals _ | constructor hformals =>
    obtain rfl := hr
    obtain ⟨ty, tys, hty, htys, rfl⟩ := List.forall₂_cons_right_iff.mp hformals
    cases htys
    exact ⟨ty, rfl, hty.1⟩
  | field _ | initializer => cases hr

/-- What holds of the images of a declared method that are applicable and have formals that no
candidate has. -/
def AddsOnly (ts : TypeSystem) (args : List TypeId) (candidates : List MemberId)
    (W : TypeSystem → MemberId → Prop) (decl : MemberId) : Prop :=
  ∀ us, Extends ts us → us.Valid → ∀ image bs, us.HasMember image →
    SubstitutesKind us.pool bs (ts.member decl).kind (us.member image).kind →
    us.isApplicable image args = true →
    (∀ m ∈ candidates, (us.member m).kind.formals ≠ (us.member image).kind.formals) → W us image

/-- The candidates, and behind them others of which something holds. -/
def BeginsWith (candidates : List MemberId) (W : TypeSystem → MemberId → Prop) (ms : List MemberId)
    (ts : TypeSystem) : Prop := ∃ rest, ms = candidates ++ rest ∧ ∀ m ∈ rest, W ts m

theorem BeginsWith.eq_of_false {ms : List MemberId}
    (h : BeginsWith candidates (fun _ _ => False) ms ts) : ms = candidates := by
  obtain ⟨rest, rfl, hrest⟩ := h
  rw [List.eq_nil_iff_forall_not_mem.mpr hrest, List.append_nil]

section

variable {W : TypeSystem → MemberId → Prop}
  (hW : ∀ ts us m, ts.Valid → Extends ts us → W ts m → W us m)
include hW

/-- A declared method adds a candidate of which it is known what holds, or none. -/
theorem addMethodCandidate_adds (hts : ts.Valid) {decl : MemberId} {ms : List MemberId}
    (hdecl : ts.HasMember decl) (hty : ts.pool.Has ty) (hadds : ts.AddsOnly args candidates W decl)
    (hms : BeginsWith candidates W ms ts) :
    Keeps (addMethodCandidate args ty ms decl) ts (BeginsWith candidates W) := by
  obtain ⟨rest, rfl, hrest⟩ := hms
  unfold addMethodCandidate
  apply (memberIn_substitutes hts hdecl hty).toKeeps.bind
  intro image us hus hvalid ⟨himage, _, bs, hkind⟩
  have hrest' : ∀ m ∈ rest, W us m := fun m hm => hW ts us m hts hus (hrest m hm)
  refine Keeps.get_bind ?_
  dsimp only
  split
  case isFalse => exact Keeps.pure hvalid ⟨rest, rfl, hrest'⟩
  case isTrue h =>
    obtain ⟨happlicable, hnew⟩ := Bool.and_eq_true_iff.mp h
    have hdiffers : ∀ m ∈ candidates,
        (us.member m).kind.formals ≠ (us.member image).kind.formals := by
      intro m hm heq
      simp only [Bool.not_eq_true', List.any_eq_false, decide_eq_true_eq] at hnew
      exact hnew m (List.mem_append_left _ hm) heq
    have himage := hadds us hus hvalid image bs himage hkind happlicable hdiffers
    refine Keeps.pure hvalid ⟨rest ++ [image], List.append_assoc .., fun m hm => ?_⟩
    rcases List.mem_append.mp hm with hm | hm
    · exact hrest' m hm
    · exact List.mem_singleton.mp hm ▸ himage

/-- So do the declared methods of a class. -/
theorem candidatesAt_adds (hts : ts.Valid) {ms : List MemberId}
    (hadds : ∀ c, ts.classOf? ty = some c → ∀ decl ∈ ts.declaredMethods c n,
      ts.AddsOnly args candidates W decl) (hms : BeginsWith candidates W ms ts) :
    Keeps (candidatesAt n args ms ty) ts (BeginsWith candidates W) := by
  unfold candidatesAt
  refine Keeps.get_bind (Keeps.foldlM hts hms ?_)
  intro decl hdecl found us hus hvalid hfound
  cases hc : ts.classOf? ty with
  | none =>
    rw [hc] at hdecl
    exact absurd hdecl List.not_mem_nil
  | some c =>
    rw [hc] at hdecl
    have hhas := hts.hasMember_of_declared (mem_declaredMethods hdecl).1
    apply addMethodCandidate_adds hW hvalid (hhas.of_le hus.le)
      ((has_of_classOf? hc).of_le hus.le.1) _ hfound
    intro vs hvs hvalid' image bs himage hkind
    rw [member_of_le hus.le hhas] at hkind
    exact hadds c hc decl hdecl vs (hus.trans hvs) hvalid' image bs himage hkind

end

end

/-- A lookup in a raw class finds the most specific one among the candidates that the class declares
itself, if those that are declared above it do not matter. -/
theorem findMethod_raw {W : TypeSystem → MemberId → Prop}
    (hW : ∀ ts us m, ts.Valid → Extends ts us → W ts m → W us m) (candidates : List MemberId)
    (hts : ts.Valid) (hlinks : ts.LinksClasses) {ty : TypeId} {c : ClassId} {n : Name}
    {name : String} {args : List TypeId} {m : MemberId} (hk : ts.kind ty = .raw c)
    (hname : intern name ts = (n, ts))
    (hadds : ∀ d, TransGen ts.Inherits c d → ∀ decl ∈ ts.declaredMethods d n,
      ts.AddsOnly args candidates W decl)
    (hcandidates : ∀ us, Extends ts us →
      (us.declaredMethods c n).foldl (us.withCandidate args) [] = candidates)
    (hm : ∀ us, Extends ts us → us.Valid → ∀ ms, BeginsWith candidates W ms us →
      us.mostSpecific? ms = some m) :
    ∃ us, (findMethod ty name args).run ts = (.ok m, us) := by
  obtain ⟨more, us, hchain, hext, hvalid, hmore⟩ := lookupChain_raw hts hlinks hk
  have hty : ts.pool.Has ty := has_of_kind_ne_null (by rw [hk]; exact nofun)
  have hk' : us.kind ty = .raw c := (kind_of_le hext.le hty).trans hk
  have hown : BeginsWith candidates W candidates us :=
    ⟨[], (List.append_nil _).symm, fun _ h => absurd h List.not_mem_nil⟩
  have hrest : Keeps (more.foldlM (candidatesAt n args) candidates) us
      (BeginsWith candidates W) := by
    refine Keeps.foldlM hvalid hown ?_
    intro u hu ms vs hvs hvalid' hms
    apply candidatesAt_adds hW hvalid' _ hms
    intro d hd decl hdecl ws hws hvalid'' image bs himage hkind
    obtain ⟨e, he, hce⟩ := (hmore u hu).of_extends hvalid hvs
    cases hd.symm.trans he
    have hlater : Extends ts vs := hext.trans hvs
    rw [hlater.inherits_eq hts] at hce
    rw [hlater.declaredMethods_eq hts] at hdecl
    rw [member_of_le hlater.le (hts.hasMember_of_declared (mem_declaredMethods hdecl).1)] at hkind
    exact hadds d hce decl hdecl ws (hlater.trans hws) hvalid'' image bs himage hkind
  have hall : methodCandidates (ty :: more) n args us =
      more.foldlM (candidatesAt n args) candidates us := by
    rw [methodCandidates_eq, List.foldlM_cons, bind_apply, candidatesAt_raw hk',
      hcandidates us hext]
  have hspecific := hm _ (hext.trans hrest.grows) hrest.valid _ hrest.post
  exact ⟨_, findMethod_eq hname hchain hall hspecific⟩

/-- A procedure that is applicable to one argument has one formal. -/
theorem exists_formal_of_isApplicable {m : MemberId} {arg : TypeId}
    (h : ts.isApplicable m [arg] = true) : ∃ formal, (ts.member m).kind.formals = [formal] ∧
      ts.isAssignable arg (ts.boundErasure formal) = true := by
  unfold isApplicable at h
  rw [Bool.and_eq_true, decide_eq_true_eq] at h
  obtain ⟨hlength, hall⟩ := h
  obtain ⟨formal, hformals⟩ := List.length_eq_one_iff.mp hlength
  rw [hformals] at hall
  exact ⟨formal, hformals, by simpa using hall⟩

/-- An image of a method of one formal, neither a variable nor a least upper bound, is applicable if
the argument converts to the image of the formal. -/
theorem AddsOnly.of_formal {W : TypeSystem → MemberId → Prop} {arg : TypeId}
    {candidates : List MemberId} {decl : MemberId} (hts : ts.Valid) (hdecl : ts.HasMember decl)
    (hrigid : ∀ ty, (ts.member decl).kind.formals = [ty] → ts.IsRigid ty)
    (h : ∀ ty, ts.pool.Has ty → (ts.member decl).kind.formals = [ty] → ∀ us, Extends ts us →
      us.Valid → ∀ image r f, us.HasMember image → (us.member image).kind.formals = [r] →
      us.IsRigid ty → us.pool.Substitutes f ty r → us.isAssignable arg r = true →
      (∀ m ∈ candidates, (us.member m).kind.formals ≠ [r]) → W us image) :
    ts.AddsOnly [arg] candidates W decl := by
  intro us hus hvalid image bs himage hkind happlicable hnew
  obtain ⟨r, hr, hassignable⟩ := exists_formal_of_isApplicable happlicable
  obtain ⟨ty, hty, hsubst⟩ := hkind.exists_formal hr
  have hhas := (hts.keys hdecl.hasKey).types ty
    (MemberKind.mem_types_of_mem_formals (hty ▸ List.mem_singleton_self ty))
  have hrigid' := (hrigid ty hty).of_le hus.le hhas
  rw [(hrigid'.substitutes hsubst).1.boundErasure_eq] at hassignable
  rw [hr] at hnew
  exact h ty hhas hty us hus hvalid image r _ himage hr hrigid' hsubst hassignable hnew

/-- A primitive type converts to the primitive types that it widens to only. -/
theorem isAssignable_prim {s t : TypeId} {p : Primitive} (hs : ts.kind s = .prim p) :
    ts.isAssignable s t = match ts.kind t with
      | .prim q => p.widensTo q
      | _ => false := by
  unfold isAssignable
  rw [hs]
  cases ht : ts.kind t with
  | prim q => rfl
  | null | array _ | raw _ | inst _ _ _ | var _ | lub _ =>
    have hne : s ≠ t := by
      rintro rfl
      cases hs.symm.trans ht
    unfold isSubtype
    cases ts.subtypingDepth with
    | zero => rfl
    | succ d => simp [isSubtypeWithin, hs, hne]

theorem isAssignable_self {s : TypeId} (hs : ∀ p, ts.kind s ≠ .prim p) :
    ts.isAssignable s s = true := by
  have hsub : ts.isSubtype s s = true := by
    unfold isSubtype subtypingDepth
    rw [Nat.add_one_mul]
    exact isSubtypeWithin_self _ s
  unfold isAssignable
  split
  · rename_i p _ hp _
    exact absurd hp (hs p)
  · exact hsub

/-- The erasure of a type of a class is below that class and those above it. -/
theorem mem_erasedClosure_iff {s : TypeId} {c d : ClassId} (hs : ts.classOf? s = some c) :
    d ∈ ts.erasedClosure s ↔ ReflTransGen ts.Inherits c d := by
  rw [erasedClosure_of_ne_var (isRigid_of_classOf? hs).1, hs]
  exact mem_classClosure_iff

/-- A type of a class converts to types of the classes above it. -/
theorem isAssignable_of_class {s t : TypeId} {c d : ClassId} (hs : ts.classOf? s = some c)
    (ht : ts.classOf? t = some d) (hcd : ReflTransGen ts.Inherits c d) :
    ts.isAssignable s t = true := by
  have hmem := (mem_erasedClosure_iff hs).mpr hcd
  unfold classOf? at hs ht
  cases hks : ts.kind s with rw [hks] at hs
  | raw _ | inst _ _ _ =>
    cases hkt : ts.kind t with rw [hkt] at ht
    | raw _ | inst _ _ _ =>
      cases ht
      simp [isAssignable, isSubtype, subtypingDepth, Nat.add_one_mul, isSubtypeWithin, hks, hkt,
        hmem]
    | prim _ | null | array _ | var _ | lub _ => cases ht
  | prim _ | null | array _ | var _ | lub _ => cases hs

/-- Apart from variables and least upper bounds it converts to nothing else. -/
theorem class_of_isAssignable {s t : TypeId} {c : ClassId} (hs : ts.classOf? s = some c)
    (ht : ts.IsRigid t) (h : ts.isAssignable s t = true) :
    ∃ d, ts.classOf? t = some d ∧ ReflTransGen ts.Inherits c d := by
  have hclosure : ∀ d, d ∈ ts.erasedClosure s → ReflTransGen ts.Inherits c d :=
    fun d => (mem_erasedClosure_iff hs).mp
  by_cases hst : s = t
  · exact ⟨c, hst ▸ hs, .refl⟩
  unfold classOf? at hs
  cases hks : ts.kind s with rw [hks] at hs
  | raw _ | inst _ _ _ =>
    cases hkt : ts.kind t with
    | raw d | inst d _ _ =>
      simp [isAssignable, isSubtype, subtypingDepth, Nat.add_one_mul, isSubtypeWithin, hks, hkt,
        hst] at h
      exact ⟨d, by rw [classOf?, hkt]; rfl, hclosure d h⟩
    | var v => exact absurd hkt (ht.1 v)
    | lub l => exact absurd hkt (ht.2 l)
    | prim _ | null | array _ =>
      simp [isAssignable, isSubtype, subtypingDepth, Nat.add_one_mul, isSubtypeWithin, hks, hkt,
        hst] at h
  | prim _ | null | array _ | var _ | lub _ => cases hs

/-- Whether a procedure is applicable depends on its formals and on what converts to them. -/
theorem isApplicable_congr {m : MemberId} {args : List TypeId} (hm : us.member m = ts.member m)
    (h : ∀ formal ∈ (ts.member m).kind.formals, ∀ arg ∈ args,
      us.isAssignable arg (us.boundErasure formal) = ts.isAssignable arg (ts.boundErasure formal)) :
    us.isApplicable m args = ts.isApplicable m args := by
  unfold isApplicable
  rw [hm]
  dsimp only
  congr 1
  apply all_congr_of_mem
  intro pair hpair
  obtain ⟨hformal, harg⟩ := List.of_mem_zip hpair
  exact h _ hformal _ harg

theorem withCandidate_congr {args : List TypeId} {candidates : List MemberId} {decl : MemberId}
    (hdecl : us.member decl = ts.member decl) (h : ∀ m ∈ candidates, us.member m = ts.member m)
    (happlicable : us.isApplicable decl args = ts.isApplicable decl args) :
    us.withCandidate args candidates decl = ts.withCandidate args candidates decl := by
  have hany : (candidates.any fun c => decide
        ((us.member c).kind.formals = (ts.member decl).kind.formals)) =
      candidates.any fun c => decide ((ts.member c).kind.formals = (ts.member decl).kind.formals) :=
    any_congr_of_mem fun m hm => by rw [h m hm]
  unfold withCandidate
  rw [happlicable, hdecl, hany]

theorem mem_of_mem_withCandidate {args : List TypeId} {candidates : List MemberId}
    {decl m : MemberId} (h : m ∈ ts.withCandidate args candidates decl) :
    m ∈ candidates ∨ m = decl := by
  unfold withCandidate at h
  split at h
  · exact (List.mem_append.mp h).imp_right List.mem_singleton.mp
  · exact .inl h

/-- The candidates depend on the declared methods and on which of them are applicable. -/
theorem foldl_withCandidate_congr {args : List TypeId} {decls candidates : List MemberId}
    (hdecls : ∀ m ∈ decls, us.member m = ts.member m ∧
      us.isApplicable m args = ts.isApplicable m args)
    (hcandidates : ∀ m ∈ candidates, us.member m = ts.member m) :
    decls.foldl (us.withCandidate args) candidates =
      decls.foldl (ts.withCandidate args) candidates := by
  induction decls generalizing candidates with
  | nil => rfl
  | cons decl decls ih =>
    obtain ⟨⟨hmember, happlicable⟩, hrest⟩ := List.forall_mem_cons.mp hdecls
    rw [List.foldl_cons, List.foldl_cons, withCandidate_congr hmember hcandidates happlicable]
    apply ih hrest
    intro m hm
    rcases mem_of_mem_withCandidate hm with hm | rfl
    · exact hcandidates m hm
    · exact hmember

/-- Which candidate is the most specific one depends on the formals of the candidates. -/
theorem mostSpecific?_congr {candidates : List MemberId}
    (h : ∀ m ∈ candidates, us.member m = ts.member m)
    (hassignable : ∀ a ∈ candidates, ∀ b ∈ candidates, ∀ s ∈ (ts.member a).kind.formals,
      ∀ t ∈ (ts.member b).kind.formals, us.isAssignable s t = ts.isAssignable s t) :
    us.mostSpecific? candidates = ts.mostSpecific? candidates := by
  have hspecific : ∀ a ∈ candidates, ∀ b ∈ candidates,
      us.isMoreSpecific a b = ts.isMoreSpecific a b := by
    intro a ha b hb
    unfold isMoreSpecific
    rw [h a ha, h b hb]
    apply all_congr_of_mem
    intro pair hpair
    obtain ⟨hs, ht⟩ := List.of_mem_zip hpair
    exact hassignable a ha b hb _ hs _ ht
  have hfilter : (candidates.filter fun a => candidates.all fun b =>
        a = b || us.isMoreSpecific a b) =
      candidates.filter fun a => candidates.all fun b => a = b || ts.isMoreSpecific a b :=
    List.filter_congr fun a ha => all_congr_of_mem fun b hb => by rw [hspecific a ha b hb]
  unfold mostSpecific?
  rw [hfilter]

/-- A method of one formal that is above a class. -/
def TakesAbove (c : ClassId) (ts : TypeSystem) (m : MemberId) : Prop :=
  ts.HasMember m ∧ ∃ ty, (ts.member m).kind.formals = [ty] ∧ ts.IsAbove c ty

theorem TakesAbove.of_extends (hts : ts.Valid) (hext : Extends ts us) {c : ClassId} {m : MemberId}
    (h : ts.TakesAbove c m) : us.TakesAbove c m := by
  obtain ⟨hm, ty, hty, habove⟩ := h
  exact ⟨hm.of_le hext.le, ty, by rwa [member_of_le hext.le hm], habove.of_extends hts hext⟩

/-- A method that takes the class is more specific than those that take a type above it. -/
theorem mostSpecific?_of_takesAbove {m : MemberId} {s : TypeId} {c : ClassId} {rest : List MemberId}
    (hm : (ts.member m).kind.formals = [s]) (hs : ts.classOf? s = some c)
    (hacyclic : ¬ TransGen ts.Inherits c c)
    (hrest : ∀ b ∈ rest, ts.TakesAbove c b) : ts.mostSpecific? (m :: rest) = some m := by
  have hbetter : ∀ b ∈ rest, ts.isMoreSpecific m b = true := by
    intro b hb
    obtain ⟨-, ty, hty, d, hd, hcd⟩ := hrest b hb
    simp [isMoreSpecific, hm, hty, isAssignable_of_class hs hd hcd.to_reflTransGen]
  have hworse : ∀ b ∈ rest, ts.isMoreSpecific b m = false := by
    intro b hb
    obtain ⟨-, ty, hty, d, hd, hcd⟩ := hrest b hb
    by_contra hmore
    have hconverts : ts.isAssignable ty s = true := by simpa [isMoreSpecific, hm, hty] using hmore
    obtain ⟨e, he, hde⟩ := class_of_isAssignable hd (isRigid_of_classOf? hs) hconverts
    cases hs.symm.trans he
    exact hacyclic (hcd.trans_left hde)
  have hdiffers : ∀ b ∈ rest, b ≠ m := by
    rintro b hb rfl
    have hnot := hworse b hb
    rw [hbetter b hb] at hnot
    cases hnot
  let best (a : MemberId) : Bool := (m :: rest).all fun b => a = b || ts.isMoreSpecific a b
  have hfirst : best m = true := by simp +contextual [best, hbetter]
  have hothers : rest.filter best = [] :=
    List.filter_eq_nil_iff.mpr fun b hb => by simp [best, hworse b hb, hdiffers b hb]
  have hfilter : (m :: rest).filter best = [m] := by rw [List.filter_cons_of_pos hfirst, hothers]
  unfold mostSpecific?
  rw [hfilter]

end TypeSystem

end Erasure
