/-
Instances of declared members.

A member instance is made by seeing a declared member in an instantiation of its class, and by
supplying type arguments to a generic member. The main statements:

* `canonicalizeMember_instances`: a member, its image in an instantiation, and the image with type
  arguments have one canonical form, if no other member has that image.
* `canonicalizeMember_instantiated_first`: a generic member with type arguments, seen in an
  instantiation, has no canonical form.
-/
import Erasure.Proofs.Canonical.ErasedImage
import Erasure.Proofs.Canonical.Session

namespace Erasure.Canonicalizer

variable {s t u : Canonicalizer}

/-! ### Instances of a member -/

/-- The instance is a member with the key `k`, seen in `container` where the type parameters are
bound by `bs`, or it is made from that image by supplying type arguments. -/
inductive InstanceOf (ts : TypeSystem) (bs : Bindings) (container : TypeId) (k : MemberKey) :
    MemberId → Prop
  | image {image : MemberId} {kind : MemberKind} :
      TypeSystem.SubstitutesKind ts.pool bs k.kind kind →
      ts.HasKey image { k with kind, container } → InstanceOf ts bs container k image
  | inferred {image inferred : MemberId} {kind kind' : MemberKind} : kind.typeParams ≠ [] →
      TypeSystem.SubstitutesKind ts.pool bs k.kind kind →
      ts.HasKey image { k with kind, container } →
      ts.HasKey inferred { k with kind := kind', container, generic := some image } →
      InstanceOf ts bs container k inferred

theorem InstanceOf.of_le {ts us : TypeSystem} (hle : ts ≤ us) {bs : Bindings} {container : TypeId}
    {k : MemberKey} {x : MemberId} (h : InstanceOf ts bs container k x) :
    InstanceOf us bs container k x := by
  cases h with
  | image hkind himage => exact .image (hkind.of_le hle.1) (himage.of_le hle)
  | inferred hne hkind himage hinferred =>
    exact .inferred hne (hkind.of_le hle.1) (himage.of_le hle) (hinferred.of_le hle)

theorem InstanceOf.hasKey {ts : TypeSystem} {bs : Bindings} {container : TypeId} {k : MemberKey}
    {x : MemberId} (h : InstanceOf ts bs container k x) :
    ∃ l, ts.HasKey x l ∧ l.container = container := by
  cases h with
  | image _ himage => exact ⟨_, himage, rfl⟩
  | inferred _ _ _ hinferred => exact ⟨_, hinferred, rfl⟩

/-- Erasing the own type parameters of an instance gives the erased image of the member. -/
theorem InstanceOf.imageErased {bs : Bindings} {container : TypeId} {k : MemberKey}
    {x e : MemberId} (hgeneric : k.generic = none) (hx : InstanceOf t.types bs container k x)
    (h : t.OwnErased x e) : t.ImageErased bs container k e := by
  cases hx with
  | image hkind himage => exact ⟨x, _, himage, hkind, h⟩
  | @inferred image _ kind _ hne hkind himage hinferred =>
    refine ⟨image, kind, himage, hkind, ?_⟩
    have hform : t.types.genericForm x = image := by
      rw [TypeSystem.genericForm, hinferred.generic_eq]
      rfl
    have hform' : t.types.genericForm image = image := genericForm_of_hasKey himage hgeneric
    have hown : t.types.ownTypeParams image ≠ [] := by
      rw [TypeSystem.ownTypeParams, hform', himage.kind_eq]
      exact hne
    have hsame : t.types.ownTypeParams x = t.types.ownTypeParams image := by
      rw [TypeSystem.ownTypeParams, TypeSystem.ownTypeParams, hform, hform']
    rw [OwnErased, hform, hsame] at h
    rw [OwnErased, hform']
    exact h.imp_left fun h => absurd h.1 hown

/-- No other member that the class declares has the erased image that `m` has in the
instantiation. -/
def OnlyImage (s : Canonicalizer) (base : ClassId) (container : TypeId) (m : MemberId) : Prop :=
  let e := erasedImage m container s
  ∀ decl ∈ (s.types.classDef base).members, decl ≠ m → (erasedImage decl container e.2).1 ≠ e.1

section Explaining

variable {base : ClassId} {container : TypeId} {sub : SubstId} {outer : Option TypeId}
  {m : MemberId}

/-- A member that the class declares is explained by itself only, if no other member has its
erased image. -/
theorem OnlyImage.eq (hs : s.Valid) (hacyclic : s.types.Acyclic)
    (hm : m ∈ (s.types.classDef base).members)
    (hcontainer : s.types.pool.HasKind container (.inst base sub outer))
    (honly : s.OnlyImage base container m) (ht : t.Valid) (hst : Store.Grows s t)
    {decl e : MemberId} (hdecl : decl ∈ (s.types.classDef base).members)
    (h : t.ImageErased (s.types.pool.instanceBindings container) container
      (s.types.member m).toMemberKey e)
    (h' : t.ImageErased (s.types.pool.instanceBindings container) container
      (s.types.member decl).toMemberKey e) : decl = m := by
  obtain ⟨k, hk, -, hkgeneric⟩ := (hs.types.classes base).members m hm
  obtain ⟨l, hl, -, hlgeneric⟩ := (hs.types.classes base).members decl hdecl
  rw [hk.member_eq] at h
  rw [hl.member_eq] at h'
  have ha := erasedImage_computes hs hacyclic hk hcontainer
  have hsa := ha.grows
  have hb := erasedImage_computes ha.valid (acyclic_of_grows hs hsa hacyclic)
    (hl.of_le hsa.le.1) (hcontainer.of_le hsa.le.1.1)
  have hsb := hsa.trans hb.grows
  have himage := ImageErased.of_answers hs hb.valid hacyclic hsb hk hcontainer
    (ha.again.of_le hb.grows.le)
  have himage' := ImageErased.of_answers hs hb.valid hacyclic hsb hl hcontainer hb.again
  have hsame := himage.eq_of_eq hs hb.valid ht hsb hst hcontainer.has (hs.types.keys hk)
    (hs.types.keys hl) hkgeneric hlgeneric himage' h h'
  by_contra hne
  exact honly decl hdecl hne hsame.symm

/-- A member that a class declares has a canonical form. -/
theorem Outcome.of_declared (ht : t.Valid) (hm : m ∈ (t.types.classDef base).members)
    {result : Except CanonError MemberId} (h : Outcome m result t) :
    ∃ c, result = .ok c ∧ t.memo.members.find? m = some c := by
  obtain ⟨k, hk, hraw, -⟩ := (ht.types.classes base).members m hm
  cases h with
  | canonical hfind => exact ⟨_, rfl, hfind⟩
  | unexplained hkind _ _ =>
    rw [hk.container_eq] at hkind
    exact nomatch hkind.unique hraw

/-- Every instance of a member that is told apart from the others has a canonical form, and it is
that of the member. -/
theorem Outcome.of_instance (hs : s.Valid) (hacyclic : s.types.Acyclic)
    (hm : m ∈ (s.types.classDef base).members)
    (hcontainer : s.types.pool.HasKind container (.inst base sub outer))
    (honly : s.OnlyImage base container m) (ht : t.Valid) (hst : Store.Grows s t)
    {x : MemberId} {result : Except CanonError MemberId}
    (hx : x = m ∨ InstanceOf t.types (s.types.pool.instanceBindings container) container
      (s.types.member m).toMemberKey x) (h : Outcome x result t) :
    ∃ c, result = .ok c ∧ t.memo.members.find? m = some c := by
  have hacyclic' := acyclic_of_grows hs hst hacyclic
  have hclass : t.types.classDef base = s.types.classDef base := (Extends.types hst).classDef_eq base
  obtain ⟨k, hk, -, hgeneric⟩ := (hs.types.classes base).members m hm
  have hsearched : ∀ {decl subst e}, decl ∈ (s.types.classDef base).members →
      Answers (liftM (Pool.fullSubst container : StateM Pool SubstId) : CanonicalM SubstId)
        subst t → t.ErasedImage subst container decl e →
      t.ImageErased (s.types.pool.instanceBindings container) container
        (s.types.member decl).toMemberKey e := fun hdecl hsubst he =>
    .of_answers hs ht hacyclic hst (hs.types.hasMember_of_declared hdecl).hasKey hcontainer
      (he.answers (hcontainer.of_le hst.le.1.1) hsubst)
  rcases hx with rfl | hx
  · exact h.of_declared ht (hclass ▸ hm)
  · obtain ⟨l, hl, hlcontainer⟩ := hx.hasKey
    have hxcontainer : (t.types.member x).container = container := by
      rw [← hlcontainer, ← hl.member_eq]
    have herased : ∀ {e}, Answers (eraseOwnTypeParams x) e t →
        t.ImageErased (s.types.pool.instanceBindings container) container
          (s.types.member m).toMemberKey e := fun he =>
      hx.imageErased (hk.member_eq ▸ hgeneric) (.of_answers ht hacyclic' hl.hasMember he)
    cases h with
    | @canonical c _ hfind =>
      have hkind : t.types.pool.HasKind (t.types.member x).container (.inst base sub outer) :=
        hxcontainer ▸ hcontainer.of_le hst.le.1.1
      obtain ⟨decl, hdecl, hfind', subst, e, hsubst, hdeclared, he⟩ :=
        (ht.members hfind).explained hkind
      rw [hclass] at hdecl
      rw [hxcontainer] at hsubst hdeclared
      obtain rfl := honly.eq hs hacyclic hm hcontainer ht hst hdecl (herased he)
        (hsearched hdecl hsubst hdeclared)
      exact ⟨c, rfl, hfind'⟩
    | unexplained hkind he hsearch =>
      rw [hxcontainer] at hkind hsearch
      cases hkind.unique (hcontainer.of_le hst.le.1.1)
      obtain ⟨subst, e', hsubst, hdeclared, hne⟩ := hsearch.missed rfl m (hclass ▸ hm)
      exact absurd ((hsearched hm hsubst hdeclared).unique (herased he)) hne

/-- Canonicalizing an instance gives the canonical form of the member. -/
theorem canonicalizeMember_instance_keeps (hs : s.Valid) (hacyclic : s.types.Acyclic)
    (hm : m ∈ (s.types.classDef base).members)
    (hcontainer : s.types.pool.HasKind container (.inst base sub outer))
    (honly : s.OnlyImage base container m) (ht : t.Valid) (hst : Store.Grows s t) {x : MemberId}
    (hx : x = m ∨ InstanceOf t.types (s.types.pool.instanceBindings container) container
      (s.types.member m).toMemberKey x) :
    Keeps (canonicalizeMember x).run t
      fun result u => ∃ c, result = .ok c ∧ u.memo.members.find? m = some c := by
  have hhas : t.types.HasMember x := by
    rcases hx with rfl | hx
    · exact (hs.types.hasMember_of_declared hm).of_le hst.le.1
    · obtain ⟨l, hl, -⟩ := hx.hasKey
      exact hl.hasMember
  refine (canonicalizeMember_keeps ht (acyclic_of_grows hs hst hacyclic) hhas).mono ?_
  intro result u htu hu h
  exact h.of_instance hs hacyclic hm hcontainer honly hu (hst.trans htu)
    (hx.imp_right (·.of_le htu.le.1))

/-! ### One canonical form -/

/-- The instances of a member that are made in an instantiation of its class, where `image` is the
member as the instantiation sees it and `inferred` that image with type arguments. Only a generic
member takes type arguments. -/
def instances (ts : TypeSystem) (m image inferred : MemberId) : List MemberId :=
  if (ts.member m).kind.typeParams = [] then [m, image] else [m, image, inferred]

theorem instanceOf_of_mem_instances (hs : s.Valid) (hacyclic : s.types.Acyclic)
    (hdeclared : m ∈ (s.types.classDef base).members)
    (hcontainer : s.types.pool.HasKind container (.inst base sub outer)) :
    let image := (liftM (TypeSystem.memberIn m container) : CanonicalM MemberId) s
    ∀ {t : Canonicalizer}, Later image.2 t →
    ∀ {args : List TypeId}, (∀ ty ∈ args, t.types.pool.Has ty) →
    Keeps (liftM (TypeSystem.instantiateMethod image.1 args) : CanonicalM MemberId) t
      fun inferred u => Store.Grows s u ∧ ∀ x ∈ instances s.types m image.1 inferred, x = m ∨
        InstanceOf u.types (s.types.pool.instanceBindings container) container
          (s.types.member m).toMemberKey x := by
  have hm := hs.types.hasMember_of_declared hdeclared
  have himage := lift_computes hs (TypeSystem.memberIn_computes hs.types hm.hasKey hcontainer)
  intro image t hlater args hargs
  obtain ⟨kind, hkind, hkey⟩ := himage.post
  obtain ⟨hit, ht⟩ := hlater.grows himage.valid (acyclic_of_grows hs himage.grows hacyclic)
  refine (lift_computes ht (TypeSystem.instantiateMethod_computes ht.types (hkey.of_le hit.le.1)
    hargs)).toKeeps.mono ?_
  rintro inferred u htu hu ⟨kind', -, hkey'⟩
  have hiu := hit.trans htu
  refine ⟨himage.grows.trans hiu, fun x hx => ?_⟩
  have hkind₁ := hkind.of_le hiu.le.1.1
  have hkey₁ := hkey.of_le hiu.le.1
  unfold instances at hx
  split at hx
  case isTrue =>
    rcases List.mem_pair.mp hx with rfl | rfl
    · exact Or.inl rfl
    · exact Or.inr (.image hkind₁ hkey₁)
  case isFalse hne =>
    have hparams : kind.typeParams = (s.types.member m).kind.typeParams :=
      hkind.typeParams_of_instance hs.types hcontainer.has ((hs.types.classes base).ownParams m hdeclared)
    rcases List.mem_cons.mp hx with rfl | hx
    · exact Or.inl rfl
    · rcases List.mem_pair.mp hx with rfl | rfl
      · exact Or.inr (.image hkind₁ hkey₁)
      · exact Or.inr (.inferred (fun h => hne (hparams.symm.trans h)) hkind₁ hkey₁ hkey')

/-- A member that a class declares, its image in an instantiation of the class, and that image with
type arguments for the own type parameters of the member, if it has some, have one canonical form,
in whatever order they are asked for and whatever was canonicalized before and in between: as long
as no other member of the class has the same image, its own type parameters erased. -/
theorem canonicalizeMember_instances (hs : Reachable s) (hacyclic : s.types.Acyclic)
    (hm : m ∈ (s.types.classDef base).members)
    (hcontainer : s.types.pool.HasKind container (.inst base sub outer))
    (honly : s.OnlyImage base container m) :
    let image := (liftM (TypeSystem.memberIn m container) : CanonicalM MemberId) s
    ∀ s₁, Later image.2 s₁ →
    ∀ args : List TypeId, (∀ ty ∈ args, s₁.types.pool.Has ty) →
    let inferred := (liftM (TypeSystem.instantiateMethod image.1 args) : CanonicalM MemberId) s₁
    ∀ x ∈ instances s.types m image.1 inferred.1, ∀ y ∈ instances s.types m image.1 inferred.1,
    ∀ t, Later inferred.2 t →
    let a := (canonicalizeMember x).run t
    ∀ u, Later a.2 u →
    let b := (canonicalizeMember y).run u
    ∃ c, a.1 = .ok c ∧ b.1 = .ok c := by
  have hvalid := hs.valid
  have hmember := hvalid.types.hasMember_of_declared hm
  intro image s₁ hs₁ args hargs inferred x hx y hy t ht a u hu b
  have hinferred := instanceOf_of_mem_instances hvalid hacyclic hm hcontainer hs₁ hargs
  obtain ⟨hsi, hinstances⟩ := hinferred.post
  obtain ⟨hit, htvalid⟩ := ht.grows hinferred.valid (acyclic_of_grows hvalid hsi hacyclic)
  have hst := hsi.trans hit
  have ha := canonicalizeMember_instance_keeps hvalid hacyclic hm hcontainer honly htvalid hst
    ((hinstances x hx).imp_right (·.of_le hit.le.1))
  have hsa := hst.trans ha.grows
  obtain ⟨hau, huvalid⟩ := hu.grows ha.valid (acyclic_of_grows hvalid hsa hacyclic)
  have hiu := (hit.trans ha.grows).trans hau
  have hb := canonicalizeMember_instance_keeps hvalid hacyclic hm hcontainer honly huvalid
    (hsa.trans hau) ((hinstances y hy).imp_right (·.of_le hiu.le.1))
  obtain ⟨c, hac, hfind⟩ := ha.post
  obtain ⟨c', hbc, hfind'⟩ := hb.post
  have hkept := Memo.find?_of_le (hau.trans hb.grows).le.2.2.1 hfind
  obtain rfl := Option.some.inj (hkept.symm.trans hfind')
  exact ⟨c, hac, hbc⟩

/-- The method of a class, its image in an instantiation with a type argument, and their canonical
form. -/
theorem canonicalizeMember_instances_box :
    let image := (liftM (TypeSystem.memberIn ⟨16⟩ ⟨16⟩) : CanonicalM MemberId) boxSession
    let inferred :=
      (liftM (TypeSystem.instantiateMethod image.1 [.object]) : CanonicalM MemberId) image.2
    let a := (canonicalizeMember inferred.1).run inferred.2
    let b := (canonicalizeMember ⟨16⟩).run a.2
    ∃ c, a.1 = .ok c ∧ b.1 = .ok c := by
  obtain ⟨hmembers, hparams, hcontainer⟩ := boxSession_declares
  have hm : ⟨16⟩ ∈ (boxSession.types.classDef ⟨2⟩).members :=
    hmembers ▸ List.mem_cons_of_mem _ List.mem_cons_self
  have honly : boxSession.OnlyImage ⟨2⟩ ⟨16⟩ ⟨16⟩ := by
    unfold OnlyImage
    decide +kernel
  have hargs : ∀ ty ∈ [TypeId.object], ((liftM (TypeSystem.memberIn ⟨16⟩ ⟨16⟩) :
      CanonicalM MemberId) boxSession).2.types.pool.Has ty := by decide +kernel
  have hall : ∀ {x y z : MemberId}, z ∈ [⟨16⟩, x, y] →
      z ∈ instances boxSession.types ⟨16⟩ x y := by
    intro x y z hz
    rwa [instances, hparams, if_neg nofun]
  have h := canonicalizeMember_instances boxSession_reachable boxSession_acyclic hm hcontainer honly
    _ (.refl _) _ hargs
  exact h _ (hall (List.mem_cons_of_mem _ (List.mem_cons_of_mem _ List.mem_cons_self))) _
    (hall List.mem_cons_self) _ (.refl _) _ (.refl _)

end Explaining

/-! ### Type arguments before the instantiation -/

/-- An erased image is seen in the instantiation. -/
theorem ImageErased.container_eq {bs : Bindings} {container : TypeId} {k : MemberKey}
    {e : MemberId} (hgeneric : k.generic = none) (h : t.ImageErased bs container k e) :
    (t.types.member e).container = container := by
  obtain ⟨image, kind, hkey, -, herased⟩ := h
  rcases herased.of_hasKey hkey hgeneric with ⟨-, rfl⟩ | ⟨-, sub, bs, kind', -, -, -, hkey'⟩
  · exact hkey.container_eq
  · exact hkey'.container_eq

/-- The instance `x` is seen in an instantiation and was made from the generic member `m` of a raw
class by supplying type arguments. -/
structure InstantiatedFirst (ts : TypeSystem) (m x : MemberId) (k l : MemberKey) : Prop where
  generic : ts.HasKey m k
  raw : ∃ base, ts.pool.HasKind k.container (.raw base)
  typeParams : k.kind.typeParams ≠ []
  instantiated : ts.HasKey x l
  seenIn : ∃ base sub outer, ts.pool.HasKind l.container (.inst base sub outer)
  madeFrom : l.generic = some m

namespace InstantiatedFirst

variable {m x : MemberId} {k l : MemberKey}

theorem of_le {ts us : TypeSystem} (hle : ts ≤ us) (h : InstantiatedFirst ts m x k l) :
    InstantiatedFirst us m x k l where
  generic := h.generic.of_le hle
  raw := h.raw.imp fun _ hk => hk.of_le hle.1
  typeParams := h.typeParams
  instantiated := h.instantiated.of_le hle
  seenIn := by
    obtain ⟨base, sub, outer, hk⟩ := h.seenIn
    exact ⟨base, sub, outer, hk.of_le hle.1⟩
  madeFrom := h.madeFrom

/-- Erasing the own type parameters goes back to the generic member and to its container. -/
theorem container_eq (h : InstantiatedFirst t.types m x k l) {e : MemberId}
    (he : t.OwnErased x e) : (t.types.member e).container = k.container := by
  have hform : t.types.genericForm x = m := by
    rw [TypeSystem.genericForm, h.instantiated.generic_eq, h.madeFrom, Option.getD_some]
  rw [OwnErased, TypeSystem.ownTypeParams, hform, h.generic.member_eq] at he
  rcases he with ⟨hnone, -⟩ | ⟨-, sub, bs, kind, -, -, -, hkey⟩
  · exact absurd hnone (h.generic.kind_eq ▸ h.typeParams)
  · exact hkey.container_eq

/-- No declared member has the erased image that the instance has. -/
theorem erased_ne (ht : t.Valid) (hacyclic : t.types.Acyclic)
    (h : InstantiatedFirst t.types m x k l) {base : ClassId} {decl e : MemberId} {subst : SubstId}
    (hdecl : decl ∈ (t.types.classDef base).members)
    (hsubst : Answers (liftM (Pool.fullSubst l.container : StateM Pool SubstId) :
      CanonicalM SubstId) subst t) (himage : t.ErasedImage subst l.container decl e) :
    ¬ Answers (eraseOwnTypeParams x) e t := by
  intro he
  obtain ⟨base', sub, outer, hcontainer⟩ := h.seenIn
  obtain ⟨class', hraw⟩ := h.raw
  obtain ⟨k', hk', -, hgeneric⟩ := (ht.types.classes base).members decl hdecl
  have himage' : t.ImageErased (t.types.pool.instanceBindings l.container) l.container k' e :=
    .of_answers ht ht hacyclic (.refl t) hk' hcontainer (himage.answers hcontainer hsubst)
  have herased : t.OwnErased x e := .of_answers ht hacyclic h.instantiated.hasMember he
  have hsame := (h.container_eq herased).symm.trans (himage'.container_eq hgeneric)
  rw [hsame] at hraw
  exact nomatch hraw.unique hcontainer

/-- The instance has no canonical form. -/
theorem canonicalizeMember_keeps (ht : t.Valid) (hacyclic : t.types.Acyclic)
    (h : InstantiatedFirst t.types m x k l) :
    Keeps (canonicalizeMember x).run t fun result u => result = .error
      (.unreconcilable (u.types.displayMember x) (u.types.display l.container)) := by
  refine (Canonicalizer.canonicalizeMember_keeps ht hacyclic h.instantiated.hasMember).mono ?_
  intro result u htu hu houtcome
  have hacyclic' := acyclic_of_grows ht htu hacyclic
  have h' := h.of_le htu.le.1
  have hcontainer := h'.instantiated.container_eq
  cases houtcome with
  | canonical hfind =>
    obtain ⟨base, sub, outer, hk⟩ := h'.seenIn
    obtain ⟨decl, hdecl, -, subst, e, hsubst, himage, he⟩ :=
      (hu.members hfind).explained (hcontainer.symm ▸ hk)
    rw [hcontainer] at hsubst himage
    exact absurd he (h'.erased_ne hu hacyclic' hdecl hsubst himage)
  | unexplained _ _ _ => rw [hcontainer]

end InstantiatedFirst

/-- A generic member with type arguments, seen in an instantiation, has no canonical form, whatever
was canonicalized before: the type arguments are taken back together with the instantiation, and no
image that the class declares is left to compare with. The member itself has a canonical form. -/
theorem canonicalizeMember_instantiated_first (hs : Reachable s) (hacyclic : s.types.Acyclic)
    {base base' : ClassId} {m : MemberId} (hm : m ∈ (s.types.classDef base).members)
    (hparams : (s.types.member m).kind.typeParams ≠ []) {args : List TypeId}
    (hargs : ∀ ty ∈ args, s.types.pool.Has ty) {container : TypeId} {sub : SubstId}
    {outer : Option TypeId} (hcontainer : s.types.pool.HasKind container (.inst base' sub outer)) :
    let inferred := (liftM (TypeSystem.instantiateMethod m args) : CanonicalM MemberId) s
    ∀ s₁, Later inferred.2 s₁ →
    let image := (liftM (TypeSystem.memberIn inferred.1 container) : CanonicalM MemberId) s₁
    ∀ t, Later image.2 t →
    let a := (canonicalizeMember image.1).run t
    let b := (canonicalizeMember m).run t
    a.1 = .error (.unreconcilable (a.2.types.displayMember image.1) (a.2.types.display container)) ∧
      ∃ c, b.1 = .ok c := by
  have hvalid := hs.valid
  obtain ⟨k, hk, hraw, -⟩ := (hvalid.types.classes base).members m hm
  have hinferred := lift_computes hvalid
    (TypeSystem.instantiateMethod_computes hvalid.types hk hargs)
  intro inferred s₁ hs₁ image t ht a b
  obtain ⟨kind, -, hkey⟩ := hinferred.post
  have hsi := hinferred.grows
  obtain ⟨his₁, hvalid₁⟩ := hs₁.grows hinferred.valid (acyclic_of_grows hvalid hsi hacyclic)
  have hss₁ := hsi.trans his₁
  have himage := lift_computes hvalid₁ (TypeSystem.memberIn_computes hvalid₁.types
    (hkey.of_le his₁.le.1) (hcontainer.of_le hss₁.le.1.1))
  obtain ⟨kind', -, hkey'⟩ := himage.post
  have hst₀ := hss₁.trans himage.grows
  obtain ⟨hgrows, htvalid⟩ := ht.grows himage.valid (acyclic_of_grows hvalid hst₀ hacyclic)
  have hst := hst₀.trans hgrows
  have hacyclic' := acyclic_of_grows hvalid hst hacyclic
  have hfirst : InstantiatedFirst t.types m image.1 k _ :=
    { generic := hk.of_le hst.le.1
      raw := ⟨base, hraw.of_le hst.le.1.1⟩
      typeParams := hk.kind_eq ▸ hparams
      instantiated := hkey'.of_le hgrows.le.1
      seenIn := ⟨base', sub, outer, hcontainer.of_le hst.le.1.1⟩
      madeFrom := rfl }
  have hdeclared := canonicalizeMember_keeps htvalid hacyclic' (hk.hasMember.of_le hst.le.1)
  obtain ⟨c, hc, -⟩ := hdeclared.post.of_declared hdeclared.valid
    (TypeSystem.declared_of_le (hst.trans hdeclared.grows).le.1 hm)
  exact ⟨(hfirst.canonicalizeMember_keeps htvalid hacyclic').post, c, hc⟩

/-- The method of a class with a type argument, seen in an instantiation. -/
theorem canonicalizeMember_instantiated_first_box :
    let inferred :=
      (liftM (TypeSystem.instantiateMethod ⟨16⟩ [.object]) : CanonicalM MemberId) boxSession
    let image := (liftM (TypeSystem.memberIn inferred.1 ⟨16⟩) : CanonicalM MemberId) inferred.2
    let a := (canonicalizeMember image.1).run image.2
    let b := (canonicalizeMember ⟨16⟩).run image.2
    a.1 = .error (.unreconcilable (a.2.types.displayMember image.1) (a.2.types.display ⟨16⟩)) ∧
      ∃ c, b.1 = .ok c := by
  obtain ⟨hmembers, hparams, hcontainer⟩ := boxSession_declares
  have hm : ⟨16⟩ ∈ (boxSession.types.classDef ⟨2⟩).members :=
    hmembers ▸ List.mem_cons_of_mem _ List.mem_cons_self
  have hgeneric : (boxSession.types.member ⟨16⟩).kind.typeParams ≠ [] := hparams ▸ nofun
  have hargs : ∀ ty ∈ [TypeId.object], boxSession.types.pool.Has ty := by decide +kernel
  have h := canonicalizeMember_instantiated_first boxSession_reachable boxSession_acyclic hm hgeneric
    hargs hcontainer
  exact h _ (.refl _) _ (.refl _)

end Erasure.Canonicalizer
