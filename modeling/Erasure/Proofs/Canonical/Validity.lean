/-
Valid canonicalizers.

What is remembered stays true while the type system grows: canonical types are erased, canonical
members are settled, and an instance that was reconciled is still explained by a declared member
with the same canonical form. The main statements:

* `Coherent`: the remembered canonical types are those that `Erases` demands.
* `Valid.extend`: entries that are old or right keep a canonicalizer valid.
* `lift_keeps`, `lift_computes`: work on the type system keeps what is remembered.
-/
import Erasure.Canonical.Reconciliation
import Erasure.Proofs.Canonical.Relation
import Erasure.Proofs.TypeSystem.Image

namespace Erasure

/-! ### Settled members -/

namespace TypeSystem

variable {ts us : TypeSystem}

/-- A member instance in canonical form: erased types, an erased container and no type parameters,
neither its own nor those of a generic method that it was made from. -/
structure Settled (ts : TypeSystem) (m : MemberId) : Prop where
  hasMember : ts.HasMember m
  types : ∀ ty ∈ (ts.member m).kind.types, ts.pool.IsNormal ty
  typeParams : (ts.member m).kind.typeParams = []
  container : ts.pool.IsNormal (ts.member m).container
  generic : ∀ g ∈ (ts.member m).generic, (ts.member g).kind.typeParams = []

theorem Settled.of_le (hts : ts.Valid) (hle : ts ≤ us) {m : MemberId} (h : ts.Settled m) :
    us.Settled m := by
  have hmember := member_of_le hle h.hasMember
  constructor
  case hasMember => exact h.hasMember.of_le hle
  case types => exact fun ty hty => (h.types ty (hmember ▸ hty)).of_le hle.1
  case typeParams => rw [hmember, h.typeParams]
  case container => exact hmember ▸ h.container.of_le hle.1
  case generic =>
    intro g hg
    rw [hmember] at hg
    rw [member_of_le hle ((hts.keys h.hasMember.hasKey).generic g hg).1, h.generic g hg]

/-- An instance that is settled later on was settled from the start. -/
theorem Settled.of_ge (hts : ts.Valid) (hus : us.Valid) (hle : ts ≤ us) {m : MemberId}
    (hm : ts.HasMember m) (h : us.Settled m) : ts.Settled m := by
  have hmember := member_of_le hle hm
  have hadmits := hts.keys hm.hasKey
  constructor
  case hasMember => exact hm
  case types =>
    intro ty hty
    exact (h.types ty (hmember ▸ hty)).of_ge hts.pool hus.pool hle.1 (hadmits.types ty hty)
  case typeParams => rw [← hmember, h.typeParams]
  case container => exact (hmember ▸ h.container).of_ge hts.pool hus.pool hle.1 hadmits.container
  case generic =>
    intro g hg
    rw [← member_of_le hle (hadmits.generic g hg).1]
    exact h.generic g (hmember ▸ hg)

end TypeSystem

namespace Canonicalizer

variable {s t : Canonicalizer}

/-! ### Growth -/

/-- A canonicalizer is below another when types, members and canonical forms have been kept. -/
instance : Preorder Canonicalizer :=
  Preorder.lift fun s =>
    (s.types, s.memo.types, s.memo.members, s.memo.classSubsts, s.memo.memberSubsts)

theorem le_def : s ≤ t ↔ s.types ≤ t.types ∧ s.memo.types ≤ t.memo.types ∧
    s.memo.members ≤ t.memo.members ∧ s.memo.classSubsts ≤ t.memo.classSubsts ∧
    s.memo.memberSubsts ≤ t.memo.memberSubsts := Iff.rfl

/-- The remembered canonical types are those that the declarations demand after the results in
`M`. -/
structure Coherent (M : Memo TypeId TypeId) (s : Canonicalizer) : Prop where
  le : M ≤ s.memo.types
  erases : ∀ {ty r}, s.memo.types.find? ty = some r →
    ∃ shape, s.types.Erases M ty shape ∧ s.types.pool.HasShape r shape

/-- A canonicalizer has grown without a declaration, and by the right canonical types. -/
structure Extends (s t : Canonicalizer) : Prop where
  le : s ≤ t
  types : TypeSystem.Extends s.types t.types
  coherent : ∀ {M}, Coherent M s → Coherent M t

/-! ### Entries -/

/-- The declared member `decl`, seen in `container` under its substitution and with its own type
parameters erased, is the instance `erased`, now and from now on. -/
def ErasedImage (s : Canonicalizer) (subst : SubstId) (container : TypeId)
    (decl erased : MemberId) : Prop :=
  ∃ image,
    Answers (liftM (TypeSystem.substituteMember decl subst container) : CanonicalM MemberId)
      image s ∧ Answers (eraseOwnTypeParams image) erased s

/-- The declared member `decl`, seen in `container` with its own type parameters erased, is the
instance `m` with its own type parameters erased, now and from now on. -/
def Explains (s : Canonicalizer) (container : TypeId) (m decl : MemberId) : Prop :=
  ∃ subst erased,
    Answers (liftM (Pool.fullSubst container : StateM Pool SubstId) : CanonicalM SubstId) subst s ∧
    ErasedImage s subst container decl erased ∧ Answers (eraseOwnTypeParams m) erased s

theorem ErasedImage.of_le (hle : s ≤ t) {subst : SubstId} {container : TypeId}
    {decl erased : MemberId} (h : s.ErasedImage subst container decl erased) :
    t.ErasedImage subst container decl erased := by
  obtain ⟨image, himage, herased⟩ := h
  exact ⟨image, himage.of_le hle, herased.of_le hle⟩

theorem Explains.of_le (hle : s ≤ t) {container : TypeId} {m decl : MemberId}
    (h : s.Explains container m decl) : t.Explains container m decl := by
  obtain ⟨subst, erased, hsubst, himage, herased⟩ := h
  exact ⟨subst, erased, hsubst.of_le hle, himage.of_le hle, herased.of_le hle⟩

/-- The second instance is the first one with its own type parameters erased: the image of its
generic form under the substitution remembered for that form, in the container of that form, or
itself if it has none. -/
def OwnErased (t : Canonicalizer) (m erased : MemberId) : Prop :=
  (t.types.ownTypeParams m = [] ∧ erased = m) ∨ (t.types.ownTypeParams m ≠ [] ∧
    ∃ sub bs kind, t.memo.memberSubsts.find? (t.types.genericForm m) = some (some sub) ∧
      t.types.pool.HasBindings sub bs ∧
      TypeSystem.SubstitutesKind t.types.pool bs (t.types.member (t.types.genericForm m)).kind kind ∧
      t.types.HasKey erased { (t.types.member (t.types.genericForm m)).toMemberKey with kind })

/-- The second instance is the first one, seen in `container`, with the type parameters of the class
erased by the substitution remembered for the class, or itself if there are none. -/
def ClassErased (t : Canonicalizer) (c : ClassId) (container : TypeId) (m erased : MemberId) :
    Prop :=
  (t.memo.classSubsts.find? c = some none ∧ erased = m) ∨
    ∃ sub bs kind, t.memo.classSubsts.find? c = some (some sub) ∧
      t.types.pool.HasBindings sub bs ∧
      TypeSystem.SubstitutesKind t.types.pool bs (t.types.member m).kind kind ∧
      t.types.HasKey erased { (t.types.member m).toMemberKey with kind, container }

/-- The second instance has the remembered canonical forms of the types and of the container of the
first one, and no type parameters. -/
def SignatureErased (t : Canonicalizer) (m erased : MemberId) : Prop :=
  ∃ kind container,
    (t.types.member m).kind.Related (fun ty r => t.memo.types.find? ty = some r) kind ∧
    t.memo.types.find? (t.types.member m).container = some container ∧
    t.types.HasKey erased
      { (t.types.member m).toMemberKey with kind := kind.withoutTypeParams, container }

/-- The second instance is the first one, a member of the raw class `c`, with the type parameters
and then the signature erased. -/
def ErasedInClass (t : Canonicalizer) (c : ClassId) (m canonical : MemberId) : Prop :=
  ∃ own erased, t.OwnErased m own ∧ t.ClassErased c (t.types.member m).container own erased ∧
    t.SignatureErased erased canonical

theorem OwnErased.hasMember {m erased : MemberId} (hm : t.types.HasMember m)
    (h : t.OwnErased m erased) : t.types.HasMember erased := by
  rcases h with ⟨-, rfl⟩ | ⟨-, sub, bs, kind, -, -, -, hkey⟩
  · exact hm
  · exact hkey.hasMember

theorem ClassErased.hasMember {c : ClassId} {container : TypeId} {m erased : MemberId}
    (hm : t.types.HasMember m) (h : t.ClassErased c container m erased) :
    t.types.HasMember erased := by
  rcases h with ⟨-, rfl⟩ | ⟨sub, bs, kind, -, -, -, hkey⟩
  · exact hm
  · exact hkey.hasMember

section Growth

variable (hle : s ≤ t)
include hle

theorem OwnErased.of_le (hs : s.types.Valid) {m erased : MemberId} (hm : s.types.HasMember m)
    (h : s.OwnErased m erased) : t.OwnErased m erased := by
  have hgeneric := TypeSystem.genericForm_of_le hle.1 hm
  have hmember := TypeSystem.member_of_le hle.1 (TypeSystem.hasMember_genericForm hs hm)
  rcases h with ⟨hnone, rfl⟩ | ⟨hne, sub, bs, kind, hfind, hbs, hkind, hkey⟩
  · exact Or.inl ⟨(TypeSystem.ownTypeParams_of_le hs hle.1 hm).trans hnone, rfl⟩
  · refine Or.inr ⟨TypeSystem.ownTypeParams_of_le hs hle.1 hm ▸ hne, sub, bs, kind, ?_⟩
    rw [hgeneric, hmember]
    exact ⟨Memo.find?_of_le hle.2.2.2.2 hfind, hbs.of_le hle.1.1, hkind.of_le hle.1.1,
      hkey.of_le hle.1⟩

theorem ClassErased.of_le {c : ClassId} {container : TypeId} {m erased : MemberId}
    (hm : s.types.HasMember m) (h : s.ClassErased c container m erased) :
    t.ClassErased c container m erased := by
  rcases h with ⟨hnone, rfl⟩ | ⟨sub, bs, kind, hfind, hbs, hkind, hkey⟩
  · exact Or.inl ⟨Memo.find?_of_le hle.2.2.2.1 hnone, rfl⟩
  · refine Or.inr ⟨sub, bs, kind, Memo.find?_of_le hle.2.2.2.1 hfind, hbs.of_le hle.1.1, ?_⟩
    rw [TypeSystem.member_of_le hle.1 hm]
    exact ⟨hkind.of_le hle.1.1, hkey.of_le hle.1⟩

theorem SignatureErased.of_le {m erased : MemberId} (hm : s.types.HasMember m)
    (h : s.SignatureErased m erased) : t.SignatureErased m erased := by
  obtain ⟨kind, container, hkind, hcontainer, hkey⟩ := h
  refine ⟨kind, container, ?_⟩
  rw [TypeSystem.member_of_le hle.1 hm]
  exact ⟨hkind.imp fun _ _ => Memo.find?_of_le hle.2.1, Memo.find?_of_le hle.2.1 hcontainer,
    hkey.of_le hle.1⟩

theorem ErasedInClass.of_le (hs : s.types.Valid) {c : ClassId} {m canonical : MemberId}
    (hm : s.types.HasMember m)
    (h : s.ErasedInClass c m canonical) : t.ErasedInClass c m canonical := by
  obtain ⟨own, erased, hown, hclass, hsignature⟩ := h
  have howned := hown.hasMember hm
  refine ⟨own, erased, hown.of_le hle hs hm, ?_,
    hsignature.of_le hle (hclass.hasMember howned)⟩
  rw [TypeSystem.member_of_le hle.1 hm]
  exact hclass.of_le hle howned

end Growth

/-- The substitution binds each of the variables to its remembered canonical form. -/
def BindsCanonical (t : Canonicalizer) (vs : List TypeVarId) (sub : SubstId) : Prop :=
  ∃ bs : List (TypeVarId × TypeId), t.types.pool.HasBindings sub (Bindings.ofList bs) ∧
    List.Forall₂ (fun v b => b.1 = v ∧ ∃ ty, t.types.pool.HasKind ty (.var v) ∧
      t.memo.types.find? ty = some b.2) vs bs

theorem BindsCanonical.of_le (hle : s ≤ t) {vs : List TypeVarId} {sub : SubstId}
    (h : s.BindsCanonical vs sub) : t.BindsCanonical vs sub := by
  obtain ⟨bs, hbs, hvs⟩ := h
  refine ⟨bs, hbs.of_le hle.1.1, hvs.imp ?_⟩
  rintro v b ⟨hv, ty, hk, hfind⟩
  exact ⟨hv, ty, hk.of_le hle.1.1, Memo.find?_of_le hle.2.1 hfind⟩

theorem BindsCanonical.exists_bindings {vs : List TypeVarId} {sub : SubstId}
    (h : t.BindsCanonical vs sub) : ∃ bs, t.types.pool.HasBindings sub bs :=
  h.elim fun _ hbs => ⟨_, hbs.1⟩

theorem BindsCanonical.bindsErased {M : Memo TypeId TypeId} (hM : Coherent M t)
    {vs : List TypeVarId} {sub : SubstId} (h : t.BindsCanonical vs sub) :
    t.types.BindsErased M vs sub := by
  obtain ⟨bs, hbs, hvs⟩ := h
  refine ⟨bs, hbs, hvs.imp ?_⟩
  rintro v b ⟨hv, ty, hk, hfind⟩
  obtain ⟨shape, herases, hshape⟩ := hM.erases hfind
  exact ⟨hv, ty, shape, hk, herases, hshape⟩

/-- A canonical type is erased, and an erased type is its own canonical form. -/
structure CanonicalEntry (ts : TypeSystem) (ty r : TypeId) : Prop where
  has : ts.pool.Has ty
  normal : ts.pool.IsNormal r
  self : ts.pool.IsNormal ty → r = ty

/-- A member has a substitution that erases its type parameters exactly when it has some. -/
structure MemberErasureEntry (s : Canonicalizer) (m : MemberId) (x : Option SubstId) : Prop where
  has : s.types.HasMember m
  isNone_iff : x = none ↔ (s.types.member m).kind.typeParams = []
  binds : ∀ sub ∈ x, s.BindsCanonical (s.types.member m).kind.typeParams sub

/-- A canonical member is settled, and a settled one is its own canonical form. The canonical form
of any other member of a raw class is the member with its signature erased, and an instance seen in
an instantiation is explained by a declared member with the same canonical form. -/
structure ReconciledEntry (s : Canonicalizer) (m canonical : MemberId) : Prop where
  has : s.types.HasMember m
  settled : s.types.Settled canonical
  self : s.types.Settled m → canonical = m
  erased : ∀ {c}, s.types.pool.HasKind (s.types.member m).container (.raw c) →
    s.types.Settled m ∨ s.ErasedInClass c m canonical
  explained : ∀ {base subst outer},
    s.types.pool.HasKind (s.types.member m).container (.inst base subst outer) →
      ∃ decl ∈ (s.types.classDef base).members, s.memo.members.find? decl = some canonical ∧
        s.Explains (s.types.member m).container m decl

/-- The invariant of canonicalizers. -/
structure Valid (s : Canonicalizer) : Prop where
  types : s.types.Valid
  canonical : ∀ {ty r}, s.memo.types.find? ty = some r → CanonicalEntry s.types ty r
  /-- A canonical type is remembered as its own canonical form. -/
  fixed : ∀ {ty r}, s.memo.types.find? ty = some r → s.memo.types.find? r = some r
  outers : ∀ {c x}, s.memo.outers.find? c = some x → ∀ ty ∈ x, s.types.pool.IsNormal ty
  classSubsts : ∀ {c x}, s.memo.classSubsts.find? c = some x →
    ∀ sub ∈ x, ∃ vs, s.BindsCanonical vs sub
  memberSubsts : ∀ {m x}, s.memo.memberSubsts.find? m = some x → s.MemberErasureEntry m x
  members : ∀ {m canonical}, s.memo.members.find? m = some canonical →
    s.ReconciledEntry m canonical

theorem CanonicalEntry.of_le {ts us : TypeSystem} (hts : ts.Valid) (hus : us.Valid) (hle : ts ≤ us)
    {ty r : TypeId} (h : CanonicalEntry ts ty r) : CanonicalEntry us ty r where
  has := h.has.of_le hle.1
  normal := h.normal.of_le hle.1
  self hty := h.self (hty.of_ge hts.pool hus.pool hle.1 h.has)

theorem MemberErasureEntry.of_le (hle : s ≤ t) {m : MemberId} {x : Option SubstId}
    (h : s.MemberErasureEntry m x) : t.MemberErasureEntry m x where
  has := h.has.of_le hle.1
  isNone_iff := by rw [TypeSystem.member_of_le hle.1 h.has, h.isNone_iff]
  binds sub hsub := by
    rw [TypeSystem.member_of_le hle.1 h.has]
    exact (h.binds sub hsub).of_le hle

theorem ReconciledEntry.of_le (hs : s.types.Valid) (ht : t.types.Valid) (hle : s ≤ t)
    {m canonical : MemberId} (h : s.ReconciledEntry m canonical) :
    t.ReconciledEntry m canonical := by
  have hmember := TypeSystem.member_of_le hle.1 h.has
  have hcontainer := (hs.keys h.has.hasKey).container
  constructor
  case has => exact h.has.of_le hle.1
  case settled => exact h.settled.of_le hs hle.1
  case self => exact fun hm => h.self (hm.of_ge hs ht hle.1 h.has)
  case erased =>
    intro c hk
    rw [hmember] at hk
    have hk' := hk.of_ge hle.1.1 hcontainer
    exact (h.erased hk').imp (fun hsettled => hsettled.of_le hs hle.1)
      fun herased => herased.of_le hle hs h.has
  case explained =>
    intro base subst outer hk
    rw [hmember] at hk ⊢
    have hk' := hk.of_ge hle.1.1 hcontainer
    obtain ⟨decl, hdecl, hfind, hexplains⟩ := h.explained hk'
    exact ⟨decl, TypeSystem.declared_of_le hle.1 hdecl, Memo.find?_of_le hle.2.2.1 hfind, hexplains.of_le hle⟩

/-- Entries that are old or right keep a canonicalizer valid. -/
theorem Valid.extend (hs : s.Valid) (hle : s ≤ t) (htypes : t.types.Valid)
    (hcanonical : ∀ {ty r}, t.memo.types.find? ty = some r → s.memo.types.find? ty = some r ∨
      (CanonicalEntry t.types ty r ∧ t.memo.types.find? r = some r))
    (houters : ∀ {c x}, t.memo.outers.find? c = some x →
      s.memo.outers.find? c = some x ∨ ∀ ty ∈ x, t.types.pool.IsNormal ty)
    (hclassSubsts : ∀ {c x}, t.memo.classSubsts.find? c = some x →
      s.memo.classSubsts.find? c = some x ∨ ∀ sub ∈ x, ∃ vs, t.BindsCanonical vs sub)
    (hmemberSubsts : ∀ {m x}, t.memo.memberSubsts.find? m = some x →
      s.memo.memberSubsts.find? m = some x ∨ t.MemberErasureEntry m x)
    (hmembers : ∀ {m canonical}, t.memo.members.find? m = some canonical →
      s.memo.members.find? m = some canonical ∨ t.ReconciledEntry m canonical) : t.Valid where
  types := htypes
  canonical h := (hcanonical h).elim
    (fun hold => (hs.canonical hold).of_le hs.types htypes hle.1) And.left
  fixed h := (hcanonical h).elim (fun hold => Memo.find?_of_le hle.2.1 (hs.fixed hold)) And.right
  outers h := (houters h).elim
    (fun hold ty hty => (hs.outers hold ty hty).of_le hle.1.1) id
  classSubsts h := (hclassSubsts h).elim
    (fun hold sub hsub => (hs.classSubsts hold sub hsub).imp fun _ hbinds => hbinds.of_le hle) id
  memberSubsts h := (hmemberSubsts h).elim (fun hold => (hs.memberSubsts hold).of_le hle) id
  members h := (hmembers h).elim (fun hold => (hs.members hold).of_le hs.types htypes hle) id

instance : Store Canonicalizer where
  Grows := Extends
  Valid := Valid
  grows_refl s := ⟨le_refl s, .refl s.types, id⟩
  grows_trans h h' :=
    ⟨le_trans h.le h'.le, h.types.trans h'.types, fun hM => h'.coherent (h.coherent hM)⟩
  le_of_grows h := h.le

/-- Growth of the type system changes nothing about the canonical types remembered. -/
theorem Coherent.of_types (hs : s.Valid) {M : Memo TypeId TypeId} (hM : Coherent M s)
    (hext : TypeSystem.Extends s.types t.types) (hmemo : t.memo = s.memo) : Coherent M t where
  le := hmemo ▸ hM.le
  erases h := by
    rw [hmemo] at h
    obtain ⟨shape, herases, hshape⟩ := hM.erases h
    exact ⟨shape, herases.of_extends hs.types hext (hs.canonical h).has, hshape.of_le hext.le.1⟩

/-- What is remembered is coherent with itself. -/
theorem coherent_self (hs : s.Valid) : Coherent s.memo.types s where
  le := le_refl _
  erases h := by
    obtain ⟨shape, hshape⟩ := (hs.canonical h).normal
    exact ⟨shape, .remembered h hshape, hshape⟩

/-! ### Work on the type system -/

theorem lift_apply {α : Type} (act : StateM TypeSystem α) (s : Canonicalizer) :
    (liftM act : CanonicalM α) s = ((act s.types).1, { s with types := (act s.types).2 }) := rfl

theorem lift_keeps {α : Type} {act : StateM TypeSystem α} {P : α → TypeSystem → Prop}
    (hs : s.Valid) (h : Keeps act s.types P) :
    Keeps (liftM act : CanonicalM α) s fun a t => P a t.types := by
  have hext : TypeSystem.Extends s.types (act s.types).2 := h.grows
  have hle : s ≤ { s with types := (act s.types).2 } :=
    ⟨hext.le, le_refl _, le_refl _, le_refl _, le_refl _⟩
  refine ⟨⟨hle, hext, fun hM => hM.of_types hs hext rfl⟩, ?_, h.post⟩
  exact hs.extend hle h.valid Or.inl Or.inl Or.inl Or.inl Or.inl

/-- What an action computes in the type system it computes in the canonicalizer. -/
theorem lift_computes {α : Type} {act : StateM TypeSystem α} {P : α → TypeSystem → Prop}
    (hs : s.Valid) (h : Computes act s.types P) :
    Computes (liftM act : CanonicalM α) s fun a t => P a t.types := by
  refine ⟨lift_keeps hs h.toKeeps, fun t hle => ?_⟩
  rw [lift_apply, h.again t.types hle.1]
  rfl

end Canonicalizer

end Erasure
