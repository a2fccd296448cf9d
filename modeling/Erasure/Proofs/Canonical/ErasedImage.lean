/-
Images with their own type parameters erased.

`erasedImage decl container` is what a declared member is compared by when an instance is
reconciled. Its key is fixed by the declarations up to the numbers of new types, so that two members
are told apart by their erased images at one time exactly when they are at any other. The main
statements:

* `erasedImage_computes`: the signature, the container and the origin of an erased image.
* `ImageErased.mirrors`: erased images computed at different times correspond.
* `ImageErased.eq_of_eq`: members that have one erased image at one time have one at any other.
-/
import Erasure.Proofs.Canonical.Agreement
import Erasure.Proofs.Canonical.Reconciliation

namespace Erasure

/-! ### Signatures that correspond -/

/-- Signatures that correspond have images that correspond. -/
theorem TypeSystem.SubstitutesKind.mirrors {p q : Pool} (hp : p.Valid) (hq : q.Valid)
    {bs bs' : Bindings} {k k' l l' : MemberKind} (hbs : Bindings.Related (p.Mirrors q) bs bs')
    (hk : k.Related (p.Mirrors q) k') (h : SubstitutesKind p bs k l)
    (h' : SubstitutesKind q bs' k' l') : l.Related (p.Mirrors q) l' := by
  obtain ⟨kind, hkind, rfl⟩ := h
  obtain ⟨kind', hkind', rfl⟩ := h'
  have hreplace := Pool.replaceRelated_lookup? hbs
  have hkeep : (fun v => (bs'.lookup? v).isNone) = fun v => (bs.lookup? v).isNone := by
    funext v
    have hv := hreplace v
    generalize bs.lookup? v = x, bs'.lookup? v = x' at hv
    cases hv <;> rfl
  rw [hkeep]
  refine MemberKind.Related.filterTypeParams (hk.map hkind hkind' ?_) _
  exact fun t t' u u' ht hu hu' => ht.substitutes hp hq hreplace hu.1 hu'.1

namespace Canonicalizer

variable {s t u : Canonicalizer}

/-! ### Erased images -/

/-- A declared member as an instantiation sees it, with its own type parameters erased. -/
def erasedImage (decl : MemberId) (container : TypeId) : CanonicalM MemberId := do
  eraseOwnTypeParams (← liftM (TypeSystem.memberIn decl container))

/-- The instance `e` is a member with the key `k`, seen in `container` where the type parameters are
bound by `bs`, with its own type parameters erased. -/
def ImageErased (t : Canonicalizer) (bs : Bindings) (container : TypeId) (k : MemberKey)
    (e : MemberId) : Prop :=
  ∃ image kind, t.types.HasKey image { k with kind, container } ∧
    TypeSystem.SubstitutesKind t.types.pool bs k.kind kind ∧ t.OwnErased image e

theorem erasedImage_computes (hs : s.Valid) (hacyclic : s.types.Acyclic) {decl : MemberId}
    {k : MemberKey} {container : TypeId} {base : ClassId} {sub : SubstId} {outer : Option TypeId}
    (hdecl : s.types.HasKey decl k)
    (hcontainer : s.types.pool.HasKind container (.inst base sub outer)) :
    Computes (erasedImage decl container) s fun e t =>
      t.ImageErased (s.types.pool.instanceBindings container) container k e := by
  unfold erasedImage
  refine (lift_computes hs (TypeSystem.memberIn_computes hs.types hdecl hcontainer)).bind ?_
  rintro image t hst ht ⟨kind, hkind, himage⟩
  refine (eraseOwnTypeParams_computes ht (acyclic_of_grows hs hst hacyclic)
    himage.hasMember).mono fun e u htu _ he => ?_
  exact ⟨image, kind, himage.of_le htu.le.1, hkind.of_le htu.le.1.1, he⟩

/-- What a search compares an instance with is the erased image. -/
theorem ErasedImage.answers {subst : SubstId} {container : TypeId} {decl e : MemberId}
    {base : ClassId} {sub : SubstId} {outer : Option TypeId}
    (hcontainer : s.types.pool.HasKind container (.inst base sub outer))
    (hsubst : Answers (liftM (Pool.fullSubst container : StateM Pool SubstId) : CanonicalM SubstId)
      subst s) (h : s.ErasedImage subst container decl e) :
    Answers (erasedImage decl container) e s := by
  obtain ⟨image, himage, herased⟩ := h
  refine Answers.bind (fun t hle => ?_) herased
  have hkind : t.types.kind container = .inst base sub outer :=
    (hcontainer.of_le hle.1.1).kind_eq
  have himage' : Answers (liftM (Pool.fullSubst container : StateM Pool SubstId) >>= fun subst =>
      liftM (TypeSystem.substituteMember decl subst container) : CanonicalM MemberId) image s :=
    hsubst.bind himage
  rw [← himage' t hle, lift_apply, TypeSystem.memberIn, get_bind_apply, hkind]
  rfl

/-- An erased image has the key that the declaration and the instantiation demand. -/
theorem ImageErased.of_answers (hs : s.Valid) (ht : t.Valid) (hacyclic : s.types.Acyclic)
    (hst : Store.Grows s t) {decl e : MemberId} {k : MemberKey} {container : TypeId}
    {base : ClassId} {sub : SubstId} {outer : Option TypeId} (hdecl : s.types.HasKey decl k)
    (hcontainer : s.types.pool.HasKind container (.inst base sub outer))
    (h : Answers (erasedImage decl container) e t) :
    t.ImageErased (s.types.pool.instanceBindings container) container k e := by
  have hpost := (erasedImage_computes ht (acyclic_of_grows hs hst hacyclic)
    (hdecl.of_le hst.le.1) (hcontainer.of_le hst.le.1.1)).post
  rw [h.eq] at hpost
  rwa [← Pool.instanceBindings_of_le hs.types.pool hst.le.1.1 hcontainer.has]

theorem ImageErased.unique {bs : Bindings} {container : TypeId} {k : MemberKey} {a b : MemberId}
    (ha : t.ImageErased bs container k a) (hb : t.ImageErased bs container k b) : a = b := by
  obtain ⟨image, kind, himage, hkind, ha⟩ := ha
  obtain ⟨image', kind', himage', hkind', hb⟩ := hb
  obtain rfl := hkind.unique hkind'
  obtain rfl := himage.inj himage'
  exact ha.unique hb

/-! ### Images at different times -/

/-- An instance that was made from no generic method is its own generic form. -/
theorem genericForm_of_hasKey {ts : TypeSystem} {m : MemberId} {k : MemberKey}
    (hm : ts.HasKey m k) (hgeneric : k.generic = none) : ts.genericForm m = m := by
  rw [TypeSystem.genericForm, hm.generic_eq, hgeneric, Option.getD_none]

/-- Erasing the own type parameters of an instance that was made from no generic method replaces
its signature at most. -/
theorem OwnErased.of_hasKey {m e : MemberId} {k : MemberKey} (hm : t.types.HasKey m k)
    (hgeneric : k.generic = none) (h : t.OwnErased m e) :
    (k.kind.typeParams = [] ∧ e = m) ∨ (k.kind.typeParams ≠ [] ∧
      ∃ sub bs kind, t.memo.memberSubsts.find? m = some (some sub) ∧
        t.types.pool.HasBindings sub bs ∧ TypeSystem.SubstitutesKind t.types.pool bs k.kind kind ∧
        t.types.HasKey e { k with kind }) := by
  obtain rfl := hm.member_eq
  rwa [OwnErased, TypeSystem.ownTypeParams, genericForm_of_hasKey hm hgeneric] at h

theorem Valid.knownMemo (hs : s.Valid) : s.types.KnownMemo s.memo.types where
  has h := (hs.canonical h).has
  normal h := (hs.canonical h).normal

/-- The types that were there from the start correspond to themselves. -/
theorem mirrors_of_has (hs : s.Valid) (ht : t.Valid) (hst : Store.Grows s t)
    (hsu : Store.Grows s u) {ty : TypeId} (hty : s.types.pool.Has ty) :
    t.types.pool.Mirrors u.types.pool ty ty :=
  Pool.mirrors_self hs.types.pool ht.types.pool hst.le.1.1 hsu.le.1.1 hty

section Correspondence

variable (hs : s.Valid) (ht : t.Valid) (hu : u.Valid) (hst : Store.Grows s t)
  (hsu : Store.Grows s u)
include hs ht hu hst hsu

/-- The substitutions that erase the own type parameters of corresponding instances correspond. -/
theorem related_memberSubsts {m m' : MemberId} {k : MemberKey} {kind : MemberKind}
    {sub sub' : SubstId} {bs bs' : Bindings} (hm : t.types.HasKey m k)
    (hm' : u.types.HasKey m' { k with kind })
    (hkind : k.kind.Related (t.types.pool.Mirrors u.types.pool) kind)
    (hfind : t.memo.memberSubsts.find? m = some (some sub))
    (hfind' : u.memo.memberSubsts.find? m' = some (some sub'))
    (hbs : t.types.pool.HasBindings sub bs) (hbs' : u.types.pool.HasBindings sub' bs') :
    Bindings.Related (t.types.pool.Mirrors u.types.pool) bs bs' := by
  have hbinds := ((ht.memberSubsts hfind).binds sub rfl).bindsErased
    (Extends.coherent hst (coherent_self hs))
  have hbinds' := ((hu.memberSubsts hfind').binds sub' rfl).bindsErased
    (Extends.coherent hsu (coherent_self hs))
  rw [hm.kind_eq] at hbinds
  rw [hm'.kind_eq, hkind.typeParams_eq] at hbinds'
  obtain ⟨cs, cs', hcs, hcs', hrelated⟩ := hbinds.agree hs.types ht.types hu.types
    (Extends.types hst) (Extends.types hsu) hs.knownMemo hbinds'
  obtain rfl := hbs.unique hcs
  obtain rfl := hbs'.unique hcs'
  exact hrelated

/-- Erased images computed at different times correspond. -/
theorem ImageErased.mirrors {k : MemberKey} {container : TypeId} {e e' : MemberId}
    (hcontainer : s.types.pool.Has container) (hk : ∀ ty ∈ k.kind.types, s.types.pool.Has ty) (hgeneric : k.generic = none)
    (h : t.ImageErased (s.types.pool.instanceBindings container) container k e)
    (h' : u.ImageErased (s.types.pool.instanceBindings container) container k e') :
    ∃ l l', t.types.HasKey e { k with kind := l, container } ∧
      u.types.HasKey e' { k with kind := l', container } ∧
      l.Related (t.types.pool.Mirrors u.types.pool) l' := by
  obtain ⟨image, kind, hkey, hkind, herased⟩ := h
  obtain ⟨image', kind', hkey', hkind', herased'⟩ := h'
  have hself : k.kind.Related (t.types.pool.Mirrors u.types.pool) k.kind :=
    .refl fun ty hty => mirrors_of_has hs ht hst hsu (hk ty hty)
  have hbs : Bindings.Related (t.types.pool.Mirrors u.types.pool)
      (s.types.pool.instanceBindings container) (s.types.pool.instanceBindings container) :=
    Pool.related_self fun b hb => mirrors_of_has hs ht hst hsu
      ((Pool.isInstanceBinding_of_mem_instanceBindings hs.types.pool hcontainer hb).has hs.types.pool)
  have hrelated := hkind.mirrors ht.types.pool hu.types.pool hbs hself hkind'
  have hparams : kind'.typeParams = kind.typeParams := hrelated.typeParams_eq
  rcases herased.of_hasKey hkey hgeneric with
    ⟨hnone, rfl⟩ | ⟨hne, sub, bs, l, hfind, hsub, hl, hkeyl⟩
  · rcases herased'.of_hasKey hkey' hgeneric with ⟨-, rfl⟩ | ⟨hne', -⟩
    · exact ⟨kind, kind', hkey, hkey', hrelated⟩
    · exact absurd (hparams.trans hnone) hne'
  · rcases herased'.of_hasKey hkey' hgeneric with
      ⟨hnone', -⟩ | ⟨-, sub', bs', l', hfind', hsub', hl', hkeyl'⟩
    · exact absurd (hparams.symm.trans hnone') hne
    · have hbs' := related_memberSubsts hs ht hu hst hsu hkey hkey' hrelated hfind hfind' hsub hsub'
      exact ⟨l, l', hkeyl, hkeyl', hl.mirrors ht.types.pool hu.types.pool hbs' hrelated hl'⟩

/-- Members that have one erased image at one time have one at any other. -/
theorem ImageErased.eq_of_eq {k l : MemberKey} {container : TypeId} {a b e : MemberId}
    (hcontainer : s.types.pool.Has container) (hk : s.types.AdmitsKey k) (hl : s.types.AdmitsKey l)
    (hkgeneric : k.generic = none) (hlgeneric : l.generic = none)
    (ha : t.ImageErased (s.types.pool.instanceBindings container) container k a)
    (hb : t.ImageErased (s.types.pool.instanceBindings container) container l b)
    (ha' : u.ImageErased (s.types.pool.instanceBindings container) container k e)
    (hb' : u.ImageErased (s.types.pool.instanceBindings container) container l e) : a = b := by
  obtain ⟨x, x', hx, hx', hrelated⟩ :=
    ha.mirrors hs ht hu hst hsu hcontainer hk.types hkgeneric ha'
  obtain ⟨y, y', hy, hy', hrelated'⟩ :=
    hb.mirrors hs ht hu hst hsu hcontainer hl.types hlgeneric hb'
  obtain ⟨rfl, -, hflags, -⟩ := MemberKey.mk.inj (hx'.unique hy')
  obtain rfl := hrelated.inj (fun _ _ _ h h' => h.inj ht.types.pool hu.types.pool h') hrelated'
  rw [hflags, hkgeneric] at hx
  rw [hlgeneric] at hy
  exact hx.inj hy

end Correspondence

end Canonicalizer

end Erasure
