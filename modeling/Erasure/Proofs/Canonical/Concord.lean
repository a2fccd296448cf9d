/-
Canonicalizers that agree.

Two canonicalizers may remember different things, and the type system may have been extended by
declarations from one to the other. If what both remember is `Consistent` with the declarations, they
remember one canonical form of a declared member. The main statements:

* `Consistent.of_continues`: declarations that spare what there is keep a canonicalizer consistent.
* `Consistent.find?_type_eq`: what is remembered of a type is the same in both.
* `Consistent.find?_member_eq`: so is what is remembered of a declared member.
-/
import Erasure.Proofs.Canonical.Addition
import Erasure.Proofs.Canonical.ErasedImage
import Erasure.Proofs.Canonical.Session

namespace Erasure.Canonicalizer

open TypeSystem (Continues)

variable {s t : Canonicalizer}

/-! ### Consistent memos -/

/-- The substitution remembered for a class erases the type parameters in scope of the class, and it
is there exactly if the class is generic. -/
structure ClassErasureEntry (s : Canonicalizer) (c : ClassId) (x : Option SubstId) : Prop where
  mentions : s.types.Mentions c
  isSome_eq : x.isSome = s.types.isGeneric c
  binds : ∀ sub ∈ x, s.BindsCanonical (s.types.typeParamsInScope c) sub

/-- The declared member `decl`, seen in the container of the instance `m`, is another instance, the
own type parameters of both erased. -/
def Differs (s : Canonicalizer) (m decl : MemberId) : Prop :=
  ∃ e own, Answers (erasedImage decl (s.types.member m).container) e s ∧
    Answers (eraseOwnTypeParams m) own s ∧ e ≠ own

/-- An instance that is seen in an instantiation has the canonical form of the member that it is
linked to, or it is no image of that member. -/
def LinkedEntry (s : Canonicalizer) (m c : MemberId) : Prop :=
  ∀ base sub outer, s.types.pool.HasKind (s.types.member m).container (.inst base sub outer) →
    (s.types.member m).decl ∈ (s.types.classDef base).members →
      s.memo.members.find? (s.types.member m).decl = some c ∨ s.Differs m (s.types.member m).decl

/-- What is remembered is what the declarations demand. -/
structure Consistent (s : Canonicalizer) : Prop where
  valid : s.Valid
  acyclic : s.types.Acyclic
  coherent : Coherent ∅ s
  classSubsts : ∀ {c x}, s.memo.classSubsts.find? c = some x → s.ClassErasureEntry c x
  members : ∀ {m c}, s.memo.members.find? m = some c → s.LinkedEntry m c

/-- A canonicalizer that remembers nothing. -/
theorem fresh_consistent {ts : TypeSystem} (hts : ts.Valid) (hacyclic : ts.Acyclic) :
    (fresh ts).Consistent where
  valid := fresh_valid hts
  acyclic := hacyclic
  coherent := ⟨le_refl _, nofun⟩
  classSubsts := nofun
  members := nofun

section Growth

variable (hle : s ≤ t) (h : Continues s.types t.types)
include hle h

theorem ClassErasureEntry.of_le {c : ClassId} {x : Option SubstId} (hx : s.ClassErasureEntry c x) :
    t.ClassErasureEntry c x where
  mentions := hx.mentions.of_le hle.1
  isSome_eq := hx.isSome_eq.trans (h.isGeneric hx.mentions).symm
  binds sub hsub := by
    rw [h.typeParamsInScope hx.mentions]
    exact (hx.binds sub hsub).of_le hle

/-- Members that a class declares in addition are linked to by no earlier instance. -/
theorem LinkedEntry.of_le (hs : s.types.Valid) {m c : MemberId} (hm : s.types.HasMember m)
    (hlinked : s.LinkedEntry m c) : t.LinkedEntry m c := by
  intro base sub outer hk hdecl
  have hmember := TypeSystem.member_of_le hle.1 hm
  have hcontainer := (hs.keys hm.hasKey).container
  rw [hmember] at hk hdecl ⊢
  have hk' := hk.of_ge hle.1.1 hcontainer
  obtain ⟨new, hmembers, hnew⟩ := h.members (TypeSystem.mentions_inst hk')
  rw [hmembers] at hdecl
  rcases List.mem_append.mp hdecl with hold | hadded
  · refine (hlinked base sub outer hk' hold).imp (Memo.find?_of_le hle.2.2.1) ?_
    rintro ⟨e, own, he, hown, hne⟩
    exact ⟨e, own, hmember ▸ he.of_le hle, hown.of_le hle, hne⟩
  · exact absurd rfl (hnew _ hadded m hm)

end Growth

/-- Entries that are old or right keep a canonicalizer consistent. -/
theorem Consistent.extend (hs : s.Consistent) (hst : Store.Grows s t) (ht : t.Valid)
    (hclassSubsts : ∀ {c x}, t.memo.classSubsts.find? c = some x →
      s.memo.classSubsts.find? c = some x ∨ t.ClassErasureEntry c x)
    (hmembers : ∀ {m c}, t.memo.members.find? m = some c →
      s.memo.members.find? m = some c ∨ t.LinkedEntry m c) : t.Consistent := by
  have hcontinues := (Extends.types hst).continues hs.valid.types
  constructor
  case valid => exact ht
  case acyclic => exact acyclic_of_grows hs.valid hst hs.acyclic
  case coherent => exact Extends.coherent hst hs.coherent
  case classSubsts =>
    exact fun hfind => (hclassSubsts hfind).elim
      (fun hold => (hs.classSubsts hold).of_le hst.le hcontinues) id
  case members =>
    exact fun hfind => (hmembers hfind).elim (fun hold => (hs.members hold).of_le hst.le hcontinues
      hs.valid.types (hs.valid.members hold).has) id

/-- Declarations that spare what there is keep a canonicalizer consistent. -/
theorem Consistent.of_continues (hs : s.Consistent) {us : TypeSystem}
    (h : Continues s.types us) (hus : us.Valid) (hacyclic : us.Acyclic) :
    Consistent { s with types := us } := by
  have hle : s ≤ { s with types := us } := ⟨h.le, le_refl _, le_refl _, le_refl _, le_refl _⟩
  constructor
  case valid => exact hs.valid.extend hle hus Or.inl Or.inl Or.inl Or.inl Or.inl
  case acyclic => exact hacyclic
  case coherent =>
    refine ⟨hs.coherent.le, fun hfind => ?_⟩
    obtain ⟨shape, herases, hshape⟩ := hs.coherent.erases hfind
    exact ⟨shape, herases.of_preserves hs.valid.types h.toPreserves (hs.valid.canonical hfind).has,
      hshape.of_le h.le.1⟩
  case classSubsts => exact fun hfind => (hs.classSubsts hfind).of_le hle h
  case members =>
    exact fun hfind =>
      (hs.members hfind).of_le hle h hs.valid.types (hs.valid.members hfind).has

/-! ### Agreement -/

section Agreement

variable (hs : s.Consistent) (ht : t.Consistent) (h : Continues s.types t.types)
include hs ht h

/-- What is remembered of a type is the same in both. -/
theorem Consistent.find?_type_eq {ty r r' : TypeId} (hr : s.memo.types.find? ty = some r)
    (hr' : t.memo.types.find? ty = some r') : r = r' := by
  obtain ⟨shape, herases, hshape⟩ := hs.coherent.erases hr
  obtain ⟨shape', herases', hshape'⟩ := ht.coherent.erases hr'
  have hagain := herases.of_preserves hs.valid.types h.toPreserves (hs.valid.canonical hr).has
  obtain rfl := hagain.unique herases'
  exact (hshape.of_le h.le.1).inj hshape'

/-- Substitutions that erase the same variables bind the same. -/
theorem BindsCanonical.bindings_eq {vs : List TypeVarId} {sub sub' : SubstId} {bs bs' : Bindings}
    (hsub : s.BindsCanonical vs sub) (hsub' : t.BindsCanonical vs sub')
    (hbs : s.types.pool.HasBindings sub bs) (hbs' : t.types.pool.HasBindings sub' bs') :
    bs = bs' := by
  obtain ⟨cs, hcs, hvs⟩ := hsub
  obtain ⟨cs', hcs', hvs'⟩ := hsub'
  obtain rfl := hbs.unique hcs
  obtain rfl := hbs'.unique hcs'
  refine congrArg Bindings.ofList ?_
  clear hbs hbs' hcs hcs'
  induction hvs generalizing cs' with
  | nil =>
    cases hvs'
    rfl
  | cons hb _ ih =>
    cases hvs' with
    | cons hb' hvs' =>
      obtain ⟨hv, ty, hk, hfind⟩ := hb
      obtain ⟨hv', ty', hk', hfind'⟩ := hb'
      obtain rfl := (hk.of_le h.le.1).inj hk'
      have hr := hs.find?_type_eq ht h hfind hfind'
      exact congrArg₂ List.cons (Prod.ext (hv.trans hv'.symm) hr) (ih _ hvs')

theorem OwnErased.agree {m own own' : MemberId} (hm : s.types.HasMember m)
    (hown : s.OwnErased m own) (hown' : t.OwnErased m own') : own = own' := by
  have hgeneric := TypeSystem.genericForm_of_le h.le hm
  have hform := TypeSystem.hasMember_genericForm hs.valid.types hm
  have hmember := TypeSystem.member_of_le h.le hform
  have hparams := TypeSystem.ownTypeParams_of_le hs.valid.types h.le hm
  rcases hown with ⟨hnone, rfl⟩ | ⟨hne, sub, bs, kind, hfind, hbs, hkind, hkey⟩
  · rcases hown' with ⟨-, rfl⟩ | ⟨hne', -⟩
    · rfl
    · exact absurd (hparams.trans hnone) hne'
  · rcases hown' with ⟨hnone', -⟩ | ⟨-, sub', bs', kind', hfind', hbs', hkind', hkey'⟩
    · exact absurd (hparams.symm.trans hnone') hne
    · rw [hgeneric] at hfind' hkind' hkey'
      have hbinds' := (ht.valid.memberSubsts hfind').binds sub' rfl
      rw [hmember] at hkind' hkey' hbinds'
      have hbinds := (hs.valid.memberSubsts hfind).binds sub rfl
      obtain rfl := hbinds.bindings_eq hs ht h hbinds' hbs hbs'
      obtain rfl := (hkind.of_le h.le.1).unique hkind'
      exact (hkey.of_le h.le).inj hkey'

theorem ClassErased.agree {c : ClassId} {container : TypeId} {m erased erased' : MemberId}
    (hm : s.types.HasMember m) (herased : s.ClassErased c container m erased)
    (herased' : t.ClassErased c container m erased') : erased = erased' := by
  have hmember := TypeSystem.member_of_le h.le hm
  have hsome : ∀ {x x'}, s.memo.classSubsts.find? c = some x →
      t.memo.classSubsts.find? c = some x' → x.isSome = x'.isSome := fun hx hx' =>
    (hs.classSubsts hx).isSome_eq.trans ((h.isGeneric (hs.classSubsts hx).mentions).symm.trans
      (ht.classSubsts hx').isSome_eq.symm)
  rcases herased with ⟨hnone, rfl⟩ | ⟨sub, bs, kind, hfind, hbs, hkind, hkey⟩
  · rcases herased' with ⟨-, rfl⟩ | ⟨sub', bs', kind', hfind', -⟩
    · rfl
    · exact absurd (hsome hnone hfind') Bool.false_ne_true
  · rcases herased' with ⟨hnone', -⟩ | ⟨sub', bs', kind', hfind', hbs', hkind', hkey'⟩
    · exact absurd (hsome hfind hnone').symm Bool.false_ne_true
    · rw [hmember] at hkind' hkey'
      have hbinds := (hs.classSubsts hfind).binds sub rfl
      have hbinds' := (ht.classSubsts hfind').binds sub' rfl
      rw [h.typeParamsInScope (hs.classSubsts hfind).mentions] at hbinds'
      obtain rfl := hbinds.bindings_eq hs ht h hbinds' hbs hbs'
      obtain rfl := (hkind.of_le h.le.1).unique hkind'
      exact (hkey.of_le h.le).inj hkey'

theorem SignatureErased.agree {m e e' : MemberId} (hm : s.types.HasMember m)
    (he : s.SignatureErased m e) (he' : t.SignatureErased m e') : e = e' := by
  have hmember := TypeSystem.member_of_le h.le hm
  obtain ⟨kind, container, hkind, hcontainer, hkey⟩ := he
  obtain ⟨kind', container', hkind', hcontainer', hkey'⟩ := he'
  rw [hmember] at hkind' hcontainer' hkey'
  obtain rfl := hs.find?_type_eq ht h hcontainer hcontainer'
  have hunique : ∀ ty r r', (s.memo.types.find? ty = some r ∨ t.memo.types.find? ty = some r) →
      (s.memo.types.find? ty = some r' ∨ t.memo.types.find? ty = some r') → r = r' := by
    rintro ty r r' (hr | hr) (hr' | hr')
    · exact Option.some.inj (hr.symm.trans hr')
    · exact hs.find?_type_eq ht h hr hr'
    · exact (hs.find?_type_eq ht h hr' hr).symm
    · exact Option.some.inj (hr.symm.trans hr')
  obtain rfl := (hkind.imp fun _ _ => Or.inl).unique hunique (hkind'.imp fun _ _ => Or.inr)
  exact (hkey.of_le h.le).inj hkey'

/-- What is remembered of a declared member is the same in both. -/
theorem Consistent.find?_member_eq {m c c' : MemberId} {base : ClassId}
    (hraw : s.types.pool.HasKind (s.types.member m).container (.raw base))
    (hc : s.memo.members.find? m = some c) (hc' : t.memo.members.find? m = some c') : c = c' := by
  have hentry := hs.valid.members hc
  have hentry' := ht.valid.members hc'
  have hm := hentry.has
  have hmember := TypeSystem.member_of_le h.le hm
  by_cases hsettled : s.types.Settled m
  · exact (hentry.self hsettled).trans (hentry'.self (hsettled.of_le hs.valid.types h.le)).symm
  · have hsettled' : ¬ t.types.Settled m := fun hself =>
      hsettled (hself.of_ge hs.valid.types ht.valid.types h.le hm)
    obtain ⟨own, e, hown, hclass, hsignature⟩ := (hentry.erased hraw).resolve_left hsettled
    obtain ⟨own', e', hown', hclass', hsignature'⟩ :=
      (hentry'.erased (hmember ▸ hraw.of_le h.le.1)).resolve_left hsettled'
    obtain rfl := hown.agree hs ht h hm hown'
    have hm' := hown.hasMember hm
    rw [hmember] at hclass'
    obtain rfl := hclass.agree hs ht h hm' hclass'
    exact hsignature.agree hs ht h (hclass.hasMember hm') hsignature'

end Agreement

end Erasure.Canonicalizer
