/-
Canonicalizing members.

The own type parameters of an instance are erased, and then the types of its signature are made
canonical. The main statements:

* `eraseOwnTypeParams_computes`: the generic form with its type parameters erased, in its own
  container, or the instance itself.
* `eraseSignature_computes`, `canonicalizeRaw_computes`: the signature made canonical, in a raw class
  after the type parameters of the class are erased.
* `RawErased.settled`, `RawErased.eq_of_settled`: the outcome is settled, and a settled member is left
  as it is.
-/
import Erasure.Proofs.Canonical.ErasingSubst

namespace Erasure.Canonicalizer

variable {s t : Canonicalizer}

/-! ### Own type parameters -/

/-- No generic method that the instance was made from has type parameters. -/
def NoGenericParams (ts : TypeSystem) (m : MemberId) : Prop :=
  ∀ g ∈ (ts.member m).generic, (ts.member g).kind.typeParams = []

theorem OwnErased.unique {m a b : MemberId} (ha : t.OwnErased m a) (hb : t.OwnErased m b) :
    a = b := by
  rcases ha with ⟨hnone, rfl⟩ | ⟨hne, sub, bs, kind, hfind, hbs, hkind, hkey⟩
  · rcases hb with ⟨-, rfl⟩ | ⟨hne, -⟩
    · rfl
    · exact absurd hnone hne
  · rcases hb with ⟨hnone, -⟩ | ⟨-, sub', bs', kind', hfind', hbs', hkind', hkey'⟩
    · exact absurd hnone hne
    · obtain rfl := Option.some.inj (Option.some.inj (hfind.symm.trans hfind'))
      obtain rfl := hbs.unique hbs'
      obtain rfl := hkind.unique hkind'
      exact hkey.inj hkey'

theorem OwnErased.noGenericParams (ht : t.Valid) {m erased : MemberId}
    (hm : t.types.HasMember m) (h : t.OwnErased m erased) : NoGenericParams t.types erased := by
  intro g hg
  rcases h with ⟨hnone, rfl⟩ | ⟨hne, sub, bs, kind, -, -, -, hkey⟩
  · have hform : t.types.genericForm erased = g := by
      rw [TypeSystem.genericForm, hg, Option.getD_some]
    rwa [TypeSystem.ownTypeParams, hform] at hnone
  · -- a generic form that was made from a generic method would have no type parameters
    have hkeys := ht.types.keys (TypeSystem.hasMember_genericForm ht.types hm).hasKey
    rw [hkey.generic_eq] at hg
    exact absurd (hkeys.generic g hg).2 hne

/-- Erasing its own type parameters leaves a member where its generic form is seen. -/
theorem OwnErased.container_eq {m e : MemberId} (h : t.OwnErased m e)
    (hgeneric : t.types.ownTypeParams m ≠ [] →
      (t.types.member (t.types.genericForm m)).container = (t.types.member m).container) :
    (t.types.member e).container = (t.types.member m).container := by
  rcases h with ⟨-, rfl⟩ | ⟨hne, _, _, _, -, -, -, hkey⟩
  · rfl
  · exact hkey.container_eq.trans (hgeneric hne)

/-- A settled instance has no type parameters to erase. -/
theorem ownTypeParams_of_settled {ts : TypeSystem} {m : MemberId} (hm : ts.Settled m) :
    ts.ownTypeParams m = [] := by
  rw [TypeSystem.ownTypeParams, TypeSystem.genericForm]
  cases hg : (ts.member m).generic with
  | none => exact hm.typeParams
  | some g => exact hm.generic g hg

theorem OwnErased.eq_of_settled {m erased : MemberId} (h : t.OwnErased m erased)
    (hm : t.types.Settled m) : erased = m := by
  rcases h with ⟨-, rfl⟩ | ⟨hne, -⟩
  · rfl
  · exact absurd (ownTypeParams_of_settled hm) hne

theorem eraseOwnTypeParams_computes (hs : s.Valid) (hacyclic : s.types.Acyclic) {m : MemberId}
    (hm : s.types.HasMember m) :
    Computes (eraseOwnTypeParams m) s fun erased t => t.OwnErased m erased := by
  have hg := TypeSystem.hasMember_genericForm hs.types hm
  unfold eraseOwnTypeParams
  refine Computes.get_bind ?_ fun t hle => by
    rw [TypeSystem.genericForm_of_le hle.1 hm]
  refine (memberErasure_computes hs hacyclic hg).bind fun x t hst ht hx => ?_
  have hentry := ht.memberSubsts hx
  have hown : t.types.ownTypeParams m =
      (t.types.member (s.types.genericForm m)).kind.typeParams := by
    rw [TypeSystem.ownTypeParams, TypeSystem.genericForm_of_le hst.le.1 hm]
  cases x with
  | none =>
    exact Computes.pure ht (Or.inl ⟨hown.trans (hentry.isNone_iff.mp rfl), rfl⟩)
  | some sub =>
    obtain ⟨bs, hbs⟩ := (hentry.binds sub rfl).exists_bindings
    have hne : t.types.ownTypeParams m ≠ [] := by
      intro h
      cases hentry.isNone_iff.mpr (hown.symm.trans h)
    have hkey := hentry.has.hasKey
    refine Computes.get_bind ?_ fun u hle => by
      rw [TypeSystem.member_of_le hle.1 hentry.has]
    refine (lift_computes ht (TypeSystem.substituteMember_computes ht.types hkey hbs
      (ht.types.keys hkey).container)).mono fun erased u htu hu h => ?_
    obtain ⟨kind, hkind, herased⟩ := h
    have hm' := hm.of_le hst.le.1
    refine Or.inr ⟨?_, sub, bs, kind, ?_, hbs.of_le htu.le.1.1, ?_⟩
    · rwa [TypeSystem.ownTypeParams_of_le ht.types htu.le.1 hm']
    · rw [TypeSystem.genericForm_of_le (hst.trans htu).le.1 hm]
      exact Memo.find?_of_le htu.le.2.2.2.2 hx
    · rw [TypeSystem.genericForm_of_le (hst.trans htu).le.1 hm,
        TypeSystem.member_of_le htu.le.1 hentry.has]
      exact ⟨hkind, herased⟩

theorem OwnErased.of_answers (hs : s.Valid) (hacyclic : s.types.Acyclic) {m e : MemberId}
    (hm : s.types.HasMember m) (h : Answers (eraseOwnTypeParams m) e s) : s.OwnErased m e := by
  have hpost := (eraseOwnTypeParams_computes hs hacyclic hm).post
  rwa [h.eq] at hpost

/-! ### Erased signatures -/

theorem settled_of_hasKey {ts : TypeSystem} {m : MemberId} {k : MemberKey} (hkey : ts.HasKey m k)
    (htypes : ∀ ty ∈ k.kind.types, ts.pool.IsNormal ty) (hparams : k.kind.typeParams = [])
    (hcontainer : ts.pool.IsNormal k.container)
    (hgeneric : ∀ g ∈ k.generic, (ts.member g).kind.typeParams = []) : ts.Settled m := by
  obtain rfl := hkey.member_eq
  exact ⟨hkey.hasMember, htypes, hparams, hcontainer, hgeneric⟩

/-- The canonical types of a signature are erased. -/
theorem isNormal_of_related (ht : t.Valid) {k l : MemberKind}
    (h : k.Related (fun ty r => t.memo.types.find? ty = some r) l) :
    ∀ ty ∈ l.types, t.types.pool.IsNormal ty := by
  intro ty hty
  obtain ⟨u, -, hfind⟩ := exists_of_forall₂_right h.types hty
  exact (ht.canonical hfind).normal

/-- A signature of erased types is its own canonical form. -/
theorem eq_of_related (ht : t.Valid) {k l : MemberKind}
    (h : k.Related (fun ty r => t.memo.types.find? ty = some r) l)
    (hk : ∀ ty ∈ k.types, t.types.pool.IsNormal ty) : l = k := by
  refine h.eq_of_types_eq ?_
  have hself : ∀ ty ∈ k.types, ∀ r, t.memo.types.find? ty = some r → ty = r := fun ty hty r hfind =>
    ((ht.canonical hfind).self (hk ty hty)).symm
  have htypes := h.types
  generalize k.types = tys, l.types = rs at hself htypes
  induction htypes with
  | nil => rfl
  | cons hfind _ ih =>
    rw [← hself _ List.mem_cons_self _ hfind,
      ih fun ty hty => hself ty (List.mem_cons_of_mem _ hty)]

/-- A member with an erased signature is settled. -/
theorem SignatureErased.settled (ht : t.Valid) {m e : MemberId}
    (hgeneric : NoGenericParams t.types m) (h : t.SignatureErased m e) : t.types.Settled e := by
  obtain ⟨kind, container, hkind, hcontainer, hkey⟩ := h
  refine settled_of_hasKey hkey ?_ (MemberKind.typeParams_withoutTypeParams _)
    (ht.canonical hcontainer).normal hgeneric
  rw [MemberKind.types_withoutTypeParams]
  exact isNormal_of_related ht hkind

/-- A settled member has the canonical signature and container already. -/
theorem SignatureErased.eq_of_settled (ht : t.Valid) {m e : MemberId} (hm : t.types.Settled m)
    (h : t.SignatureErased m e) : e = m := by
  obtain ⟨kind, container, hkind, hcontainer, hkey⟩ := h
  obtain rfl := eq_of_related ht hkind hm.types
  obtain rfl := (ht.canonical hcontainer).self hm.container
  rw [MemberKind.withoutTypeParams, MemberKind.filterTypeParams_eq_self] at hkey
  · exact hkey.inj hm.hasMember.hasKey
  · rw [hm.typeParams]
    exact fun v hv => absurd hv List.not_mem_nil

/-- The key of a member with other types and without type parameters is admitted. -/
theorem admitsKey_withoutTypeParams {ts us : TypeSystem} (hle : ts ≤ us) {key : MemberKey}
    (hadmits : ts.AdmitsKey key) {R : TypeId → TypeId → Prop} {kind : MemberKind}
    (hkind : key.kind.Related R kind) (htypes : ∀ ty ∈ kind.types, us.pool.Has ty)
    {container : TypeId} (hcontainer : us.pool.Has container) :
    us.AdmitsKey { key with kind := kind.withoutTypeParams, container } := by
  refine ⟨fun n hn => ?_, fun ty hty => ?_, hcontainer, fun g hg => ?_⟩
  · rw [MemberKind.name?_withoutTypeParams, hkind.name?_eq] at hn
    exact (hadmits.name n hn).of_le hle
  · exact htypes ty (MemberKind.types_withoutTypeParams kind ▸ hty)
  · exact ⟨((hadmits.generic g hg).1).of_le hle, MemberKind.typeParams_withoutTypeParams _⟩

/-- Making the signature and the container of a member canonical. -/
theorem eraseSignature_computes (hs : s.Valid) (hacyclic : s.types.Acyclic) {m : MemberId}
    (hm : s.types.HasMember m) :
    Computes (eraseSignature m) s fun e t => t.SignatureErased m e := by
  have hadmits := hs.types.keys hm.hasKey
  unfold eraseSignature
  refine Computes.get_bind ?_ fun t hle => by rw [TypeSystem.member_of_le hle.1 hm]
  have hstep : ∀ ty ∈ (s.types.member m).kind.types, ∀ t, Store.Grows s t → t.Valid →
      Computes (canonicalize ty) t fun r u => u.memo.types.find? ty = some r := fun ty hty t hst ht =>
    canonicalize_computes ht (acyclic_of_grows hs hst hacyclic)
      ((hadmits.types ty hty).of_le hst.le.1.1)
  have hmono : ∀ ty r (t u : Canonicalizer), Store.Grows t u → t.memo.types.find? ty = some r →
      u.memo.types.find? ty = some r := fun _ _ t u htu => Memo.find?_of_le htu.le.2.1
  refine (Computes.mapTypesM hmono hs hstep).bind ?_
  intro kind t hst ht hkind
  refine (canonicalize_computes ht (acyclic_of_grows hs hst hacyclic)
    (hadmits.container.of_le hst.le.1.1)).bind fun container u htu hu hcontainer => ?_
  have hkind' := hkind.imp fun _ _ => Memo.find?_of_le htu.le.2.1
  have hsu := hst.trans htu
  have hmember := TypeSystem.member_of_le hsu.le.1 hm
  have hkey : u.types.HasKey m (s.types.member m).toMemberKey := hm.hasKey.of_le hsu.le.1
  split
  case isTrue hsame =>
    obtain ⟨h1, h2⟩ := Bool.and_eq_true_iff.mp hsame
    refine Computes.pure hu ⟨kind, container, ?_⟩
    rw [hmember, of_decide_eq_true h1, of_decide_eq_true h2]
    exact ⟨hkind', of_decide_eq_true h2 ▸ hcontainer, hkey⟩
  case isFalse =>
    have hadmits' := admitsKey_withoutTypeParams hsu.le.1 hadmits hkind
      (fun ty hty => (isNormal_of_related hu hkind' ty hty).has) (hu.canonical hcontainer).normal.has
    refine (lift_computes hu (TypeSystem.deriveMember_computes hu.types hkey hadmits')).mono ?_
    intro e v huv _ he
    refine ⟨kind, container, ?_⟩
    rw [TypeSystem.member_of_le (hsu.trans huv).le.1 hm]
    exact ⟨hkind'.imp fun _ _ => Memo.find?_of_le huv.le.2.1,
      Memo.find?_of_le huv.le.2.1 hcontainer, he⟩

/-- A settled member seen in its own container under a substitution is itself. -/
theorem eq_of_substitutesKind {ts : TypeSystem} {m n : MemberId} {bs : Bindings}
    {kind : MemberKind} (hm : ts.Settled m)
    (hkind : TypeSystem.SubstitutesKind ts.pool bs (ts.member m).kind kind)
    (hn : ts.HasKey n { (ts.member m).toMemberKey with kind }) : n = m := by
  have hself : TypeSystem.SubstitutesKind ts.pool bs (ts.member m).kind (ts.member m).kind := by
    refine .refl (fun ty hty => ⟨(hm.types ty hty).substitutes, (hm.types ty hty).has⟩) ?_
    rw [hm.typeParams]
    exact fun v hv => absurd hv List.not_mem_nil
  obtain rfl := hkind.unique hself
  exact hn.inj hm.hasMember.hasKey

/-- A settled member has no type parameters of its class left. -/
theorem ClassErased.eq_of_settled {c : ClassId} {m e : MemberId} (hm : t.types.Settled m)
    (h : t.ClassErased c (t.types.member m).container m e) : e = m := by
  rcases h with ⟨-, rfl⟩ | ⟨sub, bs, kind, -, -, hkind, hkey⟩
  · rfl
  · exact eq_of_substitutesKind hm hkind hkey

theorem ClassErased.noGenericParams {c : ClassId} {container : TypeId} {m e : MemberId}
    (hm : NoGenericParams t.types m) (h : t.ClassErased c container m e) :
    NoGenericParams t.types e := by
  rcases h with ⟨-, rfl⟩ | ⟨sub, bs, kind, -, -, -, hkey⟩
  · exact hm
  · rwa [NoGenericParams, hkey.generic_eq]

theorem ClassErased.container_eq {c : ClassId} {container : TypeId} {m e : MemberId}
    (hm : (t.types.member m).container = container) (h : t.ClassErased c container m e) :
    (t.types.member e).container = container := by
  rcases h with ⟨-, rfl⟩ | ⟨_, _, _, -, -, -, hkey⟩
  · exact hm
  · exact hkey.container_eq

/-- What is done to an instance seen in no instantiation: in a raw class the type parameters of the
class are erased first. -/
def RawErased (t : Canonicalizer) (container : TypeId) (m canonical : MemberId) : Prop :=
  (∃ c erased, t.types.pool.HasKind container (.raw c) ∧ t.ClassErased c container m erased ∧
    t.SignatureErased erased canonical) ∨
  ((∀ c, ¬ t.types.pool.HasKind container (.raw c)) ∧ t.SignatureErased m canonical)

theorem RawErased.settled (ht : t.Valid) {container : TypeId} {m e : MemberId}
    (hgeneric : NoGenericParams t.types m) (h : t.RawErased container m e) : t.types.Settled e := by
  rcases h with ⟨c, erased, -, hclass, hsignature⟩ | ⟨-, hsignature⟩
  · exact hsignature.settled ht (hclass.noGenericParams hgeneric)
  · exact hsignature.settled ht hgeneric

theorem RawErased.eq_of_settled (ht : t.Valid) {m e : MemberId} (hm : t.types.Settled m)
    (h : t.RawErased (t.types.member m).container m e) : e = m := by
  rcases h with ⟨c, erased, -, hclass, hsignature⟩ | ⟨-, hsignature⟩
  · obtain rfl := hclass.eq_of_settled hm
    exact hsignature.eq_of_settled ht hm
  · exact hsignature.eq_of_settled ht hm

theorem canonicalizeRaw_computes (hs : s.Valid) (hacyclic : s.types.Acyclic) {m : MemberId}
    {container : TypeId} (hm : s.types.HasMember m) (hcontainer : s.types.pool.Has container) :
    Computes (canonicalizeRaw m container) s fun e t => t.RawErased container m e := by
  unfold canonicalizeRaw
  refine Computes.get_bind ?_ fun t hle => by rw [TypeSystem.kind_of_le hle.1 hcontainer]
  cases hk : s.types.kind container with
  | prim _ | null | array _ | var _ | inst _ _ _ | lub _ =>
    refine (eraseSignature_computes hs hacyclic hm).mono fun e t hst _ h => Or.inr ⟨fun c hc => ?_, h⟩
    exact nomatch ((hcontainer.hasKind_of_eq hk).of_le hst.le.1.1).unique hc
  | raw c =>
    have hkind := hcontainer.hasKind_of_eq hk
    refine (classErasure_computes hs hacyclic c).bind fun x t hst ht hx => ?_
    have hm' := hm.of_le hst.le.1
    have hacyclic' := acyclic_of_grows hs hst hacyclic
    cases x with
    | none =>
      refine (eraseSignature_computes ht hacyclic' hm').mono fun e u htu _ h => Or.inl ⟨c, m, ?_⟩
      exact ⟨hkind.of_le (hst.trans htu).le.1.1,
        Or.inl ⟨Memo.find?_of_le htu.le.2.2.2.1 hx, rfl⟩, h⟩
    | some sub =>
      obtain ⟨vs, hbinds⟩ := ht.classSubsts hx sub rfl
      obtain ⟨bs, hbs⟩ := hbinds.exists_bindings
      refine (lift_computes ht (TypeSystem.substituteMember_computes ht.types hm'.hasKey hbs
        (hcontainer.of_le hst.le.1.1))).bind fun n u htu hu hn => ?_
      obtain ⟨kind, hsubst, hn⟩ := hn
      refine (eraseSignature_computes hu (acyclic_of_grows hs (hst.trans htu) hacyclic)
        hn.hasMember).mono fun e v huv _ h => Or.inl ⟨c, n, ?_, Or.inr ⟨sub, bs, kind, ?_⟩, h⟩
      · exact hkind.of_le ((hst.trans htu).trans huv).le.1.1
      · have htv := htu.trans huv
        rw [TypeSystem.member_of_le htv.le.1 hm']
        exact ⟨Memo.find?_of_le htv.le.2.2.2.1 hx, hbs.of_le htv.le.1.1, hsubst.of_le huv.le.1.1,
          hn.of_le huv.le.1⟩

end Erasure.Canonicalizer
