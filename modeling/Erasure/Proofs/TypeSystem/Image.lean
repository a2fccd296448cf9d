/-
The keys of images.

The image of a member under a substitution has the key of the member with its types substituted
and its bound type parameters gone. The main statements:

* `substituteMember_computes`, `memberIn_computes`: the image, whether or not it is the member
  itself, has that key.
* `instantiateMethod_computes`: a generic method with its type arguments has no type parameters and
  names the method it was made from.
-/
import Erasure.TypeSystem.Image
import Erasure.Proofs.TypeSystem.Validity

namespace Erasure.TypeSystem

variable {ts us : TypeSystem}

/-! ### Generic forms -/

theorem hasMember_genericForm (hts : ts.Valid) {m : MemberId} (hm : ts.HasMember m) :
    ts.HasMember (ts.genericForm m) := by
  rw [genericForm]
  cases hg : (ts.member m).generic with
  | none => exact hm
  | some g => exact ((hts.keys hm.hasKey).generic g hg).1

theorem ownTypeParams_of_le (hts : ts.Valid) (hle : ts ≤ us) {m : MemberId}
    (hm : ts.HasMember m) : us.ownTypeParams m = ts.ownTypeParams m := by
  rw [ownTypeParams, ownTypeParams, genericForm_of_le hle hm,
    member_of_le hle (hasMember_genericForm hts hm)]

/-! ### Derived members -/

theorem deriveMember_computes (hts : ts.Valid) {origin : MemberId} {k : MemberKey}
    {kind : MemberKind} {container : TypeId} (horigin : ts.HasKey origin k)
    (hk : ts.AdmitsKey { k with kind, container }) :
    Computes (deriveMember origin kind container) ts
      fun m us => us.HasKey m { k with kind, container } := by
  have hkey := horigin.member_eq
  subst hkey
  refine Computes.get_bind (internMember_computes hts hk) fun us hle => ?_
  rw [member_of_le hle horigin.hasMember]

/-! ### Signatures under a substitution -/

/-- The second signature is the first one with the substitution `bs` applied to its types, without
the type parameters that `bs` binds. -/
def SubstitutesKind (p : Pool) (bs : Bindings) (k l : MemberKind) : Prop :=
  ∃ kind, k.Related (Pool.IsResult bs.lookup? · · p) kind ∧
    l = kind.filterTypeParams fun v => (bs.lookup? v).isNone

theorem SubstitutesKind.of_le {p q : Pool} (hle : p ≤ q) {bs : Bindings} {k l : MemberKind}
    (h : SubstitutesKind p bs k l) : SubstitutesKind q bs k l := by
  obtain ⟨kind, hkind, hl⟩ := h
  exact ⟨kind, hkind.imp fun _ _ hr => hr.of_le hle, hl⟩

theorem SubstitutesKind.has {p : Pool} {bs : Bindings} {k l : MemberKind}
    (h : SubstitutesKind p bs k l) : ∀ ty ∈ l.types, p.Has ty := by
  obtain ⟨kind, hkind, rfl⟩ := h
  intro ty hty
  rw [MemberKind.types_filterTypeParams] at hty
  obtain ⟨g, hg⟩ := p.exists_substitutes_eq bs.lookup?
  obtain ⟨htypes, hresults⟩ := eq_map_of_forall₂ (fun t u hr => hg t u hr.1) hkind.types
  rw [htypes] at hty
  obtain ⟨u, hu, rfl⟩ := List.mem_map.mp hty
  exact (hresults u hu).2

theorem SubstitutesKind.typeParams_eq {p : Pool} {bs : Bindings} {k l : MemberKind}
    (h : SubstitutesKind p bs k l) :
    l.typeParams = k.typeParams.filter fun v => (bs.lookup? v).isNone := by
  obtain ⟨kind, hkind, rfl⟩ := h
  rw [MemberKind.typeParams_filterTypeParams, hkind.typeParams_eq]

/-- A signature of erased types is its own image when none of its type parameters is bound. -/
theorem SubstitutesKind.refl {p : Pool} {bs : Bindings} {k : MemberKind}
    (htypes : ∀ ty ∈ k.types, p.Substitutes bs.lookup? ty ty ∧ p.Has ty)
    (hparams : ∀ v ∈ k.typeParams, bs.lookup? v = none) : SubstitutesKind p bs k k := by
  refine ⟨k, MemberKind.Related.refl htypes, (MemberKind.filterTypeParams_eq_self ?_).symm⟩
  intro v hv
  rw [hparams v hv]
  rfl

theorem SubstitutesKind.name?_eq {p : Pool} {bs : Bindings} {k l : MemberKind}
    (h : SubstitutesKind p bs k l) : l.name? = k.name? := by
  obtain ⟨kind, hkind, rfl⟩ := h
  rw [MemberKind.name?_filterTypeParams, hkind.name?_eq]

theorem SubstitutesKind.form_eq {p : Pool} {bs : Bindings} {k l : MemberKind}
    (h : SubstitutesKind p bs k l) : l.form = k.form := by
  obtain ⟨kind, hkind, rfl⟩ := h
  rw [MemberKind.form_filterTypeParams, hkind.form_eq]

theorem SubstitutesKind.formals {p : Pool} {bs : Bindings} {k l : MemberKind}
    (h : SubstitutesKind p bs k l) :
    List.Forall₂ (Pool.IsResult bs.lookup? · · p) k.formals l.formals := by
  obtain ⟨kind, hkind, rfl⟩ := h
  rw [MemberKind.formals_filterTypeParams]
  exact hkind.formals

theorem SubstitutesKind.unique {p : Pool} {bs : Bindings} {k l l' : MemberKind}
    (h : SubstitutesKind p bs k l) (h' : SubstitutesKind p bs k l') : l = l' := by
  obtain ⟨kind, hkind, rfl⟩ := h
  obtain ⟨kind', hkind', rfl⟩ := h'
  rw [hkind.unique (fun _ _ _ hr hr' => hr.1.unique hr'.1) hkind']

theorem substituteKind_computes (hts : ts.Valid) {s : SubstId} {bs : Bindings} {k : MemberKind}
    (hs : ts.pool.HasBindings s bs) (hk : ∀ ty ∈ k.types, ts.pool.Has ty) :
    Computes (substituteKind s k) ts fun l us => SubstitutesKind us.pool bs k l := by
  unfold substituteKind
  by_cases hempty : s = SubstId.empty
  · rw [if_pos hempty]
    subst hempty
    obtain rfl := hs.unique hts.pool.empty
    refine Computes.pure hts (.refl (fun ty hty => ⟨?_, hk ty hty⟩) fun _ _ => rfl)
    exact .refl hts.pool (fun _ => rfl) (hk ty hty)
  · rw [if_neg hempty]
    have hsubst : ∀ ty ∈ k.types, ∀ us, Store.Grows ts us → us.Valid →
        Computes (liftM (Pool.substitute s ty) : StateM TypeSystem TypeId) us
          fun r vs => Pool.IsResult bs.lookup? ty r vs.pool := by
      intro ty hty us hus hvalid
      have hle : ts.pool ≤ us.pool := hus.le.1
      exact lift_computes hvalid
        (Pool.substitute_computes hvalid.pool (hs.of_le hle) ((hk ty hty).of_le hle))
    refine (Computes.mapTypesM (fun _ _ _ _ hle hr => hr.of_le hle.le.1) hts hsubst).bind ?_
    intro kind us hus hvalid hkind
    have hs' := hs.of_le hus.le.1
    refine Computes.get_bind (Computes.pure hvalid ⟨kind, hkind, ?_⟩) fun vs hle => ?_
    · simp only [Pool.replacement?, hs'.bindings_eq]
    · simp only [Pool.replacement?_of_le hle.1 hs']

/-! ### Images -/

/-- The image of a member has the key of the member with its types substituted and seen in the
given container. -/
theorem substituteMember_computes (hts : ts.Valid) {m : MemberId} {k : MemberKey} {s : SubstId}
    {bs : Bindings} {container : TypeId} (hm : ts.HasKey m k) (hs : ts.pool.HasBindings s bs)
    (hcontainer : ts.pool.Has container) :
    Computes (substituteMember m s container) ts fun n us =>
      ∃ kind, SubstitutesKind us.pool bs k.kind kind ∧ us.HasKey n { k with kind, container } := by
  have hkey := hm.member_eq
  subst hkey
  have hadmits := hts.keys hm
  unfold substituteMember
  refine Computes.get_bind ?_ fun us hle => by rw [member_of_le hle hm.hasMember]
  refine (substituteKind_computes hts hs hadmits.types).bind fun kind us hus hvalid hkind => ?_
  have hm' := hm.of_le hus.le
  have hmember := member_of_le hus.le hm.hasMember
  refine Computes.get_bind ?_ fun vs hle => by rw [member_of_le hle hm'.hasMember]
  dsimp only
  split
  case isTrue hsame =>
    obtain ⟨h1, h2⟩ := Bool.and_eq_true_iff.mp hsame
    refine Computes.pure hvalid ⟨kind, hkind, ?_⟩
    rw [of_decide_eq_true h1, of_decide_eq_true h2, hmember]
    exact hm'
  case isFalse =>
    have hadmits' : us.AdmitsKey { (ts.member m).toMemberKey with kind, container } := by
      refine ⟨fun n hn => ?_, hkind.has, hcontainer.of_le hus.le.1, fun g hg => ?_⟩
      · exact (hadmits.name n (hkind.name?_eq ▸ hn)).of_le hus.le
      · obtain ⟨hg', hparams⟩ := hadmits.generic g hg
        refine ⟨hg'.of_le hus.le, ?_⟩
        rw [hkind.typeParams_eq, hparams, List.filter_nil]
    refine (deriveMember_computes hvalid hm' hadmits').mono fun n vs hvs _ hn => ?_
    exact ⟨kind, hkind.of_le hvs.le.1, hn⟩

theorem fullSubst_computes (hts : ts.Valid) {ty : TypeId} (hty : ts.pool.Has ty) :
    Computes (liftM (Pool.fullSubst ty) : StateM TypeSystem SubstId) ts fun s us =>
      us.pool.HasBindings s (ts.pool.instanceBindings ty) :=
  lift_computes hts (Pool.fullSubst_computes hts.pool hty)

/-- A member as an instantiation sees it has the key of the member under the substitution of the
instantiation. -/
theorem memberIn_computes (hts : ts.Valid) {m : MemberId} {k : MemberKey} {container : TypeId}
    {base : ClassId} {s : SubstId} {outer : Option TypeId} (hm : ts.HasKey m k)
    (hcontainer : ts.pool.HasKind container (.inst base s outer)) :
    Computes (memberIn m container) ts fun n us => ∃ kind,
      SubstitutesKind us.pool (ts.pool.instanceBindings container) k.kind kind ∧
        us.HasKey n { k with kind, container } := by
  unfold memberIn
  have hkind : ∀ us : TypeSystem, ts ≤ us → us.kind container = .inst base s outer :=
    fun us hle => (hcontainer.of_le hle.1).kind_eq
  refine Computes.get_bind ?_ fun us hle => by rw [hkind us hle, hkind ts (le_refl ts)]
  rw [hkind ts (le_refl ts)]
  refine (fullSubst_computes hts hcontainer.has).bind fun t us hus hvalid ht => ?_
  exact substituteMember_computes hvalid (hm.of_le hus.le) ht (hcontainer.has.of_le hus.le.1)

/-- An instantiation binds no type parameter of a method or constructor. -/
theorem lookup?_instanceBindings_of_isMemberVar (hts : ts.Valid) {ty : TypeId}
    (hty : ts.pool.Has ty) {v : TypeVarId} (hv : ts.IsMemberVar v) :
    (ts.pool.instanceBindings ty).lookup? v = none := by
  cases hlookup : (ts.pool.instanceBindings ty).lookup? v with
  | none => rfl
  | some u =>
    have hb := Pool.isInstanceBinding_of_mem_instanceBindings hts.pool hty
      (Bindings.mem_of_lookup? hlookup)
    exact absurd (hts.isBound ⟨u, hb⟩) hv.not_isClassVar

/-- An image in an instantiation keeps the type parameters of the member. -/
theorem SubstitutesKind.typeParams_of_instance (hts : ts.Valid) {p : Pool} {ty : TypeId}
    (hty : ts.pool.Has ty) {k l : MemberKind} (hk : ∀ v ∈ k.typeParams, ts.IsMemberVar v)
    (h : SubstitutesKind p (ts.pool.instanceBindings ty) k l) : l.typeParams = k.typeParams := by
  rw [h.typeParams_eq, List.filter_eq_self]
  intro v hv
  rw [lookup?_instanceBindings_of_isMemberVar hts hty (hk v hv)]
  rfl

/-- A generic method with its type arguments has no type parameters, and its key names the method
that it was made from. -/
theorem instantiateMethod_computes (hts : ts.Valid) {generic : MemberId} {k : MemberKey}
    {typeArgs : List TypeId} (hgeneric : ts.HasKey generic k)
    (hargs : ∀ ty ∈ typeArgs, ts.pool.Has ty) :
    Computes (instantiateMethod generic typeArgs) ts fun n us => ∃ kind,
      SubstitutesKind us.pool (Bindings.ofList (k.kind.typeParams.zip typeArgs)) k.kind kind ∧
        us.HasKey n { k with kind := kind.withoutTypeParams, generic := some generic } := by
  have hkey := hgeneric.member_eq
  subst hkey
  have hadmits := hts.keys hgeneric
  unfold instantiateMethod
  refine Computes.get_bind ?_ fun us hle => by rw [member_of_le hle hgeneric.hasMember]
  have hbs : ∀ b ∈ (ts.member generic).kind.typeParams.zip typeArgs, ts.pool.Has b.2 :=
    fun b hb => hargs b.2 (List.of_mem_zip hb).2
  refine (lift_computes hts (Pool.internSubst_computes hts.pool hbs)).bind ?_
  intro s us hus hvalid hs
  have htypes : ∀ ty ∈ (ts.member generic).kind.types, us.pool.Has ty := fun ty hty =>
    (hadmits.types ty hty).of_le hus.le.1
  refine (substituteKind_computes hvalid hs htypes).bind fun kind vs hvs hvalid' hkind => ?_
  have hadmits' : vs.AdmitsKey
      { (ts.member generic).toMemberKey with
        kind := kind.withoutTypeParams, generic := some generic } := by
    refine ⟨fun n hn => ?_, fun ty hty => ?_, ?_, fun g hg => ?_⟩
    · rw [MemberKind.name?_withoutTypeParams, hkind.name?_eq] at hn
      exact (hadmits.name n hn).of_le (hus.trans hvs).le
    · rw [MemberKind.types_withoutTypeParams] at hty
      exact hkind.has ty hty
    · exact hadmits.container.of_le (hus.trans hvs).le.1
    · obtain rfl := Option.some.inj hg
      exact ⟨hgeneric.hasMember.of_le (hus.trans hvs).le, MemberKind.typeParams_withoutTypeParams _⟩
  exact (internMember_computes hvalid' hadmits').mono fun n ws hws _ hn =>
    ⟨kind, hkind.of_le hws.le.1, hn⟩

end Erasure.TypeSystem
