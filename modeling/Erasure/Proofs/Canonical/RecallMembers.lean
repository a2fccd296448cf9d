/-
Members that would be made canonical again.

Erasing type parameters and signatures does not depend on what is remembered either, as long as
members are seen in classes and arrays as they stand. The main statements:

* `eraseOwnTypeParams_replays`, `eraseSignature_replays`, `canonicalizeRaw_replays`: the steps that
  erase a signature.
* `MemberAtRest.recalled`: a canonical member is found again, with nothing to be made.
* `canonicalizeDeclared_replays`: so is the canonical form of a member that is seen in place.
-/
import Erasure.Proofs.Canonical.NormalForm
import Erasure.Proofs.Canonical.Recall

namespace Erasure.Canonicalizer

open TypeSystem (Regular Follows)

variable {s t : Canonicalizer} {ts us vs : TypeSystem}

/-! ### Erasing type parameters -/

/-- The substitution that erases type variables does not depend on what is remembered. -/
theorem erasingSubst_replays (hts : ts.Regular) (vars : List TypeVarId) :
    Replays (erasingSubst vars) ts fun sub us => ∃ bs, us.pool.HasBindings sub bs := by
  unfold erasingSubst
  refine ReplaysIf.bind (ReplaysIf.mapM (R := fun _ (b : TypeVarId × TypeId) us => us.pool.Has b.2)
    (fun _ _ _ _ hvs h => h.of_le hvs.le.1) hts fun v _ us _ hus => ?_) fun bs us _ hus hbs => ?_
  · have hvar := TypeSystem.lift_computes hus.valid (Pool.typeVar_computes hus.valid.pool v)
    refine ReplaysIf.bind (ReplaysIf.lift hus hvar) fun ty vs _ hvs hty => ?_
    exact ReplaysIf.bind (canonicalize_replays hvs hty.has) fun r ws _ hws hr =>
      .pure hws hr.1.normal.has
  · have hhas : ∀ b ∈ bs, us.pool.Has b.2 := fun b hb =>
      (exists_of_forall₂_right hbs hb).elim fun _ h => h.2
    exact (ReplaysIf.lift hus (TypeSystem.lift_computes hus.valid
      (Pool.internSubst_computes hus.valid.pool hhas))).mono fun _ _ _ _ h => ⟨_, h⟩

/-- A substitution that may be there binds something. -/
def HasSubst (x : Option SubstId) (ts : TypeSystem) : Prop :=
  ∀ sub ∈ x, ∃ bs, ts.pool.HasBindings sub bs

theorem HasSubst.of_le {x : Option SubstId} (hle : ts ≤ us) (h : HasSubst x ts) : HasSubst x us :=
  fun sub hsub => (h sub hsub).imp fun _ hbs => hbs.of_le hle.1

theorem RecallsMemo.rememberClassSubst {memo : CanonicalMemo} {c : ClassId} {x : Option SubstId}
    (h : RecallsMemo memo ts) (hx : Recalled (classErasure c) x ts) :
    RecallsMemo { memo with classSubsts := memo.classSubsts.insert c x } ts := by
  refine ⟨h.types, h.members, h.outers, fun hfind => ?_, h.memberSubsts⟩
  rcases Memo.find?_insert_cases hfind with ⟨rfl, rfl⟩ | hfind
  · exact hx
  · exact h.classSubsts hfind

theorem RecallsMemo.rememberMemberSubst {memo : CanonicalMemo} {m : MemberId} {x : Option SubstId}
    (h : RecallsMemo memo ts) (hx : Recalled (memberErasure m) x ts) :
    RecallsMemo { memo with memberSubsts := memo.memberSubsts.insert m x } ts := by
  refine ⟨h.types, h.members, h.outers, h.classSubsts, fun hfind => ?_⟩
  rcases Memo.find?_insert_cases hfind with ⟨rfl, rfl⟩ | hfind
  · exact hx
  · exact h.memberSubsts hfind

/-- Erasing the type parameters of a class that is mentioned. -/
theorem classErasure_replays (hts : ts.Regular) {c : ClassId} (hc : ts.Mentions c) :
    Replays (classErasure c) ts fun x us => HasSubst x us ∧ Recalled (classErasure c) x us := by
  suffices hreplays : Replays (classErasure c) ts HasSubst from
    hreplays.with_recalled.mono fun _ _ _ _ h => ⟨h.1, h.2 trivial⟩
  refine ReplaysIf.memoized
    (if ts.isGeneric c then some <$> erasingSubst (ts.typeParamsInScope c) else pure none)
    (fun memo => memo.classSubsts.find? c)
    (fun x memo => { memo with classSubsts := memo.classSubsts.insert c x }) hts ?_ rfl ?_ ?_ ?_ ?_ ?_
  · intro s _ hfollows
    unfold classErasure
    rw [get_bind_apply, hfollows.continues.isGeneric hc, hfollows.continues.typeParamsInScope hc]
    cases s.memo.classSubsts.find? c with
    | some x => rfl
    | none => cases ts.isGeneric c <;> rfl
  · exact fun hs _ hfind => hs.memo.classSubsts hfind
  · exact fun s hs _ => (classErasure_computes hs.valid hs.regular.acyclic c).valid
  · exact fun x us memo _ hmemo hx => hmemo.rememberClassSubst (hx trivial)
  · exact fun x us vs hvs hx => hx.of_le hvs.le
  · split
    · refine (erasingSubst_replays hts _).map fun sub us hsub => ?_
      rintro _ ⟨⟩
      exact hsub
    · exact .pure hts nofun

/-- Erasing the type parameters of a method or constructor. -/
theorem memberErasure_replays (hts : ts.Regular) {m : MemberId} (hm : ts.HasMember m) :
    Replays (memberErasure m) ts fun x us => HasSubst x us := by
  refine ReplaysIf.memoized (if (ts.member m).kind.typeParams.isEmpty then pure none
      else some <$> erasingSubst (ts.member m).kind.typeParams)
    (fun memo => memo.memberSubsts.find? m)
    (fun x memo => { memo with memberSubsts := memo.memberSubsts.insert m x }) hts ?_ rfl ?_ ?_ ?_ ?_
    ?_
  · intro s _ hfollows
    unfold memberErasure
    rw [get_bind_apply, TypeSystem.member_of_le hfollows.le hm]
    cases s.memo.memberSubsts.find? m with
    | some x => rfl
    | none => cases (ts.member m).kind.typeParams <;> rfl
  · exact fun hs _ hfind => hs.memo.memberSubsts hfind
  · exact fun s hs hfollows =>
      (memberErasure_computes hs.valid hs.regular.acyclic (hm.of_le hfollows.le)).valid
  · exact fun x us memo _ hmemo hx => hmemo.rememberMemberSubst (hx trivial)
  · exact fun x us vs hvs hx => hx.of_le hvs.le
  · split
    · exact .pure hts nofun
    · refine (erasingSubst_replays hts _).map fun sub us hsub => ?_
      rintro _ ⟨⟩
      exact hsub

/-- A member that the type system has, seen in one of its types under one of its substitutions. -/
theorem substituteMember_replays (hts : ts.Regular) {m : MemberId} {sub : SubstId}
    {container : TypeId} (hm : ts.HasMember m) (hsub : ∃ bs, ts.pool.HasBindings sub bs)
    (hcontainer : ts.pool.Has container) :
    Replays (liftM (TypeSystem.substituteMember m sub container) : CanonicalM MemberId) ts
      fun n us => us.HasMember n := by
  obtain ⟨bs, hbs⟩ := hsub
  exact (ReplaysIf.lift hts (TypeSystem.substituteMember_computes hts.valid hm.hasKey hbs
    hcontainer)).mono fun n us _ _ ⟨_, _, hn⟩ => hn.hasMember

/-- Erases the type parameters of the generic form of an instance. -/
def eraseGeneric (generic m : MemberId) : CanonicalM MemberId := do
  match ← memberErasure generic with
  | some subst => do
    let container := ((← get).types.member generic).container
    liftM (TypeSystem.substituteMember generic subst container)
  | none => return m

theorem eraseOwnTypeParams_replays (hts : ts.Regular) {m : MemberId} (hm : ts.HasMember m) :
    Replays (eraseOwnTypeParams m) ts fun erased us => us.HasMember erased := by
  have hg := TypeSystem.hasMember_genericForm hts.valid hm
  unfold eraseOwnTypeParams
  refine ReplaysIf.get_bind (x := eraseGeneric (ts.genericForm m) m) hts
    (fun s hs => TypeSystem.genericForm_of_le hs.le hm ▸ rfl) ?_
  unfold eraseGeneric
  refine ReplaysIf.bind (memberErasure_replays hts hg) fun x us hext hus hx => ?_
  cases x with
  | none => exact .pure hus (hm.of_le hext.le)
  | some sub =>
    have hg' := hg.of_le hext.le
    refine ReplaysIf.get_bind hus (fun s hs => by
      dsimp only
      rw [TypeSystem.member_of_le hs.le hg']) ?_
    exact substituteMember_replays hus hg' (hx sub rfl) (hus.valid.keys hg'.hasKey).container

/-! ### Erased signatures -/

/-- Making every type of a signature canonical. -/
theorem mapTypesM_canonicalize_replays (hts : ts.Regular) {k : MemberKind}
    (hk : ∀ ty ∈ k.types, ts.pool.Has ty) :
    Replays (k.mapTypesM canonicalize) ts fun l us => k.Related (fun _ r => AtRest r us) l := by
  have htype : ∀ {ty us}, TypeSystem.Extends ts us → us.Regular → ty ∈ k.types →
      Replays (canonicalize ty) us AtRest := fun hext hus hty =>
    (canonicalize_replays hus ((hk _ hty).of_le hext.le.1)).mono fun _ _ _ _ h => h.1
  have hformals : ∀ tys, (∀ ty ∈ tys, ty ∈ k.types) → Replays (tys.mapM canonicalize) ts
      fun rs us => List.Forall₂ (fun _ r => AtRest r us) tys rs := fun tys htys =>
    ReplaysIf.mapM (R := fun _ r us => AtRest r us) (fun _ _ _ _ hvs h => h.of_follows hvs) hts
      fun ty hty us hext hus => htype hext hus (htys ty hty)
  cases k with
  | method name formals result params =>
    refine ReplaysIf.bind (hformals formals fun ty => List.mem_append_left _) ?_
    intro formals' us hext hus hformals'
    have hresult := htype hext hus (List.mem_append_right _ List.mem_cons_self)
    refine ReplaysIf.bind hresult fun result' vs huv hvs hresult' => .pure hvs (.method ?_ hresult')
    exact hformals'.imp fun _ _ h => h.of_follows (.of_extends hus huv hvs.valid)
  | constructor formals params =>
    exact ReplaysIf.bind (hformals formals fun _ => id) fun _ us _ hus h =>
      .pure hus (.constructor h)
  | field name type =>
    exact ReplaysIf.bind (htype (.refl ts) hts List.mem_cons_self) fun _ us _ hus h =>
      .pure hus (.field h)
  | initializer => exact .pure hts .initializer

/-- Erases the signature `member` of `m`. -/
def eraseSignatureOf (m : MemberId) (member : Member) : CanonicalM MemberId := do
  let kind ← member.kind.mapTypesM canonicalize
  let kind := kind.withoutTypeParams
  let container ← canonicalize member.container
  if kind = member.kind && container = member.container then
    return m
  liftM (TypeSystem.deriveMember m kind container)

theorem eraseSignature_eq (m : MemberId) :
    eraseSignature m = (do eraseSignatureOf m ((← get).types.member m)) := rfl

/-- Making a signature and a container canonical. -/
theorem eraseSignature_replays (hts : ts.Regular) {m : MemberId} (hm : ts.HasMember m) :
    Replays (eraseSignature m) ts fun e us => us.HasMember e := by
  have hadmits := hts.valid.keys hm.hasKey
  rw [eraseSignature_eq]
  refine ReplaysIf.get_bind (x := eraseSignatureOf m (ts.member m)) hts
    (fun s hs => by rw [TypeSystem.member_of_le hs.le hm]) ?_
  unfold eraseSignatureOf
  refine ReplaysIf.bind (mapTypesM_canonicalize_replays hts hadmits.types) ?_
  intro kind us hext hus hkind
  refine ReplaysIf.bind (canonicalize_replays hus (hadmits.container.of_le hext.le.1)) ?_
  intro container vs huv hvs hcontainer
  have hle := (hext.trans huv).le
  split
  · exact .pure hvs (hm.of_le hle)
  · have htypes : ∀ ty ∈ kind.types, vs.pool.Has ty := fun ty hty =>
      (exists_of_forall₂_right hkind.types hty).elim fun _ h => h.2.normal.has.of_le huv.le.1
    have hadmits' := admitsKey_withoutTypeParams hle hadmits hkind htypes hcontainer.1.normal.has
    exact (ReplaysIf.lift hvs (TypeSystem.deriveMember_computes hvs.valid (hm.hasKey.of_le hle)
      hadmits')).mono fun e ws _ _ he => he.hasMember

/-- Erases an instance that is seen in a class as it stands. -/
def eraseInClass (c : ClassId) (m : MemberId) (container : TypeId) : CanonicalM MemberId := do
  match ← classErasure c with
  | some subst => do
    eraseSignature (← liftM (TypeSystem.substituteMember m subst container))
  | none => eraseSignature m

/-- Making an instance canonical that is seen in no instantiation. Where the container is a class,
the type parameters of the class are erased, and would be again. -/
theorem canonicalizeRaw_replays (hts : ts.Regular) {m : MemberId} {container : TypeId}
    (hm : ts.HasMember m) (hcontainer : ts.pool.Has container) :
    Replays (canonicalizeRaw m container) ts fun e us => us.HasMember e ∧
      ∀ c, us.pool.HasKind container (.raw c) → ∃ x, Recalled (classErasure c) x us := by
  have hplain : (∀ c, ts.kind container ≠ .raw c) → Replays (eraseSignature m) ts fun e us =>
      us.HasMember e ∧ ∀ c, us.pool.HasKind container (.raw c) →
        ∃ x, Recalled (classErasure c) x us := fun hne =>
    (eraseSignature_replays hts hm).mono fun e us hext _ he => ⟨he, fun c hc =>
      absurd ((TypeSystem.kind_of_le hext.le hcontainer).symm.trans hc.kind_eq) (hne c)⟩
  unfold canonicalizeRaw
  cases hk : ts.kind container with
  | prim _ | null | array _ | var _ | inst _ _ _ | lub _ =>
    refine ReplaysIf.get_bind (x := eraseSignature m) hts (fun s hs => ?_) (hplain (hk ▸ nofun))
    rw [TypeSystem.kind_of_le hs.le hcontainer, hk]
  | raw c =>
    have hkind := hcontainer.hasKind_of_eq hk
    refine ReplaysIf.get_bind (x := eraseInClass c m container) hts
      (fun s hs => (TypeSystem.kind_of_le hs.le hcontainer).trans hk ▸ rfl) ?_
    unfold eraseInClass
    refine ReplaysIf.bind (classErasure_replays hts (TypeSystem.mentions_raw hkind)) ?_
    rintro x us hext hus ⟨hx, hrecalled⟩
    have herased : ∀ {n vs}, Follows us vs → vs.HasMember n → Replays (eraseSignature n) vs
        fun e ws => ws.HasMember e ∧ ∀ d, ws.pool.HasKind container (.raw d) →
          ∃ x, Recalled (classErasure d) x ws := by
      intro n vs huv hn
      refine (eraseSignature_replays huv.regular hn).mono fun e ws hvw hws he => ⟨he, fun d hd => ?_⟩
      cases (hkind.of_le (hext.le.trans (huv.le.trans hvw.le)).1).unique hd
      exact ⟨x, hrecalled.of_follows (huv.trans (.of_extends huv.regular hvw hws.valid))⟩
    cases x with
    | none => exact herased hus.follows (hm.of_le hext.le)
    | some sub =>
      refine ReplaysIf.bind (substituteMember_replays hus (hm.of_le hext.le) (hx sub rfl)
        (hcontainer.of_le hext.le.1)) fun n vs huv hvs hn => ?_
      exact herased (.of_extends hus huv hvs.valid) hn

/-! ### Members at rest -/

/-- A canonical member with nothing left to be made: canonicalizing it leaves it as it is. -/
structure MemberAtRest (m : MemberId) (ts : TypeSystem) : Prop where
  settled : ts.Settled m
  types : ∀ ty ∈ (ts.member m).kind.types, AtRest ty ts
  container : AtRest (ts.member m).container ts
  classErasure : ∀ c, ts.pool.HasKind (ts.member m).container (.raw c) →
    ∃ x, Recalled (classErasure c) x ts

theorem AtRest.yields {ty : TypeId} (hts : ts.Regular) (h : AtRest ty ts) :
    Yields (canonicalize ty) ts ty ts :=
  (canonicalize_replays hts h.normal.has).yields_of_recalled hts h.recalled

theorem Yields.mapM_self {f : TypeId → CanonicalM TypeId} {tys : List TypeId}
    (h : ∀ ty ∈ tys, Yields (f ty) ts ty ts) : Yields (tys.mapM f) ts tys ts := by
  induction tys with
  | nil => exact .pure []
  | cons ty tys ih =>
    rw [List.mapM_cons]
    exact (h ty List.mem_cons_self).bind
      ((ih fun u hu => h u (List.mem_cons_of_mem _ hu)).bind (.pure _))

theorem Yields.mapTypesM_self {f : TypeId → CanonicalM TypeId} {k : MemberKind}
    (h : ∀ ty ∈ k.types, Yields (f ty) ts ty ts) : Yields (k.mapTypesM f) ts k ts := by
  cases k with
  | method name formals result params =>
    exact (mapM_self fun ty hty => h ty (List.mem_append_left _ hty)).bind
      ((h result (List.mem_append_right _ List.mem_cons_self)).bind (.pure _))
  | constructor formals params => exact (mapM_self h).bind (.pure _)
  | field name type => exact (h type List.mem_cons_self).bind (.pure _)
  | initializer => exact .pure _

/-- A settled member has no own type parameters to be erased. -/
theorem yields_eraseOwnTypeParams (hts : ts.Regular) {m : MemberId} (hm : ts.Settled m) :
    Yields (eraseOwnTypeParams m) ts m ts := by
  refine (eraseOwnTypeParams_replays hts hm.hasMember).yields_of_recalled hts fun us hus => ?_
  have hnone := ownTypeParams_of_settled (hm.of_le hts.valid hus.le)
  unfold eraseOwnTypeParams memberErasure
  rw [get_bind_apply, bind_apply, get_bind_apply]
  rw [show (fresh us).memo.memberSubsts.find? _ = none from rfl,
    show ((fresh us).types.member ((fresh us).types.genericForm m)).kind.typeParams = [] from hnone]
  exact ⟨_, rfl⟩

/-- Erased types have nothing to be substituted. -/
theorem substitute_eq_self {p : Pool} (hp : p.Valid) {ty : TypeId} (h : p.IsNormal ty)
    (sub : SubstId) : Pool.substitute sub ty p = (ty, p) := by
  unfold Pool.substitute Pool.substituteWithin
  rw [get_bind_apply, (Pool.isErased_flags_iff hp h.has).mpr h, Bool.or_true]
  rfl

theorem mapTypesM_eq_self {σ : Type} {f : TypeId → StateM σ TypeId} {s : σ} {k : MemberKind}
    (h : ∀ ty ∈ k.types, f ty s = (ty, s)) : k.mapTypesM f s = (k, s) := by
  have hlist : ∀ tys : List TypeId, (∀ ty ∈ tys, f ty s = (ty, s)) → tys.mapM f s = (tys, s) := by
    intro tys htys
    induction tys with
    | nil => rfl
    | cons ty tys ih =>
      rw [List.mapM_cons, bind_apply, htys ty List.mem_cons_self, bind_apply,
        ih fun u hu => htys u (List.mem_cons_of_mem _ hu)]
      rfl
  cases k with
  | method name formals result params =>
    rw [MemberKind.mapTypesM, bind_apply, hlist formals fun ty hty => h ty (List.mem_append_left _ hty),
      bind_apply, h result (List.mem_append_right _ List.mem_cons_self)]
    rfl
  | constructor formals params =>
    rw [MemberKind.mapTypesM, bind_apply, hlist formals h]
    rfl
  | field name type =>
    rw [MemberKind.mapTypesM, bind_apply, h type List.mem_cons_self]
    rfl
  | initializer => rfl

/-- A settled member is its own image. -/
theorem substituteMember_eq_self (hts : ts.Valid) {m : MemberId} (hm : ts.Settled m)
    (sub : SubstId) : TypeSystem.substituteMember m sub (ts.member m).container ts = (m, ts) := by
  have hkind : TypeSystem.substituteKind sub (ts.member m).kind ts = ((ts.member m).kind, ts) := by
    unfold TypeSystem.substituteKind
    split
    · rfl
    · rw [bind_apply, mapTypesM_eq_self fun ty hty => congrArg
        (fun r : TypeId × Pool => (r.1, { ts with pool := r.2 }))
        (substitute_eq_self hts.pool (hm.types ty hty) sub), get_bind_apply]
      rw [MemberKind.filterTypeParams_eq_self (by rw [hm.typeParams]; nofun)]
      rfl
  unfold TypeSystem.substituteMember
  rw [get_bind_apply, bind_apply, hkind, get_bind_apply]
  simp only [decide_true, Bool.and_self, if_true]
  rfl

theorem MemberAtRest.of_follows {m : MemberId} (hts : ts.Valid) (h : MemberAtRest m ts)
    (hfollows : Follows ts us) : MemberAtRest m us := by
  have hmember := TypeSystem.member_of_le hfollows.le h.settled.hasMember
  constructor
  case settled => exact h.settled.of_le hts hfollows.le
  case types => exact fun ty hty => (h.types ty (hmember ▸ hty)).of_follows hfollows
  case container => exact hmember ▸ h.container.of_follows hfollows
  case classErasure =>
    intro c hc
    rw [hmember] at hc
    exact (h.classErasure c (hc.of_ge hfollows.le.1 h.container.normal.has)).imp
      fun x hx => hx.of_follows hfollows

theorem MemberAtRest.yields_eraseSignature (hts : ts.Regular) {m : MemberId}
    (h : MemberAtRest m ts) : Yields (eraseSignature m) ts m ts := by
  rw [eraseSignature_eq]
  refine Yields.get_bind (x := eraseSignatureOf m (ts.member m)) (fun s hs => by rw [hs]) ?_
  unfold eraseSignatureOf
  refine (Yields.mapTypesM_self fun ty hty => (h.types ty hty).yields hts).bind ?_
  refine (h.container.yields hts).bind ?_
  rw [MemberKind.withoutTypeParams_eq_self h.settled.typeParams]
  simp only [decide_true, Bool.and_self, if_true]
  exact .pure m

theorem MemberAtRest.yields_canonicalizeRaw (hts : ts.Regular) {m : MemberId}
    (h : MemberAtRest m ts) : Yields (canonicalizeRaw m (ts.member m).container) ts m ts := by
  have herase := h.yields_eraseSignature hts
  unfold canonicalizeRaw
  cases hk : ts.kind (ts.member m).container with
  | prim _ | null | array _ | var _ | inst _ _ _ | lub _ =>
    refine Yields.get_bind (fun s hs => ?_) herase
    rw [hs, hk]
  | raw c =>
    have hkind := h.container.normal.has.hasKind_of_eq hk
    refine Yields.get_bind (x := eraseInClass c m (ts.member m).container)
      (fun s hs => hs.symm ▸ hk ▸ rfl) ?_
    unfold eraseInClass
    obtain ⟨x, hx⟩ := h.classErasure c hkind
    have hreplays := classErasure_replays hts (TypeSystem.mentions_raw hkind)
    refine (hreplays.yields_of_recalled hts hx).bind ?_
    cases x with
    | none => exact herase
    | some sub =>
      have himage : Yields (liftM (TypeSystem.substituteMember m sub (ts.member m).container)) ts m
          ts := by
        rintro s hs rfl
        refine ⟨s.memo, ?_, hs⟩
        rw [lift_apply, substituteMember_eq_self hts.valid h.settled]
      exact himage.bind herase

/-! ### Plain members -/

/-- The member is seen in a type that is as it stands, and its type parameters are erased there. -/
structure IsPlain (m : MemberId) (ts : TypeSystem) : Prop where
  hasMember : ts.HasMember m
  not_inst : ∀ base sub outer, ts.kind (ts.member m).container ≠ .inst base sub outer
  not_var : ∀ v, ts.kind (ts.member m).container ≠ .var v
  not_lub : ∀ l, ts.kind (ts.member m).container ≠ .lub l
  generic : ts.ownTypeParams m ≠ [] →
    (ts.member (ts.genericForm m)).container = (ts.member m).container

theorem IsPlain.of_le (hts : ts.Valid) (hle : ts ≤ us) {m : MemberId} (h : IsPlain m ts) :
    IsPlain m us := by
  have hmember := TypeSystem.member_of_le hle h.hasMember
  have hgeneric := TypeSystem.genericForm_of_le hle h.hasMember
  have hkind := TypeSystem.kind_of_le hle (hts.keys h.hasMember.hasKey).container
  refine ⟨h.hasMember.of_le hle, ?_, ?_, ?_, ?_⟩
  · rw [hmember, hkind]
    exact h.not_inst
  · rw [hmember, hkind]
    exact h.not_var
  · rw [hmember, hkind]
    exact h.not_lub
  · rw [TypeSystem.ownTypeParams_of_le hts hle h.hasMember, hgeneric, hmember,
      TypeSystem.member_of_le hle (TypeSystem.hasMember_genericForm hts h.hasMember)]
    exact h.generic

/-- The answer for a member seen in no instantiation is the canonical form of a declared one. -/
theorem recalled_canonicalizeMember_iff {m c : MemberId} (hm : IsPlain m ts) (hts : ts.Valid) :
    Recalled (canonicalizeMember m).run (.ok c) ts ↔ Recalled (canonicalizeDeclared m) c ts := by
  refine forall_congr' fun us => forall_congr' fun hus => exists_congr fun memo => ?_
  rw [run_canonicalizeMember_of_not_inst (s := fresh us) (hm.of_le hts hus.le).not_inst, map_apply]
  constructor
  · intro h
    obtain ⟨hanswer, hstate⟩ := Prod.mk.inj h
    exact Prod.ext (Except.ok.inj hanswer) hstate
  · intro h
    rw [h]

theorem MemberAtRest.isPlain {m : MemberId} (h : MemberAtRest m ts) : IsPlain m ts := by
  obtain ⟨shape, hshape⟩ := h.container.normal
  have hkind : ∀ k, ts.kind (ts.member m).container = k →
      ts.pool.HasKind (ts.member m).container k := fun k hk => hk ▸ h.container.normal.has.hasKind
  refine ⟨h.settled.hasMember, fun base sub outer hk => ?_, fun v hk => ?_, fun l hk => ?_, fun hne => ?_⟩
  · exact h.container.normal.not_inst (hkind _ hk)
  · have hk := hkind _ hk
    cases hshape with
    | prim hk' | null hk' | raw hk' | array hk' _ => exact nomatch hk.unique hk'
  · have hk := hkind _ hk
    cases hshape with
    | prim hk' | null hk' | raw hk' | array hk' _ => exact nomatch hk.unique hk'
  · exact absurd (ownTypeParams_of_settled h.settled) hne

/-- A canonical member is found again, with nothing to be made. -/
theorem MemberAtRest.recalled (hts : ts.Regular) {m : MemberId} (h : MemberAtRest m ts) :
    Recalled (canonicalizeMember m).run (.ok m) ts := by
  refine (recalled_canonicalizeMember_iff h.isPlain hts.valid).mpr fun us hus => ?_
  have h' := h.of_follows hts.valid hus
  have hbody : Yields (eraseDeclared m (us.member m).container) us m us :=
    (yields_eraseOwnTypeParams hus.regular h'.settled).bind (h'.yields_canonicalizeRaw hus.regular)
  obtain ⟨memo, heq, -⟩ := hbody _ (fresh_recalls hus.regular) rfl
  rw [canonicalizeDeclared_eq, show (fresh us).memo.members.find? m = none from rfl]
  dsimp only
  rw [bind_apply, show (fresh us).types = us from rfl, heq]
  exact ⟨_, rfl⟩

/-- A type in place whose canonical form is a raw class is that raw class. -/
theorem eq_of_find?_of_raw (hs : s.Valid) (hM : Coherent ∅ s) {m : MemberId}
    (hm : IsPlain m s.types) {r : TypeId} {c : ClassId}
    (hfind : s.memo.types.find? (s.types.member m).container = some r)
    (hr : s.types.pool.HasKind r (.raw c)) : r = (s.types.member m).container := by
  obtain ⟨shape, herases, hshape⟩ := hM.erases hfind
  have hself := TypeSystem.comesDownTo_self hm.not_var hm.not_lub
  have hkind := (hs.canonical hfind).has.hasKind
  refine (hs.canonical hfind).self ?_
  have hraw : shape = .raw c := hshape.unique (.raw hr)
  subst hraw
  cases herases with
  | remembered hfind _ => cases hfind
  | raw _ hdown hk =>
    cases hdown.unique hself
    exact ⟨_, .raw hk⟩
  | inst _ hdown hk =>
    cases hdown.unique hself
    exact absurd hk.kind_eq (hm.not_inst _ _ _)
  | lub _ hdown hk =>
    cases hdown.unique hself
    exact absurd hk.kind_eq (hm.not_lub _)

/-- The member made by erasing the type parameters of one that is seen in place is seen there too, and
the erasure of its signature is what is left to do. -/
theorem IsPlain.signatureErased (hs : s.Valid) {m own e : MemberId} (hm : IsPlain m s.types)
    (hown : s.OwnErased m own) (hraw : s.RawErased (s.types.member m).container own e) :
    ∃ n, NoGenericParams s.types n ∧
      (s.types.member n).container = (s.types.member m).container ∧ SignatureErased s n e := by
  have hparams := hown.noGenericParams hs hm.hasMember
  have hcontainer := hown.container_eq hm.generic
  rcases hraw with ⟨c, n, -, hclass, hsignature⟩ | ⟨-, hsignature⟩
  · exact ⟨n, hclass.noGenericParams hparams, hclass.container_eq hcontainer, hsignature⟩
  · exact ⟨own, hparams, hcontainer, hsignature⟩

/-- Erasing the type parameters and the signature of a member that is seen in place. -/
theorem eraseDeclared_replays (hts : ts.Regular) {m : MemberId} (hm : IsPlain m ts) :
    Replays (eraseDeclared m (ts.member m).container) ts MemberAtRest := by
  have hcontainer := (hts.valid.keys hm.hasMember.hasKey).container
  have hreplays : Replays (eraseDeclared m (ts.member m).container) ts fun e us => us.HasMember e ∧
      ∀ c, us.pool.HasKind (ts.member m).container (.raw c) → ∃ x, Recalled (classErasure c) x us :=
    ReplaysIf.bind (eraseOwnTypeParams_replays hts hm.hasMember) fun own us hext hus hown =>
      canonicalizeRaw_replays hus hown (hcontainer.of_le hext.le.1)
  have hkeeps : Keeps (eraseDeclared m (ts.member m).container) (fresh ts) fun e t =>
      ∃ own, t.OwnErased m own ∧ t.RawErased (ts.member m).container own e := by
    refine (eraseOwnTypeParams_computes (fresh_valid hts.valid) hts.acyclic hm.hasMember).toKeeps.bind ?_
    intro own t hst ht hown
    refine (canonicalizeRaw_computes ht (acyclic_of_grows (fresh_valid hts.valid) hst hts.acyclic)
      (hown.hasMember (hm.hasMember.of_le hst.le.1)) (hcontainer.of_le hst.le.1.1)).toKeeps.mono ?_
    exact fun e u htu _ h => ⟨own, hown.of_le htu.le ht.types (hm.hasMember.of_le hst.le.1), h⟩
  refine (hreplays.with_keeps hts hkeeps).mono fun e us hext hus h => ?_
  obtain ⟨⟨he, herasure⟩, memo, hgrows, hrecalls, own, hown, hraw⟩ := h
  have hmember := TypeSystem.member_of_le hext.le hm.hasMember
  have hm' := hm.of_le hts.valid hext.le
  have hvalid := hrecalls.valid
  rw [← hmember] at hraw
  obtain ⟨n, hn, hncontainer, kind, container, hkind, hfind, hkey⟩ :=
    hm'.signatureErased hvalid hown hraw
  have hrest : ∀ {u r}, memo.types.find? u = some r → AtRest r us := fun hr =>
    ⟨(hvalid.canonical hr).normal, hrecalls.memo.types (hvalid.fixed hr)⟩
  have hsettled : us.Settled e :=
    SignatureErased.settled hvalid hn ⟨kind, container, hkind, hfind, hkey⟩
  have hekey := hkey.member_eq
  constructor
  case settled => exact hsettled
  case types =>
    intro ty hty
    rw [hkey.kind_eq, MemberKind.types_withoutTypeParams] at hty
    obtain ⟨u, -, hr⟩ := exists_of_forall₂_right hkind.types hty
    exact hrest hr
  case container =>
    rw [hkey.container_eq]
    exact hrest hfind
  case classErasure =>
    intro c hc
    rw [hkey.container_eq] at hc
    rw [hncontainer] at hfind
    have hsame := eq_of_find?_of_raw hvalid (Extends.coherent hgrows (coherent_fresh ts)) hm' hfind hc
    exact herasure c (hmember ▸ hsame ▸ hc)

theorem RecallsMemo.rememberMember {memo : CanonicalMemo} {m c : MemberId} (h : RecallsMemo memo ts)
    (hm : Recalled (canonicalizeMember m).run (.ok c) ts)
    (hc : Recalled (canonicalizeMember c).run (.ok c) ts) :
    RecallsMemo { memo with members := (memo.members.insert m c).insert c c } ts := by
  refine ⟨h.types, fun hfind => ?_, h.outers, h.classSubsts, h.memberSubsts⟩
  rcases Memo.find?_insert_both_cases hfind with hfind | ⟨rfl | rfl, rfl⟩
  · exact h.members hfind
  · exact hm
  · exact hc

/-- The canonical form of a member seen in place does not depend on what is remembered. -/
theorem canonicalizeDeclared_replays (hts : ts.Regular) {m : MemberId} (hm : IsPlain m ts) :
    Replays (canonicalizeDeclared m) ts fun c us =>
      MemberAtRest c us ∧ Recalled (canonicalizeMember m).run (.ok c) us := by
  have hplain : ∀ {us}, Follows ts us → IsPlain m us := fun hus => hm.of_le hts.valid hus.le
  have hrecalled : ∀ {c us}, Follows ts us → Recalled (canonicalizeDeclared m) c us →
      Recalled (canonicalizeMember m).run (.ok c) us := fun hus =>
    (recalled_canonicalizeMember_iff (hplain hus) hus.regular.valid).mpr
  have hreplays : Replays (canonicalizeDeclared m) ts MemberAtRest := by
    refine ReplaysIf.memoized (P := fun c us => MemberAtRest c us ∧ Follows ts us)
      (eraseDeclared m (ts.member m).container) (fun memo => memo.members.find? m)
      (fun c memo => { memo with members := (memo.members.insert m c).insert c c })
      hts ?_ rfl ?_ ?_ ?_ ?_ ?_ |>.mono fun _ _ _ _ h => h.1
    · intro s _ hfollows
      rw [canonicalizeDeclared_eq, TypeSystem.member_of_le hfollows.le hm.hasMember]
      cases s.memo.members.find? m <;> rfl
    · exact fun hs hfollows hfind => (recalled_canonicalizeMember_iff (hplain hfollows)
        hs.regular.valid).mp (hs.memo.members hfind)
    · exact fun s hs hfollows => (canonicalizeDeclared_keeps hs.valid hs.regular.acyclic
        (hplain hfollows).hasMember (hplain hfollows).not_inst).valid
    · rintro c us memo ⟨hc, hfollows⟩ hmemo hrec
      exact hmemo.rememberMember (hrecalled hfollows (hrec trivial)) (hc.recalled hfollows.regular)
    · exact fun c us vs hvs h => ⟨h.1.of_follows h.2.regular.valid hvs, h.2.trans hvs⟩
    · exact (eraseDeclared_replays hts hm).mono fun c us hext hus h =>
        ⟨h, .of_extends hts hext hus.valid⟩
  exact hreplays.with_recalled.mono fun c us hext hus h =>
    ⟨h.1, hrecalled (.of_extends hts hext hus.valid) (h.2 trivial)⟩

end Erasure.Canonicalizer
