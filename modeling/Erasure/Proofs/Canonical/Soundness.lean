/-
Canonicalization whatever is declared.

How far erasure gets where bounds or enclosing instances lead back to themselves depends on the steps
that it takes. It declares nothing all the same, what it finds is erased, and what it remembers is
there. The main statements:

* `Sound`: the invariant of canonicalizers that does not rely on acyclic declarations.
* `Sound.canonicalizeWithin_keeps`: any number of steps ends in an erased type, and a raw class is its
  own canonical form.
* `Sound.canonicalizeMember_keeps`: members.
-/
import Erasure.Proofs.Canonical.RecallMembers

namespace Erasure.Canonicalizer

variable {s t : Canonicalizer} {ts us : TypeSystem}

/-! ### Sound canonicalizers -/

/-- The second type is erased, and it is the first one if that is a raw class. -/
structure ErasedEntry (ts : TypeSystem) (ty r : TypeId) : Prop where
  has : ts.pool.Has ty
  normal : ts.pool.IsNormal r
  raw : ∀ {c}, ts.pool.HasKind ty (.raw c) → r = ty

theorem ErasedEntry.of_le (hle : ts ≤ us) {ty r : TypeId} (h : ErasedEntry ts ty r) :
    ErasedEntry us ty r where
  has := h.has.of_le hle.1
  normal := h.normal.of_le hle.1
  raw hk := h.raw (hk.of_ge hle.1 h.has)

theorem ErasedEntry.self {ty r : TypeId} (h : ErasedEntry ts ty r) : ErasedEntry ts r r :=
  ⟨h.normal.has, h.normal, fun _ => rfl⟩

/-- What is remembered is there, and canonical types are erased. -/
structure Sound (s : Canonicalizer) : Prop where
  types : s.types.Valid
  canonical : ∀ {ty r}, s.memo.types.find? ty = some r → ErasedEntry s.types ty r
  classSubsts : ∀ {c x}, s.memo.classSubsts.find? c = some x → HasSubst x s.types
  memberSubsts : ∀ {m x}, s.memo.memberSubsts.find? m = some x → HasSubst x s.types
  members : ∀ {m r}, s.memo.members.find? m = some r → s.types.HasMember r

theorem fresh_sound (hts : ts.Valid) : (fresh ts).Sound := ⟨hts, nofun, nofun, nofun, nofun⟩

namespace Sound

/-- What is remembered stays sound while the type system grows, also by declarations. -/
theorem of_le (hs : s.Sound) (hle : s.types ≤ us) (hus : us.Valid) : Sound ⟨us, s.memo⟩ where
  types := hus
  canonical h := (hs.canonical h).of_le hle
  classSubsts h := (hs.classSubsts h).of_le hle
  memberSubsts h := (hs.memberSubsts h).of_le hle
  members h := (hs.members h).of_le hle

/-- Canonicalizers that stay sound. What they remember may be replaced. -/
scoped instance : Store Canonicalizer where
  toPreorder := Preorder.lift Canonicalizer.types
  Grows s t := TypeSystem.Extends s.types t.types
  Valid := Sound
  grows_refl s := .refl s.types
  grows_trans h h' := h.trans h'
  le_of_grows h := h.le

theorem lift_keeps {α : Type} {act : StateM TypeSystem α} {P : α → TypeSystem → Prop} (hs : s.Sound)
    (h : Keeps act s.types P) : Keeps (liftM act : CanonicalM α) s fun a t => P a t.types :=
  ⟨h.grows, hs.of_le h.grows.le h.valid, h.post⟩

/-! ### Remembering -/

theorem rememberedType (hs : s.Sound) {ty r : TypeId} (hr : ErasedEntry s.types ty r) :
    Sound ⟨s.types, { s.memo with types := (s.memo.types.insert ty r).insert r r }⟩ := by
  refine ⟨hs.types, ?_, hs.classSubsts, hs.memberSubsts, hs.members⟩
  intro u v h
  rcases Memo.find?_insert_both_cases h with h | ⟨rfl | rfl, rfl⟩
  · exact hs.canonical h
  · exact hr
  · exact hr.self

theorem rememberedOuter (hs : s.Sound) (c : ClassId) (outer : Option TypeId) :
    Sound ⟨s.types, { s.memo with outers := s.memo.outers.insert c outer }⟩ :=
  ⟨hs.types, hs.canonical, hs.classSubsts, hs.memberSubsts, hs.members⟩

theorem rememberedClassSubst (hs : s.Sound) (c : ClassId) {x : Option SubstId}
    (hx : HasSubst x s.types) :
    Sound ⟨s.types, { s.memo with classSubsts := s.memo.classSubsts.insert c x }⟩ := by
  refine ⟨hs.types, hs.canonical, ?_, hs.memberSubsts, hs.members⟩
  intro d y h
  rcases Memo.find?_insert_cases h with ⟨-, rfl⟩ | h
  · exact hx
  · exact hs.classSubsts h

theorem rememberedMemberSubst (hs : s.Sound) (m : MemberId) {x : Option SubstId}
    (hx : HasSubst x s.types) :
    Sound ⟨s.types, { s.memo with memberSubsts := s.memo.memberSubsts.insert m x }⟩ := by
  refine ⟨hs.types, hs.canonical, hs.classSubsts, ?_, hs.members⟩
  intro n y h
  rcases Memo.find?_insert_cases h with ⟨-, rfl⟩ | h
  · exact hx
  · exact hs.memberSubsts h

theorem rememberedMember (hs : s.Sound) (m : MemberId) {r : MemberId} (hr : s.types.HasMember r) :
    Sound ⟨s.types, { s.memo with members := (s.memo.members.insert m r).insert r r }⟩ := by
  refine ⟨hs.types, hs.canonical, hs.classSubsts, hs.memberSubsts, ?_⟩
  intro n y h
  rcases Memo.find?_insert_both_cases h with h | ⟨-, rfl⟩
  · exact hs.members h
  · exact hr

/-- Remembering leaves the type system as it is. -/
theorem modifyMemo_keeps {f : CanonicalMemo → CanonicalMemo} {P : TypeSystem → Prop}
    (h : Sound ⟨s.types, f s.memo⟩) (hP : P s.types) :
    Keeps (modifyMemo f) s fun _ t => P t.types := ⟨.refl s.types, h, hP⟩

/-! ### Types -/

section Step

variable {canonical : TypeId → CanonicalM TypeId}

/-- From `s` on the function finds erased types. -/
def Finds (canonical : TypeId → CanonicalM TypeId) (s : Canonicalizer) : Prop :=
  ∀ ty t, Store.Grows s t → t.Sound → t.types.pool.Has ty →
    Keeps (canonical ty) t fun r u => u.types.pool.IsNormal r

theorem outerWith_keeps (hs : s.Sound) (h : Finds canonical s) (c : ClassId) :
    Keeps (outerWith canonical c) s fun _ _ => True := by
  unfold outerWith
  apply Keeps.get_bind
  split
  · exact .pure hs trivial
  · have houter : ∀ ty ∈ (s.types.classDef c).outer, Keeps (canonical ty) s
        fun r t => t.types.pool.IsNormal r := fun ty hty =>
      h ty s (.refl s) hs ((hs.types.classes c).outer ty hty)
    apply (Keeps.optionMapM hs houter).bind
    intro outer t _ ht _
    apply (modifyMemo_keeps (P := fun _ => True) (ht.rememberedOuter c outer) trivial).bind
    intro _ u _ hu _
    exact .pure hu trivial

/-- By the kind of a type an erased type is found if its parts are, and a raw class is left as it
is. -/
theorem eraseKind_keeps (hs : s.Sound) {ty : TypeId} {k : TypeKind}
    (hkind : s.types.pool.HasKind ty k) (hvar : ∀ v, k ≠ .var v) (h : Finds canonical s) :
    Keeps (eraseKind canonical ty k) s fun r t =>
      t.types.pool.IsNormal r ∧ ∀ {c}, k = .raw c → r = ty := by
  unfold eraseKind
  cases k with
  | prim p => exact .pure hs ⟨⟨_, .prim hkind⟩, nofun⟩
  | null => exact .pure hs ⟨⟨_, .null hkind⟩, nofun⟩
  | var v => exact absurd rfl (hvar v)
  | lub l => exact .pure hs ⟨⟨_, .raw hs.types.object⟩, nofun⟩
  | raw c =>
    apply (outerWith_keeps hs h c).discard.bind
    intro _ t hst ht _
    exact .pure ht ⟨⟨_, .raw (hkind.of_le (TypeSystem.Extends.le hst).1)⟩, fun _ => rfl⟩
  | inst c sub outer =>
    apply (outerWith_keeps hs h c).discard.bind
    intro _ t hst ht _
    apply (lift_keeps ht (TypeSystem.lift_computes ht.types
      (Pool.rawClass_computes ht.types.pool c)).toKeeps).bind
    intro raw u htu hu hk
    exact (h raw u (hst.trans htu) hu hk.has).mono fun _ _ _ _ hr => ⟨hr, nofun⟩
  | array elem =>
    have helem := hs.types.pool.has_part hkind List.mem_cons_self
    apply (h elem s (.refl s) hs helem).bind
    intro elem' t hst ht hnormal
    apply (lift_keeps ht (TypeSystem.lift_computes ht.types
      (Pool.array_computes ht.types.pool hnormal.has)).toKeeps).mono
    intro r u htu _ hr
    have hle := TypeSystem.Extends.le htu
    exact ⟨(Pool.isNormal_array_iff hr).mpr (hnormal.of_le hle.1), nofun⟩

/-- One step finds an erased type if its parts do, and it leaves a raw class as it is. -/
theorem eraseWith_keeps (hs : s.Sound) {ty : TypeId} (hty : s.types.pool.Has ty)
    (h : Finds canonical s) :
    Keeps (eraseWith canonical ty) s fun r t => ErasedEntry t.types ty r := by
  have hbound := TypeSystem.has_boundErasure hs.types hty
  rw [eraseWith_eq]
  apply Keeps.get_bind
  apply (lift_keeps hs (TypeSystem.resolveLub_keeps hs.types hbound)).bind
  intro resolved t hst ht hresolved
  have hext : TypeSystem.Extends s.types t.types := hst
  have hty' := hty.of_le hext.le.1
  have hdown : t.types.ComesDownTo ty (t.types.boundErasure resolved) :=
    ⟨resolved, by rwa [hext.boundErasure_eq hs.types hty], rfl⟩
  apply Keeps.get_bind
  apply (eraseKind_keeps ht (hdown.has ht.types hty').hasKind (hdown.kind_ne_var ht.types)
    fun v w htw => h v w (hst.trans htw)).mono
  intro r u htu _ hr
  have hle := TypeSystem.Extends.le htu
  refine ⟨hty'.of_le hle.1, hr.1, fun hk => ?_⟩
  -- a raw class comes down to itself
  have hk' := hk.of_ge hle.1 hty'
  have hself : t.types.kind ty = _ := hk'.kind_eq
  have hsame := hdown.unique (TypeSystem.comesDownTo_self (by simp [hself]) (by simp [hself]))
  exact (hr.2 (hsame ▸ hself)).trans hsame

end Step

/-- Any number of steps ends in an erased type, and one step is enough for a raw class. -/
theorem canonicalizeWithin_keeps (hs : s.Sound) (depth : Nat) {ty : TypeId}
    (hty : s.types.pool.Has ty) :
    Keeps (canonicalizeWithin depth ty) s fun r t =>
      t.types.pool.IsNormal r ∧ (0 < depth → ErasedEntry t.types ty r) := by
  induction depth generalizing s ty with
  | zero => exact .pure hs ⟨⟨_, .raw hs.types.object⟩, nofun⟩
  | succ depth ih =>
    rw [canonicalizeWithin]
    apply Keeps.get_bind
    split
    case h_1 r hfind => exact .pure hs ⟨(hs.canonical hfind).normal, fun _ => hs.canonical hfind⟩
    case h_2 =>
      have hparts : Finds (canonicalizeWithin depth) s := by
        intro u t _ ht hu
        exact (ih ht hu).mono fun _ _ _ _ h => h.1
      apply (eraseWith_keeps hs hty hparts).bind
      intro r t _ ht hr
      apply (modifyMemo_keeps (P := (ErasedEntry · ty r)) (ht.rememberedType hr) hr).bind
      intro _ u _ hu hr
      exact .pure hu ⟨hr.normal, fun _ => hr⟩

theorem canonicalize_keeps (hs : s.Sound) {ty : TypeId} (hty : s.types.pool.Has ty) :
    Keeps (canonicalize ty) s fun r t => ErasedEntry t.types ty r := by
  unfold canonicalize
  apply Keeps.get_bind
  exact (canonicalizeWithin_keeps hs _ hty).mono fun _ _ _ _ h => h.2 (erasureDepth_pos s.types)

/-! ### Type parameters -/

theorem erasingSubst_keeps (hs : s.Sound) (vs : List TypeVarId) :
    Keeps (erasingSubst vs) s fun sub t => ∃ bs, t.types.pool.HasBindings sub bs := by
  unfold erasingSubst
  apply (Keeps.mapM (R := fun _ (b : TypeVarId × TypeId) (t : Canonicalizer) => t.types.pool.Has b.2)
    (fun _ _ _ _ htu hb => hb.of_le htu.le.1) hs _).bind
  · intro bs t _ ht hbs
    have hhas : ∀ b ∈ bs, t.types.pool.Has b.2 := by
      intro b hb
      obtain ⟨_, -, hb⟩ := exists_of_forall₂_right hbs hb
      exact hb
    exact (lift_keeps ht (TypeSystem.lift_computes ht.types
      (Pool.internSubst_computes ht.types.pool hhas)).toKeeps).mono fun _ _ _ _ h => ⟨_, h⟩
  · intro v _ t _ ht
    apply (lift_keeps ht (TypeSystem.lift_computes ht.types
      (Pool.typeVar_computes ht.types.pool v)).toKeeps).bind
    intro ty u _ hu hk
    apply (canonicalize_keeps hu hk.has).bind
    intro r w _ hw hr
    exact .pure hw hr.normal.has

theorem some_erasingSubst_keeps (hs : s.Sound) (vs : List TypeVarId) :
    Keeps (some <$> erasingSubst vs) s fun x t => HasSubst x t.types :=
  (erasingSubst_keeps hs vs).map fun _ _ _ hsub _ h => Option.some.inj h ▸ hsub

theorem classErasure_keeps (hs : s.Sound) (c : ClassId) :
    Keeps (classErasure c) s fun x t => HasSubst x t.types := by
  have hremember : ∀ x t, t.Sound → HasSubst x t.types → Keeps (do
      modifyMemo fun m => { m with classSubsts := m.classSubsts.insert c x }
      return x) t fun x t => HasSubst x t.types := by
    intro x t ht hx
    apply (modifyMemo_keeps (ht.rememberedClassSubst c hx) hx).bind
    intro _ u _ hu hx
    exact .pure hu hx
  unfold classErasure
  apply Keeps.get_bind
  split
  case h_1 hfind => exact .pure hs (hs.classSubsts hfind)
  case h_2 =>
    dsimp only
    split
    · exact (some_erasingSubst_keeps hs _).bind fun x t _ ht hx => hremember x t ht hx
    · exact hremember none s hs nofun

theorem memberErasure_keeps (hs : s.Sound) (m : MemberId) :
    Keeps (memberErasure m) s fun x t => HasSubst x t.types := by
  have hremember : ∀ x t, t.Sound → HasSubst x t.types → Keeps (do
      modifyMemo fun memo => { memo with memberSubsts := memo.memberSubsts.insert m x }
      return x) t fun x t => HasSubst x t.types := by
    intro x t ht hx
    apply (modifyMemo_keeps (ht.rememberedMemberSubst m hx) hx).bind
    intro _ u _ hu hx
    exact .pure hu hx
  unfold memberErasure
  apply Keeps.get_bind
  split
  case h_1 hfind => exact .pure hs (hs.memberSubsts hfind)
  case h_2 =>
    dsimp only
    split
    · exact hremember none s hs nofun
    · exact (some_erasingSubst_keeps hs _).bind fun x t _ ht hx => hremember x t ht hx

/-! ### Members -/

theorem substituteMember_keeps (hs : s.Sound) {m : MemberId} {sub : SubstId} {container : TypeId}
    (hm : s.types.HasMember m) (hsub : ∃ bs, s.types.pool.HasBindings sub bs)
    (hcontainer : s.types.pool.Has container) :
    Keeps (liftM (TypeSystem.substituteMember m sub container) : CanonicalM MemberId) s
      fun n t => t.types.HasMember n := by
  obtain ⟨bs, hbs⟩ := hsub
  apply (lift_keeps hs (TypeSystem.substituteMember_computes hs.types hm.hasKey hbs
    hcontainer).toKeeps).mono
  rintro n t - - ⟨_, -, hn⟩
  exact hn.hasMember

theorem eraseOwnTypeParams_keeps (hs : s.Sound) {m : MemberId} (hm : s.types.HasMember m) :
    Keeps (eraseOwnTypeParams m) s fun e t => t.types.HasMember e := by
  have hg := TypeSystem.hasMember_genericForm hs.types hm
  unfold eraseOwnTypeParams
  apply Keeps.get_bind
  apply (memberErasure_keeps hs _).bind
  intro x t hst ht hx
  cases x with
  | none => exact .pure ht (hm.of_le hst.le)
  | some sub =>
    have hg' := hg.of_le hst.le
    apply Keeps.get_bind
    exact substituteMember_keeps ht hg' (hx sub rfl) (ht.types.keys hg'.hasKey).container

theorem eraseSignature_keeps (hs : s.Sound) {m : MemberId} (hm : s.types.HasMember m) :
    Keeps (eraseSignature m) s fun e t => t.types.HasMember e := by
  have hadmits := hs.types.keys hm.hasKey
  unfold eraseSignature
  apply Keeps.get_bind
  apply (Keeps.mapTypesM (R := fun _ r (t : Canonicalizer) => t.types.pool.Has r)
    (fun _ _ _ _ htu hr => hr.of_le htu.le.1) hs _).bind
  · intro kind t hst ht hkind
    apply (canonicalize_keeps ht (hadmits.container.of_le hst.le.1)).bind
    intro container u htu hu hcontainer
    have hsu := hst.trans htu
    split
    · exact .pure hu (hm.of_le hsu.le)
    · have htypes : ∀ ty ∈ kind.types, u.types.pool.Has ty := by
        intro ty hty
        obtain ⟨_, -, hhas⟩ := exists_of_forall₂_right hkind.types hty
        exact hhas.of_le htu.le.1
      have hadmits' := admitsKey_withoutTypeParams hsu.le hadmits hkind htypes
        hcontainer.normal.has
      exact (lift_keeps hu (TypeSystem.deriveMember_computes hu.types (hm.hasKey.of_le hsu.le)
        hadmits').toKeeps).mono fun _ _ _ _ he => he.hasMember
  · intro ty hty t hst ht
    exact (canonicalize_keeps ht ((hadmits.types ty hty).of_le hst.le.1)).mono
      fun _ _ _ _ hr => hr.normal.has

theorem canonicalizeRaw_keeps (hs : s.Sound) {m : MemberId} {container : TypeId}
    (hm : s.types.HasMember m) (hcontainer : s.types.pool.Has container) :
    Keeps (canonicalizeRaw m container) s fun e t => t.types.HasMember e := by
  unfold canonicalizeRaw
  apply Keeps.get_bind
  split
  case h_1 c _ =>
    apply (classErasure_keeps hs c).bind
    intro x t hst ht hx
    have hm' := hm.of_le hst.le
    cases x with
    | none => exact eraseSignature_keeps ht hm'
    | some sub =>
      apply (substituteMember_keeps ht hm' (hx sub rfl) (hcontainer.of_le hst.le.1)).bind
      intro n u _ hu hn
      exact eraseSignature_keeps hu hn
  case h_2 => exact eraseSignature_keeps hs hm

section Explaining

variable {subst : SubstId} {container : TypeId} {erased : MemberId}

theorem explains_keeps (hs : s.Sound) (hsubst : ∃ bs, s.types.pool.HasBindings subst bs)
    (hcontainer : s.types.pool.Has container) {decl : MemberId} (hdecl : s.types.HasMember decl) :
    Keeps (explains subst container erased decl) s fun _ _ => True := by
  unfold explains
  apply (substituteMember_keeps hs hdecl hsubst hcontainer).bind
  intro image t _ ht himage
  apply (eraseOwnTypeParams_keeps ht himage).bind
  intro _ u _ hu _
  exact .pure hu trivial

theorem firstExplaining_keeps (hs : s.Sound) (hsubst : ∃ bs, s.types.pool.HasBindings subst bs)
    (hcontainer : s.types.pool.Has container) {decls : List MemberId}
    (hdecls : ∀ decl ∈ decls, s.types.HasMember decl) :
    Keeps (firstExplaining subst container erased decls) s fun o _ => ∀ decl ∈ o, decl ∈ decls := by
  induction decls generalizing s with
  | nil => exact .pure hs nofun
  | cons decl rest ih =>
    unfold firstExplaining
    apply (explains_keeps hs hsubst hcontainer (hdecls decl List.mem_cons_self)).bind
    intro found t hst ht _
    split
    · exact .pure ht fun _ h => Option.some.inj h ▸ List.mem_cons_self
    · have hrest : ∀ decl ∈ rest, t.types.HasMember decl := fun decl hdecl =>
        (hdecls decl (List.mem_cons_of_mem _ hdecl)).of_le hst.le
      exact (ih ht (hsubst.imp fun _ hbs => hbs.of_le hst.le.1) (hcontainer.of_le hst.le.1)
        hrest).mono fun _ _ _ _ h decl hdecl => List.mem_cons_of_mem _ (h decl hdecl)

end Explaining

theorem findDeclared_keeps (hs : s.Sound) {container : TypeId}
    (hcontainer : s.types.pool.Has container) (m erased : MemberId) (base : ClassId) :
    Keeps (findDeclared m erased container base) s fun o t => ∀ decl ∈ o, t.types.HasMember decl := by
  unfold findDeclared
  apply (lift_keeps hs (TypeSystem.fullSubst_computes hs.types hcontainer).toKeeps).bind
  intro subst t hst ht hsubst
  apply Keeps.get_bind
  dsimp only
  have hcandidates : ∀ decl ∈ if (t.types.member m).decl ∈ (t.types.classDef base).members then
      (t.types.member m).decl :: (t.types.classDef base).members
      else (t.types.classDef base).members, t.types.HasMember decl := fun _ hdecl =>
    ht.types.hasMember_of_declared (mem_linked_first_iff.mp hdecl)
  apply (firstExplaining_keeps ht ⟨_, hsubst⟩ (hcontainer.of_le hst.le.1) hcandidates).mono
  intro o u htu _ ho decl hdecl
  exact (hcandidates decl (ho decl hdecl)).of_le htu.le

theorem canonicalizeDeclared_keeps (hs : s.Sound) {m : MemberId} (hm : s.types.HasMember m) :
    Keeps (canonicalizeDeclared m) s fun r t => t.types.HasMember r := by
  unfold canonicalizeDeclared
  apply Keeps.get_bind
  split
  case h_1 hfind => exact .pure hs (hs.members hfind)
  case h_2 =>
    apply (eraseOwnTypeParams_keeps hs hm).bind
    intro erased t hst ht herased
    apply (canonicalizeRaw_keeps ht herased
      ((hs.types.keys hm.hasKey).container.of_le hst.le.1)).bind
    intro r u _ hu hr
    apply (modifyMemo_keeps (P := (·.HasMember r)) (hu.rememberedMember m hr) hr).bind
    intro _ v _ hv hr
    exact .pure hv hr

theorem reconcile_keeps (hs : s.Sound) {m : MemberId} (hm : s.types.HasMember m)
    {container : TypeId} (hcontainer : s.types.pool.Has container) (base : ClassId) :
    Keeps (reconcile m container base) s fun x t => ∀ r, x = .ok r → t.types.HasMember r := by
  unfold reconcile
  apply (eraseOwnTypeParams_keeps hs hm).bind
  intro erased t hst ht _
  apply (findDeclared_keeps ht (hcontainer.of_le hst.le.1) m erased base).bind
  intro o u _ hu ho
  cases o with
  | none => exact Keeps.get_bind (.pure hu nofun)
  | some decl =>
    apply (canonicalizeDeclared_keeps hu (ho decl rfl)).map
    rintro r v - hr _ ⟨⟩
    exact hr

/-- A canonical member is there, if one is found. -/
theorem canonicalizeMember_keeps (hs : s.Sound) {m : MemberId} (hm : s.types.HasMember m) :
    Keeps (canonicalizeMember m).run s fun x t => ∀ r, x = .ok r → t.types.HasMember r := by
  cases memberRun m s with
  | remembered hfind hrun =>
    exact .congr hrun (.pure hs fun _ h => Except.ok.inj h ▸ hs.members hfind)
  | plain _ hrun =>
    apply Keeps.congr hrun
    apply (canonicalizeDeclared_keeps hs hm).map
    rintro r t - hr _ ⟨⟩
    exact hr
  | reconciled _ _ hrun =>
    apply Keeps.congr hrun
    apply (reconcile_keeps hs hm (hs.types.keys hm.hasKey).container _).bind
    rintro (e | r) t _ ht hr
    · exact .pure ht nofun
    · have hr := hr r rfl
      apply (modifyMemo_keeps (P := (·.HasMember r)) (ht.rememberedMember m hr) hr).bind
      intro _ u _ hu hr
      exact .pure hu fun _ h => Except.ok.inj h ▸ hr

end Sound

end Erasure.Canonicalizer
