/-
Reconciling members.

The canonical form of a declared member is remembered with the member. An instance seen in an
instantiation is explained by a declared member, and gets its canonical form, or it is explained by
none, and nothing is remembered of it. The main statements:

* `memberRun`: the three ways in which canonicalizing a member runs (`MemberRun`). What is proved of
  `canonicalizeMember` is proved by these cases.
* `findDeclared_keeps`: the answer explains the instance; without an answer no declared member does.
* `canonicalizeDeclared_keeps`: the canonical form of a declared member is remembered.
* `canonicalizeMember_keeps`: either a canonical form is remembered, or no declared member explains
  the instance (`Outcome`).
-/
import Erasure.Proofs.Canonical.Members

namespace Erasure.Canonicalizer

variable {s t : Canonicalizer}

/-! ### What is left alone -/

theorem mapTypesM_leaves {σ γ : Type} {part : σ → γ} {f : TypeId → StateM σ TypeId}
    (h : ∀ ty, Leaves part (f ty)) (k : MemberKind) : Leaves part (k.mapTypesM f) := by
  cases k with
  | method name formals result params =>
    exact (Leaves.mapM formals h).bind fun _ => (h result).bind fun _ => .pure _
  | constructor formals params => exact (Leaves.mapM formals h).bind fun _ => .pure _
  | field name type => exact (h type).bind fun _ => .pure _
  | initializer => exact .pure _

section Leaves

variable {γ : Type} {part : CanonicalMemo → γ} (houters : ∀ m outers, part { m with outers } = part m)
  (htypes : ∀ m types, part { m with types } = part m)
include houters htypes

theorem eraseSignature_leaves (m : MemberId) :
    Leaves (fun s => part s.memo) (eraseSignature m) := by
  have hcanonical := canonicalize_leaves houters htypes
  unfold eraseSignature
  refine .get_bind fun s => (mapTypesM_leaves hcanonical _).bind fun kind => ?_
  refine (hcanonical _).bind fun container => ?_
  split
  · exact .pure _
  · exact lift_leaves _

variable (hmemberSubsts : ∀ m memberSubsts, part { m with memberSubsts } = part m)
include hmemberSubsts

theorem memberErasure_leaves (m : MemberId) :
    Leaves (fun s => part s.memo) (memberErasure m) := by
  have hremember : ∀ x, Leaves (fun s => part s.memo)
      (modifyMemo fun memo => { memo with memberSubsts := memo.memberSubsts.insert m x }) :=
    fun x => modifyMemo_leaves fun memo => hmemberSubsts memo _
  unfold memberErasure
  refine .get_bind fun s => ?_
  split
  · exact .pure _
  · dsimp only
    split
    · exact (hremember none).bind fun _ => .pure _
    · exact (erasingSubst_leaves houters htypes _).map.bind fun x =>
        (hremember x).bind fun _ => .pure _

theorem eraseOwnTypeParams_leaves (m : MemberId) :
    Leaves (fun s => part s.memo) (eraseOwnTypeParams m) := by
  unfold eraseOwnTypeParams
  refine .get_bind fun s =>
    (memberErasure_leaves houters htypes hmemberSubsts _).bind fun x => ?_
  cases x with
  | none => exact .pure _
  | some sub => exact .get_bind fun t => lift_leaves _

theorem explains_leaves (subst : SubstId) (container : TypeId) (erased decl : MemberId) :
    Leaves (fun s => part s.memo) (explains subst container erased decl) := by
  unfold explains
  exact (lift_leaves _).bind fun image =>
    (eraseOwnTypeParams_leaves houters htypes hmemberSubsts image).bind fun _ => .pure _

theorem firstExplaining_leaves (subst : SubstId) (container : TypeId) (erased : MemberId)
    (decls : List MemberId) :
    Leaves (fun s => part s.memo) (firstExplaining subst container erased decls) := by
  induction decls with
  | nil => exact .pure _
  | cons decl rest ih =>
    unfold firstExplaining
    refine (explains_leaves houters htypes hmemberSubsts subst container erased decl).bind ?_
    rintro (_ | _)
    · exact ih
    · exact .pure _

/-- A search for a declared member touches the memos of types, enclosing instances and type
parameters of members only. -/
theorem findDeclared_leaves (m erased : MemberId) (container : TypeId) (base : ClassId) :
    Leaves (fun s => part s.memo) (findDeclared m erased container base) := by
  unfold findDeclared
  exact (lift_leaves _).bind fun subst => .get_bind fun s =>
    firstExplaining_leaves houters htypes hmemberSubsts subst container erased _

end Leaves

/-- The part of the state that remembers canonical members. -/
def canonicalMembers (s : Canonicalizer) : Memo MemberId MemberId := s.memo.members

theorem eraseOwnTypeParams_leaves_members (m : MemberId) :
    Leaves canonicalMembers (eraseOwnTypeParams m) :=
  @eraseOwnTypeParams_leaves _ (·.members) (fun _ _ => rfl) (fun _ _ => rfl) (fun _ _ => rfl) m

theorem eraseSignature_leaves_members (m : MemberId) :
    Leaves canonicalMembers (eraseSignature m) :=
  @eraseSignature_leaves _ (·.members) (fun _ _ => rfl) (fun _ _ => rfl) m

theorem findDeclared_leaves_members (m erased : MemberId) (container : TypeId) (base : ClassId) :
    Leaves canonicalMembers (findDeclared m erased container base) :=
  @findDeclared_leaves _ (·.members) (fun _ _ => rfl) (fun _ _ => rfl) (fun _ _ => rfl) m erased
    container base

theorem classErasure_leaves_members (c : ClassId) : Leaves canonicalMembers (classErasure c) := by
  have hremember : ∀ x, Leaves canonicalMembers
      (modifyMemo fun memo => { memo with classSubsts := memo.classSubsts.insert c x }) :=
    fun x s => rfl
  have herasing : ∀ vs, Leaves canonicalMembers (erasingSubst vs) :=
    @erasingSubst_leaves _ (·.members) (fun _ _ => rfl) (fun _ _ => rfl)
  unfold classErasure
  refine .get_bind fun s => ?_
  split
  · exact .pure _
  · dsimp only
    split
    · exact (herasing _).map.bind fun x => (hremember x).bind fun _ => .pure _
    · exact (hremember none).bind fun _ => .pure _

theorem canonicalizeRaw_leaves_members (erased : MemberId) (container : TypeId) :
    Leaves canonicalMembers (canonicalizeRaw erased container) := by
  have hlift : ∀ {α : Type} (act : StateM TypeSystem α),
      Leaves canonicalMembers (liftM act : CanonicalM α) := fun _ _ => rfl
  unfold canonicalizeRaw
  refine .get_bind fun s => ?_
  split
  · refine (classErasure_leaves_members _).bind fun x => ?_
    cases x with
    | none => exact eraseSignature_leaves_members erased
    | some sub => exact (hlift _).bind fun n => eraseSignature_leaves_members n
  · exact eraseSignature_leaves_members erased

/-! ### The ways in which a member is made canonical -/

/-- The canonical form of a member that is seen in no instantiation, to be remembered. -/
def eraseDeclared (m : MemberId) (container : TypeId) : CanonicalM MemberId := do
  canonicalizeRaw (← eraseOwnTypeParams m) container

theorem canonicalizeDeclared_eq (m : MemberId) (s : Canonicalizer) :
    canonicalizeDeclared m s = match s.memo.members.find? m with
      | some c => (c, s)
      | none => (eraseDeclared m (s.types.member m).container >>= fun c =>
          rememberMember m c *> pure c) s := by
  unfold canonicalizeDeclared
  rw [get_bind_apply]
  cases s.memo.members.find? m <;> rfl

/-- Remembers a canonical form, but no error. -/
def rememberIfOk (m : MemberId) (x : Except CanonError MemberId) (memo : CanonicalMemo) :
    CanonicalMemo :=
  match x with
  | .ok c => { memo with members := (memo.members.insert m c).insert c c }
  | .error _ => memo

/-- The canonical form of an instance seen in an instantiation of `base`, to be remembered. -/
def reconcile (m : MemberId) (container : TypeId) (base : ClassId) :
    CanonicalM (Except CanonError MemberId) := do
  match ← findDeclared m (← eraseOwnTypeParams m) container base with
  | some decl => .ok <$> canonicalizeDeclared decl
  | none => do
    let ts := (← get).types
    return .error (.unreconcilable (ts.displayMember m) (ts.display container))

/-- A remembered canonical form is answered again. -/
theorem run_canonicalizeMember_of_find? {m c : MemberId} (h : s.memo.members.find? m = some c) :
    (canonicalizeMember m).run s = (.ok c, s) := by
  unfold canonicalizeMember
  rw [run_get_bind_apply, h]
  rfl

/-- Outside instantiations every member is treated as if it were declared. -/
theorem run_canonicalizeMember_of_not_inst {m : MemberId}
    (h : ∀ base sub outer, s.types.kind (s.types.member m).container ≠ .inst base sub outer) :
    (canonicalizeMember m).run s
      = (Except.ok <$> canonicalizeDeclared m : CanonicalM (Except CanonError MemberId)) s := by
  rw [map_apply, canonicalizeDeclared_eq]
  unfold canonicalizeMember
  rw [run_get_bind_apply]
  cases s.memo.members.find? m with
  | some c => rfl
  | none =>
    dsimp only
    rw [run_lift_bind_apply]
    cases hk : s.types.kind (s.types.member m).container with
    | inst base sub outer => exact absurd hk (h base sub outer)
    | prim _ | null | array _ | raw _ | var _ | lub _ => rfl

/-- An instance seen in an instantiation is reconciled, unless it was before. -/
theorem run_canonicalizeMember_of_inst {m : MemberId} {base : ClassId} {sub : SubstId}
    {outer : Option TypeId} (hmiss : s.memo.members.find? m = none)
    (hk : s.types.kind (s.types.member m).container = .inst base sub outer) :
    (canonicalizeMember m).run s = (reconcile m (s.types.member m).container base >>= fun x =>
      modifyMemo (rememberIfOk m x) *> pure x) s := by
  unfold canonicalizeMember
  rw [run_get_bind_apply, hmiss]
  dsimp only
  rw [run_lift_bind_apply, hk]
  dsimp only
  rw [run_lift_bind_apply]
  unfold reconcile
  rw [bind_apply, bind_apply, bind_apply]
  generalize findDeclared m _ _ base _ = found
  obtain ⟨_ | decl, t⟩ := found
  · rfl
  · dsimp only
    rw [run_lift_bind_apply, map_apply]
    rfl

/-- How canonicalizing a member runs: it answers what is remembered, it treats the member as a declared
one, or it reconciles an instance. -/
inductive MemberRun (m : MemberId) (s : Canonicalizer) : Prop
  | remembered {c : MemberId} : s.memo.members.find? m = some c →
      (canonicalizeMember m).run s = (.ok c, s) → MemberRun m s
  | plain : (∀ base sub outer,
        s.types.kind (s.types.member m).container ≠ .inst base sub outer) →
      (canonicalizeMember m).run s
        = (Except.ok <$> canonicalizeDeclared m : CanonicalM (Except CanonError MemberId)) s →
      MemberRun m s
  | reconciled {base : ClassId} {sub : SubstId} {outer : Option TypeId} :
      s.memo.members.find? m = none →
      s.types.kind (s.types.member m).container = .inst base sub outer →
      (canonicalizeMember m).run s = (reconcile m (s.types.member m).container base >>= fun x =>
        modifyMemo (rememberIfOk m x) *> pure x) s → MemberRun m s

theorem memberRun (m : MemberId) (s : Canonicalizer) : MemberRun m s := by
  cases hfind : s.memo.members.find? m with
  | some c => exact .remembered hfind (run_canonicalizeMember_of_find? hfind)
  | none =>
    cases hk : s.types.kind (s.types.member m).container with
    | inst base sub outer =>
      exact .reconciled hfind hk (run_canonicalizeMember_of_inst hfind hk)
    | prim _ | null | array _ | raw _ | var _ | lub _ =>
      have hcontainer : ∀ base sub outer,
          s.types.kind (s.types.member m).container ≠ .inst base sub outer := hk ▸ nofun
      exact .plain hcontainer (run_canonicalizeMember_of_not_inst hcontainer)

/-- A declared member is seen in no instantiation. -/
theorem not_inst_of_declared {ts : TypeSystem} (hts : ts.Valid) {base : ClassId} {decl : MemberId}
    (h : decl ∈ (ts.classDef base).members) :
    ∀ b sub outer, ts.kind (ts.member decl).container ≠ .inst b sub outer := by
  intro b sub outer hk
  obtain ⟨k, hkey, hraw, -⟩ := (hts.classes base).members decl h
  obtain rfl := hkey.member_eq
  exact nomatch hraw.kind_eq.symm.trans hk

/-! ### The declared member -/

section Explaining

variable {subst : SubstId} {container : TypeId} {erased : MemberId}

theorem explains_computes (hs : s.Valid) (hacyclic : s.types.Acyclic) {bs : Bindings}
    (hsubst : s.types.pool.HasBindings subst bs) (hcontainer : s.types.pool.Has container)
    {decl : MemberId} (hdecl : s.types.HasMember decl) :
    Computes (explains subst container erased decl) s fun b t =>
      ∃ e, t.ErasedImage subst container decl e ∧ b = decide (e = erased) := by
  unfold explains
  refine (lift_computes hs (TypeSystem.substituteMember_computes hs.types hdecl.hasKey hsubst
    hcontainer)).with_answers.bind fun image t hst ht himage => ?_
  obtain ⟨⟨kind, -, hkey⟩, himage⟩ := himage
  refine (eraseOwnTypeParams_computes ht (acyclic_of_grows hs hst hacyclic)
    hkey.hasMember).with_answers.bind fun e u htu hu he => ?_
  exact Computes.pure hu ⟨e, ⟨image, himage.of_le htu.le, he.2⟩, rfl⟩

/-- The answer explains the instance, and no member before it does. If there is none, no member
does. -/
theorem firstExplaining_computes (hs : s.Valid) (hacyclic : s.types.Acyclic) {bs : Bindings}
    (hsubst : s.types.pool.HasBindings subst bs) (hcontainer : s.types.pool.Has container)
    {decls : List MemberId} (hdecls : ∀ decl ∈ decls, s.types.HasMember decl) :
    Computes (firstExplaining subst container erased decls) s fun o t =>
      (∀ decl ∈ o, ∃ before after, decls = before ++ decl :: after ∧
        t.ErasedImage subst container decl erased ∧
        ∀ d ∈ before, ∃ e, t.ErasedImage subst container d e ∧ e ≠ erased) ∧
      (o = none → ∀ decl ∈ decls, ∃ e, t.ErasedImage subst container decl e ∧ e ≠ erased) := by
  induction decls generalizing s with
  | nil => exact Computes.pure hs ⟨nofun, fun _ _ h => absurd h List.not_mem_nil⟩
  | cons decl rest ih =>
    unfold firstExplaining
    refine (explains_computes hs hacyclic hsubst hcontainer
      (hdecls decl List.mem_cons_self)).bind fun b t hst ht hb => ?_
    obtain ⟨e, he, rfl⟩ := hb
    by_cases hsame : e = erased
    · subst hsame
      rw [decide_eq_true rfl]
      refine Computes.pure ht ⟨fun d hd => ?_, nofun⟩
      obtain rfl := Option.some.inj hd
      exact ⟨[], rest, rfl, he, fun _ h => absurd h List.not_mem_nil⟩
    · rw [decide_eq_false hsame]
      refine (ih ht (acyclic_of_grows hs hst hacyclic) (hsubst.of_le hst.le.1.1)
        (hcontainer.of_le hst.le.1.1) fun d hd =>
          (hdecls d (List.mem_cons_of_mem _ hd)).of_le hst.le.1).mono fun o u htu _ ho => ?_
      have hfirst : ∃ e, u.ErasedImage subst container decl e ∧ e ≠ erased :=
        ⟨e, he.of_le htu.le, hsame⟩
      constructor
      · intro d hd
        obtain ⟨before, after, hrest, himage, hbefore⟩ := ho.1 d hd
        exact ⟨decl :: before, after, congrArg (decl :: ·) hrest, himage,
          List.forall_mem_cons.mpr ⟨hfirst, hbefore⟩⟩
      · exact fun hnone => List.forall_mem_cons.mpr ⟨hfirst, ho.2 hnone⟩

end Explaining

/-- What a search for a declared member says about the members of the class. -/
structure Search (t : Canonicalizer) (base : ClassId) (container : TypeId) (erased : MemberId)
    (o : Option MemberId) : Prop where
  found : ∀ decl ∈ o, decl ∈ (t.types.classDef base).members ∧ ∃ subst,
    Answers (liftM (Pool.fullSubst container : StateM Pool SubstId) : CanonicalM SubstId) subst t ∧
    t.ErasedImage subst container decl erased
  missed : o = none → ∀ decl ∈ (t.types.classDef base).members, ∃ subst e,
    Answers (liftM (Pool.fullSubst container : StateM Pool SubstId) : CanonicalM SubstId) subst t ∧
    t.ErasedImage subst container decl e ∧ e ≠ erased

theorem lift_fullSubst_computes (hs : s.Valid) {container : TypeId}
    (hcontainer : s.types.pool.Has container) :
    Computes (liftM (Pool.fullSubst container : StateM Pool SubstId) : CanonicalM SubstId) s
      fun subst t => ∃ bs, t.types.pool.HasBindings subst bs :=
  (lift_computes hs (TypeSystem.fullSubst_computes hs.types hcontainer)).mono
    fun _ _ _ _ h => ⟨_, h⟩

/-- The declaration that the instance is linked to is a member like the others. -/
theorem mem_linked_first_iff {decls : List MemberId} {linked decl : MemberId} :
    decl ∈ (if linked ∈ decls then linked :: decls else decls) ↔ decl ∈ decls := by
  split
  case isTrue h =>
    rw [List.mem_cons]
    exact ⟨fun hd => hd.elim (fun heq => heq ▸ h) id, Or.inr⟩
  case isFalse => rfl

/-- The answer explains the instance, and without an answer no declared member does. -/
theorem findDeclared_keeps (hs : s.Valid) (hacyclic : s.types.Acyclic) {container : TypeId}
    (hcontainer : s.types.pool.Has container) (m erased : MemberId) (base : ClassId) :
    Keeps (findDeclared m erased container base) s fun o t => t.Search base container erased o := by
  unfold findDeclared
  refine (lift_fullSubst_computes hs hcontainer).with_answers.toKeeps.bind ?_
  rintro subst t hst ht ⟨⟨bs, hsubst⟩, hanswers⟩
  refine Keeps.get_bind ?_
  have hdecls : ∀ decl ∈ (if (t.types.member m).decl ∈ (t.types.classDef base).members then
      (t.types.member m).decl :: (t.types.classDef base).members else
      (t.types.classDef base).members), t.types.HasMember decl := fun decl hdecl =>
    ht.types.hasMember_of_declared (mem_linked_first_iff.mp hdecl)
  refine (firstExplaining_computes ht (acyclic_of_grows hs hst hacyclic) hsubst
    (hcontainer.of_le hst.le.1.1) hdecls).toKeeps.mono fun o u htu _ ho => ?_
  have hclass : u.types.classDef base = t.types.classDef base :=
    (Extends.types htu).classDef_eq base
  have hanswers' := hanswers.of_le htu.le
  constructor
  case found =>
    intro decl hdecl
    obtain ⟨before, after, hdecls, himage, -⟩ := ho.1 decl hdecl
    have hmem := mem_linked_first_iff.mp
      (hdecls ▸ List.mem_append_right before (List.mem_cons_self (l := after)))
    exact ⟨hclass ▸ hmem, subst, hanswers', himage⟩
  case missed =>
    intro hnone decl hdecl
    obtain ⟨e, he, hne⟩ := ho.2 hnone decl (mem_linked_first_iff.mpr (hclass ▸ hdecl))
    exact ⟨subst, e, hanswers', he, hne⟩

/-! ### Remembering -/

/-- Whatever is newly remembered of members is the canonical member `c`. -/
def NewMembers (s t : Canonicalizer) (c : MemberId) : Prop :=
  ∀ m b, t.memo.members.find? m = some b → s.memo.members.find? m = some b ∨ b = c

theorem rememberMember_keeps (hs : s.Valid) {m c : MemberId} (hentry : s.ReconciledEntry m c)
    (hold : ∀ b, s.memo.members.find? m = some b → b = c) :
    Keeps (rememberMember m c) s fun _ t =>
      t.memo.members.find? m = some c ∧ NewMembers s t c := by
  let t : Canonicalizer :=
    { s with memo := { s.memo with members := (s.memo.members.insert m c).insert c c } }
  have hle : s ≤ t := ⟨le_refl _, le_refl _,
    Memo.le_insert_both hold fun b hb => (hs.members hb).self hentry.settled, le_refl _, le_refl _⟩
  have htypes : t.types.Valid := hs.types
  have hentry' : t.ReconciledEntry m c := hentry.of_le hs.types htypes hle
  have hself : t.ReconciledEntry c c := by
    -- a canonical member is seen in no instantiation
    exact ⟨hentry'.settled.hasMember, hentry'.settled, fun _ => rfl,
      fun _ => Or.inl hentry'.settled, fun hk => absurd hk hentry'.settled.container.not_inst⟩
  refine ⟨⟨hle, .refl _, fun hM => ⟨hM.le, hM.erases⟩⟩, ?_,
    Memo.find?_insert_both .., ?_⟩
  · refine hs.extend hle htypes Or.inl Or.inl Or.inl Or.inl fun h => ?_
    rcases Memo.find?_insert_both_cases h with h | ⟨rfl | rfl, rfl⟩
    · exact Or.inl h
    · exact Or.inr hentry'
    · exact Or.inr hself
  · exact fun n b hb => (Memo.find?_insert_both_cases hb).imp_right And.right

/-! ### Canonical members -/

/-- The canonical form of an instance that is seen in no instantiation may be remembered. -/
theorem canonicalizeRaw_keeps (hs : s.Valid) (hacyclic : s.types.Acyclic) {m erased : MemberId}
    (hm : s.types.HasMember m) (herased : s.OwnErased m erased)
    (hcontainer : ∀ base sub outer, s.types.kind (s.types.member m).container ≠
      .inst base sub outer) :
    Keeps (canonicalizeRaw erased (s.types.member m).container) s fun c t =>
      t.ReconciledEntry m c ∧ t.canonicalMembers = s.canonicalMembers := by
  have hhas := (hs.types.keys hm.hasKey).container
  have hown := herased.hasMember hm
  refine ((canonicalizeRaw_computes hs hacyclic hown hhas).toKeeps.with_leaves
    (canonicalizeRaw_leaves_members erased _)).mono ?_
  rintro c t hst ht ⟨hraw, hsame⟩
  have hmember := TypeSystem.member_of_le hst.le.1 hm
  have herased' := herased.of_le hst.le hs.types hm
  have hm' := hm.of_le hst.le.1
  rw [← hmember] at hraw
  constructor
  · constructor
    case has => exact hm'
    case settled =>
      exact hraw.settled ht (herased'.noGenericParams ht hm')
    case self =>
      intro hself
      obtain rfl := herased'.eq_of_settled hself
      exact hraw.eq_of_settled ht hself
    case erased =>
      intro d hk
      rcases hraw with ⟨d', e, hk', hclass, hsignature⟩ | ⟨hne, -⟩
      · cases hk.unique hk'
        exact Or.inr ⟨erased, e, herased', hclass, hsignature⟩
      · exact absurd hk (hne d)
    case explained =>
      intro base sub outer hk
      rw [hmember] at hk
      exact absurd ((TypeSystem.kind_of_le hst.le.1 hhas).symm.trans hk.kind_eq)
        (hcontainer base sub outer)
  · exact hsame

/-- The canonical form of a member that is seen in no instantiation is remembered. -/
theorem canonicalizeDeclared_keeps (hs : s.Valid) (hacyclic : s.types.Acyclic) {m : MemberId}
    (hm : s.types.HasMember m)
    (hcontainer : ∀ base sub outer, s.types.kind (s.types.member m).container ≠
      .inst base sub outer) :
    Keeps (canonicalizeDeclared m) s fun c t =>
      t.memo.members.find? m = some c ∧ NewMembers s t c := by
  unfold canonicalizeDeclared
  refine Keeps.get_bind ?_
  cases hfind : s.memo.members.find? m with
  | some c => exact Keeps.pure hs ⟨hfind, fun _ _ h => Or.inl h⟩
  | none =>
    refine ((eraseOwnTypeParams_computes hs hacyclic hm).toKeeps.with_leaves
      (eraseOwnTypeParams_leaves_members m)).bind ?_
    rintro erased t hst ht ⟨herased, hsame⟩
    have hmember := TypeSystem.member_of_le hst.le.1 hm
    have hcanonical := canonicalizeRaw_keeps ht (acyclic_of_grows hs hst hacyclic)
      (hm.of_le hst.le.1) herased fun base sub outer => by
        rw [hmember, TypeSystem.kind_of_le hst.le.1 (hs.types.keys hm.hasKey).container]
        exact hcontainer base sub outer
    rw [hmember] at hcanonical
    refine hcanonical.bind ?_
    rintro c u htu hu ⟨hentry, hsame'⟩
    have hmembers : u.memo.members = s.memo.members := hsame'.trans hsame
    refine (rememberMember_keeps hu hentry fun b hb => ?_).bind fun _ v _ hv hc => Keeps.pure hv ?_
    · rw [hmembers, hfind] at hb
      cases hb
    · exact hc.imp_right fun hnew n b hb => hmembers ▸ hnew n b hb

/-- What is remembered of an instance that is explained by a declared member. -/
theorem ReconciledEntry.of_explained (hs : s.Valid) {m c decl : MemberId} {base : ClassId}
    {sub : SubstId} {outer : Option TypeId} (hm : s.types.HasMember m)
    (hkind : s.types.pool.HasKind (s.types.member m).container (.inst base sub outer))
    (hdecl : decl ∈ (s.types.classDef base).members) (hc : s.memo.members.find? decl = some c)
    (hexplains : s.Explains (s.types.member m).container m decl) : s.ReconciledEntry m c where
  has := hm
  settled := (hs.members hc).settled
  -- an instance that is seen in an instantiation is not settled
  self hself := absurd hkind hself.container.not_inst
  erased hk := nomatch hkind.unique hk
  explained hk := by
    cases hkind.unique hk
    exact ⟨decl, hdecl, hc, hexplains⟩

/-- The outcomes of canonicalizing a member. -/
inductive Outcome (m : MemberId) : Except CanonError MemberId → Canonicalizer → Prop
  | canonical {c : MemberId} {t : Canonicalizer} : t.memo.members.find? m = some c →
      Outcome m (.ok c) t
  | unexplained {t : Canonicalizer} {base : ClassId} {sub : SubstId} {outer : Option TypeId}
      {erased : MemberId} :
      t.types.pool.HasKind (t.types.member m).container (.inst base sub outer) →
      Answers (eraseOwnTypeParams m) erased t →
      t.Search base (t.types.member m).container erased none →
      Outcome m (.error (.unreconcilable (t.types.displayMember m)
        (t.types.display (t.types.member m).container))) t

/-- Reconciling gives what may be remembered, or no declared member explains the instance. -/
theorem reconcile_keeps (hs : s.Valid) (hacyclic : s.types.Acyclic) {m : MemberId} {base : ClassId}
    {sub : SubstId} {outer : Option TypeId} (hm : s.types.HasMember m)
    (hkind : s.types.pool.HasKind (s.types.member m).container (.inst base sub outer))
    (hmiss : s.memo.members.find? m = none) :
    Keeps (reconcile m (s.types.member m).container base) s fun x t =>
      (∀ c, x = .ok c → t.ReconciledEntry m c ∧ ∀ b, t.memo.members.find? m = some b → b = c) ∧
      ∀ e, x = .error e → Outcome m x t := by
  unfold reconcile
  refine ((eraseOwnTypeParams_computes hs hacyclic hm).with_answers.toKeeps.with_leaves
    (eraseOwnTypeParams_leaves_members m)).bind ?_
  rintro erased t hst ht ⟨⟨-, hanswers⟩, hsame⟩
  refine ((findDeclared_keeps ht (acyclic_of_grows hs hst hacyclic) (hkind.has.of_le hst.le.1.1) m
    erased base).with_leaves (findDeclared_leaves_members m erased _ base)).bind ?_
  rintro o u htu hu ⟨hsearch, hsame'⟩
  have hmembers : u.memo.members = s.memo.members := hsame'.trans hsame
  have hsu := hst.trans htu
  have hm' := hm.of_le hsu.le.1
  have hmember : u.types.member m = s.types.member m := TypeSystem.member_of_le hsu.le.1 hm
  have hkind' := hkind.of_le hsu.le.1.1
  rw [← hmember] at hsearch hkind' ⊢
  cases o with
  | none =>
    refine Keeps.get_bind (Keeps.pure hu ⟨nofun, ?_⟩)
    exact fun _ _ => .unexplained hkind' (hanswers.of_le htu.le) hsearch
  | some decl =>
    obtain ⟨hdecl, subst, hsubst, himage⟩ := hsearch.found decl rfl
    dsimp only
    rw [map_eq_pure_bind]
    refine (canonicalizeDeclared_keeps hu (acyclic_of_grows hs hsu hacyclic)
      (hu.types.hasMember_of_declared hdecl) (not_inst_of_declared hu.types hdecl)).bind ?_
    rintro c v huv hv ⟨hc, hnew⟩
    refine Keeps.pure hv ⟨?_, nofun⟩
    rintro _ ⟨⟩
    have hmember' := TypeSystem.member_of_le huv.le.1 hm'
    have hexplains : v.Explains (v.types.member m).container m decl :=
      Explains.of_le huv.le ⟨subst, erased, hmember'.symm ▸ hsubst, hmember'.symm ▸ himage,
        hanswers.of_le htu.le⟩
    refine ⟨.of_explained hv (hm'.of_le huv.le.1) (hmember'.symm ▸ hkind'.of_le huv.le.1.1)
      (TypeSystem.declared_of_le huv.le.1 hdecl) hc hexplains, fun b hb => ?_⟩
    rcases hnew m b hb with hb | hb
    · rw [hmembers, hmiss] at hb
      cases hb
    · exact hb

/-- Either a canonical form is remembered, or no declared member explains the instance. -/
theorem canonicalizeMember_keeps (hs : s.Valid) (hacyclic : s.types.Acyclic) {m : MemberId}
    (hm : s.types.HasMember m) : Keeps (canonicalizeMember m).run s (Outcome m) := by
  cases memberRun m s with
  | remembered hfind hrun => exact .congr hrun (Keeps.pure hs (.canonical hfind))
  | plain hcontainer hrun =>
    exact .congr hrun
      ((canonicalizeDeclared_keeps hs hacyclic hm hcontainer).map fun _ _ _ h => .canonical h.1)
  | reconciled hmiss hk hrun =>
    have hkind := (hs.types.keys hm.hasKey).container.hasKind_of_eq hk
    apply Keeps.congr hrun
    refine (reconcile_keeps hs hacyclic hm hkind hmiss).bind ?_
    rintro (e | c) t - ht ⟨hok, herror⟩
    · exact Keeps.pure ht (herror e rfl)
    · obtain ⟨hentry, hold⟩ := hok c rfl
      exact (rememberMember_keeps ht hentry hold).bind
        fun _ u _ hu h => Keeps.pure hu (.canonical h.1)

end Erasure.Canonicalizer
