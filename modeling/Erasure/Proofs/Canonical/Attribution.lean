/-
What images are attributed to.

A member of a class, seen in an instantiation, is linked to the declaration it was made from when
that instance is interned. Instances are told apart by signature, container, flags and generic form,
so members whose images agree in these share one image, which keeps the link that it got first. The
main statements:

* `member_internMember`: interning finds an instance that was there, or adds the given one.
* `Reachable.linksDeclared`: a declared member is linked to itself.
* `memberIn_attributed`: an image is linked to its member unless it was there before, members share an
  image if their signatures become the same, and an image is canonicalized as a member that has the
  same erased image.
* `memberIn_misattributed`: overloads that become one signature share a link.
-/
import Erasure.Proofs.Canonical.Exactness
import Erasure.Proofs.Canonical.Extension

namespace Erasure

namespace TypeSystem

variable {ts us : TypeSystem}

/-! ### Links of new instances -/

/-- Interning a member finds an instance that was there, or adds the member. -/
theorem member_internMember (x : Member) (ts : TypeSystem) :
    ts.HasMember (internMember x ts).1 ∨
      (internMember x ts).2.member (internMember x ts).1 = x := by
  cases hfind : ts.members.find? x.toMemberKey with
  | some i =>
    have hi := InternTable.find?_eq_some_iff.mp hfind
    have hsame : (internMember x ts).1 = ⟨i⟩ :=
      congrArg (fun r => MemberId.mk r.1) (InternTable.intern_of_find?_eq_some hfind)
    exact .inl (hsame ▸ HasKey.hasMember hi)
  | none =>
    obtain ⟨hindex, hentries⟩ := InternTable.intern_of_find?_eq_none hfind
    have hentry : (ts.members.intern x).2.get? (ts.members.intern x).1 = some x := by
      rw [hindex, InternTable.get?, hentries]
      exact Array.getElem?_push_size
    exact .inr (congrArg (Option.getD · default) hentry)

theorem substituteKind_leaves_members (s : SubstId) (kind : MemberKind) :
    Leaves TypeSystem.members (substituteKind s kind) := by
  unfold substituteKind
  split
  · exact .pure _
  · exact (Canonicalizer.mapTypesM_leaves (fun _ _ => rfl) kind).bind fun _ =>
      .get_bind fun _ => .pure _

/-- The image of a member is an instance that was there, or it is linked as the member is. -/
theorem decl_substituteMember {m : MemberId} (hm : ts.HasMember m) (s : SubstId)
    (container : TypeId) : let image := substituteMember m s container ts
      ts.HasMember image.1 ∨ (image.2.member image.1).decl = (ts.member m).decl := by
  unfold substituteMember
  rw [get_bind_apply, bind_apply]
  have hleaves := substituteKind_leaves_members s (ts.member m).kind ts
  generalize substituteKind s (ts.member m).kind ts = r at hleaves ⊢
  obtain ⟨kind, us⟩ := r
  have hmember : ∀ n, us.member n = ts.member n := fun n =>
    congrArg (fun members => (InternTable.get? members n.index).getD default) hleaves
  have hhas : ∀ {n}, us.HasMember n → ts.HasMember n := fun h => by rwa [HasMember, ← hleaves]
  rw [get_bind_apply]
  split
  · exact .inl hm
  · rw [deriveMember, get_bind_apply]
    refine (member_internMember _ us).imp hhas fun hnew => ?_
    rw [hnew, hmember]

/-- A member, as an instantiation sees it, is an instance that was there, or it is linked as the
member is. -/
theorem decl_memberIn {m : MemberId} (hm : ts.HasMember m) (container : TypeId) :
    let image := memberIn m container ts
    ts.HasMember image.1 ∨ (image.2.member image.1).decl = (ts.member m).decl := by
  unfold memberIn
  rw [get_bind_apply]
  cases ts.kind container with
  | inst base sub outer =>
    let us : TypeSystem := { ts with pool := (Pool.fullSubst container ts.pool).2 }
    have hm' : us.HasMember m := hm
    exact decl_substituteMember hm' (Pool.fullSubst container ts.pool).1 container
  | prim _ | null | array _ | raw _ | var _ | lub _ => exact .inl hm

/-! ### Links of declared members -/

/-- Declared members are linked to themselves. -/
def LinksDeclared (ts : TypeSystem) : Prop :=
  ∀ c, ∀ m ∈ (ts.classDef c).members, (ts.member m).decl = m

theorem LinksDeclared.of_extends (hts : ts.Valid) (hext : Extends ts us) (h : ts.LinksDeclared) :
    us.LinksDeclared := by
  intro c m hm
  rw [hext.classDef_eq] at hm
  rw [member_of_le hext.le (hts.hasMember_of_declared hm)]
  exact h c m hm

theorem mem_members_modifyClass {e c : ClassId} {f : ClassDef → ClassDef} {m : MemberId}
    (hf : ∀ d, (f d).members = d.members) (hm : m ∈ ((modifyClass e f ts).2.classDef c).members) :
    m ∈ (ts.classDef c).members := by
  rwa [members_modifyClass hf] at hm

/-- A member that is declared in addition is linked to itself. -/
theorem mem_members_declareMember {e c : ClassId} {kind : MemberKind} {flags : MemberFlags}
    {m : MemberId} (hm : m ∈ ((declareMember e kind flags ts).2.classDef c).members) :
    m ∈ (ts.classDef c).members ∨ ((declareMember e kind flags ts).2.member m).decl = m := by
  unfold declareMember at hm ⊢
  rw [bind_apply, lift_apply, get_bind_apply] at hm ⊢
  let us : TypeSystem := { ts with pool := (Pool.rawClass e ts.pool).2 }
  let key : MemberKey :=
    { kind, container := (Pool.rawClass e ts.pool).1, flags, generic := none }
  cases hfound : us.memberWithKey? key with
  | some n =>
    rw [show us.memberWithKey? _ = _ from hfound] at hm
    exact .inl hm
  | none =>
    rw [show us.memberWithKey? _ = _ from hfound] at hm
    let x : Member := { key with decl := ⟨ts.members.size⟩, origin := ⟨ts.members.size⟩ }
    let vs : TypeSystem := (adopt ⟨ts.members.size⟩ kind.typeParams us).2
    let n := (internMember x vs).1
    have hm' : m ∈ ((modifyClass e (fun d => { d with members := d.members ++ [n] })
        (internMember x vs).2).2.classDef c).members := hm
    have hfresh : vs.members.find? x.toMemberKey = none := Option.map_eq_none_iff.mp hfound
    have hindex : n = ⟨ts.members.size⟩ :=
      congrArg MemberId.mk (InternTable.intern_of_find?_eq_none hfresh).1
    have hnew : (internMember x vs).2.member n = x := by
      refine (member_internMember x vs).resolve_left fun h => ?_
      rw [show (internMember x vs).1 = _ from hindex] at h
      exact absurd h (Nat.lt_irrefl _)
    rcases classDef_modifyClass_cases e (fun d => { d with members := d.members ++ [n] })
      (internMember x vs).2 c with hsame | ⟨rfl, happend⟩
    · rw [hsame] at hm'
      exact .inl hm'
    · rw [happend] at hm'
      refine (List.mem_append.mp hm').imp_right fun h => ?_
      obtain rfl : m = n := List.mem_singleton.mp h
      exact (congrArg Member.decl hnew).trans hindex.symm

/-- A member that a declaration adds to a class is linked to itself. -/
theorem Declaration.decl_run (d : Declaration) (ts : TypeSystem) {c : ClassId} {m : MemberId}
    (hm : m ∈ ((d.run ts).2.classDef c).members) :
    m ∈ (ts.classDef c).members ∨ ((d.run ts).2.member m).decl = m := by
  cases d with
  | declareClass name flags =>
    -- a new class has no members
    refine .inl ?_
    generalize hdef : ((run (.declareClass name flags) ts).2.classDef c) = d at hm
    rcases getD_push_cases ts.classes _ default c.index with hsame | ⟨-, hnew⟩
    · rwa [hdef.symm.trans hsame] at hm
    · rw [hdef.symm.trans hnew] at hm
      exact absurd hm List.not_mem_nil
  | setSuperclass e ty =>
    exact .inl (mem_members_modifyClass (f := ({ · with superclass := some ty })) (fun _ => rfl) hm)
  | addInterface e ty =>
    exact .inl (mem_members_modifyClass
      (f := fun d => { d with interfaces := d.interfaces ++ [ty] }) (fun _ => rfl) hm)
  | setOuter e ty =>
    exact .inl (mem_members_modifyClass
      (f := fun d =>
        { d with outer := some ty, flags := { d.flags with isInner := true, isStatic := false } })
      (fun _ => rfl) hm)
  | addTypeParam e name bound =>
    have hsame : ∀ us : TypeSystem, us.classes = ts.classes → us.classDef c = ts.classDef c :=
      fun us h => congrArg (·.getD c.index default) h
    have hm' := mem_members_modifyClass (f := fun d =>
        { d with typeParams := d.typeParams ++ [(declareTypeVar name bound (.classDef e) ts).1] })
      (fun _ => rfl) hm
    exact .inl (hsame _ rfl ▸ hm')
  | addMethodTypeParam name bound | setBound v bound => exact .inl hm
  | declareMember e kind flags => exact mem_members_declareMember hm

theorem initial_linksDeclared : initial.LinksDeclared := by
  have hlinks : ∀ i < initial.classes.size, ∀ m ∈ (initial.classDef ⟨i⟩).members,
      (initial.member m).decl = m := by decide +kernel
  intro c m hm
  by_cases hlt : c.index < initial.classes.size
  · exact hlinks c.index hlt m hm
  · rw [classDef, Array.getD_eq_getD_getElem?, Array.getElem?_eq_none (Nat.le_of_not_lt hlt)] at hm
    exact absurd hm List.not_mem_nil

end TypeSystem

namespace Canonicalizer

variable {s t : Canonicalizer}

/-- In every state of a session declared members are linked to themselves. -/
theorem Reachable.linksDeclared (hs : Reachable s) : s.types.LinksDeclared := by
  have hfresh : ∀ {ts : TypeSystem}, ts.LinksDeclared → (fresh ts).types.LinksDeclared := id
  induction hs with
  | initial => exact hfresh TypeSystem.initial_linksDeclared
  | @declare s d hs hd ih =>
    have hrun := d.run_advances hs.valid.types hd
    intro c m hm
    refine (d.decl_run s.types hm).elim (fun hold => ?_) id
    have hmember := TypeSystem.member_of_le hrun.le (hs.valid.types.hasMember_of_declared hold)
    exact (congrArg Member.decl hmember).trans (ih c m hold)
  | @ask s q hs hq ih =>
    exact ih.of_extends hs.valid.types
      (Extends.types (lift_keeps hs.valid (q.run_keeps hs.valid.types hq)).grows)
  | @canonicalize s c hs hacyclic hc ih =>
    exact ih.of_extends hs.valid.types
      (Extends.types (Canonicalization.run_keeps hs.valid hacyclic hc).grows)
  | forget _ ih => exact ih

/-! ### Attribution of images -/

section Image

variable {base : ClassId} {container : TypeId} {sub : SubstId} {outer : Option TypeId}
  {m : MemberId}

/-- An image is linked to its member, unless it was there before. -/
theorem decl_memberIn (hs : s.Valid) (hlinks : s.types.LinksDeclared)
    (hm : m ∈ (s.types.classDef base).members)
    (hcontainer : s.types.pool.HasKind container (.inst base sub outer)) :
    let image := (liftM (TypeSystem.memberIn m container) : CanonicalM MemberId) s
    (image.2.types.member image.1).decl =
      if s.types.HasMember image.1 then (s.types.member image.1).decl else m := by
  have hmember := hs.types.hasMember_of_declared hm
  have hkeeps := TypeSystem.memberIn_computes hs.types hmember.hasKey hcontainer
  intro image
  split
  case isTrue hold => 
    exact congrArg Member.decl (TypeSystem.member_of_le hkeeps.grows.le hold)
  case isFalse hnew =>
    exact ((TypeSystem.decl_memberIn hmember container).resolve_left hnew).trans (hlinks base m hm)

/-- An image matches the member. -/
theorem matches_memberIn (hs : s.Valid) (hacyclic : s.types.Acyclic)
    (hm : s.types.HasMember m)
    (hcontainer : s.types.pool.HasKind container (.inst base sub outer)) :
    let image := (liftM (TypeSystem.memberIn m container) : CanonicalM MemberId) s
    ∀ t, t.Valid → Store.Grows image.2 t → t.Matches image.1 m := by
  have himage := lift_computes hs (TypeSystem.memberIn_computes hs.types hm.hasKey hcontainer)
  intro image t ht hst
  obtain ⟨kind, -, hkey⟩ := himage.post
  have hown := eraseOwnTypeParams_computes ht
    (acyclic_of_grows hs (himage.grows.trans hst) hacyclic) (hkey.hasMember.of_le hst.le.1)
  have hseen : (t.types.member image.1).container = container :=
    (hkey.of_le hst.le.1).container_eq
  have hagain : Answers (erasedImage m container) (eraseOwnTypeParams image.1 t).1
      (eraseOwnTypeParams image.1 t).2 :=
    (himage.again.of_le (le_trans hst.le hown.grows.le)).bind hown.again
  unfold Matches
  rw [hseen]
  exact congrArg Prod.fst hagain.eq

/-- Members have one image if they become the same signature, with the same flags. -/
theorem memberIn_eq_iff (hs : s.Valid) {m' : MemberId}
    (hm : m ∈ (s.types.classDef base).members) (hm' : m' ∈ (s.types.classDef base).members)
    (hcontainer : s.types.pool.HasKind container (.inst base sub outer)) :
    let image := (liftM (TypeSystem.memberIn m container) : CanonicalM MemberId) s
    ∀ t, t.Valid → Store.Grows image.2 t →
    let image' := (liftM (TypeSystem.memberIn m' container) : CanonicalM MemberId) t
    image'.1 = image.1 ↔ (s.types.member m').flags = (s.types.member m).flags ∧ ∃ kind,
      TypeSystem.SubstitutesKind image'.2.types.pool (s.types.pool.instanceBindings container)
        (s.types.member m).kind kind ∧
      TypeSystem.SubstitutesKind image'.2.types.pool (s.types.pool.instanceBindings container)
        (s.types.member m').kind kind := by
  have hhas := hs.types.hasMember_of_declared hm
  have hhas' := hs.types.hasMember_of_declared hm'
  obtain ⟨k, hk, -, hgeneric⟩ := (hs.types.classes base).members m hm
  obtain ⟨k', hk', -, hgeneric'⟩ := (hs.types.classes base).members m' hm'
  have himage := lift_computes hs (TypeSystem.memberIn_computes hs.types hk hcontainer)
  intro image t ht hst image'
  have hgrows := himage.grows.trans hst
  have himage' := lift_computes ht (TypeSystem.memberIn_computes ht.types (hk'.of_le hgrows.le.1)
    (hcontainer.of_le hgrows.le.1.1))
  obtain ⟨kind, hkind, hkey⟩ := himage.post
  obtain ⟨kind', hkind', hkey'⟩ := himage'.post
  rw [Pool.instanceBindings_of_le hs.types.pool hgrows.le.1.1 hcontainer.has] at hkind'
  have hlater := hst.trans himage'.grows
  have hkind := hkind.of_le hlater.le.1.1
  have hkey := hkey.of_le hlater.le.1
  rw [hk.member_eq, hk'.member_eq]
  constructor
  · intro hsame
    have heq := hkey.unique (hsame ▸ hkey')
    have hsignature : kind = kind' := congrArg MemberKey.kind heq
    exact ⟨(congrArg MemberKey.flags heq).symm, kind, hkind, hsignature ▸ hkind'⟩
  · rintro ⟨hflags, l, hl, hl'⟩
    obtain rfl := hl.unique hkind
    obtain rfl := hl'.unique hkind'
    rw [hflags, hgeneric'] at hkey'
    rw [hgeneric] at hkey
    exact hkey'.inj hkey

/-- A member that a class declares is linked to by its image in an instantiation, unless that
instance was there before: then it keeps its link. The images of two members are one instance exactly
if they become the same signature, with the same flags. An image is canonicalized as a declared member
that matches it, as the member itself does. -/
theorem memberIn_attributed (hs : Reachable s) (hacyclic : s.types.Acyclic)
    (hm : m ∈ (s.types.classDef base).members)
    (hcontainer : s.types.pool.HasKind container (.inst base sub outer)) :
    let image := (liftM (TypeSystem.memberIn m container) : CanonicalM MemberId) s
    ∀ t, Later image.2 t →
    (t.types.member image.1).decl =
        (if s.types.HasMember image.1 then (s.types.member image.1).decl else m) ∧
    (∀ m' ∈ (s.types.classDef base).members,
      let image' := (liftM (TypeSystem.memberIn m' container) : CanonicalM MemberId) t
      (image'.2.types.member image'.1).decl =
        (if t.types.HasMember image'.1 then (t.types.member image'.1).decl else m') ∧
      (image'.1 = image.1 ↔ (s.types.member m').flags = (s.types.member m).flags ∧ ∃ kind,
        TypeSystem.SubstitutesKind image'.2.types.pool (s.types.pool.instanceBindings container)
          (s.types.member m).kind kind ∧
        TypeSystem.SubstitutesKind image'.2.types.pool (s.types.pool.instanceBindings container)
          (s.types.member m').kind kind)) ∧
    let a := (canonicalizeMember image.1).run t
    t.Matches image.1 m ∧ ∃ c, a.1 = .ok c ∧ ∃ decl ∈ (s.types.classDef base).members,
      t.Matches image.1 decl ∧ (canonicalizeMember decl).run a.2 = (.ok c, a.2) := by
  have hvalid := hs.valid
  have hlinks := hs.linksDeclared
  have hmember := hvalid.types.hasMember_of_declared hm
  have himage := lift_computes hvalid
    (TypeSystem.memberIn_computes hvalid.types hmember.hasKey hcontainer)
  intro image t ht
  obtain ⟨hit, htvalid⟩ := ht.grows himage.valid (acyclic_of_grows hvalid himage.grows hacyclic)
  have hst := himage.grows.trans hit
  have hclass : t.types.classDef base = s.types.classDef base := (Extends.types hst).classDef_eq base
  have hcontainer' := hcontainer.of_le hst.le.1.1
  obtain ⟨kind, -, hkey⟩ := himage.post
  have hkept := TypeSystem.member_of_le hit.le.1 hkey.hasMember
  refine ⟨?_, fun m' hm' => ⟨?_, ?_⟩, ?_, ?_⟩
  · exact (congrArg Member.decl hkept).trans (decl_memberIn hvalid hlinks hm hcontainer)
  · exact decl_memberIn htvalid (hlinks.of_extends hvalid.types (Extends.types hst))
      (hclass ▸ hm') hcontainer'
  · exact memberIn_eq_iff hvalid hm hm' hcontainer t htvalid hit
  · exact matches_memberIn hvalid hacyclic hmember hcontainer t htvalid hit
  · have hmatch := matches_memberIn hvalid hacyclic hmember hcontainer t htvalid hit
    have hseen : (t.types.member image.1).container = container :=
      (hkey.of_le hit.le.1).container_eq
    have hacyclic' := acyclic_of_grows hvalid hst hacyclic
    rcases canonicalizeMember_matches htvalid hacyclic' (hkey.hasMember.of_le hit.le.1)
      (hseen.symm ▸ hcontainer') with ⟨c, hc, decl, hdecl, hmatch', hfind⟩ | ⟨-, hnone⟩
    · exact ⟨c, hc, decl, hclass ▸ hdecl, hmatch', run_canonicalizeMember_of_find? hfind⟩
    · exact absurd hmatch (hnone m (hclass ▸ hm))

end Image

/-! ### Overloads that become one signature -/

/-- A session that declares a class `Box<T>` with methods `f(T)` and `f(core.String)`, and
instantiates it for strings and for objects. -/
def overloadSession : Canonicalizer :=
  let s := (fresh .initial).declared (.declareClass "Box" {})
  let s := s.declared (.addTypeParam ⟨2⟩ "T" none)
  let s := (s.asked (.typeVar ⟨0⟩)).asked (.intern "f")
  let s := s.declared (.declareMember ⟨2⟩ (.method ⟨11⟩ [⟨13⟩] Primitive.void.typeId []) {})
  let s := s.declared (.declareMember ⟨2⟩ (.method ⟨11⟩ [.string] Primitive.void.typeId []) {})
  (s.asked (.instantiate ⟨2⟩ [.string] none)).asked (.instantiate ⟨2⟩ [.object] none)

theorem overloadSession_checked :
    Reachable overloadSession ∧ overloadSession.types.Acyclic := by
  -- The steps and the last state make one goal, so that the prelude is evaluated once.
  suffices h : (_ ∧ _ ∧ _ ∧ _) ∧ _ by
    obtain ⟨⟨h₁, h₂, h₃, h₄⟩, hends⟩ := h
    refine ⟨?_, TypeSystem.acyclic_of_isEnd hends⟩
    exact .ask _ (.ask _ (.declare _ (.declare _ (.ask _ (.ask _ (.declare _ (.declare _ .initial
      trivial) nofun) trivial) trivial) h₁) h₂) ⟨h₃, nofun⟩) ⟨h₄, nofun⟩
  unfold TypeSystem.Declaration.Admitted
  decide +kernel

theorem overloadSession_reachable : Reachable overloadSession := overloadSession_checked.1

theorem overloadSession_acyclic : overloadSession.types.Acyclic := overloadSession_checked.2

/-- The class declares both methods, its instantiations come last, and the second method has no image
in the first instantiation. -/
theorem overloadSession_declares : (overloadSession.types.classDef ⟨2⟩).members = [⟨15⟩, ⟨16⟩] ∧
    overloadSession.types.pool.HasKind ⟨15⟩ (.inst ⟨2⟩ ⟨1⟩ none) ∧
    overloadSession.types.pool.HasKind ⟨16⟩ (.inst ⟨2⟩ ⟨2⟩ none) ∧
    let image := (liftM (TypeSystem.memberIn ⟨16⟩ ⟨15⟩) : CanonicalM MemberId) overloadSession
    ¬ overloadSession.types.HasMember image.1 := by decide +kernel

/-- The second method, seen in `Box<core.String>` first, is linked to itself. -/
theorem memberIn_attributed_overload :
    let image := (liftM (TypeSystem.memberIn ⟨16⟩ ⟨15⟩) : CanonicalM MemberId) overloadSession
    (image.2.types.member image.1).decl = ⟨16⟩ := by
  obtain ⟨hmembers, hcontainer, -, hnew⟩ := overloadSession_declares
  have hm : ⟨16⟩ ∈ (overloadSession.types.classDef ⟨2⟩).members :=
    hmembers ▸ List.mem_cons_of_mem _ List.mem_cons_self
  intro image
  obtain ⟨hdecl, -⟩ := memberIn_attributed overloadSession_reachable overloadSession_acyclic hm
    hcontainer image.2 (.refl _)
  rwa [if_neg hnew] at hdecl

/-- Seen in `Box<core.String>`, both methods are one instance, which is linked to the method that
was seen first and has its canonical form. That instance, seen in `Box<core.Object>`, is also the image
of the second method there, although the first one has another image. -/
theorem memberIn_misattributed :
    Reachable overloadSession ∧
      (overloadSession.types.classDef ⟨2⟩).members = [⟨15⟩, ⟨16⟩] ∧
      overloadSession.types.pool.HasKind ⟨15⟩ (.inst ⟨2⟩ ⟨1⟩ none) ∧
      overloadSession.types.pool.HasKind ⟨16⟩ (.inst ⟨2⟩ ⟨2⟩ none) ∧
      let a := (liftM (TypeSystem.memberIn ⟨15⟩ ⟨15⟩) : CanonicalM MemberId) overloadSession
      let b := (liftM (TypeSystem.memberIn ⟨16⟩ ⟨15⟩) : CanonicalM MemberId) a.2
      let x := (canonicalizeMember b.1).run b.2
      let y := (canonicalizeMember ⟨16⟩).run x.2
      let c := (liftM (TypeSystem.memberIn a.1 ⟨16⟩) : CanonicalM MemberId) b.2
      let d := (liftM (TypeSystem.memberIn ⟨15⟩ ⟨16⟩) : CanonicalM MemberId) c.2
      let e := (liftM (TypeSystem.memberIn ⟨16⟩ ⟨16⟩) : CanonicalM MemberId) d.2
      (b.2.types.member b.1).decl = ⟨15⟩ ∧ x.1 ≠ y.1 ∧
        (e.2.types.member e.1).decl = ⟨15⟩ ∧ e.1 ≠ d.1 := by
  obtain ⟨hmembers, hstring, hobject, -⟩ := overloadSession_declares
  refine ⟨overloadSession_reachable, hmembers, hstring, hobject, ?_⟩
  decide +kernel

end Canonicalizer

end Erasure
