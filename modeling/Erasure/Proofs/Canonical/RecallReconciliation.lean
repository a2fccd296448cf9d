/-
Instances that would be reconciled again.

The declared member that explains an instance is found again when further members are declared,
because they are tried last. An instance that no declared member explains may find one later, so
only canonical forms last, and errors do not. The main statements:

* `findDeclared_replaysIf`: a declared member that was found is found again.
* `canonicalizeMember_replaysIf`: the canonical form of a member does not depend on what is
  remembered, and it lasts.
-/
import Erasure.Proofs.Canonical.RecallMembers

namespace Erasure.Canonicalizer

open TypeSystem (Regular Follows)

variable {s : Canonicalizer} {ts us : TypeSystem}

/-! ### The declared member -/

section Explaining

variable {subst : SubstId} {container : TypeId} {erased : MemberId}

theorem explains_replays (hts : ts.Regular) (hsubst : ∃ bs, ts.pool.HasBindings subst bs)
    (hcontainer : ts.pool.Has container) {decl : MemberId} (hdecl : ts.HasMember decl) :
    Replays (explains subst container erased decl) ts fun _ _ => True := by
  unfold explains
  refine ReplaysIf.bind (substituteMember_replays hts hdecl hsubst hcontainer) ?_
  intro image us _ hus himage
  exact ReplaysIf.bind (eraseOwnTypeParams_replays hus himage) fun _ _ _ hvs _ => .pure hvs trivial

/-- The first of given members that explains an instance. -/
theorem firstExplaining_replays (hts : ts.Regular) (hsubst : ∃ bs, ts.pool.HasBindings subst bs)
    (hcontainer : ts.pool.Has container) (erased : MemberId) {decls : List MemberId}
    (hdecls : ∀ decl ∈ decls, ts.HasMember decl) :
    Replays (firstExplaining subst container erased decls) ts fun o _ => ∀ decl ∈ o, decl ∈ decls := by
  induction decls generalizing ts with
  | nil => exact .pure hts nofun
  | cons decl rest ih =>
    unfold firstExplaining
    refine ReplaysIf.bind (explains_replays hts hsubst hcontainer
      (hdecls decl List.mem_cons_self)) fun b us hext hus _ => ?_
    cases b with
    | true => exact .pure hus fun d hd => Option.some.inj hd ▸ List.mem_cons_self
    | false =>
      refine (ih hus (hsubst.imp fun _ h => h.of_le hext.le.1) (hcontainer.of_le hext.le.1)
        fun d hd => (hdecls d (List.mem_cons_of_mem _ hd)).of_le hext.le).mono ?_
      exact fun o _ _ _ ho d hd => List.mem_cons_of_mem _ (ho d hd)

/-- Further members are tried only when none of the first ones explains the instance. -/
theorem firstExplaining_append (decls new : List MemberId) :
    firstExplaining subst container erased (decls ++ new) =
      (do match ← firstExplaining subst container erased decls with
        | some decl => return some decl
        | none => firstExplaining subst container erased new) := by
  induction decls with
  | nil => rfl
  | cons decl rest ih =>
    funext s
    rw [List.cons_append, firstExplaining, firstExplaining, bind_apply, ih]
    show _ = (do
      let o ← (do
        if ← explains subst container erased decl then
          return some decl
        firstExplaining subst container erased rest)
      match o with
      | some decl => return some decl
      | none => firstExplaining subst container erased new : CanonicalM (Option MemberId)) s
    rw [bind_apply, bind_apply]
    cases (explains subst container erased decl s).1 <;> rfl

end Explaining

/-- The member that the instance is linked to, and then those that the class declares. -/
def linkedFirst (ts : TypeSystem) (m : MemberId) (base : ClassId) : List MemberId :=
  let declared := (ts.classDef base).members
  if (ts.member m).decl ∈ declared then (ts.member m).decl :: declared else declared

theorem mem_linkedFirst_iff {m decl : MemberId} {base : ClassId} :
    decl ∈ linkedFirst ts m base ↔ decl ∈ (ts.classDef base).members := mem_linked_first_iff

/-- Members that are declared in addition come last. -/
theorem exists_linkedFirst_eq (h : Follows ts us) {m : MemberId} {base : ClassId}
    (hm : ts.HasMember m) (hbase : ts.Mentions base) :
    ∃ new, linkedFirst us m base = linkedFirst ts m base ++ new := by
  obtain ⟨new, hmembers, hnew⟩ := h.continues.members hbase
  refine ⟨new, ?_⟩
  have hlinked : (ts.member m).decl ∈ (ts.classDef base).members ++ new ↔
      (ts.member m).decl ∈ (ts.classDef base).members :=
    List.mem_append.trans (or_iff_left fun hmem => hnew _ hmem m hm rfl)
  unfold linkedFirst
  rw [TypeSystem.member_of_le h.le hm, hmembers]
  simp only [hlinked]
  split <;> rfl

/-- The declared member that explains an instance does not depend on what is remembered, and stays
the same when further members are declared. -/
theorem findDeclared_replaysIf (hts : ts.Regular) {m : MemberId} {container : TypeId}
    {base : ClassId} {sub : SubstId} {outer : Option TypeId} (hm : ts.HasMember m)
    (hk : ts.pool.HasKind container (.inst base sub outer)) (erased : MemberId) :
    ReplaysIf (fun o => o ≠ none) (findDeclared m erased container base) ts
      fun o us => ∀ decl ∈ o, decl ∈ (us.classDef base).members := by
  unfold findDeclared
  refine ReplaysIf.bind (ReplaysIf.lift hts (TypeSystem.fullSubst_computes hts.valid hk.has)) ?_
  intro subst us hext hus hsubst
  have hm' := hm.of_le hext.le
  have hbase := TypeSystem.mentions_inst (hk.of_le hext.le.1)
  have hdeclared : ∀ decl ∈ linkedFirst us m base, us.HasMember decl := fun decl hdecl =>
    hus.valid.hasMember_of_declared (mem_linkedFirst_iff.mp hdecl)
  obtain ⟨o, vs, hyields, hext', hvs, ho, hrepeats⟩ := firstExplaining_replays hus ⟨_, hsubst⟩
    (hk.has.of_le hext.le.1) erased hdeclared
  have hfollows : Follows us vs := .of_extends hus hext' hvs.valid
  refine ⟨o, vs, ?_, hext', hvs, fun decl hdecl => ?_, fun hfound ws hws => ?_⟩
  · exact hyields.get_bind fun s hs => by rw [hs]; rfl
  · rw [hext'.classDef_eq]
    exact mem_linkedFirst_iff.mp (ho decl hdecl)
  · obtain ⟨decl, rfl⟩ := Option.ne_none_iff_exists'.mp hfound
    obtain ⟨new, hnew⟩ := exists_linkedFirst_eq (hfollows.trans hws) hm' hbase
    refine Yields.get_bind (x := firstExplaining subst container erased (linkedFirst us m base ++ new))
      (fun s hs => by rw [hs, ← hnew]; rfl) ?_
    rw [firstExplaining_append]
    exact (hrepeats trivial ws hws).bind (.pure _)

/-! ### Canonical members -/

/-- The member is seen in an instantiation, or where it stands as it is. -/
inductive InPlace (m : MemberId) (ts : TypeSystem) : Prop
  | instance {base : ClassId} {sub : SubstId} {outer : Option TypeId} : ts.HasMember m →
      ts.pool.HasKind (ts.member m).container (.inst base sub outer) → InPlace m ts
  | plain : IsPlain m ts → InPlace m ts

theorem InPlace.hasMember {m : MemberId} (h : InPlace m ts) : ts.HasMember m := by
  cases h with
  | «instance» hm _ => exact hm
  | plain hm => exact hm.hasMember

theorem InPlace.of_le (hts : ts.Valid) (hle : ts ≤ us) {m : MemberId} (h : InPlace m ts) :
    InPlace m us := by
  cases h with
  | «instance» hm hk =>
    exact .instance (hm.of_le hle) (TypeSystem.member_of_le hle hm ▸ hk.of_le hle.1)
  | plain hm => exact .plain (hm.of_le hts hle)

/-- A declared member is seen in place. -/
theorem isPlain_of_declared (hts : ts.Valid) {base : ClassId} {decl : MemberId}
    (h : decl ∈ (ts.classDef base).members) : IsPlain decl ts := by
  obtain ⟨k, hkey, hraw, hgeneric⟩ := (hts.classes base).members decl h
  obtain rfl := hkey.member_eq
  have hk : ts.kind (ts.member decl).container = .raw base := hraw.kind_eq
  refine ⟨hkey.hasMember, hk ▸ nofun, hk ▸ nofun, hk ▸ nofun, fun _ => ?_⟩
  rw [TypeSystem.genericForm, hgeneric, Option.getD_none]

theorem reconcile_replaysIf (hts : ts.Regular) {m : MemberId} {container : TypeId} {base : ClassId}
    {sub : SubstId} {outer : Option TypeId} (hm : ts.HasMember m)
    (hk : ts.pool.HasKind container (.inst base sub outer)) :
    ReplaysIf (fun x => ∃ c, x = .ok c) (reconcile m container base) ts
      fun x us => ∀ c, x = .ok c → MemberAtRest c us := by
  unfold reconcile
  refine ReplaysIf.bind (eraseOwnTypeParams_replays hts hm) fun erased us hext hus _ => ?_
  obtain ⟨o, vs, hyields, huv, hvs, ho, hrepeats⟩ := findDeclared_replaysIf hus
    (hm.of_le hext.le) (hk.of_le hext.le.1) erased
  cases o with
  | none =>
    refine ⟨_, vs, hyields.bind (.get_bind (fun s hs => by rw [hs]) (.pure _)), huv, hvs, ?_, ?_⟩
    · exact fun _ h => nomatch h
    · rintro ⟨c, ⟨⟩⟩
  | some decl =>
    have hcanonical := canonicalizeDeclared_replays hvs (isPlain_of_declared hvs.valid (ho decl rfl))
    have hfound : Replays (findDeclared m erased container base) us fun o ws =>
        o = some decl ∧ ws = vs :=
      ⟨_, vs, hyields, huv, hvs, ⟨rfl, rfl⟩, fun _ => hrepeats nofun⟩
    refine hfound.bind ?_
    rintro _ _ - - ⟨rfl, rfl⟩
    refine .of_replays (hcanonical.map fun c ws hc => ?_)
    rintro _ ⟨⟩
    exact hc.1

/-- The canonical form of a member does not depend on what is remembered, and when there is one it
stays the same. -/
theorem canonicalizeMember_replaysIf (hts : ts.Regular) {m : MemberId} (hm : InPlace m ts) :
    ReplaysIf (fun x => ∃ c, x = .ok c) (canonicalizeMember m).run ts
      fun x us => ∀ c, x = .ok c → MemberAtRest c us := by
  cases hm with
  | plain hm =>
    have hrun : ∀ s : Canonicalizer, Follows ts s.types → (canonicalizeMember m).run s =
        (Except.ok <$> canonicalizeDeclared m : CanonicalM (Except CanonError MemberId)) s :=
      fun s hs => run_canonicalizeMember_of_not_inst (s := s) (hm.of_le hts.valid hs.le).not_inst
    refine ReplaysIf.congr hts (fun s _ hs => hrun s hs) (.of_replays (ReplaysIf.map
      (canonicalizeDeclared_replays hts hm) fun c us hc => ?_))
    rintro _ ⟨⟩
    exact hc.1
  | @«instance» base sub outer hm hk =>
    refine ReplaysIf.memoized (P := fun x us => Follows ts us ∧ ∀ c, x = .ok c → MemberAtRest c us)
      (reconcile m (ts.member m).container base) (fun memo => (memo.members.find? m).map .ok)
      (rememberIfOk m) hts ?_ rfl ?_ ?_ ?_ ?_ ?_ |>.mono fun _ _ _ _ h => h.2
    · intro s _ hfollows
      have hmember := TypeSystem.member_of_le hfollows.le hm
      cases hfind : s.memo.members.find? m with
      | some c => rw [run_canonicalizeMember_of_find? hfind]; rfl
      | none =>
        rw [run_canonicalizeMember_of_inst hfind (hmember ▸ (hk.of_le hfollows.le.1).kind_eq),
          hmember]
        rfl
    · intro s a hs _ hfind
      obtain ⟨c, hc, rfl⟩ := Option.map_eq_some_iff.mp hfind
      exact hs.memo.members hc
    · exact fun s hs hfollows =>
        (canonicalizeMember_keeps hs.valid hs.regular.acyclic (hm.of_le hfollows.le)).valid
    · rintro x us memo ⟨hfollows, hx⟩ hmemo hrecalled
      cases x with
      | error e => exact hmemo
      | ok c => exact hmemo.rememberMember (hrecalled ⟨c, rfl⟩) ((hx c rfl).recalled hfollows.regular)
    · exact fun x us vs hvs h =>
        ⟨h.1.trans hvs, fun c hc => (h.2 c hc).of_follows h.1.regular.valid hvs⟩
    · exact (reconcile_replaysIf hts hm hk).mono fun x us hext hus h =>
        ⟨.of_extends hts hext hus.valid, h⟩

end Erasure.Canonicalizer
