/-
The table of member instances in every state of a session.

However declarations, queries and canonicalizations follow one another, and whatever the types are
that they mention, the instances are a forest: each leads by way of its origin to a declaration. The
main statements:

* `Session`: the states of a session in which only members and classes have to be there.
* `Session.linked`: every operation keeps the links.
* `Session.memberForest`: the table of members as a forest, and the members of the classes.
-/
import Erasure.Proofs.Canonical.Session
import Erasure.Proofs.TypeSystem.Deriving

namespace Erasure.Canonicalizer

variable {s t : Canonicalizer} {m : MemberId}

/-! ### Canonicalization -/

section Linked

open TypeSystem.Linked

/-- Canonicalizers whose type system stays linked. What they remember may be replaced. -/
local instance : Store Canonicalizer where
  toPreorder := Preorder.lift Canonicalizer.types
  Grows s t := s.types ≤ t.types
  Valid s := s.types.Linked
  grows_refl s := le_refl s.types
  grows_trans h h' := le_trans h h'
  le_of_grows := id

theorem lift_keeps_links {α : Type} {act : StateM TypeSystem α} {P : α → TypeSystem → Prop}
    (h : Keeps act s.types P) : Keeps (liftM act : CanonicalM α) s fun a t => P a t.types :=
  ⟨h.grows, h.valid, h.post⟩

/-- Remembering leaves the type system as it is. -/
theorem modifyMemo_keeps_links {α : Type} (hs : s.types.Linked) (f : CanonicalMemo → CanonicalMemo)
    (a : α) : Keeps (do modifyMemo f; return a) s fun _ _ => True := ⟨le_refl s.types, hs, trivial⟩

/-! #### Types -/

section

variable {canonical : TypeId → CanonicalM TypeId}

theorem outerWith_keeps_links (hs : s.types.Linked)
    (h : ∀ ty t, t.types.Linked → Keeps (canonical ty) t fun _ _ => True) (c : ClassId) :
    Keeps (outerWith canonical c) s fun _ _ => True := by
  unfold outerWith
  apply Keeps.get_bind
  split
  · exact .pure hs trivial
  · apply (Keeps.optionMapM (R := fun _ _ _ => True) hs fun ty _ => h ty s hs).bind
    intro outer t _ ht _
    exact modifyMemo_keeps_links ht _ outer

theorem eraseKind_keeps_links (hs : s.types.Linked)
    (h : ∀ ty t, t.types.Linked → Keeps (canonical ty) t fun _ _ => True) (ty : TypeId)
    (k : TypeKind) : Keeps (eraseKind canonical ty k) s fun _ _ => True := by
  unfold eraseKind
  cases k with
  | prim _ | null | var _ | lub _ => exact .pure hs trivial
  | raw c =>
    apply (outerWith_keeps_links hs h c).discard.bind
    intro _ t _ ht _
    exact .pure ht trivial
  | inst c _ _ =>
    apply (outerWith_keeps_links hs h c).discard.bind
    intro _ t _ ht _
    apply (lift_keeps_links (ht.keeps (TypeSystem.rawClass_addsTypes c))).bind
    intro raw u _ hu _
    exact h raw u hu
  | array elem =>
    apply (h elem s hs).bind
    intro elem t _ ht _
    exact lift_keeps_links (ht.keeps (TypeSystem.lift_addsTypes (Pool.internKind_along _)))

theorem eraseWith_keeps_links (hs : s.types.Linked)
    (h : ∀ ty t, t.types.Linked → Keeps (canonical ty) t fun _ _ => True) (ty : TypeId) :
    Keeps (eraseWith canonical ty) s fun _ _ => True := by
  rw [eraseWith_eq]
  apply Keeps.get_bind
  apply (lift_keeps_links (hs.keeps (TypeSystem.resolveLub_addsTypes _))).bind
  intro resolved t _ ht _
  exact Keeps.get_bind (eraseKind_keeps_links ht h _ _)

end

theorem canonicalizeWithin_keeps_links (hs : s.types.Linked) (depth : Nat) (ty : TypeId) :
    Keeps (canonicalizeWithin depth ty) s fun _ _ => True := by
  induction depth generalizing s ty with
  | zero => exact .pure hs trivial
  | succ depth ih =>
    rw [canonicalizeWithin]
    apply Keeps.get_bind
    split
    · exact .pure hs trivial
    · apply (eraseWith_keeps_links hs (fun u t ht => ih ht u) ty).bind
      intro r t _ ht _
      exact modifyMemo_keeps_links ht _ r

theorem canonicalize_keeps_links (hs : s.types.Linked) (ty : TypeId) :
    Keeps (canonicalize ty) s fun _ _ => True :=
  Keeps.get_bind (canonicalizeWithin_keeps_links hs _ ty)

/-! #### Type parameters -/

theorem erasingSubst_keeps_links (hs : s.types.Linked) (vs : List TypeVarId) :
    Keeps (erasingSubst vs) s fun _ _ => True := by
  unfold erasingSubst
  apply (Keeps.mapM (R := fun _ _ _ => True) (fun _ _ _ _ _ _ => trivial) hs _).bind
  · intro bs t _ ht _
    exact lift_keeps_links (ht.keeps (TypeSystem.lift_addsTypes (Pool.internSubst_along bs)))
  · intro v _ t _ ht
    have hvar := ht.keeps (TypeSystem.lift_addsTypes (Pool.internKind_along (.var v)))
    apply (lift_keeps_links hvar).bind
    intro ty u _ hu _
    apply (canonicalize_keeps_links hu ty).bind
    intro _ w _ hw _
    exact .pure hw trivial

theorem some_erasingSubst_keeps_links (hs : s.types.Linked) (vs : List TypeVarId) :
    Keeps (some <$> erasingSubst vs) s fun _ _ => True :=
  (erasingSubst_keeps_links hs vs).map fun _ _ _ _ => trivial

theorem classErasure_keeps_links (hs : s.types.Linked) (c : ClassId) :
    Keeps (classErasure c) s fun _ _ => True := by
  have hnone : Keeps (pure none : CanonicalM (Option SubstId)) s fun _ _ => True := .pure hs trivial
  unfold classErasure
  apply Keeps.get_bind
  split
  · exact .pure hs trivial
  · dsimp only
    split
    · exact (some_erasingSubst_keeps_links hs _).bind fun x t _ ht _ => modifyMemo_keeps_links ht _ x
    · exact hnone.bind fun x t _ ht _ => modifyMemo_keeps_links ht _ x

theorem memberErasure_keeps_links (hs : s.types.Linked) (m : MemberId) :
    Keeps (memberErasure m) s fun _ _ => True := by
  have hnone : Keeps (pure none : CanonicalM (Option SubstId)) s fun _ _ => True := .pure hs trivial
  unfold memberErasure
  apply Keeps.get_bind
  split
  · exact .pure hs trivial
  · dsimp only
    split
    · exact hnone.bind fun x t _ ht _ => modifyMemo_keeps_links ht _ x
    · exact (some_erasingSubst_keeps_links hs _).bind fun x t _ ht _ => modifyMemo_keeps_links ht _ x

/-! #### Members -/

theorem eraseOwnTypeParams_keeps_links (hs : s.types.Linked) (hm : s.types.HasMember m) :
    Keeps (eraseOwnTypeParams m) s fun e t => t.types.HasMember e := by
  have hg := hm.genericForm hs
  unfold eraseOwnTypeParams
  apply Keeps.get_bind
  apply (memberErasure_keeps_links hs _).bind
  intro x t hst ht _
  cases x with
  | none => exact .pure ht (hm.of_le hst)
  | some sub =>
    apply Keeps.get_bind
    exact lift_keeps_links (ht.substituteMember_keeps (hg.of_le hst) sub _)

theorem eraseSignature_keeps_links (hs : s.types.Linked) (hm : s.types.HasMember m) :
    Keeps (eraseSignature m) s fun e t => t.types.HasMember e := by
  unfold eraseSignature
  apply Keeps.get_bind
  apply (Keeps.mapTypesM (R := fun _ _ _ => True) (fun _ _ _ _ _ _ => trivial) hs
    fun ty _ t _ ht => canonicalize_keeps_links ht ty).bind
  intro kind t hst ht _
  apply (canonicalize_keeps_links ht _).bind
  intro container u htu hu _
  have hm' := hm.of_le (le_trans hst htu)
  split
  · exact .pure hu hm'
  · exact lift_keeps_links (hu.deriveMember_keeps hm' _ container)

theorem canonicalizeRaw_keeps_links (hs : s.types.Linked) (hm : s.types.HasMember m)
    (container : TypeId) : Keeps (canonicalizeRaw m container) s fun _ _ => True := by
  have herase : ∀ {n t}, t.types.Linked → t.types.HasMember n →
      Keeps (eraseSignature n) t fun _ _ => True := fun ht hn =>
    (eraseSignature_keeps_links ht hn).mono fun _ _ _ _ _ => trivial
  unfold canonicalizeRaw
  apply Keeps.get_bind
  split
  · rename_i c _
    apply (classErasure_keeps_links hs c).bind
    intro x t hst ht _
    cases x with
    | none => exact herase ht (hm.of_le hst)
    | some sub =>
      apply (lift_keeps_links (ht.substituteMember_keeps (hm.of_le hst) sub container)).bind
      intro n u _ hu hn
      exact herase hu hn
  · exact herase hs hm

section Explaining

variable {subst : SubstId} {container : TypeId} {erased decl : MemberId} {decls : List MemberId}

theorem explains_keeps_links (hs : s.types.Linked) (hdecl : s.types.HasMember decl) :
    Keeps (explains subst container erased decl) s fun _ _ => True := by
  unfold explains
  apply (lift_keeps_links (hs.substituteMember_keeps hdecl subst container)).bind
  intro image t _ ht himage
  apply (eraseOwnTypeParams_keeps_links ht himage).bind
  intro _ u _ hu _
  exact .pure hu trivial

theorem firstExplaining_keeps_links (hs : s.types.Linked)
    (hdecls : ∀ decl ∈ decls, s.types.HasMember decl) :
    Keeps (firstExplaining subst container erased decls) s
      fun o t => ∀ decl ∈ o, t.types.HasMember decl := by
  induction decls generalizing s with
  | nil => exact .pure hs nofun
  | cons decl rest ih =>
    have hdecl := hdecls decl List.mem_cons_self
    unfold firstExplaining
    apply (explains_keeps_links hs hdecl).bind
    intro found t hst ht _
    split
    · exact .pure ht fun _ h => Option.some.inj h ▸ hdecl.of_le hst
    · exact ih ht fun decl' h => (hdecls decl' (List.mem_cons_of_mem _ h)).of_le hst

theorem findDeclared_keeps_links (hs : s.types.Linked) (m erased : MemberId) (container : TypeId)
    (base : ClassId) : Keeps (findDeclared m erased container base) s
      fun o t => ∀ decl ∈ o, t.types.HasMember decl := by
  unfold findDeclared
  have hsubst := hs.keeps (TypeSystem.lift_addsTypes (Pool.fullSubst_along container))
  apply (lift_keeps_links hsubst).bind
  intro subst t _ ht _
  apply Keeps.get_bind
  dsimp only
  apply firstExplaining_keeps_links ht
  exact fun _ hdecl => ht.hasMember_of_declared (mem_linked_first_iff.mp hdecl)

end Explaining

theorem canonicalizeDeclared_keeps_links (hs : s.types.Linked) (hm : s.types.HasMember m) :
    Keeps (canonicalizeDeclared m) s fun _ _ => True := by
  unfold canonicalizeDeclared
  apply Keeps.get_bind
  split
  · exact .pure hs trivial
  · apply (eraseOwnTypeParams_keeps_links hs hm).bind
    intro erased t _ ht herased
    apply (canonicalizeRaw_keeps_links ht herased _).bind
    intro r u _ hu _
    exact modifyMemo_keeps_links hu _ r

theorem reconcile_keeps_links (hs : s.types.Linked) (hm : s.types.HasMember m) (container : TypeId)
    (base : ClassId) : Keeps (reconcile m container base) s fun _ _ => True := by
  unfold reconcile
  apply (eraseOwnTypeParams_keeps_links hs hm).bind
  intro erased t _ ht _
  apply (findDeclared_keeps_links ht m erased container base).bind
  intro o u _ hu ho
  cases o with
  | none => exact Keeps.get_bind (.pure hu trivial)
  | some decl => exact (canonicalizeDeclared_keeps_links hu (ho decl rfl)).map fun _ _ _ _ => trivial

theorem canonicalizeMember_keeps_links (hs : s.types.Linked) (hm : s.types.HasMember m) :
    Keeps (canonicalizeMember m).run s fun _ _ => True := by
  cases memberRun m s with
  | remembered _ hrun => exact .congr hrun (.pure hs trivial)
  | plain _ hrun =>
    exact .congr hrun ((canonicalizeDeclared_keeps_links hs hm).map fun _ _ _ _ => trivial)
  | reconciled _ _ hrun =>
    apply Keeps.congr hrun
    apply (reconcile_keeps_links hs hm _ _).bind
    intro x t _ ht _
    exact modifyMemo_keeps_links ht _ x

/-- The member to be made canonical is there. -/
def Canonicalization.HasMembers (s : Canonicalizer) : Canonicalization → Prop
  | memberErasure m | member m => s.types.HasMember m
  | type _ | outer _ | classErasure _ => True

theorem Canonicalization.run_linked (hs : s.types.Linked) {c : Canonicalization}
    (h : c.HasMembers s) : Keeps c.run s fun _ _ => True := by
  cases c with
  | type ty => exact (canonicalize_keeps_links hs ty).discard
  | outer c => exact (outerWith_keeps_links hs (fun _ _ ht => canonicalize_keeps_links ht _) c).discard
  | classErasure c => exact (classErasure_keeps_links hs c).discard
  | memberErasure m => exact (memberErasure_keeps_links hs m).discard
  | member m => exact (canonicalizeMember_keeps_links hs h).discard

/-! ### Sessions -/

/-- The states of a session. An operation may be used when the member instances that it mentions are
there, and the class that it adds a member to. -/
inductive Session : Canonicalizer → Prop
  | initial : Session (fresh .initial)
  | declare {s : Canonicalizer} (d : TypeSystem.Declaration) : Session s → d.HasClass s.types →
      Session (s.declared d)
  | ask {s : Canonicalizer} (q : TypeSystem.Query) : Session s → q.HasMembers s.types →
      Session (s.asked q)
  | canonicalize {s : Canonicalizer} (c : Canonicalization) : Session s → c.HasMembers s →
      Session (s.canonicalized c)
  | forget {s : Canonicalizer} : Session s → Session (fresh s.types)

/-- Every operation keeps the links between instances. -/
theorem Session.linked (h : Session s) : s.types.Linked := by
  have hfresh : ∀ {ts : TypeSystem}, ts.Linked → (fresh ts).types.Linked := id
  induction h with
  | initial => exact hfresh TypeSystem.initial_linked
  | declare d _ hd ih => exact (TypeSystem.Declaration.run_linked ih hd).valid
  | ask q _ hq ih => exact (TypeSystem.Query.run_linked ih hq).valid
  | canonicalize c _ hc ih => exact (Canonicalization.run_linked ih hc).valid
  | forget _ ih => exact hfresh ih

end Linked

/-- In every state the instances are a forest with the declarations as its roots, and every class
lists its own declarations. -/
theorem Session.memberForest (h : Session s) : s.types.MemberForest := h.linked.forest

/-- The class of `boxSession` is there when its members are declared. -/
theorem boxSession_session : Session boxSession := by
  refine .ask _ (.declare _ (.declare _ (.ask _ (.ask _ (.ask _ (.ask _ (.declare _ (.declare _
    (.declare _ .initial .intro) .intro) .intro) .intro) .intro) .intro) .intro) ?_) ?_) .intro
  · unfold TypeSystem.Declaration.HasClass
    decide +kernel
  · unfold TypeSystem.Declaration.HasClass
    decide +kernel

/-- The session goes on with the field as the instantiation for strings sees it, with a type argument
for the method, and with the canonical form of the result. -/
theorem boxSession_memberForest :
    let s := ((boxSession.asked (.memberIn ⟨15⟩ ⟨16⟩)).asked
      (.instantiateMethod ⟨16⟩ [.string])).canonicalized (.member ⟨18⟩)
    s.types.MemberForest ∧ (s.types.member ⟨17⟩).decl = ⟨15⟩ := by
  refine ⟨Session.memberForest (.canonicalize _ (.ask _ (.ask _ boxSession_session ?_) ?_) ?_), ?_⟩
  · unfold TypeSystem.Query.HasMembers
    decide +kernel
  · unfold TypeSystem.Query.HasMembers
    decide +kernel
  · unfold Canonicalization.HasMembers
    decide +kernel
  · decide +kernel

end Erasure.Canonicalizer
