/-
Reconciliation is exact.

An instance that is seen in an instantiation is compared with the declared members by what remains
when their own type parameters are erased (`Matches`). The comparison can be made at once, before
anything else is canonicalized: whether it holds does not depend on what is interned in between. The
main statements:

* `ImageErased.eq_iff`: whether an erased image is a given instance is the same at all times.
* `Outcome.matches`: an instance gets the canonical form of a declared member that it matches, or it
  matches none.
* `canonicalizeMember_exact`: an instance has a canonical form if and only if it matches a declared
  member, or is seen in no instantiation.
-/
import Erasure.Proofs.Canonical.Instantiation

namespace Erasure.Canonicalizer

variable {s t u : Canonicalizer}

/-! ### One answer at all times -/

section Correspondence

variable (hs : s.Valid) (ht : t.Valid) (hu : u.Valid) (hst : Store.Grows s t)
  (hsu : Store.Grows s u)
include hs ht hu hst hsu

/-- An erased image that was there from the start is the erased image at any other time. -/
theorem ImageErased.eq_of_hasMember {k : MemberKey} {container : TypeId} {e e' : MemberId}
    (hcontainer : s.types.pool.Has container) (hk : ∀ ty ∈ k.kind.types, s.types.pool.Has ty)
    (hgeneric : k.generic = none) (he : s.types.HasMember e)
    (h : t.ImageErased (s.types.pool.instanceBindings container) container k e)
    (h' : u.ImageErased (s.types.pool.instanceBindings container) container k e') : e' = e := by
  obtain ⟨l, l', hl, hl', hrelated⟩ :=
    h.mirrors hs ht hu hst hsu hcontainer hk hgeneric h'
  have hold := he.hasKey
  obtain rfl : (s.types.member e).kind = l :=
    congrArg MemberKey.kind ((hold.of_le hst.le.1).unique hl)
  have hself : (s.types.member e).kind.Related (t.types.pool.Mirrors u.types.pool)
      (s.types.member e).kind :=
    .refl fun ty hty => mirrors_of_has hs ht hst hsu ((hs.types.keys hold).types ty hty)
  obtain rfl := hrelated.unique
    (fun _ _ _ h h' => h.unique ht.types.pool hu.types.pool h') hself
  have heq := (hold.of_le hst.le.1).unique hl
  exact hl'.inj (heq ▸ hold.of_le hsu.le.1)

/-- Whether an erased image is an instance that was there from the start is the same at any two
times. -/
theorem ImageErased.eq_iff {k : MemberKey} {container : TypeId} {e a b : MemberId}
    (hcontainer : s.types.pool.Has container) (hk : ∀ ty ∈ k.kind.types, s.types.pool.Has ty)
    (hgeneric : k.generic = none) (he : s.types.HasMember e)
    (ha : t.ImageErased (s.types.pool.instanceBindings container) container k a)
    (hb : u.ImageErased (s.types.pool.instanceBindings container) container k b) :
    a = e ↔ b = e := by
  constructor
  · rintro rfl
    exact ha.eq_of_hasMember hs ht hu hst hsu hcontainer hk hgeneric he hb
  · rintro rfl
    exact hb.eq_of_hasMember hs hu ht hsu hst hcontainer hk hgeneric he ha

end Correspondence

/-! ### Matching a declared member -/

/-- The declared member `decl`, seen in the container of the instance `m`, is that instance, the own
type parameters of both erased. -/
def Matches (s : Canonicalizer) (m decl : MemberId) : Prop :=
  let own := eraseOwnTypeParams m s
  (erasedImage decl (s.types.member m).container own.2).1 = own.1

section Search

variable {m : MemberId} {base : ClassId} {sub : SubstId} {outer : Option TypeId}

/-- A search for a declared member at any later time compares as `Matches` does. -/
theorem matches_iff (hs : s.Valid) (hacyclic : s.types.Acyclic) (hm : s.types.HasMember m)
    (hkind : s.types.pool.HasKind (s.types.member m).container (.inst base sub outer))
    (ht : t.Valid) (hst : Store.Grows (eraseOwnTypeParams m s).2 t) {decl e : MemberId}
    (hdecl : decl ∈ (s.types.classDef base).members)
    (h : Answers (erasedImage decl (s.types.member m).container) e t) :
    s.Matches m decl ↔ e = (eraseOwnTypeParams m s).1 := by
  have hown := eraseOwnTypeParams_computes hs hacyclic hm
  obtain ⟨k, hk, -, hgeneric⟩ := (hs.types.classes base).members decl hdecl
  have hk' := hk.of_le hown.grows.le.1
  have hkind' := hkind.of_le hown.grows.le.1.1
  have hacyclic' := acyclic_of_grows hs hown.grows hacyclic
  have himage := erasedImage_computes hown.valid hacyclic' hk' hkind'
  exact himage.post.eq_iff hown.valid himage.valid ht himage.grows hst hkind'.has
    (hown.valid.types.keys hk').types hgeneric (hown.post.hasMember (hm.of_le hown.grows.le.1))
    (.of_answers hown.valid ht hacyclic' hst hk' hkind' h)

/-- Canonicalizing an instance that is seen in an instantiation goes on from where erasing its own
type parameters ends. -/
theorem run_canonicalizeMember_ownErased (hs : s.Valid) (hacyclic : s.types.Acyclic)
    (hm : s.types.HasMember m)
    (hkind : s.types.pool.HasKind (s.types.member m).container (.inst base sub outer)) :
    (canonicalizeMember m).run s = (canonicalizeMember m).run (eraseOwnTypeParams m s).2 := by
  have hown := eraseOwnTypeParams_computes hs hacyclic hm
  cases hfind : s.memo.members.find? m with
  | some c =>
    obtain ⟨decl, -, -, subst, e, -, -, he⟩ := (hs.members hfind).explained hkind
    rw [he.eq]
  | none =>
    have hmiss : (eraseOwnTypeParams m s).2.memo.members.find? m = none :=
      hfind ▸ congrArg (·.find? m) (eraseOwnTypeParams_leaves_members m s)
    have hmember := TypeSystem.member_of_le hown.grows.le.1 hm
    rw [run_canonicalizeMember_of_inst hfind hkind.kind_eq,
      run_canonicalizeMember_of_inst hmiss (hmember ▸ (hkind.of_le hown.grows.le.1.1).kind_eq),
      hmember]
    unfold reconcile
    simp only [bind_apply, hown.again.eq]

/-- An instance that is seen in an instantiation gets the canonical form of a declared member that it
matches, or it matches none. -/
theorem Outcome.matches (hs : s.Valid) (hacyclic : s.types.Acyclic) (hm : s.types.HasMember m)
    (hkind : s.types.pool.HasKind (s.types.member m).container (.inst base sub outer))
    (ht : t.Valid) (hst : Store.Grows (eraseOwnTypeParams m s).2 t)
    {result : Except CanonError MemberId} (h : Outcome m result t) :
    (∃ c, result = .ok c ∧ ∃ decl ∈ (s.types.classDef base).members, s.Matches m decl ∧
      t.memo.members.find? decl = some c) ∨
    (result = .error (.unreconcilable (t.types.displayMember m)
      (t.types.display (s.types.member m).container)) ∧
      ∀ decl ∈ (s.types.classDef base).members, ¬ s.Matches m decl) := by
  have hown := eraseOwnTypeParams_computes hs hacyclic hm
  have hgrows := hown.grows.trans hst
  have hmember := TypeSystem.member_of_le hgrows.le.1 hm
  have hkind' := hkind.of_le hgrows.le.1.1
  have hclass := (Extends.types hgrows).classDef_eq base
  have hmatches : ∀ {decl subst e}, decl ∈ (s.types.classDef base).members →
      Answers (liftM (Pool.fullSubst (s.types.member m).container : StateM Pool SubstId) :
        CanonicalM SubstId) subst t → t.ErasedImage subst (s.types.member m).container decl e →
      (s.Matches m decl ↔ e = (eraseOwnTypeParams m s).1) := fun hdecl hsubst himage =>
    matches_iff hs hacyclic hm hkind ht hst hdecl (himage.answers hkind' hsubst)
  cases h with
  | @canonical c _ hfind =>
    obtain ⟨decl, hdecl, hfind', subst, e, hsubst, himage, he⟩ :=
      (ht.members hfind).explained (hmember ▸ hkind')
    rw [hclass] at hdecl
    rw [hmember] at hsubst himage
    have hsame : e = (eraseOwnTypeParams m s).1 := he.unique (hown.again.of_le hst.le)
    exact .inl ⟨c, rfl, decl, hdecl, (hmatches hdecl hsubst himage).mpr hsame, hfind'⟩
  | unexplained hk he hsearch =>
    rw [hmember] at hk hsearch ⊢
    cases hk.unique hkind'
    refine .inr ⟨rfl, fun decl hdecl hmatch => ?_⟩
    obtain ⟨subst, e, hsubst, himage, hne⟩ := hsearch.missed rfl decl (hclass ▸ hdecl)
    have hsame := (hmatches hdecl hsubst himage).mp hmatch
    exact hne (hsame.trans (he.unique (hown.again.of_le hst.le)).symm)

/-- Canonicalizing an instance that is seen in an instantiation succeeds with the canonical form of a
declared member that it matches, or it fails because there is none. -/
theorem canonicalizeMember_matches (hs : s.Valid) (hacyclic : s.types.Acyclic)
    (hm : s.types.HasMember m)
    (hkind : s.types.pool.HasKind (s.types.member m).container (.inst base sub outer)) :
    let a := (canonicalizeMember m).run s
    (∃ c, a.1 = .ok c ∧ ∃ decl ∈ (s.types.classDef base).members, s.Matches m decl ∧
      a.2.memo.members.find? decl = some c) ∨
    (a.1 = .error (.unreconcilable (a.2.types.displayMember m)
      (a.2.types.display (s.types.member m).container)) ∧
      ∀ decl ∈ (s.types.classDef base).members, ¬ s.Matches m decl) := by
  have hown := eraseOwnTypeParams_computes hs hacyclic hm
  have hsearch := canonicalizeMember_keeps hown.valid (acyclic_of_grows hs hown.grows hacyclic)
    (hm.of_le hown.grows.le.1)
  rw [run_canonicalizeMember_ownErased hs hacyclic hm hkind]
  exact hsearch.post.matches hs hacyclic hm hkind hsearch.valid hsearch.grows

end Search

/-! ### Failing and succeeding -/

/-- A canonical member is settled. -/
theorem Outcome.settled (ht : t.Valid) {m c : MemberId} (h : Outcome m (.ok c) t) :
    t.types.Settled c := by
  cases h with
  | canonical hfind => exact (ht.members hfind).settled

/-- Only an instance that is seen in an instantiation has no canonical form. -/
theorem Outcome.exists_ok {m : MemberId} {result : Except CanonError MemberId}
    (h : Outcome m result t)
    (hcontainer : ∀ base sub outer,
      ¬ t.types.pool.HasKind (t.types.member m).container (.inst base sub outer)) :
    ∃ c, result = .ok c := by
  cases h with
  | canonical _ => exact ⟨_, rfl⟩
  | unexplained hkind _ _ => exact absurd hkind (hcontainer _ _ _)

theorem reconcile_error_leaves {m : MemberId} {container : TypeId} {base : ClassId} {e : CanonError}
    (h : (reconcile m container base s).1 = .error e) :
    (reconcile m container base s).2.canonicalMembers = s.canonicalMembers := by
  unfold reconcile at h ⊢
  rw [bind_apply, bind_apply] at h ⊢
  have hown := eraseOwnTypeParams_leaves_members m s
  generalize eraseOwnTypeParams m s = own at h hown ⊢
  have hsearch := findDeclared_leaves_members m own.1 container base own.2
  generalize findDeclared m own.1 container base own.2 = found at h hsearch ⊢
  obtain ⟨o, t⟩ := found
  cases o with
  | some decl => cases h
  | none => exact hsearch.trans hown

/-- A failure leaves what is remembered of members alone. -/
theorem canonicalizeMember_error_leaves {m : MemberId} {e : CanonError}
    (h : ((canonicalizeMember m).run s).1 = .error e) :
    ((canonicalizeMember m).run s).2.canonicalMembers = s.canonicalMembers := by
  cases memberRun m s with
  | remembered _ hrun =>
    rw [hrun] at h
    cases h
  | plain _ hrun =>
    rw [hrun] at h
    cases h
  | reconciled _ _ hrun =>
    rw [hrun, bind_apply] at h ⊢
    have herror := show (reconcile m (s.types.member m).container _ s).1 = .error e from h
    rw [herror]
    exact reconcile_error_leaves herror

/-- A settled member is its own canonical form, whatever is remembered. -/
theorem canonicalizeMember_of_settled (hs : s.Valid) (hacyclic : s.types.Acyclic) {c : MemberId}
    (hc : s.types.Settled c) : ((canonicalizeMember c).run s).1 = .ok c := by
  obtain ⟨hgrows, hvalid, hpost⟩ := canonicalizeMember_keeps hs hacyclic hc.hasMember
  generalize (canonicalizeMember c).run s = r at hgrows hvalid hpost ⊢
  obtain ⟨result, t⟩ := r
  dsimp only at hgrows hvalid hpost
  have hc' := hc.of_le hs.types hgrows.le.1
  cases hpost with
  | canonical hfind => exact congrArg Except.ok ((hvalid.members hfind).self hc')
  | unexplained hkind _ _ => exact absurd hkind hc'.container.not_inst

/-- An instance that is seen in an instantiation has a canonical form if and only if it matches a
member that the class declares, and then it is the canonical form of such a member. An instance that
is seen anywhere else has one. A failure is not remembered and declares nothing. A canonical member
is settled, and it is its own canonical form, also when nothing is remembered. -/
theorem canonicalizeMember_exact (hs : Reachable s) (hacyclic : s.types.Acyclic) {m : MemberId}
    (hm : s.types.HasMember m) :
    let container := (s.types.member m).container
    let a := (canonicalizeMember m).run s
    (∀ base sub outer, s.types.pool.HasKind container (.inst base sub outer) →
      (a.1 = .error (.unreconcilable (a.2.types.displayMember m) (a.2.types.display container)) ↔
        ¬ ∃ decl ∈ (s.types.classDef base).members, s.Matches m decl) ∧
      ((∃ c, a.1 = .ok c) ↔ ∃ decl ∈ (s.types.classDef base).members, s.Matches m decl) ∧
      ∀ c, a.1 = .ok c → ∃ decl ∈ (s.types.classDef base).members, s.Matches m decl ∧
        (canonicalizeMember decl).run a.2 = (.ok c, a.2)) ∧
    ((∀ base sub outer, ¬ s.types.pool.HasKind container (.inst base sub outer)) →
      ∃ c, a.1 = .ok c) ∧
    (∀ e, a.1 = .error e →
      a.2.memo.members = s.memo.members ∧ a.2.types.classes = s.types.classes) ∧
    (∀ c, a.1 = .ok c → a.2.types.Settled c ∧ ((canonicalizeMember c).run a.2).1 = .ok c ∧
      ((canonicalizeMember c).run (fresh a.2.types)).1 = .ok c) := by
  have hvalid := hs.valid
  have hkeeps := canonicalizeMember_keeps hvalid hacyclic hm
  intro container a
  refine ⟨fun base sub outer hkind => ?_, fun hnone => ?_, fun e he => ?_, fun c hc => ?_⟩
  · rcases canonicalizeMember_matches hvalid hacyclic hm hkind with
      ⟨c, hok, decl, hdecl, hmatch, hfind⟩ | ⟨herror, hnone⟩
    · have hexists : ∃ decl ∈ (s.types.classDef base).members, s.Matches m decl :=
        ⟨decl, hdecl, hmatch⟩
      refine ⟨⟨fun h => (nomatch hok.symm.trans h), fun h => absurd hexists h⟩,
        ⟨fun _ => hexists, fun _ => ⟨c, hok⟩⟩, fun c' hc' => ?_⟩
      obtain rfl := Except.ok.inj (hok.symm.trans hc')
      exact ⟨decl, hdecl, hmatch, run_canonicalizeMember_of_find? hfind⟩
    · have hnot : ¬ ∃ decl ∈ (s.types.classDef base).members, s.Matches m decl :=
        fun ⟨decl, hdecl, hmatch⟩ => hnone decl hdecl hmatch
      exact ⟨⟨fun _ => hnot, fun _ => herror⟩,
        ⟨fun ⟨c, hc⟩ => (nomatch herror.symm.trans hc), fun h => absurd h hnot⟩,
        fun c hc => nomatch herror.symm.trans hc⟩
  · refine hkeeps.post.exists_ok fun base sub outer hkind => ?_
    rw [TypeSystem.member_of_le hkeeps.grows.le.1 hm] at hkind
    have hcontainer := (hvalid.types.keys hm.hasKey).container
    exact hnone base sub outer (hkind.of_ge hkeeps.grows.le.1.1 hcontainer)
  · exact ⟨canonicalizeMember_error_leaves he, (Extends.types hkeeps.grows).classes_eq⟩
  · have hpost : Outcome m a.1 a.2 := hkeeps.post
    rw [hc] at hpost
    have hsettled := hpost.settled hkeeps.valid
    have hacyclic' := acyclic_of_grows hvalid hkeeps.grows hacyclic
    exact ⟨hsettled, canonicalizeMember_of_settled hkeeps.valid hacyclic' hsettled,
      canonicalizeMember_of_settled (fresh_valid hkeeps.valid.types) hacyclic' hsettled⟩

/-- The field of the class `Box<T>` as `Box<core.String>` sees it has a canonical form, and a field of
another type derived from it has none. -/
theorem canonicalizeMember_exact_box :
    let s := boxSession.asked (.memberIn ⟨15⟩ ⟨16⟩)
    let t := boxSession.asked (.deriveMember ⟨15⟩ (.field ⟨12⟩ Primitive.int.typeId) ⟨16⟩)
    (∃ c, ((canonicalizeMember ⟨17⟩).run s).1 = .ok c) ∧
      ∃ e, ((canonicalizeMember ⟨17⟩).run t).1 = .error e := by
  intro s t
  have hs : Reachable s := by
    refine .ask _ boxSession_reachable ?_
    unfold TypeSystem.Query.Admitted
    decide +kernel
  have ht : Reachable t := by
    refine .ask _ boxSession_reachable ⟨by decide +kernel, ?_, ?_, ?_, ?_⟩
    · decide +kernel
    · decide +kernel
    · decide +kernel
    · decide +kernel
  have hsacyclic : s.types.Acyclic :=
    TypeSystem.acyclic_of_isEnd (by decide +kernel)
  have htacyclic : t.types.Acyclic :=
    TypeSystem.acyclic_of_isEnd (by decide +kernel)
  obtain ⟨hsmember, hskind⟩ : s.types.HasMember ⟨17⟩ ∧
      s.types.pool.HasKind (s.types.member ⟨17⟩).container (.inst ⟨2⟩ ⟨1⟩ none) := by
    decide +kernel
  obtain ⟨htmember, htkind⟩ : t.types.HasMember ⟨17⟩ ∧
      t.types.pool.HasKind (t.types.member ⟨17⟩).container (.inst ⟨2⟩ ⟨1⟩ none) := by
    decide +kernel
  have hmatch : ∃ decl ∈ (s.types.classDef ⟨2⟩).members, s.Matches ⟨17⟩ decl := by
    unfold Matches
    decide +kernel
  have hnone : ¬ ∃ decl ∈ (t.types.classDef ⟨2⟩).members, t.Matches ⟨17⟩ decl := by
    unfold Matches
    decide +kernel
  obtain ⟨hs', -⟩ := canonicalizeMember_exact hs hsacyclic hsmember
  obtain ⟨ht', -⟩ := canonicalizeMember_exact ht htacyclic htmember
  exact ⟨(hs' _ _ _ hskind).2.1.mpr hmatch, _, (ht' _ _ _ htkind).1.mpr hnone⟩

end Erasure.Canonicalizer
