/-
Links that hold.

Reconciliation tries the declaration that an instance is linked to before all others. If the link
holds, that is, if the instance is an image of that declaration, then both have one canonical form,
whatever else the class declares. The main statements:

* `canonicalizeMember_consistent`: canonicalizing keeps what is remembered consistent.
* `LinkHolds.find?_decl`: an instance whose link holds and the declaration have one canonical form.
-/
import Erasure.Proofs.Canonical.Concord
import Erasure.Proofs.Canonical.Exactness

namespace Erasure.Canonicalizer

variable {s t u : Canonicalizer}

/-! ### What is remembered of classes -/

/-- Work that remembers no member and no class keeps what is remembered consistent. -/
theorem Consistent.keeps {α : Type} {act : CanonicalM α} {P : α → Canonicalizer → Prop}
    (hs : s.Consistent) (h : Keeps act s P)
    (hclassSubsts : Leaves (fun s => s.memo.classSubsts) act)
    (hmembers : Leaves canonicalMembers act) :
    Keeps act s fun a t => P a t ∧ t.Consistent := by
  have hclassSubsts' : (act s).2.memo.classSubsts = s.memo.classSubsts := hclassSubsts s
  have hmembers' : (act s).2.memo.members = s.memo.members := hmembers s
  exact ⟨h.grows, h.valid, h.post, hs.extend h.grows h.valid
    (fun hfind => .inl (hclassSubsts' ▸ hfind)) fun hfind => .inl (hmembers' ▸ hfind)⟩

/-- Remembering the substitution that erases the type parameters of a class. -/
theorem rememberClassSubst_consistent (hs : s.Consistent) {c : ClassId} {x : Option SubstId}
    (hmiss : s.memo.classSubsts.find? c = none) (hx : s.ClassErasureEntry c x) :
    Keeps (modifyMemo fun m => { m with classSubsts := m.classSubsts.insert c x }) s
      fun _ t => t.Consistent := by
  have hkeeps := rememberClassSubst_keeps hs.valid hmiss fun sub hsub => ⟨_, hx.binds sub hsub⟩
  refine ⟨hkeeps.grows, hkeeps.valid, hs.extend hkeeps.grows hkeeps.valid (fun hfind => ?_) .inl⟩
  rcases Memo.find?_insert_cases hfind with ⟨rfl, rfl⟩ | hold
  · exact .inr (hx.of_le hkeeps.grows.le ((Extends.types hkeeps.grows).continues hs.valid.types))
  · exact .inl hold

theorem classErasure_consistent (hs : s.Consistent) {c : ClassId} (hc : s.types.Mentions c) :
    Keeps (classErasure c) s fun _ t => t.Consistent := by
  unfold classErasure
  refine Keeps.get_bind ?_
  cases hfind : s.memo.classSubsts.find? c with
  | some x => exact Keeps.pure hs.valid hs
  | none =>
    have hremember : ∀ x t, t.Consistent → t.memo.classSubsts = s.memo.classSubsts →
        t.ClassErasureEntry c x → Keeps (do
          modifyMemo fun m => { m with classSubsts := m.classSubsts.insert c x }
          return x) t fun _ u => u.Consistent := fun x t ht hsame hx =>
      (rememberClassSubst_consistent ht (hsame ▸ hfind) hx).bind fun _ u _ hu h => Keeps.pure hu h
    dsimp only
    split
    case isTrue hgeneric =>
      have hleaves := @erasingSubst_leaves _ (·.classSubsts) (fun _ _ => rfl) (fun _ _ => rfl)
        (s.types.typeParamsInScope c)
      have herasing := hs.keeps (erasingSubst_computes hs.valid hs.acyclic _).toKeeps hleaves
        (@erasingSubst_leaves _ (·.members) (fun _ _ => rfl) (fun _ _ => rfl) _)
      refine ((herasing.with_leaves hleaves).map (R := fun x t => t.ClassErasureEntry c x ∧
        t.Consistent ∧ t.memo.classSubsts = s.memo.classSubsts) ?_).bind fun x t _ _ hx =>
          hremember x t hx.2.1 hx.2.2 hx.1
      rintro sub t hst ⟨⟨hbinds, ht⟩, hsame⟩
      have hcontinues := (Extends.types hst).continues hs.valid.types
      refine ⟨⟨hc.of_le hst.le.1, ?_, ?_⟩, ht, hsame⟩
      · rw [hcontinues.isGeneric hc, hgeneric]
        rfl
      · rintro _ ⟨⟩
        rwa [hcontinues.typeParamsInScope hc]
    case isFalse hne =>
      refine hremember none s hs rfl ⟨hc, ?_, nofun⟩
      exact (Bool.eq_false_iff.mpr hne).symm

/-! ### Canonical members -/

theorem canonicalizeRaw_consistent (hs : s.Consistent) {m : MemberId} {container : TypeId}
    (hm : s.types.HasMember m) (hcontainer : s.types.pool.Has container) :
    Keeps (canonicalizeRaw m container) s fun _ t => t.Consistent := by
  have hsignature : ∀ n t, t.Consistent → t.types.HasMember n →
      Keeps (eraseSignature n) t fun _ u => u.Consistent := fun n t ht hn =>
    (ht.keeps (eraseSignature_computes ht.valid ht.acyclic hn).toKeeps
      (@eraseSignature_leaves _ (·.classSubsts) (fun _ _ => rfl) (fun _ _ => rfl) n)
      (eraseSignature_leaves_members n)).mono fun _ _ _ _ h => h.2
  unfold canonicalizeRaw
  refine Keeps.get_bind ?_
  split
  case h_1 c hk =>
    have hc := TypeSystem.mentions_raw (hcontainer.hasKind_of_eq hk)
    refine ((classErasure_consistent hs hc).and
      (classErasure_computes hs.valid hs.acyclic c).toKeeps).bind ?_
    rintro x t hst - ⟨ht, hx⟩
    have hm' := hm.of_le hst.le.1
    cases x with
    | none => exact hsignature m t ht hm'
    | some sub =>
      obtain ⟨bs, hbs⟩ := ((ht.classSubsts hx).binds sub rfl).exists_bindings
      have hsubst := lift_keeps ht.valid (TypeSystem.substituteMember_computes ht.valid.types
        hm'.hasKey hbs (hcontainer.of_le hst.le.1.1)).toKeeps
      refine (ht.keeps hsubst (fun _ => rfl) fun _ => rfl).bind ?_
      rintro n u - - ⟨⟨kind, -, hn⟩, hu⟩
      exact hsignature n u hu hn.hasMember
  case h_2 => exact hsignature m s hs hm

/-- Remembering the canonical form of a member that is linked as it should be. -/
theorem rememberMember_consistent (hs : s.Consistent) {m c : MemberId}
    (hentry : s.ReconciledEntry m c) (hold : ∀ b, s.memo.members.find? m = some b → b = c)
    (hlinked : s.LinkedEntry m c) : Keeps (rememberMember m c) s fun _ t => t.Consistent := by
  have hkeeps := rememberMember_keeps hs.valid hentry hold
  have hle := hkeeps.grows.le
  have hcontinues := (Extends.types hkeeps.grows).continues hs.valid.types
  have hsettled := hentry.settled.of_le hs.valid.types hle.1
  refine ⟨hkeeps.grows, hkeeps.valid, hs.extend hkeeps.grows hkeeps.valid .inl fun hfind => ?_⟩
  rcases Memo.find?_insert_both_cases hfind with hfind | ⟨rfl | rfl, rfl⟩
  · exact .inl hfind
  · exact .inr (hlinked.of_le hle hcontinues hs.valid.types hentry.has)
  · -- a canonical member is seen in no instantiation
    exact .inr fun base sub outer hk => absurd hk hsettled.container.not_inst

/-- A member that is seen in no instantiation needs no link. -/
theorem LinkedEntry.of_not_inst (hts : s.types.Valid) {m : MemberId} (hm : s.types.HasMember m)
    (hcontainer : ∀ base sub outer, s.types.kind (s.types.member m).container ≠
      .inst base sub outer) (hle : s.types ≤ t.types) (c : MemberId) : t.LinkedEntry m c := by
  intro base sub outer hk
  rw [TypeSystem.member_of_le hle hm] at hk
  have hkind := TypeSystem.kind_of_le hle (hts.keys hm.hasKey).container
  exact absurd (hkind.symm.trans hk.kind_eq) (hcontainer base sub outer)

theorem canonicalizeDeclared_consistent (hs : s.Consistent) {m : MemberId}
    (hm : s.types.HasMember m)
    (hcontainer : ∀ base sub outer, s.types.kind (s.types.member m).container ≠
      .inst base sub outer) :
    Keeps (canonicalizeDeclared m) s fun _ t => t.Consistent := by
  unfold canonicalizeDeclared
  refine Keeps.get_bind ?_
  cases hfind : s.memo.members.find? m with
  | some c => exact Keeps.pure hs.valid hs
  | none =>
    have hhas := (hs.valid.types.keys hm.hasKey).container
    have hown := eraseOwnTypeParams_computes hs.valid hs.acyclic hm
    refine ((hs.keeps hown.toKeeps
      (@eraseOwnTypeParams_leaves _ (·.classSubsts) (fun _ _ => rfl) (fun _ _ => rfl)
        (fun _ _ => rfl) m) (eraseOwnTypeParams_leaves_members m)).with_leaves
      (eraseOwnTypeParams_leaves_members m)).bind ?_
    rintro erased t hst - ⟨⟨herased, ht⟩, hsame⟩
    have hmember := TypeSystem.member_of_le hst.le.1 hm
    have hm' := hm.of_le hst.le.1
    have hcanonical := canonicalizeRaw_keeps ht.valid ht.acyclic hm' herased
      fun base sub outer => by
        rw [hmember, TypeSystem.kind_of_le hst.le.1 hhas]
        exact hcontainer base sub outer
    rw [hmember] at hcanonical
    refine (hcanonical.and (canonicalizeRaw_consistent ht (herased.hasMember hm')
      (hhas.of_le hst.le.1.1))).bind ?_
    rintro c u htu - ⟨⟨hentry, hsame'⟩, hu⟩
    have hmembers : u.memo.members = s.memo.members := hsame'.trans hsame
    refine (rememberMember_consistent hu hentry (fun b hb => ?_) (.of_not_inst hs.valid.types hm
      hcontainer (hst.trans htu).le.1 c)).bind fun _ v _ hv hc => Keeps.pure hv hc
    rw [hmembers, hfind] at hb
    cases hb

/-- The answer of a search is the member `linked`, or that member does not explain the instance. -/
def Prefers (t : Canonicalizer) (linked : MemberId) (container : TypeId) (erased : MemberId)
    (o : Option MemberId) : Prop :=
  ∀ decl ∈ o, decl = linked ∨ ∃ subst e,
    Answers (liftM (Pool.fullSubst container : StateM Pool SubstId) : CanonicalM SubstId) subst t ∧
    t.ErasedImage subst container linked e ∧ e ≠ erased

/-- A search prefers the declaration that the instance is linked to. -/
theorem findDeclared_prefers (hs : s.Valid) (hacyclic : s.types.Acyclic) {m erased : MemberId}
    (hm : s.types.HasMember m) {container : TypeId} (hcontainer : s.types.pool.Has container)
    {base : ClassId} :
    Keeps (findDeclared m erased container base) s fun o t =>
      (s.types.member m).decl ∈ (s.types.classDef base).members →
        t.Prefers (s.types.member m).decl container erased o := by
  by_cases hlinked : (s.types.member m).decl ∈ (s.types.classDef base).members
  case neg =>
    exact (findDeclared_keeps hs hacyclic hcontainer m erased base).mono
      fun _ _ _ _ _ h => absurd h hlinked
  case pos =>
    unfold findDeclared
    refine (lift_fullSubst_computes hs hcontainer).with_answers.toKeeps.bind ?_
    rintro subst t hst ht ⟨⟨bs, hsubst⟩, hanswers⟩
    refine Keeps.get_bind ?_
    dsimp only
    rw [TypeSystem.member_of_le hst.le.1 hm, (Extends.types hst).classDef_eq, if_pos hlinked]
    have hdecls : ∀ decl ∈ (s.types.member m).decl :: (s.types.classDef base).members,
        t.types.HasMember decl := fun decl hdecl => (hs.types.hasMember_of_declared
      ((List.mem_cons.mp hdecl).elim (· ▸ hlinked) id)).of_le hst.le.1
    refine (firstExplaining_computes ht (acyclic_of_grows hs hst hacyclic) hsubst
      (hcontainer.of_le hst.le.1.1) hdecls).toKeeps.mono fun o u htu _ ho _ decl hdecl => ?_
    obtain ⟨before, after, heq, -, hbefore⟩ := ho.1 decl hdecl
    cases before with
    | nil => exact .inl (List.cons.inj heq).1.symm
    | cons first before =>
      -- the linked declaration was tried before the one that was found
      obtain ⟨rfl, -⟩ := List.cons.inj heq
      obtain ⟨e, he, hne⟩ := hbefore _ List.mem_cons_self
      exact .inr ⟨subst, e, hanswers.of_le htu.le, he, hne⟩

/-- Reconciling keeps what is remembered consistent, and what it gives is linked as it should be. -/
theorem reconcile_consistent (hs : s.Consistent) {m : MemberId} {base : ClassId} {sub : SubstId}
    {outer : Option TypeId} (hm : s.types.HasMember m)
    (hkind : s.types.pool.HasKind (s.types.member m).container (.inst base sub outer)) :
    Keeps (reconcile m (s.types.member m).container base) s fun x t =>
      t.Consistent ∧ ∀ c, x = .ok c → t.LinkedEntry m c := by
  have hown := (eraseOwnTypeParams_computes hs.valid hs.acyclic hm).with_answers.toKeeps
  unfold reconcile
  refine (hs.keeps hown
    (@eraseOwnTypeParams_leaves _ (·.classSubsts) (fun _ _ => rfl) (fun _ _ => rfl)
      (fun _ _ => rfl) m) (eraseOwnTypeParams_leaves_members m)).bind ?_
  rintro erased t hst - ⟨⟨-, hanswers⟩, ht⟩
  have hmember := TypeSystem.member_of_le hst.le.1 hm
  have hm' := hm.of_le hst.le.1
  have hcontainer := hkind.has.of_le hst.le.1.1
  have hsearch := findDeclared_keeps ht.valid ht.acyclic hcontainer m erased base
  refine ((ht.keeps hsearch
    (@findDeclared_leaves _ (·.classSubsts) (fun _ _ => rfl) (fun _ _ => rfl) (fun _ _ => rfl) m
      erased _ base) (findDeclared_leaves_members m erased _ base)).and
    (findDeclared_prefers ht.valid ht.acyclic hm' hcontainer)).bind ?_
  rintro o u htu - ⟨⟨hsearch, hu⟩, hlinked⟩
  cases o with
  | none => exact Keeps.get_bind (Keeps.pure hu.valid ⟨hu, nofun⟩)
  | some decl =>
    obtain ⟨hdecl, -⟩ := hsearch.found decl rfl
    have hm'' := hu.valid.types.hasMember_of_declared hdecl
    have hne := not_inst_of_declared hu.valid.types hdecl
    dsimp only
    rw [map_eq_pure_bind]
    refine ((canonicalizeDeclared_keeps hu.valid hu.acyclic hm'' hne).and
      (canonicalizeDeclared_consistent hu hm'' hne)).bind ?_
    rintro c v huv - ⟨⟨hc, -⟩, hv⟩
    refine Keeps.pure hv.valid ⟨hv, ?_⟩
    rintro _ ⟨⟩ base' sub' outer' hk' hdecl'
    have htv := htu.trans huv
    have hmember' := TypeSystem.member_of_le (hst.trans htv).le.1 hm
    have hkind' := hkind.of_le (hst.trans htv).le.1.1
    rw [hmember'] at hdecl' hk' ⊢
    cases hk'.unique hkind'
    rw [hmember, ← (Extends.types htv).classDef_eq base] at hlinked
    rcases hlinked hdecl' decl rfl with rfl | ⟨subst, e, hsubst, himage, hne⟩
    · exact .inl hc
    · refine .inr ⟨e, erased, ?_, hanswers.of_le htv.le, hne⟩
      rw [hmember']
      exact (himage.of_le huv.le).answers hkind' (hsubst.of_le huv.le)

/-- Canonicalizing a member keeps what is remembered consistent. -/
theorem canonicalizeMember_consistent (hs : s.Consistent) {m : MemberId}
    (hm : s.types.HasMember m) :
    Keeps (canonicalizeMember m).run s fun _ t => t.Consistent := by
  cases memberRun m s with
  | remembered _ hrun => exact .congr hrun (Keeps.pure hs.valid hs)
  | plain hcontainer hrun =>
    exact .congr hrun
      ((canonicalizeDeclared_consistent hs hm hcontainer).map fun _ _ _ h => h)
  | reconciled hmiss hk hrun =>
    have hkind := (hs.valid.types.keys hm.hasKey).container.hasKind_of_eq hk
    apply Keeps.congr hrun
    refine ((reconcile_keeps hs.valid hs.acyclic hm hkind hmiss).and
      (reconcile_consistent hs hm hkind)).bind ?_
    rintro (e | c) t - - ⟨⟨hok, -⟩, ht, hlinked⟩
    · exact Keeps.pure ht.valid ht
    · obtain ⟨hentry, hold⟩ := hok c rfl
      exact (rememberMember_consistent ht hentry hold (hlinked c rfl)).bind
        fun _ u _ hu h => Keeps.pure hu h

/-! ### Links that hold -/

/-- An instance is the declaration that it is linked to, or it is an image of that declaration. -/
inductive LinkHolds (ts : TypeSystem) (m : MemberId) : Prop
  | declared {base : ClassId} : m ∈ (ts.classDef base).members → (ts.member m).decl = m →
      LinkHolds ts m
  | image {base : ClassId} {sub : SubstId} {outer : Option TypeId} :
      ts.pool.HasKind (ts.member m).container (.inst base sub outer) →
      (ts.member m).decl ∈ (ts.classDef base).members →
      (fresh ts).Matches m (ts.member m).decl → LinkHolds ts m

theorem LinkHolds.exists_declared {ts : TypeSystem} {m : MemberId} (h : LinkHolds ts m) :
    ∃ base, (ts.member m).decl ∈ (ts.classDef base).members := by
  cases h with
  | declared hm hself => exact ⟨_, hself.symm ▸ hm⟩
  | image _ hdecl _ => exact ⟨_, hdecl⟩

/-- A canonicalizer that remembers nothing grows into any that remembers what the declarations
demand. -/
theorem grows_of_consistent {ts : TypeSystem} (hext : TypeSystem.Extends ts t.types)
    (ht : t.Consistent) : Store.Grows (fresh ts) t where
  le := ⟨hext.le, nofun, nofun, nofun, nofun⟩
  types := hext
  coherent hM := Memo.eq_empty_of_le hM.le ▸ ht.coherent

section Correspondence

variable (hs : s.Valid) (ht : t.Valid) (hu : u.Valid) (hst : Store.Grows s t)
  (hsu : Store.Grows s u)
include hs ht hu hst hsu

/-- Instances with their own type parameters erased at different times correspond. -/
theorem OwnErased.mirrors {m own own' : MemberId} (hm : s.types.HasMember m)
    (h : t.OwnErased m own) (h' : u.OwnErased m own') :
    ∃ (k : MemberKey) (l l' : MemberKind), t.types.HasKey own { k with kind := l } ∧
      u.types.HasKey own' { k with kind := l' } ∧ l.Related (t.types.pool.Mirrors u.types.pool) l' := by
  have hself : ∀ {n}, s.types.HasMember n →
      (s.types.member n).kind.Related (t.types.pool.Mirrors u.types.pool) (s.types.member n).kind :=
    fun hn => .refl fun ty hty => mirrors_of_has hs ht hst hsu ((hs.types.keys hn.hasKey).types ty hty)
  have hparams := TypeSystem.ownTypeParams_of_le hs.types hst.le.1 hm
  have hparams' := TypeSystem.ownTypeParams_of_le hs.types hsu.le.1 hm
  rcases h with ⟨hnone, rfl⟩ | ⟨hne, sub, bs, l, hfind, hbs, hl, hkey⟩
  · rcases h' with ⟨-, rfl⟩ | ⟨hne', -⟩
    · exact ⟨_, _, _, hm.hasKey.of_le hst.le.1, hm.hasKey.of_le hsu.le.1, hself hm⟩
    · exact absurd (hparams'.trans (hparams.symm.trans hnone)) hne'
  · rcases h' with ⟨hnone', -⟩ | ⟨-, sub', bs', l', hfind', hbs', hl', hkey'⟩
    · exact absurd (hparams.trans (hparams'.symm.trans hnone')) hne
    · have hform := TypeSystem.hasMember_genericForm hs.types hm
      rw [TypeSystem.genericForm_of_le hst.le.1 hm] at hfind hl hkey
      rw [TypeSystem.genericForm_of_le hsu.le.1 hm] at hfind' hl' hkey'
      rw [TypeSystem.member_of_le hst.le.1 hform] at hl hkey
      rw [TypeSystem.member_of_le hsu.le.1 hform] at hl' hkey'
      have hrelated := related_memberSubsts hs ht hu hst hsu (hform.hasKey.of_le hst.le.1)
        (hform.hasKey.of_le hsu.le.1) (hself hform) hfind hfind' hbs hbs'
      exact ⟨_, l, l', hkey, hkey',
        hl.mirrors ht.types.pool hu.types.pool hrelated (hself hform) hl'⟩

/-- An erased image that is an instance with its own type parameters erased at one time is so at any
other. -/
theorem ImageErased.eq_ownErased {k : MemberKey} {container : TypeId} {m e own e' : MemberId}
    (hcontainer : s.types.pool.Has container) (hk : ∀ ty ∈ k.kind.types, s.types.pool.Has ty)
    (hgeneric : k.generic = none) (hm : s.types.HasMember m)
    (he : t.ImageErased (s.types.pool.instanceBindings container) container k e)
    (hown : t.OwnErased m own)
    (he' : u.ImageErased (s.types.pool.instanceBindings container) container k e')
    (hown' : u.OwnErased m e') : e = own := by
  obtain ⟨x, x', hx, hx', hrelated⟩ := he.mirrors hs ht hu hst hsu hcontainer hk hgeneric he'
  obtain ⟨key, y, y', hy, hy', hrelated'⟩ := hown.mirrors hs ht hu hst hsu hm hown'
  obtain ⟨rfl, hcontainer', hflags, hgeneric'⟩ := MemberKey.mk.inj (hx'.unique hy')
  obtain rfl := hrelated.inj (fun _ _ _ h h' => h.inj ht.types.pool hu.types.pool h') hrelated'
  rw [hflags, hgeneric', hcontainer'] at hx
  exact hx.inj hy

end Correspondence

/-- An instance whose link holds and the declaration that it is linked to have one canonical
form. -/
theorem LinkHolds.find?_decl {ts : TypeSystem} (hts : ts.Valid) (hacyclic : ts.Acyclic)
    (ht : t.Consistent) (hext : TypeSystem.Extends ts t.types) {m c : MemberId}
    (hm : ts.HasMember m) (hlink : LinkHolds ts m) (hc : t.memo.members.find? m = some c) :
    t.memo.members.find? (ts.member m).decl = some c := by
  cases hlink with
  | declared _ hself => rwa [hself]
  | @image base sub outer hkind hdecl hmatches =>
    have hs := fresh_valid hts
    have hst := grows_of_consistent hext ht
    have hm' := hm.of_le hext.le
    have hmember : t.types.member m = ts.member m := TypeSystem.member_of_le hext.le hm
    have hlinked := ht.members hc base sub outer
    rw [hmember] at hlinked
    refine (hlinked (hkind.of_le hext.le.1) (hext.classDef_eq base ▸ hdecl)).resolve_right ?_
    rintro ⟨e, own, he, hown, hne⟩
    rw [hmember] at he
    obtain ⟨k, hk, -, hgeneric⟩ := (hts.classes base).members _ hdecl
    have hown₀ := eraseOwnTypeParams_computes hs hacyclic (m := m) hm
    have hacyclic' := acyclic_of_grows hs hown₀.grows hacyclic
    have himage₀ := erasedImage_computes hown₀.valid hacyclic' (hk.of_le hown₀.grows.le.1)
      (hkind.of_le hown₀.grows.le.1.1)
    have hsu := hown₀.grows.trans himage₀.grows
    have he₀ := ImageErased.of_answers hs himage₀.valid hacyclic hsu hk hkind himage₀.again
    have hown₁ := hown₀.post.of_le himage₀.grows.le hown₀.valid.types (hm.of_le hown₀.grows.le.1)
    rw [← show _ = _ from hmatches] at hown₁
    exact hne (ImageErased.eq_ownErased hs ht.valid himage₀.valid hst hsu hkind.has
      (hts.keys hk).types hgeneric hm
      (.of_answers hs ht.valid hacyclic hst hk hkind he)
      (.of_answers ht.valid ht.acyclic hm' hown) he₀ hown₁)

end Erasure.Canonicalizer
