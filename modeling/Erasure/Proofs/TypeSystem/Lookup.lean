/-
Lookups declare nothing.

A lookup interns names and types and derives members as the types above a container see them, and
the type system stays valid, whether a member is found or not. The main statements:

* `supertypes_keeps`, `lookupChain_keeps`: the types above a container are types of the pool.
* `IsView`: a declared member, or its image in an instantiation of its class.
* `findField_keeps`, `findMethod_keeps`, `findConstructor_keeps`: what is found is a view of a
  member of the form looked for.
-/
import Erasure.TypeSystem.Lookup
import Erasure.Proofs.TypeSystem.Declarations
import Erasure.Proofs.TypeSystem.Image
import Erasure.Proofs.TypeSystem.Join

namespace Erasure.TypeSystem

variable {ts us : TypeSystem}

/-! ### The types above a container -/

/-- All types of the list are types of the pool. -/
def HasAll (ts : TypeSystem) (tys : List TypeId) : Prop := ∀ ty ∈ tys, ts.pool.Has ty

instance (tys : List TypeId) : Decidable (ts.HasAll tys) :=
  inferInstanceAs (Decidable (∀ ty ∈ tys, ts.pool.Has ty))

theorem HasAll.of_le (hle : ts ≤ us) {tys : List TypeId} (h : ts.HasAll tys) : us.HasAll tys :=
  fun ty hty => (h ty hty).of_le hle.1

theorem substitute_keeps (hts : ts.Valid) {s : SubstId} {bs : Bindings} {ty : TypeId}
    (hs : ts.pool.HasBindings s bs) (hty : ts.pool.Has ty) :
    Keeps (liftM (Pool.substitute s ty) : StateM TypeSystem TypeId) ts
      fun r us => us.pool.Has r :=
  (lift_computes hts (Pool.substitute_computes hts.pool hs hty)).toKeeps.mono
    fun _ _ _ _ h => h.2

/-- The direct supertypes of a type are types of the pool. -/
theorem supertypes_keeps (hts : ts.Valid) {ty : TypeId} (hty : ts.pool.Has ty) :
    Keeps (supertypes ty) ts fun tys us => us.HasAll tys := by
  unfold supertypes
  refine Keeps.get_bind ?_
  cases hk : ts.kind ty with
  | prim _ | null => exact Keeps.pure hts fun u hu => absurd hu List.not_mem_nil
  | array _ => exact Keeps.pure hts fun u hu => List.mem_singleton.mp hu ▸ hts.object.has
  | var v => exact Keeps.pure hts fun u hu => List.mem_singleton.mp hu ▸ hts.bound v
  | lub l => exact Keeps.pure hts (has_candidates hts hty hk)
  | raw c => exact Keeps.pure hts fun u hu => hts.has_declaredSupertypes hu
  | inst base s outer =>
    refine (fullSubst_computes hts hty).toKeeps.bind fun sub us hus hvalid hsub => ?_
    have hstep : ∀ sup ∈ ts.declaredSupertypes base, ∀ vs, Store.Grows us vs → vs.Valid →
        Keeps (liftM (Pool.substitute sub sup) : StateM TypeSystem TypeId) vs
          fun r ws => ws.pool.Has r := fun sup hsup vs hvs hvalid' =>
      substitute_keeps hvalid' (hsub.of_le hvs.le.1)
        ((hts.has_declaredSupertypes hsup).of_le (hus.trans hvs).le.1)
    refine (Keeps.mapM (R := fun _ r vs => vs.pool.Has r) ?_ hvalid hstep).mono ?_
    · exact fun _ _ vs ws hvs hr => hr.of_le hvs.le.1
    · intro rs vs _ _ hrs r hr
      obtain ⟨sup, -, hr⟩ := exists_of_forall₂_right hrs hr
      exact hr

/-- New elements are appended behind those that were there. -/
theorem exists_appendNew_eq {α : Type} [DecidableEq α] (seen xs : List α) :
    ∃ new, appendNew seen xs = seen ++ new ∧ ∀ x ∈ new, x ∈ xs ∧ x ∉ seen := by
  induction xs generalizing seen with
  | nil => exact ⟨[], (List.append_nil seen).symm, fun x hx => absurd hx List.not_mem_nil⟩
  | cons y xs ih =>
    have hstep : appendNew seen (y :: xs) = appendNew (if y ∈ seen then seen else seen ++ [y]) xs :=
      rfl
    rw [hstep]
    split
    case isTrue =>
      obtain ⟨new, heq, hnew⟩ := ih seen
      exact ⟨new, heq, fun x hx => ⟨List.mem_cons_of_mem _ (hnew x hx).1, (hnew x hx).2⟩⟩
    case isFalse hy =>
      obtain ⟨new, heq, hnew⟩ := ih (seen ++ [y])
      refine ⟨y :: new, by rw [heq, List.append_assoc, List.singleton_append], ?_⟩
      refine List.forall_mem_cons.mpr ⟨⟨List.mem_cons_self, hy⟩, fun x hx => ?_⟩
      obtain ⟨hmem, hold⟩ := hnew x hx
      exact ⟨List.mem_cons_of_mem _ hmem, fun hseen => hold (List.mem_append_left _ hseen)⟩

theorem mem_of_mem_appendNew {α : Type} [DecidableEq α] {seen xs : List α} {x : α}
    (h : x ∈ appendNew seen xs) : x ∈ seen ∨ x ∈ xs := by
  obtain ⟨new, heq, hnew⟩ := exists_appendNew_eq seen xs
  rw [heq] at h
  exact (List.mem_append.mp h).imp_right fun hx => (hnew x hx).1

theorem chainWithin_keeps (hts : ts.Valid) {levels : Nat} {seen level : List TypeId}
    (hseen : ts.HasAll seen) (hlevel : ts.HasAll level) :
    Keeps (chainWithin levels seen level) ts fun tys us => us.HasAll tys := by
  induction levels generalizing ts seen level with
  | zero => exact Keeps.pure hts hseen
  | succ levels ih =>
    unfold chainWithin
    have hstep : ∀ ty ∈ level, ∀ us, Store.Grows ts us → us.Valid →
        Keeps (supertypes ty) us fun sups vs => vs.HasAll sups := fun ty hty us hus hvalid =>
      supertypes_keeps hvalid ((hlevel ty hty).of_le hus.le.1)
    refine (Keeps.mapM (R := fun _ sups us => us.HasAll sups) ?_ hts hstep).bind ?_
    · exact fun _ _ us vs hus h => h.of_le hus.le
    intro sups us hus hvalid hsups
    have hnew : us.HasAll (appendNew seen sups.flatten) := by
      intro ty hty
      rcases mem_of_mem_appendNew hty with hty | hty
      · exact (hseen ty hty).of_le hus.le.1
      · obtain ⟨tys, htys, hty⟩ := List.mem_flatten.mp hty
        obtain ⟨u, -, htys⟩ := exists_of_forall₂_right hsups htys
        exact htys ty hty
    dsimp only
    split
    · exact Keeps.pure hvalid (hseen.of_le hus.le)
    · exact ih hvalid hnew fun ty hty => hnew ty (List.mem_of_mem_drop hty)

/-- What holds of the answer of a lookup, if there is one. -/
def Found {α ε : Type} (P : α → TypeSystem → Prop) (x : Except ε α) (ts : TypeSystem) : Prop :=
  ∀ a, x = .ok a → P a ts

theorem found_ok {α ε : Type} {P : α → TypeSystem → Prop} {a : α} (h : P a ts) :
    Found P (.ok a : Except ε α) ts := by
  rintro _ ⟨⟩
  exact h

theorem found_error {α ε : Type} {P : α → TypeSystem → Prop} (e : ε) :
    Found P (.error e : Except ε α) ts := nofun

theorem lookupChain_keeps (hts : ts.Valid) {container : TypeId} (hty : ts.pool.Has container) :
    Keeps (lookupChain container).run ts (Found fun tys us => us.HasAll tys) := by
  unfold lookupChain
  refine Keeps.run_get_bind ?_
  have hchain : Keeps (do
      let start ← resolveLub container
      liftM (chainWithin (← get).chainLevels [start] [start]) : LookupM (List TypeId)).run ts
        (Found fun tys us => us.HasAll tys) := by
    refine (resolveLub_keeps hts hty).run_lift_bind fun start us hus hvalid hstart => ?_
    have hhas : us.HasAll [start] := fun u hu =>
      List.mem_singleton.mp hu ▸ hstart.has (hty.of_le hus.le.1)
    exact Keeps.run_get_bind ((chainWithin_keeps hvalid hhas hhas).run_lift
      fun _ _ _ h => found_ok h)
  split
  · exact Keeps.pure hts (found_error _)
  · exact Keeps.pure hts (found_error _)
  · exact hchain

/-! ### Members -/

/-- A member as any container sees it is a member. -/
theorem memberIn_keeps (hts : ts.Valid) {m : MemberId} {container : TypeId} (hm : ts.HasMember m)
    (hcontainer : ts.pool.Has container) :
    Keeps (memberIn m container) ts fun n us => us.HasMember n := by
  have hkind := hcontainer.hasKind
  cases hk : ts.pool.kind container with
  | inst base s outer =>
    exact (memberIn_computes hts hm.hasKey (hk ▸ hkind)).toKeeps.mono
      fun _ _ _ _ ⟨_, _, hn⟩ => hn.hasMember
  | prim _ | null | array _ | raw _ | var _ | lub _ =>
    unfold memberIn
    refine Keeps.get_bind ?_
    rw [kind, hk]
    exact Keeps.pure hts hm

/-- A member as a lookup sees it: a declared member, or its image in an instantiation of the class
that declares it. -/
inductive IsView (ts : TypeSystem) : MemberId → Prop
  | declared {c : ClassId} {m : MemberId} : m ∈ (ts.classDef c).members → IsView ts m
  | image {c : ClassId} {decl m : MemberId} {container : TypeId} {s : SubstId}
      {outer : Option TypeId} {k : MemberKind} : decl ∈ (ts.classDef c).members →
      ts.pool.HasKind container (.inst c s outer) →
      SubstitutesKind ts.pool (ts.pool.instanceBindings container) (ts.member decl).kind k →
      ts.HasKey m { (ts.member decl).toMemberKey with kind := k, container } → IsView ts m

theorem IsView.hasMember (hts : ts.Valid) {m : MemberId} (h : ts.IsView m) : ts.HasMember m := by
  cases h with
  | declared hm => exact hts.hasMember_of_declared hm
  | image _ _ _ hkey => exact hkey.hasMember

theorem IsView.of_le (hts : ts.Valid) (hle : ts ≤ us) {m : MemberId} (h : ts.IsView m) :
    us.IsView m := by
  cases h with
  | declared hm => exact .declared (declared_of_le hle hm)
  | @image _ _ _ _ _ _ k hdecl hcontainer hkind hkey =>
    have hmember := member_of_le hle (hts.hasMember_of_declared hdecl)
    refine .image (k := k) (declared_of_le hle hdecl) (hcontainer.of_le hle.1) ?_ ?_
    · rw [Pool.instanceBindings_of_le hts.pool hle.1 hcontainer.has, hmember]
      exact hkind.of_le hle.1
    · rw [hmember]
      exact hkey.of_le hle

/-- A view of a member of the given form. -/
structure IsViewOf (ts : TypeSystem) (form : MemberForm) (m : MemberId) : Prop where
  view : ts.IsView m
  form_eq : (ts.member m).kind.form = form

theorem IsViewOf.of_le (hts : ts.Valid) (hle : ts ≤ us) {form : MemberForm} {m : MemberId}
    (h : ts.IsViewOf form m) : us.IsViewOf form m where
  view := h.view.of_le hts hle
  form_eq := by rw [member_of_le hle (h.view.hasMember hts), h.form_eq]

/-- A declared member as its class or an instantiation of the class sees it is a view. -/
theorem memberIn_isView (hts : ts.Valid) {c : ClassId} {decl : MemberId} {container : TypeId}
    (hdecl : decl ∈ (ts.classDef c).members) (hcontainer : ts.pool.Has container)
    (hclass : ts.classOf? container = some c) :
    Keeps (memberIn decl container) ts fun n us =>
      us.IsViewOf (ts.member decl).kind.form n := by
  have hm := hts.hasMember_of_declared hdecl
  have hkind := hcontainer.hasKind
  cases hk : ts.pool.kind container with
  | inst base s outer =>
    rw [hk] at hkind
    rw [classOf?, kind, hk] at hclass
    obtain rfl := Option.some.inj hclass
    refine (memberIn_computes hts hm.hasKey hkind).toKeeps.mono ?_
    rintro n us hus - ⟨l, hl, hn⟩
    refine ⟨.image (k := l) (declared_of_le hus.le hdecl) (hkind.of_le hus.le.1) ?_ ?_, ?_⟩
    · rwa [Pool.instanceBindings_of_le hts.pool hus.le.1 hcontainer, member_of_le hus.le hm]
    · rwa [member_of_le hus.le hm]
    · rw [hn.kind_eq, hl.form_eq]
  | prim _ | null | array _ | raw _ | var _ | lub _ =>
    unfold memberIn
    refine Keeps.get_bind ?_
    rw [kind, hk]
    exact Keeps.pure hts ⟨.declared hdecl, rfl⟩

/-- A lookup that may fail finds a view of a member of the given form. -/
abbrev FindsView (form : MemberForm) (act : LookupM MemberId) (ts : TypeSystem) : Prop :=
  Keeps act.run ts (Found fun m us => us.IsViewOf form m)

theorem form_of_declaredField? {c : ClassId} {name : Name} {m : MemberId}
    (h : ts.declaredField? c name = some m) : (ts.member m).kind.form = .field := by
  have hm := List.find?_some h
  cases hk : (ts.member m).kind with
  | field _ _ => rfl
  | method _ _ _ _ | constructor _ _ | initializer =>
    rw [hk] at hm
    cases hm

theorem form_of_mem_declaredMethods {c : ClassId} {name : Name} {m : MemberId}
    (h : m ∈ ts.declaredMethods c name) : (ts.member m).kind.form = .procedure := by
  have hm := (List.mem_filter.mp h).2
  cases hk : (ts.member m).kind with
  | method _ _ _ _ => rfl
  | constructor _ _ | field _ _ | initializer =>
    rw [hk] at hm
    cases hm

theorem form_of_mem_declaredConstructors {c : ClassId} {m : MemberId}
    (h : m ∈ ts.declaredConstructors c) : (ts.member m).kind.form = .procedure := by
  have hm := (List.mem_filter.mp h).2
  cases hk : (ts.member m).kind with
  | constructor _ _ => rfl
  | method _ _ _ _ | field _ _ | initializer =>
    rw [hk] at hm
    cases hm

theorem findField_keeps (hts : ts.Valid) {container : TypeId} (hty : ts.pool.Has container)
    (name : String) : FindsView .field (findField container name) ts := by
  unfold findField
  refine (intern_keeps hts name).run_lift_bind fun n us hus hvalid _ => ?_
  refine (lookupChain_keeps hvalid (hty.of_le hus.le.1)).run_bind ?_ fun chain vs _ hvalid' h => ?_
  · exact fun e vs _ _ _ => found_error e
  refine Keeps.run_get_bind ?_
  dsimp only
  split
  · rename_i m ty hfound
    obtain ⟨u, hu, hm⟩ := List.exists_of_findSome?_eq_some hfound
    obtain ⟨c, hc, hm⟩ := Option.bind_eq_some_iff.mp hm
    obtain ⟨m', hm', heq⟩ := Option.bind_eq_some_iff.mp hm
    cases heq
    have hform := form_of_declaredField? hm'
    exact (memberIn_isView hvalid' (List.mem_of_find?_eq_some hm') (h chain rfl _ hu) hc).run_lift
      fun _ _ _ h => found_ok (hform ▸ h)
  · exact Keeps.pure hvalid' (found_error _)

/-- All instances of the list are views of procedures. -/
def AreViews (ts : TypeSystem) (ms : List MemberId) : Prop := ∀ m ∈ ms, ts.IsViewOf .procedure m

theorem AreViews.of_le (hts : ts.Valid) (hle : ts ≤ us) {ms : List MemberId}
    (h : ts.AreViews ms) : us.AreViews ms := fun m hm => (h m hm).of_le hts hle

theorem addMethodCandidate_keeps (hts : ts.Valid) {args : List TypeId} {ty : TypeId}
    {candidates : List MemberId} {c : ClassId} {decl : MemberId} (hty : ts.pool.Has ty)
    (hclass : ts.classOf? ty = some c) (hcandidates : ts.AreViews candidates)
    (hdecl : decl ∈ (ts.classDef c).members) (hform : (ts.member decl).kind.form = .procedure) :
    Keeps (addMethodCandidate args ty candidates decl) ts fun ms us => us.AreViews ms := by
  unfold addMethodCandidate
  refine (memberIn_isView hts hdecl hty hclass).bind fun image us hus hvalid himage =>
    Keeps.get_bind ?_
  have hold := hcandidates.of_le hts hus.le
  dsimp only
  split
  · refine Keeps.pure hvalid fun m hm => ?_
    rcases List.mem_append.mp hm with hm | hm
    · exact hold m hm
    · rw [List.mem_singleton.mp hm, ← hform]
      exact himage
  · exact Keeps.pure hvalid hold

theorem methodCandidates_keeps (hts : ts.Valid) {chain : List TypeId} (hchain : ts.HasAll chain)
    (name : Name) (args : List TypeId) :
    Keeps (methodCandidates chain name args) ts fun ms us => us.AreViews ms := by
  unfold methodCandidates
  refine Keeps.foldlM hts (fun m hm => absurd hm List.not_mem_nil) ?_
  intro ty hty candidates us hus hvalid hcandidates
  have hhas := (hchain ty hty).of_le hus.le.1
  refine Keeps.get_bind (Keeps.foldlM hvalid hcandidates ?_)
  intro decl hdecl candidates' vs hvs hvalid' hcandidates'
  cases hc : us.classOf? ty with
  | none =>
    rw [hc] at hdecl
    exact absurd hdecl List.not_mem_nil
  | some c =>
    rw [hc] at hdecl
    have hclass : vs.classOf? ty = some c := by
      rw [classOf?, kind_of_le hvs.le hhas]
      exact hc
    have hmem := (List.mem_filter.mp hdecl).1
    refine addMethodCandidate_keeps hvalid' (hhas.of_le hvs.le.1) hclass hcandidates'
      (declared_of_le hvs.le hmem) ?_
    rw [member_of_le hvs.le (hvalid.hasMember_of_declared hmem)]
    exact form_of_mem_declaredMethods hdecl

/-- The most specific candidate is one of the candidates. -/
theorem mem_of_mostSpecific? {candidates : List MemberId} {m : MemberId}
    (h : ts.mostSpecific? candidates = some m) : m ∈ candidates := by
  unfold mostSpecific? at h
  split at h
  · rename_i only honly
    have hmem := List.mem_filter.mp (honly ▸ List.mem_singleton_self only)
    exact Option.some.inj h ▸ hmem.1
  · cases h

theorem findMethod_keeps (hts : ts.Valid) {container : TypeId} (hty : ts.pool.Has container)
    (name : String) (args : List TypeId) : FindsView .procedure (findMethod container name args) ts := by
  unfold findMethod
  refine (intern_keeps hts name).run_lift_bind fun n us hus hvalid _ => ?_
  refine (lookupChain_keeps hvalid (hty.of_le hus.le.1)).run_bind ?_ fun chain vs _ hvalid' h => ?_
  · exact fun e vs _ _ _ => found_error e
  refine (methodCandidates_keeps hvalid' (h chain rfl) n args).run_lift_bind ?_
  intro candidates ws _ hvalid'' hcandidates
  refine Keeps.run_get_bind ?_
  split
  · rename_i m hm
    exact Keeps.pure hvalid'' (found_ok (hcandidates m (mem_of_mostSpecific? hm)))
  · exact Keeps.pure hvalid'' (found_error _)

theorem findConstructor_keeps (hts : ts.Valid) {container : TypeId} (hty : ts.pool.Has container)
    (args : List TypeId) : FindsView .procedure (findConstructor container args) ts := by
  unfold findConstructor
  refine Keeps.run_get_bind ?_
  split
  · exact Keeps.pure hts (found_error _)
  · rename_i c hc
    have hstep : ∀ decl ∈ ts.declaredConstructors c, ∀ us, Store.Grows ts us → us.Valid →
        Keeps (memberIn decl container) us fun m vs => ∀ ws, vs ≤ ws →
          ws.IsViewOf .procedure m := by
      intro decl hdecl us hus hvalid
      have hmem := (List.mem_filter.mp hdecl).1
      have hform : (us.member decl).kind.form = .procedure := by
        rw [member_of_le hus.le (hts.hasMember_of_declared hmem)]
        exact form_of_mem_declaredConstructors hdecl
      have hclass : us.classOf? container = some c := by
        rw [classOf?, kind_of_le hus.le hty]
        exact hc
      exact (memberIn_isView hvalid (declared_of_le hus.le hmem) (hty.of_le hus.le.1) hclass).mono
        fun _ _ _ hvs h _ hle => (hform ▸ h).of_le hvs hle
    refine (Keeps.run_mapM_lift (R := fun _ m us => ∀ vs, us ≤ vs → vs.IsViewOf .procedure m) ?_ hts
      hstep).run_bind ?_ ?_
    · exact fun _ _ us vs hus h ws hle => h ws (le_trans hus.le hle)
    · exact fun e us _ _ _ => found_error e
    rintro images us hus hvalid ⟨_, ⟨⟩, himages⟩
    refine Keeps.run_get_bind ?_
    dsimp only
    split
    · rename_i m hm
      obtain ⟨decl, -, hmem⟩ := exists_of_forall₂_right himages
        (List.mem_filter.mp (mem_of_mostSpecific? hm)).1
      exact Keeps.pure hvalid (found_ok (hmem us (le_refl us)))
    · exact Keeps.pure hvalid (found_error _)

/-! ### Classes and names -/

theorem requireClass_keeps (hts : ts.Valid) (name : String) :
    Keeps (requireClass name).run ts (Found fun ty us => us.pool.Has ty) := by
  unfold requireClass
  refine Keeps.run_get_bind ?_
  split
  · exact (lift_computes hts (Pool.rawClass_computes hts.pool _)).toKeeps.run_lift
      fun _ _ _ h => found_ok h.has
  · exact Keeps.pure hts (found_error _)

theorem memberName_keeps (hts : ts.Valid) (m : MemberId) :
    Keeps (memberName m) ts fun _ _ => True := by
  unfold memberName
  refine Keeps.get_bind ?_
  split
  · exact Keeps.pure hts trivial
  · exact (intern_keeps hts _).mono fun _ _ _ _ _ => trivial

end Erasure.TypeSystem
