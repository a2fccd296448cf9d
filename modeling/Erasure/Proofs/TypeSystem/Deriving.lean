/-
Queries and declarations keep the links between member instances.

An instance is derived from one that is there, by a substitution, by type arguments or with a signature
of its own; everything else that is asked only adds types. A member is declared as its own root, unless
there is an instance with its key. The main statements:

* `Linked.deriveMember_keeps`, `Linked.memberIn_keeps`, `Linked.instantiateMethod_keeps`: derived
  instances.
* `declareKey_of_hasKey`, `declareKey_of_absent`: a declaration finds an instance or adds one.
* `Query.run_linked`, `Declaration.run_linked`: queries and declarations.
* `initial_linked`: the prelude.
-/
import Erasure.Proofs.TypeSystem.Links

namespace Erasure.TypeSystem

variable {ts us : TypeSystem} {m n : MemberId} {c : ClassId} {α : Type}

/-! ### Derived instances -/

namespace Linked

/-- Type systems that stay linked. No class or type variable has to stay as it is. -/
scoped instance : Store TypeSystem where
  Grows := (· ≤ ·)
  Valid := Linked
  grows_refl := le_refl
  grows_trans := le_trans
  le_of_grows := id

theorem keeps (h : ts.Linked) {act : StateM TypeSystem α} (hact : Along AddsTypes act) :
    Keeps act ts fun _ _ => True := ⟨(hact ts).le, h.of_addsTypes (hact ts), trivial⟩

theorem internMember_keeps (h : ts.Linked) {x : Member} (hx : ts.Derives x) :
    Keeps (internMember x) ts fun n us => us.HasMember n := by
  rcases internMember_cases x ts with ⟨n, hn, hfound⟩ | ⟨-, hindex, hadds⟩
  · obtain ⟨hindex, hsame⟩ := Prod.ext_iff.mp hfound
    dsimp only at hindex hsame
    refine ⟨le_of_eq hsame.symm, hsame.symm ▸ h, ?_⟩
    rw [hindex, hsame]
    exact hn.hasMember
  · refine ⟨hadds.le, h.of_derived hadds rfl hx, ?_⟩
    rw [hindex, HasMember, hadds.size]
    exact Nat.lt_succ_self _

theorem deriveMember_keeps (h : ts.Linked) (hm : ts.HasMember m) (kind : MemberKind)
    (container : TypeId) : Keeps (deriveMember m kind container) ts fun n us => us.HasMember n :=
  Keeps.get_bind (h.internMember_keeps ⟨hm, rfl, rfl, h.generic hm⟩)

theorem substituteMember_keeps (h : ts.Linked) (hm : ts.HasMember m) (s : SubstId)
    (container : TypeId) :
    Keeps (substituteMember m s container) ts fun n us => us.HasMember n := by
  unfold substituteMember
  refine Keeps.get_bind ((h.keeps (substituteKind_addsTypes s _)).bind fun kind us hle hus _ => ?_)
  refine Keeps.get_bind ?_
  dsimp only
  split
  · exact .pure hus (hm.of_le hle)
  · exact hus.deriveMember_keeps (hm.of_le hle) kind container

theorem memberIn_keeps (h : ts.Linked) (hm : ts.HasMember m) (container : TypeId) :
    Keeps (memberIn m container) ts fun n us => us.HasMember n := by
  unfold memberIn
  refine Keeps.get_bind ?_
  split
  · refine (h.keeps (lift_addsTypes (Pool.fullSubst_along container))).bind fun s us hle hus _ => ?_
    exact hus.substituteMember_keeps (hm.of_le hle) s container
  · exact .pure h hm

theorem instantiateMethod_keeps (h : ts.Linked) (hm : ts.HasMember m) (typeArgs : List TypeId) :
    Keeps (instantiateMethod m typeArgs) ts fun n us => us.HasMember n := by
  unfold instantiateMethod
  refine Keeps.get_bind ?_
  refine (h.keeps (lift_addsTypes (Pool.internSubst_along _))).bind fun s us hle hus _ => ?_
  refine (hus.keeps (substituteKind_addsTypes s _)).bind fun kind vs hle' hvs _ => ?_
  have hold := member_of_le (le_trans hle hle') hm
  refine hvs.internMember_keeps ⟨hm.of_le (le_trans hle hle'), ?_, ?_, fun g hg => ?_⟩
  · exact (congrArg Member.decl hold).symm
  · exact (congrArg (·.flags) hold).symm
  · exact Option.some.inj hg ▸ hm.of_le (le_trans hle hle')

/-! ### Lookup -/

theorem hasMember_of_declared (h : ts.Linked) (hm : m ∈ (ts.classDef c).members) : ts.HasMember m :=
  (h.mem_members_iff.mp hm).1

theorem findField_keeps (h : ts.Linked) (container : TypeId) (name : String) :
    Keeps (findField container name).run ts fun _ _ => True := by
  unfold findField
  refine (h.keeps (intern_addsTypes name)).run_lift_bind fun n us _ hus _ => ?_
  refine (hus.keeps (lookupChain_addsTypes container)).run_bind (fun _ _ _ _ => id) ?_
  refine fun chain vs _ hvs _ => Keeps.run_get_bind ?_
  dsimp only
  split
  · rename_i m ty hfound
    obtain ⟨u, -, hm⟩ := List.exists_of_findSome?_eq_some hfound
    obtain ⟨c, -, hm⟩ := Option.bind_eq_some_iff.mp hm
    obtain ⟨m', hm', heq⟩ := Option.bind_eq_some_iff.mp hm
    cases heq
    have hmem := hvs.hasMember_of_declared (List.mem_of_find?_eq_some hm')
    exact (hvs.memberIn_keeps hmem _).run_lift fun _ _ _ _ => trivial
  · exact .pure hvs trivial

theorem addMethodCandidate_keeps (h : ts.Linked) (hm : ts.HasMember m) (args : List TypeId)
    (ty : TypeId) (candidates : List MemberId) :
    Keeps (addMethodCandidate args ty candidates m) ts fun _ _ => True := by
  unfold addMethodCandidate
  refine (h.memberIn_keeps hm ty).bind fun image us _ hus _ => Keeps.get_bind ?_
  dsimp only
  split <;> exact .pure hus trivial

theorem methodCandidates_keeps (h : ts.Linked) (chain : List TypeId) (name : Name)
    (args : List TypeId) : Keeps (methodCandidates chain name args) ts fun _ _ => True := by
  unfold methodCandidates
  refine Keeps.foldlM h trivial fun ty _ candidates us _ hus _ => ?_
  refine Keeps.get_bind (Keeps.foldlM hus trivial fun decl hdecl candidates' vs hle hvs _ => ?_)
  have hmem : us.HasMember decl := by
    cases hc : us.classOf? ty with
    | none =>
      rw [hc] at hdecl
      exact absurd hdecl List.not_mem_nil
    | some c =>
      rw [hc] at hdecl
      exact hus.hasMember_of_declared (List.mem_filter.mp hdecl).1
  exact hvs.addMethodCandidate_keeps (hmem.of_le hle) args ty candidates'

theorem findMethod_keeps (h : ts.Linked) (container : TypeId) (name : String) (args : List TypeId) :
    Keeps (findMethod container name args).run ts fun _ _ => True := by
  unfold findMethod
  refine (h.keeps (intern_addsTypes name)).run_lift_bind fun n us _ hus _ => ?_
  refine (hus.keeps (lookupChain_addsTypes container)).run_bind (fun _ _ _ _ => id) ?_
  refine fun chain vs _ hvs _ => (hvs.methodCandidates_keeps chain n args).run_lift_bind ?_
  refine fun candidates ws _ hws _ => Keeps.run_get_bind ?_
  split <;> exact .pure hws trivial

theorem findConstructor_keeps (h : ts.Linked) (container : TypeId) (args : List TypeId) :
    Keeps (findConstructor container args).run ts fun _ _ => True := by
  unfold findConstructor
  refine Keeps.run_get_bind ?_
  split
  · exact .pure h trivial
  · rename_i c _
    refine (Keeps.run_mapM_lift (R := fun _ _ _ => True) (fun _ _ _ _ _ _ => trivial) h
      fun decl hdecl us hle hus => ?_).run_bind (fun _ _ _ _ _ => trivial) ?_
    · have hmem := h.hasMember_of_declared (List.mem_filter.mp hdecl).1
      exact (hus.memberIn_keeps (hmem.of_le hle) container).mono fun _ _ _ _ _ => trivial
    · refine fun images us _ hus _ => Keeps.run_get_bind ?_
      dsimp only
      split <;> exact .pure hus trivial

end Linked

open Linked

/-- The member instances that the query mentions are there. -/
def Query.HasMembers (ts : TypeSystem) : Query → Prop
  | substituteMember m _ _ | memberIn m _ => ts.HasMember m
  | instantiateMethod m _ | deriveMember m _ _ => ts.HasMember m
  | _ => True

/-- A query keeps the links. -/
theorem Query.run_linked (h : ts.Linked) {q : Query} (hq : q.HasMembers ts) :
    Keeps q.run ts fun _ _ => True := by
  have hlift : ∀ {β : Type} {act : StateM Pool β}, Along (· ≤ ·) act →
      Keeps (discard (liftM act : StateM TypeSystem β)) ts fun _ _ => True := fun hact =>
    (h.keeps (lift_addsTypes hact)).discard
  cases q with
  | intern text => exact (h.keeps (intern_addsTypes text)).discard
  | array elem => exact hlift (Pool.internKind_along _)
  | rawClass c => exact hlift (Pool.internKind_along _)
  | typeVar v => exact hlift (Pool.internKind_along _)
  | lubOf candidates => exact hlift (Pool.lubOf_along candidates)
  | instantiate base args outer => exact (h.keeps (instantiate_addsTypes base args outer)).discard
  | internSubst bs => exact hlift (Pool.internSubst_along bs)
  | fullSubst ty => exact hlift (Pool.fullSubst_along ty)
  | substitute s ty => exact hlift (Pool.substitute_along s ty)
  | supertypes ty => exact (h.keeps (supertypes_addsTypes ty)).discard
  | join candidates => exact (h.keeps (join_addsTypes candidates)).discard
  | substituteMember m s container => exact (h.substituteMember_keeps hq s container).discard
  | memberIn m container => exact (h.memberIn_keeps hq container).discard
  | instantiateMethod m typeArgs => exact (h.instantiateMethod_keeps hq typeArgs).discard
  | deriveMember origin kind container => exact (h.deriveMember_keeps hq kind container).discard
  | findField container name => exact (h.findField_keeps container name).discard
  | findMethod container name args => exact (h.findMethod_keeps container name args).discard
  | findConstructor container args => exact (h.findConstructor_keeps container args).discard
  | requireClass name => exact (h.keeps (requireClass_addsTypes name)).discard
  | memberName m => exact (h.keeps (memberName_addsTypes m)).discard

/-! ### Declarations -/

/-- Declares a member of a class under a key. -/
def declareKey (c : ClassId) (key : MemberKey) : StateM TypeSystem MemberId := do
  let ts ← get
  match ts.memberWithKey? key with
  | some m => return m
  | none =>
    let id : MemberId := ⟨ts.members.size⟩
    adopt id key.kind.typeParams
    let id ← internMember { key with decl := id, origin := id }
    modifyClass c fun d => { d with members := d.members ++ [id] }
    return id

theorem declareMember_eq (c : ClassId) (kind : MemberKind) (flags : MemberFlags) :
    declareMember c kind flags = (do
      let container ← Pool.rawClass c
      declareKey c { kind, container, flags, generic := none }) := rfl

section

variable {key : MemberKey}

/-- An instance with the key is the answer, whatever it is. -/
theorem declareKey_of_hasKey (h : ts.HasKey n key) : declareKey c key ts = (n, ts) := by
  have hfind : ts.memberWithKey? key = some n :=
    congrArg (Option.map MemberId.mk) (InternTable.find?_eq_some_iff.mpr h)
  rw [declareKey, get_bind_apply, hfind]
  rfl

/-- A declaration is added by putting it into the table and then listing it in its class. -/
theorem AddsMember.addsDeclaration {x : Member} (h : ts.AddsMember us x)
    (hclasses : us.classes = ts.classes) (hc : c.index < ts.classes.size)
    (hdecl : x.decl = ⟨ts.members.size⟩) (horigin : x.origin = ⟨ts.members.size⟩)
    (hgeneric : x.generic = none) (hcontainer : ts.pool.HasKind x.container (.raw c)) :
    ts.AddsDeclaration (modifyClass c
      (fun d => { d with members := d.members ++ [⟨ts.members.size⟩] }) us).2 c x := by
  let append : ClassDef → ClassDef := fun d => { d with members := d.members ++ [⟨ts.members.size⟩] }
  have hold : ∀ d, us.classDef d = ts.classDef d := fun d => by
    rw [classDef, hclasses]
    rfl
  have hown : (modifyClass c append us).2.classDef c = append (ts.classDef c) := by
    rw [classDef_modifyClass_self append (hclasses ▸ hc), hold]
  have hothers : ∀ d, d ≠ c → (modifyClass c append us).2.classDef d = ts.classDef d := by
    intro d hd
    rw [← hold d]
    exact (classDef_modifyClass_cases c append us d).resolve_right fun hsame => hd hsame.1
  have hlisted : ∀ d, ∀ m ∈ (ts.classDef d).members,
      m ∈ ((modifyClass c append us).2.classDef d).members := by
    intro d m hm
    by_cases hd : d = c
    · subst hd
      rw [hown]
      exact List.mem_append_left _ hm
    · rwa [hothers d hd]
  exact {
    le := ⟨h.le.1, h.le.2.1, h.le.2.2.1, hlisted⟩
    size := h.size
    new := h.new
    decl_eq := hdecl
    origin_eq := horigin
    generic_eq := hgeneric
    container := hcontainer.of_le h.le.1
    classes_size := Array.size_modify.trans (congrArg Array.size hclasses)
    own := congrArg ClassDef.members hown
    others := fun d hd => congrArg ClassDef.members (hothers d hd) }

/-- Where no instance has the key there is a new declaration. -/
theorem declareKey_of_absent (h : ∀ n, ¬ ts.HasKey n key) (hc : c.index < ts.classes.size)
    (hcontainer : ts.pool.HasKind key.container (.raw c)) (hgeneric : key.generic = none) :
    (declareKey c key ts).1 = ⟨ts.members.size⟩ ∧ ts.AddsDeclaration (declareKey c key ts).2 c
      { key with decl := ⟨ts.members.size⟩, origin := ⟨ts.members.size⟩ } := by
  let x : Member := { key with decl := ⟨ts.members.size⟩, origin := ⟨ts.members.size⟩ }
  let us : TypeSystem := (adopt ⟨ts.members.size⟩ key.kind.typeParams ts).2
  obtain ⟨n, hn, -⟩ | ⟨-, hindex, hadds⟩ := internMember_cases x us
  · exact absurd hn (h n)
  -- type variables that change hands change nothing else
  have hadds : ts.AddsMember (internMember x us).2 x := ⟨hadds.le, hadds.size, hadds.new⟩
  have hindex : (internMember x us).1 = ⟨ts.members.size⟩ := hindex
  have hfind : ts.memberWithKey? key = none := by
    refine Option.eq_none_iff_forall_ne_some.mpr fun n hn => ?_
    obtain ⟨i, hi, -⟩ := Option.map_eq_some_iff.mp hn
    exact h ⟨i⟩ (InternTable.find?_eq_some_iff.mp hi)
  have hrun : declareKey c key ts = (⟨ts.members.size⟩, (modifyClass c
      (fun d => { d with members := d.members ++ [⟨ts.members.size⟩] }) (internMember x us).2).2) := by
    rw [declareKey, get_bind_apply, hfind]
    show ((internMember x us).1, (modifyClass c (fun d =>
      { d with members := d.members ++ [(internMember x us).1] }) (internMember x us).2).2) = _
    rw [hindex]
  rw [hrun]
  exact ⟨rfl, hadds.addsDeclaration rfl hc rfl rfl hgeneric hcontainer⟩

end

/-- A member is declared under a key with the raw class as its container. -/
theorem declareMember_apply (c : ClassId) (kind : MemberKind) (flags : MemberFlags)
    (ts : TypeSystem) : ∃ us container, AddsTypes ts us ∧ us.pool.HasKind container (.raw c) ∧
      declareMember c kind flags ts = declareKey c { kind, container, flags, generic := none } us :=
  ⟨_, _, rawClass_addsTypes c ts, Pool.hasKind_internKind ts.pool (.raw c),
    congrFun (declareMember_eq c kind flags) ts⟩

namespace Linked

/-- Declarations other than of members keep the instances, and the members of every class. -/
theorem advances (h : ts.Linked) {act : StateM TypeSystem α} (hpool : (act ts).2.pool = ts.pool)
    (hnames : ts.names ≤ (act ts).2.names) (hmembers : (act ts).2.members = ts.members)
    (hsize : ts.classes.size ≤ (act ts).2.classes.size)
    (hlists : ∀ c, ((act ts).2.classDef c).members = (ts.classDef c).members) :
    Advances act ts fun _ _ => True := by
  have hle : ts ≤ (act ts).2 :=
    ⟨le_of_eq hpool.symm, le_of_eq hmembers.symm, hnames, fun c m hm => by rwa [hlists c]⟩
  exact ⟨hle, h.of_members_eq hle hmembers hsize hlists, trivial⟩

theorem modifyClass_advances (h : ts.Linked) (c : ClassId) {f : ClassDef → ClassDef}
    (hf : ∀ e, (f e).members = e.members) : Advances (modifyClass c f) ts fun _ _ => True :=
  h.advances rfl (le_refl _) rfl (Nat.le_of_eq Array.size_modify.symm) (members_modifyClass hf ts)

theorem declareClass_advances (h : ts.Linked) (name : String) (flags : ClassFlags) :
    Advances (declareClass name flags) ts fun _ _ => True := by
  refine h.advances rfl (InternTable.le_intern ts.names name) rfl ?_ fun c => ?_
  · exact Nat.le_of_lt (Nat.lt_of_lt_of_eq (Nat.lt_succ_self _) (Array.size_push _).symm)
  · rw [classDef, classDef]
    rcases getD_push_cases ts.classes _ default c.index with hsame | ⟨hindex, hnew⟩
    · exact congrArg ClassDef.members hsame
    · -- there was no class of that number, and the new one has no members
      refine (congrArg ClassDef.members hnew).trans ?_
      rw [Array.getD_eq_getD_getElem?, hindex, Array.getElem?_eq_none (Nat.le_refl _)]
      rfl

theorem declareTypeVar_advances (h : ts.Linked) (name : String) (bound : Option TypeId)
    (owner : TypeVarOwner) : Advances (declareTypeVar name bound owner) ts fun _ _ => True :=
  h.advances rfl (InternTable.le_intern ts.names name) rfl (Nat.le_refl _) fun _ => rfl

theorem declareMember_advances (h : ts.Linked) (hc : c.index < ts.classes.size) (kind : MemberKind)
    (flags : MemberFlags) : Advances (declareMember c kind flags) ts fun _ _ => True := by
  obtain ⟨us, container, hadds, hcontainer, hrun⟩ := declareMember_apply c kind flags ts
  have hus := h.of_addsTypes hadds
  rw [← hadds.classes_eq] at hc
  let key : MemberKey := { kind, container, flags, generic := none }
  have hkey : us ≤ (declareKey c key us).2 ∧ (declareKey c key us).2.Linked := by
    by_cases hfound : ∃ n, us.HasKey n key
    · obtain ⟨n, hn⟩ := hfound
      rw [declareKey_of_hasKey hn]
      exact ⟨le_refl us, hus⟩
    · have hnew := (declareKey_of_absent (fun n hn => hfound ⟨n, hn⟩) hc hcontainer rfl).2
      exact ⟨hnew.le, hus.of_declared hnew hc⟩
  exact ⟨hrun ▸ le_trans hadds.le hkey.1, hrun ▸ hkey.2, trivial⟩

end Linked

/-- The class that the declaration adds a member to is there. -/
def Declaration.HasClass (ts : TypeSystem) : Declaration → Prop
  | declareMember c _ _ => c.index < ts.classes.size
  | _ => True

/-- A declaration keeps the links. -/
theorem Declaration.run_linked (h : ts.Linked) {d : Declaration} (hd : d.HasClass ts) :
    Advances d.run ts fun _ _ => True := by
  cases d with
  | declareClass name flags => exact (h.declareClass_advances name flags).discard
  | setSuperclass c ty => exact h.modifyClass_advances c fun _ => rfl
  | addInterface c ty => exact h.modifyClass_advances c fun _ => rfl
  | setOuter c ty => exact h.modifyClass_advances c fun _ => rfl
  | addTypeParam c name bound =>
    refine Advances.discard (P := fun _ _ => True) ?_
    refine (h.declareTypeVar_advances name bound (.classDef c)).bind fun v us _ hus _ => ?_
    refine Advances.bind (hus.modifyClass_advances c ?_) fun _ vs _ hvs _ => ?_
    · exact fun _ => rfl
    · exact .pure hvs trivial
  | addMethodTypeParam name bound => exact (h.declareTypeVar_advances name bound .pending).discard
  | setBound v bound => exact h.advances rfl (le_refl _) rfl (Nat.le_refl _) fun _ => rfl
  | declareMember c kind flags => exact (h.declareMember_advances hd kind flags).discard

/-! ### The prelude -/

/-- A type system is linked when all of its instances are declarations, each listed by its class. -/
theorem Linked.of_declarations
    (hmembers : ∀ i < ts.members.size, (ts.member ⟨i⟩).decl = ⟨i⟩ ∧ (ts.member ⟨i⟩).origin = ⟨i⟩ ∧
      (ts.member ⟨i⟩).generic = none ∧
      ∃ c < ts.classes.size, ts.pool.HasKind (ts.member ⟨i⟩).container (.raw ⟨c⟩))
    (hlists : ∀ c < ts.classes.size, (ts.classDef ⟨c⟩).members =
      ((List.range ts.members.size).map MemberId.mk).filter fun m =>
        ts.pool.HasKind (ts.member m).container (.raw ⟨c⟩)) : ts.Linked := by
  have hcases : ∀ c : ClassId, (ts.classDef c).members =
      ((List.range ts.members.size).map MemberId.mk).filter fun m =>
        ts.pool.HasKind (ts.member m).container (.raw c) := by
    intro c
    by_cases hc : c.index < ts.classes.size
    · exact hlists c.index hc
    · -- no instance is seen in a class that is not there
      rw [classDef, Array.getD_eq_getD_getElem?, Array.getElem?_eq_none (Nat.le_of_not_lt hc)]
      refine (List.filter_eq_nil_iff.mpr fun m hm => ?_).symm
      obtain ⟨i, hi, rfl⟩ := List.mem_map.mp hm
      obtain ⟨-, -, -, d, hd, hkind⟩ := hmembers i (List.mem_range.mp hi)
      rw [decide_eq_true_iff]
      intro hkind'
      rw [TypeKind.raw.inj (hkind'.unique hkind)] at hc
      exact hc hd
  refine ⟨fun {m} hm => ?_, fun {m} hm g hg => ?_, fun {c m} => ?_, fun c => ?_⟩
  · obtain ⟨hdecl, horigin, -, c, hc, hkind⟩ := hmembers m.index hm
    exact .inl ⟨hdecl, horigin, ⟨c⟩, hc, hkind⟩
  · obtain ⟨-, -, hgeneric, -⟩ := hmembers m.index hm
    cases hgeneric.symm.trans hg
  · rw [hcases c, List.mem_filter, decide_eq_true_iff]
    constructor
    · rintro ⟨hm, hkind⟩
      obtain ⟨i, hi, rfl⟩ := List.mem_map.mp hm
      have hi := List.mem_range.mp hi
      exact ⟨hi, (hmembers i hi).1, hkind⟩
    · rintro ⟨hm, -, hkind⟩
      exact ⟨List.mem_map.mpr ⟨m.index, List.mem_range.mpr hm, rfl⟩, hkind⟩
  · rw [hcases c]
    refine List.Pairwise.filter _ (List.pairwise_map.mpr ?_)
    exact List.pairwise_lt_range

theorem initial_linked : initial.Linked := by
  refine .of_declarations ?_ ?_ <;> decide +kernel

end Erasure.TypeSystem
