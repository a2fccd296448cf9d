/-
Declarations keep a type system valid.

A declaration changes the definition of one class, adds a type variable or replaces the bound of
one, and leaves the pool and the members that are there alone (`Valid.redeclare`). The main
statements:

* `modifyClass_advances`: the definition of a class may be replaced by one that is admitted.
* `declareMember_advances`: a declared member is seen in its class and takes its type parameters
  over from no class.
* `initial_valid`: the type system that holds the prelude only is valid.
-/
import Erasure.TypeSystem.Prelude
import Erasure.Proofs.TypeSystem.Validity

namespace Erasure.TypeSystem

variable {ts us : TypeSystem}

/-- New declarations over the same pool and members keep a type system valid when the definitions
of all classes are admitted, bounds are types of the pool and no variable changes sides. -/
theorem Valid.redeclare (hts : ts.Valid) (hle : ts ≤ us) (hpool : us.pool = ts.pool)
    (hmembers : us.members = ts.members) (hclasses : ∀ c, us.AdmitsClass c (us.classDef c))
    (hbound : ∀ v, ts.pool.Has (us.typeVar v).bound)
    (hclassVars : ∀ {v}, ts.IsClassVar v → us.IsClassVar v) : us.Valid where
  pool := hpool ▸ hts.pool
  object := hts.object.of_le hle.1
  classes := hclasses
  bound v := hpool ▸ hbound v
  isBound hv := hclassVars (hts.isBound (hpool ▸ hv))
  keys hk := (hts.keys (by rwa [HasKey, hmembers] at hk)).mono hle

theorem getD_push_of_lt {α : Type} {a : Array α} {i : Nat} (x d : α) (h : i < a.size) :
    (a.push x).getD i d = a.getD i d := by
  rw [Array.getD_eq_getD_getElem?, Array.getElem?_push_lt h, Array.getD_eq_getD_getElem?,
    Array.getElem?_eq_getElem h]

theorem getD_push_cases {α : Type} (a : Array α) (x d : α) (i : Nat) :
    (a.push x).getD i d = a.getD i d ∨ (i = a.size ∧ (a.push x).getD i d = x) := by
  rw [Array.getD_eq_getD_getElem?, Array.getD_eq_getD_getElem?, Array.getElem?_push]
  split
  case isTrue h => exact Or.inr ⟨h, rfl⟩
  case isFalse => exact Or.inl rfl

theorem getD_modify_cases {α : Type} (a : Array α) (f : α → α) (d : α) (i j : Nat) :
    (a.modify i f).getD j d = a.getD j d ∨
      (j = i ∧ (a.modify i f).getD j d = f (a.getD j d)) := by
  rw [Array.getD_eq_getD_getElem?, Array.getD_eq_getD_getElem?, Array.getElem?_modify]
  split
  case isTrue h =>
    subst h
    cases hget : a[i]? with
    | none => exact Or.inl rfl
    | some x => exact Or.inr ⟨rfl, rfl⟩
  case isFalse => exact Or.inl rfl

theorem hasName_intern (text : String) (ts : TypeSystem) :
    (intern text ts).2.HasName (intern text ts).1 := by
  obtain ⟨a, ha, -⟩ := Option.map_eq_some_iff.mp (InternTable.get?_intern ts.names text)
  exact InternTable.lt_size_of_get? ha

theorem intern_keeps (hts : ts.Valid) (text : String) :
    Keeps (intern text) ts fun n us => us.pool = ts.pool ∧ us.members = ts.members ∧
      us.classes = ts.classes ∧ us.typeVars = ts.typeVars ∧ us.HasName n := by
  have hext : Extends ts (intern text ts).2 :=
    ⟨⟨le_refl _, le_refl _, InternTable.le_intern _ _, fun _ _ hm => hm⟩, rfl, rfl⟩
  exact ⟨hext, hext.valid hts hts.pool hts.isBound hts.keys, rfl, rfl, rfl, rfl,
    hasName_intern text ts⟩

/-! ### Classes -/

theorem classDef_modifyClass_cases (c : ClassId) (f : ClassDef → ClassDef) (ts : TypeSystem)
    (d : ClassId) : (modifyClass c f ts).2.classDef d = ts.classDef d ∨
      (d = c ∧ (modifyClass c f ts).2.classDef d = f (ts.classDef c)) := by
  refine (getD_modify_cases ts.classes f default c.index d.index).imp_right fun ⟨hindex, hnew⟩ => ?_
  obtain rfl : d = c := congrArg ClassId.mk hindex
  exact ⟨rfl, hnew⟩

theorem classDef_modifyClass_self {c : ClassId} (f : ClassDef → ClassDef)
    (hc : c.index < ts.classes.size) : (modifyClass c f ts).2.classDef c = f (ts.classDef c) := by
  show (ts.classes.modify c.index f).getD c.index default = f (ts.classes.getD c.index default)
  rw [Array.getD_eq_getD_getElem?, Array.getD_eq_getD_getElem?, Array.getElem?_modify, if_pos rfl,
    Array.getElem?_eq_getElem hc]
  rfl

theorem members_modifyClass {c : ClassId} {f : ClassDef → ClassDef}
    (hf : ∀ e, (f e).members = e.members) (ts : TypeSystem) (d : ClassId) :
    ((modifyClass c f ts).2.classDef d).members = (ts.classDef d).members := by
  rcases classDef_modifyClass_cases c f ts d with hsame | ⟨rfl, hnew⟩
  · rw [hsame]
  · rw [hnew, hf]

/-- The definition of a class may be replaced by one that is admitted and drops no member. -/
theorem modifyClass_advances (hts : ts.Valid) {c : ClassId} {f : ClassDef → ClassDef}
    (hf : ts.AdmitsClass c (f (ts.classDef c)))
    (hmembers : ∀ m ∈ (ts.classDef c).members, m ∈ (f (ts.classDef c)).members) :
    Advances (modifyClass c f) ts fun _ us =>
      us.pool = ts.pool ∧ us.members = ts.members ∧ us.typeVars = ts.typeVars := by
  have hle : ts ≤ (modifyClass c f ts).2 := by
    refine ⟨le_refl _, le_refl _, le_refl _, fun d m hm => ?_⟩
    rcases classDef_modifyClass_cases c f ts d with hsame | ⟨rfl, hnew⟩
    · rwa [hsame]
    · rw [hnew]
      exact hmembers m hm
  refine ⟨hle, hts.redeclare hle rfl rfl (fun d => ?_) hts.bound id, rfl, rfl, rfl⟩
  rcases classDef_modifyClass_cases c f ts d with hsame | ⟨rfl, hnew⟩
  · rw [hsame]
    exact (hts.classes d).mono hle id id
  · rw [hnew]
    exact hf.mono hle id id

theorem setSuperclass_advances (hts : ts.Valid) {c : ClassId} {ty : TypeId}
    (hty : ts.pool.Has ty) : Advances (setSuperclass c ty) ts fun _ _ => True := by
  have hclass := hts.classes c
  refine (modifyClass_advances hts { hclass with superclass := fun u hu => ?_ } ?_).mono ?_
  · exact Option.some.inj hu ▸ hty
  · exact fun _ hm => hm
  · exact fun _ _ _ _ _ => trivial

theorem addInterface_advances (hts : ts.Valid) {c : ClassId} {ty : TypeId}
    (hty : ts.pool.Has ty) : Advances (addInterface c ty) ts fun _ _ => True := by
  have hclass := hts.classes c
  refine (modifyClass_advances hts { hclass with interfaces := fun u hu => ?_ } ?_).mono ?_
  · rcases List.mem_append.mp hu with hu | hu
    · exact hclass.interfaces u hu
    · exact List.mem_singleton.mp hu ▸ hty
  · exact fun _ hm => hm
  · exact fun _ _ _ _ _ => trivial

theorem setOuter_advances (hts : ts.Valid) {c : ClassId} {ty : TypeId}
    (hty : ts.pool.Has ty) : Advances (setOuter c ty) ts fun _ _ => True := by
  have hclass := hts.classes c
  refine (modifyClass_advances hts { hclass with outer := fun u hu => ?_ } ?_).mono ?_
  · exact Option.some.inj hu ▸ hty
  · exact fun _ hm => hm
  · exact fun _ _ _ _ _ => trivial

/-- A class is declared without members and extends the root at most. -/
theorem declareClass_advances (hts : ts.Valid) (name : String) (flags : ClassFlags) :
    Advances (declareClass name flags) ts fun _ _ => True := by
  refine (intern_keeps hts name).advances.bind fun n us _ hus h => Advances.get_bind ?_
  obtain ⟨-, -, -, -, hname⟩ := h
  let superclass := if flags.isInterface || us.classes.isEmpty then none else some TypeId.object
  let d : ClassDef := { name := n, flags, superclass }
  let vs : TypeSystem := { us with classes := us.classes.push d }
  have hcases : ∀ c, vs.classDef c = us.classDef c ∨ vs.classDef c = d := fun c =>
    (getD_push_cases us.classes d default c.index).imp_right fun h => h.2
  have hmembers : ∀ c, ∀ m ∈ (us.classDef c).members, m ∈ (vs.classDef c).members := by
    intro c m hm
    have hlt : c.index < us.classes.size := by
      by_contra hge
      rw [classDef, Array.getD_eq_getD_getElem?, Array.getElem?_eq_none (Nat.le_of_not_lt hge)] at hm
      exact List.not_mem_nil hm
    have hold : vs.classDef c = us.classDef c := getD_push_of_lt d default hlt
    rwa [hold]
  have hle : us ≤ vs := ⟨le_refl _, le_refl _, le_refl _, hmembers⟩
  have hadmits : ∀ c, vs.AdmitsClass c d := by
    refine fun c => ⟨hname, fun v hv => ?_, fun ty hty => ?_, fun ty hty => ?_, fun ty hty => ?_,
      fun m hm => ?_, fun m hm => ?_⟩
    · exact absurd hv List.not_mem_nil
    · cases hty
    · have hobject : ty = .object := by
        have hsuper : superclass = some ty := hty
        simp only [superclass] at hsuper
        split at hsuper
        · cases hsuper
        · exact (Option.some.inj hsuper).symm
      exact hobject ▸ hus.object.has
    · exact absurd hty List.not_mem_nil
    · exact absurd hm List.not_mem_nil
    · exact absurd hm List.not_mem_nil
  have hvs : vs.Valid := by
    refine hus.redeclare hle rfl rfl (fun c => ?_) hus.bound id
    rcases hcases c with hold | hnew
    · rw [hold]
      exact (hus.classes c).mono hle id id
    · rw [hnew]
      exact hadmits c
  exact ⟨hle, hvs, trivial⟩

/-! ### Type variables -/

/-- A type variable is declared after those that are there, which stay as they are. -/
theorem declareTypeVar_advances (hts : ts.Valid) (name : String) {bound : Option TypeId}
    {owner : TypeVarOwner} (hbound : ∀ ty ∈ bound, ts.pool.Has ty) :
    Advances (declareTypeVar name bound owner) ts fun v us =>
      us.pool = ts.pool ∧ us.members = ts.members ∧ us.classes = ts.classes ∧
        v.index < us.typeVars.size ∧ (us.typeVar v).owner = owner := by
  refine (intern_keeps hts name).advances.bind fun n us _ hus hsame => Advances.get_bind ?_
  obtain ⟨hpool, hmembers, hclasses, htypeVars, -⟩ := hsame
  let d : TypeVarDef := { name := n, bound := bound.getD .object, owner }
  let vs : TypeSystem := { us with typeVars := us.typeVars.push d }
  have hle : us ≤ vs := ⟨le_refl _, le_refl _, le_refl _, fun _ _ hm => hm⟩
  have hold : ∀ {v : TypeVarId}, v.index < us.typeVars.size → vs.typeVar v = us.typeVar v :=
    fun hlt => getD_push_of_lt d default hlt
  have hsize : vs.typeVars.size = us.typeVars.size + 1 := Array.size_push ..
  have hbounds : ∀ v, us.pool.Has (vs.typeVar v).bound := by
    intro v
    rcases getD_push_cases us.typeVars d default v.index with hsame | ⟨-, hnew⟩
    · rw [show vs.typeVar v = us.typeVar v from hsame]
      exact hus.bound v
    · rw [show vs.typeVar v = d from hnew]
      cases bound with
      | none => exact hus.object.has
      | some ty => exact hpool ▸ hbound ty rfl
  have hclassVars : ∀ {v}, us.IsClassVar v → vs.IsClassVar v := fun ⟨hlt, hc⟩ =>
    ⟨by rw [hsize]; omega, by rwa [hold hlt]⟩
  have hmemberVars : ∀ {v}, us.IsMemberVar v → vs.IsMemberVar v := fun ⟨hlt, hc⟩ =>
    ⟨by rw [hsize]; omega, by rwa [hold hlt]⟩
  have hvs : vs.Valid := hus.redeclare hle rfl rfl
    (fun c => (hus.classes c).mono hle hclassVars hmemberVars) hbounds hclassVars
  have hnew : vs.typeVar ⟨us.typeVars.size⟩ = d := by
    rw [typeVar, Array.getD_eq_getD_getElem?, Array.getElem?_push_size]
    rfl
  refine ⟨hle, hvs, hpool, hmembers, hclasses, ?_, ?_⟩
  · exact (hsize ▸ Nat.lt_succ_self us.typeVars.size : us.typeVars.size < vs.typeVars.size)
  · exact congrArg TypeVarDef.owner hnew

theorem addTypeParam_advances (hts : ts.Valid) {c : ClassId} (name : String)
    {bound : Option TypeId} (hbound : ∀ ty ∈ bound, ts.pool.Has ty) :
    Advances (addTypeParam c name bound) ts fun v us => us.IsClassVar v := by
  refine (declareTypeVar_advances hts name hbound).bind fun v us _ hus h => ?_
  obtain ⟨-, -, -, hlt, howner⟩ := h
  have hv : us.IsClassVar v := ⟨hlt, c, howner⟩
  have hclass := hus.classes c
  refine Advances.bind (modifyClass_advances hus { hclass with typeParams := fun w hw => ?_ } ?_) ?_
  · rcases List.mem_append.mp hw with hw | hw
    · exact hclass.typeParams w hw
    · exact List.mem_singleton.mp hw ▸ hv
  · exact fun _ hm => hm
  · rintro - vs - hvs ⟨-, -, htypeVars⟩
    refine Advances.pure hvs ?_
    rwa [IsClassVar, typeVar, htypeVars]

theorem addMethodTypeParam_advances (hts : ts.Valid) (name : String) {bound : Option TypeId}
    (hbound : ∀ ty ∈ bound, ts.pool.Has ty) :
    Advances (addMethodTypeParam name bound) ts fun v us => us.IsMemberVar v := by
  refine (declareTypeVar_advances hts name hbound).mono fun v us _ _ h => ?_
  obtain ⟨-, -, -, hlt, howner⟩ := h
  exact ⟨hlt, fun c hc => nomatch howner.symm.trans hc⟩

theorem setBound_advances (hts : ts.Valid) {v : TypeVarId} {bound : TypeId}
    (hbound : ts.pool.Has bound) : Advances (setBound v bound) ts fun _ _ => True := by
  let us : TypeSystem := (setBound v bound ts).2
  have hle : ts ≤ us := ⟨le_refl _, le_refl _, le_refl _, fun _ _ hm => hm⟩
  have hsize : us.typeVars.size = ts.typeVars.size := Array.size_modify ..
  have hcases : ∀ w, us.typeVar w = ts.typeVar w ∨
      us.typeVar w = { ts.typeVar w with bound } := fun w =>
    (getD_modify_cases ts.typeVars ({ · with bound }) default v.index w.index).imp_right And.right
  have howner : ∀ w, (us.typeVar w).owner = (ts.typeVar w).owner := by
    intro w
    rcases hcases w with h | h <;> rw [h]
  refine ⟨hle, hts.redeclare hle rfl rfl (fun c => (hts.classes c).mono hle ?_ ?_) ?_ ?_, trivial⟩
  · exact fun ⟨hlt, hc⟩ => ⟨hsize ▸ hlt, by rwa [howner]⟩
  · exact fun ⟨hlt, hc⟩ => ⟨hsize ▸ hlt, by rwa [howner]⟩
  · intro w
    rcases hcases w with h | h
    · exact h ▸ hts.bound w
    · exact h ▸ hbound
  · exact fun ⟨hlt, hc⟩ => ⟨hsize ▸ hlt, by rwa [howner]⟩

/-! ### Members -/

theorem getD_adopt_cases (m : MemberId) (vs : List TypeVarId) (defs : Array TypeVarDef) (i : Nat) :
    let defs' := vs.foldl (fun defs v => defs.modify v.index ({ · with owner := .member m })) defs
    defs'.size = defs.size ∧ (defs'.getD i default = defs.getD i default ∨
      (defs'.getD i default = { defs.getD i default with owner := .member m } ∧
        ∃ v ∈ vs, v.index = i)) := by
  induction vs generalizing defs with
  | nil => exact ⟨rfl, Or.inl rfl⟩
  | cons v vs ih =>
    obtain ⟨hsize, hrest⟩ := ih (defs.modify v.index ({ · with owner := .member m }))
    refine ⟨hsize.trans (Array.size_modify ..), ?_⟩
    have hfirst := getD_modify_cases defs ({ · with owner := .member m }) default v.index i
    rcases hfirst with hsame | ⟨rfl, hfirst⟩
    · rw [hsame] at hrest
      refine hrest.imp_right fun ⟨hnew, w, hw, hi⟩ => ⟨hnew, w, List.mem_cons_of_mem _ hw, hi⟩
    · refine Or.inr ⟨?_, v, List.mem_cons_self, rfl⟩
      rw [hfirst] at hrest
      rcases hrest with hnew | ⟨hnew, -⟩ <;> exact hnew

/-- A member takes over type variables of methods only, so no class loses one. -/
theorem adopt_advances (hts : ts.Valid) {m : MemberId} {vs : List TypeVarId}
    (hvs : ∀ v ∈ vs, ts.IsMemberVar v) :
    Advances (adopt m vs) ts fun _ us => us.pool = ts.pool ∧ us.members = ts.members ∧
      us.classes = ts.classes ∧ ∀ v, ts.IsMemberVar v → us.IsMemberVar v := by
  let us : TypeSystem := (adopt m vs ts).2
  have hle : ts ≤ us := ⟨le_refl _, le_refl _, le_refl _, fun _ _ hm => hm⟩
  have hsize : us.typeVars.size = ts.typeVars.size := (getD_adopt_cases m vs ts.typeVars 0).1
  have hcases : ∀ v : TypeVarId, us.typeVar v = ts.typeVar v ∨
      (us.typeVar v = { ts.typeVar v with owner := .member m } ∧ v ∈ vs) := by
    intro v
    refine (getD_adopt_cases m vs ts.typeVars v.index).2.imp_right fun ⟨hnew, w, hw, hwv⟩ => ?_
    obtain rfl : w = v := congrArg TypeVarId.mk hwv
    exact ⟨hnew, hw⟩
  have hclassVars : ∀ {v}, ts.IsClassVar v → us.IsClassVar v := by
    intro v hv
    rcases hcases v with hsame | ⟨-, hmem⟩
    · rwa [IsClassVar, hsame, hsize]
    · exact absurd hv (hvs v hmem).not_isClassVar
  have hmemberVars : ∀ {v}, ts.IsMemberVar v → us.IsMemberVar v := by
    intro v hv
    rcases hcases v with hsame | ⟨hnew, -⟩
    · rwa [IsMemberVar, hsame, hsize]
    · exact ⟨hsize ▸ hv.1, fun c hc => by rw [hnew] at hc; cases hc⟩
  refine ⟨hle, hts.redeclare hle rfl rfl
    (fun c => (hts.classes c).mono hle hclassVars hmemberVars) ?_ hclassVars, rfl, rfl, rfl, fun v hv => hmemberVars hv⟩
  intro v
  rcases hcases v with hsame | ⟨hnew, -⟩
  · exact hsame ▸ hts.bound v
  · exact hnew ▸ hts.bound v

/-- A declared member is seen in the raw class, and it was made from no generic method. -/
theorem declareMember_advances (hts : ts.Valid) {c : ClassId} {kind : MemberKind}
    {flags : MemberFlags} (htypes : ∀ ty ∈ kind.types, ts.pool.Has ty)
    (hparams : ∀ v ∈ kind.typeParams, ts.IsMemberVar v) (hname : ∀ n ∈ kind.name?, ts.HasName n) :
    Advances (declareMember c kind flags) ts fun m us => ∃ container,
      us.pool.HasKind container (.raw c) ∧
        us.HasKey m { kind, container, flags, generic := none } := by
  have hraw := lift_computes hts (Pool.rawClass_computes hts.pool c)
  refine hraw.toKeeps.bind_advances fun container us hus hvalid hcontainer => Advances.get_bind ?_
  have hext : Extends ts us := hus
  let key : MemberKey := { kind, container, flags, generic := none }
  have hparams' : ∀ v ∈ kind.typeParams, us.IsMemberVar v := fun v hv =>
    hext.isMemberVar_iff.mpr (hparams v hv)
  split
  case h_1 m hfound =>
    obtain ⟨i, hi, rfl⟩ := Option.map_eq_some_iff.mp hfound
    exact Advances.pure hvalid ⟨container, hcontainer, InternTable.find?_eq_some_iff.mp hi⟩
  case h_2 =>
    refine (adopt_advances hvalid hparams').bind fun _ vs hle hvalid' h => ?_
    obtain ⟨hpool, hmembers, hclasses, hmemberVars⟩ := h
    have hkey : vs.AdmitsKey key := by
      refine ⟨fun n hn => ?_, fun ty hty => ?_, hcontainer.has.of_le hle.1, fun g hg => ?_⟩
      · exact (hname n hn).of_le (le_trans hext.le hle)
      · exact ((htypes ty hty).of_le hext.le.1).of_le hle.1
      · exact nomatch hg
    refine (internMember_computes hvalid' hkey).toKeeps.bind_advances
      fun m ws hvw hvalid'' hm => ?_
    have hle' := Store.Grows.le hvw
    have hcontainer' := hcontainer.of_le (le_trans hle hle').1
    have hclass := hvalid''.classes c
    refine Advances.bind (modifyClass_advances hvalid''
      { hclass with members := fun n hn => ?_, ownParams := fun n hn v hv => ?_ } ?_) ?_
    · rcases List.mem_append.mp hn with hn | hn
      · exact hclass.members n hn
      · exact List.mem_singleton.mp hn ▸ ⟨key, hm, hcontainer', rfl⟩
    · rcases List.mem_append.mp hn with hn | hn
      · exact hclass.ownParams n hn v hv
      · obtain rfl := List.mem_singleton.mp hn
        rw [hm.kind_eq] at hv
        exact (Extends.isMemberVar_iff hvw).mpr (hmemberVars v (hparams' v hv))
    · exact fun n hn => List.mem_append_left _ hn
    · rintro - xs hle'' hxs -
      exact Advances.pure hxs ⟨container, hcontainer'.of_le hle''.1, hm.of_le hle''⟩

/-! ### The prelude -/

/-- A type system of erased types without type variables is valid when its classes and members
mention types of the pool only. -/
theorem Valid.of_erased (hpool : ts.pool.Valid)
    (hkinds : ∀ i < ts.pool.size, Pool.isErasedBelow i (ts.pool.kind ⟨i⟩) = true)
    (hobject : ts.pool.HasKind .object (.raw .object)) (htypeVars : ts.typeVars = #[])
    (hname : ts.HasName default) (hclasses : ∀ i < ts.classes.size,
      ts.HasName (ts.classDef ⟨i⟩).name ∧ (ts.classDef ⟨i⟩).typeParams = [] ∧ (ts.classDef ⟨i⟩).outer = none ∧
        (∀ ty ∈ (ts.classDef ⟨i⟩).superclass, ty.index < ts.pool.size) ∧
        (ts.classDef ⟨i⟩).interfaces = [] ∧
        ∀ m ∈ (ts.classDef ⟨i⟩).members, m.index < ts.members.size ∧
          ts.pool.HasKind (ts.member m).container (.raw ⟨i⟩) ∧ (ts.member m).generic = none)
    (hmembers : ∀ i < ts.members.size,
      (∀ n ∈ (ts.member ⟨i⟩).kind.name?, ts.HasName n) ∧ (∀ ty ∈ (ts.member ⟨i⟩).kind.types, ty.index < ts.pool.size) ∧
        (ts.member ⟨i⟩).container.index < ts.pool.size ∧
        (ts.member ⟨i⟩).kind.typeParams = [] ∧ (ts.member ⟨i⟩).generic = none) : ts.Valid where
  pool := hpool
  object := hobject
  classes c := by
    by_cases hlt : c.index < ts.classes.size
    · obtain ⟨hclass, hparams, houter, hsuper, hinterfaces, hdeclared⟩ := hclasses c.index hlt
      refine ⟨hclass, fun v hv => ?_, fun ty hty => ?_, hsuper, fun ty hty => ?_, fun m hm => ?_,
        fun m hm v hv => ?_⟩
      · exact absurd (hparams ▸ hv) List.not_mem_nil
      · cases houter.symm.trans hty
      · exact absurd (hinterfaces ▸ hty) List.not_mem_nil
      · obtain ⟨hlt, hcontainer, hgeneric⟩ := hdeclared m hm
        exact ⟨_, HasMember.hasKey hlt, hcontainer, hgeneric⟩
      · obtain ⟨-, -, -, hnone, -⟩ := hmembers m.index (hdeclared m hm).1
        exact absurd (hnone ▸ hv) List.not_mem_nil
    · have hdefault : ts.classDef c = default := by
        rw [classDef, Array.getD_eq_getD_getElem?, Array.getElem?_eq_none (Nat.le_of_not_lt hlt)]
        rfl
      rw [hdefault]
      refine ⟨hname, fun v hv => ?_, fun ty hty => ?_, fun ty hty => ?_, fun ty hty => ?_,
        fun m hm => ?_, fun m hm => ?_⟩
      · exact absurd hv List.not_mem_nil
      · cases hty
      · cases hty
      · exact absurd hty List.not_mem_nil
      · exact absurd hm List.not_mem_nil
      · exact absurd hm List.not_mem_nil
  bound v := by
    rw [typeVar, htypeVars]
    exact (hpool.prims .boolean).has
  isBound := by
    rintro v ⟨u, ty, base, s, outer, bs, hkind, -, -⟩
    have herased := hkinds ty.index hkind.has
    rw [show ts.pool.kind ⟨ty.index⟩ = _ from hkind.kind_eq] at herased
    cases herased
  keys := by
    intro m k hk
    obtain ⟨hnames, htypes, hcontainer, -, hgeneric⟩ := hmembers m.index hk.hasMember
    have hkey := hk.member_eq
    subst hkey
    refine ⟨hnames, htypes, hcontainer, fun g hg => ?_⟩
    cases hgeneric.symm.trans hg

theorem initial_kinds : ∀ i < initial.pool.size,
    Pool.isErasedBelow i (initial.pool.kind ⟨i⟩) = true ∧
      initial.pool.flags ⟨i⟩ = initial.pool.flagsOfKind (initial.pool.kind ⟨i⟩) := by
  decide +kernel

theorem initial_pool_valid : initial.pool.Valid := by
  refine .of_erased (fun r => ?_) ?_ ?_ ?_ initial_kinds
  · cases r <;> decide +kernel
  all_goals decide +kernel

/-- The type system that holds the prelude only is valid. -/
theorem initial_valid : initial.Valid := by
  refine .of_erased initial_pool_valid (fun i hi => (initial_kinds i hi).1) ?_ ?_ ?_ ?_ ?_
  · decide +kernel
  · refine Array.eq_empty_of_size_eq_zero ?_
    decide +kernel
  · exact (by decide +kernel : 0 < initial.names.size)
  · decide +kernel
  · decide +kernel

end Erasure.TypeSystem
