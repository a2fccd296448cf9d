/-
Valid type systems, and what interning types and members does to them.

In a valid type system every declaration mentions types of the pool only, a class declares members
that are seen in the class itself, and type parameters of classes are kept apart from those of
methods. The main statements:

* `lift_computes`: what an action does to the pool it does to the type system.
* `instantiate_keeps`: an instantiation binds the type parameters of its class.
* `HasKey.inj`: no two member instances have one key.
* `internMember_computes`, `deriveMember_computes`: interning a member keeps a type system valid and
  answers an instance with the given key, the same one in every later type system.
-/
import Erasure.TypeSystem.Hierarchy
import Erasure.Proofs.Pool.Substitution
import Erasure.Proofs.TypeSystem.Signature

namespace Erasure.TypeSystem

variable {ts us : TypeSystem}

/-! ### Entries -/

/-- The type system has the member instance. -/
def HasMember (ts : TypeSystem) (m : MemberId) : Prop := m.index < ts.members.size

instance (m : MemberId) : Decidable (ts.HasMember m) := Nat.decLt _ _

/-- The type system has the member instance, and it has the given key. -/
def HasKey (ts : TypeSystem) (m : MemberId) (k : MemberKey) : Prop :=
  (ts.members.get? m.index).map Member.toMemberKey = some k

/-- The name was handed out. -/
def HasName (ts : TypeSystem) (n : Name) : Prop := n.index < ts.names.size

instance (n : Name) : Decidable (ts.HasName n) := Nat.decLt _ _

/-- A type variable that a class declares. -/
def IsClassVar (ts : TypeSystem) (v : TypeVarId) : Prop :=
  v.index < ts.typeVars.size ∧ ∃ c, (ts.typeVar v).owner = .classDef c

/-- A type variable that is declared, but not by a class. -/
def IsMemberVar (ts : TypeSystem) (v : TypeVarId) : Prop :=
  v.index < ts.typeVars.size ∧ ∀ c, (ts.typeVar v).owner ≠ .classDef c

/-- A type variable is declared by a class if its owner is a class. -/
instance (owner : TypeVarOwner) : Decidable (∀ c, owner ≠ .classDef c) :=
  match owner with
  | .classDef _ => .isFalse fun h => h _ rfl
  | .member _ | .pending => .isTrue fun _ h => TypeVarOwner.noConfusion h

instance (v : TypeVarId) : Decidable (ts.IsMemberVar v) :=
  inferInstanceAs (Decidable (v.index < ts.typeVars.size ∧ ∀ c, (ts.typeVar v).owner ≠ .classDef c))

theorem IsMemberVar.not_isClassVar {v : TypeVarId} (h : ts.IsMemberVar v) : ¬ ts.IsClassVar v :=
  fun ⟨_, c, hc⟩ => h.2 c hc

/-- A type system is below another when its types, members and names have kept their numbers, and
every class its members. -/
instance : Preorder TypeSystem where
  le ts us := ts.pool ≤ us.pool ∧ ts.members ≤ us.members ∧ ts.names ≤ us.names ∧
    ∀ c, ∀ m ∈ (ts.classDef c).members, m ∈ (us.classDef c).members
  le_refl ts := ⟨le_refl _, le_refl _, le_refl _, fun _ _ h => h⟩
  le_trans _ _ _ htu huv :=
    ⟨le_trans htu.1 huv.1, le_trans htu.2.1 huv.2.1, le_trans htu.2.2.1 huv.2.2.1,
      fun c m h => huv.2.2.2 c m (htu.2.2.2 c m h)⟩

theorem declared_of_le (hle : ts ≤ us) {c : ClassId} {m : MemberId}
    (h : m ∈ (ts.classDef c).members) : m ∈ (us.classDef c).members := hle.2.2.2 c m h

theorem HasMember.of_le (hle : ts ≤ us) {m : MemberId} (h : ts.HasMember m) : us.HasMember m :=
  Nat.lt_of_lt_of_le h (InternTable.size_le_of_le hle.2.1)

theorem HasKey.of_le (hle : ts ≤ us) {m : MemberId} {k : MemberKey} (h : ts.HasKey m k) :
    us.HasKey m k := InternTable.map_get?_of_le hle.2.1 h

theorem HasKey.hasMember {m : MemberId} {k : MemberKey} (h : ts.HasKey m k) : ts.HasMember m := by
  obtain ⟨a, ha, -⟩ := Option.map_eq_some_iff.mp h
  exact InternTable.lt_size_of_get? ha

theorem HasKey.member_eq {m : MemberId} {k : MemberKey} (h : ts.HasKey m k) :
    (ts.member m).toMemberKey = k := by
  obtain ⟨a, ha, hk⟩ := Option.map_eq_some_iff.mp h
  rw [member, ha, Option.getD_some, hk]

theorem HasKey.kind_eq {m : MemberId} {k : MemberKey} (h : ts.HasKey m k) :
    (ts.member m).kind = k.kind := congrArg MemberKey.kind h.member_eq

theorem HasKey.container_eq {m : MemberId} {k : MemberKey} (h : ts.HasKey m k) :
    (ts.member m).container = k.container := congrArg MemberKey.container h.member_eq

theorem HasKey.flags_eq {m : MemberId} {k : MemberKey} (h : ts.HasKey m k) :
    (ts.member m).flags = k.flags := congrArg MemberKey.flags h.member_eq

theorem HasKey.generic_eq {m : MemberId} {k : MemberKey} (h : ts.HasKey m k) :
    (ts.member m).generic = k.generic := congrArg MemberKey.generic h.member_eq

theorem HasMember.hasKey {m : MemberId} (h : ts.HasMember m) :
    ts.HasKey m (ts.member m).toMemberKey := by
  obtain ⟨a, ha⟩ := InternTable.exists_get? h
  rw [HasKey, member, ha]
  rfl

theorem HasKey.unique {m : MemberId} {k l : MemberKey} (hk : ts.HasKey m k) (hl : ts.HasKey m l) :
    k = l := hk.member_eq.symm.trans hl.member_eq

/-- No two member instances have one key. -/
theorem HasKey.inj {m n : MemberId} {k : MemberKey} (hm : ts.HasKey m k) (hn : ts.HasKey n k) :
    m = n := congrArg MemberId.mk (InternTable.key_inj hm hn)

theorem member_of_le (hle : ts ≤ us) {m : MemberId} (h : ts.HasMember m) :
    us.member m = ts.member m := by
  obtain ⟨a, ha⟩ := InternTable.exists_get? h
  rw [member, member, InternTable.get?_of_le hle.2.1 ha, ha]

theorem genericForm_of_le (hle : ts ≤ us) {m : MemberId} (h : ts.HasMember m) :
    us.genericForm m = ts.genericForm m := by
  rw [genericForm, genericForm, member_of_le hle h]

theorem HasName.of_le (hle : ts ≤ us) {n : Name} (h : ts.HasName n) : us.HasName n :=
  Nat.lt_of_lt_of_le h (InternTable.size_le_of_le hle.2.2.1)

theorem text_of_le (hle : ts ≤ us) {n : Name} (h : ts.HasName n) : us.text n = ts.text n := by
  obtain ⟨a, ha⟩ := InternTable.exists_get? h
  rw [text, text, Names.text, Names.text, InternTable.get?_of_le hle.2.2.1 ha, ha]

theorem kind_of_le (hle : ts ≤ us) {ty : TypeId} (h : ts.pool.Has ty) : us.kind ty = ts.kind ty :=
  Pool.kind_of_le hle.1 h

theorem has_of_kind_ne_null {ty : TypeId} (h : ts.kind ty ≠ .null) : ts.pool.Has ty := by
  by_contra hnot
  refine h ?_
  rw [kind, Pool.kind, InternTable.get?_eq_none_iff.mpr (Nat.le_of_not_lt hnot)]
  rfl

theorem has_of_classOf? {ty : TypeId} {c : ClassId} (h : ts.classOf? ty = some c) :
    ts.pool.Has ty := by
  refine has_of_kind_ne_null fun hk => ?_
  rw [classOf?, hk] at h
  cases h

/-! ### Validity -/

/-- What the key of a member instance mentions is there. -/
structure AdmitsKey (ts : TypeSystem) (k : MemberKey) : Prop where
  name : ∀ n ∈ k.kind.name?, ts.HasName n
  types : ∀ ty ∈ k.kind.types, ts.pool.Has ty
  container : ts.pool.Has k.container
  /-- An instance made by supplying type arguments has no type parameters left. -/
  generic : ∀ g ∈ k.generic, ts.HasMember g ∧ k.kind.typeParams = []

/-- What the definition of a class mentions is there. -/
structure AdmitsClass (ts : TypeSystem) (c : ClassId) (d : ClassDef) : Prop where
  name : ts.HasName d.name
  typeParams : ∀ v ∈ d.typeParams, ts.IsClassVar v
  outer : ∀ ty ∈ d.outer, ts.pool.Has ty
  superclass : ∀ ty ∈ d.superclass, ts.pool.Has ty
  interfaces : ∀ ty ∈ d.interfaces, ts.pool.Has ty
  /-- The members that a class declares are seen in the class itself. -/
  members : ∀ m ∈ d.members,
    ∃ k, ts.HasKey m k ∧ ts.pool.HasKind k.container (.raw c) ∧ k.generic = none
  /-- The type parameters of a declared member belong to no class. -/
  ownParams : ∀ m ∈ d.members, ∀ v ∈ (ts.member m).kind.typeParams, ts.IsMemberVar v

/-- The invariant of type systems. -/
structure Valid (ts : TypeSystem) : Prop where
  pool : ts.pool.Valid
  object : ts.pool.HasKind .object (.raw .object)
  classes : ∀ c, ts.AdmitsClass c (ts.classDef c)
  bound : ∀ v, ts.pool.Has (ts.typeVar v).bound
  /-- Instantiations bind type parameters of classes only. -/
  isBound : ∀ {v}, ts.pool.IsBound v → ts.IsClassVar v
  keys : ∀ {m k}, ts.HasKey m k → ts.AdmitsKey k

theorem Valid.has_declaredSupertypes (hts : ts.Valid) {c : ClassId} {ty : TypeId}
    (hty : ty ∈ ts.declaredSupertypes c) : ts.pool.Has ty := by
  have hclass := hts.classes c
  rcases List.mem_append.mp hty with hty | hty
  · rcases List.mem_append.mp hty with hty | hty
    · exact hclass.superclass ty (Option.mem_toList.mp hty)
    · exact hclass.interfaces ty hty
  · split at hty
    · exact List.mem_singleton.mp hty ▸ hts.object.has
    · exact absurd hty List.not_mem_nil

theorem Valid.hasMember_of_declared (hts : ts.Valid) {c : ClassId} {m : MemberId}
    (h : m ∈ (ts.classDef c).members) : ts.HasMember m := by
  obtain ⟨k, hk, -, -⟩ := (hts.classes c).members m h
  exact hk.hasMember

theorem AdmitsKey.mono (hle : ts ≤ us) {k : MemberKey} (hk : ts.AdmitsKey k) : us.AdmitsKey k where
  name n hn := (hk.name n hn).of_le hle
  types ty hty := (hk.types ty hty).of_le hle.1
  container := hk.container.of_le hle.1
  generic g hg := ⟨(hk.generic g hg).1.of_le hle, (hk.generic g hg).2⟩

theorem AdmitsClass.mono (hle : ts ≤ us) (hvars : ∀ {v}, ts.IsClassVar v → us.IsClassVar v)
    (hmemberVars : ∀ {v}, ts.IsMemberVar v → us.IsMemberVar v)
    {c : ClassId} {d : ClassDef} (hd : ts.AdmitsClass c d) : us.AdmitsClass c d where
  name := hd.name.of_le hle
  typeParams v hv := hvars (hd.typeParams v hv)
  outer ty hty := (hd.outer ty hty).of_le hle.1
  superclass ty hty := (hd.superclass ty hty).of_le hle.1
  interfaces ty hty := (hd.interfaces ty hty).of_le hle.1
  members m hm := by
    obtain ⟨k, hk, hcontainer, hgeneric⟩ := hd.members m hm
    exact ⟨k, hk.of_le hle, hcontainer.of_le hle.1, hgeneric⟩
  ownParams m hm v hv := by
    obtain ⟨k, hk, -⟩ := hd.members m hm
    rw [member_of_le hle hk.hasMember] at hv
    exact hmemberVars (hd.ownParams m hm v hv)

/-- A type system has grown without a declaration. -/
structure Extends (ts us : TypeSystem) : Prop where
  le : ts ≤ us
  classes_eq : us.classes = ts.classes
  typeVars_eq : us.typeVars = ts.typeVars

theorem Extends.refl (ts : TypeSystem) : Extends ts ts := ⟨le_refl ts, rfl, rfl⟩

theorem Extends.trans {vs : TypeSystem} (h : Extends ts us) (h' : Extends us vs) : Extends ts vs :=
  ⟨le_trans h.le h'.le, h'.classes_eq.trans h.classes_eq, h'.typeVars_eq.trans h.typeVars_eq⟩

instance : Store TypeSystem where
  Grows := Extends
  Valid := Valid
  grows_refl := Extends.refl
  grows_trans := Extends.trans
  le_of_grows h := h.le

namespace Extends

variable (h : Extends ts us)
include h

theorem classDef_eq (c : ClassId) : us.classDef c = ts.classDef c := by
  rw [classDef, h.classes_eq]
  rfl

theorem typeVar_eq (v : TypeVarId) : us.typeVar v = ts.typeVar v := by
  rw [typeVar, h.typeVars_eq]
  rfl

theorem isClassVar_iff {v : TypeVarId} : us.IsClassVar v ↔ ts.IsClassVar v := by
  rw [IsClassVar, IsClassVar, h.typeVar_eq, h.typeVars_eq]

theorem isMemberVar_iff {v : TypeVarId} : us.IsMemberVar v ↔ ts.IsMemberVar v := by
  rw [IsMemberVar, IsMemberVar, h.typeVar_eq, h.typeVars_eq]

theorem declaredSupertypes_eq (c : ClassId) :
    us.declaredSupertypes c = ts.declaredSupertypes c := by
  rw [declaredSupertypes, declaredSupertypes, h.classDef_eq]

theorem admitsKey {k : MemberKey} (hk : ts.AdmitsKey k) : us.AdmitsKey k :=
  hk.mono h.le

/-- Growth keeps a type system valid when the pool stays valid, instantiations bind type
parameters of classes only, and the new keys are admitted. -/
theorem valid (hts : ts.Valid) (hpool : us.pool.Valid)
    (hbound : ∀ {v}, us.pool.IsBound v → ts.IsClassVar v)
    (hkeys : ∀ {m k}, us.HasKey m k → ts.AdmitsKey k) : us.Valid where
  pool := hpool
  object := hts.object.of_le h.le.1
  classes c := by
    rw [h.classDef_eq]
    exact (hts.classes c).mono h.le h.isClassVar_iff.mpr h.isMemberVar_iff.mpr
  bound v := by
    rw [h.typeVar_eq]
    exact (hts.bound v).of_le h.le.1
  isBound hv := h.isClassVar_iff.mpr (hbound hv)
  keys hk := h.admitsKey (hkeys hk)

end Extends

/-! ### Work on the pool -/

theorem lift_apply {α : Type} (act : StateM Pool α) (ts : TypeSystem) :
    (liftM act : StateM TypeSystem α) ts = ((act ts.pool).1, { ts with pool := (act ts.pool).2 }) :=
  rfl

/-- What an action computes in the pool it computes in the type system. -/
theorem lift_computes {α : Type} {act : StateM Pool α} {P : α → Pool → Prop} (hts : ts.Valid)
    (h : Computes act ts.pool P) :
    Computes (liftM act : StateM TypeSystem α) ts fun a us => P a us.pool := by
  have hext : Extends ts { ts with pool := (act ts.pool).2 } :=
    ⟨⟨h.grows.le, le_refl _, le_refl _, fun _ _ hm => hm⟩, rfl, rfl⟩
  constructor
  case again =>
    intro us hle
    rw [lift_apply, h.again us.pool hle.1]
    rfl
  case toKeeps =>
    have hbound : ∀ {v}, (act ts.pool).2.IsBound v → ts.IsClassVar v := fun hv =>
      hts.isBound (Pool.Extends.isBound h.grows hv)
    exact ⟨hext, hext.valid hts h.valid hbound hts.keys, h.post⟩

/-- An instantiation of a class binds type parameters of the class to the arguments. -/
theorem instantiate_keeps (hts : ts.Valid) (base : ClassId) {args : List TypeId}
    {outer : Option TypeId} (hargs : ∀ ty ∈ args, ts.pool.Has ty)
    (houter : ∀ ty ∈ outer, ts.pool.Has ty) :
    Keeps (instantiate base args outer) ts fun ty us => ∃ s,
      us.pool.HasKind ty (.inst base s outer) ∧
        us.pool.HasBindings s (Bindings.ofList ((ts.classDef base).typeParams.zip args)) := by
  unfold instantiate
  refine Keeps.get_bind ?_
  have hbs : ∀ b ∈ (ts.classDef base).typeParams.zip args, ts.pool.Has b.2 := fun b hb =>
    hargs b.2 (List.of_mem_zip hb).2
  refine (lift_computes hts (Pool.internSubst_computes hts.pool hbs)).toKeeps.bind ?_
  intro s us hus hvalid hs
  let vs : TypeSystem := { us with pool := (Pool.instantiation base s outer us.pool).2 }
  have hlepool : us.pool ≤ vs.pool := Pool.le_internKind us.pool _
  have hext : Extends us vs := ⟨⟨hlepool, le_refl _, le_refl _, fun _ _ hm => hm⟩, rfl, rfl⟩
  have hadmits : us.pool.Admits (.inst base s outer) :=
    Pool.admits_inst hvalid.pool hs fun u hu => (houter u hu).of_le hus.le.1
  have hbound : ∀ {v}, vs.pool.IsBound v → us.IsClassVar v := by
    rintro v ⟨u, ty, base', s', outer', bs, hkind, hbs', hb⟩
    rcases Pool.hasKind_internKind_cases hkind with hold | ⟨-, heq, -⟩
    · exact hvalid.isBound ⟨u, ty, base', s', outer', bs, hold, hbs', hb⟩
    · cases heq
      obtain rfl := hs.unique hbs'
      have hv := (List.of_mem_zip (Bindings.mem_of_mem_ofList hb)).1
      exact (Extends.isClassVar_iff hus).mpr ((hts.classes base).typeParams v hv)
  exact ⟨hext, hext.valid hvalid (hvalid.pool.internKind hadmits) hbound hvalid.keys, s,
    Pool.hasKind_internKind us.pool _, hs.of_le hlepool⟩

/-! ### Interning members -/

/-- Interning a member whose key is admitted answers an instance with that key. -/
theorem internMember_computes (hts : ts.Valid) {x : Member} (hx : ts.AdmitsKey x.toMemberKey) :
    Computes (internMember x) ts fun m us => us.HasKey m x.toMemberKey := by
  have hext : Extends ts (internMember x ts).2 :=
    ⟨⟨le_refl _, InternTable.le_intern _ _, le_refl _, fun _ _ hm => hm⟩, rfl, rfl⟩
  have hkeys : ∀ {m k}, (internMember x ts).2.HasKey m k → ts.AdmitsKey k := by
    intro m k hk
    obtain ⟨a, ha, rfl⟩ := Option.map_eq_some_iff.mp hk
    rcases InternTable.get?_intern_cases ha with hold | ⟨-, -, rfl⟩
    · exact hts.keys (m := m) (by rw [HasKey, hold]; rfl)
    · exact hx
  constructor
  case again =>
    intro us hle
    have h := InternTable.intern_eq_of_le (b := x) hle.2.1 rfl
    simp only [internMember, h]
  case toKeeps =>
    exact ⟨hext, hext.valid hts hts.pool hts.isBound hkeys, InternTable.get?_intern ts.members x⟩

end Erasure.TypeSystem
