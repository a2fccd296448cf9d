/-
Extending a type system by declarations.

A type system that has been in use is extended by further declarations and by whatever is interned
on the way. The declarations spare what there was: they may concern classes and variables that are
new, and every class may declare further members. The main statements:

* `Declaration.exists_classDef_run`: what a declaration that spares a class does to it.
* `Extended.adds`, `Extended.continues`: such an extension only adds, and changes nothing that erasure
  observes.
-/
import Erasure.Proofs.Canonical.Addition
import Erasure.Proofs.Canonical.Faithful

namespace Erasure.TypeSystem

variable {ts us vs : TypeSystem}

/-- The classes and variables that types mention are declared, and instances stand for members that
are there. -/
structure Closed (ts : TypeSystem) : Prop where
  classes : ∀ {c}, ts.Mentions c → c.index < ts.classes.size
  vars : ts.DeclaresVars
  decls : ∀ {n}, ts.HasMember n → ts.HasMember (ts.member n).decl

/-- A kind of types with nothing in it that is not declared. -/
def mentionsDeclared (ts : TypeSystem) : TypeKind → Bool
  | .raw c | .inst c _ _ => c.index < ts.classes.size
  | .var v => v.index < ts.typeVars.size
  | .prim _ | .null | .array _ | .lub _ => true

/-- A type system is closed when its types and members are, one by one. -/
theorem Closed.of_entries
    (hkinds : ∀ i < ts.pool.size, ts.mentionsDeclared (ts.kind ⟨i⟩) = true)
    (hdecls : ∀ i < ts.members.size, (ts.member ⟨i⟩).decl.index < ts.members.size) : ts.Closed where
  classes := by
    rintro c ⟨ty, hty, hc⟩
    have hkind := hkinds ty.index hty
    rw [classOf?] at hc
    generalize ts.kind ty = kind at hkind hc
    cases kind with
    | raw d | inst d s outer =>
      cases hc
      exact of_decide_eq_true hkind
    | prim _ | null | array _ | var _ | lub _ => cases hc
  vars := by
    intro ty v hk
    have hkind := hkinds ty.index hk.has
    rw [show ts.kind ⟨ty.index⟩ = .var v from hk.kind_eq] at hkind
    exact of_decide_eq_true hkind
  decls := hdecls _

/-! ### Single declarations -/

/-- The declaration leaves the classes that `ts` mentions and the variables that it declares as they
are, but for members declared in addition. -/
def Declaration.Spares (ts : TypeSystem) : Declaration → Prop
  | declareClass _ _ | addMethodTypeParam _ _ | declareMember _ _ _ => True
  | setSuperclass c _ | addInterface c _ | setOuter c _ | addTypeParam c _ _ => ¬ ts.Mentions c
  | setBound v _ => ts.typeVars.size ≤ v.index

theorem classes_declareTypeVar (name : String) (bound : Option TypeId) (owner : TypeVarOwner)
    (us : TypeSystem) : (declareTypeVar name bound owner us).2.classes = us.classes := rfl

/-- A member is declared after those that are there, or it is one of them. -/
theorem classes_declareMember (c : ClassId) (kind : MemberKind) (flags : MemberFlags)
    (us : TypeSystem) : (declareMember c kind flags us).2.classes = us.classes ∨
      ∃ m : MemberId, us.members.size ≤ m.index ∧ (declareMember c kind flags us).2.classes =
        us.classes.modify c.index fun d => { d with members := d.members ++ [m] } := by
  unfold declareMember
  rw [bind_apply, lift_apply, get_bind_apply]
  let us' : TypeSystem := { us with pool := (Pool.rawClass c us.pool).2 }
  let key : MemberKey :=
    { kind, container := (Pool.rawClass c us.pool).1, flags, generic := none }
  cases hfound : us'.memberWithKey? key with
  | some m => exact Or.inl rfl
  | none =>
    refine Or.inr ⟨⟨(us.members.intern _).1⟩, ?_, rfl⟩
    have hnew : us.members.find? key = none := Option.map_eq_none_iff.mp hfound
    exact (InternTable.intern_of_find?_eq_none hnew).1.ge

theorem append_nil_members (d : ClassDef) : { d with members := d.members ++ [] } = d := by
  rw [List.append_nil]

namespace Declaration

/-- No class is undone. -/
theorem classes_size_run (d : Declaration) (us : TypeSystem) :
    us.classes.size ≤ (d.run us).2.classes.size := by
  cases d with
  | declareClass name flags => exact (Nat.le_succ _).trans (Array.size_push ..).ge
  | setSuperclass c _ | addInterface c _ | setOuter c _ | addTypeParam c _ _ =>
    exact (Array.size_modify ..).ge
  | addMethodTypeParam name bound | setBound v bound => exact le_refl us.classes.size
  | declareMember c kind flags =>
    show _ ≤ (TypeSystem.declareMember c kind flags us).2.classes.size
    rcases classes_declareMember c kind flags us with hsame | ⟨m, -, hmodify⟩
    · rw [hsame]
    · rw [hmodify, Array.size_modify]

/-- A class that is spared gets further members at most. -/
theorem exists_classDef_run {d : Declaration} (hd : d.Spares ts) {c : ClassId}
    (hc : ts.Mentions c) (hlt : c.index < us.classes.size) :
    ∃ new : List MemberId, (∀ m ∈ new, us.members.size ≤ m.index) ∧
      (d.run us).2.classDef c =
        { us.classDef c with members := (us.classDef c).members ++ new } := by
  have hsame : (d.run us).2.classDef c = us.classDef c → ∃ new : List MemberId,
      (∀ m ∈ new, us.members.size ≤ m.index) ∧ (d.run us).2.classDef c =
        { us.classDef c with members := (us.classDef c).members ++ new } := fun h =>
    ⟨[], fun _ hm => absurd hm List.not_mem_nil, by rw [h, append_nil_members]⟩
  have hother : ∀ {e : ClassId} (f : ClassDef → ClassDef) (vs : TypeSystem), ¬ ts.Mentions e →
      (modifyClass e f vs).2.classDef c = vs.classDef c := fun f vs he =>
    (classDef_modifyClass_cases _ f vs c).resolve_right fun h => he (h.1 ▸ hc)
  cases d with
  | declareClass name flags => exact hsame (getD_push_of_lt _ _ hlt)
  | setSuperclass e _ | addInterface e _ | setOuter e _ => exact hsame (hother _ us hd)
  | addTypeParam e name bound => exact hsame (hother _ (declareTypeVar name bound _ us).2 hd)
  | addMethodTypeParam name bound | setBound v bound => exact hsame rfl
  | declareMember e kind flags =>
    rcases classes_declareMember e kind flags us with hclasses | ⟨m, hm, hmodify⟩
    · refine hsame ?_
      show ((TypeSystem.declareMember e kind flags us).2.classes).getD _ _ = _
      rw [hclasses]
      rfl
    · have hnew : (run (.declareMember e kind flags) us).2.classDef c =
          (us.classes.modify e.index fun d => { d with members := d.members ++ [m] }).getD c.index
            default := congrArg (·.getD c.index default) hmodify
      rcases getD_modify_cases us.classes (fun d => { d with members := d.members ++ [m] }) default
        e.index c.index with hold | ⟨-, hold⟩
      · exact hsame (hnew.trans hold)
      · exact ⟨[m], fun n hn => List.mem_singleton.mp hn ▸ hm, hnew.trans hold⟩

/-- A variable that is spared keeps its bound. -/
theorem not_setsBound {d : Declaration} (hd : d.Spares ts) {v : TypeVarId}
    (hv : v.index < ts.typeVars.size) (hsize : ts.typeVars.size ≤ us.typeVars.size) :
    ¬ d.SetsBound us v := by
  cases d with
  | setBound w bound =>
    rintro rfl
    exact Nat.not_le_of_lt hv hd
  | addTypeParam _ _ _ | addMethodTypeParam _ _ => exact fun h => by rw [SetsBound] at h; omega
  | declareClass _ _ | setSuperclass _ _ | addInterface _ _ | setOuter _ _ | declareMember _ _ _ =>
    exact id

end Declaration

/-! ### Extensions -/

/-- The type system was extended by declarations that spare it, and by what was interned. -/
inductive Extended (ts : TypeSystem) : TypeSystem → Prop
  | refl : Extended ts ts
  | grow {us vs : TypeSystem} : Extended ts us → Extends us vs → vs.Valid → Extended ts vs
  | declare {us : TypeSystem} (d : Declaration) : Extended ts us → d.Admitted us → d.Spares ts →
      Extended ts (d.run us).2

/-- Such an extension only adds. -/
theorem Extended.adds (hts : ts.Valid) (hclosed : ts.Closed) (h : Extended ts us) :
    us.Valid ∧ Adds ts us := by
  induction h with
  | refl =>
    refine ⟨hts, le_refl ts, le_refl _, le_refl _, fun _ => rfl, fun _ => ⟨[], ?_, ?_⟩⟩
    · exact fun _ hm => absurd hm List.not_mem_nil
    · rw [append_nil_members]
  | grow _ hext hvs ih =>
    obtain ⟨-, hadds⟩ := ih
    refine ⟨hvs, le_trans hadds.le hext.le, hext.classes_eq ▸ hadds.classes_size,
      hext.typeVars_eq ▸ hadds.typeVars_size, fun hv => ?_, fun hc => ?_⟩
    · rw [hext.typeVar_eq]
      exact hadds.bound hv
    · rw [hext.classDef_eq]
      exact hadds.classDef hc
  | @declare us d _ hd hspares ih =>
    obtain ⟨hus, hadds⟩ := ih
    have hrun := d.run_advances hus hd
    have hbound : ∀ v : TypeVarId, v.index < ts.typeVars.size →
        v.index < (d.run us).2.typeVars.size ∧
          ((d.run us).2.typeVar v).bound = (ts.typeVar v).bound := by
      intro v hv
      have hsets := Declaration.not_setsBound hspares hv hadds.typeVars_size
      have hold : us.bound? v = some (ts.typeVar v).bound :=
        bound?_eq_some_iff.mpr ⟨hv.trans_le hadds.typeVars_size, hadds.bound hv⟩
      exact bound?_eq_some_iff.mp ((Declaration.bound?_run hsets).trans hold)
    refine ⟨hrun.valid, le_trans hadds.le hrun.le, ?_, ?_, fun hv => (hbound _ hv).2, ?_⟩
    · exact hadds.classes_size.trans (d.classes_size_run us)
    · by_contra hlt
      exact absurd (hbound ⟨_⟩ (Nat.lt_of_not_le hlt)).1 (lt_irrefl _)
    · intro c hc
      obtain ⟨new, hnew, hold⟩ := hadds.classDef hc
      obtain ⟨new', hnew', hdef⟩ := Declaration.exists_classDef_run hspares hc
        ((hclosed.classes hc).trans_le hadds.classes_size)
      refine ⟨new ++ new', fun m hm n hn => ?_, ?_⟩
      · rcases List.mem_append.mp hm with hm | hm
        · exact hnew m hm n hn
        · rintro rfl
          have hlt : (ts.member n).decl.index < us.members.size :=
            (hclosed.decls hn).of_le hadds.le
          exact absurd (hnew' _ hm) (Nat.not_le_of_lt hlt)
      · rw [hdef, hold, List.append_assoc]

/-- What erasure observes is what it was. -/
theorem Extended.continues (hts : ts.Valid) (hacyclic : ts.Acyclic) (hclosed : ts.Closed)
    (h : Extended ts us) : us.Valid ∧ Continues ts us :=
  (h.adds hts hclosed).imp_right fun hadds => hadds.continues hts hacyclic hclosed.vars

end Erasure.TypeSystem
