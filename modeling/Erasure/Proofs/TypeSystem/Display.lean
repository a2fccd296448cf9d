/-
The printed form of types and members stays the same.

A declaration gives a type variable a name that was handed out, so that growth without a declaration
changes no text that a printed form has in it. The main statements:

* `Declaration.run_varsNamed`: type variables have names that were handed out.
* `displayWithin_of_extends`: a type prints the same after growth.
* `displayMember_of_extends`: and so does a member.
-/
import Erasure.TypeSystem.Display
import Erasure.Proofs.TypeSystem.Operation

namespace Erasure.TypeSystem

variable {ts us : TypeSystem}

/-! ### Names of type variables -/

/-- Every type variable has a name that was handed out. -/
def VarsNamed (ts : TypeSystem) : Prop := ∀ v, ts.HasName (ts.typeVar v).name

theorem VarsNamed.of_extends (h : ts.VarsNamed) (hext : Extends ts us) : us.VarsNamed := fun v =>
  hext.typeVar_eq v ▸ (h v).of_le hext.le

/-- Variables have names as before, or names that are handed out now. -/
theorem VarsNamed.redeclare (h : ts.VarsNamed) (hnames : ts.names ≤ us.names)
    (hcases : ∀ v, (us.typeVar v).name = (ts.typeVar v).name ∨ us.HasName (us.typeVar v).name) :
    us.VarsNamed := fun v =>
  (hcases v).elim (fun hsame => hsame ▸ (h v).trans_le (InternTable.size_le_of_le hnames)) id

theorem intern_varsNamed (h : ts.VarsNamed) (text : String) : (intern text ts).2.VarsNamed :=
  h.redeclare (InternTable.le_intern _ _) fun _ => .inl rfl

theorem modifyClass_varsNamed (h : ts.VarsNamed) (c : ClassId) (f : ClassDef → ClassDef) :
    (modifyClass c f ts).2.VarsNamed := h.redeclare (le_refl _) fun _ => .inl rfl

theorem declareTypeVar_varsNamed (h : ts.VarsNamed) (name : String) (bound : Option TypeId)
    (owner : TypeVarOwner) : (declareTypeVar name bound owner ts).2.VarsNamed := by
  refine (intern_varsNamed h name).redeclare (le_refl _) fun v => ?_
  let d : TypeVarDef := { name := (intern name ts).1, bound := bound.getD .object, owner }
  rcases getD_push_cases ts.typeVars d default v.index with hsame | ⟨-, hnew⟩
  · exact .inl (congrArg TypeVarDef.name hsame)
  · exact .inr ((congrArg TypeVarDef.name hnew).symm ▸ hasName_intern name ts)

theorem setBound_varsNamed (h : ts.VarsNamed) (v : TypeVarId) (bound : TypeId) :
    (setBound v bound ts).2.VarsNamed := by
  refine h.redeclare (le_refl _) fun w => .inl ?_
  rcases getD_modify_cases ts.typeVars ({ · with bound }) default v.index w.index with
    hsame | ⟨-, hnew⟩
  · exact congrArg TypeVarDef.name hsame
  · exact (congrArg TypeVarDef.name hnew :)

theorem adopt_varsNamed (h : ts.VarsNamed) (m : MemberId) (vs : List TypeVarId) :
    (adopt m vs ts).2.VarsNamed := by
  refine h.redeclare (le_refl _) fun w => .inl ?_
  rcases (getD_adopt_cases m vs ts.typeVars w.index).2 with hsame | ⟨hnew, -⟩
  · exact congrArg TypeVarDef.name hsame
  · exact (congrArg TypeVarDef.name hnew :)

theorem declareMember_varsNamed (h : ts.VarsNamed) (c : ClassId) (kind : MemberKind)
    (flags : MemberFlags) : (declareMember c kind flags ts).2.VarsNamed := by
  have hraw : ((liftM (Pool.rawClass c) : StateM TypeSystem TypeId) ts).2.VarsNamed :=
    h.redeclare (le_refl _) fun _ => .inl rfl
  unfold declareMember
  rw [bind_apply, get_bind_apply]
  generalize (liftM (Pool.rawClass c) : StateM TypeSystem TypeId) ts = raw at hraw ⊢
  dsimp only
  cases raw.2.memberWithKey? { kind, container := raw.1, flags, generic := none } with
  | some m => exact hraw
  | none =>
    have hadopt := adopt_varsNamed hraw ⟨raw.2.members.size⟩ kind.typeParams
    exact hadopt.redeclare (le_refl _) fun _ => .inl rfl

/-- A declaration gives a type variable a name that was handed out. -/
theorem Declaration.run_varsNamed (h : ts.VarsNamed) (d : Declaration) :
    (d.run ts).2.VarsNamed := by
  cases d with
  | declareClass name _ => exact intern_varsNamed h name
  | setSuperclass c _ | addInterface c _ | setOuter c _ => exact modifyClass_varsNamed h c _
  | addTypeParam c name bound =>
    exact modifyClass_varsNamed (declareTypeVar_varsNamed h name bound _) c _
  | addMethodTypeParam name bound => exact declareTypeVar_varsNamed h name bound _
  | setBound v bound => exact setBound_varsNamed h v bound
  | declareMember c kind flags => exact declareMember_varsNamed h c kind flags

theorem initial_varsNamed : initial.VarsNamed := by
  have htypeVars : initial.typeVars = #[] := Array.eq_empty_of_size_eq_zero (by decide +kernel)
  intro v
  rw [typeVar, htypeVars]
  exact (by decide +kernel : 0 < initial.names.size)

/-! ### Printed forms -/

theorem className_of_extends (hts : ts.Valid) (hext : Extends ts us) (c : ClassId) :
    us.className c = ts.className c := by
  rw [className, className, hext.classDef_eq, text_of_le hext.le (hts.classes c).name]

theorem VarsNamed.text_eq (h : ts.VarsNamed) (hext : Extends ts us) (v : TypeVarId) :
    us.text (us.typeVar v).name = ts.text (ts.typeVar v).name := by
  rw [hext.typeVar_eq, text_of_le hext.le (h v)]

section

variable (hts : ts.Valid) (hnames : ts.VarsNamed) (hext : Extends ts us)
include hts hnames hext

/-- A type prints the same after growth without a declaration. -/
theorem displayWithin_of_extends (depth : Nat) {ty : TypeId} (hty : ts.pool.Has ty) :
    us.displayWithin depth ty = ts.displayWithin depth ty := by
  induction depth generalizing ty with
  | zero => rfl
  | succ depth ih =>
    have hkind := hty.hasKind
    have hpart := fun {u} => hts.pool.has_part (u := u) hkind
    have hlinked := hts.pool.linked hkind
    unfold displayWithin
    rw [kind_of_le hext.le hty, kind]
    cases hk : ts.pool.kind ty with
    | prim p => rfl
    | null => rfl
    | array elem =>
      rw [hk] at hpart
      exact congrArg (· ++ "[]") (ih (hpart List.mem_cons_self))
    | raw c => exact className_of_extends hts hext c
    | var v => exact hnames.text_eq hext v
    | inst base s outer =>
      rw [hk] at hpart hlinked
      obtain ⟨bs, hbs⟩ := hlinked
      dsimp only
      rw [className_of_extends hts hext, hext.classDef_eq]
      refine congrArg (ts.className base ++ "<" ++ commaSeparated · ++ ">")
        (List.map_congr_left fun param _ => ?_)
      rw [Pool.replacement?_of_le hext.le.1 hbs]
      cases harg : ts.pool.replacement? s param with
      | none => exact hnames.text_eq hext param
      | some arg =>
        have hmem := List.mem_map_of_mem (f := Prod.snd) (Bindings.mem_of_lookup? harg)
        exact ih (hpart (List.mem_append_left _ hmem))
    | lub l =>
      rw [hk] at hpart hlinked
      obtain ⟨cs, hcs⟩ := hlinked
      have hsame : us.pool.candidates l = ts.pool.candidates l :=
        (hcs.of_le hext.le.1).candidates_eq.trans hcs.candidates_eq.symm
      dsimp only
      rw [hsame]
      exact congrArg ("lub(" ++ commaSeparated · ++ ")")
        (List.map_congr_left fun u hu => ih (hpart hu))

theorem display_of_extends {ty : TypeId} (hty : ts.pool.Has ty) : us.display ty = ts.display ty :=
  displayWithin_of_extends hts hnames hext _ hty

theorem displayList_of_extends {tys : List TypeId} (htys : ∀ ty ∈ tys, ts.pool.Has ty) :
    us.displayList tys = ts.displayList tys :=
  congrArg commaSeparated
    (List.map_congr_left fun ty hty => display_of_extends hts hnames hext (htys ty hty))

/-- A member prints the same after growth without a declaration. -/
theorem displayMember_of_extends {m : MemberId} (hm : ts.HasMember m) :
    us.displayMember m = ts.displayMember m := by
  have hadmits := hts.keys hm.hasKey
  rw [displayMember, displayMember, member_of_le hext.le hm,
    display_of_extends hts hnames hext hadmits.container]
  have htext : ∀ n ∈ (ts.member m).kind.name?, us.text n = ts.text n := fun n hn =>
    text_of_le hext.le (hadmits.name n hn)
  have hformals : ∀ ty ∈ (ts.member m).kind.formals, ts.pool.Has ty := fun ty hty =>
    hadmits.types ty (MemberKind.mem_types_of_mem_formals hty)
  cases hk : (ts.member m).kind with
  | method name formals _ _ =>
    rw [hk] at htext hformals
    have hlist : us.displayList formals = ts.displayList formals :=
      displayList_of_extends hts hnames hext hformals
    dsimp only
    rw [htext name rfl, hlist]
  | constructor formals _ =>
    rw [hk] at hformals
    have hlist : us.displayList formals = ts.displayList formals :=
      displayList_of_extends hts hnames hext hformals
    dsimp only
    rw [hlist]
  | field name _ =>
    rw [hk] at htext
    dsimp only
    rw [htext name rfl]
  | initializer => rfl

end

end Erasure.TypeSystem
