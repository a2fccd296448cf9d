/-
Symbols that do not depend on the history.

The symbol of a procedure that is seen in a raw class is spelled out by its `ProcedureTree`: the name
of the class, the name of the method, and the trees of the formals, in which instantiations count as
their class and type variables as their bound. The main statements:

* `argCodeWithin_eq`: the argument code of an erased type is that of its tree.
* `procedureSymbol_of_followsOutline`: a signature that follows the outlines of one with a tree has
  the symbol of the tree.
* `symbolOf_eq`: the symbol of the canonical member is that of the tree.
* `symbol_independent_of_history`: procedures of one tree have one symbol, whatever was declared,
  asked and made canonical before, as long as no bound was set behind the back of the memo.
* `symbol_dependent_on_history`: when one was, the symbol goes by the bound there was before.
-/
import Erasure.Proofs.Canonical.Faithful
import Erasure.Proofs.Symbol.Mangling
import Erasure.Proofs.TypeSystem.Display

namespace Erasure

/-! ### Trees -/

/-- An erased type with names in the place of classes. -/
inductive TypeTree where
  | prim (p : Primitive)
  | null
  | named (name : String)
  | array (elem : TypeTree)
  deriving DecidableEq, Repr

/-- What the symbol of a procedure tells. -/
structure ProcedureTree where
  /-- The name of the class. -/
  container : String
  /-- The name of a method; constructors have none. -/
  name : Option String
  formals : List TypeTree
  deriving DecidableEq, Repr

/-- The argument code of a formal with the given tree. -/
def TypeTree.argCode : TypeTree → Except MangleError ArgCode
  | prim p =>
    match TypeSystem.primitiveCode? p with
    | some code => .ok code
    | none => .error (.unsupportedArgType p.keyword)
  | null => .error (.unsupportedArgType "null")
  | named name => .ok (.reference name)
  | array elem => .array <$> elem.argCode

/-- The symbol of a procedure with the given tree. -/
def ProcedureTree.symbol (p : ProcedureTree) : Except MangleError Symbol := do
  match p.name with
  | some name => return .method p.container name (← p.formals.mapM TypeTree.argCode)
  | none => return .constructor p.container (← p.formals.mapM TypeTree.argCode)

/-- An erased type with the names of its classes. -/
def Shape.tree (ts : TypeSystem) : Shape → TypeTree
  | prim p => .prim p
  | null => .null
  | raw c => .named (ts.className c)
  | array elem => .array (elem.tree ts)

namespace TypeSystem

variable {ts us : TypeSystem}

/-- The tree of a type, in which instantiations count as their class and declared type variables as
their bound. -/
def HasTree (ts : TypeSystem) (ty : TypeId) (tree : TypeTree) : Prop :=
  ∃ shape, ts.HasOutline (fun _ => True) ty shape ∧ shape.tree ts = tree

/-- The tree of a procedure of a raw class. -/
inductive HasProcedureTree (ts : TypeSystem) (m : MemberId) : ProcedureTree → Prop
  | method {c : ClassId} {name : Name} {formals : List TypeId} {result : TypeId}
      {params : List TypeVarId} {trees : List TypeTree} :
      ts.pool.HasKind (ts.member m).container (.raw c) →
      (ts.member m).kind = .method name formals result params →
      List.Forall₂ ts.HasTree formals trees →
      HasProcedureTree ts m ⟨ts.className c, some (ts.text name), trees⟩
  | constructor {c : ClassId} {formals : List TypeId} {params : List TypeVarId}
      {trees : List TypeTree} : ts.pool.HasKind (ts.member m).container (.raw c) →
      (ts.member m).kind = .constructor formals params →
      List.Forall₂ ts.HasTree formals trees → HasProcedureTree ts m ⟨ts.className c, none, trees⟩

/-- A member as its class sees it, made from no generic method. -/
structure SeenInClass (ts : TypeSystem) (m : MemberId) : Prop where
  hasMember : ts.HasMember m
  generic : (ts.member m).generic = none
  container : ∃ c, ts.pool.HasKind (ts.member m).container (.raw c)

/-- A declared member is seen in its class. -/
theorem SeenInClass.of_declared (hts : ts.Valid) {c : ClassId} {m : MemberId}
    (h : m ∈ (ts.classDef c).members) : ts.SeenInClass m := by
  obtain ⟨k, hkey, hraw, hgeneric⟩ := (hts.classes c).members m h
  exact ⟨hkey.hasMember, hkey.generic_eq.trans hgeneric, c, hkey.container_eq ▸ hraw⟩

/-- Erasing a formal of the procedure looks into the variable. -/
def LedToBy (ts : TypeSystem) (m : MemberId) (v : TypeVarId) : Prop :=
  ∃ ty ∈ (ts.member m).kind.formals, ts.LeadsTo ty v

/-- The type leads to declared variables only, and to no upper bound still to be computed. -/
structure IsPlain (ts : TypeSystem) (ty : TypeId) : Prop where
  noLub : ∀ u l, Relation.ReflTransGen ts.LooksInto ty u → ¬ ts.pool.HasKind u (.lub l)
  declared : ∀ v, ts.LeadsTo ty v → v.index < ts.typeVars.size

/-- A type that erasure looks into no further is plain. -/
theorem IsPlain.of_isEnd {ty : TypeId} (h : IsEnd (ts.kind ty) = true) : ts.IsPlain ty := by
  have hself : ∀ {u}, Relation.ReflTransGen ts.LooksInto ty u → u = ty := by
    intro u hu
    rcases Relation.ReflTransGen.cases_head hu with rfl | ⟨w, hstep, -⟩
    · rfl
    · cases hstep with
      | bound hk | elem hk | candidate hk _ =>
        rw [show ts.kind ty = _ from hk.kind_eq] at h
        cases h
  constructor
  case noLub =>
    intro u l hu hk
    obtain rfl := hself hu
    rw [show ts.kind u = _ from hk.kind_eq] at h
    cases h
  case declared =>
    rintro v ⟨u, hu, hk⟩
    obtain rfl := hself hu
    rw [show ts.kind u = _ from hk.kind_eq] at h
    cases h

/-- A declared type variable is plain if its bound is. -/
theorem IsPlain.of_var {ty : TypeId} {v : TypeVarId} (hk : ts.pool.HasKind ty (.var v))
    (hlt : v.index < ts.typeVars.size) (h : ts.IsPlain (ts.typeVar v).bound) : ts.IsPlain ty := by
  have hstep : ∀ {u}, Relation.ReflTransGen ts.LooksInto ty u →
      u = ty ∨ Relation.ReflTransGen ts.LooksInto (ts.typeVar v).bound u := by
    intro u hu
    rcases Relation.ReflTransGen.cases_head hu with rfl | ⟨w, hw, hrest⟩
    · exact Or.inl rfl
    · cases hw with
      | bound hk' =>
        cases hk.unique hk'
        exact Or.inr hrest
      | elem hk' | candidate hk' _ => cases hk.unique hk'
  constructor
  case noLub =>
    intro u l hu hlub
    rcases hstep hu with rfl | hu
    · cases hk.unique hlub
    · exact h.noLub u l hu hlub
  case declared =>
    rintro w ⟨u, hu, hvar⟩
    rcases hstep hu with rfl | hu
    · cases hk.unique hvar
      exact hlt
    · exact h.declared w ⟨u, hu, hvar⟩

/-- A procedure of a raw class has a tree if its formals lead to no upper bound. -/
theorem SeenInClass.exists_tree (hts : ts.Valid) (hacyclic : ts.Acyclic) {m : MemberId}
    (hm : ts.SeenInClass m) (hprocedure : (ts.member m).kind.isProcedure = true)
    (hplain : ∀ ty ∈ (ts.member m).kind.formals, ts.IsPlain ty) :
    ∃ p, ts.HasProcedureTree m p := by
  have htypes := (hts.keys hm.hasMember.hasKey).types
  obtain ⟨c, hraw⟩ := hm.container
  have htrees : ∀ {formals}, (∀ ty ∈ formals, ts.pool.Has ty ∧ ts.IsPlain ty) →
      ∃ trees, List.Forall₂ ts.HasTree formals trees := by
    intro formals h
    induction formals with
    | nil => exact ⟨[], .nil⟩
    | cons ty formals ih =>
      obtain ⟨hty, hlub, hvars⟩ := h ty List.mem_cons_self
      obtain ⟨shape, hshape⟩ := exists_outline hts hacyclic hty hlub fun v hv =>
        ⟨trivial, hvars v hv⟩
      obtain ⟨trees, hrest⟩ := ih fun ty hty => h ty (List.mem_cons_of_mem _ hty)
      exact ⟨_, .cons ⟨shape, hshape, rfl⟩ hrest⟩
  cases hk : (ts.member m).kind with
  | method name formals result params =>
    rw [hk] at htypes hplain
    obtain ⟨trees, h⟩ := htrees fun ty hty =>
      ⟨htypes ty (List.mem_append_left _ hty), hplain ty hty⟩
    exact ⟨_, .method hraw hk h⟩
  | constructor formals params =>
    rw [hk] at htypes hplain
    obtain ⟨trees, h⟩ := htrees fun ty hty => ⟨htypes ty hty, hplain ty hty⟩
    exact ⟨_, .constructor hraw hk h⟩
  | field _ _ | initializer =>
    rw [hk] at hprocedure
    cases hprocedure

/-! ### Names -/

theorem tree_of_extends (hts : ts.Valid) (hext : Extends ts us) (shape : Shape) :
    shape.tree us = shape.tree ts := by
  induction shape with
  | prim p => rfl
  | null => rfl
  | raw c => exact congrArg TypeTree.named (className_of_extends hts hext c)
  | array elem ih => exact congrArg TypeTree.array ih

/-! ### Argument codes -/

/-- The argument code of an erased type is that of its tree. -/
theorem argCodeWithin_eq (hts : ts.Valid) {ty : TypeId} {shape : Shape}
    (h : ts.pool.HasShape ty shape) {depth : Nat} (hdepth : ty.index < depth) :
    ts.argCodeWithin depth ty = (shape.tree ts).argCode := by
  induction h generalizing depth with
  | @prim ty p hk =>
    obtain ⟨depth, rfl⟩ := Nat.exists_eq_add_of_lt hdepth
    have hdisplay : ts.display ty = p.keyword := by
      rw [display, displayWithin, show ts.kind ty = _ from hk.kind_eq]
    rw [argCodeWithin, show ts.kind ty = _ from hk.kind_eq, hdisplay]
    cases p <;> rfl
  | @null ty hk =>
    obtain ⟨depth, rfl⟩ := Nat.exists_eq_add_of_lt hdepth
    have hdisplay : ts.display ty = "null" := by
      rw [display, displayWithin, show ts.kind ty = _ from hk.kind_eq]
    rw [argCodeWithin, show ts.kind ty = _ from hk.kind_eq, hdisplay]
    rfl
  | raw hk =>
    obtain ⟨depth, rfl⟩ := Nat.exists_eq_add_of_lt hdepth
    rw [argCodeWithin, show ts.kind _ = _ from hk.kind_eq]
    rfl
  | array hk _ ih =>
    obtain ⟨depth, rfl⟩ := Nat.exists_eq_add_of_lt hdepth
    have hlt := hts.pool.parts_lt hk _ List.mem_cons_self
    rw [argCodeWithin, show ts.kind _ = _ from hk.kind_eq]
    exact congrArg (ArgCode.array <$> ·) (ih (by omega))

/-- The argument codes of erased formals are those of their trees. -/
theorem mapM_argCode_eq (hts : ts.Valid) {formals : List TypeId} {trees : List TypeTree}
    (h : List.Forall₂ (fun ty tree => ∃ shape, ts.pool.HasShape ty shape ∧ shape.tree ts = tree)
      formals trees) : formals.mapM ts.argCode = trees.mapM TypeTree.argCode := by
  induction h with
  | nil => rfl
  | cons hty _ ih =>
    obtain ⟨shape, hshape, rfl⟩ := hty
    rw [List.mapM_cons, List.mapM_cons, ih, argCode, argCodeWithin_eq hts hshape (Nat.lt_succ_self _)]

end TypeSystem

namespace Canonicalizer

variable {s t : Canonicalizer}

/-! ### Symbols -/

/-- The symbol of a procedure after it was made canonical. -/
def symbolOf (s : Canonicalizer) (m : MemberId) :
    Except CanonError (Except MangleError Symbol) :=
  let (canonical, t) := (canonicalizeMember m).run s
  t.types.procedureSymbol <$> canonical

/-- Formals that follow the outlines of formals with trees have those trees. -/
theorem trees_of_followsOutline {V : TypeVarId → Prop} (hs : s.types.Valid)
    (hext : TypeSystem.Extends s.types t.types) {formals formals' : List TypeId}
    {trees : List TypeTree} (hV : ∀ ty ∈ formals, ∀ v, s.types.LeadsTo ty v → V v)
    (htrees : List.Forall₂ s.types.HasTree formals trees)
    (h : List.Forall₂ (FollowsOutline V t.types) formals formals') :
    List.Forall₂ (fun ty tree => ∃ shape, t.types.pool.HasShape ty shape ∧
      shape.tree t.types = tree) formals' trees := by
  induction htrees generalizing formals' with
  | nil =>
    cases h
    exact .nil
  | cons hty _ ih =>
    obtain ⟨shape, houtline, rfl⟩ := hty
    cases h with
    | cons hfollows hrest =>
      have hshape := hfollows shape
        ((houtline.within (hV _ List.mem_cons_self)).of_extends hext)
      exact .cons ⟨shape, hshape, TypeSystem.tree_of_extends hs hext shape⟩
        (ih (fun ty hty => hV ty (List.mem_cons_of_mem _ hty)) hrest)

/-- A procedure whose signature follows the outlines in that of one with a tree, and which is seen in
a class with the same name, has the symbol of the tree. -/
theorem procedureSymbol_of_followsOutline {V : TypeVarId → Prop} {m e : MemberId} {c : ClassId}
    {p : ProcedureTree} (hs : s.types.Valid) (ht : t.types.Valid)
    (hext : TypeSystem.Extends s.types t.types) (hm : s.types.HasMember m)
    (hraw : s.types.pool.HasKind (s.types.member m).container (.raw c))
    (hV : ∀ ty ∈ (s.types.member m).kind.formals, ∀ v, s.types.LeadsTo ty v → V v)
    (htree : s.types.HasProcedureTree m p)
    (hkind : (s.types.member m).kind.withoutTypeParams.Related (FollowsOutline V t.types)
      (t.types.member e).kind)
    (hlink : t.types.linkName (t.types.member e).container = .ok (s.types.className c)) :
    t.types.procedureSymbol e = p.symbol := by
  have hnames := (hs.keys hm.hasKey).name
  rw [TypeSystem.procedureSymbol, hlink]
  cases htree with
  | @method d name formals _ _ trees hraw' hk htrees =>
    cases hraw.unique hraw'
    rw [hk] at hkind hnames hV
    generalize (t.types.member e).kind = kind at hkind
    cases hkind with
    | @method _ _ formals' _ _ _ hformals _ =>
      have hcodes := TypeSystem.mapM_argCode_eq ht (trees_of_followsOutline hs hext hV htrees hformals)
      have htext := TypeSystem.text_of_le hext.le (hnames name rfl)
      show (do return Symbol.method _ (t.types.text name) (← formals'.mapM t.types.argCode)) = _
      rw [hcodes, htext]
      rfl
  | @constructor d formals _ trees hraw' hk htrees =>
    cases hraw.unique hraw'
    rw [hk] at hkind hV
    generalize (t.types.member e).kind = kind at hkind
    cases hkind with
    | @constructor _ formals' _ hformals =>
      have hcodes := TypeSystem.mapM_argCode_eq ht (trees_of_followsOutline hs hext hV htrees hformals)
      show (do return Symbol.constructor _ (← formals'.mapM t.types.argCode)) = _
      rw [hcodes]
      rfl

/-- The symbol of the canonical form is that of the tree. -/
theorem symbolOf_eq {m : MemberId} {p : ProcedureTree}
    (hs : Undisturbed (s.types.LedToBy m) s) (hacyclic : s.types.Acyclic)
    (hm : s.types.SeenInClass m) (htree : s.types.HasProcedureTree m p) :
    s.symbolOf m = .ok p.symbol := by
  have hvalid := hs.reachable.valid
  obtain ⟨hst, ht, houtcome⟩ := canonicalizeMember_keeps hvalid hacyclic hm.hasMember
  obtain ⟨c, hraw⟩ := hm.container
  unfold symbolOf
  generalize (canonicalizeMember m).run s = result at hst ht houtcome
  obtain ⟨x, t⟩ := result
  dsimp only at hst ht houtcome
  have hext : TypeSystem.Extends s.types t.types := Extends.types hst
  have hmember := TypeSystem.member_of_le hext.le hm.hasMember
  have hf := hs.faithful.of_coherent hvalid ht (acyclic_of_grows hvalid hst hacyclic) hext
    (Extends.coherent hst (coherent_self hvalid))
  have hraw' : t.types.pool.HasKind (t.types.member m).container (.raw c) :=
    hmember ▸ hraw.of_le hext.le.1
  cases houtcome with
  | unexplained hinst _ _ => cases hraw'.unique hinst
  | @canonical e _ hfind =>
    obtain ⟨hkind, hcontainer⟩ := hf.followsOutlines ht hfind (hmember ▸ hm.generic) hraw'
    have hlink : t.types.linkName (t.types.member e).container = .ok (s.types.className c) := by
      rw [hcontainer, TypeSystem.linkName, show t.types.kind _ = _ from hraw'.kind_eq]
      exact congrArg Except.ok (TypeSystem.className_of_extends hvalid.types hext c)
    have hV : ∀ ty ∈ (s.types.member m).kind.formals, ∀ v, s.types.LeadsTo ty v →
        s.types.LedToBy m v := fun ty hty v hv => ⟨ty, hty, hv⟩
    rw [hmember] at hkind
    exact congrArg Except.ok (procedureSymbol_of_followsOutline hvalid.types ht.types hext
      hm.hasMember hraw hV htree hkind hlink)

/-- The symbol of a procedure is a function of its tree: procedures of one tree, in whatever sessions
they were declared, have one symbol, if no bound of a variable that their formals lead to was set
when a type that leads to the variable was remembered. -/
theorem symbol_independent_of_history {m : MemberId} (hs : Undisturbed (s.types.LedToBy m) s)
    (hacyclic : s.types.Acyclic) (hm : s.types.SeenInClass m)
    (hprocedure : (s.types.member m).kind.isProcedure = true)
    (hplain : ∀ ty ∈ (s.types.member m).kind.formals, s.types.IsPlain ty) :
    ∃ p, s.types.HasProcedureTree m p ∧ s.symbolOf m = .ok p.symbol ∧
      ∀ t n, Undisturbed (t.types.LedToBy n) t → t.types.Acyclic → t.types.SeenInClass n →
        t.types.HasProcedureTree n p → t.symbolOf n = s.symbolOf m := by
  obtain ⟨p, htree⟩ := hm.exists_tree hs.reachable.valid.types hacyclic hprocedure hplain
  have hsymbol := symbolOf_eq hs hacyclic hm htree
  refine ⟨p, htree, hsymbol, fun t n ht hacyclic' hn htree' => ?_⟩
  rw [symbolOf_eq ht hacyclic' hn htree', hsymbol]

/-- The method of the class `Box`, after its first formal was made canonical. -/
theorem symbol_independent_of_history_box :
    let s := boxSession.canonicalized (.type ⟨13⟩)
    ∃ p, s.types.HasProcedureTree ⟨16⟩ p ∧ s.symbolOf ⟨16⟩ = .ok p.symbol ∧
      ∀ t n, Undisturbed (t.types.LedToBy n) t → t.types.Acyclic → t.types.SeenInClass n →
        t.types.HasProcedureTree n p → t.symbolOf n = s.symbolOf ⟨16⟩ := by
  intro s
  have hadmitted : (Canonicalization.type ⟨13⟩).Admitted boxSession := by
    unfold Canonicalization.Admitted
    decide +kernel
  have hs : ∀ V, Undisturbed V s := fun V =>
    .canonicalize _ (boxSession_undisturbed V) boxSession_acyclic hadmitted
  have hacyclic : s.types.Acyclic :=
    TypeSystem.acyclic_of_isEnd (by decide +kernel)
  have hm : ⟨16⟩ ∈ (s.types.classDef ⟨2⟩).members := by decide +kernel
  obtain ⟨hformals, hprocedure, hvar, hvar', hsize, hend, hend'⟩ :
      (s.types.member ⟨16⟩).kind.formals = [⟨13⟩, ⟨14⟩] ∧
        (s.types.member ⟨16⟩).kind.isProcedure = true ∧
        s.types.pool.HasKind ⟨13⟩ (.var ⟨0⟩) ∧ s.types.pool.HasKind ⟨14⟩ (.var ⟨1⟩) ∧
        s.types.typeVars.size = 2 ∧
        TypeSystem.IsEnd (s.types.kind (s.types.typeVar ⟨0⟩).bound) = true ∧
        TypeSystem.IsEnd (s.types.kind (s.types.typeVar ⟨1⟩).bound) = true := by decide +kernel
  refine symbol_independent_of_history (hs _) hacyclic
    (.of_declared (hs fun _ => True).reachable.valid.types hm) hprocedure ?_
  rw [hformals]
  refine List.forall_mem_cons.mpr ⟨?_, List.forall_mem_singleton.mpr ?_⟩
  · exact .of_var hvar (hsize ▸ Nat.zero_lt_two) (.of_isEnd hend)
  · exact .of_var hvar' (hsize ▸ Nat.one_lt_two) (.of_isEnd hend')

/-! ### A bound set too late -/

/-- A session that declares a class `Box<T>`, makes `T` canonical, gives `T` another bound, and
declares a method with a formal of type `T`. -/
def staleSession : Canonicalizer :=
  let s := (fresh .initial).declared (.declareClass "Box" {})
  let s := (s.declared (.addTypeParam ⟨2⟩ "T" none)).asked (.typeVar ⟨0⟩)
  let s := (s.canonicalized (.type ⟨13⟩)).declared (.setBound ⟨0⟩ .string)
  (s.asked (.intern "m")).declared
    (.declareMember ⟨2⟩ (.method ⟨11⟩ [⟨13⟩] Primitive.void.typeId []) {})

theorem staleSession_reachable : Reachable staleSession := by
  refine .declare _ (.ask _ (.declare _ (.canonicalize _ (.ask _ (.declare _ (.declare _ .initial
    ?_) ?_) ?_) ?_ ?_) ?_) ?_) ?_
  · trivial
  · nofun
  · trivial
  · exact TypeSystem.acyclic_of_isEnd (by decide +kernel)
  · unfold Canonicalization.Admitted
    decide +kernel
  · unfold TypeSystem.Declaration.Admitted
    decide +kernel
  · trivial
  · unfold TypeSystem.Declaration.Admitted
    decide +kernel

/-- The class declares the method, and `T` has its new bound. -/
theorem staleSession_declares :
    (staleSession.types.classDef ⟨2⟩).members = [⟨15⟩] ∧
      (staleSession.types.member ⟨15⟩).kind =
        .method ⟨11⟩ [⟨13⟩] Primitive.void.typeId [] ∧
      staleSession.types.pool.HasKind (staleSession.types.member ⟨15⟩).container (.raw ⟨2⟩) ∧
      staleSession.types.className ⟨2⟩ = "Box" ∧ staleSession.types.text ⟨11⟩ = "m" ∧
      staleSession.types.pool.HasKind ⟨13⟩ (.var ⟨0⟩) ∧ 0 < staleSession.types.typeVars.size ∧
      (staleSession.types.typeVar ⟨0⟩).bound = .string ∧
      staleSession.types.pool.HasKind .string (.raw .string) ∧
      staleSession.types.className .string = "core.String" := by decide +kernel

theorem staleSession_acyclic : staleSession.types.Acyclic :=
  TypeSystem.acyclic_of_isEnd (by decide +kernel)

/-- With one and the same type system, a canonicalizer that remembers the type variable by its old
bound gives the method another symbol than one that remembers nothing. -/
theorem symbol_dependent_on_history :
    Reachable staleSession ∧ Reachable (fresh staleSession.types) ∧
      staleSession.types.Acyclic ∧ ⟨15⟩ ∈ (staleSession.types.classDef ⟨2⟩).members ∧
      (∀ ty ∈ (staleSession.types.member ⟨15⟩).kind.formals, staleSession.types.IsPlain ty) ∧
      staleSession.types.HasProcedureTree ⟨15⟩ ⟨"Box", some "m", [.named "core.String"]⟩ ∧
      staleSession.symbolOf ⟨15⟩ =
        .ok (.ok (.method "Box" "m" [.reference "core.Object"])) ∧
      (fresh staleSession.types).symbolOf ⟨15⟩ =
        .ok (.ok (.method "Box" "m" [.reference "core.String"])) := by
  obtain ⟨hmembers, hkind, hraw, hboxName, hmethodName, hvar, hdeclared, hbound, hstring,
    hstringName⟩ := staleSession_declares
  refine ⟨staleSession_reachable, .forget staleSession_reachable, staleSession_acyclic,
    hmembers ▸ List.mem_singleton_self _, ?_, ?_, by decide +kernel, by decide +kernel⟩
  · rw [hkind]
    refine List.forall_mem_singleton.mpr (.of_var hvar hdeclared (.of_isEnd ?_))
    rw [hbound, show staleSession.types.kind _ = _ from hstring.kind_eq]
    rfl
  · have houtline : staleSession.types.HasOutline (fun _ => True) ⟨13⟩ (.raw .string) :=
      .var hvar trivial hdeclared (hbound ▸ .raw hstring)
    have h := TypeSystem.HasProcedureTree.method hraw hkind
      (.cons ⟨_, houtline, congrArg TypeTree.named hstringName⟩ .nil)
    rwa [hboxName, hmethodName] at h

end Canonicalizer

end Erasure
