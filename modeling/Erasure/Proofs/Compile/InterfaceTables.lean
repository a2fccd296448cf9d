/-
Interface tables.

A class keeps a table for every interface that it is below, and an interface keeps one for itself. The
tables that a class keeps follow from the closure of its supertypes, what needs them at run time from
subtyping. The main statements:

* `unitSymbols_keeps`: the interface tables among the symbols that a unit defines are those of its
  classes.
* `InService.inOrder`: whatever was compiled and declared before, a compilation is in order.
* `interfaceTables_exact`: a unit defines the table of a class for an interface if and only if the
  raw class is a subtype of the raw interface.
-/
import Erasure.Proofs.Canonical.Extension
import Erasure.Proofs.Canonical.Subtyping
import Erasure.Proofs.Compile.Order
import Erasure.Proofs.Symbol.Existence
import Erasure.Proofs.Symbol.InterfaceTable

namespace Erasure

variable {ts us : TypeSystem}

/-! ### Symbols of interface tables -/

namespace TypeSystem

/-- The interfaces that a class keeps tables for: an interface keeps one for itself. -/
def tableInterfaces (ts : TypeSystem) (c : ClassId) : List ClassId :=
  if ts.isInterface c then [c] else ClassPlan.interfacesAbove ts c

/-- The text is the symbol of a table that the class keeps. -/
def IsTableOf (ts : TypeSystem) (c : ClassId) (text : String) : Prop :=
  ∃ d ∈ ts.tableInterfaces c,
    text = (Symbol.interfaceTable (ts.className d) (ts.className c)).encode

theorem mem_interfacesAbove_iff {c d : ClassId} : d ∈ ClassPlan.interfacesAbove ts c ↔
    d ∈ ts.classClosure c ∧ d ≠ c ∧ ts.isInterface d = true := by
  simp [ClassPlan.interfacesAbove]

/-- A class that is no interface keeps tables for the interfaces in its closure. -/
theorem mem_tableInterfaces_iff {c d : ClassId} : d ∈ ts.tableInterfaces c ↔
    ts.isInterface d = true ∧
      (ts.isInterface c = true ∧ d = c ∨ ts.isInterface c = false ∧ d ∈ ts.classClosure c) := by
  unfold tableInterfaces
  cases hc : ts.isInterface c with
  | true =>
    rw [if_pos rfl, List.mem_singleton]
    constructor
    · rintro rfl
      exact ⟨hc, .inl ⟨rfl, rfl⟩⟩
    · rintro ⟨-, ⟨-, rfl⟩ | ⟨hfalse, -⟩⟩
      · rfl
      · cases hfalse
  | false =>
    have hne : ts.isInterface d = true → d ≠ c := by
      rintro hd rfl
      rw [hc] at hd
      cases hd
    rw [if_neg Bool.false_ne_true, mem_interfacesAbove_iff]
    constructor
    · rintro ⟨hbelow, -, hd⟩
      exact ⟨hd, .inr ⟨rfl, hbelow⟩⟩
    · rintro ⟨hd, ⟨htrue, -⟩ | ⟨-, hbelow⟩⟩
      · cases htrue
      · exact ⟨hbelow, hne hd, hd⟩

theorem lt_size_of_isInterface {c : ClassId} (h : ts.isInterface c = true) :
    c.index < ts.classes.size := by
  by_contra hlt
  rw [isInterface, classDef_of_not_lt hlt] at h
  cases h

/-- A class keeps the same tables while nothing is declared. -/
theorem Extends.isTableOf_iff (hts : ts.Valid) (h : Extends ts us) {c : ClassId} {text : String} :
    us.IsTableOf c text ↔ ts.IsTableOf c text := by
  have hinterfaces : us.tableInterfaces c = ts.tableInterfaces c := by
    rw [tableInterfaces, tableInterfaces, h.isInterface_eq, h.interfacesAbove_eq hts]
  simp only [IsTableOf, hinterfaces, h.className_eq hts]

/-- Procedures have other symbols. -/
theorem not_isInterfaceTable_of_procedureSymbol {m : MemberId} {symbol : Symbol}
    (h : ts.procedureSymbol m = .ok symbol) : ¬ Symbol.IsInterfaceTable symbol.encode := by
  intro htable
  obtain ⟨interface, className, rfl⟩ := Symbol.exists_of_isInterfaceTable htable
  obtain ⟨container, -, h⟩ := Except.bind_eq_ok.mp h
  cases hk : (ts.member m).kind with
  | method _ formals _ _ | constructor formals _ =>
    rw [hk] at h
    obtain ⟨_, -, h⟩ := Except.bind_eq_ok.mp h
    cases h
  | field _ _ | initializer =>
    rw [hk] at h
    cases h

/-- So have static fields. -/
theorem not_isInterfaceTable_of_staticFieldSymbol {m : MemberId} {symbol : Symbol}
    (h : ts.staticFieldSymbol m = .ok symbol) : ¬ Symbol.IsInterfaceTable symbol.encode := by
  intro htable
  obtain ⟨interface, className, rfl⟩ := Symbol.exists_of_isInterfaceTable htable
  unfold staticFieldSymbol at h
  split at h
  · obtain ⟨_, -, h⟩ := Except.bind_eq_ok.mp h
    cases h
  · cases h

end TypeSystem

/-- Of the symbols of a layout, the table of an interface is the symbol of an interface table. -/
theorem ClassLayout.mem_ofClass_iff (name : String) (isInterface : Bool) {text : String}
    (htext : Symbol.IsInterfaceTable text) :
    let layout := ofClass name isInterface
    text ∈ [layout.size, layout.table, layout.classInit, layout.interfacesInit]
        ++ layout.descriptor.toList ↔
      isInterface = true ∧ text = (Symbol.interfaceTable name name).encode := by
  have hother : ∀ {symbol : Symbol}, (∀ i a, symbol ≠ .interfaceTable i a) → text ≠ symbol.encode := by
    rintro symbol hsymbol rfl
    obtain ⟨i, a, heq⟩ := Symbol.exists_of_isInterfaceTable htext
    exact hsymbol i a heq
  cases isInterface <;> simp [ofClass, hother]

namespace Compiler

variable {s : Compilation}

/-! ### Symbols of classes -/

theorem mapM_mangled_keeps (hs : InOrder s) {symbol : TypeSystem → MemberId → Except MangleError Symbol}
    (hsymbol : ∀ {ts m y}, symbol ts m = .ok y → ¬ Symbol.IsInterfaceTable y.encode)
    (ms : List MemberId) :
    Keeps (ms.mapM fun m => mangled (symbol · m)).run s (IfOk fun texts _ =>
      ∀ text ∈ texts, ¬ Symbol.IsInterfaceTable text) := by
  apply Keeps.ifOk_mono (Keeps.ifOk_mapM (R := fun _ text _ => ¬ Symbol.IsInterfaceTable text)
    (fun _ _ _ _ _ _ => id) hs _)
  · intro texts t _ _ htexts text htext
    obtain ⟨_, -, hother⟩ := exists_of_forall₂_right htexts htext
    exact hother
  · intro m _ t _ ht
    apply (mangled_keeps ht (symbol · m)).ifOk_mono
    rintro _ _ - - ⟨-, y, hy, rfl⟩
    exact hsymbol hy

theorem layout_keeps (hs : InOrder s) {ty : TypeId} (hty : s.types.pool.IsNormal ty) :
    Keeps (cached fun ts => LayoutCache.layout ts ty).run s (IfOk fun layout _ =>
      (LayoutCache.keyOf s.types ty).map (LayoutCache.layoutFor s.types) = .ok layout) :=
  (cached_keeps hs fun _ hcache => LayoutCache.layout_eq hcache hty).ifOk_mono
    fun _ _ _ _ h => h.2

theorem interfaceTable_keeps (hs : InOrder s) {iface ty : TypeId} {c d : ClassId}
    (hiface : s.types.pool.HasKind iface (.raw d)) (hinterface : s.types.isInterface d = true)
    (hty : s.types.pool.HasKind ty (.raw c)) :
    Keeps (cached fun ts => LayoutCache.interfaceTable ts iface ty).run s (IfOk fun text _ =>
      text = (Symbol.interfaceTable (s.types.className d) (s.types.className c)).encode) := by
  apply (cached_keeps hs fun _ hcache =>
    LayoutCache.interfaceTable_eq hcache hiface.has hty.has).ifOk_mono
  rintro text t - - ⟨-, htext⟩
  rw [TypeSystem.interfaceTableSymbol_raw hiface hinterface hty] at htext
  exact (Except.ok.inj htext).symm

/-- The tables that are asked for are those for the interfaces above the class. -/
theorem mapM_interfaceTable_keeps (hs : InOrder s) {plan : ClassPlan} {c : ClassId}
    (hplan : plan.ListsInterfaces s.types c) :
    Keeps (plan.interfaces.mapM fun iface =>
      cached fun ts => LayoutCache.interfaceTable ts iface plan.type).run s (IfOk fun tables _ =>
        ∀ text, text ∈ tables ↔ ∃ d ∈ ClassPlan.interfacesAbove s.types c,
          text = (Symbol.interfaceTable (s.types.className d) (s.types.className c)).encode) := by
  apply Keeps.ifOk_mono (Keeps.ifOk_mapM
    (R := fun iface text _ => ∀ d, s.types.pool.HasKind iface (.raw d) →
      text = (Symbol.interfaceTable (s.types.className d) (s.types.className c)).encode)
    (fun _ _ _ _ _ _ => id) hs _)
  · intro tables t _ _ htables text
    constructor
    · intro htext
      obtain ⟨iface, hiface, htable⟩ := exists_of_forall₂_right htables htext
      obtain ⟨d, hd, hk⟩ := exists_of_forall₂_right hplan.interfaces hiface
      exact ⟨d, hd, htable d hk⟩
    · rintro ⟨d, hd, rfl⟩
      obtain ⟨iface, hiface, hk⟩ := exists_of_forall₂_left hplan.interfaces hd
      obtain ⟨text, htext, htable⟩ := exists_of_forall₂_left htables hiface
      exact htable d hk ▸ htext
  · intro iface hiface t hst ht
    obtain ⟨d, hd, hk⟩ := exists_of_forall₂_right hplan.interfaces hiface
    have hinterface := (TypeSystem.mem_interfacesAbove_iff.mp hd).2.2
    rw [← hst.isInterface_eq] at hinterface
    apply (interfaceTable_keeps ht (hk.of_le hst.le.1) hinterface
      (hplan.type.of_le hst.le.1)).ifOk_mono
    rintro _ _ - - rfl d' hk'
    obtain rfl : d' = d := TypeKind.raw.inj (hk'.unique hk)
    rw [hst.className_eq hs.valid, hst.className_eq hs.valid]

/-- A class keeps the tables that are asked for; for an interface none are. -/
theorem tableSymbols_keeps (hs : InOrder s) {plan : ClassPlan} {c : ClassId}
    (hplan : plan.ListsInterfaces s.types c) :
    Keeps (tableSymbols plan).run s (IfOk fun tables _ => ∀ text,
      text ∈ tables ↔ s.types.isInterface c = false ∧ s.types.IsTableOf c text) := by
  unfold tableSymbols
  rw [hplan.isInterface]
  split
  case isTrue hinterface =>
    apply (Keeps.ifOk_pure (P := fun tables _ => tables = []) hs rfl).ifOk_mono
    rintro _ _ - - rfl
    simp [hinterface]
  case isFalse hclass =>
    apply (mapM_interfaceTable_keeps hs hplan).ifOk_mono
    intro tables _ _ _ htables text
    rw [htables]
    simp [hclass, TypeSystem.IsTableOf, TypeSystem.tableInterfaces]

/-- Of interface tables, the layout brings that of an interface, and the members bring none. -/
theorem memberSymbols_keeps (hs : InOrder s) {c : ClassId} {tables : List String}
    (htables : ∀ text,
      text ∈ tables ↔ s.types.isInterface c = false ∧ s.types.IsTableOf c text)
    (symbols : UnitSymbols) (plan : ClassPlan) :
    Keeps (memberSymbols symbols plan
      (.ofClass (s.types.className c) (s.types.isInterface c)) tables).run s
      (IfOk fun new t => ∀ text, Symbol.IsInterfaceTable text →
        (text ∈ new.defined ↔ text ∈ symbols.defined ∨ t.types.IsTableOf c text)) := by
  unfold memberSymbols
  apply (mapM_mangled_keeps hs TypeSystem.not_isInterfaceTable_of_procedureSymbol _).ifOk_bind
  intro procedures t₁ h₁ ht₁ hprocedures
  apply (mapM_mangled_keeps ht₁ TypeSystem.not_isInterfaceTable_of_staticFieldSymbol _).ifOk_bind
  intro staticFields t₂ h₂ ht₂ hstaticFields
  refine .ifOk_pure ht₂ fun text htext => ?_
  have hprocedure : text ∉ procedures := fun h => hprocedures text h htext
  have hstaticField : text ∉ staticFields := fun h => hstaticFields text h htext
  have hlayout := ClassLayout.mem_ofClass_iff (s.types.className c) (s.types.isInterface c) htext
  dsimp only at hlayout
  rw [(h₁.trans h₂).isTableOf_iff hs.valid, SymbolSet.mem_addAll, List.mem_append,
    List.mem_append, List.mem_append, hlayout, htables, or_iff_left hstaticField,
    or_iff_left hprocedure, or_comm]
  apply or_congr_right
  unfold TypeSystem.IsTableOf TypeSystem.tableInterfaces
  cases s.types.isInterface c <;> simp

/-- The interface tables that a class adds to what is defined are those that it keeps. -/
theorem classSymbols_keeps (hs : InOrder s) {plan : ClassPlan} {c : ClassId}
    (hplan : plan.ListsInterfaces s.types c) (symbols : UnitSymbols) :
    Keeps (classSymbols symbols plan).run s (IfOk fun new t => ∀ text,
      Symbol.IsInterfaceTable text →
        (text ∈ new.defined ↔ text ∈ symbols.defined ∨ t.types.IsTableOf c text)) := by
  rw [classSymbols_eq]
  apply (layout_keeps hs ⟨_, .raw hplan.type⟩).ifOk_bind
  intro layout t₁ h₁ ht₁ hlayout
  have hkey : LayoutCache.keyOf s.types plan.type = .ok (.classDef c) := by
    rw [LayoutCache.keyOf, TypeSystem.classOf?, show s.types.kind plan.type = _ from
      hplan.type.kind_eq]
    rfl
  rw [hkey] at hlayout
  obtain rfl : LayoutCache.layoutFor s.types (.classDef c) = layout := Except.ok.inj hlayout
  apply (tableSymbols_keeps ht₁ (hplan.of_extends hs.valid h₁)).ifOk_bind
  intro tables t₂ h₂ ht₂ htables
  have hnames : LayoutCache.layoutFor s.types (.classDef c)
      = .ofClass (t₂.types.className c) (t₂.types.isInterface c) := by
    rw [(h₁.trans h₂).className_eq hs.valid, (h₁.trans h₂).isInterface_eq]
    rfl
  rw [hnames]
  apply memberSymbols_keeps ht₂
  intro text
  rw [htables, h₂.isInterface_eq, h₂.isTableOf_iff ht₁.valid]

/-! ### Symbols of units -/

/-- The interface tables that all classes add are those that they keep. -/
theorem foldlM_classSymbols_keeps (hs : InOrder s) {classes : List ClassDecl}
    {plans : List ClassPlan} (hplans : List.Forall₂
      (fun d (plan : ClassPlan) => plan.ListsInterfaces s.types d.classId) classes plans)
    (symbols : UnitSymbols) :
    Keeps (plans.foldlM classSymbols symbols).run s (IfOk fun new t => ∀ text,
      Symbol.IsInterfaceTable text → (text ∈ new.defined ↔
        text ∈ symbols.defined ∨ ∃ d ∈ classes, t.types.IsTableOf d.classId text)) := by
  induction plans generalizing classes symbols s with
  | nil =>
    cases hplans
    exact .ifOk_pure hs (by simp)
  | cons plan plans ih =>
    cases hplans with
    | @cons d _ classes _ hplan hplans =>
      rw [List.foldlM_cons]
      apply (classSymbols_keeps hs hplan symbols).ifOk_bind
      intro next t hst ht hnext
      have hplans' := hplans.imp fun _ _ h => ClassPlan.ListsInterfaces.of_extends hs.valid hst h
      apply (ih ht hplans' next).ifOk_mono
      intro new u htu _ hnew text htext
      rw [hnew text htext, hnext text htext, List.exists_mem_cons_iff,
        TypeSystem.Extends.isTableOf_iff (InOrder.valid ht) htu, or_assoc]

theorem allocationSymbols_keeps (hs : InOrder s) {ty : TypeId} (hty : s.types.pool.IsNormal ty) :
    Keeps (allocationSymbols ty).run s (IfOk fun _ _ => True) := by
  apply (layout_keeps hs hty).ifOk_bind
  intro layout t _ ht _
  exact .ifOk_pure ht trivial

/-- The interface tables among the symbols that are made are those of the classes. -/
theorem symbolsOf_keeps (hs : InOrder s) {g : Gathered} {classes : List ClassDecl}
    (hg : g.IsNormal s.types classes) :
    Keeps (symbolsOf g).run s (IfOk fun symbols t => ∀ text, Symbol.IsInterfaceTable text →
      (text ∈ symbols.defined ↔ ∃ d ∈ classes, t.types.IsTableOf d.classId text)) := by
  unfold symbolsOf
  apply (foldlM_classSymbols_keeps hs hg.plans {}).ifOk_bind
  intro symbols t₁ h₁ ht₁ hsymbols
  apply (mapM_mangled_keeps ht₁ TypeSystem.not_isInterfaceTable_of_procedureSymbol _).ifOk_bind
  intro called t₂ h₂ ht₂ _
  apply (mapM_mangled_keeps ht₂ TypeSystem.not_isInterfaceTable_of_staticFieldSymbol _).ifOk_bind
  intro accessed t₃ h₃ ht₃ _
  have hst₃ := (h₁.trans h₂).trans h₃
  apply (Keeps.ifOk_mapM (R := fun _ _ _ => True) (fun _ _ _ _ _ _ => id) ht₃ fun ty hty t ht₃t ht =>
    allocationSymbols_keeps ht ((hg.allocations ty hty).of_le (hst₃.trans ht₃t).le.1)).ifOk_bind
  intro allocated t h₄ ht _
  refine .ifOk_pure ht fun text htext => ?_
  have hlater : TypeSystem.Extends t₁.types t.types := (h₂.trans h₃).trans h₄
  rw [hsymbols text htext, or_iff_right List.not_mem_nil]
  simp only [hlater.isTableOf_iff (InOrder.valid ht₁)]

/-- A unit that is compiled defines the interface tables of its classes and no others. -/
theorem unitSymbols_keeps (hs : InOrder s) (hstring : s.types.pool.Has .string)
    (hu : s.compiled.IsKnown s.types) :
    Keeps unitSymbols.run s (IfOk fun symbols t => ∀ text, Symbol.IsInterfaceTable text →
      (text ∈ symbols.defined ↔
        ∃ d ∈ s.compiled.classes, t.types.IsTableOf d.classId text)) := by
  rw [unitSymbols_eq]
  apply (gathered_keeps hs hstring hu).ifOk_bind
  intro g t _ ht hg
  exact symbolsOf_keeps ht hg

end Compiler

/-! ### Declarations -/

namespace TypeSystem

/-- The class has its name still, and is an interface if it was one. -/
def KeepsName (ts us : TypeSystem) (c : ClassId) : Prop :=
  (us.classDef c).name = (ts.classDef c).name ∧ us.isInterface c = ts.isInterface c

theorem KeepsName.of_classDef_eq {c : ClassId} (h : us.classDef c = ts.classDef c) :
    ts.KeepsName us c := by
  rw [KeepsName, isInterface, isInterface, h]
  exact ⟨rfl, rfl⟩

theorem KeepsName.of_modify {e : ClassId} {f : ClassDef → ClassDef}
    (h : us.classes = ts.classes.modify e.index f)
    (hf : ∀ d, (f d).name = d.name ∧ (f d).flags.isInterface = d.flags.isInterface) (c : ClassId) :
    ts.KeepsName us c := by
  have hdef : us.classDef c = (ts.classes.modify e.index f).getD c.index default := by
    rw [classDef, h]
  rcases getD_modify_cases ts.classes f default e.index c.index with hsame | ⟨-, hnew⟩
  · exact .of_classDef_eq (hdef.trans hsame)
  · rw [KeepsName, isInterface, hdef, hnew]
    exact hf (ts.classDef c)

/-- No declaration renames a class that is declared. -/
theorem Declaration.run_keepsName (d : Declaration) {c : ClassId} (hc : c.index < ts.classes.size) :
    ts.KeepsName (d.run ts).2 c := by
  have hmodify : ∀ e f us, us.classes = ts.classes →
      (∀ d : ClassDef, (f d).name = d.name ∧ (f d).flags.isInterface = d.flags.isInterface) →
      ts.KeepsName (modifyClass e f us).2 c := by
    intro e f us hclasses hf
    exact .of_modify (congrArg (·.modify e.index f) hclasses) hf c
  cases d with
  | declareClass name flags => exact .of_classDef_eq (getD_push_of_lt _ _ hc)
  | setSuperclass e _ | addInterface e _ | setOuter e _ =>
    refine hmodify e _ ts rfl ?_
    exact fun _ => ⟨rfl, rfl⟩
  | addTypeParam e name bound =>
    refine hmodify e _ _ (classes_declareTypeVar name bound (.classDef e) ts) ?_
    exact fun _ => ⟨rfl, rfl⟩
  | addMethodTypeParam _ _ | setBound _ _ => exact .of_classDef_eq rfl
  | declareMember e kind flags =>
    rcases classes_declareMember e kind flags ts with hsame | ⟨m, -, hclasses⟩
    · exact .of_classDef_eq (congrArg (·.getD c.index default) hsame)
    · exact .of_modify hclasses (fun _ => ⟨rfl, rfl⟩) c

/-- Where the classes that types mention are declared, a declaration keeps names. -/
theorem Declaration.run_keepsNames (hts : ts.Valid) {d : Declaration} (hd : d.Admitted ts)
    (hclasses : ∀ {c}, ts.Mentions c → c.index < ts.classes.size) : ts.KeepsNames (d.run ts).2 where
  le := (d.run_advances hts hd).le
  className {c} hc := by
    rw [className, (d.run_keepsName (hclasses hc)).1, className]
    exact text_of_le (d.run_advances hts hd).le (hts.classes c).name
  isInterface hc := (d.run_keepsName (hclasses hc)).2

end TypeSystem

namespace Compiler

/-! ### Compilers in service -/

/-- The states of a compiler and the type system that it works on. Units are compiled in any order,
with or without success, and between them anything may be declared, as long as no class is renamed. -/
inductive InService : Compiler → TypeSystem → Prop
  | start {o : Options} {ts : TypeSystem} : ts.Valid → ts.pool.Has .string → InService (fresh o) ts
  | compile {c : Compiler} {ts : TypeSystem} {u : CompilationUnit} : InService c ts → u.IsKnown ts →
      InService (c.compile ts u).2.compiler (c.compile ts u).2.types
  | extend {c : Compiler} {ts us : TypeSystem} : InService c ts → ts.KeepsNames us → us.Valid →
      InService c us

variable {c : Compiler} {u : CompilationUnit}

/-- Whatever was compiled and declared before, a compilation starts in order. -/
theorem InService.inOrder (h : InService c ts) :
    InOrder ⟨c, ts, u⟩ ∧ ts.pool.Has .string := by
  induction h generalizing u with
  | start hts hstring =>
    exact ⟨⟨Canonicalizer.fresh_sound hts, LayoutCache.right_empty _⟩, hstring⟩
  | @compile c ts v _ hv ih =>
    obtain ⟨hs, hstring⟩ := ih (u := v)
    obtain ⟨hext, ⟨hsound, hlayouts⟩, -⟩ := unitSymbols_keeps hs hstring hv
    exact ⟨⟨hsound, hlayouts⟩, hstring.of_le (TypeSystem.Extends.le hext).1⟩
  | extend _ hnames hus ih =>
    obtain ⟨⟨hsound, hlayouts⟩, hstring⟩ := ih (u := u)
    exact ⟨⟨hsound.of_le hnames.le hus, hlayouts.of_keepsNames hnames⟩, hstring.of_le hnames.le.1⟩

theorem InService.valid (h : InService c ts) : ts.Valid := (h.inOrder (u := {})).1.valid

/-- Declarations keep a compiler in service where the classes that types mention are declared. -/
theorem InService.declare (h : InService c ts) {d : TypeSystem.Declaration} (hd : d.Admitted ts)
    (hclasses : ∀ {c}, ts.Mentions c → c.index < ts.classes.size) :
    InService c (d.run ts).2 :=
  .extend h (d.run_keepsNames h.valid hd hclasses) (d.run_advances h.valid hd).valid

/-- So do queries. -/
theorem InService.ask (h : InService c ts) {q : TypeSystem.Query} (hq : q.Admitted ts) :
    InService c (q.run ts).2 := by
  have hrun := q.run_keeps h.valid hq
  exact .extend h (TypeSystem.Extends.keepsNames h.valid hrun.grows) hrun.valid

/-- Compiling declares nothing, and a unit that is compiled defines the interface tables of its classes
and no others. -/
theorem InService.compile_tables (h : InService c ts) (hu : u.IsKnown ts) :
    let us := (c.compile ts u).2.types
    TypeSystem.Extends ts us ∧ us.Valid ∧ ∀ symbols, (c.compile ts u).1 = .ok symbols →
      ∀ text, Symbol.IsInterfaceTable text →
        (text ∈ symbols.defined ↔ ∃ d ∈ u.classes, us.IsTableOf d.classId text) := by
  obtain ⟨hs, hstring⟩ := h.inOrder (u := u)
  obtain ⟨hext, horder, hpost⟩ := unitSymbols_keeps hs hstring hu
  exact ⟨hext, horder.valid, hpost⟩

end Compiler

/-! ### Subtypes and names -/

namespace TypeSystem

/-- Asks for the symbol of the table that a class keeps for an interface, and whether the raw class is
a subtype of the raw interface. -/
def askTable (iface c : ClassId) : StateM TypeSystem (Except MangleError Symbol × Bool) := do
  let interface ← liftM (Pool.rawClass iface)
  let ty ← liftM (Pool.rawClass c)
  let ts ← get
  return (ts.interfaceTableSymbol interface ty, ts.isSubtype ty interface)

/-- A raw class is a subtype of those in its closure. -/
theorem isSubtype_raw_iff {t u : TypeId} {b c : ClassId} (ht : ts.pool.HasKind t (.raw b))
    (hu : ts.pool.HasKind u (.raw c)) : ts.isSubtype t u = true ↔ c ∈ ts.classClosure b := by
  have htk : ts.kind t = .raw b := ht.kind_eq
  have huk : ts.kind u = .raw c := hu.kind_eq
  have hclosure : ts.erasedClosure t = ts.classClosure b := by
    rw [erasedClosure_of_ne_var (by simp [htk]), classOf?, htk]
    rfl
  have hself : t = u → c ∈ ts.classClosure b := by
    rintro rfl
    obtain rfl := TypeKind.raw.inj (hu.unique ht)
    exact mem_classClosure_iff.mpr .refl
  unfold isSubtype subtypingDepth
  rw [Nat.mul_add_one, Nat.add_comm, Nat.add_right_comm, isSubtypeWithin_succ, subtypeStep, htk, huk,
    hclosure]
  simpa using hself

/-- What is asked about a table is answered by the names and by the closure of the class. -/
theorem askTable_eq (hts : ts.Valid) {iface : ClassId} (hinterface : ts.isInterface iface = true)
    (c : ClassId) : (askTable iface c ts).1 =
      (.ok (.interfaceTable (ts.className iface) (ts.className c)),
        decide (iface ∈ ts.classClosure c)) := by
  have hiface := lift_computes hts (Pool.rawClass_computes hts.pool iface)
  have hclass := lift_computes hiface.valid (Pool.rawClass_computes hiface.valid.pool c)
  have hext : Extends ts _ := hiface.grows.trans hclass.grows
  have hk := hiface.post.of_le (Store.Grows.le hclass.grows).1
  rw [← hext.isInterface_eq] at hinterface
  unfold askTable
  rw [bind_apply, bind_apply, get_bind_apply, pure_apply]
  refine Prod.ext ?_ (Bool.eq_iff_iff.mpr ?_)
  · dsimp only
    rw [interfaceTableSymbol_raw hk hinterface hclass.post, hext.className_eq hts,
      hext.className_eq hts]
  · dsimp only
    rw [isSubtype_raw_iff hclass.post hk, hext.classClosure_eq hts, decide_eq_true_iff]

/-- The declared classes have different names, which can be told from numbers before them. -/
structure HasDistinctNames (ts : TypeSystem) : Prop where
  separable : ∀ i < ts.classes.size, Symbol.IsSeparable (ts.className ⟨i⟩)
  inj : ∀ i < ts.classes.size, ∀ j < ts.classes.size,
    ts.className ⟨i⟩ = ts.className ⟨j⟩ → i = j

theorem HasDistinctNames.of_extends (hts : ts.Valid) (hext : Extends ts us)
    (h : ts.HasDistinctNames) : us.HasDistinctNames := by
  constructor
  all_goals simp only [hext.className_eq hts, hext.classes_eq]
  · exact h.separable
  · exact h.inj

/-- Tables of different classes or for different interfaces have different symbols. -/
theorem HasDistinctNames.encode_inj (h : ts.HasDistinctNames) {i j a b : ClassId}
    (hi : i.index < ts.classes.size) (hj : j.index < ts.classes.size)
    (ha : a.index < ts.classes.size) (hb : b.index < ts.classes.size)
    (heq : (Symbol.interfaceTable (ts.className i) (ts.className a)).encode =
      (Symbol.interfaceTable (ts.className j) (ts.className b)).encode) : i = j ∧ a = b := by
  obtain ⟨hinterface, hclass⟩ := Symbol.encode_interfaceTable_inj (h.separable i.index hi)
    (h.separable j.index hj) (h.separable a.index ha) (h.separable b.index hb) heq
  exact ⟨congrArg ClassId.mk (h.inj i.index hi j.index hj hinterface),
    congrArg ClassId.mk (h.inj a.index ha b.index hb hclass)⟩

/-- A declared class that is no interface keeps a table for the interfaces in its closure, and no other
class keeps that table. -/
theorem HasDistinctNames.isTableOf_iff (h : ts.HasDistinctNames) {i a b : ClassId}
    (hi : ts.isInterface i = true) (ha : a.index < ts.classes.size)
    (hclass : ts.isInterface a = false) (hb : b.index < ts.classes.size) :
    ts.IsTableOf b (Symbol.interfaceTable (ts.className i) (ts.className a)).encode ↔
      b = a ∧ i ∈ ts.classClosure a := by
  constructor
  · rintro ⟨j, hj, heq⟩
    obtain ⟨hinterface, hkeeps⟩ := mem_tableInterfaces_iff.mp hj
    obtain ⟨rfl, rfl⟩ := h.encode_inj (lt_size_of_isInterface hi)
      (lt_size_of_isInterface hinterface) ha hb heq
    rcases hkeeps with ⟨htrue, -⟩ | ⟨-, hbelow⟩
    · rw [hclass] at htrue
      cases htrue
    · exact ⟨rfl, hbelow⟩
  · rintro ⟨rfl, hbelow⟩
    exact ⟨i, mem_tableInterfaces_iff.mpr ⟨hi, .inr ⟨hclass, hbelow⟩⟩, rfl⟩

end TypeSystem

namespace Compiler

open TypeSystem (askTable askTable_eq mem_tableInterfaces_iff)

variable {c : Compiler} {u : CompilationUnit}

/-- A unit is compiled by a compiler in service, and the declared classes have names of their own. For
every class of the unit and every interface, the table of the class for the interface is defined if and
only if the raw class is a subtype of the raw interface. No other interface tables are defined, but for
those that interfaces of the unit keep for themselves. -/
theorem interfaceTables_exact {symbols : UnitSymbols} (hc : InService c ts) (hu : u.IsKnown ts)
    (hdeclared : ∀ d ∈ u.classes, d.classId.index < ts.classes.size) (hnames : ts.HasDistinctNames)
    (hcompiled : (c.compile ts u).1 = .ok symbols) :
    let us := (c.compile ts u).2.types
    (∀ d ∈ u.classes, us.isInterface d.classId = false → ∀ i, us.isInterface i = true →
      ∃ symbol below, (askTable i d.classId us).1 = (.ok symbol, below) ∧
        (symbol.encode ∈ symbols.defined ↔ below = true)) ∧
    ∀ text ∈ symbols.defined, Symbol.IsInterfaceTable text → ∃ d ∈ u.classes, ∃ i symbol,
      us.isInterface i = true ∧ text = symbol.encode ∧
        (us.isInterface d.classId = false ∧ (askTable i d.classId us).1 = (.ok symbol, true) ∨
          i = d.classId ∧ (askTable i i us).1.1 = .ok symbol) := by
  have hts := hc.valid
  obtain ⟨hext, hus, htables⟩ := hc.compile_tables hu
  have hdefined := htables symbols hcompiled
  intro us
  have hnames' : us.HasDistinctNames := hnames.of_extends hts hext
  have hdeclared' : ∀ d ∈ u.classes, d.classId.index < us.classes.size := by
    intro d hd
    rw [hext.classes_eq]
    exact hdeclared d hd
  constructor
  · intro d hd hclass i hi
    refine ⟨_, _, askTable_eq hus hi d.classId, ?_⟩
    rw [hdefined _ ⟨_, _, rfl⟩, decide_eq_true_iff]
    constructor
    · rintro ⟨d', hd', htable⟩
      exact ((hnames'.isTableOf_iff hi (hdeclared' d hd) hclass (hdeclared' d' hd')).mp htable).2
    · intro hbelow
      exact ⟨d, hd, (hnames'.isTableOf_iff hi (hdeclared' d hd) hclass (hdeclared' d hd)).mpr
        ⟨rfl, hbelow⟩⟩
  · intro text htext htable
    obtain ⟨d, hd, i, hi, rfl⟩ := (hdefined text htable).mp htext
    obtain ⟨hinterface, hkeeps⟩ := mem_tableInterfaces_iff.mp hi
    refine ⟨d, hd, i, .interfaceTable (us.className i) (us.className d.classId), hinterface, rfl, ?_⟩
    rcases hkeeps with ⟨-, rfl⟩ | ⟨hclass, hbelow⟩
    · exact .inr ⟨rfl, by rw [askTable_eq hus hinterface]⟩
    · exact .inl ⟨hclass, by rw [askTable_eq hus hinterface, decide_eq_true hbelow]⟩

/-! ### An example -/

/-- A session that declares an interface `Shape`, an interface `Solid<T>` that extends `Shape`, and a
class `Cube` that implements `Solid<core.String>`. -/
def solidSession : Canonicalizer :=
  let s := (Canonicalizer.fresh .initial).declared (.declareClass "Shape" { isInterface := true })
  let s := s.declared (.declareClass "Solid" { isInterface := true })
  let s := (s.declared (.addTypeParam ⟨3⟩ "T" none)).asked (.rawClass ⟨2⟩)
  let s := (s.declared (.addInterface ⟨3⟩ ⟨13⟩)).declared (.declareClass "Cube" {})
  (s.asked (.instantiate ⟨3⟩ [.string] none)).declared (.addInterface ⟨4⟩ ⟨14⟩)

/-- The unit of `Cube` and `Solid`, ... -/
def solidUnit : CompilationUnit := { classes := [⟨⟨4⟩, [], .generated⟩, ⟨⟨3⟩, [], .generated⟩] }

/-- ... its compilation, ... -/
def solidCompilation : Except CompileError UnitSymbols × Compilation :=
  (fresh {}).compile solidSession.types solidUnit

/-- ... the declaration of an interface `Sized` after it, ... -/
def sizedTypes : TypeSystem :=
  let ts := solidCompilation.2.types
  let ts := ((TypeSystem.Declaration.declareClass "Sized" { isInterface := true }).run ts).2
  ((TypeSystem.Query.rawClass ⟨5⟩).run ts).2

/-- ... which `Cube` implements as well, ... -/
def sizedCubeTypes : TypeSystem :=
  ((TypeSystem.Declaration.addInterface ⟨4⟩ ⟨17⟩).run sizedTypes).2

/-- ... and the compilation that follows. -/
def cubeCompilation : Except CompileError UnitSymbols × Compilation :=
  solidCompilation.2.compiler.compile sizedCubeTypes solidUnit

theorem solidSession_reachable : Canonicalizer.Reachable solidSession := by
  refine .declare _ (.ask _ (.declare _ (.declare _ (.ask _ (.declare _ (.declare _ (.declare _
    .initial ?_) ?_) ?_) ?_) ?_) ?_) ?_) ?_
  · trivial
  · trivial
  · nofun
  · trivial
  · unfold TypeSystem.Declaration.Admitted
    decide +kernel
  · trivial
  · exact ⟨by decide +kernel, nofun⟩
  · unfold TypeSystem.Declaration.Admitted
    decide +kernel

/-- A unit without nodes and members is known. -/
theorem solidUnit_isKnown (ts : TypeSystem) : solidUnit.IsKnown ts := by
  have hnodes : ∀ {n}, ¬ solidUnit.HasNode n := by
    intro n hn
    obtain ⟨r, hr, -⟩ := hn.exists_root
    cases hr
  exact ⟨fun hn => absurd hn hnodes, fun hn => absurd hn hnodes, by simp [solidUnit]⟩

theorem solidCompilation_inService :
    InService solidCompilation.2.compiler solidCompilation.2.types := by
  have hstart : InService (fresh {}) solidSession.types :=
    .start solidSession_reachable.valid.types (by decide +kernel)
  unfold solidCompilation
  exact hstart.compile (solidUnit_isKnown _)

theorem sizedCubeTypes_inService : InService solidCompilation.2.compiler sizedCubeTypes := by
  have hdeclared : InService solidCompilation.2.compiler
      ((TypeSystem.Declaration.declareClass "Sized" { isInterface := true }).run
        solidCompilation.2.types).2 :=
    solidCompilation_inService.declare trivial
      (TypeSystem.Closed.of_entries (by decide +kernel) (by decide +kernel)).classes
  have hasked : InService solidCompilation.2.compiler sizedTypes :=
    hdeclared.ask (q := .rawClass ⟨5⟩) trivial
  refine hasked.declare (d := .addInterface ⟨4⟩ ⟨17⟩) ?_ ?_
  · unfold TypeSystem.Declaration.Admitted
    decide +kernel
  · exact (TypeSystem.Closed.of_entries (by decide +kernel) (by decide +kernel)).classes

theorem sizedCubeTypes_hasDistinctNames : sizedCubeTypes.HasDistinctNames :=
  ⟨by decide +kernel, by decide +kernel⟩

/-- `Cube` is a subtype of `Sized` by now, and the last compilation defines the table. -/
theorem interfaceTables_exact_cube :
    (TypeSystem.askTable ⟨5⟩ ⟨4⟩ cubeCompilation.2.types).1 =
        (.ok (.interfaceTable "Sized" "Cube"), true) ∧
      ∃ symbols, cubeCompilation.1 = .ok symbols ∧
        (Symbol.interfaceTable "Sized" "Cube").encode ∈ symbols.defined := by
  have hok : cubeCompilation.1.toOption.isSome := by decide +kernel
  obtain ⟨symbols, hsymbols⟩ := exists_ok_of_isSome hok
  have hanswer : (TypeSystem.askTable ⟨5⟩ ⟨4⟩ cubeCompilation.2.types).1 =
      (.ok (.interfaceTable "Sized" "Cube"), true) := by decide +kernel
  have hinterface : cubeCompilation.2.types.isInterface ⟨5⟩ = true := by decide +kernel
  have hclass : cubeCompilation.2.types.isInterface ⟨4⟩ = false := by decide +kernel
  unfold cubeCompilation at hsymbols hanswer hinterface hclass ⊢
  obtain ⟨htables, -⟩ := interfaceTables_exact sizedCubeTypes_inService (solidUnit_isKnown _)
    (by decide +kernel) sizedCubeTypes_hasDistinctNames hsymbols
  obtain ⟨symbol, below, hask, hdefined⟩ :=
    htables ⟨⟨4⟩, [], .generated⟩ List.mem_cons_self hclass ⟨5⟩ hinterface
  obtain ⟨hsymbol, rfl⟩ := Prod.mk.inj (hanswer.symm.trans hask)
  obtain rfl := Except.ok.inj hsymbol
  exact ⟨hanswer, symbols, hsymbols, hdefined.mpr rfl⟩

end Compiler

end Erasure
