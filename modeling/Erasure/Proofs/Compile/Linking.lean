/-
Linking units.

A unit refers to a procedure or static field by the symbol of its canonical form, and it defines the
symbols of the canonical forms of its declarations. What one compilation refers to and another one
defines has one symbol, if it is an instance whose link to the declaration holds: it does not matter
what either compiler remembers. The main statements:

* `unitSymbols_ensures`: the symbols that the nodes and the definitions of a unit contribute.
* `linked_symbol_defined`: the symbol that is referred to is defined where the declaration is.
* `linked_symbol_undefined`: that is not so when the link does not hold.
-/
import Erasure.Proofs.Canonical.Attribution
import Erasure.Proofs.Compile.History
import Erasure.Proofs.Compile.Gathering

namespace Erasure

open TypeSystem (Continues)

/-! ### References -/

namespace Reference

/-- The member that a node names. -/
def member? : Reference → Option MemberId
  | procedure m | staticField m => some m
  | allocation _ => none

/-- The symbol that a reference contributes: that of the canonical form of the member. -/
def symbol? (s : Canonicalizer) : Reference → Option String
  | procedure m => (s.memo.members.find? m).bind fun c =>
    (s.types.procedureSymbol c).toOption.map Symbol.encode
  | staticField m => (s.memo.members.find? m).bind fun c =>
    (s.types.staticFieldSymbol c).toOption.map Symbol.encode
  | allocation _ => none

variable {s : Canonicalizer} {m c : MemberId} {y : Symbol}

theorem symbol?_procedure (hc : s.memo.members.find? m = some c)
    (hy : s.types.procedureSymbol c = .ok y) : (procedure m).symbol? s = some y.encode := by
  rw [symbol?, hc, Option.bind_some, hy]
  rfl

theorem symbol?_staticField (hc : s.memo.members.find? m = some c)
    (hy : s.types.staticFieldSymbol c = .ok y) : (staticField m).symbol? s = some y.encode := by
  rw [symbol?, hc, Option.bind_some, hy]
  rfl

end Reference

/-- What a unit refers to and what it defines have symbols among those that it brings to linking. -/
structure UnitSymbols.Covers (symbols : UnitSymbols) (t : Canonicalizer) (ts : TypeSystem)
    (v : CompilationUnit) : Prop where
  types : TypeSystem.Extends ts t.types
  referenced : ∀ r ∈ Reference.ofUnit ts v, ∀ m ∈ r.member?, ts.HasMember m ∧ ∃ c y,
    t.memo.members.find? m = some c ∧ t.types.memberSymbol c = .ok y ∧
      r.symbol? t = some y.encode ∧ y.encode ∈ symbols.referenced
  defined : ∀ d ∈ v.classes, ∀ m ∈ d.members, ClassPlan.isDefinition ts m = true → ∃ c y,
    t.memo.members.find? m.member = some c ∧ t.types.memberSymbol c = .ok y ∧
      y.encode ∈ symbols.defined

namespace Compiler

variable {s : Compilation}

/-- The symbols that are made of what was gathered are those of what a unit refers to and of what it
defines. -/
theorem symbolsOf_ensures (hs : (held s).Consistent) {g : Gathered} {ts : TypeSystem}
    {v : CompilationUnit} (hg : g.IsOf (held s) ts v)
    (hmembers : ∀ n ∈ v.nodes, ∀ m ∈ Validation.memberOf? v.arena n, ts.HasMember m)
    (htypes : ∀ e, .expr e ∈ v.nodes → ts.pool.Has (v.arena.expr e).type) :
    Ensures held (symbolsOf g) s fun symbols t => symbols.Covers (held t) ts v := by
  obtain ⟨hprocedures, hstatics, -⟩ := Reference.of_nodes
    (Q := fun m ts => ts.HasMember m) hmembers htypes ts
  unfold symbolsOf
  refine (foldlM_classSymbols_ensures hs g.plans {}).bind ?_
  rintro symbols t₁ - ht₁ ⟨h₁, hdefines⟩
  refine (mapM_mangled_ensures ht₁ (·.procedureSymbol ·) _).bind ?_
  rintro called t₂ - ht₂ ⟨h₂, hcalledSymbols⟩
  refine (mapM_mangled_ensures ht₂ (·.staticFieldSymbol ·) _).bind ?_
  rintro accessed t₃ - ht₃ ⟨h₃, haccessedSymbols⟩
  refine (mapM_allocationSymbols_ensures ht₃ _).bind fun allocated t h ht hsame => .pure ht ?_
  have hheld : held t = held s := ((hsame.trans h₃).trans h₂).trans h₁
  have htypes' : ∀ {x}, held x = held s → x.types = s.types := congrArg Canonicalizer.types
  rw [htypes' h₁] at hcalledSymbols
  rw [htypes' (h₂.trans h₁)] at haccessedSymbols
  rw [hheld]
  constructor
  case types => exact hg.types
  case referenced =>
    rintro (m | m | ty) hr _ ⟨⟩
    · have hm : m ∈ Reference.procedures _ := List.mem_filterMap.mpr ⟨_, hr, rfl⟩
      obtain ⟨c, hc, hfind⟩ := exists_of_forall₂_left hg.procedures hm
      obtain ⟨y, hy, hmem⟩ := hcalledSymbols c hc
      exact ⟨hprocedures m hm, c, y, hfind, TypeSystem.memberSymbol_of_procedureSymbol hy,
        Reference.symbol?_procedure hfind hy, SymbolSet.mem_addAll.mpr
          (.inl (List.mem_append_left _ (List.mem_append_left _ hmem)))⟩
    · have hm : m ∈ Reference.staticFields _ := List.mem_filterMap.mpr ⟨_, hr, rfl⟩
      obtain ⟨c, hc, hfind⟩ := exists_of_forall₂_left hg.staticFields hm
      obtain ⟨y, hy, hmem⟩ := haccessedSymbols c hc
      exact ⟨hstatics m hm, c, y, hfind, TypeSystem.memberSymbol_of_staticFieldSymbol hy,
        Reference.symbol?_staticField hfind hy, SymbolSet.mem_addAll.mpr
          (.inl (List.mem_append_left _ (List.mem_append_right _ hmem)))⟩
  case defined =>
    intro d hd m hm hdefinition
    obtain ⟨plan, hplan, hisPlan⟩ := exists_of_forall₂_left hg.plans hd
    obtain ⟨c, hfind, -, hmem⟩ := hisPlan.lists m hm hdefinition
    obtain ⟨hprocedure, hstatic⟩ := hdefines plan hplan
    unfold TypeSystem.memberSymbol
    refine ⟨c, ?_⟩
    split at hmem
    case isTrue hfield =>
      obtain ⟨y, hy, hy'⟩ := hstatic c hmem
      exact ⟨y, hfind, (if_pos hfield).trans hy, hy'⟩
    case isFalse hfield =>
      obtain ⟨y, hy, hy'⟩ := hprocedure c hmem
      exact ⟨y, hfind, (if_neg hfield).trans hy, hy'⟩

/-- A unit that is compiled brings the symbols of what it refers to and of what it defines. -/
theorem unitSymbols_ensures (hs : (held s).Consistent) (hstring : s.types.pool.Has .string)
    (hu : s.compiled.IsKnown s.types) :
    Ensures held unitSymbols s fun symbols t => symbols.Covers (held t)
      (StringForm.desugar s.types s.compiled).2.1 (StringForm.desugar s.types s.compiled).2.2 := by
  obtain ⟨-, -, -, hmembers, htypes⟩ := desugar_nodes CompilationUnit.accepts_hasMember
    hs.valid.types hstring hu.members hu.types
  rw [unitSymbols_eq]
  exact (gathered_ensures hs hstring hu).bind fun g t _ ht hg =>
    symbolsOf_ensures ht hg hmembers htypes

/-! ### Compilers in use -/

/-- The states of a compiler and the type system that it works on. Units are compiled in any order,
with or without success, and between them the type system goes on in any way that spares what was
there. -/
inductive InUse : Compiler → TypeSystem → Prop
  | start {o : Options} {ts : TypeSystem} : ts.Valid → ts.Acyclic → ts.pool.Has .string →
      InUse (fresh o) ts
  | compile {c : Compiler} {ts : TypeSystem} {u : CompilationUnit} : InUse c ts → u.IsKnown ts →
      InUse (c.compile ts u).2.compiler (c.compile ts u).2.types
  | extend {c : Compiler} {ts us : TypeSystem} : InUse c ts → Continues ts us → us.Valid →
      us.Acyclic → InUse c us

variable {c c' : Compiler} {ts ts' : TypeSystem} {u v : CompilationUnit}

/-- What one compilation preserves. -/
theorem compile_ensures (hc : Canonicalizer.Consistent ⟨ts, c.memo⟩) (hstring : ts.pool.Has .string)
    (hu : u.IsKnown ts) :
    Ensures held unitSymbols ⟨c, ts, u⟩ fun symbols t => symbols.Covers (held t)
      (StringForm.desugar ts u).2.1 (StringForm.desugar ts u).2.2 :=
  unitSymbols_ensures (s := ⟨c, ts, u⟩) hc hstring hu

/-- What a compiler in use remembers is consistent with the declarations. -/
theorem InUse.consistent (h : InUse c ts) :
    Canonicalizer.Consistent ⟨ts, c.memo⟩ ∧ ts.pool.Has .string := by
  induction h with
  | start hts hacyclic hstring => exact ⟨Canonicalizer.fresh_consistent hts hacyclic, hstring⟩
  | compile _ hu ih =>
    have hcompile := compile_ensures ih.1 ih.2 hu
    exact ⟨hcompile.consistent, ih.2.of_le hcompile.grows.le.1.1⟩
  | extend _ h hus hacyclic ih => exact ⟨ih.1.of_continues h hus hacyclic, ih.2.of_le h.le.1⟩

/-- Compiling declares nothing. -/
theorem InUse.compile_extends (h : InUse c ts) (hu : u.IsKnown ts) :
    TypeSystem.Extends ts (c.compile ts u).2.types :=
  Canonicalizer.Extends.types (compile_ensures h.consistent.1 h.consistent.2 hu).grows

/-! ### Linking -/

/-- What is remembered of a declared member in two compilations over one type system, and its
symbol. -/
theorem memberSymbol_eq {s t : Canonicalizer} (hs : s.Consistent) (ht : t.Consistent)
    (h : Continues s.types t.types ∨ Continues t.types s.types) {m a b : MemberId} {base : ClassId}
    (hm : t.types.HasMember m)
    (hraw : s.types.pool.HasKind (s.types.member m).container (.raw base))
    (ha : s.memo.members.find? m = some a) (hb : t.memo.members.find? m = some b) {x y : Symbol}
    (hx : s.types.memberSymbol a = .ok x) (hy : t.types.memberSymbol b = .ok y) : x = y := by
  have hsettled := (hs.valid.members ha).settled.hasMember
  have hsettled' := (ht.valid.members hb).settled.hasMember
  rcases h with h | h
  · obtain rfl := hs.find?_member_eq ht h hraw ha hb
    exact Except.ok.inj
      ((TypeSystem.memberSymbol_of_continues hs.valid.types h hsettled hx).symm.trans hy)
  · have hcontainer := (ht.valid.types.keys hm.hasKey).container
    rw [TypeSystem.member_of_le h.le hm] at hraw
    obtain rfl := ht.find?_member_eq hs h (hraw.of_ge h.le.1 hcontainer) hb ha
    exact Except.ok.inj
      (hx.symm.trans (TypeSystem.memberSymbol_of_continues ht.valid.types h hsettled' hy))

/-- Two units are compiled over one type system, by one compiler or by two, in any order, after
whatever was compiled before. If a node of the first unit, desugared, names an instance whose link
to its declaration holds, and the second unit has a definition of that declaration, the symbol that the
node contributes to the references of the first unit is one that the second unit defines. -/
theorem linked_symbol_defined {symbols symbols' : UnitSymbols} (hc : InUse c ts) (hu : u.IsKnown ts)
    (hcompiled : (c.compile ts u).1 = .ok symbols) (hc' : InUse c' ts') (hv : v.IsKnown ts')
    (hcompiled' : (c'.compile ts' v).1 = .ok symbols')
    (hsystem : Continues (c.compile ts u).2.types (c'.compile ts' v).2.types ∨
      Continues (c'.compile ts' v).2.types (c.compile ts u).2.types) :
    let desugared := (StringForm.desugar ts u).2
    ∀ r ∈ Reference.ofUnit desugared.1 desugared.2, ∀ m ∈ r.member?,
      Canonicalizer.LinkHolds desugared.1 m →
      (∃ d ∈ v.classes, ∃ decl ∈ d.members, decl.member = (desugared.1.member m).decl ∧
        ClassPlan.isDefinition ts' decl = true) →
      ∃ symbol, r.symbol? (held (c.compile ts u).2) = some symbol ∧
        symbol ∈ symbols.referenced ∧ symbol ∈ symbols'.defined := by
  obtain ⟨hs, hstring⟩ := hc.consistent
  obtain ⟨hs', hstring'⟩ := hc'.consistent
  have hcompile := compile_ensures hs hstring hu
  have hcompile' := compile_ensures hs' hstring' hv
  obtain ⟨htypes, hreferenced, -⟩ := hcompile.post symbols hcompiled
  obtain ⟨-, -, hdefined⟩ := hcompile'.post symbols' hcompiled'
  obtain ⟨hext, hvalid, -⟩ :=
    desugar_nodes CompilationUnit.accepts_hasMember hs.valid.types hstring hu.members hu.types
  obtain ⟨hext', -, hclasses, -⟩ :=
    desugar_nodes CompilationUnit.accepts_hasMember hs'.valid.types hstring' hv.members hv.types
  rintro desugared r hr m hm hlink ⟨d, hd, decl, hdecl, hlinked, hdefinition⟩
  have hknown := hv.declared d hd decl hdecl
  obtain ⟨hmember, a, x, ha, hx, hsymbol, hmem⟩ := hreferenced r hr m hm
  obtain ⟨b, y, hb, hy, hmem'⟩ := hdefined d (hclasses ▸ hd) decl hdecl
    ((ClassPlan.isDefinition_of_le hext'.le hknown).trans hdefinition)
  obtain ⟨base, hdeclared⟩ := hlink.exists_declared
  obtain ⟨k, hkey, hraw, -⟩ := (hvalid.classes base).members _ hdeclared
  have hfind := hlink.find?_decl hvalid (hs.acyclic.of_extends hs.valid.types hext)
    hcompile.consistent htypes hmember ha
  rw [hlinked] at hb hknown
  have hraw' := hraw.of_le htypes.le.1
  rw [← (hkey.of_le htypes.le).container_eq] at hraw'
  have hsame : x = y := memberSymbol_eq hcompile.consistent hcompile'.consistent hsystem
    (hknown.of_le hcompile'.grows.le.1) hraw' hfind hb hx hy
  exact ⟨x.encode, hsymbol, hmem, hsame ▸ hmem'⟩

theorem mapCompilation_inUse : InUse mapCompilation.compiler mapCompilation.types := by
  unfold mapCompilation
  exact .compile (.start boxTypes_regular.valid boxTypes_regular.acyclic boxTypes_string)
    mapUnit_isInPlace.isKnown

/-- Both units are compiled, and one calls `map` as `Box<core.String>` sees it. -/
theorem mainUnit_refers :
    let ts := (runMethod.run mainTypes).2
    let desugared := (StringForm.desugar ts mainUnit).2
    ((fresh {}).compile boxTypes mapUnit).1.toOption.isSome ∧
      (mapCompilation.compiler.compile ts mainUnit).1.toOption.isSome ∧
      .procedure ⟨17⟩ ∈ Reference.ofUnit desugared.1 desugared.2 ∧
      (desugared.1.member ⟨17⟩).decl = ⟨16⟩ ∧
      desugared.1.pool.HasKind (desugared.1.member ⟨17⟩).container (.inst ⟨2⟩ ⟨1⟩ none) ∧
      ⟨16⟩ ∈ (desugared.1.classDef ⟨2⟩).members := by
  decide +kernel

theorem matches_map :
    let desugared := (StringForm.desugar (runMethod.run mainTypes).2 mainUnit).2
    (Canonicalizer.fresh desugared.1).Matches ⟨17⟩ ⟨16⟩ := by
  unfold Canonicalizer.Matches
  decide +kernel

/-- The method `map` of `Box<T>` is defined by one unit, and another one calls it as
`Box<core.String>` sees it. -/
theorem linked_symbol_defined_box :
    let main := mapCompilation.compiler.compile (runMethod.run mainTypes).2 mainUnit
    ∃ symbols symbols' symbol, main.1 = .ok symbols ∧
      ((fresh {}).compile boxTypes mapUnit).1 = .ok symbols' ∧
      (Reference.procedure ⟨17⟩).symbol? (held main.2) = some symbol ∧
      symbol ∈ symbols.referenced ∧ symbol ∈ symbols'.defined := by
  obtain ⟨hmap, hmain, hrefers, hdecl, hcontainer, hdeclared⟩ := mainUnit_refers
  obtain ⟨hvalid, hcontinues⟩ := mainTypes_valid
  obtain ⟨symbols', hsymbols'⟩ := exists_ok_of_isSome hmap
  obtain ⟨symbols, hsymbols⟩ := exists_ok_of_isSome hmain
  have hfirst : InUse (fresh {}) boxTypes :=
    .start boxTypes_regular.valid boxTypes_regular.acyclic boxTypes_string
  have hsecond : InUse mapCompilation.compiler (runMethod.run mainTypes).2 :=
    mapCompilation_inUse.extend hcontinues hvalid mainTypes_acyclic
  have hunit := mainUnit_isInPlace.isKnown
  have hsystem : Continues ((fresh {}).compile boxTypes mapUnit).2.types
      (mapCompilation.compiler.compile (runMethod.run mainTypes).2 mainUnit).2.types := by
    have hmapCompilation : ((fresh {}).compile boxTypes mapUnit).2 = mapCompilation := by
      rw [mapCompilation]
    rw [hmapCompilation]
    exact hcontinues.trans ((hsecond.compile_extends hunit).continues hvalid)
  have hlink := Canonicalizer.LinkHolds.image hcontainer (hdecl ▸ hdeclared) (hdecl ▸ matches_map)
  have hdefines : ∃ d ∈ mapUnit.classes, ∃ decl ∈ d.members, decl.member = ⟨16⟩ ∧
      ClassPlan.isDefinition boxTypes decl = true := by decide +kernel
  have hlinked := linked_symbol_defined hsecond hunit hsymbols hfirst mapUnit_isInPlace.isKnown
    hsymbols' (.inr hsystem)
  obtain ⟨symbol, h⟩ := hlinked (.procedure ⟨17⟩) hrefers ⟨17⟩ rfl hlink (hdecl ▸ hdefines)
  exact ⟨symbols, symbols', symbol, hsymbols, hsymbols', h⟩

/-! ### A link that does not hold -/

/-- The method `f(T)` of `Box<T>` is seen in `Box<core.String>`, and the image in `Box<core.Object>`.
There it is also the image of the other method `f(core.String)`. A class `Main` comes last. -/
def relinkedTypes : TypeSystem :=
  let session : StateM TypeSystem Unit := do
    discard <| TypeSystem.memberIn (← TypeSystem.memberIn ⟨15⟩ ⟨15⟩) ⟨16⟩
    discard <| TypeSystem.declareClass "Main" {}
  (session Canonicalizer.overloadSession.types).2

/-- A body for the method `f(T)`. -/
def defineOverload : StateM Builder CompilationUnit := do
  let x ← Builder.newLocal "x" ⟨13⟩ {}
  let body ← Builder.block []
  let decl : MemberDecl := ⟨⟨15⟩, .method [x] (some body), .generated⟩
  return ⟨(← get).arena, [⟨⟨2⟩, [decl], .generated⟩]⟩

/-- A static method `run` of `Main` that calls `f` on a box of objects with a string. -/
def callOverload : BuildM CompilationUnit := do
  let box ← liftM (Builder.newLocal "box" ⟨16⟩ {})
  let text ← liftM (Builder.newLocal "text" .string {})
  let receiver ← liftM (Builder.localVar box)
  let arg ← liftM (Builder.localVar text)
  let call ← Builder.call (.expr receiver) ⟨16⟩ "f" [arg]
  let body ← liftM (do Builder.block [← Builder.eval call])
  let decl ← liftM (Builder.declareMethod ⟨3⟩ "run" Primitive.void.typeId [box, text] (some body)
    { isStatic := true })
  return ⟨(← get).arena, [⟨⟨3⟩, [decl], .generated⟩]⟩

/-- The unit that defines `f(T)`, ... -/
def definingUnit : CompilationUnit := (defineOverload ⟨relinkedTypes, {}, .generated⟩).1

/-- ... and the type system after it was built; ... -/
def definedTypes : TypeSystem := (defineOverload ⟨relinkedTypes, {}, .generated⟩).2.types

/-- ... the unit that calls `f`, if it can be built, ... -/
def builtCall : Except TreeError CompilationUnit × Builder :=
  callOverload.run ⟨definedTypes, {}, .generated⟩

/-- ... its compilation, ... -/
def callCompilation : Except CompileError UnitSymbols × Compilation :=
  (fresh {}).compile builtCall.2.types (builtCall.1.toOption.getD {})

/-- ... and after it that of the unit that defines `f(T)`. -/
def defineCompilation : Except CompileError UnitSymbols × Compilation :=
  callCompilation.2.compiler.compile callCompilation.2.types definingUnit

/-- A call names an instance that is linked to `f(T)`, and another unit has a definition of `f(T)`. The
instance is an image of the other method, and the symbol that the call refers to is that one's. Both
units are compiled, and the symbol is not among those that the definition brings. -/
theorem linked_symbol_undefined :
    builtCall.2.types.Acyclic ∧ builtCall.1.toOption.isSome ∧
      .procedure ⟨18⟩ ∈ Reference.ofUnit callCompilation.2.types callCompilation.2.compiled ∧
      (∃ d ∈ definingUnit.classes, ∃ decl ∈ d.members,
        decl.member = (callCompilation.2.types.member ⟨18⟩).decl ∧
          ClassPlan.isDefinition callCompilation.2.types decl = true) ∧
      (Reference.procedure ⟨18⟩).symbol? (held callCompilation.2) =
        some "_tern_3Box_1f_11core.String" ∧
      referencedBy callCompilation.1 = some ["_tern_3Box_1f_11core.String"] ∧
      defineCompilation.1.toOption.map UnitSymbols.defined =
        some ["_tern_3Box_1f_11core.Object", "_tern_dv_3Box", "_tern_init_3Box", "_tern_it_init_3Box",
          "_tern_size_3Box"] := by
  refine ⟨TypeSystem.acyclic_of_isEnd (by decide +kernel), ?_⟩
  decide +kernel

end Compiler

end Erasure
