/-
One compiler for many units.

A compiler takes what it remembers from one unit to the next, while the type system is extended by
further declarations. Its answers are those of a compiler that remembers nothing. The main
statements:

* `Reachable.recalls`: a compiler in use remembers nothing but what it would find again.
* `compile_independent_of_history`: every unit in place gets the answer that a fresh compiler gives.
* `compile_dependent_on_history`: a unit that names a member seen in a type variable need not.
-/
import Erasure.Proofs.Canonical.Extension
import Erasure.Proofs.Compile.Memory

namespace Erasure

open TypeSystem (Follows)
open Canonicalizer (InPlace)

namespace Compiler

variable {c : Compiler} {o : Options} {ts us : TypeSystem} {u : CompilationUnit}

/-! ### Histories -/

/-- The states of a compiler and the type system that it works on. Units are compiled in any order,
with or without success, and the type system is extended between them. -/
inductive Reachable (o : Options) : Compiler → TypeSystem → Prop
  | start {ts : TypeSystem} : ts.Regular → ts.pool.Has .string → Reachable o (fresh o) ts
  | compile {c : Compiler} {ts : TypeSystem} {u : CompilationUnit} : Reachable o c ts →
      u.IsInPlace ts → Reachable o (c.compile ts u).2.compiler (c.compile ts u).2.types
  | extend {c : Compiler} {ts us : TypeSystem} : Reachable o c ts → ts.Closed →
      TypeSystem.Extended ts us → us.Acyclic → Reachable o c us

/-- What every step preserves: the type system is as it should be, and the compiler recalls. -/
structure Sound (o : Options) (c : Compiler) (ts : TypeSystem) : Prop where
  regular : ts.Regular
  string : ts.pool.Has .string
  options : c.options = o
  recalls : c.Recalls ts

theorem Sound.compile (h : Sound o c ts) (hu : u.IsInPlace ts) :
    Sound o (c.compile ts u).2.compiler (c.compile ts u).2.types := by
  obtain ⟨x, us, v, hext, hcompile⟩ := compile_transparent (o := o) h.regular h.string hu
  obtain ⟨c', heq, ho, hrecalls⟩ := hcompile c h.options h.recalls
  rw [heq]
  exact ⟨hrecalls.canonical.regular, h.string.of_le hext.le.1, ho, hrecalls⟩

theorem Sound.extend (h : Sound o c ts) (hclosed : ts.Closed) (hextended : TypeSystem.Extended ts us)
    (hacyclic : us.Acyclic) : Sound o c us := by
  obtain ⟨hus, hcontinues⟩ := hextended.continues h.regular.valid h.regular.acyclic hclosed
  have hfollows : Follows ts us := ⟨hcontinues, h.regular.of_continues hcontinues hus hacyclic⟩
  exact ⟨hfollows.regular, h.string.of_le hfollows.le.1, h.options, h.recalls.of_follows hfollows⟩

/-- A compiler in use remembers nothing but what it would find again. -/
theorem Reachable.sound (h : Reachable o c ts) : Sound o c ts := by
  induction h with
  | start hts hstring => exact ⟨hts, hstring, rfl, fresh_recalls hts o⟩
  | compile _ hu ih => exact ih.compile hu
  | extend _ hclosed hextended hacyclic ih => exact ih.extend hclosed hextended hacyclic

/-- Every unit in place gets the answer that a compiler gives that remembers nothing. -/
theorem compile_independent_of_history (h : Reachable o c ts) (hu : u.IsInPlace ts) :
    (c.compile ts u).1 = ((fresh o).compile ts u).1 := by
  obtain ⟨hts, hstring, ho, hrecalls⟩ := h.sound
  obtain ⟨x, us, v, -, hcompile⟩ := compile_transparent (o := o) hts hstring hu
  obtain ⟨c', heq, -, -⟩ := hcompile c ho hrecalls
  obtain ⟨c'', heq', -, -⟩ := hcompile (fresh o) rfl (fresh_recalls hts o)
  rw [heq, heq']

/-! ### An example -/

/-- A block that evaluates the first `n` expressions, and its statements. -/
def evalAll (n : Nat) : List StmtKind :=
  .block ((List.range n).map fun i => ⟨i + 1⟩) :: (List.range n).map fun i => .eval ⟨i⟩

/-- A unit that declares one procedure, whose body calls members. -/
def callingUnit (base : ClassId) (decl : MemberId) (called : List MemberId) : CompilationUnit where
  arena :=
    { exprs := (called.map fun m =>
        ⟨.call (.type .object) m [] .static, Primitive.void.typeId, .generated⟩).toArray
      stmts := ((evalAll called.length).map fun kind => ⟨kind, .generated⟩).toArray }
  classes := [⟨base, [⟨decl, .method [] (some ⟨0⟩), .generated⟩], .generated⟩]

theorem callingUnit_isInPlace (hts : ts.Valid) {base : ClassId} {decl : MemberId}
    {called : List MemberId} (hdecl : InPlace decl ts) (hcalled : ∀ m ∈ called, InPlace m ts) :
    (callingUnit base decl called).IsInPlace ts := by
  have hexpr : ∀ e, (callingUnit base decl called).arena.expr e = default ∨ ∃ m ∈ called,
      (callingUnit base decl called).arena.expr e =
        ⟨.call (.type .object) m [] .static, Primitive.void.typeId, .generated⟩ := by
    intro e
    rw [Arena.expr, callingUnit, Array.getD_eq_getD_getElem?, List.getElem?_toArray,
      List.getElem?_map]
    cases hm : called[e.index]? with
    | none => exact Or.inl rfl
    | some m => exact Or.inr ⟨m, List.mem_of_getElem? hm, rfl⟩
  have hstmt : ∀ s, ((callingUnit base decl called).arena.stmt s).kind.member? = none := by
    intro s
    rw [Arena.stmt, callingUnit, Array.getD_eq_getD_getElem?, List.getElem?_toArray,
      List.getElem?_map]
    cases hkind : (evalAll called.length)[s.index]? with
    | none => rfl
    | some kind =>
      rcases List.mem_cons.mp (List.mem_of_getElem? hkind) with rfl | hkind
      · rfl
      · obtain ⟨i, -, rfl⟩ := List.mem_map.mp hkind
        rfl
  constructor
  case members =>
    rintro (e | s) - m hm
    · rw [Validation.memberOf?_expr] at hm
      rcases hexpr e with h | ⟨m', hm', h⟩
      · rw [h] at hm
        cases hm
      · rw [h] at hm
        cases hm
        exact hcalled _ hm'
    · rw [Validation.memberOf?_stmt, hstmt] at hm
      cases hm
  case types =>
    intro e _
    rcases hexpr e with h | ⟨m, -, h⟩
    · exact h ▸ (hts.pool.prims .boolean).has
    · exact h ▸ (hts.pool.prims .void).has
  case declared =>
    intro c hc d hd
    obtain rfl := List.mem_singleton.mp hc
    obtain rfl := List.mem_singleton.mp hd
    exact hdecl

/-- The session that declares `Box<T>`, with its method `map` as `Box<core.String>` sees it. -/
def boxTypes : TypeSystem :=
  ((TypeSystem.Query.memberIn ⟨16⟩ ⟨16⟩).run Canonicalizer.boxSession.types).2

/-- The method `map` is defined in one unit, ... -/
def mapUnit : CompilationUnit := callingUnit ⟨2⟩ ⟨16⟩ [⟨17⟩]

/-- ... whose compilation leaves this state, ... -/
def mapCompilation : Compilation := ((fresh {}).compile boxTypes mapUnit).2

/-- ... a class `Main` is declared afterwards, ... -/
def mainTypes : TypeSystem :=
  ((TypeSystem.Query.intern "run").run
    ((TypeSystem.Declaration.declareClass "Main" {}).run mapCompilation.types).2).2

/-- ... with a static method `run`, ... -/
def runMethod : TypeSystem.Declaration :=
  .declareMember ⟨3⟩ (.method ⟨14⟩ [] Primitive.void.typeId []) { isStatic := true }

/-- ... which is defined in another unit and calls `map`. -/
def mainUnit : CompilationUnit := callingUnit ⟨3⟩ ⟨21⟩ [⟨17⟩, ⟨16⟩]

theorem boxTypes_regular : boxTypes.Regular := by
  have hbox := Canonicalizer.boxSession_reachable.valid.types
  have hrun := TypeSystem.Query.run_keeps hbox (q := .memberIn ⟨16⟩ ⟨16⟩)
    ⟨by decide +kernel, by decide +kernel⟩
  exact ⟨hrun.valid, Canonicalizer.boxSession_acyclic.of_extends hbox hrun.grows,
    by decide +kernel⟩

theorem boxTypes_string : boxTypes.pool.Has .string := by decide +kernel

theorem mapUnit_isInPlace : mapUnit.IsInPlace boxTypes := by
  have hmap : ⟨16⟩ ∈ (boxTypes.classDef ⟨2⟩).members := by decide +kernel
  have himage : boxTypes.HasMember ⟨17⟩ ∧ boxTypes.pool.HasKind (boxTypes.member ⟨17⟩).container
      (.inst ⟨2⟩ ⟨1⟩ none) := by decide +kernel
  refine callingUnit_isInPlace boxTypes_regular.valid
    (.plain (Canonicalizer.isPlain_of_declared boxTypes_regular.valid hmap)) ?_
  exact List.forall_mem_singleton.mpr (.instance himage.1 himage.2)

theorem mapCompilation_reachable : Reachable {} mapCompilation.compiler mapCompilation.types := by
  unfold mapCompilation
  exact .compile (.start boxTypes_regular boxTypes_string) mapUnit_isInPlace

/-- After the first unit the type system is closed. -/
theorem mapCompilation_entries :
    (∀ i < mapCompilation.types.pool.size,
        mapCompilation.types.mentionsDeclared (mapCompilation.types.kind ⟨i⟩) = true) ∧
      ∀ i < mapCompilation.types.members.size,
        (mapCompilation.types.member ⟨i⟩).decl.index < mapCompilation.types.members.size := by
  decide +kernel

/-- The declarations afterwards are admitted and acyclic, and `run` and `map` are declared. -/
theorem mainTypes_declares :
    let ts := (runMethod.run mainTypes).2
    (∀ ty ∈ [Primitive.void.typeId], mainTypes.pool.Has ty) ∧ mainTypes.HasName ⟨14⟩ ∧
      (∀ i < ts.classes.size, ∀ ty ∈ (ts.classDef ⟨i⟩).outer, ∃ j < i, ts.classOf? ty = some ⟨j⟩) ∧
      (∀ i ≤ ts.typeVars.size, TypeSystem.IsEnd (ts.kind (ts.typeVar ⟨i⟩).bound)) ∧
      ⟨16⟩ ∈ (ts.classDef ⟨2⟩).members ∧ ⟨21⟩ ∈ (ts.classDef ⟨3⟩).members ∧
      ts.HasMember ⟨17⟩ ∧ ts.pool.HasKind (ts.member ⟨17⟩).container (.inst ⟨2⟩ ⟨1⟩ none) := by
  decide +kernel

theorem mainTypes_extended :
    TypeSystem.Extended mapCompilation.types (runMethod.run mainTypes).2 := by
  have hmap := mapCompilation_reachable.sound.regular.valid
  obtain ⟨htypes, hname, -⟩ := mainTypes_declares
  have hdeclared := TypeSystem.Declaration.run_advances hmap (d := .declareClass "Main" {}) trivial
  have hinterned := TypeSystem.Query.run_keeps hdeclared.valid (q := .intern "run") trivial
  refine .declare runMethod (.grow (.declare (.declareClass "Main" {}) .refl trivial trivial)
    hinterned.grows hinterned.valid) ⟨htypes, nofun, ?_⟩ trivial
  rintro _ ⟨⟩
  exact hname

theorem mainTypes_valid :
    (runMethod.run mainTypes).2.Valid ∧
      TypeSystem.Continues mapCompilation.types (runMethod.run mainTypes).2 := by
  have hmap := mapCompilation_reachable.sound.regular
  exact mainTypes_extended.continues hmap.valid hmap.acyclic
    (.of_entries mapCompilation_entries.1 mapCompilation_entries.2)

theorem mainTypes_acyclic : (runMethod.run mainTypes).2.Acyclic := by
  obtain ⟨-, -, houter, hbound, -⟩ := mainTypes_declares
  exact TypeSystem.acyclic_of_isEnd ⟨houter, hbound⟩

theorem mainUnit_isInPlace : mainUnit.IsInPlace (runMethod.run mainTypes).2 := by
  obtain ⟨-, -, -, -, hmap, hrun, himage, hcontainer⟩ := mainTypes_declares
  have hvalid := mainTypes_valid.1
  refine callingUnit_isInPlace hvalid (.plain (Canonicalizer.isPlain_of_declared hvalid hrun)) ?_
  refine List.forall_mem_cons.mpr ⟨.instance himage hcontainer, ?_⟩
  exact List.forall_mem_singleton.mpr (.plain (Canonicalizer.isPlain_of_declared hvalid hmap))

theorem compile_independent_of_history_box :
    Reachable {} mapCompilation.compiler (runMethod.run mainTypes).2 ∧
      mainUnit.IsInPlace (runMethod.run mainTypes).2 ∧
      (mapCompilation.compiler.compile (runMethod.run mainTypes).2 mainUnit).1 =
        ((fresh {}).compile (runMethod.run mainTypes).2 mainUnit).1 := by
  have hreachable : Reachable {} mapCompilation.compiler (runMethod.run mainTypes).2 :=
    .extend mapCompilation_reachable
      (.of_entries mapCompilation_entries.1 mapCompilation_entries.2) mainTypes_extended
      mainTypes_acyclic
  exact ⟨hreachable, mainUnit_isInPlace,
    compile_independent_of_history hreachable mainUnit_isInPlace⟩

/-! ### A member that is out of place -/

/-- Interfaces `Y<YP>` and `Z<ZP>` that extend `I` and `J` in opposite orders, so that the upper bound
of `A extends Y<core.String>` and `B extends Z<core.String>` is `I` or `J`, as one or the other became
a raw type first. The method `g` has it as a formal. The method `f` of `D` is also seen in the type
variable `V`, which is bounded by the class `R` whose type parameter is bounded by `Z`. -/
def boundsSession : StateM TypeSystem Unit := do
  let i ← liftM (Pool.rawClass (← TypeSystem.declareClass "I" { isInterface := true }))
  let j ← liftM (Pool.rawClass (← TypeSystem.declareClass "J" { isInterface := true }))
  let y ← TypeSystem.declareClass "Y" { isInterface := true }
  [i, j].forM (TypeSystem.addInterface y)
  discard <| TypeSystem.addTypeParam y "YP" none
  let z ← TypeSystem.declareClass "Z" { isInterface := true }
  [j, i].forM (TypeSystem.addInterface z)
  discard <| TypeSystem.addTypeParam z "ZP" none
  let yString ← TypeSystem.instantiate y [.string] none
  let zString ← TypeSystem.instantiate z [.string] none
  let r ← TypeSystem.declareClass "R" {}
  discard <| TypeSystem.addTypeParam r "T" (some zString)
  let d ← TypeSystem.declareClass "D" {}
  let v ← TypeSystem.addTypeParam d "V" (some (← TypeSystem.instantiate r [zString] none))
  let f ← TypeSystem.declareMethod d "f" [] Primitive.void.typeId {}
  let k ← TypeSystem.declareClass "K" {}
  let a ← liftM (Pool.typeVar (← TypeSystem.addTypeParam k "A" (some yString)))
  let b ← liftM (Pool.typeVar (← TypeSystem.addTypeParam k "B" (some zString)))
  discard <| TypeSystem.declareMethod k "g" [← liftM (Pool.lubOf [a, b])] Primitive.void.typeId {}
  discard <| TypeSystem.substituteMember f .empty (← liftM (Pool.typeVar v))
  let main ← TypeSystem.declareClass "Main" {}
  discard <| TypeSystem.declareMethod main "one" [] Primitive.void.typeId {}
  discard <| TypeSystem.declareMethod main "two" [] Primitive.void.typeId {}

/-- The type system of the session. -/
def boundsTypes : TypeSystem := (boundsSession .initial).2

/-- A unit that calls `f` as `V` sees it. -/
def firstUnit : CompilationUnit := callingUnit ⟨9⟩ ⟨18⟩ [⟨17⟩]

/-- A unit that calls the canonical form of that member, and then `g`. -/
def secondUnit : CompilationUnit := callingUnit ⟨9⟩ ⟨19⟩ [⟨20⟩, ⟨16⟩]

/-- The first unit is compiled, and with it the canonical form of the member it names is made. -/
def firstCompilation : Compilation := ((fresh {}).compile boundsTypes firstUnit).2

/-- What is referred to, if the unit can be compiled. -/
def referencedBy (x : Except CompileError UnitSymbols) : Option SymbolSet :=
  x.toOption.map UnitSymbols.referenced

/-- A compiler that has compiled a unit which names a member seen in a type variable gives the next
unit another answer than a compiler that remembers nothing. -/
theorem compile_dependent_on_history :
    boundsTypes.Acyclic ∧
      boundsTypes.kind (boundsTypes.member ⟨17⟩).container = .var ⟨3⟩ ∧
      referencedBy (firstCompilation.compiler.compile firstCompilation.types secondUnit).1 =
        some ["_tern_1K_1g_1I", "_tern_1R_1f_void"] ∧
      referencedBy ((fresh {}).compile firstCompilation.types secondUnit).1 =
        some ["_tern_1K_1g_1J", "_tern_1R_1f_void"] := by
  refine ⟨TypeSystem.acyclic_of_isEnd (by decide +kernel), ?_⟩
  decide +kernel

end Compiler

end Erasure
