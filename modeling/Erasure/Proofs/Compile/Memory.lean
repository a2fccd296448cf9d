/-
Compiling does not depend on what is remembered.

A compiler `Recalls` when everything that it remembers would be found again. Such a compiler gives the
same answer as one that remembers nothing, and it recalls again afterwards, also when the unit fails.
The main statements:

* `Uniform`: work that gives one answer in all states over one type system. `Uniform.bind`,
  `Uniform.mapM` and `Uniform.foldlM` put such work together.
* `validate_uniform`, `ofDecl_uniform`, `classSymbols_uniform`: the stages of a compilation.
* `compile_transparent`: compiling a unit.
-/
import Erasure.Compile.Compiler
import Erasure.Proofs.Canonical.RecallReconciliation
import Erasure.Proofs.Compile.Layouts
import Erasure.Proofs.Tree.Desugaring

namespace Erasure

open TypeSystem (Regular Follows)

/-! ### Work that gives one answer -/

section

variable {σ ε α β : Type} {S : TypeSystem → σ → Prop} {ts us : TypeSystem}

/-- In all states `S ts` over a type system the work gives one answer, and leaves a state over one
type system. A failure leaves such a state, too. -/
def Uniform (S : TypeSystem → σ → Prop) (act : ExceptT ε (StateM σ) α) (ts : TypeSystem)
    (P : α → TypeSystem → Prop) : Prop :=
  ∃ x us, (∀ s, S ts s → ∃ t, act.run s = (x, t) ∧ S us t) ∧ TypeSystem.Extends ts us ∧
    us.Regular ∧ ∀ a, x = .ok a → P a us

namespace Uniform

variable {act : ExceptT ε (StateM σ) α} {P Q : α → TypeSystem → Prop}

theorem mono (h : Uniform S act ts P)
    (hPQ : ∀ a us, TypeSystem.Extends ts us → us.Regular → P a us → Q a us) :
    Uniform S act ts Q := by
  obtain ⟨x, us, hrun, hext, hus, hx⟩ := h
  exact ⟨x, us, hrun, hext, hus, fun a ha => hPQ a us hext hus (hx a ha)⟩

theorem of_answer {x : Except ε α} (hts : ts.Regular) (hact : ∀ s, S ts s → act.run s = (x, s))
    (hx : ∀ a, x = .ok a → P a ts) : Uniform S act ts P :=
  ⟨x, ts, fun s hs => ⟨s, hact s hs, hs⟩, .refl ts, hts, hx⟩

theorem pure {a : α} (hts : ts.Regular) (ha : P a ts) :
    Uniform S (pure a : ExceptT ε (StateM σ) α) ts P :=
  of_answer hts (fun _ _ => rfl) fun _ h => Except.ok.inj h ▸ ha

theorem throw {e : ε} (hts : ts.Regular) : Uniform S (throw e : ExceptT ε (StateM σ) α) ts P :=
  of_answer hts (fun _ _ => rfl) fun _ h => nomatch h

theorem bind {f : α → ExceptT ε (StateM σ) β} {R : β → TypeSystem → Prop} (h : Uniform S act ts P)
    (hf : ∀ a us, TypeSystem.Extends ts us → us.Regular → P a us → Uniform S (f a) us R) :
    Uniform S (act >>= f) ts R := by
  obtain ⟨x, us, hrun, hext, hus, hx⟩ := h
  cases x with
  | error e =>
    refine ⟨.error e, us, fun s hs => ?_, hext, hus, fun _ h => nomatch h⟩
    obtain ⟨t, heq, ht⟩ := hrun s hs
    exact ⟨t, by rw [run_bind_apply, heq]; rfl, ht⟩
  | ok a =>
    obtain ⟨y, vs, hrun', hext', hvs, hy⟩ := hf a us hext hus (hx a rfl)
    refine ⟨y, vs, fun s hs => ?_, hext.trans hext', hvs, hy⟩
    obtain ⟨t, heq, ht⟩ := hrun s hs
    obtain ⟨t', heq', ht'⟩ := hrun' t ht
    exact ⟨t', (run_bind_of_ok heq).trans heq', ht'⟩

/-- Reading the state, when all states over the type system agree on what is read. -/
theorem get_bind {x : ExceptT ε (StateM σ) α} {f : σ → ExceptT ε (StateM σ) α}
    (hf : ∀ s, S ts s → f s = x) (h : Uniform S x ts P) :
    Uniform S (get >>= f : ExceptT ε (StateM σ) α) ts P := by
  obtain ⟨x, us, hrun, hext, hus, hx⟩ := h
  refine ⟨x, us, fun s hs => ?_, hext, hus, hx⟩
  rw [run_get_bind_apply, hf s hs]
  exact hrun s hs

theorem map {f : α → β} {R : β → TypeSystem → Prop} (h : Uniform S act ts P)
    (hf : ∀ a us, P a us → R (f a) us) : Uniform S (f <$> act) ts R := by
  rw [map_eq_pure_bind]
  exact h.bind fun a us _ hus ha => .pure hus (hf a us ha)

theorem discard (h : Uniform S act ts P) : Uniform S (Functor.discard act) ts fun _ _ => True :=
  h.map fun _ _ _ => trivial

theorem mapM {f : α → ExceptT ε (StateM σ) β} {R : β → TypeSystem → Prop} {as : List α}
    (hmono : ∀ b us vs, Follows us vs → R b us → R b vs) (hts : ts.Regular)
    (h : ∀ a ∈ as, ∀ us, TypeSystem.Extends ts us → us.Regular → Uniform S (f a) us R) :
    Uniform S (as.mapM f) ts fun bs us => ∀ b ∈ bs, R b us := by
  induction as generalizing ts with
  | nil => exact .pure hts fun b hb => absurd hb List.not_mem_nil
  | cons a as ih =>
    rw [List.mapM_cons]
    refine (h a List.mem_cons_self ts (.refl ts) hts).bind fun b us hext hus hb => ?_
    refine (ih hus fun a' ha' vs huv => h a' (List.mem_cons_of_mem _ ha') vs (hext.trans huv)).bind ?_
    intro bs vs huv hvs hbs
    exact .pure hvs (List.forall_mem_cons.mpr ⟨hmono b us vs (.of_extends hus huv hvs.valid) hb, hbs⟩)

theorem mapM_discard {f : α → ExceptT ε (StateM σ) β} {as : List α} (hts : ts.Regular)
    (h : ∀ a ∈ as, ∀ us, TypeSystem.Extends ts us → us.Regular →
      Uniform S (f a) us fun _ _ => True) :
    Uniform S (as.mapM f) ts fun _ _ => True :=
  (mapM (R := fun _ _ => True) (fun _ _ _ _ _ => trivial) hts h).mono fun _ _ _ _ _ => trivial

theorem foldlM {f : β → α → ExceptT ε (StateM σ) β} {as : List α} {b : β} (hts : ts.Regular)
    (h : ∀ a ∈ as, ∀ b us, TypeSystem.Extends ts us → us.Regular →
      Uniform S (f b a) us fun _ _ => True) :
    Uniform S (as.foldlM f b) ts fun _ _ => True := by
  induction as generalizing b ts with
  | nil => exact .pure hts trivial
  | cons a as ih =>
    rw [List.foldlM_cons]
    refine (h a List.mem_cons_self b ts (.refl ts) hts).bind fun b' us hext hus _ => ?_
    exact ih hus fun a' ha' b'' vs huv => h a' (List.mem_cons_of_mem _ ha') b'' vs (hext.trans huv)

end Uniform

end

variable {ts us : TypeSystem} {ε α : Type}

/-! ### Canonical forms -/

namespace Canonicalizer

/-- The canonicalizers over a type system that recall what they remember. -/
def Over (ts : TypeSystem) (s : Canonicalizer) : Prop := s.Recalls ∧ s.types = ts

theorem ReplaysIf.uniform {lasts : Except ε α → Prop} {act : ExceptT ε CanonicalM α}
    {P : α → TypeSystem → Prop}
    (h : ReplaysIf lasts act.run ts fun x us => ∀ a, x = .ok a → P a us) :
    Uniform Over act ts P := by
  obtain ⟨x, us, hyields, hext, hus, hx, -⟩ := h
  refine ⟨x, us, fun s hs => ?_, hext, hus, hx⟩
  obtain ⟨memo, heq, hrecalls⟩ := hyields s hs.1 hs.2
  exact ⟨_, heq, hrecalls, rfl⟩

theorem ReplaysIf.uniform_lift {lasts : α → Prop} {act : CanonicalM α} {P : α → TypeSystem → Prop}
    (h : ReplaysIf lasts act ts P) : Uniform Over (liftM act : ExceptT ε CanonicalM α) ts P := by
  obtain ⟨a, us, hyields, hext, hus, ha, -⟩ := h
  refine ⟨.ok a, us, fun s hs => ?_, hext, hus, fun _ h => Except.ok.inj h ▸ ha⟩
  obtain ⟨memo, heq, hrecalls⟩ := hyields s hs.1 hs.2
  exact ⟨_, congrArg (fun r : α × Canonicalizer => (Except.ok r.1, r.2)) heq, hrecalls, rfl⟩

theorem canonicalizeMember_uniform (hts : ts.Regular) {m : MemberId} (hm : InPlace m ts) :
    Uniform Over (canonicalizeMember m) ts fun _ _ => True :=
  (canonicalizeMember_replaysIf hts hm).uniform.mono fun _ _ _ _ _ => trivial

theorem mapM_canonicalizeMember_uniform (hts : ts.Regular) {ms : List MemberId}
    (hms : ∀ m ∈ ms, InPlace m ts) :
    Uniform Over (ms.mapM canonicalizeMember) ts fun _ _ => True :=
  .mapM_discard hts fun m hm _ hext hus =>
    canonicalizeMember_uniform hus ((hms m hm).of_le hts.valid hext.le)

theorem mapM_canonicalize_uniform (hts : ts.Regular) {tys : List TypeId}
    (htys : ∀ ty ∈ tys, ts.pool.Has ty) :
    Uniform Over (tys.mapM fun ty => (liftM (canonicalize ty) : ExceptT ε CanonicalM TypeId)) ts
      fun rs us => ∀ r ∈ rs, us.pool.IsNormal r :=
  Uniform.mapM (R := fun r us => us.pool.IsNormal r) (fun _ _ _ hfollows h => h.of_le hfollows.le.1)
    hts fun ty hty _ hext hus =>
    (canonicalize_replays hus ((htys ty hty).of_le hext.le.1)).uniform_lift.mono
      fun _ _ _ _ h => h.1.normal

end Canonicalizer

open Canonicalizer (Over InPlace canonicalizeMember_uniform mapM_canonicalizeMember_uniform
  mapM_canonicalize_uniform)

/-! ### Checking -/

namespace Validation

theorem checkNode_uniform (hts : ts.Regular) {a : Arena} {n : NodeId}
    (hn : ∀ m ∈ memberOf? a n, InPlace m ts) :
    Uniform Over (checkNode a n) ts fun _ _ => True := by
  unfold checkNode
  cases stringError? a n with
  | some e => exact .throw hts
  | none =>
    cases hm : memberOf? a n with
    | none => exact .pure hts trivial
    | some m =>
      refine (Canonicalizer.ReplaysIf.uniform_lift
        (Canonicalizer.canonicalizeMember_replaysIf hts (hn m hm))).bind fun x us _ hus _ => ?_
      cases x with
      | ok _ => exact .pure hus trivial
      | error e => exact .throw hus

theorem validate_uniform (hts : ts.Regular) {u : CompilationUnit}
    (hu : ∀ n ∈ u.nodes, ∀ m ∈ memberOf? u.arena n, InPlace m ts) :
    Uniform Over (validate u) ts fun _ _ => True := by
  refine Uniform.foldlM hts fun n hn checked us hext hus => ?_
  refine (checkNode_uniform hus fun m hm => (hu n hn m hm).of_le hts.valid hext.le).bind ?_
  exact fun _ _ _ hvs _ => .pure hvs trivial

end Validation

/-! ### Plans -/

namespace ClassPlan

/-- What a plan has to have for its symbols to be asked for. -/
structure IsNormal (plan : ClassPlan) (ts : TypeSystem) : Prop where
  type : ts.pool.IsNormal plan.type
  interfaces : ∀ ty ∈ plan.interfaces, ts.pool.Has ty

theorem IsNormal.of_le (hle : ts ≤ us) {plan : ClassPlan} (h : plan.IsNormal ts) :
    plan.IsNormal us :=
  ⟨h.type.of_le hle.1, fun ty hty => (h.interfaces ty hty).of_le hle.1⟩

theorem rawClass_uniform (hts : ts.Regular) (c : ClassId) :
    Uniform Over (liftM (liftM (liftM (Pool.rawClass c) : StateM TypeSystem TypeId) :
      CanonicalM TypeId) : ExceptT ε CanonicalM TypeId) ts fun ty us => us.pool.Has ty :=
  (Canonicalizer.ReplaysIf.lift hts (TypeSystem.lift_computes hts.valid
    (Pool.rawClass_computes hts.valid.pool c))).uniform_lift.mono fun _ _ _ _ h => h.has

theorem definitions_uniform (hts : ts.Regular) {d : ClassDecl}
    (hd : ∀ m ∈ d.members, InPlace m.member ts) :
    Uniform Over (definitions d) ts fun _ _ => True := by
  unfold definitions
  refine Uniform.get_bind (x := (d.members.filter (isDefinition ts)).mapM fun m =>
    Canonicalizer.canonicalizeMember m.member) (fun s hs => by rw [hs.2]) ?_
  refine .mapM_discard hts fun m hm us hext hus => ?_
  exact canonicalizeMember_uniform hus
    ((hd m (List.mem_filter.mp hm).1).of_le hts.valid hext.le)

theorem ofDecl_uniform (hts : ts.Regular) {d : ClassDecl}
    (hd : ∀ m ∈ d.members, InPlace m.member ts) :
    Uniform Over (ofDecl d) ts IsNormal := by
  unfold ofDecl
  refine (rawClass_uniform hts d.classId).bind fun raw us₁ hext₁ hus₁ hraw => ?_
  refine (Canonicalizer.canonicalize_replays hus₁ hraw).uniform_lift.bind ?_
  intro type us₂ hext₂ hus₂ htype
  refine Uniform.get_bind (x := do
    let interfaces ← (interfacesAbove us₂ d.classId).mapM fun c =>
      (liftM (liftM (liftM (Pool.rawClass c) : StateM TypeSystem TypeId) : CanonicalM TypeId) :
        ExceptT CanonError CanonicalM TypeId)
    let members ← definitions d
    let ts := (← get).types
    return {
      type
      isInterface := ts.isInterface d.classId
      interfaces
      procedures := members.filter fun m => !isField ts m
      staticFields := members.filter (isField ts) }) (fun s hs => by rw [hs.2]) ?_
  refine (Uniform.mapM (R := fun ty us => us.pool.Has ty) (fun _ _ _ h hty => hty.of_le h.le.1) hus₂
    fun c _ us _ hus => rawClass_uniform hus c).bind fun interfaces us₃ hext₃ hus₃ hinterfaces => ?_
  have hext := (hext₁.trans hext₂).trans hext₃
  refine (definitions_uniform hus₃ fun m hm => (hd m hm).of_le hts.valid hext.le).bind ?_
  intro members us₄ hext₄ hus₄ _
  refine Uniform.get_bind (x := pure {
    type
    isInterface := us₄.isInterface d.classId
    interfaces
    procedures := members.filter fun m => !isField us₄ m
    staticFields := members.filter (isField us₄) }) (fun s hs => by rw [hs.2]) ?_
  exact .pure hus₄ ⟨htype.1.normal.of_le (hext₃.trans hext₄).le.1, fun ty hty =>
    (hinterfaces ty hty).of_le hext₄.le.1⟩

end ClassPlan

/-! ### Compilers -/

namespace Compiler

variable {c : Compiler} {o : Options} {u : CompilationUnit}

/-- A compiler that remembers nothing but what it would find again. -/
structure Recalls (c : Compiler) (ts : TypeSystem) : Prop where
  canonical : Canonicalizer.Recalls ⟨ts, c.memo⟩
  layouts : c.layouts.Right ts

/-- A compiler that remembers nothing. -/
def fresh (o : Options) : Compiler := { options := o }

theorem fresh_recalls (hts : ts.Regular) (o : Options) : (fresh o).Recalls ts :=
  ⟨Canonicalizer.fresh_recalls hts, LayoutCache.right_empty ts⟩

theorem Recalls.of_follows (h : c.Recalls ts) (hfollows : Follows ts us) : c.Recalls us :=
  ⟨h.canonical.of_follows hfollows, h.layouts.of_follows h.canonical.regular.valid hfollows⟩

/-- The compilations of a unit over a type system by compilers that recall. -/
structure Compiling (o : Options) (u : CompilationUnit) (ts : TypeSystem) (s : Compilation) :
    Prop where
  options : s.compiler.options = o
  types : s.types = ts
  compiled : s.compiled = u
  recalls : s.compiler.Recalls ts

/-! Stages -/

theorem run_canonical (wrap : ε → CompileError) (act : ExceptT ε CanonicalM α) (s : Compilation) :
    (canonical wrap act).run s = ((act.run ⟨s.types, s.compiler.memo⟩).1.mapError wrap,
      { s with
        types := (act.run ⟨s.types, s.compiler.memo⟩).2.types
        compiler :=
          { s.compiler with memo := (act.run ⟨s.types, s.compiler.memo⟩).2.memo } }) := rfl

theorem canonical_uniform {wrap : ε → CompileError} {act : ExceptT ε CanonicalM α}
    {P : α → TypeSystem → Prop} (hts : ts.Regular) (h : Uniform Over act ts P) :
    Uniform (Compiling o u) (canonical wrap act) ts P := by
  obtain ⟨x, us, hrun, hext, hus, hx⟩ := h
  refine ⟨x.mapError wrap, us, fun s hs => ?_, hext, hus, fun a ha => hx a ?_⟩
  · obtain ⟨⟨types, memo⟩, heq, hrecalls, rfl⟩ :=
      hrun ⟨s.types, s.compiler.memo⟩ ⟨hs.types ▸ hs.recalls.canonical, hs.types⟩
    have hlayouts := hs.recalls.layouts.of_follows hts.valid (.of_extends hts hext hus.valid)
    refine ⟨{ s with types, compiler := { s.compiler with memo } }, ?_, hs.options, rfl,
      hs.compiled, hrecalls, hlayouts⟩
    rw [run_canonical, heq]
  · cases x with
    | ok b => exact congrArg Except.ok (Except.ok.inj ha)
    | error e => cases ha

theorem run_cached (act : TypeSystem → ExceptT MangleError (StateM LayoutCache) α)
    (s : Compilation) : (cached act).run s =
      (((act s.types).run s.compiler.layouts).1.mapError .mangle,
        { s with compiler :=
          { s.compiler with layouts := ((act s.types).run s.compiler.layouts).2 } }) := rfl

theorem cached_uniform {act : TypeSystem → ExceptT MangleError (StateM LayoutCache) α}
    (hts : ts.Regular) {x : Except MangleError α} (h : ∀ cache : LayoutCache, cache.Right ts →
      ∃ cache', (act ts).run cache = (x, cache') ∧ cache'.Right ts) :
    Uniform (Compiling o u) (cached act) ts fun _ _ => True := by
  refine ⟨x.mapError CompileError.mangle, ts, fun s hs => ?_, .refl ts, hts, fun _ _ => trivial⟩
  obtain ⟨cache, heq, hright⟩ := h s.compiler.layouts hs.recalls.layouts
  refine ⟨{ s with compiler := { s.compiler with layouts := cache } }, ?_, hs.options, hs.types,
    hs.compiled, hs.recalls.canonical, hright⟩
  rw [run_cached, hs.types, heq]

theorem mangled_uniform (hts : ts.Regular) (symbol : TypeSystem → Except MangleError Symbol) :
    Uniform (Compiling o u) (mangled symbol) ts fun _ _ => True := by
  unfold mangled
  cases hsymbol : symbol ts with
  | ok y => exact Uniform.get_bind (fun s hs => by rw [hs.types, hsymbol]) (.pure hts trivial)
  | error e => exact Uniform.get_bind (fun s hs => by rw [hs.types, hsymbol]) (.throw hts)

theorem mapM_mangled_uniform (hts : ts.Regular) {ms : List MemberId}
    {symbol : MemberId → TypeSystem → Except MangleError Symbol} :
    Uniform (Compiling o u) (ms.mapM fun m => mangled (symbol m)) ts fun _ _ => True :=
  .mapM_discard hts fun m _ _ _ hus => mangled_uniform hus (symbol m)

/-- The symbols of the interface tables that a class keeps; an interface keeps none. -/
def tableSymbols (plan : ClassPlan) : CompileM (List String) :=
  if plan.isInterface then pure []
  else plan.interfaces.mapM fun iface =>
    cached fun ts => LayoutCache.interfaceTable ts iface plan.type

/-- What a class adds once its layout and its tables are there: these, and the symbols of its
members. -/
def memberSymbols (symbols : UnitSymbols) (plan : ClassPlan) (layout : ClassLayout)
    (tables : List String) : CompileM UnitSymbols := do
  let procedures ← plan.procedures.mapM fun m => mangled (·.procedureSymbol m)
  let staticFields ← plan.staticFields.mapM fun m => mangled (·.staticFieldSymbol m)
  let ofLayout := [layout.size, layout.table, layout.classInit, layout.interfacesInit]
    ++ layout.descriptor.toList
  return { symbols with
    types := symbols.types.addAll [layout.typeName, layout.tableTypeName]
    defined := symbols.defined.addAll (ofLayout ++ tables ++ procedures ++ staticFields) }

/-- The layout comes first, then the interface tables, and then the members. -/
theorem classSymbols_eq (symbols : UnitSymbols) (plan : ClassPlan) :
    classSymbols symbols plan = (do
      let layout ← cached fun ts => LayoutCache.layout ts plan.type
      let tables ← tableSymbols plan
      memberSymbols symbols plan layout tables) := by
  unfold classSymbols tableSymbols memberSymbols
  split <;> rfl

theorem tableSymbols_uniform (hts : ts.Regular) {plan : ClassPlan} (hplan : plan.IsNormal ts) :
    Uniform (Compiling o u) (tableSymbols plan) ts fun _ _ => True := by
  unfold tableSymbols
  split
  · exact .pure hts trivial
  · refine Uniform.mapM_discard hts fun iface hiface us hext hus => ?_
    have hplan' := hplan.of_le hext.le
    exact cached_uniform hus fun _ hcache => LayoutCache.interfaceTable_eq hcache
      (hplan'.interfaces iface hiface) hplan'.type.has

theorem classSymbols_uniform (hts : ts.Regular) {plan : ClassPlan} (hplan : plan.IsNormal ts)
    (symbols : UnitSymbols) :
    Uniform (Compiling o u) (classSymbols symbols plan) ts fun _ _ => True := by
  rw [classSymbols_eq]
  refine (cached_uniform hts fun _ hcache => LayoutCache.layout_eq hcache hplan.type).bind ?_
  intro layout us₁ hext₁ hus₁ _
  refine (tableSymbols_uniform hus₁ (hplan.of_le hext₁.le)).bind ?_
  intro tables us₂ _ hus₂ _
  refine (mapM_mangled_uniform hus₂).bind ?_
  intro procedures us₃ _ hus₃ _
  exact (mapM_mangled_uniform hus₃).bind fun staticFields us₄ _ hus₄ _ => .pure hus₄ trivial

theorem allocationSymbols_uniform (hts : ts.Regular) {ty : TypeId} (hty : ts.pool.IsNormal ty) :
    Uniform (Compiling o u) (allocationSymbols ty) ts fun _ _ => True := by
  unfold allocationSymbols
  refine (cached_uniform hts fun _ hcache => LayoutCache.layout_eq hcache hty).bind ?_
  exact fun _ _ _ hus _ => .pure hus trivial

theorem validated_uniform (hts : ts.Regular)
    (hu : ∀ n ∈ u.nodes, ∀ m ∈ Validation.memberOf? u.arena n, InPlace m ts) :
    Uniform (Compiling o u) validated ts fun _ _ => True := by
  unfold validated
  refine Uniform.get_bind (x := if o.validate then
    discard <| canonical .tree (Validation.validate u) else pure ⟨⟩)
    (fun s hs => by rw [hs.options, hs.compiled]) ?_
  split
  · exact (canonical_uniform hts (Validation.validate_uniform hts hu)).discard
  · exact .pure hts trivial

/-! ### Units -/

end Compiler

namespace CompilationUnit

/-- The types that nodes have are there, and the members that nodes and declarations name are seen in
place. -/
structure IsInPlace (u : CompilationUnit) (ts : TypeSystem) : Prop where
  members : ∀ {n}, u.HasNode n → ∀ m ∈ Validation.memberOf? u.arena n, InPlace m ts
  types : ∀ {e}, u.HasNode (.expr e) → ts.pool.Has (u.arena.expr e).type
  declared : ∀ c ∈ u.classes, ∀ d ∈ c.members, InPlace d.member ts

/-- The nodes of a unit, and all that will be added to its arena. -/
def HasNodeOrNew (u : CompilationUnit) (n : NodeId) : Prop :=
  u.HasNode n ∨ match n with
    | .expr e => u.arena.exprs.size ≤ e.index
    | .stmt s => u.arena.stmts.size ≤ s.index

theorem accepts_inPlace : Builder.AcceptsMembers InPlace where
  stable hts hext _ h := h.of_le hts hext.le
  view {ts m} hts hm := by
    cases hm with
    | declared hm => exact .plain (Canonicalizer.isPlain_of_declared hts hm)
    | @image _ _ _ container _ _ _ _ hcontainer _ hkey =>
      have hsame : (ts.member m).container = container := hkey.container_eq
      exact .instance hkey.hasMember (hsame.symm ▸ hcontainer)

/-- Nodes that are not there yet have no children. -/
theorem sound_of_nodes {Q : Mention → TypeSystem → Prop} {u : CompilationUnit} (hts : ts.Valid)
    (hstring : ts.pool.Has .string)
    (hmentions : ∀ {n}, u.HasNode n → ∀ x ∈ u.arena.mentions n, Q x ts)
    (htypes : ∀ {e}, u.HasNode (.expr e) → ts.pool.Has (u.arena.expr e).type) :
    Builder.Sound Q u.HasNodeOrNew ⟨ts, u.arena, .generated⟩ where
  string := hstring
  newExpr h := Or.inr h
  newStmt h := Or.inr h
  children {n} hn c hc := by
    rcases hn with hn | hn
    · exact Or.inl (hn.child hc)
    · cases n with
      | expr e =>
        rw [Arena.children, Arena.expr_of_size_le hn] at hc
        exact absurd hc List.not_mem_nil
      | stmt s =>
        rw [Arena.children, Arena.stmt_of_size_le hn] at hc
        exact absurd hc List.not_mem_nil
  mentions {n} hn x hx := by
    rcases hn with hn | hn
    · exact hmentions hn x hx
    · cases n with
      | expr e =>
        rw [Arena.mentions, Arena.expr_of_size_le hn] at hx
        exact absurd hx List.not_mem_nil
      | stmt s =>
        rw [Arena.mentions, Arena.stmt_of_size_le hn] at hx
        exact absurd hx List.not_mem_nil
  types {e} he := by
    rcases he with he | he
    · exact htypes he
    · rw [Builder.typeOf, Arena.expr_of_size_le he]
      exact (hts.pool.prims .boolean).has

end CompilationUnit

/-! ### References -/

namespace Reference

/-- What a node refers to is what it names. -/
theorem ofNode_cases {a : Arena} {n : NodeId} {r : Reference} (h : r ∈ ofNode ts a n) :
    (∃ m ∈ Validation.memberOf? a n, r = .procedure m ∨ r = .staticField m) ∨
      ∃ e, n = .expr e ∧ r = .allocation (a.expr e).type := by
  cases n with
  | expr e =>
    unfold ofNode at h
    rw [Validation.memberOf?_expr]
    dsimp only at h
    split at h
    · rename_i hk
      rw [hk]
      exact .inl ⟨_, rfl, .inl (List.mem_singleton.mp h)⟩
    · rename_i hk
      rw [hk]
      rcases List.mem_cons.mp h with rfl | h
      · exact .inl ⟨_, rfl, .inl rfl⟩
      · exact .inr ⟨e, rfl, List.mem_singleton.mp h⟩
    · rename_i hk
      rw [hk]
      split at h
      · exact .inl ⟨_, rfl, .inr (List.mem_singleton.mp h)⟩
      · exact absurd h List.not_mem_nil
    · exact absurd h List.not_mem_nil
  | stmt s =>
    unfold ofNode at h
    rw [Validation.memberOf?_stmt]
    dsimp only at h
    split at h
    · rename_i hk
      rw [hk]
      exact .inl ⟨_, rfl, .inl (List.mem_singleton.mp h)⟩
    · exact absurd h List.not_mem_nil

/-- What a unit refers to is of the kind of what its nodes name. -/
theorem of_nodes {Q : MemberId → TypeSystem → Prop} {v : CompilationUnit}
    (hmembers : ∀ n ∈ v.nodes, ∀ m ∈ Validation.memberOf? v.arena n, Q m ts)
    (htypes : ∀ e, .expr e ∈ v.nodes → ts.pool.Has (v.arena.expr e).type) (us : TypeSystem) :
    (∀ m ∈ procedures (ofUnit us v), Q m ts) ∧ (∀ m ∈ staticFields (ofUnit us v), Q m ts) ∧
      ∀ ty ∈ allocations (ofUnit us v), ts.pool.Has ty := by
  have hall : ∀ r ∈ ofUnit us v, (∃ m, Q m ts ∧
      (r = .procedure m ∨ r = .staticField m)) ∨ ∃ ty, ts.pool.Has ty ∧ r = .allocation ty := by
    intro r hr
    obtain ⟨n, hn, hr⟩ := List.mem_flatMap.mp hr
    rcases ofNode_cases hr with ⟨m, hm, hr⟩ | ⟨e, rfl, rfl⟩
    · exact .inl ⟨m, hmembers n hn m hm, hr⟩
    · exact .inr ⟨_, htypes e hn, rfl⟩
  refine ⟨fun m hm => ?_, fun m hm => ?_, fun ty hty => ?_⟩
  · obtain ⟨r, hr, hrm⟩ := List.mem_filterMap.mp hm
    rcases hall r hr with ⟨m', hm', rfl | rfl⟩ | ⟨_, -, rfl⟩ <;> cases hrm
    exact hm'
  · obtain ⟨r, hr, hrm⟩ := List.mem_filterMap.mp hm
    rcases hall r hr with ⟨m', hm', rfl | rfl⟩ | ⟨_, -, rfl⟩ <;> cases hrm
    exact hm'
  · obtain ⟨r, hr, hrm⟩ := List.mem_filterMap.mp hty
    rcases hall r hr with ⟨m', hm', rfl | rfl⟩ | ⟨_, hty', rfl⟩ <;> cases hrm
    exact hty'

end Reference

namespace Compiler

open CompilationUnit (IsInPlace HasNodeOrNew)

variable {o : Options} {u : CompilationUnit}

/-- The members and types that a desugared unit refers to. -/
structure Desugared (v : CompilationUnit) (ts : TypeSystem) : Prop where
  members : ∀ n ∈ v.nodes, ∀ m ∈ Validation.memberOf? v.arena n, InPlace m ts
  types : ∀ e, .expr e ∈ v.nodes → ts.pool.Has (v.arena.expr e).type
  declared : ∀ c ∈ v.classes, ∀ d ∈ c.members, InPlace d.member ts

theorem Desugared.of_extends (hts : ts.Valid) (hext : TypeSystem.Extends ts us)
    {v : CompilationUnit} (h : Desugared v ts) : Desugared v us where
  members n hn m hm := (h.members n hn m hm).of_le hts hext.le
  types e he := (h.types e he).of_le hext.le.1
  declared c hc d hd := (h.declared c hc d hd).of_le hts hext.le

theorem Desugared.references {v : CompilationUnit} (h : Desugared v ts) (us : TypeSystem) :
    (∀ m ∈ Reference.procedures (Reference.ofUnit us v), InPlace m ts) ∧
      (∀ m ∈ Reference.staticFields (Reference.ofUnit us v), InPlace m ts) ∧
      ∀ ty ∈ Reference.allocations (Reference.ofUnit us v), ts.pool.Has ty :=
  Reference.of_nodes h.members h.types us

/-- What the nodes of a unit mention is still accepted when it is desugared. -/
theorem desugar_mentions {Q : Mention → TypeSystem → Prop} (hQ : Builder.Accepts Q) (hts : ts.Valid)
    (hstring : ts.pool.Has .string)
    (hmentions : ∀ {n}, u.HasNode n → ∀ x ∈ u.arena.mentions n, Q x ts)
    (htypes : ∀ {e}, u.HasNode (.expr e) → ts.pool.Has (u.arena.expr e).type) :
    let d := (StringForm.desugar ts u).2
    TypeSystem.Extends ts d.1 ∧ d.1.Valid ∧ d.2.classes = u.classes ∧
      (∀ n ∈ d.2.nodes, ∀ x ∈ d.2.arena.mentions n, Q x d.1) ∧
      ∀ e, .expr e ∈ d.2.nodes → d.1.pool.Has (d.2.arena.expr e).type := by
  obtain ⟨hext, hvalid, hsound, hclasses⟩ := StringForm.desugar_keeps hQ hts
    (CompilationUnit.sound_of_nodes hts hstring hmentions htypes) fun n hn => Or.inl (.root hn)
  have hroots : (StringForm.desugar ts u).2.2.roots = u.roots := by
    rw [CompilationUnit.roots, hclasses, CompilationUnit.roots]
  have hnodes : ∀ n ∈ (StringForm.desugar ts u).2.2.nodes, u.HasNodeOrNew n := fun n hn =>
    CompilationUnit.of_mem_nodes hsound.children
      (fun m hm => Or.inl (.root (hroots ▸ hm))) hn
  exact ⟨hext, hvalid, hclasses, fun n hn => hsound.mentions (hnodes n hn),
    fun e he => hsound.types (hnodes _ he)⟩

/-- The members that the nodes of a unit name are still accepted when it is desugared. -/
theorem desugar_nodes {P : MemberId → TypeSystem → Prop} (hP : Builder.AcceptsMembers P)
    (hts : ts.Valid) (hstring : ts.pool.Has .string)
    (hmembers : ∀ {n}, u.HasNode n → ∀ m ∈ Validation.memberOf? u.arena n, P m ts)
    (htypes : ∀ {e}, u.HasNode (.expr e) → ts.pool.Has (u.arena.expr e).type) :
    let d := (StringForm.desugar ts u).2
    TypeSystem.Extends ts d.1 ∧ d.1.Valid ∧ d.2.classes = u.classes ∧
      (∀ n ∈ d.2.nodes, ∀ m ∈ Validation.memberOf? d.2.arena n, P m d.1) ∧
      ∀ e, .expr e ∈ d.2.nodes → d.1.pool.Has (d.2.arena.expr e).type := by
  obtain ⟨hext, hvalid, hclasses, hmentions, htypes'⟩ := desugar_mentions hP.accepts hts hstring
    (fun hn x hx m hm => hmembers hn m (Validation.mem_memberOf?_iff.mpr ⟨x, hx, hm⟩)) htypes
  refine ⟨hext, hvalid, hclasses, fun n hn m hm => ?_, htypes'⟩
  obtain ⟨x, hx, hm⟩ := Validation.mem_memberOf?_iff.mp hm
  exact hmentions n hn x hx m hm

/-- A unit in place is still in place when it is desugared. -/
theorem desugared_of_isInPlace (hts : ts.Regular) (hstring : ts.pool.Has .string)
    (hu : u.IsInPlace ts) :
    TypeSystem.Extends ts (StringForm.desugar ts u).2.1 ∧ (StringForm.desugar ts u).2.1.Regular ∧
      Desugared (StringForm.desugar ts u).2.2 (StringForm.desugar ts u).2.1 := by
  obtain ⟨hext, hvalid, hclasses, hmembers, htypes⟩ :=
    desugar_nodes CompilationUnit.accepts_inPlace hts.valid hstring hu.members hu.types
  refine ⟨hext, hts.of_extends hext hvalid, hmembers, htypes, ?_⟩
  rw [hclasses]
  exact fun c hc d hd => (hu.declared c hc d hd).of_le hts.valid hext.le

theorem mapM_allocationSymbols_uniform (hts : ts.Regular) {tys : List TypeId}
    (htys : ∀ ty ∈ tys, ts.pool.IsNormal ty) :
    Uniform (Compiling o u) (tys.mapM allocationSymbols) ts fun _ _ => True :=
  .mapM_discard hts fun ty hty _ hext hus =>
    allocationSymbols_uniform hus ((htys ty hty).of_le hext.le.1)

theorem run_desugared_bind (f : Unit → CompileM α) (s : Compilation) :
    (desugared >>= f).run s =
      match (StringForm.desugar s.types s.compiled).1 with
      | .ok _ => (f ()).run { s with
          types := (StringForm.desugar s.types s.compiled).2.1
          compiled := (StringForm.desugar s.types s.compiled).2.2 }
      | .error e => (.error (.tree e), { s with
          types := (StringForm.desugar s.types s.compiled).2.1
          compiled := (StringForm.desugar s.types s.compiled).2.2 }) := by
  show ExceptT.bindCont f (((StringForm.desugar s.types s.compiled).1.map fun _ => ()).mapError .tree)
    _ = _
  cases (StringForm.desugar s.types s.compiled).1 <;> rfl

/-- Work on a desugared unit that gives one answer. -/
theorem desugared_bind_transparent (hts : ts.Regular) (hstring : ts.pool.Has .string)
    (hu : u.IsInPlace ts) {f : Unit → CompileM α}
    (hf : ∀ us v, us.Regular → Desugared v us → Uniform (Compiling o v) (f ()) us fun _ _ => True) :
    ∃ x us v, TypeSystem.Extends ts us ∧ ∀ c : Compiler, c.options = o → c.Recalls ts →
      ∃ c', (desugared >>= f).run ⟨c, ts, u⟩ = (x, ⟨c', us, v⟩) ∧ c'.options = o ∧ c'.Recalls us := by
  obtain ⟨hext, hus, hv⟩ := desugared_of_isInPlace hts hstring hu
  have hrun : ∀ c, _ := fun c => run_desugared_bind f ⟨c, ts, u⟩
  dsimp only at hrun
  generalize StringForm.desugar ts u = desugared at hext hus hv hrun
  obtain ⟨result, us, v⟩ := desugared
  have hfollows : Follows ts us := .of_extends hts hext hus.valid
  cases result with
  | error e => exact ⟨_, us, v, hext, fun c ho hc => ⟨c, hrun c, ho, hc.of_follows hfollows⟩⟩
  | ok counts =>
    obtain ⟨x, vs, huniform, hext', -, -⟩ := hf us v hus hv
    refine ⟨x, vs, v, hext.trans hext', fun c ho hc => ?_⟩
    obtain ⟨⟨c', types, compiled⟩, heq, ho', htypes, hcompiled, hrecalls⟩ :=
      huniform ⟨c, us, v⟩ ⟨ho, rfl, rfl, hc.of_follows hfollows⟩
    obtain rfl : types = vs := htypes
    obtain rfl : compiled = v := hcompiled
    exact ⟨c', (hrun c).trans heq, ho', hrecalls⟩

/-- Whatever a compiler remembers that recalls, compiling a unit in place gives one answer, and the
compiler recalls afterwards. -/
theorem compile_transparent (hts : ts.Regular) (hstring : ts.pool.Has .string)
    (hu : u.IsInPlace ts) :
    ∃ x us v, TypeSystem.Extends ts us ∧ ∀ c : Compiler, c.options = o → c.Recalls ts →
      ∃ c', c.compile ts u = (x, ⟨c', us, v⟩) ∧ c'.options = o ∧ c'.Recalls us := by
  unfold compile unitSymbols
  refine desugared_bind_transparent hts hstring hu fun us v hus hv => ?_
  refine (validated_uniform hus hv.members).bind fun _ us₁ hext₁ hus₁ _ => ?_
  have hv₁ := hv.of_extends hus.valid hext₁
  refine Uniform.get_bind (x := ?_) (fun s hs => ?_) ?_
  rotate_left
  · rw [hs.compiled]
  refine (canonical_uniform hus₁ (Uniform.mapM (R := ClassPlan.IsNormal)
    (fun _ _ _ hfollows h => h.of_le hfollows.le) hus₁ fun d hd us hext hus => ?_)).bind
    fun plans us₂ hext₂ hus₂ hplans => ?_
  · exact ClassPlan.ofDecl_uniform hus fun m hm =>
      (hv₁.declared d hd m hm).of_le hus₁.valid hext.le
  refine Uniform.get_bind (x := ?_) (fun s hs => ?_) ?_
  rotate_left
  · rw [hs.types]
  obtain ⟨hprocedures, hstatics, hallocations⟩ :=
    (hv₁.of_extends hus₁.valid hext₂).references us₂
  refine (canonical_uniform hus₂ (mapM_canonicalizeMember_uniform hus₂ hprocedures)).bind
    fun procedures us₃ hext₃ hus₃ _ => ?_
  refine (canonical_uniform hus₃ (mapM_canonicalizeMember_uniform hus₃ fun m hm =>
    (hstatics m hm).of_le hus₂.valid hext₃.le)).bind fun staticFields us₄ hext₄ hus₄ _ => ?_
  have hext₂₄ := hext₃.trans hext₄
  refine (canonical_uniform hus₄ (mapM_canonicalize_uniform hus₄ fun ty hty =>
    (hallocations ty hty).of_le hext₂₄.le.1)).bind fun allocations us₅ hext₅ hus₅ hnormal => ?_
  have hext₂₅ := hext₂₄.trans hext₅
  refine (Uniform.foldlM hus₅ fun plan hplan symbols us hext hus => classSymbols_uniform hus
    ((hplans plan hplan).of_le (hext₂₅.trans hext).le) symbols).bind fun symbols us₆ hext₆ hus₆ _ => ?_
  refine (mapM_mangled_uniform hus₆).bind fun called us₇ hext₇ hus₇ _ => ?_
  refine (mapM_mangled_uniform hus₇).bind fun accessed us₈ hext₈ hus₈ _ => ?_
  have hext₅₈ := (hext₆.trans hext₇).trans hext₈
  refine (mapM_allocationSymbols_uniform hus₈ fun ty hty =>
    (hnormal ty hty).of_le hext₅₈.le.1).bind fun allocated us₉ _ hus₉ _ => ?_
  exact .pure hus₉ trivial

end Compiler

end Erasure
