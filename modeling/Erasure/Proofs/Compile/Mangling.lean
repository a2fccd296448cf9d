/-
Compilations for which every symbol can be made.

A unit that is assembled by a builder is resolved: its nodes mention what lookups find. When declared
formals and bounds can be stored as well, everything that is gathered of the unit has a symbol. The
main statements:

* `symbolsOf_succeeds`: symbols are made of everything that has them, whatever layouts are remembered.
* `Gathered.IsOf.hasSymbols`: what is gathered of a resolved unit has symbols.
* `compile_ne_mangle`: compiling a resolved unit does not fail for want of a symbol.
* `compile_assembled_ne_mangle`: nor does it for a unit that is assembled by a builder.
-/
import Erasure.Proofs.Compile.Linking
import Erasure.Proofs.Symbol.Existence
import Erasure.Proofs.Tree.Assembly

namespace Erasure

variable {ts us : TypeSystem}

/-! ### References -/

namespace Reference

/-- The reference is to what a lookup finds, or to a class type. -/
def IsResolved (ts : TypeSystem) : Reference → Prop
  | procedure m => ts.IsViewOf .procedure m
  | staticField m => ts.IsViewOf .field m ∧ (ts.member m).flags.isStatic = true
  | allocation ty => ts.pool.Has ty ∧ (ts.classOf? ty).isSome

theorem isResolved_of_mentions {a : Arena} {n : NodeId} (h : ∀ x ∈ a.mentions n, x.IsResolved ts) :
    ∀ r ∈ ofNode ts a n, r.IsResolved ts := by
  intro r hr
  cases n with
  | expr e =>
    unfold Arena.mentions Expr.mentions at h
    unfold ofNode at hr
    dsimp only at h hr
    cases hk : (a.expr e).kind with
    | call receiver m args dispatch =>
      simp only [hk, List.mem_singleton] at h hr
      exact hr ▸ h _ rfl
    | new m outer args =>
      simp only [hk, List.mem_cons, List.not_mem_nil, or_false] at h hr
      rcases hr with rfl | rfl
      · exact h _ (.inl rfl)
      · exact h _ (.inr rfl)
    | field receiver m =>
      simp only [hk, List.forall_mem_singleton] at h hr
      split at hr
      case isTrue hstatic => exact List.mem_singleton.mp hr ▸ ⟨h, hstatic⟩
      case isFalse => exact absurd hr List.not_mem_nil
    | _ =>
      rw [hk] at hr
      exact absurd hr List.not_mem_nil
  | stmt s =>
    unfold Arena.mentions Stmt.mentions at h
    unfold ofNode at hr
    dsimp only at h hr
    cases hk : (a.stmt s).kind with
    | constructorCall kind m args =>
      simp only [hk, List.mem_singleton] at h hr
      exact hr ▸ h _ rfl
    | _ =>
      rw [hk] at hr
      exact absurd hr List.not_mem_nil

end Reference

/-! ### Units -/

/-- What is declared can be linked, and it is of the form of the declaration. -/
structure MemberDecl.IsLinkable (d : MemberDecl) (ts : TypeSystem) : Prop where
  member : ts.IsLinkable d.member
  form : (ts.member d.member).kind.form = d.body.form

theorem MemberDecl.IsResolved.isLinkable {d : MemberDecl} (h : d.IsResolved ts)
    (hformals : ∀ ty ∈ (ts.member d.member).kind.formals, ts.pool.IsStorable ty) :
    d.IsLinkable ts :=
  ⟨⟨h.hasMember, h.raw, h.generic, hformals⟩, h.form⟩

theorem MemberDecl.IsLinkable.of_le (hle : ts ≤ us) {d : MemberDecl} (h : d.IsLinkable ts) :
    d.IsLinkable us :=
  ⟨h.member.of_le hle, by rw [TypeSystem.member_of_le hle h.member.hasMember, h.form]⟩

namespace CompilationUnit

theorem IsResolved.isKnown (hts : ts.Valid) {u : CompilationUnit} (h : u.IsResolved ts) :
    u.IsKnown ts where
  members hn m hm := by
    obtain ⟨x, hx, hxm⟩ := Validation.mem_memberOf?_iff.mp hm
    exact (h.mentions hn x hx).hasMember hts m hxm
  types := h.types
  declared c hc d hd := (h.declared c hc d hd).hasMember

/-- The formals of what the unit declares can be stored. -/
def DeclaresStorable (u : CompilationUnit) (ts : TypeSystem) : Prop :=
  ∀ c ∈ u.classes, ∀ d ∈ c.members, ∀ ty ∈ (ts.member d.member).kind.formals, ts.pool.IsStorable ty

end CompilationUnit

namespace Compiler

open CompilationUnit (IsResolved)

variable {α β : Type}

/-! ### Work that succeeds -/

/-- The work gives an answer over the type system, whatever is remembered, and leaves the type system
as it is. -/
def Succeeds (act : CompileM α) (ts : TypeSystem) : Prop :=
  ∀ s : Compilation, s.types = ts → ∃ a t, act.run s = (.ok a, t) ∧ t.types = ts

namespace Succeeds

theorem pure (a : α) : Succeeds (pure a) ts := fun s hs => ⟨a, s, rfl, hs⟩

theorem bind {act : CompileM α} {f : α → CompileM β} (h : Succeeds act ts)
    (hf : ∀ a, Succeeds (f a) ts) : Succeeds (act >>= f) ts := by
  intro s hs
  obtain ⟨a, t, hrun, ht⟩ := h s hs
  obtain ⟨b, u, hrun', hu⟩ := hf a t ht
  exact ⟨b, u, (run_bind_of_ok hrun).trans hrun', hu⟩

theorem mapM {f : α → CompileM β} {as : List α} (h : ∀ a ∈ as, Succeeds (f a) ts) :
    Succeeds (as.mapM f) ts := by
  induction as with
  | nil => exact .pure []
  | cons a as ih =>
    obtain ⟨ha, has⟩ := List.forall_mem_cons.mp h
    rw [List.mapM_cons]
    apply ha.bind
    intro b
    apply (ih has).bind
    intro bs
    exact .pure (b :: bs)

theorem foldlM {f : β → α → CompileM β} {as : List α} (h : ∀ a ∈ as, ∀ b, Succeeds (f b a) ts)
    (b : β) : Succeeds (as.foldlM f b) ts := by
  induction as generalizing b with
  | nil => exact .pure b
  | cons a as ih =>
    obtain ⟨ha, has⟩ := List.forall_mem_cons.mp h
    rw [List.foldlM_cons]
    exact (ha b).bind (ih has)

end Succeeds

theorem mangled_succeeds {symbol : TypeSystem → Except MangleError Symbol}
    (h : ∃ y, symbol ts = .ok y) : Succeeds (mangled symbol) ts := by
  intro s hs
  obtain ⟨y, hy⟩ := h
  refine ⟨y.encode, s, ?_, hs⟩
  rw [mangled, run_get_bind_apply, hs, hy]
  rfl

/-- A request to the layout cache that is answered whatever is cached. -/
theorem cached_succeeds {act : TypeSystem → ExceptT MangleError (StateM LayoutCache) α}
    (h : ∀ cache, ∃ a, ((act ts).run cache).1 = .ok a) : Succeeds (cached act) ts := by
  intro s hs
  obtain ⟨a, ha⟩ := h s.compiler.layouts
  rw [run_cached, hs, ha]
  exact ⟨a, _, rfl, rfl⟩

theorem layout_succeeds {ty : TypeId} {c : ClassId} (hk : ts.pool.HasKind ty (.raw c)) :
    Succeeds (cached fun ts => LayoutCache.layout ts ty) ts := by
  apply cached_succeeds
  intro cache
  have hkey : LayoutCache.keyOf ts ty = .ok (.classDef c) := by
    rw [LayoutCache.keyOf, TypeSystem.classOf?, show ts.kind ty = _ from hk.kind_eq]
    rfl
  unfold LayoutCache.layout
  rw [hkey, run_lift_ok_bind_apply, run_get_bind_apply]
  cases cache.layouts.find? (.classDef c) with
  | some known => exact ⟨known, rfl⟩
  | none =>
    rw [LayoutCache.layoutOf_raw hk.kind_eq]
    exact ⟨_, rfl⟩

theorem interfaceTable_succeeds {iface ty : TypeId} {c d : ClassId}
    (hiface : ts.pool.HasKind iface (.raw c)) (hinterface : ts.isInterface c = true)
    (hk : ts.pool.HasKind ty (.raw d)) :
    Succeeds (cached fun ts => LayoutCache.interfaceTable ts iface ty) ts := by
  apply cached_succeeds
  intro cache
  unfold LayoutCache.interfaceTable
  rw [run_get_bind_apply]
  cases cache.interfaceTables.find? (iface, ty) with
  | some known => exact ⟨known, rfl⟩
  | none =>
    rw [TypeSystem.interfaceTableSymbol_raw hiface hinterface hk]
    exact ⟨_, rfl⟩

/-! ### Symbols of what was gathered -/

end Compiler

/-- The class of the plan is raw, and so are the interfaces above it. What it defines has symbols. -/
structure ClassPlan.HasSymbols (plan : ClassPlan) (ts : TypeSystem) : Prop where
  type : ∃ c, ts.pool.HasKind plan.type (.raw c)
  interfaces : ∀ ty ∈ plan.interfaces, ∃ c, ts.pool.HasKind ty (.raw c) ∧ ts.isInterface c = true
  procedures : ∀ m ∈ plan.procedures, ∃ y, ts.procedureSymbol m = .ok y
  staticFields : ∀ m ∈ plan.staticFields, ∃ y, ts.staticFieldSymbol m = .ok y

namespace Compiler

open CompilationUnit (IsResolved)

/-- Everything that was gathered has symbols. -/
structure Gathered.HasSymbols (g : Gathered) (ts : TypeSystem) : Prop where
  plans : ∀ plan ∈ g.plans, plan.HasSymbols ts
  procedures : ∀ m ∈ g.procedures, ∃ y, ts.procedureSymbol m = .ok y
  staticFields : ∀ m ∈ g.staticFields, ∃ y, ts.staticFieldSymbol m = .ok y
  allocations : ∀ ty ∈ g.allocations, ∃ c, ts.pool.HasKind ty (.raw c)

theorem tableSymbols_succeeds {plan : ClassPlan} (h : plan.HasSymbols ts) :
    Succeeds (tableSymbols plan) ts := by
  obtain ⟨c, hc⟩ := h.type
  unfold tableSymbols
  split
  · exact .pure []
  · apply Succeeds.mapM
    intro iface hiface
    obtain ⟨d, hd, hinterface⟩ := h.interfaces iface hiface
    exact interfaceTable_succeeds hd hinterface hc

theorem classSymbols_succeeds {plan : ClassPlan} (h : plan.HasSymbols ts) (symbols : UnitSymbols) :
    Succeeds (classSymbols symbols plan) ts := by
  obtain ⟨c, hc⟩ := h.type
  rw [classSymbols_eq]
  apply (layout_succeeds hc).bind
  intro layout
  apply (tableSymbols_succeeds h).bind
  intro tables
  apply (Succeeds.mapM fun m hm => mangled_succeeds (h.procedures m hm)).bind
  intro procedures
  apply (Succeeds.mapM fun m hm => mangled_succeeds (h.staticFields m hm)).bind
  intro staticFields
  exact .pure _

theorem allocationSymbols_succeeds {ty : TypeId} {c : ClassId} (hk : ts.pool.HasKind ty (.raw c)) :
    Succeeds (allocationSymbols ty) ts :=
  (layout_succeeds hk).bind fun _ => .pure _

/-- Symbols are made of everything that has them. -/
theorem symbolsOf_succeeds {g : Gathered} (h : g.HasSymbols ts) : Succeeds (symbolsOf g) ts := by
  unfold symbolsOf
  apply (Succeeds.foldlM (fun plan hplan => classSymbols_succeeds (h.plans plan hplan)) {}).bind
  intro symbols
  apply (Succeeds.mapM fun m hm => mangled_succeeds (h.procedures m hm)).bind
  intro called
  apply (Succeeds.mapM fun m hm => mangled_succeeds (h.staticFields m hm)).bind
  intro accessed
  apply Succeeds.bind
  · apply Succeeds.mapM
    intro ty hty
    obtain ⟨c, hc⟩ := h.allocations ty hty
    exact allocationSymbols_succeeds hc
  · exact fun allocated => .pure _

/-! ### Symbols of a resolved unit -/

section Resolved

variable {t : Canonicalizer}

open TypeSystem (IsLinkable SameForm)

/-- The canonical form of a class type is raw. -/
theorem exists_raw_of_find? (ht : t.Consistent) {ty r : TypeId}
    (hclass : (t.types.classOf? ty).isSome) (hty : t.types.pool.Has ty)
    (hfind : t.memo.types.find? ty = some r) : ∃ c, t.types.pool.HasKind r (.raw c) := by
  have hkind := hty.hasKind
  unfold TypeSystem.classOf? at hclass
  cases hk : t.types.pool.kind ty with
  | raw c =>
    rw [hk] at hkind
    obtain rfl : r = ty := (ht.valid.canonical hfind).self ⟨_, .raw hkind⟩
    exact ⟨c, hkind⟩
  | inst c sub outer =>
    rw [hk] at hkind
    obtain ⟨shape, herases, hshape⟩ := ht.coherent.erases hfind
    have hkind' : t.types.kind ty = .inst c sub outer := hk
    have hdown : t.types.ComesDownTo ty ty :=
      TypeSystem.comesDownTo_self (by simp [hkind']) (by simp [hkind'])
    obtain rfl := herases.unique (.inst rfl hdown hkind)
    cases hshape with
    | raw hraw => exact ⟨c, hraw⟩
  | prim _ | null | var _ | array _ | lub _ =>
    rw [show t.types.kind ty = _ from hk] at hclass
    cases hclass

/-- The canonical form of a view of a procedure has a symbol. -/
theorem exists_symbol_of_procedure (ht : t.Consistent) (hstorable : t.types.DeclaresStorable)
    {m c : MemberId} (hm : t.types.IsViewOf .procedure m)
    (hfind : t.memo.members.find? m = some c) : ∃ y, t.types.procedureSymbol c = .ok y := by
  obtain ⟨hlinkable, hsame⟩ := Canonicalizer.canonical_view_isLinkable ht hstorable hm.view hfind
  exact hlinkable.exists_procedureSymbol ht.valid.types (ht.valid.members hfind).settled.types
    (hsame.1.trans hm.form_eq)

/-- The canonical form of a view of a static field has a symbol. -/
theorem exists_symbol_of_staticField (ht : t.Consistent) (hstorable : t.types.DeclaresStorable)
    {m c : MemberId} (hm : t.types.IsViewOf .field m)
    (hstatic : (t.types.member m).flags.isStatic = true)
    (hfind : t.memo.members.find? m = some c) : ∃ y, t.types.staticFieldSymbol c = .ok y := by
  obtain ⟨hlinkable, hsame⟩ := Canonicalizer.canonical_view_isLinkable ht hstorable hm.view hfind
  exact hlinkable.exists_staticFieldSymbol (hsame.1.trans hm.form_eq) (hsame.2 ▸ hstatic)

end Resolved

end Compiler

/-! ### Symbols of declarations -/

namespace ClassPlan

variable {t : Canonicalizer}

theorem isField_iff {m : MemberId} : isField ts m = true ↔ (ts.member m).kind.form = .field := by
  unfold isField
  cases (ts.member m).kind <;> simp [MemberKind.form]

/-- What defines something is a procedure or a static field. -/
theorem form_of_isDefinition {d : MemberDecl} (h : isDefinition ts d = true) :
    d.body.form = .procedure ∨
      d.body.form = .field ∧ (ts.member d.member).flags.isStatic = true := by
  unfold isDefinition at h
  cases hbody : d.body with
  | method _ _ | constructor _ _ => exact .inl rfl
  | field _ =>
    rw [hbody] at h
    exact .inr ⟨rfl, h⟩
  | initializer _ =>
    rw [hbody] at h
    cases h

/-- What is defined by a declaration has a symbol of its form. -/
theorem StandsFor.exists_symbol (ht : t.Consistent) (hstorable : t.types.DeclaresStorable)
    (hle : ts ≤ t.types) {d : ClassDecl} (hd : ∀ m ∈ d.members, m.IsLinkable ts) {c : MemberId}
    (h : StandsFor t ts d c) :
    if isField t.types c then ∃ y, t.types.staticFieldSymbol c = .ok y
    else ∃ y, t.types.procedureSymbol c = .ok y := by
  obtain ⟨m, hm, hdefinition, hfind⟩ := h
  have hmember := TypeSystem.member_of_le hle (hd m hm).member.hasMember
  obtain ⟨hcanonical, hform, hflags⟩ :=
    Canonicalizer.canonical_isLinkable ht hstorable.bounds ((hd m hm).member.of_le hle) hfind
  rw [hmember, (hd m hm).form] at hform
  rcases form_of_isDefinition hdefinition with hprocedure | ⟨hfield, hstatic⟩
  · have hform := hform.trans hprocedure
    rw [if_neg (by simp [isField_iff, hform])]
    exact hcanonical.exists_procedureSymbol ht.valid.types (ht.valid.members hfind).settled.types
      hform
  · have hform := hform.trans hfield
    rw [if_pos (isField_iff.mpr hform)]
    exact hcanonical.exists_staticFieldSymbol hform (by rw [hflags, hmember, hstatic])

/-- The plan of a class has symbols. -/
theorem IsPlanOf.hasSymbols (ht : t.Consistent) (hstorable : t.types.DeclaresStorable)
    (hle : ts ≤ t.types) {d : ClassDecl} (hd : ∀ m ∈ d.members, m.IsLinkable ts)
    {plan : ClassPlan} (h : IsPlanOf t ts d plan) : plan.HasSymbols t.types where
  type := ⟨_, h.type⟩
  interfaces := h.interfaces
  procedures c hc := by
    obtain ⟨-, hfield, hstands⟩ := h.procedures c hc
    have hsymbol := hstands.exists_symbol ht hstorable hle hd
    rwa [if_neg (Bool.not_eq_true _ ▸ hfield)] at hsymbol
  staticFields c hc := by
    obtain ⟨-, hfield, hstands⟩ := h.staticFields c hc
    have hsymbol := hstands.exists_symbol ht hstorable hle hd
    rwa [if_pos hfield] at hsymbol

end ClassPlan

namespace Compiler

open CompilationUnit (IsResolved)

/-- What is gathered of a unit has symbols, if the unit is resolved. -/
theorem Gathered.IsOf.hasSymbols {t : Canonicalizer} (ht : t.Consistent) {g : Gathered}
    {v : CompilationUnit} (hts : ts.Valid) (h : g.IsOf t ts v) (hstorable : ts.DeclaresStorable)
    (hmentions : ∀ n ∈ v.nodes, ∀ x ∈ v.arena.mentions n, x.IsResolved ts)
    (hdeclared : ∀ c ∈ v.classes, ∀ d ∈ c.members, d.IsLinkable ts) : g.HasSymbols t.types := by
  have hle := h.types.le
  have hstorable' := hstorable.of_extends hts h.types
  have hreferences : ∀ r ∈ Reference.ofUnit ts v, r.IsResolved ts := by
    intro r hr
    obtain ⟨n, hn, hr⟩ := List.mem_flatMap.mp hr
    exact Reference.isResolved_of_mentions (hmentions n hn) r hr
  constructor
  case plans =>
    intro plan hplan
    obtain ⟨d, hd, hisPlan⟩ := exists_of_forall₂_right h.plans hplan
    exact hisPlan.hasSymbols ht hstorable' hle (hdeclared d hd)
  case procedures =>
    intro c hc
    obtain ⟨m, hm, hfind⟩ := exists_of_forall₂_right h.procedures hc
    obtain ⟨r, hr, hrm⟩ := List.mem_filterMap.mp hm
    cases r with
    | procedure n =>
      cases hrm
      exact exists_symbol_of_procedure ht hstorable' ((hreferences _ hr).of_le hts hle) hfind
    | staticField _ | allocation _ => cases hrm
  case staticFields =>
    intro c hc
    obtain ⟨m, hm, hfind⟩ := exists_of_forall₂_right h.staticFields hc
    obtain ⟨r, hr, hrm⟩ := List.mem_filterMap.mp hm
    cases r with
    | staticField n =>
      cases hrm
      obtain ⟨hview, hstatic⟩ := hreferences _ hr
      refine exists_symbol_of_staticField ht hstorable' (hview.of_le hts hle) ?_ hfind
      rwa [TypeSystem.member_of_le hle (hview.view.hasMember hts)]
    | procedure _ | allocation _ => cases hrm
  case allocations =>
    intro ty hty
    obtain ⟨u, hu, hfind⟩ := exists_of_forall₂_right h.allocations hty
    obtain ⟨r, hr, hru⟩ := List.mem_filterMap.mp hu
    cases r with
    | allocation _ =>
      cases hru
      obtain ⟨hhas, hclass⟩ := Mention.IsResolved.of_le (x := .allocation u) hts hle (hreferences _ hr)
      exact exists_raw_of_find? ht hclass hhas hfind
    | procedure _ | staticField _ => cases hru

/-! ### Work before any symbol is made -/

/-- The work does not fail for want of a symbol. -/
def ManglesNothing {α : Type} (act : CompileM α) : Prop :=
  ∀ s e, (act.run s).1 ≠ .error (.mangle e)

namespace ManglesNothing

variable {α β ε : Type}

theorem pure (a : α) : ManglesNothing (pure a : CompileM α) := fun _ _ h => nomatch h

theorem bind {act : CompileM α} {f : α → CompileM β} (h : ManglesNothing act)
    (hf : ∀ a, ManglesNothing (f a)) : ManglesNothing (act >>= f) := by
  intro s e
  rw [run_bind_apply]
  cases hrun : (act.run s).1 with
  | ok a => exact hf a _ e
  | error e' =>
    rintro ⟨⟩
    exact h s e hrun

theorem get : ManglesNothing (get : CompileM Compilation) := fun _ _ h => nomatch h

theorem canonical {wrap : ε → CompileError} (hwrap : ∀ e e', wrap e ≠ .mangle e')
    (act : ExceptT ε CanonicalM α) : ManglesNothing (canonical wrap act) := by
  intro s e
  rw [run_canonical]
  dsimp only
  cases (act.run _).1 with
  | ok a => exact nofun
  | error e' => exact fun h => hwrap e' e (Except.error.inj h)

end ManglesNothing

theorem desugared_manglesNothing : ManglesNothing desugared := by
  intro s e
  show ((StringForm.desugar s.types s.compiled).1.map fun _ => ()).mapError CompileError.tree ≠ _
  cases (StringForm.desugar s.types s.compiled).1 <;> exact nofun

theorem validated_manglesNothing : ManglesNothing validated := by
  apply ManglesNothing.get.bind
  intro s
  split
  · exact (ManglesNothing.canonical nofun _).bind fun _ => .pure _
  · exact .pure _

theorem gathered_manglesNothing : ManglesNothing gathered := by
  apply desugared_manglesNothing.bind
  intro _
  apply validated_manglesNothing.bind
  intro _
  apply ManglesNothing.get.bind
  intro s
  apply (ManglesNothing.canonical nofun _).bind
  intro plans
  apply ManglesNothing.get.bind
  intro t
  apply (ManglesNothing.canonical nofun _).bind
  intro procedures
  apply (ManglesNothing.canonical nofun _).bind
  intro staticFields
  apply (ManglesNothing.canonical nofun _).bind
  exact fun allocations => .pure _

/-! ### Compiling -/

/-- Compiling a resolved unit does not fail for want of a symbol. -/
theorem compile_ne_mangle {c : Compiler} {u : CompilationUnit} (hc : InUse c ts)
    (hu : u.IsResolved ts) (hstorable : ts.DeclaresStorable) (hformals : u.DeclaresStorable ts)
    (e : MangleError) : (c.compile ts u).1 ≠ .error (.mangle e) := by
  obtain ⟨hs, hstring⟩ := hc.consistent
  have hts := hs.valid.types
  obtain ⟨hext, hvalid, hclasses, hmentions, -⟩ :=
    desugar_mentions Mention.accepts_isResolved hts hstring hu.mentions hu.types
  have hgathered := gathered_ensures (s := ⟨c, ts, u⟩) hs hstring (hu.isKnown hts)
  have hrun : (c.compile ts u).1 =
      (ExceptT.bindCont symbolsOf (gathered.run ⟨c, ts, u⟩).1 (gathered.run ⟨c, ts, u⟩).2).1 := by
    rw [compile, unitSymbols_eq]
    rfl
  have hnothing := gathered_manglesNothing ⟨c, ts, u⟩
  obtain ⟨-, ht, hpost⟩ := hgathered
  rw [hrun]
  generalize gathered.run ⟨c, ts, u⟩ = r at ht hpost hnothing
  obtain ⟨x, t⟩ := r
  cases x with
  | error e' =>
    rintro ⟨⟩
    exact hnothing e rfl
  | ok g =>
    have hsymbols : g.HasSymbols t.types := by
      apply Gathered.IsOf.hasSymbols ht hvalid (hpost g rfl) (hstorable.of_extends hts hext) hmentions
      rw [hclasses]
      intro d hd m hm
      exact ((hu.declared d hd m hm).isLinkable (hformals d hd m hm)).of_le hext.le
    obtain ⟨symbols, t', hok, -⟩ := symbolsOf_succeeds hsymbols t rfl
    show ((symbolsOf g).run t).1 ≠ _
    rw [hok]
    exact nofun

/-- A unit is assembled by a builder, over a type system in which the bounds of type variables and
the formals of members can be stored, as they can if they mention neither `void` nor the null type nor
an upper bound (`Pool.isStorable_of_parts`). Compiling the unit does not fail for want of a symbol,
whatever the options are and whatever the compiler has compiled before. -/
theorem compile_assembled_ne_mangle {c : Compiler} {b : Builder} {ds : List MemberDecl}
    {classes : List ClassDecl} (hc : InUse c b.types) (hb : b.Assembled ds)
    (hclasses : ∀ d ∈ classes, ∀ m ∈ d.members, m ∈ ds) (hstorable : b.types.DeclaresStorable)
    (hformals : CompilationUnit.DeclaresStorable ⟨b.arena, classes⟩ b.types) (e : MangleError) :
    (c.compile b.types ⟨b.arena, classes⟩).1 ≠ .error (.mangle e) :=
  compile_ne_mangle hc (hb.unit_isResolved hclasses) hstorable hformals e

/-! ### An example -/

/-- The class `Box<T>` is instantiated for the null type and for an upper bound of the null type, and a
class `Main` is declared. -/
def placeholderSession : Canonicalizer :=
  let s := Canonicalizer.boxSession.asked (.instantiate ⟨2⟩ [.null] none)
  let s := (s.asked (.lubOf [.string, .null])).asked (.instantiate ⟨2⟩ [⟨18⟩] none)
  s.declared (.declareClass "Main" {})

/-- Two boxes are asked to `map`, and the results are compared by an operation of the source. -/
def comparison : List Builder.Request :=
  [.tempVar "a" ⟨17⟩ none, .tempVar "b" ⟨19⟩ none, .localVar ⟨0⟩, .localVar ⟨1⟩, .nullLit,
    .call (.expr ⟨0⟩) ⟨17⟩ "map" [⟨2⟩, ⟨2⟩], .call (.expr ⟨1⟩) ⟨19⟩ "map" [⟨2⟩, ⟨2⟩],
    .sourceExpr (.binary .eq ⟨3⟩ ⟨4⟩) Primitive.boolean.typeId, .eval ⟨5⟩, .block [⟨0⟩, ⟨1⟩, ⟨2⟩]]

/-- The builder of the session, with the nodes of the comparison, ... -/
def comparisonBuilder : Builder :=
  comparison.foldl (fun b r => (r.run b).2) ⟨placeholderSession.types, {}, .generated⟩

/-- ... and the static method `run` of `Main` that it is the body of. -/
def comparisonMethod : MemberDecl × Builder :=
  (Builder.Declaring.method ⟨3⟩ "run" Primitive.void.typeId [] (some ⟨3⟩) { isStatic := true }).run
    comparisonBuilder

theorem placeholderSession_reachable : Canonicalizer.Reachable placeholderSession := by
  refine .declare _ (.ask _ (.ask _ (.ask _ Canonicalizer.boxSession_reachable ?_) ?_) ?_) ?_
  · exact ⟨by decide +kernel, nofun⟩
  · show TypeSystem.HasAll _ _
    decide +kernel
  · exact ⟨by decide +kernel, nofun⟩
  · trivial

theorem comparisonMethod_assembled : comparisonMethod.2.Assembled [comparisonMethod.1] := by
  have hstart : Builder.Assembled ⟨placeholderSession.types, {}, .generated⟩ [] :=
    .start placeholderSession_reachable.valid.types (by decide +kernel)
  have hnodes : comparisonBuilder.Assembled [] := hstart.requests (by decide +kernel)
  exact hnodes.declare (hnodes.isResolved.1.valid.pool.prims .void).has

/-- A method that calls `map` on a `Box<null>` and on a `Box<lub(null, core.String)>`. -/
theorem compile_assembled_ne_mangle_comparison :
    let u : CompilationUnit :=
      ⟨comparisonMethod.2.arena, [⟨⟨3⟩, [comparisonMethod.1], .generated⟩]⟩
    ¬ ∃ e, ((fresh {}).compile comparisonMethod.2.types u).1 = .error (.mangle e) := by
  have hassembled := comparisonMethod_assembled
  have hvalid := hassembled.isResolved.1.valid
  have hacyclic : comparisonMethod.2.types.Acyclic :=
    TypeSystem.acyclic_of_isEnd (by decide +kernel)
  have hinUse : InUse (fresh {}) comparisonMethod.2.types :=
    .start hvalid hacyclic (by decide +kernel)
  have hstorable : comparisonMethod.2.types.DeclaresStorable :=
    .of_entries (d := 2) hvalid (by decide +kernel) (by decide +kernel)
  have hformals : (comparisonMethod.2.types.member comparisonMethod.1.member).kind.formals = [] := by
    decide +kernel
  rintro u ⟨e, he⟩
  refine compile_assembled_ne_mangle hinUse hassembled ?_ hstorable ?_ e he
  · simp
  · simp [CompilationUnit.DeclaresStorable, hformals]

end Compiler

end Erasure
