/-
What a compilation gathers.

Before any symbol is made, a compilation gathers the canonical forms of what a unit defines and of what
it refers to. The main statements:

* `unitSymbols_eq`: symbols are made of what was gathered.
* `gathered_ensures`: what was gathered is remembered for what the desugared unit says.
-/
import Erasure.Proofs.Compile.Stages

namespace Erasure

/-! ### References -/

namespace Reference

/-- What a unit refers to stays the same while the type system grows. -/
theorem ofUnit_of_le {ts us : TypeSystem} (hle : ts ≤ us) {v : CompilationUnit}
    (hv : ∀ n ∈ v.nodes, ∀ m ∈ Validation.memberOf? v.arena n, ts.HasMember m) :
    ofUnit us v = ofUnit ts v := by
  refine List.flatMap_congr fun n hn => ?_
  cases n with
  | stmt s => rfl
  | expr e =>
    have hmember := hv _ hn
    unfold ofNode
    dsimp only [Validation.memberOf?] at hmember ⊢
    generalize (v.arena.expr e).kind = kind at hmember
    cases kind with
    | field receiver m =>
      dsimp only
      rw [TypeSystem.member_of_le hle (hmember m rfl)]
    | _ => rfl

end Reference

/-! ### Units -/

namespace CompilationUnit

/-- The types that nodes have are there, and so are the members that nodes and declarations name. -/
structure IsKnown (u : CompilationUnit) (ts : TypeSystem) : Prop where
  members : ∀ {n}, u.HasNode n → ∀ m ∈ Validation.memberOf? u.arena n, ts.HasMember m
  types : ∀ {e}, u.HasNode (.expr e) → ts.pool.Has (u.arena.expr e).type
  declared : ∀ c ∈ u.classes, ∀ d ∈ c.members, ts.HasMember d.member

theorem IsInPlace.isKnown {u : CompilationUnit} {ts : TypeSystem} (h : u.IsInPlace ts) :
    u.IsKnown ts where
  members hn m hm := (h.members hn m hm).hasMember
  types := h.types
  declared c hc d hd := (h.declared c hc d hd).hasMember

theorem accepts_hasMember : Builder.AcceptsMembers fun m ts => ts.HasMember m where
  stable _ hext _ h := h.of_le hext.le
  view hts h := h.hasMember hts

end CompilationUnit

namespace Compiler

open Canonicalizer (mapM_canonicalizeMember_ensures mapM_canonicalize_ensures)

variable {s : Compilation}

/-! ### Stages before any symbol is made -/

theorem desugared_ensures (hs : (held s).Consistent) (hstring : s.types.pool.Has .string)
    (hu : s.compiled.IsKnown s.types) :
    Ensures held desugared s fun _ t =>
      t.types = (StringForm.desugar s.types s.compiled).2.1 ∧
        t.compiled = (StringForm.desugar s.types s.compiled).2.2 := by
  obtain ⟨hext, hvalid, -⟩ := desugar_nodes CompilationUnit.accepts_hasMember hs.valid.types hstring
    hu.members hu.types
  have hle : held s ≤ ⟨(StringForm.desugar s.types s.compiled).2.1, s.compiler.memo⟩ :=
    ⟨hext.le, le_refl _, le_refl _, le_refl _, le_refl _⟩
  have hgrows : Store.Grows (held s) ⟨(StringForm.desugar s.types s.compiled).2.1, s.compiler.memo⟩ :=
    ⟨hle, hext, fun hM => hM.of_types hs.valid hext rfl⟩
  exact .of_run (x := ((StringForm.desugar s.types s.compiled).1.map fun _ => ()).mapError .tree) rfl
    hgrows (hs.extend hgrows (hs.valid.extend hle hvalid .inl .inl .inl .inl .inl) .inl .inl)
    fun _ _ => ⟨rfl, rfl⟩

theorem validated_ensures (hs : (held s).Consistent) (hu : ∀ n ∈ s.compiled.nodes,
      ∀ m ∈ Validation.memberOf? s.compiled.arena n, s.types.HasMember m) :
    Ensures held validated s fun _ t => t.compiled = s.compiled := by
  unfold validated
  refine .get_bind ?_
  split
  · exact (canonical_ensures (Validation.validate_ensures hs hu)).map fun _ _ h => h.2
  · exact .pure hs rfl

theorem mapM_ofDecl_ensures (hs : (held s).Consistent) {classes : List ClassDecl}
    (hd : ∀ d ∈ classes, ∀ m ∈ d.members, s.types.HasMember m.member) :
    Ensures held (canonical .canon (classes.mapM ClassPlan.ofDecl)) s fun plans t =>
      List.Forall₂ (ClassPlan.IsPlanOf (held t) s.types) classes plans := by
  refine (canonical_ensures (P := fun plans t =>
    List.Forall₂ (ClassPlan.IsPlanOf t s.types) classes plans)
    ((Ensures.mapM (I := fun _ => True) (R := fun d plan t => ClassPlan.IsPlanOf t s.types d plan)
      (fun _ _ _ _ htu h => h.of_grows htu) hs trivial
      fun d hmem t hst ht _ => ?_).mono fun _ _ _ _ h => h.2)).mono fun _ _ _ _ h => h.1
  have hknown : ∀ m ∈ d.members, (held s).types.HasMember m.member := hd d hmem
  refine (ClassPlan.ofDecl_ensures ht fun m hm => (hknown m hm).of_le hst.le.1).mono ?_
  exact fun plan u _ _ h => ⟨trivial, h.of_ge hst.le.1 hknown⟩

theorem mapM_canonicalizeMember_canonical_ensures (hs : (held s).Consistent) {ms : List MemberId}
    (hms : ∀ m ∈ ms, s.types.HasMember m) :
    Ensures held (canonical .canon (ms.mapM Canonicalizer.canonicalizeMember)) s fun cs t =>
      List.Forall₂ (fun m c => (held t).memo.members.find? m = some c) ms cs :=
  (canonical_ensures (mapM_canonicalizeMember_ensures hs hms)).mono fun _ _ _ _ h => h.1

/-! ### Gathering -/

/-- The canonical forms of what a unit defines, and of what it calls, accesses and allocates. -/
structure Gathered where
  plans : List ClassPlan
  procedures : List MemberId
  staticFields : List MemberId
  allocations : List TypeId

/-- The part of a compilation before any symbol is made. -/
def gathered : CompileM Gathered := do
  desugared
  validated
  let u := (← get).compiled
  let plans ← canonical .canon (u.classes.mapM ClassPlan.ofDecl)
  let references := Reference.ofUnit (← get).types u
  let procedures ← canonical .canon
    ((Reference.procedures references).mapM Canonicalizer.canonicalizeMember)
  let staticFields ← canonical .canon
    ((Reference.staticFields references).mapM Canonicalizer.canonicalizeMember)
  let allocations ← canonical .canon
    ((Reference.allocations references).mapM fun ty => liftM (Canonicalizer.canonicalize ty))
  return { plans, procedures, staticFields, allocations }

/-- The part of a compilation that makes symbols. -/
def symbolsOf (g : Gathered) : CompileM UnitSymbols := do
  let symbols ← g.plans.foldlM classSymbols {}
  let called ← g.procedures.mapM fun m => mangled (·.procedureSymbol m)
  let accessed ← g.staticFields.mapM fun m => mangled (·.staticFieldSymbol m)
  let allocated ← g.allocations.mapM allocationSymbols
  return { symbols with
    referenced := symbols.referenced.addAll (called ++ accessed ++ allocated.flatten) }

/-- Symbols are made of what was gathered. -/
theorem unitSymbols_eq : unitSymbols = gathered >>= symbolsOf := by
  simp only [unitSymbols, gathered, symbolsOf, bind_assoc, pure_bind]

/-- What was gathered is what is remembered of the definitions and references of a unit over a type
system. -/
structure Gathered.IsOf (g : Gathered) (t : Canonicalizer) (ts : TypeSystem) (v : CompilationUnit) :
    Prop where
  types : TypeSystem.Extends ts t.types
  plans : List.Forall₂ (ClassPlan.IsPlanOf t ts) v.classes g.plans
  procedures : List.Forall₂ (fun m c => t.memo.members.find? m = some c)
    (Reference.procedures (Reference.ofUnit ts v)) g.procedures
  staticFields : List.Forall₂ (fun m c => t.memo.members.find? m = some c)
    (Reference.staticFields (Reference.ofUnit ts v)) g.staticFields
  allocations : List.Forall₂ (fun ty r => t.memo.types.find? ty = some r)
    (Reference.allocations (Reference.ofUnit ts v)) g.allocations

/-- What is gathered is what is remembered of the desugared unit. -/
theorem gathered_ensures (hs : (held s).Consistent) (hstring : s.types.pool.Has .string)
    (hu : s.compiled.IsKnown s.types) :
    Ensures held gathered s fun g t => g.IsOf (held t)
      (StringForm.desugar s.types s.compiled).2.1 (StringForm.desugar s.types s.compiled).2.2 := by
  have hts : s.types.Valid := hs.valid.types
  obtain ⟨hext, -, hclasses, hmembers, htypes⟩ := desugar_nodes
    CompilationUnit.accepts_hasMember hts hstring hu.members hu.types
  have hdesugared := desugared_ensures hs hstring hu
  generalize StringForm.desugar s.types s.compiled = r at hext hclasses hmembers htypes hdesugared ⊢
  obtain ⟨result, ts, v⟩ := r
  dsimp only at hext hclasses hmembers htypes hdesugared ⊢
  have hdeclared : ∀ d ∈ v.classes, ∀ m ∈ d.members, ts.HasMember m.member := fun d hd m hm =>
    (hu.declared d (hclasses ▸ hd) m hm).of_le hext.le
  unfold gathered
  refine hdesugared.bind ?_
  rintro _ t₁ - ht₁ ⟨rfl, rfl⟩
  refine (validated_ensures ht₁ hmembers).bind fun _ t₂ h₂ ht₂ hcompiled₂ => .get_bind ?_
  rw [hcompiled₂]
  refine (mapM_ofDecl_ensures ht₂ fun d hd m hm => (hdeclared d hd m hm).of_le h₂.le.1).bind ?_
  intro plans t₃ h₃ ht₃ hplans
  have h₁₃ := h₂.trans h₃
  refine .get_bind ?_
  dsimp only
  rw [show Reference.ofUnit t₃.types t₁.compiled = Reference.ofUnit t₁.types t₁.compiled from
    Reference.ofUnit_of_le h₁₃.le.1 hmembers]
  obtain ⟨hprocedures, hstatics, hallocations⟩ := Reference.of_nodes
    (Q := fun m ts => ts.HasMember m) hmembers htypes t₁.types
  refine (mapM_canonicalizeMember_canonical_ensures ht₃ fun m hm =>
    (hprocedures m hm).of_le h₁₃.le.1).bind fun procedures t₄ h₄ ht₄ hcalled => ?_
  have h₁₄ := h₁₃.trans h₄
  refine (mapM_canonicalizeMember_canonical_ensures ht₄ fun m hm =>
    (hstatics m hm).of_le h₁₄.le.1).bind fun staticFields t₅ h₅ ht₅ haccessed => ?_
  have h₁₅ := h₁₄.trans h₅
  refine (canonical_ensures (mapM_canonicalize_ensures ht₅ fun ty hty =>
    (hallocations ty hty).of_le h₁₅.le.1.1)).bind fun allocations t₆ h₆ ht₆ hallocated => .pure ht₆ ?_
  constructor
  case types => exact Canonicalizer.Extends.types (h₁₅.trans h₆)
  case plans =>
    have hclass := (List.forall₂_and_left _ _).mpr ⟨hdeclared, hplans⟩
    refine hclass.imp fun d plan ⟨hd, h⟩ => ?_
    exact (h.of_ge h₂.le.1 hd).of_grows ((h₄.trans h₅).trans h₆)
  case procedures =>
    exact hcalled.imp fun _ _ => Memo.find?_of_le (h₅.trans h₆).le.2.2.1
  case staticFields => exact haccessed.imp fun _ _ => Memo.find?_of_le h₆.le.2.2.1
  case allocations => exact hallocated.1

end Compiler

end Erasure
