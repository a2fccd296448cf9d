/-
Compiling in stages.

Every stage of a compilation keeps what is remembered consistent with the declarations, and it
declares nothing. The main statements:

* `Ensures`: such work. `Ensures.bind`, `Ensures.mapM` and `Ensures.foldlM` put it together.
* `ofDecl_ensures`: the plan of a class lists the canonical forms of what the class defines, and no
  others.
* `classSymbols_ensures`: a class defines the symbols of what its plan lists.
-/
import Erasure.Proofs.Canonical.Link
import Erasure.Proofs.Compile.Continuation
import Erasure.Proofs.Compile.Memory

namespace Erasure

/-! ### Stages that keep what is remembered consistent -/

section

variable {σ ε α β : Type} {view : σ → Canonicalizer}

/-- The work extends the canonicalizer that a state holds to a consistent one, also when it fails, and
declares nothing. An answer and the final state satisfy `P`. -/
structure Ensures (view : σ → Canonicalizer) (act : ExceptT ε (StateM σ) α) (s : σ)
    (P : α → σ → Prop) : Prop where
  grows : Store.Grows (view s) (view (act.run s).2)
  consistent : (view (act.run s).2).Consistent
  post : ∀ a, (act.run s).1 = .ok a → P a (act.run s).2

namespace Ensures

variable {act : ExceptT ε (StateM σ) α} {s : σ} {P Q : α → σ → Prop}

theorem mono (h : Ensures view act s P)
    (hPQ : ∀ a t, Store.Grows (view s) (view t) → (view t).Consistent → P a t → Q a t) :
    Ensures view act s Q :=
  ⟨h.grows, h.consistent, fun a ha => hPQ a _ h.grows h.consistent (h.post a ha)⟩

theorem of_run {x : Except ε α} {t : σ} (hrun : act.run s = (x, t))
    (hgrows : Store.Grows (view s) (view t)) (ht : (view t).Consistent)
    (hx : ∀ a, x = .ok a → P a t) : Ensures view act s P := by
  constructor
  all_goals rw [hrun]
  · exact hgrows
  · exact ht
  · exact hx

theorem pure {a : α} (hs : (view s).Consistent) (ha : P a s) :
    Ensures view (pure a : ExceptT ε (StateM σ) α) s P :=
  of_run rfl (.refl _) hs fun _ h => Except.ok.inj h ▸ ha

theorem throw {e : ε} (hs : (view s).Consistent) :
    Ensures view (throw e : ExceptT ε (StateM σ) α) s P :=
  of_run rfl (.refl _) hs fun _ h => nomatch h

theorem bind {f : α → ExceptT ε (StateM σ) β} {R : β → σ → Prop} (h : Ensures view act s P)
    (hf : ∀ a t, Store.Grows (view s) (view t) → (view t).Consistent → P a t →
      Ensures view (f a) t R) : Ensures view (act >>= f) s R := by
  obtain ⟨hgrows, hconsistent, hpost⟩ := h
  have hbind := run_bind_apply act f s
  generalize act.run s = r at hgrows hconsistent hpost hbind
  obtain ⟨x, t⟩ := r
  cases x with
  | error e => exact of_run hbind hgrows hconsistent fun _ h => nomatch h
  | ok a =>
    have hfa := hf a t hgrows hconsistent (hpost a rfl)
    exact of_run hbind (hgrows.trans hfa.grows) hfa.consistent hfa.post

theorem get_bind {f : σ → ExceptT ε (StateM σ) α} (h : Ensures view (f s) s P) :
    Ensures view (get >>= f : ExceptT ε (StateM σ) α) s P := ⟨h.grows, h.consistent, h.post⟩

theorem map {f : α → β} {R : β → σ → Prop} (h : Ensures view act s P)
    (hf : ∀ a t, P a t → R (f a) t) : Ensures view (f <$> act) s R := by
  rw [map_eq_pure_bind]
  exact h.bind fun a t _ ht ha => .pure ht (hf a t ha)

/-- What holds of the answers from the start holds in the end, and so does what every step keeps. -/
theorem mapM {f : α → ExceptT ε (StateM σ) β} {I : σ → Prop} {R : α → β → σ → Prop} {as : List α}
    (hmono : ∀ a b t u, Store.Grows (view t) (view u) → R a b t → R a b u)
    (hs : (view s).Consistent) (hI : I s)
    (h : ∀ a ∈ as, ∀ t, Store.Grows (view s) (view t) → (view t).Consistent → I t →
      Ensures view (f a) t fun b u => I u ∧ R a b u) :
    Ensures view (as.mapM f) s fun bs t => I t ∧ List.Forall₂ (R · · t) as bs := by
  induction as generalizing s with
  | nil => exact .pure hs ⟨hI, .nil⟩
  | cons a as ih =>
    rw [List.mapM_cons]
    refine (h a List.mem_cons_self s (.refl _) hs hI).bind fun b t hst ht hb => ?_
    refine (ih ht hb.1 fun a' ha' u htu => h a' (List.mem_cons_of_mem _ ha') u
      (hst.trans htu)).bind fun bs u htu hu hbs => .pure hu ⟨hbs.1, .cons ?_ hbs.2⟩
    exact hmono a b t u htu hb.2

/-- Every step adds to what the accumulator has. -/
theorem foldlM {f : β → α → ExceptT ε (StateM σ) β} {I : σ → Prop} {L : β → β → Prop}
    {R : α → β → Prop} (hrefl : ∀ b, L b b) (htrans : ∀ b c d, L b c → L c d → L b d)
    (hmono : ∀ a b c, L b c → R a b → R a c) {as : List α} {b : β}
    (hs : (view s).Consistent) (hI : I s)
    (h : ∀ a ∈ as, ∀ b t, (view t).Consistent → I t →
      Ensures view (f b a) t fun c u => I u ∧ L b c ∧ R a c) :
    Ensures view (as.foldlM f b) s fun c t => I t ∧ L b c ∧ ∀ a ∈ as, R a c := by
  induction as generalizing b s with
  | nil => exact .pure hs ⟨hI, hrefl b, fun _ ha => absurd ha List.not_mem_nil⟩
  | cons a as ih =>
    rw [List.foldlM_cons]
    refine (h a List.mem_cons_self b s hs hI).bind fun c t _ ht ⟨hIt, hbc, ha⟩ => ?_
    refine (ih ht hIt fun a' ha' => h a' (List.mem_cons_of_mem _ ha')).mono ?_
    exact fun d u _ _ ⟨hIu, hcd, hd⟩ =>
      ⟨hIu, htrans b c d hbc hcd, List.forall_mem_cons.mpr ⟨hmono a c d hcd ha, hd⟩⟩

end Ensures

end

namespace Canonicalizer

variable {ε α : Type} {s : Canonicalizer}

theorem ensures_of_keeps {act : ExceptT ε CanonicalM α} {P : α → Canonicalizer → Prop}
    (h : Keeps act.run s fun x t => t.Consistent ∧ ∀ a, x = .ok a → P a t) :
    Ensures id act s P := ⟨h.grows, h.post.1, h.post.2⟩

/-- Work that cannot fail. -/
theorem ensures_lift {act : CanonicalM α} {P : α → Canonicalizer → Prop}
    (h : Keeps act s fun a t => t.Consistent ∧ P a t) :
    Ensures id (liftM act : ExceptT ε CanonicalM α) s P :=
  .of_run rfl h.grows h.post.1 fun _ ha => Except.ok.inj ha ▸ h.post.2

theorem canonicalizeMember_ensures (hs : s.Consistent) {m : MemberId} (hm : s.types.HasMember m) :
    Ensures id (canonicalizeMember m) s fun c t => t.memo.members.find? m = some c := by
  refine ensures_of_keeps (((canonicalizeMember_consistent hs hm).and
    (canonicalizeMember_keeps hs.valid hs.acyclic hm)).mono fun x t _ _ ⟨ht, houtcome⟩ =>
      ⟨ht, fun c hc => ?_⟩)
  subst hc
  cases houtcome with
  | canonical hfind => exact hfind

/-- All members have a canonical form, or one of them has none. -/
theorem mapM_canonicalizeMember_ensures (hs : s.Consistent) {ms : List MemberId}
    (hms : ∀ m ∈ ms, s.types.HasMember m) :
    Ensures id (ms.mapM canonicalizeMember) s fun cs t =>
      List.Forall₂ (fun m c => t.memo.members.find? m = some c) ms cs :=
  (Ensures.mapM (I := fun _ => True)
    (R := fun m c (t : Canonicalizer) => t.memo.members.find? m = some c)
    (fun _ _ _ _ htu => Memo.find?_of_le htu.le.2.2.1) hs trivial
    fun m hm _ hst ht _ => (canonicalizeMember_ensures ht ((hms m hm).of_le hst.le.1)).mono
      fun _ _ _ _ h => ⟨trivial, h⟩).mono fun _ _ _ _ h => h.2

theorem canonicalize_ensures (hs : s.Consistent) {ty : TypeId} (hty : s.types.pool.Has ty) :
    Ensures id (liftM (canonicalize ty) : ExceptT ε CanonicalM TypeId) s
      fun r t => t.memo.types.find? ty = some r :=
  ensures_lift ((hs.keeps (canonicalize_computes hs.valid hs.acyclic hty).toKeeps
    (@canonicalize_leaves _ (·.classSubsts) (fun _ _ => rfl) (fun _ _ => rfl) ty)
    (@canonicalize_leaves _ (·.members) (fun _ _ => rfl) (fun _ _ => rfl) ty)).mono
    fun _ _ _ _ h => h.symm)

theorem mapM_canonicalize_ensures (hs : s.Consistent) {tys : List TypeId}
    (htys : ∀ ty ∈ tys, s.types.pool.Has ty) :
    Ensures id (tys.mapM fun ty => (liftM (canonicalize ty) : ExceptT ε CanonicalM TypeId)) s
      fun rs t => List.Forall₂ (fun ty r => t.memo.types.find? ty = some r) tys rs :=
  (Ensures.mapM (I := fun _ => True)
    (R := fun ty r (t : Canonicalizer) => t.memo.types.find? ty = some r)
    (fun _ _ _ _ htu => Memo.find?_of_le htu.le.2.1) hs trivial
    fun ty hty _ hst ht _ => (canonicalize_ensures ht ((htys ty hty).of_le hst.le.1.1)).mono
      fun _ _ _ _ h => ⟨trivial, h⟩).mono fun _ _ _ _ h => h.2

end Canonicalizer

open Canonicalizer (canonicalizeMember_ensures mapM_canonicalizeMember_ensures
  mapM_canonicalize_ensures)

/-! ### Checking -/

namespace Validation

variable {s : Canonicalizer}

theorem checkNode_ensures (hs : s.Consistent) {a : Arena} {n : NodeId}
    (hn : ∀ m ∈ memberOf? a n, s.types.HasMember m) :
    Ensures id (checkNode a n) s fun _ _ => True := by
  unfold checkNode
  cases stringError? a n with
  | some e => exact .throw hs
  | none =>
    cases hm : memberOf? a n with
    | none => exact .pure hs trivial
    | some m =>
      refine (Canonicalizer.ensures_lift (P := fun _ _ => True)
        ((Canonicalizer.canonicalizeMember_consistent hs (hn m hm)).mono
          fun _ _ _ _ ht => ⟨ht, trivial⟩)).bind fun x t _ ht _ => ?_
      cases x with
      | ok _ => exact .pure ht trivial
      | error e => exact .throw ht

theorem validate_ensures (hs : s.Consistent) {u : CompilationUnit}
    (hu : ∀ n ∈ u.nodes, ∀ m ∈ memberOf? u.arena n, s.types.HasMember m) :
    Ensures id (validate u) s fun _ _ => True := by
  refine (Ensures.foldlM (I := fun t => Store.Grows s t) (L := fun _ _ => True)
    (R := fun _ _ => True) (fun _ => trivial) (fun _ _ _ _ _ => trivial) (fun _ _ _ _ => id) hs
    (.refl s) fun n hn checked t ht hst => ?_).mono fun _ _ _ _ _ => trivial
  refine (checkNode_ensures ht fun m hm => (hu n hn m hm).of_le hst.le.1).bind ?_
  exact fun _ _ htu hu _ => .pure hu ⟨hst.trans htu, trivial, trivial⟩

end Validation

/-! ### Plans -/

namespace ClassPlan

variable {ε : Type} {s t u : Canonicalizer}

/-- The canonical form of a member is among the procedures or among the static fields of a plan. -/
def Lists (t : Canonicalizer) (plan : ClassPlan) (m : MemberId) : Prop :=
  ∃ c, t.memo.members.find? m = some c ∧ t.types.HasMember c ∧
    c ∈ if isField t.types c then plan.staticFields else plan.procedures

theorem Lists.of_le (hle : t ≤ u) {plan : ClassPlan} {m : MemberId} (h : Lists t plan m) :
    Lists u plan m := by
  obtain ⟨c, hfind, hc, hmem⟩ := h
  rw [← TypeSystem.isField_of_le hle.1 hc] at hmem
  exact ⟨c, Memo.find?_of_le hle.2.2.1 hfind, hc.of_le hle.1, hmem⟩

theorem isDefinition_of_le {ts us : TypeSystem} (hle : ts ≤ us) {d : MemberDecl}
    (hd : ts.HasMember d.member) : isDefinition us d = isDefinition ts d := by
  rw [isDefinition, isDefinition, TypeSystem.member_of_le hle hd]

/-- The member is the canonical form of something that the class declaration defines. -/
def StandsFor (t : Canonicalizer) (ts : TypeSystem) (d : ClassDecl) (c : MemberId) : Prop :=
  ∃ m ∈ d.members, isDefinition ts m = true ∧ t.memo.members.find? m.member = some c

/-- All types of the list are raw interfaces. -/
def RawInterfaces (t : Canonicalizer) (tys : List TypeId) : Prop :=
  ∀ ty ∈ tys, ∃ c, t.types.pool.HasKind ty (.raw c) ∧ t.types.isInterface c = true

theorem isInterface_of_grows (hgrows : Store.Grows t u) (c : ClassId) :
    u.types.isInterface c = t.types.isInterface c := by
  rw [TypeSystem.isInterface, (Canonicalizer.Extends.types hgrows).classDef_eq,
    TypeSystem.isInterface]

theorem RawInterfaces.of_grows (hgrows : Store.Grows t u) {tys : List TypeId}
    (h : RawInterfaces t tys) : RawInterfaces u tys := by
  intro ty hty
  obtain ⟨c, hk, hinterface⟩ := h ty hty
  exact ⟨c, hk.of_le hgrows.le.1.1, (isInterface_of_grows hgrows c).trans hinterface⟩

/-- A plan of a class lists what the class declaration defines, over the type system `ts`, and
nothing else. -/
structure IsPlanOf (t : Canonicalizer) (ts : TypeSystem) (d : ClassDecl) (plan : ClassPlan) : Prop where
  type : t.types.pool.HasKind plan.type (.raw d.classId)
  interfaces : RawInterfaces t plan.interfaces
  lists : ∀ m ∈ d.members, isDefinition ts m = true → Lists t plan m.member
  procedures : ∀ c ∈ plan.procedures,
    t.types.HasMember c ∧ isField t.types c = false ∧ StandsFor t ts d c
  staticFields : ∀ c ∈ plan.staticFields,
    t.types.HasMember c ∧ isField t.types c = true ∧ StandsFor t ts d c

theorem StandsFor.of_le (hle : t ≤ u) {ts : TypeSystem} {d : ClassDecl} {c : MemberId}
    (h : StandsFor t ts d c) : StandsFor u ts d c := by
  obtain ⟨m, hm, hdefinition, hfind⟩ := h
  exact ⟨m, hm, hdefinition, Memo.find?_of_le hle.2.2.1 hfind⟩

theorem IsPlanOf.of_grows (hgrows : Store.Grows t u) {ts : TypeSystem} {d : ClassDecl}
    {plan : ClassPlan} (h : IsPlanOf t ts d plan) : IsPlanOf u ts d plan where
  type := h.type.of_le hgrows.le.1.1
  interfaces := h.interfaces.of_grows hgrows
  lists m hm hdefinition := (h.lists m hm hdefinition).of_le hgrows.le
  procedures c hc := by
    obtain ⟨hmember, hfield, hstands⟩ := h.procedures c hc
    rw [← TypeSystem.isField_of_le hgrows.le.1 hmember] at hfield
    exact ⟨hmember.of_le hgrows.le.1, hfield, hstands.of_le hgrows.le⟩
  staticFields c hc := by
    obtain ⟨hmember, hfield, hstands⟩ := h.staticFields c hc
    rw [← TypeSystem.isField_of_le hgrows.le.1 hmember] at hfield
    exact ⟨hmember.of_le hgrows.le.1, hfield, hstands.of_le hgrows.le⟩

/-- A plan of a class over a type system is one over an earlier type system too. -/
theorem IsPlanOf.of_ge {ts us : TypeSystem} (hle : ts ≤ us) {d : ClassDecl}
    (hd : ∀ m ∈ d.members, ts.HasMember m.member) {plan : ClassPlan} (h : IsPlanOf t us d plan) :
    IsPlanOf t ts d plan := by
  have hsame : ∀ m ∈ d.members, isDefinition us m = isDefinition ts m := fun m hm =>
    isDefinition_of_le hle (hd m hm)
  have hstands : ∀ {c}, StandsFor t us d c → StandsFor t ts d c := fun ⟨m, hm, hdefinition, hfind⟩ =>
    ⟨m, hm, (hsame m hm).symm.trans hdefinition, hfind⟩
  exact ⟨h.type, h.interfaces, fun m hm hdefinition => h.lists m hm ((hsame m hm).trans hdefinition),
    fun c hc => (h.procedures c hc).imp_right (And.imp_right hstands),
    fun c hc => (h.staticFields c hc).imp_right (And.imp_right hstands)⟩

theorem rawClass_ensures (hs : s.Consistent) (c : ClassId) :
    Ensures id (liftM (liftM (liftM (Pool.rawClass c) : StateM TypeSystem TypeId) :
      CanonicalM TypeId) : ExceptT ε CanonicalM TypeId) s
      fun ty t => t.types.pool.HasKind ty (.raw c) := by
  have hraw := Canonicalizer.lift_keeps hs.valid (TypeSystem.lift_computes hs.valid.types
    (Pool.rawClass_computes hs.valid.types.pool c)).toKeeps
  exact Canonicalizer.ensures_lift ((hs.keeps hraw (fun _ => rfl) fun _ => rfl).mono
    fun _ _ _ _ h => ⟨h.2, h.1⟩)

theorem definitions_ensures (hs : s.Consistent) {d : ClassDecl}
    (hd : ∀ m ∈ d.members, s.types.HasMember m.member) :
    Ensures id (definitions d) s fun cs t => List.Forall₂
      (fun (m : MemberDecl) c => t.memo.members.find? m.member = some c)
      (d.members.filter (isDefinition s.types)) cs := by
  unfold definitions
  refine .get_bind ((Ensures.mapM (I := fun _ => True)
    (R := fun (m : MemberDecl) c (t : Canonicalizer) => t.memo.members.find? m.member = some c)
    (fun _ _ _ _ htu => Memo.find?_of_le htu.le.2.2.1) hs trivial fun m hm t hst ht _ => ?_).mono
    fun _ _ _ _ h => h.2)
  have hm := hd m (List.mem_filter.mp hm).1
  exact (canonicalizeMember_ensures ht (hm.of_le hst.le.1)).mono fun _ _ _ _ h => ⟨trivial, h⟩

/-- The raw types of interfaces above a class. -/
theorem interfaces_ensures (hs : s.Consistent) (c : ClassId) :
    Ensures id ((interfacesAbove s.types c).mapM fun d =>
      (liftM (liftM (liftM (Pool.rawClass d) : StateM TypeSystem TypeId) : CanonicalM TypeId) :
        ExceptT ε CanonicalM TypeId)) s fun tys t => RawInterfaces t tys := by
  refine (Ensures.mapM (I := fun t => Store.Grows s t)
    (R := fun d ty (t : Canonicalizer) => t.types.pool.HasKind ty (.raw d))
    (fun _ _ _ _ htu h => h.of_le htu.le.1.1) hs (.refl s)
    fun d _ t hst ht _ => (rawClass_ensures ht d).mono
      fun _ u htu _ h => ⟨hst.trans htu, h⟩).mono ?_
  rintro tys t - - ⟨hst, htys⟩ ty hty
  obtain ⟨d, hd, hk⟩ := exists_of_forall₂_right htys hty
  refine ⟨d, hk, (isInterface_of_grows hst d).trans ?_⟩
  exact (Bool.and_eq_true_iff.mp (List.mem_filter.mp hd).2).2

/-- What a class declaration defines makes a plan of the class. -/
theorem ofDecl_ensures (hs : s.Consistent) {d : ClassDecl}
    (hd : ∀ m ∈ d.members, s.types.HasMember m.member) :
    Ensures id (ofDecl d) s fun plan t => IsPlanOf t s.types d plan := by
  unfold ofDecl
  refine (rawClass_ensures hs d.classId).bind fun raw t₁ h₁ ht₁ hraw => ?_
  refine (Canonicalizer.canonicalize_ensures ht₁ hraw.has).bind fun type t₂ h₂ ht₂ hfind => ?_
  obtain rfl : type = raw := (ht₂.valid.canonical hfind).self ⟨_, .raw (hraw.of_le h₂.le.1.1)⟩
  refine .get_bind ((interfaces_ensures ht₂ d.classId).bind fun interfaces t₃ h₃ ht₃ hinterfaces => ?_)
  have hs₃ := (h₁.trans h₂).trans h₃
  have hknown : ∀ m ∈ d.members, t₃.types.HasMember m.member := fun m hm =>
    (hd m hm).of_le hs₃.le.1
  refine (definitions_ensures ht₃ hknown).bind fun cs t₄ h₄ ht₄ hcs => .get_bind (.pure ht₄ ?_)
  have hmember : ∀ c ∈ cs, t₄.types.HasMember c ∧ StandsFor t₄ t₃.types d c := by
    intro c hc
    obtain ⟨m, hm, hfind⟩ := exists_of_forall₂_right hcs hc
    obtain ⟨hm, hdefinition⟩ := List.mem_filter.mp hm
    exact ⟨(ht₄.valid.members hfind).settled.hasMember, m, hm, hdefinition, hfind⟩
  refine IsPlanOf.of_ge hs₃.le.1 hd ⟨?_, ?_, ?_, ?_, ?_⟩
  · exact hraw.of_le ((h₂.trans h₃).trans h₄).le.1.1
  · exact hinterfaces.of_grows h₄
  · intro m hm hdefinition
    obtain ⟨c, hc, hfind⟩ := exists_of_forall₂_left hcs (List.mem_filter.mpr ⟨hm, hdefinition⟩)
    refine ⟨c, hfind, (hmember c hc).1, ?_⟩
    split
    case isTrue hfield => exact List.mem_filter.mpr ⟨hc, hfield⟩
    case isFalse hfield =>
      exact List.mem_filter.mpr ⟨hc, Bool.not_eq_true' _ ▸ Bool.eq_false_iff.mpr hfield⟩
  · intro c hc
    obtain ⟨hc, hfield⟩ := List.mem_filter.mp hc
    exact ⟨(hmember c hc).1, (Bool.not_eq_true' _).mp hfield, (hmember c hc).2⟩
  · intro c hc
    obtain ⟨hc, hfield⟩ := List.mem_filter.mp hc
    exact ⟨(hmember c hc).1, hfield, (hmember c hc).2⟩

end ClassPlan

/-! ### Sets of symbols -/

namespace SymbolSet

theorem mem_add {symbol x : String} {set : SymbolSet} :
    x ∈ add symbol set ↔ x = symbol ∨ x ∈ set := by
  induction set with
  | nil => exact List.mem_singleton.trans (or_iff_left List.not_mem_nil).symm
  | cons s rest ih =>
    unfold add
    split
    · exact List.mem_cons
    · split
      case isTrue heq =>
        rw [heq, List.mem_cons, ← or_assoc, or_self]
      case isFalse hne => rw [List.mem_cons, ih, List.mem_cons, or_left_comm]

/-- Adding symbols adds just these. -/
theorem mem_addAll {symbols : List String} {x : String} {set : SymbolSet} :
    x ∈ addAll symbols set ↔ x ∈ symbols ∨ x ∈ set := by
  unfold addAll
  induction symbols generalizing set with
  | nil => exact (or_iff_right List.not_mem_nil).symm
  | cons symbol rest ih => rw [List.foldl_cons, ih, mem_add, List.mem_cons, ← or_assoc, or_comm (b := x = symbol)]

end SymbolSet

/-! ### Symbols of classes -/

/-- The symbols of the procedures and static fields of a plan are defined. -/
structure UnitSymbols.Defines (symbols : UnitSymbols) (ts : TypeSystem) (plan : ClassPlan) : Prop where
  procedures : ∀ m ∈ plan.procedures, ∃ symbol, ts.procedureSymbol m = .ok symbol ∧
    symbol.encode ∈ symbols.defined
  staticFields : ∀ m ∈ plan.staticFields, ∃ symbol, ts.staticFieldSymbol m = .ok symbol ∧
    symbol.encode ∈ symbols.defined

namespace Compiler

variable {ε α : Type} {s : Compilation}

/-- The canonicalizer of a compilation. -/
def held (s : Compilation) : Canonicalizer := ⟨s.types, s.compiler.memo⟩

theorem canonical_ensures {wrap : ε → CompileError} {act : ExceptT ε CanonicalM α}
    {P : α → Canonicalizer → Prop} (h : Ensures id act (held s) P) :
    Ensures held (canonical wrap act) s fun a t => P a (held t) ∧ t.compiled = s.compiled := by
  refine .of_run (run_canonical wrap act s) h.grows h.consistent fun a ha => ⟨h.post a ?_, rfl⟩
  rw [held] at *
  cases hx : (act.run ⟨s.types, s.compiler.memo⟩).1 with
  | ok b =>
    rw [hx] at ha
    exact congrArg Except.ok (Except.ok.inj ha)
  | error e =>
    rw [hx] at ha
    cases ha

theorem cached_ensures (hs : (held s).Consistent)
    (act : TypeSystem → ExceptT MangleError (StateM LayoutCache) α) :
    Ensures held (cached act) s fun _ t => held t = held s :=
  .of_run (run_cached act s) (.refl (held s)) hs fun _ _ => rfl

theorem mangled_ensures (hs : (held s).Consistent)
    (symbol : TypeSystem → Except MangleError Symbol) :
    Ensures held (mangled symbol) s fun x t =>
      held t = held s ∧ ∃ y, symbol s.types = .ok y ∧ y.encode = x := by
  unfold mangled
  refine .get_bind ?_
  cases h : symbol s.types with
  | ok y => exact .pure hs ⟨rfl, y, rfl, rfl⟩
  | error e => exact .throw hs

theorem mapM_mangled_ensures (hs : (held s).Consistent)
    (symbol : TypeSystem → MemberId → Except MangleError Symbol) (ms : List MemberId) :
    Ensures held (ms.mapM fun m => mangled (symbol · m)) s fun xs t =>
      held t = held s ∧ ∀ m ∈ ms, ∃ y, symbol s.types m = .ok y ∧ y.encode ∈ xs := by
  refine (Ensures.mapM (I := fun t => held t = held s)
    (R := fun m x _ => ∃ y, symbol s.types m = .ok y ∧ y.encode = x) (fun _ _ _ _ _ => id) hs rfl
    fun m _ t _ ht hsame => ?_).mono ?_
  · refine (mangled_ensures ht _).mono fun x u _ _ ⟨hsame', hx⟩ => ⟨hsame'.trans hsame, ?_⟩
    rwa [show t.types = s.types from congrArg Canonicalizer.types hsame] at hx
  · rintro xs t - - ⟨hsame, hxs⟩
    refine ⟨hsame, fun m hm => ?_⟩
    obtain ⟨_, hx, y, hy, rfl⟩ := exists_of_forall₂_left hxs hm
    exact ⟨y, hy, hx⟩

theorem tableSymbols_ensures (hs : (held s).Consistent) (plan : ClassPlan) :
    Ensures held (tableSymbols plan) s fun _ t => held t = held s := by
  unfold tableSymbols
  split
  · exact .pure hs rfl
  · refine (Ensures.mapM (I := fun t => held t = held s) (R := fun _ _ _ => True)
      (fun _ _ _ _ _ => id) hs rfl ?_).mono fun _ _ _ _ h => h.1
    intro iface _ t _ ht hsame
    exact (cached_ensures ht _).mono fun _ _ _ _ h => ⟨h.trans hsame, trivial⟩

/-- The members of a class are defined, in addition to what was defined before. -/
theorem memberSymbols_ensures (hs : (held s).Consistent) (symbols : UnitSymbols) (plan : ClassPlan)
    (layout : ClassLayout) (tables : List String) :
    Ensures held (memberSymbols symbols plan layout tables) s fun new t => held t = held s ∧
      (∀ x ∈ symbols.defined, x ∈ new.defined) ∧ new.Defines s.types plan := by
  unfold memberSymbols
  refine (mapM_mangled_ensures hs (·.procedureSymbol ·) _).bind ?_
  rintro procedures t₁ - ht₁ ⟨h₁, hprocedures⟩
  refine (mapM_mangled_ensures ht₁ (·.staticFieldSymbol ·) _).bind ?_
  rintro staticFields t₂ - ht₂ ⟨h₂, hstaticFields⟩
  rw [show t₁.types = s.types from congrArg Canonicalizer.types h₁] at hstaticFields
  refine .pure ht₂ ⟨h₂.trans h₁, fun x hx => SymbolSet.mem_addAll.mpr (.inr hx), ?_, ?_⟩
  · intro m hm
    obtain ⟨y, hy, hmem⟩ := hprocedures m hm
    exact ⟨y, hy, SymbolSet.mem_addAll.mpr
      (.inl (List.mem_append_left _ (List.mem_append_right _ hmem)))⟩
  · intro m hm
    obtain ⟨y, hy, hmem⟩ := hstaticFields m hm
    exact ⟨y, hy, SymbolSet.mem_addAll.mpr (.inl (List.mem_append_right _ hmem))⟩

/-- A class defines the symbols of its plan, in addition to those that were defined before. -/
theorem classSymbols_ensures (hs : (held s).Consistent) (symbols : UnitSymbols) (plan : ClassPlan) :
    Ensures held (classSymbols symbols plan) s fun new t => held t = held s ∧
      (∀ x ∈ symbols.defined, x ∈ new.defined) ∧ new.Defines s.types plan := by
  rw [classSymbols_eq]
  refine (cached_ensures hs _).bind fun layout t₁ _ ht₁ h₁ => ?_
  refine (tableSymbols_ensures ht₁ plan).bind fun tables t₂ _ ht₂ h₂ => ?_
  refine (memberSymbols_ensures ht₂ symbols plan layout tables).mono ?_
  rintro new t₃ - - ⟨h₃, hkept, hdefines⟩
  rw [show t₂.types = s.types from congrArg Canonicalizer.types (h₂.trans h₁)] at hdefines
  exact ⟨(h₃.trans h₂).trans h₁, hkept, hdefines⟩

/-- All classes of a unit define the symbols of their plans. -/
theorem foldlM_classSymbols_ensures (hs : (held s).Consistent) (plans : List ClassPlan)
    (symbols : UnitSymbols) :
    Ensures held (plans.foldlM classSymbols symbols) s fun new t => held t = held s ∧
      ∀ plan ∈ plans, new.Defines s.types plan := by
  refine (Ensures.foldlM (I := fun t => held t = held s)
    (L := fun b c : UnitSymbols => ∀ x ∈ b.defined, x ∈ c.defined)
    (R := fun plan new => new.Defines s.types plan) (fun _ _ => id)
    (fun _ _ _ h h' x hx => h' x (h x hx)) ?_ hs rfl ?_).mono fun _ _ _ _ h => ⟨h.1, h.2.2⟩
  · intro plan b c hbc hb
    constructor
    · exact fun m hm => (hb.procedures m hm).imp fun _ h => ⟨h.1, hbc _ h.2⟩
    · exact fun m hm => (hb.staticFields m hm).imp fun _ h => ⟨h.1, hbc _ h.2⟩
  · intro plan _ b t ht hsame
    refine (classSymbols_ensures ht b plan).mono fun c u _ _ ⟨hsame', hdefined, hplan⟩ => ?_
    rw [show t.types = s.types from congrArg Canonicalizer.types hsame] at hplan
    exact ⟨hsame'.trans hsame, hdefined, hplan⟩

theorem mapM_allocationSymbols_ensures (hs : (held s).Consistent) (tys : List TypeId) :
    Ensures held (tys.mapM allocationSymbols) s fun _ t => held t = held s :=
  (Ensures.mapM (I := fun t => held t = held s) (R := fun _ _ _ => True) (fun _ _ _ _ _ => id) hs rfl
    fun ty _ _ _ ht hsame => (cached_ensures ht fun ts => LayoutCache.layout ts ty).bind
      fun _ _ _ hu h => .pure hu ⟨h.trans hsame, trivial⟩).mono fun _ _ _ _ h => h.1

end Compiler

end Erasure
