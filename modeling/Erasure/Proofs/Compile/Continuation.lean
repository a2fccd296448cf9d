/-
Symbols of members while the type system goes on.

A member has a symbol or it has none, and a symbol that it has it keeps: the declarations that come
later spare the names and the types that the symbol is made of. The main statements:

* `argCodeWithin_of_continues`: the code of a formal.
* `procedureSymbol_of_continues`, `staticFieldSymbol_of_continues`, `memberSymbol_of_continues`: the
  symbols of members.
-/
import Erasure.Compile.Plan
import Erasure.Proofs.Compile.Layouts
import Erasure.Symbol.Mangling

namespace Erasure

open TypeSystem (Continues)

/-! ### Answers of steps that can fail -/

theorem exists_ok_of_isSome {ε α : Type} {x : Except ε α} (h : x.toOption.isSome) :
    ∃ a, x = .ok a := by
  cases x with
  | ok a => exact ⟨a, rfl⟩
  | error e => cases h

theorem Except.bind_eq_ok {ε α β : Type} {x : Except ε α} {f : α → Except ε β} {b : β} :
    x >>= f = .ok b ↔ ∃ a, x = .ok a ∧ f a = .ok b := by
  cases x with
  | ok a => exact ⟨fun h => ⟨a, rfl, h⟩, fun ⟨_, ha, h⟩ => Except.ok.inj ha ▸ h⟩
  | error e => exact ⟨nofun, fun ⟨_, ha, _⟩ => nomatch ha⟩

theorem Except.mapM_eq_ok_of_eq_ok {ε α β : Type} {f g : α → Except ε β} {as : List α}
    (hfg : ∀ a ∈ as, ∀ b, f a = .ok b → g a = .ok b) {bs : List β} (h : as.mapM f = .ok bs) :
    as.mapM g = .ok bs := by
  induction as generalizing bs with
  | nil => exact h
  | cons a as ih =>
    rw [List.mapM_cons] at h ⊢
    obtain ⟨b, hb, h⟩ := Except.bind_eq_ok.mp h
    obtain ⟨rest, hrest, h⟩ := Except.bind_eq_ok.mp h
    rw [hfg a List.mem_cons_self b hb]
    exact Except.bind_eq_ok.mpr ⟨b, rfl, Except.bind_eq_ok.mpr
      ⟨rest, ih (fun a' ha' => hfg a' (List.mem_cons_of_mem _ ha')) hrest, h⟩⟩

/-! ### Symbols that continue -/

namespace TypeSystem

variable {ts us : TypeSystem}

/-- The symbol of what a member defines: the storage of a field, or a procedure. -/
def memberSymbol (ts : TypeSystem) (m : MemberId) : Except MangleError Symbol :=
  if ClassPlan.isField ts m then ts.staticFieldSymbol m else ts.procedureSymbol m

theorem isField_of_le (hle : ts ≤ us) {m : MemberId} (hm : ts.HasMember m) :
    ClassPlan.isField us m = ClassPlan.isField ts m := by
  rw [ClassPlan.isField, ClassPlan.isField, member_of_le hle hm]

theorem isField_of_procedureSymbol {m : MemberId} {symbol : Symbol}
    (h : ts.procedureSymbol m = .ok symbol) : ClassPlan.isField ts m = false := by
  obtain ⟨container, -, h⟩ := Except.bind_eq_ok.mp h
  unfold ClassPlan.isField
  generalize (ts.member m).kind = kind at h
  cases kind with
  | method _ _ _ _ | constructor _ _ | initializer => rfl
  | field _ _ => cases h

theorem isField_of_staticFieldSymbol {m : MemberId} {symbol : Symbol}
    (h : ts.staticFieldSymbol m = .ok symbol) : ClassPlan.isField ts m = true := by
  unfold staticFieldSymbol at h
  unfold ClassPlan.isField
  generalize (ts.member m).kind = kind at h
  cases kind with
  | field _ _ => rfl
  | method _ _ _ _ | constructor _ _ | initializer => cases h

theorem memberSymbol_of_procedureSymbol {m : MemberId} {symbol : Symbol}
    (h : ts.procedureSymbol m = .ok symbol) : ts.memberSymbol m = .ok symbol := by
  rwa [memberSymbol, isField_of_procedureSymbol h, if_neg Bool.false_ne_true]

theorem memberSymbol_of_staticFieldSymbol {m : MemberId} {symbol : Symbol}
    (h : ts.staticFieldSymbol m = .ok symbol) : ts.memberSymbol m = .ok symbol := by
  rwa [memberSymbol, isField_of_staticFieldSymbol h, if_pos rfl]

section Continuing

variable (hts : ts.Valid) (h : Continues ts us)
include hts h

theorem argCodeWithin_of_continues {depth : Nat} {ty : TypeId} (hty : ts.pool.Has ty)
    {code : ArgCode} (hcode : ts.argCodeWithin depth ty = .ok code) :
    us.argCodeWithin depth ty = .ok code := by
  induction depth generalizing ty code with
  | zero => cases hcode
  | succ depth ih =>
    have hkind : ts.pool.HasKind ty (ts.kind ty) := hty.hasKind
    unfold argCodeWithin at hcode ⊢
    rw [kind_of_le h.le hty]
    generalize ts.kind ty = kind at hcode hkind
    cases kind with
    | array elem =>
      have helem := hts.pool.has_part hkind List.mem_cons_self
      dsimp only at hcode ⊢
      cases hinner : ts.argCodeWithin depth elem with
      | error e =>
        rw [hinner] at hcode
        cases hcode
      | ok inner => rwa [ih helem hinner, ← hinner]
    | raw c =>
      dsimp only at hcode ⊢
      rwa [(h.keepsNames hts).className (mentions_raw hkind)]
    | prim p =>
      cases p <;> first | exact hcode | cases hcode
    | null | var _ | lub _ | inst _ _ _ => cases hcode

theorem layoutTypeName_of_continues {ty : TypeId} (hty : ts.pool.Has ty) {name : String}
    (hname : ts.layoutTypeName ty = .ok name) : us.layoutTypeName ty = .ok name := by
  have hkind : ts.pool.HasKind ty (ts.kind ty) := hty.hasKind
  unfold layoutTypeName at hname ⊢
  rw [kind_of_le h.le hty]
  generalize ts.kind ty = kind at hname hkind
  cases kind with
  | raw c =>
    have hc := mentions_raw hkind
    dsimp only at hname ⊢
    rwa [(h.keepsNames hts).className hc, h.isInterface hc]
  | array _ => exact hname
  | prim _ | null | var _ | lub _ | inst _ _ _ => cases hname

variable {m : MemberId} (hm : ts.HasMember m) {symbol : Symbol}
include hm

/-- A symbol stays what it is while the type system goes on. -/
theorem procedureSymbol_of_continues (hsymbol : ts.procedureSymbol m = .ok symbol) :
    us.procedureSymbol m = .ok symbol := by
  have hadmits := hts.keys hm.hasKey
  have hcodes : ∀ ty ∈ (ts.member m).kind.types, ∀ code, ts.argCode ty = .ok code →
      us.argCode ty = .ok code := fun ty hty _ =>
    argCodeWithin_of_continues hts h (hadmits.types ty hty)
  obtain ⟨container, hcontainer, hsymbol⟩ := Except.bind_eq_ok.mp hsymbol
  unfold procedureSymbol
  rw [member_of_le h.le hm]
  refine Except.bind_eq_ok.mpr
    ⟨container, (h.keepsNames hts).linkName_eq hadmits.container hcontainer, ?_⟩
  have hname := hadmits.name
  generalize (ts.member m).kind = kind at hcodes hsymbol hname
  cases kind with
  | method name formals result params =>
    obtain ⟨codes, hformals, hsymbol⟩ := Except.bind_eq_ok.mp hsymbol
    dsimp only
    rw [text_of_le h.le (hname name rfl), Except.mapM_eq_ok_of_eq_ok
      (fun ty hty => hcodes ty (List.mem_append_left _ hty)) hformals]
    exact hsymbol
  | constructor formals params =>
    obtain ⟨codes, hformals, hsymbol⟩ := Except.bind_eq_ok.mp hsymbol
    dsimp only
    rw [@Except.mapM_eq_ok_of_eq_ok _ _ _ _ us.argCode formals hcodes _ hformals]
    exact hsymbol
  | field _ _ | initializer => cases hsymbol

theorem staticFieldSymbol_of_continues (hsymbol : ts.staticFieldSymbol m = .ok symbol) :
    us.staticFieldSymbol m = .ok symbol := by
  have hadmits := hts.keys hm.hasKey
  unfold staticFieldSymbol at hsymbol ⊢
  rw [member_of_le h.le hm]
  have hname := hadmits.name
  generalize (ts.member m).kind = kind, (ts.member m).flags.isStatic = isStatic at hsymbol hname
  cases kind with
  | field name type =>
    cases isStatic with
    | true =>
      obtain ⟨classType, hclass, hsymbol⟩ := Except.bind_eq_ok.mp hsymbol
      dsimp only
      rw [layoutTypeName_of_continues hts h hadmits.container hclass,
        text_of_le h.le (hname name rfl)]
      exact hsymbol
    | false => cases hsymbol
  | method _ _ _ _ | constructor _ _ | initializer => cases hsymbol

theorem memberSymbol_of_continues (hsymbol : ts.memberSymbol m = .ok symbol) :
    us.memberSymbol m = .ok symbol := by
  unfold memberSymbol at hsymbol ⊢
  rw [isField_of_le h.le hm]
  split at hsymbol
  case isTrue hfield =>
    rw [if_pos hfield]
    exact staticFieldSymbol_of_continues hts h hm hsymbol
  case isFalse hfield =>
    rw [if_neg hfield]
    exact procedureSymbol_of_continues hts h hm hsymbol

end Continuing

end TypeSystem

end Erasure
