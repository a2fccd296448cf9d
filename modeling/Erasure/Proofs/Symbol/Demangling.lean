/-
The demangled form of procedures.

A procedure has two printed forms for readers. One is printed from the type system, type by type; the
other is printed from its symbol, after mangling and reading back, where only argument codes are left
of the formals. `char` and `short` share an argument code, which is printed as `short`, so that the
two forms differ by one letter for every formal that is `char` or an array of it. The main
statements:

* `HasArgCode.describe_eq_display`, `HasArgCode.length_describe`: the printed form of an argument
  code is that of the type, unless the type is `char` or an array of it.
* `demangle_eq_display_iff`: demangling the symbol of a procedure prints the procedure itself exactly
  if no formal is `char` or an array of it.
* `demangle_procedure`: so it does for formals that are built from the other types.
-/
import Erasure.Proofs.Symbol.Mangling

namespace Erasure.TypeSystem

variable {ts : TypeSystem}

/-! ### Argument codes -/

/-- The type `char`, or an array of it at any depth. -/
inductive IsCharBased (ts : TypeSystem) : TypeId → Prop
  | char {ty : TypeId} : ts.pool.HasKind ty (.prim .char) → IsCharBased ts ty
  | array {ty elem : TypeId} : ts.pool.HasKind ty (.array elem) → IsCharBased ts elem →
      IsCharBased ts ty

theorem isCharBased_array_iff {ty elem : TypeId} (hk : ts.pool.HasKind ty (.array elem)) :
    ts.IsCharBased ty ↔ ts.IsCharBased elem := by
  refine ⟨fun h => ?_, .array hk⟩
  cases h with
  | char hk' => cases hk.unique hk'
  | array hk' h =>
    cases hk.unique hk'
    exact h

theorem isCharBased_prim_iff {ty : TypeId} {p : Primitive} (hk : ts.pool.HasKind ty (.prim p)) :
    ts.IsCharBased ty ↔ p = .char := by
  refine ⟨fun h => ?_, fun hp => .char (hp ▸ hk)⟩
  cases h with
  | char hk' =>
    cases hk.unique hk'
    rfl
  | array hk' _ => cases hk.unique hk'

theorem not_isCharBased_raw {ty : TypeId} {c : ClassId} (hk : ts.pool.HasKind ty (.raw c)) :
    ¬ ts.IsCharBased ty := by
  intro h
  cases h with
  | char hk' => cases hk.unique hk'
  | array hk' _ => cases hk.unique hk'

/-- The argument code of a primitive type is printed as its keyword, except that of `char`. -/
theorem describe_primitiveCode? {p : Primitive} {code : ArgCode} (h : primitiveCode? p = some code)
    (hp : p ≠ .char) : code.describe = p.keyword := by
  cases p with
  | char => exact absurd rfl hp
  | void => cases h
  | boolean | byte | short | int | long | float | double =>
    cases h
    rfl

/-- An argument code is printed as the type, if that is not `char` or an array of it. -/
theorem HasArgCode.describe_eq_display (hts : ts.Valid) {ty : TypeId} {code : ArgCode}
    (h : ts.HasArgCode ty code) (hchar : ¬ ts.IsCharBased ty) {depth : Nat}
    (hdepth : ty.index < depth) : code.describe = ts.displayWithin depth ty := by
  induction h generalizing depth with
  | raw hk =>
    obtain ⟨depth, rfl⟩ := Nat.exists_eq_add_of_lt hdepth
    rw [displayWithin, show ts.kind _ = _ from hk.kind_eq]
    rfl
  | prim hk hcode =>
    obtain ⟨depth, rfl⟩ := Nat.exists_eq_add_of_lt hdepth
    rw [displayWithin, show ts.kind _ = _ from hk.kind_eq]
    exact describe_primitiveCode? hcode fun hp => hchar ((isCharBased_prim_iff hk).mpr hp)
  | @array ty elem code hk _ ih =>
    obtain ⟨depth, rfl⟩ := Nat.exists_eq_add_of_lt hdepth
    have hlt := hts.pool.parts_lt hk elem List.mem_cons_self
    have helem := ih (fun h => hchar (.array hk h)) (show elem.index < ty.index + depth by omega)
    rw [displayWithin, show ts.kind _ = _ from hk.kind_eq, ArgCode.describe, helem]

/-- The argument code of `char`, or of an array of it, is printed one letter longer than the type. -/
theorem HasArgCode.length_describe (hts : ts.Valid) {ty : TypeId} {code : ArgCode}
    (h : ts.HasArgCode ty code) (hchar : ts.IsCharBased ty) {depth : Nat}
    (hdepth : ty.index < depth) :
    code.describe.length = (ts.displayWithin depth ty).length + 1 := by
  induction h generalizing depth with
  | raw hk => exact absurd hchar (not_isCharBased_raw hk)
  | prim hk hcode =>
    obtain ⟨depth, rfl⟩ := Nat.exists_eq_add_of_lt hdepth
    rw [displayWithin, show ts.kind _ = _ from hk.kind_eq]
    obtain rfl := (isCharBased_prim_iff hk).mp hchar
    cases hcode
    show (ArgCode.int 16).describe.length = Primitive.char.keyword.length + 1
    decide
  | @array ty elem code hk _ ih =>
    obtain ⟨depth, rfl⟩ := Nat.exists_eq_add_of_lt hdepth
    have hlt := hts.pool.parts_lt hk elem List.mem_cons_self
    have helem :=
      ih ((isCharBased_array_iff hk).mp hchar) (show elem.index < ty.index + depth by omega)
    rw [displayWithin, show ts.kind _ = _ from hk.kind_eq, ArgCode.describe, String.length_append,
      String.length_append, helem]
    omega

/-! ### Lists of formals -/

/-- Texts that are at least as long as others are so with commas between them, and then only as long
if each of them is. -/
theorem length_commaSeparated {ss us : List String}
    (h : List.Forall₂ (fun s u => s.length ≤ u.length) ss us) :
    (commaSeparated ss).length ≤ (commaSeparated us).length ∧
      ((commaSeparated ss).length = (commaSeparated us).length →
        List.Forall₂ (fun s u => s.length = u.length) ss us) := by
  induction h with
  | nil => exact ⟨le_refl _, fun _ => .nil⟩
  | @cons s u ss us hle hrest ih =>
    cases hrest with
    | nil =>
      simp only [commaSeparated, String.intercalate_singleton]
      exact ⟨hle, fun heq => .cons heq .nil⟩
    | cons hle' hrest =>
      simp only [commaSeparated, String.intercalate_cons_cons, String.length_append] at ih ⊢
      refine ⟨by omega, fun heq => ?_⟩
      have hhead : s.length = u.length := by omega
      exact .cons hhead (ih.2 (by omega))

/-- Argument codes are printed as a list of formals exactly if none of these is `char` or an array of
it. -/
theorem describe_eq_displayList_iff (hts : ts.Valid) {formals : List TypeId} {args : List ArgCode}
    (h : List.Forall₂ ts.HasArgCode formals args) :
    commaSeparated (args.map ArgCode.describe) = ts.displayList formals ↔
      ∀ ty ∈ formals, ¬ ts.IsCharBased ty := by
  constructor
  · intro heq
    have hlengths : List.Forall₂ (fun s u => s.length ≤ u.length) (formals.map ts.display)
        (args.map ArgCode.describe) := by
      rw [List.forall₂_map_left_iff, List.forall₂_map_right_iff]
      refine h.imp fun ty code hcode => ?_
      by_cases hchar : ts.IsCharBased ty
      · exact Nat.le.intro (hcode.length_describe hts hchar (Nat.lt_succ_self _)).symm
      · exact (congrArg String.length
          (hcode.describe_eq_display hts hchar (Nat.lt_succ_self _))).ge
    have hall := (length_commaSeparated hlengths).2 (congrArg String.length heq).symm
    rw [List.forall₂_map_left_iff, List.forall₂_map_right_iff] at hall
    clear heq hlengths
    induction h with
    | nil => exact fun _ hty => absurd hty List.not_mem_nil
    | @cons ty code formals args hcode _ ih =>
      obtain ⟨hhead, htail⟩ := List.forall₂_cons.mp hall
      refine List.forall_mem_cons.mpr ⟨fun hchar => ?_, ih htail⟩
      have hlonger := hcode.length_describe hts hchar (Nat.lt_succ_self _)
      rw [← display, ← hhead] at hlonger
      omega
  · intro hchar
    suffices hmap : args.map ArgCode.describe = formals.map ts.display from
      congrArg commaSeparated hmap
    induction h with
    | nil => rfl
    | @cons ty code formals args hcode _ ih =>
      obtain ⟨hhead, htail⟩ := List.forall_mem_cons.mp hchar
      rw [List.map_cons, List.map_cons, ih htail,
        hcode.describe_eq_display hts hhead (Nat.lt_succ_self _)]
      rfl

end Erasure.TypeSystem

namespace Erasure.Symbol

theorem describe_method (container name : String) (args : List ArgCode) :
    (method container name args).describe = container ++ "." ++ name ++ describeArgs args := rfl

theorem describe_constructor (container : String) (args : List ArgCode) :
    (constructor container args).describe = container ++ ".<init>" ++ describeArgs args := rfl

end Erasure.Symbol

namespace Erasure.SymbolRequest

variable {ts : TypeSystem} {m : MemberId} {c : ClassId}

/-! ### Procedures -/

/-- The symbol of a procedure of a class is printed as the procedure is, up to the argument codes. -/
theorem Denotes.describe_eq {sym : Symbol} (h : (procedure m).Denotes ts sym)
    (hcontainer : ts.pool.HasKind (ts.member m).container (.raw c)) :
    ∃ mark, sym.describe =
        mark ++ TypeSystem.commaSeparated (sym.args.map ArgCode.describe) ++ ")" ∧
      ts.displayMember m = mark ++ ts.displayList (ts.member m).kind.formals ++ ")" := by
  have hdisplay : ts.display (ts.member m).container = ts.className c := by
    rw [TypeSystem.display, TypeSystem.displayWithin, show ts.kind _ = _ from hcontainer.kind_eq]
  have hlink : ∀ name, ts.HasLinkName (ts.member m).container name → name = ts.className c := by
    intro name hname
    cases hname with
    | raw hk =>
      cases hk.unique hcontainer
      rfl
    | array hk => cases hk.unique hcontainer
  cases h with
  | @method _ name _ _ _ container args hkind hname _ =>
    obtain rfl := hlink container hname
    refine ⟨ts.className c ++ "." ++ ts.text name ++ "(", ?_, ?_⟩
    · rw [Symbol.describe_method, Symbol.describeArgs, ← String.append_assoc, ← String.append_assoc]
      rfl
    · rw [TypeSystem.displayMember, hkind, hdisplay]
      rfl
  | @constructor _ _ _ container args hkind hname _ =>
    obtain rfl := hlink container hname
    have hinit : ".<init>" = "." ++ TypeSystem.constructorName := by decide
    refine ⟨ts.className c ++ "." ++ TypeSystem.constructorName ++ "(", ?_, ?_⟩
    · rw [Symbol.describe_constructor, Symbol.describeArgs, hinit, ← String.append_assoc,
        ← String.append_assoc, ← String.append_assoc]
      rfl
    · rw [TypeSystem.displayMember, hkind, hdisplay]
      rfl

/-- Demangling the symbol of a procedure of a class prints the procedure itself, exactly if no formal
is `char` or an array of it. -/
theorem demangle_eq_display_iff (hts : ts.Valid) (h : (procedure m).Admitted ts)
    (hcontainer : ts.pool.HasKind (ts.member m).container (.raw c)) :
    ∃ sym, ts.procedureSymbol m = .ok sym ∧
      ∃ text, Symbol.demangle? sym.encode = some text ∧
        (text = ts.displayMember m ↔ ∀ ty ∈ (ts.member m).kind.formals, ¬ ts.IsCharBased ty) := by
  obtain ⟨sym, hsym, hdenotes, hvalid⟩ := exists_symbol_procedure hts h
  obtain ⟨mark, hdescribe, hdisplay⟩ := hdenotes.describe_eq hcontainer
  refine ⟨sym, hsym, sym.describe, ?_, ?_⟩
  · rw [Symbol.demangle?, Symbol.decode?_encode hvalid]
    rfl
  · rw [hdescribe, hdisplay, String.append_left_inj, String.append_right_inj]
    exact TypeSystem.describe_eq_displayList_iff hts hdenotes.args

/-- Let a method or constructor be declared by a class, and let its formals be built from classes,
arrays and primitive types other than `void` and `char`, all names being names of the language. Then
it has a symbol, and demangling the symbol prints the member itself. -/
theorem demangle_procedure (hts : ts.Valid) (hprocedure : (ts.member m).kind.isProcedure = true)
    (hcontainer : ts.pool.HasKind (ts.member m).container (.raw c))
    (hclass : Symbol.IsName (ts.className c))
    (hname : ∀ name ∈ (ts.member m).kind.name?, Symbol.IsName (ts.text name))
    (hformals : ∀ ty ∈ (ts.member m).kind.formals, ts.IsArgType ty ∧ ¬ ts.IsCharBased ty) :
    ∃ sym, ts.procedureSymbol m = .ok sym ∧
      Symbol.demangle? sym.encode = some (ts.displayMember m) := by
  have hadmitted : (procedure m).Admitted ts :=
    ⟨hprocedure, .raw hcontainer hclass, hname, fun ty hty => (hformals ty hty).1⟩
  obtain ⟨sym, hsym, text, htext, hiff⟩ := demangle_eq_display_iff hts hadmitted hcontainer
  obtain rfl := hiff.mpr fun ty hty => (hformals ty hty).2
  exact ⟨sym, hsym, htext⟩

/-! ### An example -/

/-- A session that declares a class `p.Grid` with a method `fill(int[][], core.String, p.Grid[])`. -/
def gridSession : Canonicalizer :=
  let s := (Canonicalizer.fresh .initial).declared (.declareClass "p.Grid" {})
  let s := (s.asked (.rawClass ⟨2⟩)).asked (.array Primitive.int.typeId)
  let s := (s.asked (.array ⟨14⟩)).asked (.array ⟨13⟩)
  let s := s.asked (.intern "fill")
  s.declared (.declareMember ⟨2⟩ (.method ⟨10⟩ [⟨15⟩, .string, ⟨16⟩] Primitive.void.typeId []) {})

theorem gridSession_reachable : Canonicalizer.Reachable gridSession := by
  -- The steps make one goal, so that the prelude is evaluated once.
  suffices h : _ ∧ _ ∧ _ ∧ _ by
    obtain ⟨h₁, h₂, h₃, h₄⟩ := h
    exact .declare _ (.ask _ (.ask _ (.ask _ (.ask _ (.ask _ (.declare _ .initial trivial) trivial)
      h₁) h₂) h₃) trivial) h₄
  unfold TypeSystem.Query.Admitted TypeSystem.Declaration.Admitted
  decide +kernel

/-- The mangled name of the method is printed as the method, with the nested arrays. -/
theorem demangle_procedure_grid :
    ∃ sym, gridSession.types.procedureSymbol ⟨15⟩ = .ok sym ∧
      sym.encode = "_tern_6p.Grid_4fill_a_a_i32_11core.String_a_6p.Grid" ∧
      Symbol.demangle? sym.encode = some "p.Grid.fill(int[][], core.String, p.Grid[])" := by
  obtain ⟨hkind, hcontainer, hgrid, hstring, harrays, hnames, hsymbol, hdisplay⟩ :
      (gridSession.types.member ⟨15⟩).kind =
          .method ⟨10⟩ [⟨15⟩, .string, ⟨16⟩] Primitive.void.typeId [] ∧
        (gridSession.types.member ⟨15⟩).container = ⟨13⟩ ∧
        gridSession.types.pool.HasKind ⟨13⟩ (.raw ⟨2⟩) ∧
        gridSession.types.pool.HasKind .string (.raw .string) ∧
        (gridSession.types.pool.HasKind Primitive.int.typeId (.prim .int) ∧
          gridSession.types.pool.HasKind ⟨14⟩ (.array Primitive.int.typeId) ∧
          gridSession.types.pool.HasKind ⟨15⟩ (.array ⟨14⟩) ∧
          gridSession.types.pool.HasKind ⟨16⟩ (.array ⟨13⟩)) ∧
        (Symbol.IsName (gridSession.types.className ⟨2⟩) ∧
          Symbol.IsName (gridSession.types.className .string) ∧
          Symbol.IsName (gridSession.types.text ⟨10⟩)) ∧
        (gridSession.types.procedureSymbol ⟨15⟩).toOption.map Symbol.encode =
          some "_tern_6p.Grid_4fill_a_a_i32_11core.String_a_6p.Grid" ∧
        gridSession.types.displayMember ⟨15⟩ = "p.Grid.fill(int[][], core.String, p.Grid[])" := by
    decide +kernel
  obtain ⟨hint, hrow, hrows, hgrids⟩ := harrays
  obtain ⟨hclass, hstringName, hname⟩ := hnames
  have hformals : ∀ ty ∈ [⟨15⟩, .string, ⟨16⟩],
      gridSession.types.IsArgType ty ∧ ¬ gridSession.types.IsCharBased ty := by
    refine List.forall_mem_cons.mpr ⟨⟨.array hrows (.array hrow (.prim hint nofun)), ?_⟩,
      List.forall_mem_cons.mpr ⟨⟨.raw hstring hstringName, TypeSystem.not_isCharBased_raw hstring⟩,
        List.forall_mem_singleton.mpr ⟨.array hgrids (.raw hgrid hclass), ?_⟩⟩⟩
    · rw [TypeSystem.isCharBased_array_iff hrows, TypeSystem.isCharBased_array_iff hrow,
        TypeSystem.isCharBased_prim_iff hint]
      nofun
    · rw [TypeSystem.isCharBased_array_iff hgrids]
      exact TypeSystem.not_isCharBased_raw hgrid
  obtain ⟨sym, hsym, hdemangle⟩ := demangle_procedure gridSession_reachable.valid.types
    (by rw [hkind]; rfl) (hcontainer ▸ hgrid) hclass (by
      rw [hkind]
      rintro name ⟨⟩
      exact hname) (by rw [hkind]; exact hformals)
  rw [hsym] at hsymbol
  exact ⟨sym, hsym, Option.some.inj hsymbol, hdisplay ▸ hdemangle⟩

end Erasure.SymbolRequest
