/-
The symbols of members and classes.

A request names a procedure, or a class and one piece of its layout. Its symbol carries the names
of the classes and methods involved and the argument codes of the formals, and the mangled name is
read back as that symbol. The main statements:

* `Admitted.exists_symbol`: an admitted request has a symbol, of its category and with its names.
* `HasArgCode.sameArg`: formals of one argument code differ in `char` and `short` at most.
* `mangling_round_trip`: reading a mangled name undoes mangling, so that two requests with one
  mangled name agree.
-/
import Erasure.Symbol.Mangling
import Erasure.Proofs.Canonical.Session
import Erasure.Proofs.Symbol.RoundTrip

namespace Erasure

/-- What a symbol is asked for. -/
inductive SymbolRequest where
  | procedure (m : MemberId)
  | size (ty : TypeId)
  | dispatchVector (ty : TypeId)
  | classInit (ty : TypeId)
  | interfacesInit (ty : TypeId)
  | interfaceTable (interface ty : TypeId)
  | interfaceDescriptor (interface : TypeId)

namespace TypeSystem

variable {ts us : TypeSystem}

/-! ### Names -/

/-- A raw class with a name of the language, or an array type. -/
inductive IsLinked (ts : TypeSystem) : TypeId → Prop
  | raw {ty : TypeId} {c : ClassId} : ts.pool.HasKind ty (.raw c) →
      Symbol.IsName (ts.className c) → IsLinked ts ty
  | array {ty elem : TypeId} : ts.pool.HasKind ty (.array elem) → IsLinked ts ty

/-- The name of a class in symbols; all arrays share one. -/
inductive HasLinkName (ts : TypeSystem) : TypeId → String → Prop
  | raw {ty : TypeId} {c : ClassId} : ts.pool.HasKind ty (.raw c) →
      HasLinkName ts ty (ts.className c)
  | array {ty elem : TypeId} : ts.pool.HasKind ty (.array elem) →
      HasLinkName ts ty Symbol.arrayClass

/-- A raw interface with the given name. -/
def HasInterfaceName (ts : TypeSystem) (ty : TypeId) (name : String) : Prop :=
  ∃ c, ts.pool.HasKind ty (.raw c) ∧ ts.isInterface c = true ∧ name = ts.className c

theorem IsLinked.exists_linkName {ty : TypeId} (h : ts.IsLinked ty) :
    ∃ name, ts.linkName ty = .ok name ∧ ts.HasLinkName ty name ∧ Symbol.IsName name := by
  unfold linkName
  cases h with
  | @raw c hk hname =>
    rw [show ts.kind ty = _ from hk.kind_eq]
    exact ⟨_, rfl, .raw hk, hname⟩
  | array hk =>
    rw [show ts.kind ty = _ from hk.kind_eq]
    exact ⟨_, rfl, .array hk, by decide⟩

theorem exists_interfaceLinkName {ty : TypeId} {name : String} (h : ts.HasInterfaceName ty name) :
    ts.interfaceLinkName ty = .ok name := by
  obtain ⟨c, hk, hinterface, rfl⟩ := h
  rw [interfaceLinkName, show ts.kind ty = _ from hk.kind_eq]
  exact if_pos hinterface

/-! ### Argument codes -/

/-- A type built from raw classes, arrays and primitive types other than `void`. -/
inductive IsArgType (ts : TypeSystem) : TypeId → Prop
  | raw {ty : TypeId} {c : ClassId} : ts.pool.HasKind ty (.raw c) →
      Symbol.IsName (ts.className c) → IsArgType ts ty
  | prim {ty : TypeId} {p : Primitive} : ts.pool.HasKind ty (.prim p) → p ≠ .void →
      IsArgType ts ty
  | array {ty elem : TypeId} : ts.pool.HasKind ty (.array elem) → IsArgType ts elem →
      IsArgType ts ty

/-- The argument code of a primitive type; `char` and `short` share theirs. -/
def primitiveCode? : Primitive → Option ArgCode
  | .boolean => some .boolean
  | .byte => some (.int 8)
  | .short | .char => some (.int 16)
  | .int => some (.int 32)
  | .long => some (.int 64)
  | .float => some .float
  | .double => some .double
  | .void => none

/-- The argument code of a formal of the given type. -/
inductive HasArgCode (ts : TypeSystem) : TypeId → ArgCode → Prop
  | raw {ty : TypeId} {c : ClassId} : ts.pool.HasKind ty (.raw c) →
      HasArgCode ts ty (.reference (ts.className c))
  | prim {ty : TypeId} {p : Primitive} {code : ArgCode} : ts.pool.HasKind ty (.prim p) →
      primitiveCode? p = some code → HasArgCode ts ty code
  | array {ty elem : TypeId} {code : ArgCode} : ts.pool.HasKind ty (.array elem) →
      HasArgCode ts elem code → HasArgCode ts ty (.array code)

/-- A type built from raw classes, arrays and primitive types has an argument code. -/
theorem IsArgType.exists_argCode (hts : ts.Valid) {ty : TypeId} (h : ts.IsArgType ty) {depth : Nat}
    (hdepth : ty.index < depth) : ∃ code, ts.argCodeWithin depth ty = .ok code ∧
      ts.HasArgCode ty code ∧ code.IsValid := by
  induction h generalizing depth with
  | raw hk hname =>
    obtain ⟨depth, rfl⟩ := Nat.exists_eq_add_of_lt hdepth
    rw [argCodeWithin, show ts.kind _ = _ from hk.kind_eq]
    exact ⟨_, rfl, .raw hk, hname⟩
  | @prim ty p hk hvoid =>
    obtain ⟨depth, rfl⟩ := Nat.exists_eq_add_of_lt hdepth
    rw [argCodeWithin, show ts.kind _ = _ from hk.kind_eq]
    cases p with
    | void => exact absurd rfl hvoid
    | boolean | float | double => exact ⟨_, rfl, .prim hk rfl, trivial⟩
    | byte | short | char | int | long =>
      exact ⟨_, rfl, .prim hk rfl, by show _ < UInt32.size; decide⟩
  | @array ty elem hk _ ih =>
    obtain ⟨depth, rfl⟩ := Nat.exists_eq_add_of_lt hdepth
    have hlt := hts.pool.parts_lt hk elem List.mem_cons_self
    have hbelow : elem.index < ty.index + depth := by omega
    obtain ⟨code, hcode, hhas, hvalid⟩ := ih hbelow
    rw [argCodeWithin, show ts.kind _ = _ from hk.kind_eq]
    exact ⟨.array code, congrArg (Except.map ArgCode.array) hcode, .array hk hhas, hvalid⟩

/-- The argument codes of the formals of a procedure. -/
theorem exists_argCodes (hts : ts.Valid) {formals : List TypeId}
    (h : ∀ ty ∈ formals, ts.IsArgType ty) : ∃ codes, formals.mapM ts.argCode = .ok codes ∧
      List.Forall₂ ts.HasArgCode formals codes ∧ ∀ code ∈ codes, code.IsValid := by
  induction formals with
  | nil => exact ⟨[], rfl, .nil, nofun⟩
  | cons ty formals ih =>
    obtain ⟨code, hcode, hhas, hvalid⟩ :=
      (h ty List.mem_cons_self).exists_argCode hts (Nat.lt_succ_self _)
    obtain ⟨codes, hcodes, hall, hvalid'⟩ := ih fun ty hty => h ty (List.mem_cons_of_mem _ hty)
    refine ⟨code :: codes, ?_, .cons hhas hall, List.forall_mem_cons.mpr ⟨hvalid, hvalid'⟩⟩
    rw [List.mapM_cons, argCode, hcode]
    exact congrArg (Except.map (code :: ·)) hcodes

/-- Types that share an argument code: classes of one name, one primitive type or two of 16 bits, or
arrays of such types. -/
inductive SameArg (ts us : TypeSystem) : TypeId → TypeId → Prop
  | raw {ty ty' : TypeId} {c c' : ClassId} : ts.pool.HasKind ty (.raw c) →
      us.pool.HasKind ty' (.raw c') → ts.className c = us.className c' → SameArg ts us ty ty'
  | prim {ty ty' : TypeId} {p p' : Primitive} : ts.pool.HasKind ty (.prim p) →
      us.pool.HasKind ty' (.prim p') →
      p = p' ∨ (p ∈ [.short, .char] ∧ p' ∈ [.short, .char]) → SameArg ts us ty ty'
  | array {ty ty' elem elem' : TypeId} : ts.pool.HasKind ty (.array elem) →
      us.pool.HasKind ty' (.array elem') → SameArg ts us elem elem' → SameArg ts us ty ty'

/-- Formals of one argument code differ in `char` and `short` at most. -/
theorem HasArgCode.sameArg {ty ty' : TypeId} {code : ArgCode} (h : ts.HasArgCode ty code)
    (h' : us.HasArgCode ty' code) : SameArg ts us ty ty' := by
  induction h generalizing ty' with
  | @raw ty c hk =>
    generalize hcode : ArgCode.reference (ts.className c) = code at h'
    cases h' with
    | raw hk' => exact .raw hk hk' (ArgCode.reference.inj hcode)
    | @prim _ p _ _ hp =>
      subst hcode
      cases p <;> cases hp
    | array _ _ => cases hcode
  | @prim ty p code hk hp =>
    cases h' with
    | raw _ => cases p <;> cases hp
    | @prim _ p' _ hk' hp' =>
      refine .prim hk hk' ?_
      have hcodes : ∀ p p' code, primitiveCode? p = some code → primitiveCode? p' = some code →
          p = p' ∨ (p ∈ [.short, .char] ∧ p' ∈ [.short, .char]) := by
        intro p p' code hp hp'
        cases p <;> cases hp <;> cases p' <;> cases hp' <;> decide
      exact hcodes p p' code hp hp'
    | array _ _ => cases p <;> cases hp
  | array hk _ ih =>
    cases h' with
    | @prim _ p _ _ hp => cases p <;> cases hp
    | array hk' h' => exact .array hk hk' (ih h')

theorem forall₂_sameArg {tys tys' : List TypeId} {codes : List ArgCode}
    (h : List.Forall₂ ts.HasArgCode tys codes) (h' : List.Forall₂ us.HasArgCode tys' codes) :
    List.Forall₂ (SameArg ts us) tys tys' := by
  induction h generalizing tys' with
  | nil =>
    cases h'
    exact .nil
  | cons hcode _ ih =>
    cases h' with
    | cons hcode' h' => exact .cons (hcode.sameArg hcode') (ih h')

end TypeSystem

/-- The argument codes in a symbol. -/
def Symbol.args : Symbol → List ArgCode
  | method _ _ args | constructor _ args => args
  | staticField .. | size _ | dispatchVector _ | interfaceTable .. | classInit _ | interfacesInit _
  | interfaceDescriptor _ => []

/-! ### Requests -/

namespace SymbolRequest

variable {ts us : TypeSystem} {r r' : SymbolRequest}

/-- The symbol that is asked for. -/
def symbol (ts : TypeSystem) : SymbolRequest → Except MangleError Symbol
  | procedure m => ts.procedureSymbol m
  | size ty => ts.sizeSymbol ty
  | dispatchVector ty => ts.dispatchVectorSymbol ty
  | classInit ty => ts.classInitSymbol ty
  | interfacesInit ty => ts.interfacesInitSymbol ty
  | interfaceTable interface ty => ts.interfaceTableSymbol interface ty
  | interfaceDescriptor interface => ts.interfaceDescriptorSymbol interface

/-- The types of the formals of the procedure that is asked for. -/
def formals (ts : TypeSystem) : SymbolRequest → List TypeId
  | procedure m => (ts.member m).kind.formals
  | size _ | dispatchVector _ | classInit _ | interfacesInit _ | interfaceTable _ _
  | interfaceDescriptor _ => []

/-- The request is about raw classes and arrays, and all names are names of the language. -/
def Admitted (ts : TypeSystem) : SymbolRequest → Prop
  | procedure m => (ts.member m).kind.isProcedure = true ∧ ts.IsLinked (ts.member m).container ∧
    (∀ name ∈ (ts.member m).kind.name?, Symbol.IsName (ts.text name)) ∧
    ∀ ty ∈ (ts.member m).kind.formals, ts.IsArgType ty
  | size ty | dispatchVector ty | classInit ty | interfacesInit ty => ts.IsLinked ty
  | interfaceTable interface ty =>
    (∃ name, ts.HasInterfaceName interface name ∧ Symbol.IsName name) ∧ ts.IsLinked ty
  | interfaceDescriptor interface => ∃ name, ts.HasInterfaceName interface name ∧ Symbol.IsName name

/-- The symbol is of the category of the request, with the names that the request involves and the
argument codes of its formals. -/
inductive Denotes (ts : TypeSystem) : SymbolRequest → Symbol → Prop
  | method {m : MemberId} {name : Name} {formals : List TypeId} {result : TypeId}
      {params : List TypeVarId} {container : String} {args : List ArgCode} :
      (ts.member m).kind = .method name formals result params →
      ts.HasLinkName (ts.member m).container container → List.Forall₂ ts.HasArgCode formals args →
      Denotes ts (.procedure m) (.method container (ts.text name) args)
  | constructor {m : MemberId} {formals : List TypeId} {params : List TypeVarId}
      {container : String} {args : List ArgCode} :
      (ts.member m).kind = .constructor formals params →
      ts.HasLinkName (ts.member m).container container → List.Forall₂ ts.HasArgCode formals args →
      Denotes ts (.procedure m) (.constructor container args)
  | size {ty : TypeId} {name : String} : ts.HasLinkName ty name →
      Denotes ts (.size ty) (.size name)
  | dispatchVector {ty : TypeId} {name : String} : ts.HasLinkName ty name →
      Denotes ts (.dispatchVector ty) (.dispatchVector name)
  | classInit {ty : TypeId} {name : String} : ts.HasLinkName ty name →
      Denotes ts (.classInit ty) (.classInit name)
  | interfacesInit {ty : TypeId} {name : String} : ts.HasLinkName ty name →
      Denotes ts (.interfacesInit ty) (.interfacesInit name)
  | interfaceTable {interface ty : TypeId} {name name' : String} :
      ts.HasInterfaceName interface name → ts.HasLinkName ty name' →
      Denotes ts (.interfaceTable interface ty) (.interfaceTable name name')
  | interfaceDescriptor {interface : TypeId} {name : String} :
      ts.HasInterfaceName interface name →
      Denotes ts (.interfaceDescriptor interface) (.interfaceDescriptor name)

/-- An admitted request for a procedure has a symbol, of its category and with its names. -/
theorem exists_symbol_procedure (hts : ts.Valid) {m : MemberId} (h : (procedure m).Admitted ts) :
    ∃ sym, (procedure m).symbol ts = .ok sym ∧ (procedure m).Denotes ts sym ∧ sym.IsValid := by
  obtain ⟨hprocedure, hlinked, hname, hformals⟩ := h
  obtain ⟨container, hlink, hhas, hcontainer⟩ := hlinked.exists_linkName
  change ∃ sym, ts.procedureSymbol m = .ok sym ∧ _
  rw [TypeSystem.procedureSymbol, hlink]
  cases hkind : (ts.member m).kind with
  | method name formals result params =>
    rw [hkind] at hname hformals
    obtain ⟨codes, hcodes, hall, hvalid⟩ := TypeSystem.exists_argCodes hts hformals
    refine ⟨.method container (ts.text name) codes, ?_, .method hkind hhas hall,
      hcontainer, hname name rfl, hvalid⟩
    exact congrArg (Except.map (Symbol.method container (ts.text name))) hcodes
  | constructor formals params =>
    rw [hkind] at hformals
    obtain ⟨codes, hcodes, hall, hvalid⟩ := TypeSystem.exists_argCodes hts hformals
    refine ⟨.constructor container codes, ?_, .constructor hkind hhas hall, hcontainer, hvalid⟩
    exact congrArg (Except.map (Symbol.constructor container)) hcodes
  | field name type => exact nomatch hkind ▸ hprocedure
  | initializer => exact nomatch hkind ▸ hprocedure

/-- An admitted request has a symbol, of its category and with its names. -/
theorem Admitted.exists_symbol (hts : ts.Valid) (h : r.Admitted ts) :
    ∃ sym, r.symbol ts = .ok sym ∧ r.Denotes ts sym ∧ sym.IsValid := by
  cases r with
  | procedure m => exact exists_symbol_procedure hts h
  | size ty =>
    obtain ⟨name, hlink, hhas, hname⟩ := h.exists_linkName
    exact ⟨.size name, congrArg (Except.map Symbol.size) hlink, .size hhas, hname⟩
  | dispatchVector ty =>
    obtain ⟨name, hlink, hhas, hname⟩ := h.exists_linkName
    exact ⟨.dispatchVector name, congrArg (Except.map Symbol.dispatchVector) hlink,
      .dispatchVector hhas, hname⟩
  | classInit ty =>
    obtain ⟨name, hlink, hhas, hname⟩ := h.exists_linkName
    exact ⟨.classInit name, congrArg (Except.map Symbol.classInit) hlink, .classInit hhas, hname⟩
  | interfacesInit ty =>
    obtain ⟨name, hlink, hhas, hname⟩ := h.exists_linkName
    exact ⟨.interfacesInit name, congrArg (Except.map Symbol.interfacesInit) hlink,
      .interfacesInit hhas, hname⟩
  | interfaceTable interface ty =>
    obtain ⟨⟨name, hinterface, hname⟩, hlinked⟩ := h
    obtain ⟨name', hlink, hhas, hname'⟩ := hlinked.exists_linkName
    refine ⟨.interfaceTable name name', ?_, .interfaceTable hinterface hhas, hname, hname'⟩
    change ts.interfaceTableSymbol interface ty = _
    rw [TypeSystem.interfaceTableSymbol, TypeSystem.exists_interfaceLinkName hinterface]
    exact congrArg (Except.map (Symbol.interfaceTable name)) hlink
  | interfaceDescriptor interface =>
    obtain ⟨name, hinterface, hname⟩ := h
    refine ⟨.interfaceDescriptor name, ?_, .interfaceDescriptor hinterface, hname⟩
    exact congrArg (Except.map Symbol.interfaceDescriptor)
      (TypeSystem.exists_interfaceLinkName hinterface)

/-- The symbol carries the argument codes of the formals. -/
theorem Denotes.args {sym : Symbol} (h : r.Denotes ts sym) :
    List.Forall₂ ts.HasArgCode (r.formals ts) sym.args := by
  cases h with
  | method hkind _ hall | constructor hkind _ hall =>
    simp only [formals, hkind, MemberKind.formals]
    exact hall
  | size _ | dispatchVector _ | classInit _ | interfacesInit _ | interfaceTable _ _
  | interfaceDescriptor _ => exact .nil

/-- Reading undoes mangling: the mangled name of an admitted request is read back as a symbol of
its category, with its names and the argument codes of its formals. So two requests, even of two
type systems, have one mangled name only if category and names agree and the formals do up to `char`
and `short`. -/
theorem mangling_round_trip (hts : ts.Valid) (hus : us.Valid) (h : r.Admitted ts)
    (h' : r'.Admitted us) :
    ∃ sym sym', r.symbol ts = .ok sym ∧ r'.symbol us = .ok sym' ∧
      r.Denotes ts sym ∧ r'.Denotes us sym' ∧
      Symbol.decode? sym.encode = some sym ∧ Symbol.decode? sym'.encode = some sym' ∧
      (sym.encode = sym'.encode → sym = sym' ∧
        List.Forall₂ (TypeSystem.SameArg ts us) (r.formals ts) (r'.formals us)) := by
  obtain ⟨sym, hsym, hdenotes, hvalid⟩ := h.exists_symbol hts
  obtain ⟨sym', hsym', hdenotes', hvalid'⟩ := h'.exists_symbol hus
  have hread := Symbol.decode?_encode hvalid
  have hread' := Symbol.decode?_encode hvalid'
  refine ⟨sym, sym', hsym, hsym', hdenotes, hdenotes', hread, hread', fun heq => ?_⟩
  obtain rfl : sym = sym' := by
    rw [heq, hread'] at hread
    exact (Option.some.inj hread).symm
  exact ⟨rfl, TypeSystem.forall₂_sameArg hdenotes.args hdenotes'.args⟩

/-- The constructor of strings from characters, in the prelude and after a session that declares a
class of its own. -/
theorem mangling_round_trip_string :
    ∃ sym sym', (procedure ⟨4⟩).symbol .initial = .ok sym ∧
      (procedure ⟨4⟩).symbol Canonicalizer.boxSession.types = .ok sym' ∧
      (procedure ⟨4⟩).Denotes .initial sym ∧
      (procedure ⟨4⟩).Denotes Canonicalizer.boxSession.types sym' ∧
      Symbol.decode? sym.encode = some sym ∧ Symbol.decode? sym'.encode = some sym' ∧
      (sym.encode = sym'.encode → sym = sym' ∧
        List.Forall₂ (TypeSystem.SameArg .initial Canonicalizer.boxSession.types)
          ((procedure ⟨4⟩).formals .initial)
          ((procedure ⟨4⟩).formals Canonicalizer.boxSession.types)) := by
  have hadmitted : ∀ ts : TypeSystem, (ts.member ⟨4⟩).kind = .constructor [.charArray] [] →
      (ts.member ⟨4⟩).container = .string → ts.pool.HasKind .string (.raw .string) →
      ts.pool.HasKind .charArray (.array Primitive.char.typeId) →
      ts.pool.HasKind Primitive.char.typeId (.prim .char) → ts.className .string = "core.String" →
      (procedure ⟨4⟩).Admitted ts := by
    intro ts hkind hcontainer hstring harray hchar hname
    refine ⟨by rw [hkind]; rfl, ?_, by rw [hkind]; nofun, ?_⟩
    · rw [hcontainer]
      exact .raw hstring (hname ▸ by decide)
    · rw [hkind]
      intro ty hty
      cases List.mem_singleton.mp hty
      exact .array harray (.prim hchar nofun)
  exact mangling_round_trip TypeSystem.initial_valid Canonicalizer.boxSession_reachable.valid.types
    (hadmitted _ (by decide +kernel) (by decide +kernel) (by decide +kernel) (by decide +kernel)
      (by decide +kernel) (by decide +kernel))
    (hadmitted _ (by decide +kernel) (by decide +kernel) (by decide +kernel) (by decide +kernel)
      (by decide +kernel) (by decide +kernel))

end SymbolRequest

end Erasure
