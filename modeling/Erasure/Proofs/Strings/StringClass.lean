/-
Lookups in the string class.

What desugaring calls in `core.String` is declared by the prelude. A type system that begins with
the prelude finds it, whatever else is declared, unless a type above the class declares a method
that could be meant instead. The main statements:

* `findMethod_concat`, `findMethod_valueOf`: the methods of the prelude are the most specific ones.
* `canSpell`: so is the constructor from an array of code units.
-/
import Erasure.TypeSystem.Prelude
import Erasure.Proofs.Strings.RawClass
import Erasure.Proofs.Strings.Replacement

namespace Erasure

open Relation (TransGen)
open Builder (charArray)

namespace TypeSystem

variable {ts us : TypeSystem}

/-! ### The prelude -/

/-- The type system begins with the prelude, and nothing was added to its two classes. -/
structure HasPrelude (ts : TypeSystem) : Prop where
  le : initial ≤ ts
  members_object : (ts.classDef .object).members = (initial.classDef .object).members
  members_string : (ts.classDef .string).members = (initial.classDef .string).members
  isInterface_string : ts.isInterface .string = false

theorem initial_hasPrelude : initial.HasPrelude := ⟨le_refl _, rfl, rfl, by decide +kernel⟩

theorem HasPrelude.of_extends (hext : Extends ts us) (h : ts.HasPrelude) : us.HasPrelude where
  le := le_trans h.le hext.le
  members_object := by rw [hext.classDef_eq, h.members_object]
  members_string := by rw [hext.classDef_eq, h.members_string]
  isInterface_string := by rw [isInterface, hext.classDef_eq]; exact h.isInterface_string

/-- The name `toString`. -/
def toStringName : Name := ⟨3⟩

/-- The name `concat`. -/
def concatName : Name := ⟨6⟩

/-- The name `valueOf`. -/
def valueOfName : Name := ⟨8⟩

/-- The constructor of a string from the array of its code units. -/
def stringConstructor : MemberId := ⟨4⟩

/-- The method that appends a string. -/
def stringConcat : MemberId := ⟨5⟩

/-- The method that converts a value of a primitive type. There is none for the small integers,
which are widened. -/
def stringValueOf : Primitive → MemberId
  | .boolean => ⟨8⟩
  | .char => ⟨9⟩
  | .byte | .short | .int => ⟨10⟩
  | .long => ⟨11⟩
  | .float => ⟨12⟩
  | .double => ⟨13⟩
  | .void => default

/-! Every check builds the prelude anew, so what is read off it is read off together. -/

theorem initial_types :
    initial.pool.HasKind .string (.raw .string) ∧
      initial.pool.HasKind .charArray (.array Primitive.char.typeId) ∧
      initial.isReference .string = true ∧ initial.isReference .charArray = true := by
  decide +kernel

theorem initial_toString :
    initial.declaredMethods .object toStringName = [⟨1⟩] ∧ initial.HasMember ⟨1⟩ ∧
      (initial.member ⟨1⟩).kind.formals = [] := by
  decide +kernel

theorem initial_names :
    (initial.HasName concatName ∧ initial.text concatName = "concat") ∧
      (initial.HasName valueOfName ∧ initial.text valueOfName = "valueOf") ∧
      initial.HasName toStringName ∧ initial.text toStringName = "toString" := by
  decide +kernel

theorem initial_concat :
    initial.declaredMethods .string concatName = [stringConcat] ∧
      initial.HasMember stringConcat ∧
      (initial.member stringConcat).kind.formals = [.string] ∧
      (initial.member stringConcat).flags.isStatic = false ∧
      (initial.member stringConcat).flags.isFinal = true ∧
      StringForm.callType initial stringConcat = .string := by
  decide +kernel

theorem initial_constructor :
    initial.declaredConstructors .string = [stringConstructor] ∧
      initial.HasMember stringConstructor ∧
      (initial.member stringConstructor).kind.formals = [.charArray] := by
  decide +kernel

/-- No class above the string class declares a method of one formal that could be meant where
desugaring looks up a method there. -/
structure Unobstructed (ts : TypeSystem) : Prop where
  /-- With the name `concat`, the formal is the string class or a type of another class. -/
  concat : ∀ c, TransGen ts.Inherits .string c → ∀ m ∈ ts.declaredMethods c concatName, ∀ ty,
    (ts.member m).kind.formals = [ty] →
      ts.IsRigid ty ∧ (ts.classOf? ty = some .string → ty = .string)
  /-- With the name `valueOf`, it is no small integer. -/
  valueOf : ∀ c, TransGen ts.Inherits .string c → ∀ m ∈ ts.declaredMethods c valueOfName, ∀ ty,
    (ts.member m).kind.formals = [ty] →
      ts.IsRigid ty ∧ ty ∉ [Primitive.byte.typeId, Primitive.short.typeId]

theorem Unobstructed.of_extends (hts : ts.Valid) (hext : Extends ts us) (h : ts.Unobstructed) :
    us.Unobstructed := by
  have hdeclared : ∀ c n, ∀ m ∈ us.declaredMethods c n, ∀ ty, (us.member m).kind.formals = [ty] →
      m ∈ ts.declaredMethods c n ∧ (ts.member m).kind.formals = [ty] ∧ ts.pool.Has ty := by
    intro c n m hm ty hty
    rw [hext.declaredMethods_eq hts] at hm
    have hhas := hts.hasMember_of_declared (mem_declaredMethods hm).1
    rw [member_of_le hext.le hhas] at hty
    exact ⟨hm, hty, (hts.keys hhas.hasKey).types ty
      (MemberKind.mem_types_of_mem_formals (hty ▸ List.mem_singleton_self ty))⟩
  constructor <;> intro c hc m hm ty hty <;> rw [hext.inherits_eq hts] at hc <;>
    obtain ⟨hm, hty, hhas⟩ := hdeclared c _ m hm ty hty
  case concat =>
    obtain ⟨hrigid, hclass⟩ := h.concat c hc m hm ty hty
    exact ⟨hrigid.of_le hext.le hhas, classOf?_of_le hext.le hhas ▸ hclass⟩
  case valueOf =>
    obtain ⟨hrigid, hsmall⟩ := h.valueOf c hc m hm ty hty
    exact ⟨hrigid.of_le hext.le hhas, hsmall⟩

/-- Interning a text that has a name changes nothing. -/
theorem intern_of_text {n : Name} {text : String} (hn : ts.HasName n) (htext : ts.text n = text) :
    intern text ts = (n, ts) := by
  obtain ⟨a, ha⟩ := InternTable.exists_get? hn
  have hfind : ts.names.find? text = some n.index := by
    rw [TypeSystem.text, Names.text, ha] at htext
    rw [InternTable.find?_eq_some_iff, ha]
    exact congrArg some htext
  unfold intern Names.internText
  rw [InternTable.intern_of_find?_eq_some hfind]

section

variable (hle : initial ≤ ts)
include hle

theorem kind_string : ts.kind .string = .raw .string := (initial_types.1.of_le hle.1).kind_eq

theorem classOf?_string : ts.classOf? .string = some .string := by
  rw [classOf?, kind_string hle]
  rfl

/-- The prelude has no type variables. -/
theorem boundErasure_initial {ty : TypeId} (hty : initial.pool.Has ty) :
    ts.boundErasure ty = ty := by
  apply boundErasure_of_ne_var
  intro v hv
  have herased := (initial_kinds ty.index hty).1
  rw [show initial.pool.kind ⟨ty.index⟩ = _ from (kind_of_le hle hty).symm.trans hv] at herased
  cases herased

/-- A procedure of the prelude is applicable to a reference of the type of its formal. -/
theorem isApplicable_self {m : MemberId} {ty : TypeId} (hm : initial.HasMember m)
    (hformals : (initial.member m).kind.formals = [ty]) (hty : initial.isReference ty = true) :
    ts.isApplicable m [ty] = true := by
  have hhas := (initial_valid.keys hm.hasKey).types ty
    (MemberKind.mem_types_of_mem_formals (hformals ▸ List.mem_singleton_self ty))
  have hprim := (isReference_iff initial_valid hhas).mp hty
  rw [← kind_of_le hle hhas] at hprim
  simp [isApplicable, member_of_le hle hm, hformals, boundErasure_initial hle hhas,
    isAssignable_self hprim]

end

namespace HasPrelude

variable (h : ts.HasPrelude)
include h

theorem intern_eq {n : Name} {text : String} (hn : initial.HasName n)
    (htext : initial.text n = text) : intern text ts = (n, ts) :=
  intern_of_text (hn.of_le h.le) ((text_of_le h.le hn).trans htext)

theorem member_eq {m : MemberId} (hm : initial.HasMember m) : ts.member m = initial.member m :=
  member_of_le h.le hm

theorem declaredMethods_eq {c : ClassId}
    (hc : (ts.classDef c).members = (initial.classDef c).members) (n : Name) :
    ts.declaredMethods c n = initial.declaredMethods c n := by
  unfold declaredMethods
  rw [hc]
  apply List.filter_congr
  intro m hm
  rw [h.member_eq (initial_valid.hasMember_of_declared hm)]

/-- The root class is there, as it declares a method. -/
theorem classes_size_pos : 0 < ts.classes.size := by
  by_contra hsize
  have hdeclared : ⟨1⟩ ∈ initial.declaredMethods .object toStringName :=
    initial_toString.1 ▸ List.mem_singleton_self _
  have hmember := (mem_declaredMethods hdeclared).1
  rw [← h.members_object, classDef_of_not_lt (c := .object) hsize] at hmember
  exact List.not_mem_nil hmember

theorem declaredMethods_string (n : Name) :
    ts.declaredMethods .string n = initial.declaredMethods .string n :=
  h.declaredMethods_eq h.members_string n

theorem declaredConstructors_string :
    ts.declaredConstructors .string = initial.declaredConstructors .string := by
  unfold declaredConstructors
  rw [h.members_string]
  apply List.filter_congr
  intro m hm
  rw [h.member_eq (initial_valid.hasMember_of_declared hm)]

theorem kind_eq {ty : TypeId} (hty : initial.pool.Has ty) : ts.kind ty = initial.kind ty :=
  kind_of_le h.le hty

theorem isAssignable_eq {p : Primitive} {ty : TypeId} (hty : initial.pool.Has ty) :
    ts.isAssignable p.typeId ty = initial.isAssignable p.typeId ty := by
  have hp := (initial_valid.pool.prims p)
  have hk : initial.kind p.typeId = .prim p := hp.kind_eq
  rw [isAssignable_prim hk, isAssignable_prim ((h.kind_eq hp.has).trans hk), h.kind_eq hty]

/-- Whether a procedure of the prelude is applicable to a primitive argument is known from the
start. -/
theorem isApplicable_eq {m : MemberId} (hm : initial.HasMember m) (p : Primitive) :
    ts.isApplicable m [p.typeId] = initial.isApplicable m [p.typeId] := by
  apply isApplicable_congr (h.member_eq hm)
  intro formal hformal arg harg
  obtain rfl := List.mem_singleton.mp harg
  have hhas := (initial_valid.keys hm.hasKey).types formal
    (MemberKind.mem_types_of_mem_formals hformal)
  rw [boundErasure_initial h.le hhas, boundErasure_initial (le_refl _) hhas, h.isAssignable_eq hhas]

/-- The root class declares a method `toString` without formals. -/
theorem exists_toString : ∃ m ∈ ts.declaredMethods .object toStringName,
    (ts.member m).kind.formals = [] := by
  obtain ⟨hdeclared, hhas, hformals⟩ := initial_toString
  refine ⟨⟨1⟩, ?_, ?_⟩
  · rw [h.declaredMethods_eq h.members_object, hdeclared]
    exact List.mem_cons_self
  · rw [h.member_eq hhas, hformals]

theorem formals_concat : (ts.member stringConcat).kind.formals = [.string] := by
  obtain ⟨-, hhas, hformals, -⟩ := initial_concat
  rw [h.member_eq hhas, hformals]

end HasPrelude

/-! ### The methods of the string class -/

/-- The methods `valueOf` that are applicable to a primitive argument. -/
def valueOfCandidates (p : Primitive) : List MemberId :=
  (initial.declaredMethods .string valueOfName).foldl (initial.withCandidate [p.typeId]) []

theorem mostSpecific?_valueOfCandidates : ∀ p ∈ Primitive.all, p ≠ .void →
    initial.mostSpecific? (valueOfCandidates p) = some (stringValueOf p) ∧
      ∀ m ∈ valueOfCandidates p, initial.HasMember m ∧
        ∀ ty ∈ (initial.member m).kind.formals, ∃ q ∈ Primitive.all, q.typeId = ty := by
  decide +kernel

/-- Of the types that a primitive type widens to, only small integers have no method `valueOf`. -/
theorem exists_valueOfCandidate : ∀ p ∈ Primitive.all, p ≠ .void → ∀ q ∈ Primitive.all,
    q.typeId ∉ [Primitive.byte.typeId, Primitive.short.typeId] → p.widensTo q = true →
      ∃ m ∈ valueOfCandidates p, (initial.member m).kind.formals = [q.typeId] := by
  decide +kernel

section

variable (hts : ts.Valid) (h : ts.HasPrelude) (hlinks : ts.LinksClasses) (hfree : ts.Unobstructed)
include hts h hfree

/-- A method `concat` above the string class that could be meant takes a type above that class. -/
theorem addsOnly_concat {c : ClassId} {decl : MemberId} (hc : TransGen ts.Inherits .string c)
    (hdecl : decl ∈ ts.declaredMethods c concatName) :
    ts.AddsOnly [.string] [stringConcat] (TakesAbove .string) decl := by
  refine AddsOnly.of_formal hts (hts.hasMember_of_declared (mem_declaredMethods hdecl).1)
    (fun ty hty => (hfree.concat c hc decl hdecl ty hty).1) ?_
  intro ty hhas hty us hus _ image r f himage hr hrigid hsubst hassignable hnew
  obtain ⟨himageRigid, himageClass⟩ := hrigid.substitutes hsubst
  have hprelude := h.of_extends hus
  have hconcat := hprelude.formals_concat
  have hstring : us.classOf? .string = some .string := classOf?_string hprelude.le
  obtain ⟨d, hd, hdAbove⟩ := class_of_isAssignable hstring himageRigid hassignable
  refine ⟨himage, r, hr, d, hd, ?_⟩
  rcases Relation.reflTransGen_iff_eq_or_transGen.mp hdAbove with rfl | hdAbove
  · rw [himageClass, classOf?_of_le hus.le hhas] at hd
    obtain rfl := (hfree.concat c hc decl hdecl ty hty).2 hd
    have hraw : us.pool.HasKind .string (.raw .string) := initial_types.1.of_le hprelude.le.1
    have heq : r = .string := hsubst.unique (.raw hraw)
    exact absurd (heq ▸ hconcat) (hnew stringConcat List.mem_cons_self)
  · exact hdAbove

/-- A method `valueOf` above the string class is hidden or does not take the primitive type. -/
theorem addsOnly_valueOf {p : Primitive} (hp : p ≠ .void) {c : ClassId} {decl : MemberId}
    (hc : TransGen ts.Inherits .string c) (hdecl : decl ∈ ts.declaredMethods c valueOfName) :
    ts.AddsOnly [p.typeId] (valueOfCandidates p) (fun _ _ => False) decl := by
  refine AddsOnly.of_formal hts (hts.hasMember_of_declared (mem_declaredMethods hdecl).1)
    (fun ty hty => (hfree.valueOf c hc decl hdecl ty hty).1) ?_
  intro ty hhas hty us hus hvalid image r f himage hr hrigid hsubst hassignable hnew
  have hprelude := h.of_extends hus
  have hkind : us.kind p.typeId = .prim p := (hvalid.pool.prims p).kind_eq
  rw [isAssignable_prim hkind] at hassignable
  cases hq : us.kind r with rw [hq] at hassignable
  | prim q =>
    obtain rfl := hrigid.eq_of_prim hsubst hq
    have hhasKind := (hhas.of_le hus.le.1).hasKind_of_eq hq
    obtain rfl := hhasKind.inj (hvalid.pool.prims q)
    have hsmall := (hfree.valueOf c hc decl hdecl _ hty).2
    obtain ⟨m, hm, hformals⟩ := exists_valueOfCandidate p (by cases p <;> decide) hp q
      (by cases q <;> decide) hsmall hassignable
    have hhas := ((mostSpecific?_valueOfCandidates p (by cases p <;> decide) hp).2 m hm).1
    exact hnew m hm (by rw [hprelude.member_eq hhas, hformals])
  | null | array _ | raw _ | inst _ _ _ | var _ | lub _ => cases hassignable

include hlinks

theorem findMethod_concat (hacyclic : ¬ TransGen ts.Inherits .string .string) :
    ∃ us, (findMethod .string "concat" [.string]).run ts = (.ok stringConcat, us) := by
  obtain ⟨hdeclared, hhas, hformals, -⟩ := initial_concat
  have hname : intern "concat" ts = (concatName, ts) :=
    h.intern_eq initial_names.1.1 initial_names.1.2
  apply findMethod_raw (W := TakesAbove .string) (fun _ _ _ hts hext h => h.of_extends hts hext)
    [stringConcat] hts hlinks (kind_string h.le) hname
  · exact fun c hc decl hdecl => addsOnly_concat hts h hfree hc hdecl
  · intro us hus
    have happlicable : us.isApplicable stringConcat [.string] = true :=
      isApplicable_self (h.of_extends hus).le hhas hformals initial_types.2.2.1
    rw [(h.of_extends hus).declaredMethods_string, hdeclared]
    simp [withCandidate, happlicable]
  · rintro us hus - _ ⟨rest, rfl, hrest⟩
    have hprelude := h.of_extends hus
    have hstring : us.classOf? .string = some .string := classOf?_string hprelude.le
    rw [← hus.inherits_eq hts] at hacyclic
    exact mostSpecific?_of_takesAbove hprelude.formals_concat hstring hacyclic hrest

theorem findMethod_valueOf {p : Primitive} (hp : p ≠ .void) :
    ∃ us, (findMethod .string "valueOf" [p.typeId]).run ts = (.ok (stringValueOf p), us) := by
  obtain ⟨hspecific, hformals⟩ := mostSpecific?_valueOfCandidates p (by cases p <;> decide) hp
  have hname : intern "valueOf" ts = (valueOfName, ts) :=
    h.intern_eq initial_names.2.1.1 initial_names.2.1.2
  apply findMethod_raw (W := fun _ _ => False) (fun _ _ _ _ _ => id) (valueOfCandidates p) hts
    hlinks (kind_string h.le) hname
  · exact fun c hc decl hdecl => addsOnly_valueOf hts h hfree hp hc hdecl
  · intro us hus
    rw [(h.of_extends hus).declaredMethods_string, valueOfCandidates]
    apply foldl_withCandidate_congr
    · intro m hm
      have hhas := initial_valid.hasMember_of_declared (mem_declaredMethods hm).1
      exact ⟨(h.of_extends hus).member_eq hhas, (h.of_extends hus).isApplicable_eq hhas p⟩
    · exact fun _ hm => absurd hm List.not_mem_nil
  · intro us hus _ ms hms
    rw [hms.eq_of_false, ← hspecific]
    apply mostSpecific?_congr
    · exact fun m hm => (h.of_extends hus).member_eq (hformals m hm).1
    · intro a ha b hb s hs t ht
      obtain ⟨q, -, rfl⟩ := (hformals a ha).2 s hs
      obtain ⟨r, -, rfl⟩ := (hformals b hb).2 t ht
      exact (h.of_extends hus).isAssignable_eq (initial_valid.pool.prims r).has

end

/-! ### The constructor of the string class -/

/-- The type system begins with the prelude, and strings are made from their code units only. -/
structure MakesStrings (ts : TypeSystem) : Prop where
  le : initial ≤ ts
  constructors : ts.declaredConstructors .string = [stringConstructor]
  isInterface_string : ts.isInterface .string = false

theorem HasPrelude.makesStrings (h : ts.HasPrelude) : ts.MakesStrings :=
  ⟨h.le, h.declaredConstructors_string.trans initial_constructor.1, h.isInterface_string⟩

theorem MakesStrings.of_extends (hts : ts.Valid) (hext : Extends ts us) (h : ts.MakesStrings) :
    us.MakesStrings where
  le := le_trans h.le hext.le
  constructors := by rw [hext.declaredConstructors_eq hts, h.constructors]
  isInterface_string := by rw [isInterface, hext.classDef_eq]; exact h.isInterface_string

theorem findConstructor_string (h : ts.MakesStrings) :
    (findConstructor .string [.charArray]).run ts = (.ok stringConstructor, ts) := by
  obtain ⟨-, hhas, hformals⟩ := initial_constructor
  have happlicable : ts.isApplicable stringConstructor [.charArray] = true :=
    isApplicable_self h.le hhas hformals initial_types.2.2.2
  have himages : ([stringConstructor].mapM fun decl =>
      (liftM (memberIn decl .string) : LookupM MemberId)).run ts =
        (.ok [stringConstructor], ts) := by
    rw [List.mapM_cons, run_lift_bind_apply, memberIn_raw (kind_string h.le)]
    rfl
  have hcandidates : ([stringConstructor].filter fun m => ts.isApplicable m [.charArray]) =
      [stringConstructor] := by simp [happlicable]
  unfold findConstructor
  rw [run_get_bind_apply, classOf?_string h.le]
  dsimp only
  rw [h.constructors, run_bind_of_ok himages, run_get_bind_apply, hcandidates,
    mostSpecific?_singleton]
  rfl

/-- The type of arrays of code units is one of the prelude. -/
theorem charArray_eq (hle : initial ≤ ts) : charArray ts = (.charArray, ts) :=
  lift_internKind_eq (initial_types.2.1.of_le hle.1)

end TypeSystem

namespace StringForm

open TypeSystem (initial stringConcat stringValueOf)

variable {ts : TypeSystem} (h : ts.HasPrelude)
include h

/-- Nothing can override `concat`. -/
theorem classify_concat : Builder.classify ts stringConcat .string = .direct := by
  obtain ⟨-, hhas, -, hstatic, hfinal, -⟩ := TypeSystem.initial_concat
  simp [Builder.classify, h.member_eq hhas, hstatic, hfinal]

omit h in
theorem callType_concat (hle : initial ≤ ts) : callType ts stringConcat = .string := by
  obtain ⟨-, hhas, -, -, -, htype⟩ := TypeSystem.initial_concat
  rw [← htype, callType, TypeSystem.member_of_le hle hhas, callType]

omit h in
theorem stringValueOf_initial : ∀ p ∈ Primitive.all, p ≠ .void →
    initial.HasMember (stringValueOf p) ∧
      (initial.member (stringValueOf p)).flags.isStatic = true ∧
      callType initial (stringValueOf p) = .string := by
  decide +kernel

theorem classify_valueOf {p : Primitive} (hp : p ≠ .void) :
    Builder.classify ts (stringValueOf p) .string = .static := by
  obtain ⟨hhas, hstatic, -⟩ := stringValueOf_initial p (by cases p <;> decide) hp
  simp [Builder.classify, h.member_eq hhas, hstatic]

theorem callType_valueOf {p : Primitive} (hp : p ≠ .void) :
    callType ts (stringValueOf p) = .string := by
  obtain ⟨hhas, -, htype⟩ := stringValueOf_initial p (by cases p <;> decide) hp
  rw [← htype, callType, h.member_eq hhas, callType]

end StringForm

/-- New strings can be made over the prelude. -/
theorem Builder.canSpell {us : TypeSystem} (h : us.MakesStrings) : CanSpell us := by
  unfold CanSpell
  rw [TypeSystem.charArray_eq h.le, TypeSystem.classOf?_string h.le,
    TypeSystem.findConstructor_string h]
  exact ⟨by simp [h.isInterface_string], _, rfl⟩

end Erasure
