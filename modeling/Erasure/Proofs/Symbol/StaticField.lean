/-
Symbols of static fields.

The symbol of a static field joins the class type and the field by `_`, without their lengths, and
is split again at the first `_` after the last `.`. So an underscore in the simple name of a class
cannot be told from the one that stands before the field. The main statements:

* `encode_staticField_eq_iff`: which static fields share a mangled name.
* `decode?_staticField`: the shortest class type that a mangled name allows is read back.
* `staticFieldSymbol_read_back`: a static field is read back as it is if and only if the simple name
  of its class has no underscore.
-/
import Mathlib.Data.List.TakeWhile
import Erasure.Proofs.Symbol.Mangling

namespace Erasure

namespace Symbol

/-! ### Splitting at the last dot -/

/-- Characters that end in a dot, or none at all. -/
def EndsInDot (cs : List Char) : Prop := ∀ c ∈ cs.getLast?, c = '.'

theorem takeWhile_reverse_of_endsInDot {cs : List Char} (h : EndsInDot cs) :
    cs.reverse.takeWhile (· ≠ '.') = [] := by
  cases hcs : cs.reverse with
  | nil => rfl
  | cons c rest =>
    have hlast : c = '.' := h c (by rw [← List.head?_reverse, hcs]; rfl)
    rw [hlast]
    rfl

/-- Characters are split behind their last dot. -/
theorem splitLastDot_append {qualifier last : List Char} (hqualifier : EndsInDot qualifier)
    (hlast : '.' ∉ last) : splitLastDot (qualifier ++ last) = (qualifier, last) := by
  have hne : ∀ c ∈ last.reverse, decide (c ≠ '.') = true := by
    intro c hc
    exact decide_eq_true fun heq => hlast (heq ▸ List.mem_reverse.mp hc)
  have htake : ((qualifier ++ last).reverse.takeWhile (· ≠ '.')).reverse = last := by
    rw [List.reverse_append, List.takeWhile_append_of_pos hne,
      takeWhile_reverse_of_endsInDot hqualifier, List.append_nil, List.reverse_reverse]
  rw [splitLastDot, htake, List.length_append, Nat.add_sub_cancel, List.take_left]

theorem exists_splitLastDot (cs : List Char) :
    ∃ qualifier last, cs = qualifier ++ last ∧ EndsInDot qualifier ∧ '.' ∉ last := by
  refine ⟨(cs.reverse.dropWhile (· ≠ '.')).reverse, (cs.reverse.takeWhile (· ≠ '.')).reverse,
    ?_, ?_, ?_⟩
  · rw [← List.reverse_append, List.takeWhile_append_dropWhile, List.reverse_reverse]
  · intro c hc
    rw [List.getLast?_reverse] at hc
    have hhead := List.head?_dropWhile_not (· ≠ '.') cs.reverse
    rw [hc] at hhead
    simpa using hhead
  · intro hmem
    have htaken := List.mem_takeWhile_imp (List.mem_reverse.mp hmem)
    simp at htaken

/-- The last part of a qualified name. -/
def simpleName (name : String) : String := String.ofList (splitLastDot name.toList).2

theorem toList_simpleName {name : String} {qualifier last : List Char}
    (hname : name.toList = qualifier ++ last) (hqualifier : EndsInDot qualifier)
    (hlast : '.' ∉ last) : (simpleName name).toList = last := by
  rw [simpleName, hname, splitLastDot_append hqualifier hlast, String.toList_ofList]

theorem EndsInDot.append {mark qualifier : List Char} (hmark : EndsInDot mark)
    (hqualifier : EndsInDot qualifier) : EndsInDot (mark ++ qualifier) := by
  intro c hc
  rw [List.getLast?_append] at hc
  cases hlast : qualifier.getLast? with
  | none => exact hmark c (by simpa [hlast] using hc)
  | some d => exact hqualifier c (by simpa [hlast] using hc)

/-- What ends in a dot can stand before a name. -/
theorem simpleName_append {mark : String} (hmark : EndsInDot mark.toList) (name : String) :
    simpleName (mark ++ name) = simpleName name := by
  obtain ⟨qualifier, last, hname, hqualifier, hlast⟩ := exists_splitLastDot name.toList
  apply String.toList_inj.mp
  rw [toList_simpleName hname hqualifier hlast]
  refine toList_simpleName ?_ (hmark.append hqualifier) hlast
  rw [String.toList_append, hname, List.append_assoc]

/-! ### Sharing a mangled name -/

/-- The class type `ct'` goes on from `ct` with an underscore, and what follows it is also the
beginning of the field `f`. -/
def Overlaps (ct f ct' f' : String) : Prop := ∃ x, ct' = ct ++ "_" ++ x ∧ f = x ++ "_" ++ f'

theorem append_underscore_eq_iff {a b c d : List Char} : a ++ '_' :: b = c ++ '_' :: d ↔
    (a = c ∧ b = d) ∨ (∃ x, c = a ++ '_' :: x ∧ b = x ++ '_' :: d) ∨
      ∃ x, a = c ++ '_' :: x ∧ d = x ++ '_' :: b := by
  constructor
  · intro h
    rcases List.append_eq_append_iff.mp h with ⟨x, hc, hb⟩ | ⟨x, ha, hd⟩
    · cases x with
      | nil => exact .inl ⟨by simpa using hc.symm, (List.cons.inj hb).2⟩
      | cons e x =>
        obtain ⟨rfl, rfl⟩ := List.cons.inj hb
        exact .inr (.inl ⟨x, hc, rfl⟩)
    · cases x with
      | nil => exact .inl ⟨by simpa using ha, (List.cons.inj hd).2.symm⟩
      | cons e x =>
        obtain ⟨rfl, rfl⟩ := List.cons.inj hd
        exact .inr (.inr ⟨x, ha, rfl⟩)
  · rintro (⟨rfl, rfl⟩ | ⟨x, rfl, rfl⟩ | ⟨x, rfl, rfl⟩)
    · rfl
    · simp
    · simp

theorem toList_encode_staticField (ct f : String) : (staticField ct f).encode.toList =
    start.toList ++ ("static_".toList ++ (ct.toList ++ '_' :: f.toList)) := by
  simp only [encode, String.toList_append, List.append_assoc]
  rfl

/-- Static fields share a mangled name if class type and field are the same, or if the longer class
type ends in what the other field begins with. -/
theorem encode_staticField_eq_iff {ct f ct' f' : String} :
    (staticField ct f).encode = (staticField ct' f').encode ↔
      (ct = ct' ∧ f = f') ∨ Overlaps ct f ct' f' ∨ Overlaps ct' f' ct f := by
  have hoverlaps : ∀ ct f ct' f' : String, Overlaps ct f ct' f' ↔
      ∃ x, ct'.toList = ct.toList ++ '_' :: x ∧ f.toList = x ++ '_' :: f'.toList := by
    intro ct f ct' f'
    constructor
    · rintro ⟨x, rfl, rfl⟩
      exact ⟨x.toList, by simp, by simp⟩
    · rintro ⟨x, hct, hf⟩
      exact ⟨String.ofList x, String.toList_inj.mp (by simp [hct]),
        String.toList_inj.mp (by simp [hf])⟩
  rw [← String.toList_inj, toList_encode_staticField, toList_encode_staticField,
    List.append_cancel_left_eq, List.append_cancel_left_eq, append_underscore_eq_iff,
    String.toList_inj, String.toList_inj, hoverlaps, hoverlaps]

/-! ### Reading back -/

/-- What a class type begins with. -/
def classTypeMark (isInterface : Bool) : String := if isInterface then "interface." else "class."

theorem endsInDot_classTypeMark (isInterface : Bool) :
    EndsInDot (classTypeMark isInterface).toList := by
  cases isInterface <;> exact fun c hc => (Option.some.inj hc).symm

theorem after?_classTypeMark (isInterface : Bool) (cs : List Char) :
    ((after? "class.".toList ((classTypeMark isInterface).toList ++ cs)).isNone &&
      (after? "interface.".toList ((classTypeMark isInterface).toList ++ cs)).isNone) = false := by
  cases isInterface with
  | false =>
    rw [show classTypeMark false = "class." from rfl, after?_append]
    rfl
  | true =>
    rw [show classTypeMark true = "interface." from rfl, after?_append "interface.".toList,
      Option.isNone_some, Bool.and_false]

/-- What is split at an underscore into a first part without one is read as such. -/
theorem staticField?_append {isInterface : Bool} {qualifier last field : List Char}
    (hqualifier : EndsInDot qualifier) (hlast : '_' ∉ last) (hdot : '.' ∉ last ++ '_' :: field)
    (hfield : field ≠ []) :
    staticField? ((classTypeMark isInterface).toList ++ qualifier ++ (last ++ '_' :: field)) =
      some (staticField (String.ofList ((classTypeMark isInterface).toList ++ qualifier ++ last))
        (String.ofList field)) := by
  have hclass := after?_classTypeMark isInterface (qualifier ++ (last ++ '_' :: field))
  have hends := (endsInDot_classTypeMark isInterface).append hqualifier
  have hne : ∀ c ∈ last, decide (c ≠ '_') = true := fun c hc =>
    decide_eq_true fun heq => hlast (heq ▸ hc)
  obtain ⟨c, cs, rfl⟩ := List.exists_cons_of_ne_nil hfield
  rw [← List.append_assoc] at hclass
  rw [staticField?, hclass, if_neg Bool.false_ne_true, splitLastDot_append hends hdot]
  dsimp only
  rw [List.takeWhile_append_of_pos hne, List.dropWhile_append_of_pos hne]
  simp

/-- A text with an underscore behind it has a first part without one. -/
theorem exists_first_underscore (cs rest : List Char) :
    ∃ first tail, cs ++ '_' :: rest = first ++ '_' :: tail ∧ '_' ∉ first ∧ rest <:+ tail ∧
      (first = cs ↔ '_' ∉ cs) := by
  induction cs with
  | nil => exact ⟨[], rest, rfl, List.not_mem_nil, List.suffix_refl rest, by simp⟩
  | cons c cs ih =>
    by_cases hc : c = '_'
    · refine ⟨[], cs ++ '_' :: rest, by rw [hc]; rfl, List.not_mem_nil, ?_, by simp [hc]⟩
      exact (List.suffix_cons _ rest).trans (List.suffix_append cs _)
    · obtain ⟨first, tail, heq, hfirst, hsuffix, hiff⟩ := ih
      refine ⟨c :: first, tail, congrArg (c :: ·) heq, ?_, hsuffix, ?_⟩
      · rw [List.mem_cons, not_or]
        exact ⟨fun h => hc h.symm, hfirst⟩
      · rw [List.cons.injEq, List.mem_cons, not_or, hiff]
        exact and_congr_left' ⟨fun _ h => hc h.symm, fun _ => rfl⟩

/-- The shortest class type that a mangled name allows is read back, which is the class type it was
made of if and only if the simple name of the class has no underscore. -/
theorem decode?_staticField {isInterface : Bool} {name ct f : String}
    (hct : ct = classTypeMark isInterface ++ name) (hf : f ≠ "") (hdot : '.' ∉ f.toList) :
    ∃ ct' f', decode? (staticField ct f).encode = some (staticField ct' f') ∧
      ct' ++ "_" ++ f' = ct ++ "_" ++ f ∧ '_' ∉ (simpleName ct').toList ∧
      (staticField ct' f' = staticField ct f ↔ '_' ∉ (simpleName name).toList) := by
  obtain ⟨qualifier, last, hname, hqualifier, hlast⟩ := exists_splitLastDot name.toList
  obtain ⟨first, tail, heq, hfirst, hsuffix, hiff⟩ := exists_first_underscore last f.toList
  have hends := (endsInDot_classTypeMark isInterface).append hqualifier
  have hsplit : ct.toList = (classTypeMark isInterface).toList ++ qualifier ++ last := by
    rw [hct, String.toList_append, hname, List.append_assoc]
  have hdots : '.' ∉ first ++ '_' :: tail := by
    rw [← heq, List.mem_append, List.mem_cons]
    simp [hlast, hdot]
  have htail : tail ≠ [] := by
    rintro rfl
    exact hf (String.toList_eq_nil_iff.mp (List.suffix_nil.mp hsuffix))
  refine ⟨String.ofList ((classTypeMark isInterface).toList ++ qualifier ++ first),
    String.ofList tail, ?_, ?_, ?_, ?_⟩
  · rw [decode?_of_toList (toList_encode_staticField ct f), hsplit, List.append_assoc _ last, heq]
    exact staticField?_append hqualifier hfirst hdots htail
  · apply String.toList_inj.mp
    simp [hsplit, heq]
  · rw [toList_simpleName (String.toList_ofList ..) hends]
    · exact hfirst
    · exact fun h => hdots (List.mem_append_left _ h)
  · rw [toList_simpleName hname hqualifier hlast, ← hiff, staticField.injEq]
    constructor
    · rintro ⟨rfl, -⟩
      rw [String.toList_ofList] at hsplit
      exact List.append_cancel_left hsplit
    · rintro rfl
      have htail' : tail = f.toList := (List.cons.inj (List.append_cancel_left heq)).2.symm
      rw [← hsplit, htail', String.ofList_toList, String.ofList_toList]
      exact ⟨rfl, rfl⟩

end Symbol

namespace TypeSystem

variable {ts : TypeSystem} {c c' : ClassId} {m m' : MemberId} {f f' : String}

/-- The class type that instances of a class or interface have in symbols. -/
def classTypeName (ts : TypeSystem) (c : ClassId) : String :=
  Symbol.classTypeMark (ts.isInterface c) ++ ts.className c

/-- A class or interface declares the static field, whose name is an identifier: it is not empty and
has no dot. -/
structure DeclaresStatic (ts : TypeSystem) (c : ClassId) (m : MemberId) (f : String) : Prop where
  declared : m ∈ (ts.classDef c).members
  field : ∃ name ty, (ts.member m).kind = .field name ty ∧ ts.text name = f
  isStatic : (ts.member m).flags.isStatic = true
  ne_empty : f ≠ ""
  dotless : '.' ∉ f.toList

theorem DeclaresStatic.staticFieldSymbol_eq (hts : ts.Valid) (h : ts.DeclaresStatic c m f) :
    ts.staticFieldSymbol m = .ok (.staticField (ts.classTypeName c) f) := by
  obtain ⟨k, hkey, hraw, -⟩ := (hts.classes c).members m h.declared
  obtain ⟨name, ty, hkind, rfl⟩ := h.field
  have hlayout : ts.layoutTypeName (ts.member m).container = .ok (ts.classTypeName c) := by
    rw [hkey.container_eq, layoutTypeName, show ts.kind k.container = _ from hraw.kind_eq]
    rfl
  rw [staticFieldSymbol, hkind, h.isStatic, hlayout]
  rfl

/-- Every static field has a symbol, which is read back as it is if and only if the simple name of
its class has no underscore. Otherwise what follows the first underscore of that name is read as part
of the field. So two static fields share a mangled name not only if class type and field agree, but
also if one class type ends in an underscore and what the other field begins with. -/
theorem staticFieldSymbol_read_back (hts : ts.Valid) (h : ts.DeclaresStatic c m f)
    (h' : ts.DeclaresStatic c' m' f') :
    let sym := Symbol.staticField (ts.classTypeName c) f
    let sym' := Symbol.staticField (ts.classTypeName c') f'
    ts.staticFieldSymbol m = .ok sym ∧ ts.staticFieldSymbol m' = .ok sym' ∧
      (∃ ct field, Symbol.decode? sym.encode = some (.staticField ct field) ∧
        ct ++ "_" ++ field = ts.classTypeName c ++ "_" ++ f ∧
        '_' ∉ (Symbol.simpleName ct).toList) ∧
      (Symbol.decode? sym.encode = some sym ↔
        '_' ∉ (Symbol.simpleName (ts.className c)).toList) ∧
      (sym.encode = sym'.encode ↔ sym = sym' ∨
        Symbol.Overlaps (ts.classTypeName c) f (ts.classTypeName c') f' ∨
        Symbol.Overlaps (ts.classTypeName c') f' (ts.classTypeName c) f) := by
  intro sym sym'
  obtain ⟨ct, field, hread, hjoin, hsimple, hiff⟩ :=
    Symbol.decode?_staticField (rfl : ts.classTypeName c = _) h.ne_empty h.dotless
  refine ⟨h.staticFieldSymbol_eq hts, h'.staticFieldSymbol_eq hts, ⟨ct, field, hread, hjoin, hsimple⟩,
    ?_, ?_⟩
  · rw [hread, Option.some.injEq]
    exact hiff
  · rw [Symbol.encode_staticField_eq_iff, Symbol.staticField.injEq]

/-! ### An example -/

/-- A session that declares a static field `b_c` of a class `p.A`, and a static field `c` of a class
`p.A_b`. -/
def overlapSession : Canonicalizer :=
  let s := Canonicalizer.fresh .initial
  let s := (s.declared (.declareClass "p.A" {})).declared (.declareClass "p.A_b" {})
  let s := (s.asked (.intern "b_c")).asked (.intern "c")
  let s := s.declared
    (.declareMember ⟨2⟩ (.field ⟨11⟩ Primitive.int.typeId) ⟨true, false, false, false⟩)
  s.declared (.declareMember ⟨3⟩ (.field ⟨12⟩ Primitive.int.typeId) ⟨true, false, false, false⟩)

theorem overlapSession_reachable : Canonicalizer.Reachable overlapSession := by
  refine .declare _ (.declare _ (.ask _ (.ask _ (.declare _ (.declare _ .initial ?_) ?_) ?_) ?_)
    ?_) ?_
  · trivial
  · trivial
  · trivial
  · trivial
  · unfold TypeSystem.Declaration.Admitted
    decide +kernel
  · unfold TypeSystem.Declaration.Admitted
    decide +kernel

/-- Both classes declare their field. -/
theorem overlapSession_declares :
    overlapSession.types.DeclaresStatic ⟨2⟩ ⟨15⟩ "b_c" ∧
      overlapSession.types.DeclaresStatic ⟨3⟩ ⟨16⟩ "c" := by
  have h : ⟨15⟩ ∈ (overlapSession.types.classDef ⟨2⟩).members ∧
      ((overlapSession.types.member ⟨15⟩).kind = .field ⟨11⟩ Primitive.int.typeId ∧
        overlapSession.types.text ⟨11⟩ = "b_c") ∧
      (overlapSession.types.member ⟨15⟩).flags.isStatic = true := by
    decide +kernel
  have h' : ⟨16⟩ ∈ (overlapSession.types.classDef ⟨3⟩).members ∧
      ((overlapSession.types.member ⟨16⟩).kind = .field ⟨12⟩ Primitive.int.typeId ∧
        overlapSession.types.text ⟨12⟩ = "c") ∧
      (overlapSession.types.member ⟨16⟩).flags.isStatic = true := by
    decide +kernel
  exact ⟨⟨h.1, ⟨_, _, h.2.1⟩, h.2.2, by decide, by decide⟩,
    ⟨h'.1, ⟨_, _, h'.2.1⟩, h'.2.2, by decide, by decide⟩⟩

/-- The two fields share a mangled name, and the field of the second class is read back as that of
the first. -/
theorem staticFieldSymbol_read_back_overlap :
    overlapSession.types.staticFieldSymbol ⟨15⟩ = .ok (.staticField "class.p.A" "b_c") ∧
      overlapSession.types.staticFieldSymbol ⟨16⟩ = .ok (.staticField "class.p.A_b" "c") ∧
      (Symbol.staticField "class.p.A" "b_c").encode =
        (Symbol.staticField "class.p.A_b" "c").encode ∧
      Symbol.decode? (Symbol.staticField "class.p.A_b" "c").encode ≠
        some (Symbol.staticField "class.p.A_b" "c") := by
  obtain ⟨hfirst, hsecond⟩ := overlapSession_declares
  have hvalid := overlapSession_reachable.valid.types
  obtain ⟨hname, hname'⟩ : overlapSession.types.classTypeName ⟨2⟩ = "class.p.A" ∧
      overlapSession.types.classTypeName ⟨3⟩ = "class.p.A_b" := by
    decide +kernel
  obtain ⟨hsym, hsym', -, -, hiff⟩ := staticFieldSymbol_read_back hvalid hfirst hsecond
  obtain ⟨-, -, -, hread, -⟩ := staticFieldSymbol_read_back hvalid hsecond hfirst
  rw [hname, hname'] at hiff
  rw [hname] at hsym
  rw [hname'] at hsym' hread
  refine ⟨hsym, hsym', hiff.mpr (.inr (.inl ⟨"b", by decide, by decide⟩)), fun h => ?_⟩
  exact hread.mp h (by decide +kernel)

end TypeSystem

end Erasure
