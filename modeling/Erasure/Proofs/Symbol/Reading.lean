/-
What the reader of mangled names accepts.

The reader takes the table of forms backwards, with one liberty: the length of a name and the width
of an integral type may have zeros before their digits. So a symbol has as many names that are read
as it has ways to pad its numbers, and one of them is its mangled form. The main statements:

* `staticField?_eq_some_iff`: the static fields that are read, each in one form only.
* `decode?_eq_some_iff`: a name is read as a symbol if and only if the symbol is readable and the
  name is a form of it, numbers padded with zeros.
* `decoding_spelled_iff`: together with the mangled form, which is the one without padding.
-/
import Erasure.Proofs.Symbol.StaticField

namespace Erasure

namespace Symbol

/-! ### Static fields -/

theorem splitLastDot_spec (cs : List Char) : cs = (splitLastDot cs).1 ++ (splitLastDot cs).2 ∧
    EndsInDot (splitLastDot cs).1 ∧ '.' ∉ (splitLastDot cs).2 := by
  obtain ⟨qualifier, last, rfl, hqualifier, hlast⟩ := exists_splitLastDot cs
  rw [splitLastDot_append hqualifier hlast]
  exact ⟨rfl, hqualifier, hlast⟩

/-- What ends in a dot and stands at the beginning of a text stands before its last dot. -/
theorem exists_append_of_endsInDot {mark qualifier cs last : List Char} (hmark : EndsInDot mark)
    (hlast : '.' ∉ last) (h : mark ++ cs = qualifier ++ last) :
    ∃ name, qualifier = mark ++ name := by
  rcases List.append_eq_append_iff.mp h with ⟨name, hqualifier, -⟩ | ⟨x, rfl, rfl⟩
  · exact ⟨name, hqualifier⟩
  · cases x using List.reverseRecOn with
    | nil => exact ⟨[], by simp⟩
    | append_singleton x c =>
      have hdot : c = '.' := hmark c (by simp)
      simp [hdot] at hlast

/-- The class type and the field of a static field that is read as it is: the class type begins as
class types do, its simple name has no underscore, and the field is an identifier. -/
structure IsReadableStatic (classType field : String) : Prop where
  marked : ∃ isInterface name, classType = classTypeMark isInterface ++ name
  simple : '_' ∉ (simpleName classType).toList
  ne_empty : field ≠ ""
  dotless : '.' ∉ field.toList

/-- A text is taken for a static field only if it begins as class types do. -/
theorem exists_mark_of_after? {cs : List Char}
    (h : ¬((after? "class.".toList cs).isNone && (after? "interface.".toList cs).isNone) = true) :
    ∃ isInterface rest, cs = (classTypeMark isInterface).toList ++ rest := by
  rw [Bool.and_eq_true, not_and_or] at h
  simp only [Bool.not_eq_true, Option.isNone_eq_false_iff, Option.isSome_iff_exists] at h
  rcases h with ⟨rest, hclass⟩ | ⟨rest, hinterface⟩
  · exact ⟨false, rest, after?_eq_some_iff.mp hclass⟩
  · exact ⟨true, rest, after?_eq_some_iff.mp hinterface⟩

/-- What precedes the first underscore, the underscore, and what follows it. -/
theorem eq_append_of_dropWhile {cs rest : List Char} {underscore : Char}
    (h : cs.dropWhile (· ≠ '_') = underscore :: rest) :
    cs = cs.takeWhile (· ≠ '_') ++ '_' :: rest ∧ '_' ∉ cs.takeWhile (· ≠ '_') := by
  have hunderscore : underscore = '_' := by
    have hhead := List.head?_dropWhile_not (· ≠ '_') cs
    rw [h] at hhead
    simpa using hhead
  subst hunderscore
  refine ⟨?_, fun hmem => ?_⟩
  · rw [← h, List.takeWhile_append_dropWhile]
  · have htaken := List.mem_takeWhile_imp hmem
    simp at htaken

theorem exists_of_staticField? {cs : List Char} {sym : Symbol} (h : staticField? cs = some sym) :
    ∃ classType field, sym = staticField classType field ∧ IsReadableStatic classType field ∧
      cs = classType.toList ++ '_' :: field.toList := by
  unfold staticField? at h
  split at h
  case isTrue => cases h
  case isFalse hmarked =>
    obtain ⟨isInterface, rest, hrest⟩ := exists_mark_of_after? hmarked
    obtain ⟨hcs, hqualifier, hlast⟩ := splitLastDot_spec cs
    generalize splitLastDot cs = split at h hcs hqualifier hlast
    obtain ⟨qualifier, last⟩ := split
    dsimp only at h hcs hqualifier hlast
    obtain ⟨name, hname⟩ := exists_append_of_endsInDot (endsInDot_classTypeMark isInterface) hlast
      (hrest.symm.trans hcs)
    split at h
    case h_1 underscore c field hdrop =>
      cases h
      obtain ⟨hsplit, hfirst⟩ := eq_append_of_dropWhile hdrop
      generalize last.takeWhile (· ≠ '_') = first at hsplit hfirst ⊢
      subst hsplit
      rw [List.mem_append, not_or, List.mem_cons, not_or] at hlast
      refine ⟨_, _, rfl, ⟨⟨isInterface, String.ofList (name ++ first), ?_⟩, ?_, ?_, ?_⟩, ?_⟩
      · apply String.toList_inj.mp
        simp [hname]
      · rw [toList_simpleName (String.toList_ofList ..) hqualifier hlast.1]
        exact hfirst
      · exact fun hempty => List.cons_ne_nil c field (String.ofList_eq_empty_iff.mp hempty)
      · rw [String.toList_ofList]
        exact hlast.2.2
      · rw [hcs, String.toList_ofList, String.toList_ofList, List.append_assoc]
    case h_2 => cases h

/-- A static field is read from its form if its class type and field are readable, and from that
alone. -/
theorem staticField?_eq_some_iff {cs : List Char} {sym : Symbol} : staticField? cs = some sym ↔
    ∃ classType field, sym = staticField classType field ∧ IsReadableStatic classType field ∧
      cs = classType.toList ++ '_' :: field.toList := by
  constructor
  · exact exists_of_staticField?
  · rintro ⟨classType, field, rfl, ⟨⟨isInterface, name, rfl⟩, hsimple, hne, hdot⟩, rfl⟩
    obtain ⟨classType', field', hread, -, -, hiff⟩ := decode?_staticField
      (rfl : classTypeMark isInterface ++ name = _) hne hdot
    rw [simpleName_append (endsInDot_classTypeMark isInterface)] at hsimple
    rw [hiff.mpr hsimple, decode?_of_toList (toList_encode_staticField _ _)] at hread
    exact hread

/-! ### All symbols -/

/-- The symbols that are read: their names are names of the language, and their static fields are
read as they are. -/
def IsReadable : Symbol → Prop
  | staticField classType field => IsReadableStatic classType field
  | sym => sym.IsValid

theorem IsValid.isReadable {sym : Symbol} (h : sym.IsValid) : sym.IsReadable := by
  cases sym with
  | staticField => exact h.elim
  | _ => exact h

theorem body?_eq_some_iff {cs : List Char} {sym : Symbol} :
    body? cs = some sym ↔ sym.IsReadable ∧ sym.Spelled IsPadded cs := by
  constructor
  · intro h
    rcases spelled_of_body? h with ⟨rest, rfl, hstatic⟩ | ⟨hvalid, hspelled⟩
    · obtain ⟨classType, field, rfl, hreadable, rfl⟩ := staticField?_eq_some_iff.mp hstatic
      exact ⟨hreadable, .staticField classType field⟩
    · exact ⟨hvalid.isReadable, hspelled⟩
  · rintro ⟨hreadable, hspelled⟩
    cases hspelled with
    | staticField classType field =>
      exact staticField?_eq_some_iff.mpr ⟨classType, field, rfl, hreadable, rfl⟩
    | _ => exact body?_of_spelled hreadable (by constructor <;> assumption)

/-- A name is read as a symbol if and only if the symbol is readable and the name is a form of it in
which numbers may be padded with zeros. -/
theorem decode?_eq_some_iff {mangled : String} {sym : Symbol} :
    decode? mangled = some sym ↔ sym.IsReadable ∧ sym.SpelledAs IsPadded mangled := by
  constructor
  · intro h
    obtain ⟨cs, hstart, hbody⟩ := Option.bind_eq_some_iff.mp h
    obtain ⟨hreadable, hspelled⟩ := body?_eq_some_iff.mp hbody
    exact ⟨hreadable, cs, after?_eq_some_iff.mp hstart, hspelled⟩
  · rintro ⟨hreadable, cs, hstart, hspelled⟩
    rw [decode?_of_toList hstart]
    exact body?_eq_some_iff.mpr ⟨hreadable, hspelled⟩

/-- A name is read as a symbol if and only if the symbol is readable and the table of forms gives
the name to it with numbers that may have zeros before their digits; the mangled form of the symbol
is the name that the table gives with the digits alone. So two names are read as one symbol exactly
if they differ in those zeros. -/
theorem decoding_spelled_iff (mangled : String) (sym : Symbol) :
    (decode? mangled = some sym ↔ sym.IsReadable ∧ sym.SpelledAs IsPadded mangled) ∧
      (mangled = sym.encode ↔ sym.SpelledAs IsDecimal mangled) :=
  ⟨decode?_eq_some_iff, spelledAs_isDecimal_iff.symm⟩

/-- A zero before a length changes the name and not what is read. -/
example : decode? "_tern_size_06pkg.Pt" = some (.size "pkg.Pt") ∧
    decode? "_tern_size_6pkg.Pt" = some (.size "pkg.Pt") := by
  decide +kernel

end Symbol

end Erasure
