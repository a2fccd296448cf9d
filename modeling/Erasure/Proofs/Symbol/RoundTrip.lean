/-
Reading back what was mangled.

Every name in a symbol follows its length, and everything that can stand in front of a length or
behind a name is told apart by its first character. So the reader undoes the table of forms; it
reads a number with zeros before its digits as well. The main statements:

* `number?_eq_some_iff`, `component?_eq_some_iff`: a number is read in any padded form, a name after
  its length, and nothing of what follows them.
* `argCode?_of_spelled`, `spelled_of_argCode?`, `args?_eq_some_iff`: so are argument codes.
* `body?_of_spelled`, `spelled_of_body?`: the symbols that are read, but for static fields, are those
  whose names are names of the language, in all their forms.
* `decode?_encode`: such a symbol is read back from its mangled form.
-/
import Mathlib.Data.List.TakeWhile
import Erasure.Proofs.Symbol.Spelling

namespace Erasure

namespace Symbol

/-! ### Literals and numbers -/

theorem after?_eq_some_iff {literal cs rest : List Char} :
    after? literal cs = some rest ↔ cs = literal ++ rest := by
  induction literal generalizing cs with
  | nil => simp [after?]
  | cons l literal ih =>
    cases cs with
    | nil => simp [after?]
    | cons c cs =>
      rw [after?, List.cons_append, List.cons.injEq]
      split
      case isTrue h => rw [ih, and_iff_right h.symm]
      case isFalse h => exact ⟨nofun, fun heq => absurd heq.1.symm h⟩

@[simp]
theorem after?_append (literal cs : List Char) : after? literal (literal ++ cs) = some cs :=
  after?_eq_some_iff.mpr rfl

/-- The text does not go on with a digit. -/
def EndsNumber (cs : List Char) : Prop := ∀ c ∈ cs.head?, c.isDigit = false

theorem endsNumber_cons_iff {c : Char} {cs : List Char} :
    EndsNumber (c :: cs) ↔ c.isDigit = false :=
  ⟨fun h => h c rfl, fun h _ hc => Option.some.inj hc ▸ h⟩

theorem endsNumber_nil : EndsNumber [] := nofun

theorem EndsNumber.append {cs : List Char} (h : EndsNumber cs) (hcs : cs ≠ []) (rest : List Char) :
    EndsNumber (cs ++ rest) := by
  obtain ⟨c, cs, rfl⟩ := List.exists_cons_of_ne_nil hcs
  exact h

instance : (cs : List Char) → Decidable (EndsNumber cs)
  | [] => isTrue nofun
  | _ :: _ => decidable_of_iff _ endsNumber_cons_iff.symm

theorem takeWhile_isDigit_append {digits cs : List Char} (hdigits : ∀ c ∈ digits, c.isDigit = true)
    (hcs : EndsNumber cs) : (digits ++ cs).takeWhile Char.isDigit = digits ∧
      (digits ++ cs).dropWhile Char.isDigit = cs := by
  rw [List.takeWhile_append_of_pos hdigits, List.dropWhile_append_of_pos hdigits]
  cases cs with
  | nil => simp
  | cons c cs => simp [hcs c rfl]

theorem endsNumber_dropWhile (cs : List Char) : EndsNumber (cs.dropWhile Char.isDigit) := by
  intro c hc
  have hhead := List.head?_dropWhile_not Char.isDigit cs
  rw [hc] at hhead
  simpa using hhead

/-- A number is read in any padded form, up to the first character that is no digit. -/
theorem number?_eq_some_iff {n : Nat} {cs rest : List Char} : number? cs = some (n, rest) ↔
    n < UInt64.size ∧ EndsNumber rest ∧ ∃ digits, IsPadded n digits ∧ cs = digits ++ rest := by
  constructor
  · intro h
    unfold number? at h
    dsimp only at h
    split at h
    case isTrue => cases h
    case isFalse hread =>
      obtain ⟨rfl, rfl⟩ := Prod.mk.inj (Option.some.inj h)
      simp only [Bool.or_eq_true, List.isEmpty_iff, decide_eq_true_eq, not_or, not_le] at hread
      refine ⟨hread.2, endsNumber_dropWhile cs, _, ?_, List.takeWhile_append_dropWhile.symm⟩
      exact isPadded_numberOf hread.1 fun c hc => List.mem_takeWhile_imp hc
  · rintro ⟨hn, hrest, digits, hdigits, rfl⟩
    obtain ⟨hne, hall, hnumber⟩ := isPadded_iff.mp hdigits
    obtain ⟨htake, hdrop⟩ := takeWhile_isDigit_append hall hrest
    rw [number?, htake, hdrop, hnumber]
    simp [hne, hn]

/-! ### Names -/

/-- Characters are read up to the number of their bytes. -/
theorem takeBytes?_eq_some_iff {n : Nat} {cs taken rest : List Char} :
    takeBytes? n cs = some (taken, rest) ↔ String.utf8Len taken = n ∧ cs = taken ++ rest := by
  fun_induction takeBytes? n cs generalizing taken with
  | case1 cs =>
    simp only [Option.some.injEq, Prod.mk.injEq, String.utf8Len_eq_zero]
    constructor
    · rintro ⟨rfl, rfl⟩
      exact ⟨rfl, rfl⟩
    · rintro ⟨rfl, rfl⟩
      exact ⟨rfl, rfl⟩
  | case2 n =>
    constructor
    · intro h
      cases h
    · rintro ⟨hlen, hnil⟩
      obtain ⟨rfl, rfl⟩ := List.append_eq_nil_iff.mp hnil.symm
      cases hlen
  | case3 n c cs hsize ih =>
    rw [Option.map_eq_some_iff]
    constructor
    · rintro ⟨⟨t, r⟩, hread, heq⟩
      obtain ⟨rfl, rfl⟩ := Prod.mk.inj heq
      obtain ⟨hlen, rfl⟩ := ih.mp hread
      exact ⟨by rw [String.utf8Len_cons, hlen]; omega, rfl⟩
    · rintro ⟨hlen, heq⟩
      cases taken with
      | nil => cases hlen
      | cons t taken =>
        obtain ⟨rfl, rfl⟩ := List.cons.inj heq
        rw [String.utf8Len_cons] at hlen
        exact ⟨(taken, rest), ih.mpr ⟨by omega, rfl⟩, rfl⟩
  | case4 n c cs hsize =>
    constructor
    · intro h
      cases h
    · rintro ⟨hlen, heq⟩
      cases taken with
      | nil => cases hlen
      | cons t taken =>
        obtain ⟨rfl, -⟩ := List.cons.inj heq
        rw [String.utf8Len_cons] at hlen
        omega

/-- A name of the language: not empty, not beginning with a digit, and no longer than a text in
memory can be. -/
structure IsName (name : String) : Prop where
  ne_empty : name ≠ ""
  endsNumber : EndsNumber name.toList
  size_lt : name.utf8ByteSize < UInt64.size

instance (name : String) : Decidable (IsName name) :=
  decidable_of_iff (name ≠ "" ∧ EndsNumber name.toList ∧ name.utf8ByteSize < UInt64.size)
    ⟨fun h => ⟨h.1, h.2.1, h.2.2⟩, fun h => ⟨h.ne_empty, h.endsNumber, h.size_lt⟩⟩

theorem IsName.toList_ne_nil {name : String} (h : IsName name) : name.toList ≠ [] := fun hnil =>
  h.ne_empty (String.toList_eq_nil_iff.mp hnil)

theorem utf8Len_toList (name : String) : String.utf8Len name.toList = name.utf8ByteSize := by
  rw [← String.utf8ByteSize_ofList, String.ofList_toList]

/-- A name is read after its length, and nothing of what follows it. -/
theorem component?_eq_some_iff {name : String} {cs rest : List Char} :
    component? cs = some (name, rest) ↔
      IsName name ∧ ∃ text, SpelledName IsPadded name text ∧ cs = text ++ rest := by
  constructor
  · intro h
    simp only [component?, Option.bind_eq_bind, Option.bind_eq_some_iff] at h
    obtain ⟨⟨n, cs'⟩, hnumber, ⟨taken, rest'⟩, htake, hname⟩ := h
    dsimp only at htake hname
    split at hname
    case isTrue => cases hname
    case isFalse hne =>
      obtain ⟨rfl, rfl⟩ := Prod.mk.inj (Option.some.inj hname)
      obtain ⟨hsize, hends, digits, hdigits, rfl⟩ := number?_eq_some_iff.mp hnumber
      obtain ⟨rfl, rfl⟩ := takeBytes?_eq_some_iff.mp htake
      obtain ⟨c, taken, rfl⟩ := List.exists_cons_of_ne_nil (mt List.isEmpty_iff.mpr hne)
      rw [← String.utf8ByteSize_ofList] at hsize hdigits
      refine ⟨⟨?_, ?_, hsize⟩, digits ++ c :: taken, ⟨digits, hdigits, ?_⟩, ?_⟩
      · exact fun hempty => List.cons_ne_nil c taken (String.ofList_eq_empty_iff.mp hempty)
      · rw [String.toList_ofList]
        exact hends
      · rw [String.toList_ofList]
      · rw [List.append_assoc]
  · rintro ⟨hname, text, ⟨digits, hdigits, rfl⟩, rfl⟩
    have hends := hname.endsNumber.append hname.toList_ne_nil rest
    have hnumber := number?_eq_some_iff.mpr ⟨hname.size_lt, hends, digits, hdigits, rfl⟩
    have htake := takeBytes?_eq_some_iff.mpr ⟨utf8Len_toList name, Eq.refl (name.toList ++ rest)⟩
    rw [component?, List.append_assoc, hnumber]
    simp only [Option.bind_eq_bind, Option.bind_some]
    rw [htake, Option.bind_some, if_neg (by simpa using hname.toList_ne_nil), String.ofList_toList]

theorem wholeComponent?_eq_some_iff {name : String} {cs : List Char} :
    wholeComponent? cs = some name ↔ IsName name ∧ SpelledName IsPadded name cs := by
  simp only [wholeComponent?, Option.bind_eq_bind, Option.bind_eq_some_iff, Prod.exists,
    Option.ite_none_right_eq_some, List.isEmpty_iff, Option.some.injEq]
  constructor
  · rintro ⟨name', rest, hread, rfl, rfl⟩
    obtain ⟨hname, text, htext, rfl⟩ := component?_eq_some_iff.mp hread
    rw [List.append_nil]
    exact ⟨hname, htext⟩
  · rintro ⟨hname, hspelled⟩
    refine ⟨name, [], component?_eq_some_iff.mpr ⟨hname, cs, hspelled, ?_⟩, rfl, rfl⟩
    rw [List.append_nil]

/-- A name after its length begins with a digit. -/
theorem SpelledName.exists_digit {name : String} {cs : List Char}
    (h : SpelledName IsPadded name cs) : ∃ d ds, cs = d :: ds ∧ d.isDigit = true := by
  obtain ⟨digits, hdigits, rfl⟩ := h
  obtain ⟨d, ds, rfl, hd⟩ := hdigits.exists_digit
  exact ⟨d, ds ++ name.toList, rfl, hd⟩

/-! ### Argument codes -/

end Symbol

/-- The names in an argument code are names of the language, and its widths are those of types. -/
def ArgCode.IsValid : ArgCode → Prop
  | boolean | float | double => True
  | int bits => bits < UInt32.size
  | array elem => elem.IsValid
  | reference name => Symbol.IsName name

namespace Symbol

/-- A text that begins with a digit is read as the code of a class. -/
theorem argCode?_of_digit {d : Char} (hd : d.isDigit = true) (cs : List Char) :
    argCode? (d :: cs) =
      (component? (d :: cs)).map fun (name, rest) => (.reference name, rest) := by
  rw [argCode?]
  all_goals
    -- no other code begins with a digit
    rintro _ heq
    obtain ⟨rfl, -⟩ := List.cons.inj heq
    exact absurd hd (by decide)

/-- An argument code is read after its separating mark, and nothing of what follows it. -/
theorem argCode?_of_spelled {code : ArgCode} {text rest : List Char} (hcode : code.IsValid)
    (h : code.Spelled IsPadded text) (hrest : EndsNumber rest) :
    ∃ cs, text = '_' :: cs ∧ argCode? (cs ++ rest) = some (code, rest) := by
  induction h with
  | boolean => exact ⟨['b'], rfl, by rw [List.singleton_append, argCode?]⟩
  | float => exact ⟨['f'], rfl, by rw [List.singleton_append, argCode?]⟩
  | double => exact ⟨['d'], rfl, by rw [List.singleton_append, argCode?]⟩
  | @int bits digits hdigits =>
    have hbits : bits < UInt32.size := hcode
    have hnumber := number?_eq_some_iff.mpr
      ⟨Nat.lt_trans hbits (by decide), hrest, digits, hdigits, rfl⟩
    refine ⟨'i' :: digits, rfl, ?_⟩
    rw [List.cons_append, argCode?, hnumber]
    simp only [Option.bind_eq_bind, Option.bind_some]
    rw [if_pos hbits]
  | array _ ih =>
    obtain ⟨cs, rfl, hread⟩ := ih hcode
    refine ⟨'a' :: '_' :: cs, rfl, ?_⟩
    rw [List.cons_append, List.cons_append, argCode?, hread]
    rfl
  | reference hname =>
    have hread := component?_eq_some_iff.mpr ⟨hcode, _, hname, Eq.refl (_ ++ rest)⟩
    obtain ⟨d, ds, rfl, hd⟩ := hname.exists_digit
    refine ⟨d :: ds, rfl, ?_⟩
    rw [List.cons_append, argCode?_of_digit hd, ← List.cons_append, hread]
    rfl

/-- What is read as an argument code is a form of it. -/
theorem spelled_of_argCode? {code : ArgCode} {cs rest : List Char}
    (h : argCode? cs = some (code, rest)) :
    code.IsValid ∧ ∃ text, code.Spelled IsPadded ('_' :: text) ∧ cs = text ++ rest := by
  fun_induction argCode? cs generalizing code with
  | case1 cs =>
    obtain ⟨rfl, rfl⟩ := Prod.mk.inj (Option.some.inj h)
    exact ⟨trivial, ['b'], .boolean, rfl⟩
  | case2 cs =>
    obtain ⟨rfl, rfl⟩ := Prod.mk.inj (Option.some.inj h)
    exact ⟨trivial, ['f'], .float, rfl⟩
  | case3 cs =>
    obtain ⟨rfl, rfl⟩ := Prod.mk.inj (Option.some.inj h)
    exact ⟨trivial, ['d'], .double, rfl⟩
  | case4 cs =>
    simp only [Option.bind_eq_bind, Option.bind_eq_some_iff] at h
    obtain ⟨⟨bits, r⟩, hnumber, hread⟩ := h
    dsimp only at hread
    split at hread
    case isTrue hbits =>
      obtain ⟨rfl, rfl⟩ := Prod.mk.inj (Option.some.inj hread)
      obtain ⟨-, -, digits, hdigits, rfl⟩ := number?_eq_some_iff.mp hnumber
      exact ⟨hbits, 'i' :: digits, .int hdigits, rfl⟩
    case isFalse => cases hread
  | case5 cs ih =>
    obtain ⟨⟨elem, r⟩, hread, heq⟩ := Option.map_eq_some_iff.mp h
    obtain ⟨rfl, rfl⟩ := Prod.mk.inj heq
    obtain ⟨helem, text, htext, rfl⟩ := ih hread
    exact ⟨helem, 'a' :: '_' :: text, .array htext, rfl⟩
  | case6 cs =>
    obtain ⟨⟨name, r⟩, hread, heq⟩ := Option.map_eq_some_iff.mp h
    obtain ⟨rfl, rfl⟩ := Prod.mk.inj heq
    obtain ⟨hname, text, htext, rfl⟩ := component?_eq_some_iff.mp hread
    exact ⟨hname, text, .reference htext, rfl⟩

/-- What follows an argument code does not go on with a digit. -/
theorem SpelledCodes.endsNumber {codes : List ArgCode} {cs : List Char}
    (h : SpelledCodes IsPadded codes cs) : EndsNumber cs := by
  cases h with
  | nil => exact endsNumber_nil
  | cons hcode _ => cases hcode <;> exact endsNumber_cons_iff.mpr rfl

theorem argCodes?_eq_some_iff {codes : List ArgCode} {cs : List Char} :
    argCodes? cs = some codes ↔
      (∀ code ∈ codes, code.IsValid) ∧ SpelledCodes IsPadded codes cs := by
  constructor
  · intro h
    fun_induction argCodes? cs generalizing codes with
    | case1 =>
      cases h
      exact ⟨nofun, .nil⟩
    | case2 cs code rest hread ih =>
      obtain ⟨codes, hcodes, rfl⟩ := Option.map_eq_some_iff.mp h
      obtain ⟨hcode, text, htext, rfl⟩ := spelled_of_argCode? hread
      obtain ⟨hvalid, hrest⟩ := ih hcodes
      exact ⟨List.forall_mem_cons.mpr ⟨hcode, hvalid⟩, .cons htext hrest⟩
    | case3 => cases h
    | case4 => cases h
  · rintro ⟨hvalid, h⟩
    induction h with
    | nil => rw [argCodes?]
    | cons hcode hcodes ih =>
      obtain ⟨hvalid, hrest⟩ := List.forall_mem_cons.mp hvalid
      obtain ⟨cs, rfl, hread⟩ := argCode?_of_spelled hvalid hcode hcodes.endsNumber
      rw [List.cons_append, argCodes?]
      split
      case h_1 code' rest hread' =>
        obtain ⟨rfl, rfl⟩ := Prod.mk.inj (Option.some.inj (hread.symm.trans hread'))
        rw [ih hrest]
        rfl
      case h_2 hread' =>
        rw [hread] at hread'
        cases hread'

/-- The mark of an empty argument list is no list of argument codes. -/
theorem argCodes?_void : argCodes? "_void".toList = none := by
  have hvoid : argCode? ['v', 'o', 'i', 'd'] = none := by decide
  rw [show "_void".toList = ['_', 'v', 'o', 'i', 'd'] from rfl, argCodes?]
  split
  case h_1 hread =>
    rw [hvoid] at hread
    cases hread
  case h_2 => rfl

/-- The argument codes of a procedure are read to the end. -/
theorem args?_eq_some_iff {args : List ArgCode} {cs : List Char} : args? cs = some args ↔
    (∀ code ∈ args, code.IsValid) ∧ SpelledArgs IsPadded args cs := by
  unfold args?
  split
  case isTrue hvoid =>
    subst hvoid
    cases args with
    | nil => exact ⟨fun _ => ⟨nofun, rfl⟩, fun _ => rfl⟩
    | cons code codes =>
      refine ⟨nofun, fun h => ?_⟩
      have hread := argCodes?_eq_some_iff.mpr h
      rw [argCodes?_void] at hread
      cases hread
  case isFalse hvoid =>
    cases args with
    | nil =>
      refine ⟨fun h => ?_, fun h => absurd h.2 hvoid⟩
      split at h
      case isTrue => cases h
      case isFalse hempty =>
        obtain ⟨-, hnil⟩ := argCodes?_eq_some_iff.mp h
        cases hnil
        exact absurd rfl hempty
    | cons code codes =>
      split
      case isTrue hempty =>
        refine ⟨nofun, fun h => ?_⟩
        rw [List.isEmpty_iff.mp hempty] at h
        have hread := argCodes?_eq_some_iff.mpr h
        rw [argCodes?] at hread
        cases hread
      case isFalse => exact argCodes?_eq_some_iff

/-! ### Symbols -/

/-- All names in the symbol follow their length and are names of the language; a static field has no
such names. -/
def IsValid : Symbol → Prop
  | method container name args =>
    IsName container ∧ IsName name ∧ ∀ code ∈ args, code.IsValid
  | constructor container args => IsName container ∧ ∀ code ∈ args, code.IsValid
  | interfaceTable interface className => IsName interface ∧ IsName className
  | size name | dispatchVector name | classInit name | interfacesInit name
  | interfaceDescriptor name => IsName name
  | staticField _ _ => False

/-- A text that begins with a digit is none that begins with another character. -/
theorem after?_of_digit {l d : Char} {literal cs : List Char} (hd : d.isDigit = true)
    (hl : l.isDigit = false) : after? (l :: literal) (d :: cs) = none := by
  rw [after?, if_neg]
  rintro rfl
  rw [hd] at hl
  cases hl

theorem procedure?_method {container name : String} {args : List ArgCode} {cs ns as : List Char}
    (hvalid : (method container name args).IsValid) (hcontainer : SpelledName IsPadded container cs)
    (hname : SpelledName IsPadded name ns) (hargs : SpelledArgs IsPadded args as) :
    procedure? (cs ++ '_' :: (ns ++ as)) = some (method container name args) := by
  obtain ⟨hvalidContainer, hvalidName, hvalidArgs⟩ := hvalid
  have hmethod : after? "__constructor_".toList ('_' :: (ns ++ as)) = none := by
    obtain ⟨d, ds, rfl, hd⟩ := hname.exists_digit
    show after? ('_' :: "constructor_".toList) (d :: (ds ++ as)) = none
    exact after?_of_digit hd rfl
  have hmark : after? ['_'] ('_' :: (ns ++ as)) = some (ns ++ as) := after?_append ['_'] _
  rw [procedure?, component?_eq_some_iff.mpr ⟨hvalidContainer, cs, hcontainer, rfl⟩]
  simp only [Option.bind_eq_bind, Option.bind_some, hmethod, hmark,
    component?_eq_some_iff.mpr ⟨hvalidName, ns, hname, rfl⟩,
    args?_eq_some_iff.mpr ⟨hvalidArgs, hargs⟩]
  rfl

theorem procedure?_constructor {container : String} {args : List ArgCode} {cs as : List Char}
    (hvalid : (constructor container args).IsValid) (hcontainer : SpelledName IsPadded container cs)
    (hargs : SpelledArgs IsPadded args as) :
    procedure? (cs ++ ("__constructor_".toList ++ as)) = some (constructor container args) := by
  obtain ⟨hvalidContainer, hvalidArgs⟩ := hvalid
  rw [procedure?, component?_eq_some_iff.mpr ⟨hvalidContainer, cs, hcontainer, rfl⟩]
  simp only [Option.bind_eq_bind, Option.bind_some, after?_append,
    args?_eq_some_iff.mpr ⟨hvalidArgs, hargs⟩]
  rfl

theorem spelled_of_procedure? {cs : List Char} {sym : Symbol} (h : procedure? cs = some sym) :
    sym.IsValid ∧ sym.Spelled IsPadded cs := by
  simp only [procedure?, Option.bind_eq_bind, Option.bind_eq_some_iff] at h
  obtain ⟨⟨container, cs'⟩, hread, h⟩ := h
  obtain ⟨hcontainer, text, htext, rfl⟩ := component?_eq_some_iff.mp hread
  dsimp only at h
  split at h
  case h_1 as hmark =>
    obtain ⟨args, hargs, heq⟩ := Option.bind_eq_some_iff.mp h
    cases heq
    obtain ⟨hvalid, hspelled⟩ := args?_eq_some_iff.mp hargs
    rw [after?_eq_some_iff.mp hmark]
    exact ⟨⟨hcontainer, hvalid⟩, .constructor htext hspelled⟩
  case h_2 =>
    simp only [Option.bind_eq_some_iff] at h
    obtain ⟨cs, hmark, ⟨name, as⟩, hread, args, hargs, heq⟩ := h
    cases heq
    dsimp only at hmark hargs ⊢
    obtain ⟨hname, ns, hns, rfl⟩ := component?_eq_some_iff.mp hread
    obtain ⟨hvalid, hspelled⟩ := args?_eq_some_iff.mp hargs
    have hform := Spelled.method htext hns hspelled
    rw [after?_eq_some_iff.mp hmark]
    exact ⟨⟨hcontainer, hname, hvalid⟩, hform⟩

/-- A procedure begins with the length of a name, unlike all other symbols. -/
theorem body?_of_digit {d : Char} {cs : List Char} (hd : d.isDigit = true) :
    body? (d :: cs) = procedure? (d :: cs) := by
  have hnone : ∀ l literal, l.isDigit = false → after? (l :: literal) (d :: cs) = none :=
    fun l literal => after?_of_digit hd
  unfold body?
  rw [show after? "static_".toList (d :: cs) = none from hnone _ _ rfl]
  dsimp only
  rw [show after? "size_".toList (d :: cs) = none from hnone _ _ rfl]
  dsimp only
  rw [show after? "dv_".toList (d :: cs) = none from hnone _ _ rfl]
  dsimp only
  rw [show after? "it_init_".toList (d :: cs) = none from hnone _ _ rfl]
  dsimp only
  rw [show after? "itype_".toList (d :: cs) = none from hnone _ _ rfl]
  dsimp only
  rw [show after? "it_".toList (d :: cs) = none from hnone _ _ rfl]
  dsimp only
  rw [show after? "init_".toList (d :: cs) = none from hnone _ _ rfl]

theorem body?_of_spelledName {name : String} {cs : List Char} (h : SpelledName IsPadded name cs)
    (rest : List Char) : body? (cs ++ rest) = procedure? (cs ++ rest) := by
  obtain ⟨d, ds, rfl, hd⟩ := h.exists_digit
  exact body?_of_digit hd

theorem body?_interfaceTable {interface className : String} {is cs : List Char}
    (hvalid : (interfaceTable interface className).IsValid)
    (hinterface : SpelledName IsPadded interface is) (hclass : SpelledName IsPadded className cs) :
    body? ("it_".toList ++ (is ++ '_' :: cs)) = some (interfaceTable interface className) := by
  obtain ⟨hvalidInterface, hvalidClass⟩ := hvalid
  have hread := component?_eq_some_iff.mpr
    ⟨hvalidInterface, is, hinterface, Eq.refl (is ++ '_' :: cs)⟩
  obtain ⟨d, ds, rfl, hd⟩ := hinterface.exists_digit
  have hinit : after? "it_init_".toList ("it_".toList ++ (d :: ds ++ '_' :: cs)) = none := by
    show after? ('i' :: "nit_".toList) (d :: _) = none
    exact after?_of_digit hd rfl
  have hmark : after? ['_'] ('_' :: cs) = some cs := after?_append ['_'] cs
  unfold body?
  rw [show after? "static_".toList ("it_".toList ++ _) = none from rfl]
  dsimp only
  rw [show after? "size_".toList ("it_".toList ++ _) = none from rfl]
  dsimp only
  rw [show after? "dv_".toList ("it_".toList ++ _) = none from rfl]
  dsimp only
  rw [hinit]
  dsimp only
  rw [show after? "itype_".toList ("it_".toList ++ _) = none from rfl]
  dsimp only
  rw [after?_append]
  simp only [hread, Option.bind_eq_bind, Option.bind_some, hmark,
    wholeComponent?_eq_some_iff.mpr ⟨hvalidClass, hclass⟩]
  rfl

/-- A symbol is read in all its forms. -/
theorem body?_of_spelled {sym : Symbol} {cs : List Char} (hvalid : sym.IsValid)
    (h : sym.Spelled IsPadded cs) : body? cs = some sym := by
  cases h with
  | method hcontainer hname hargs =>
    rw [body?_of_spelledName hcontainer]
    exact procedure?_method hvalid hcontainer hname hargs
  | constructor hcontainer hargs =>
    rw [body?_of_spelledName hcontainer]
    exact procedure?_constructor hvalid hcontainer hargs
  | staticField => exact hvalid.elim
  | interfaceTable hinterface hclass => exact body?_interfaceTable hvalid hinterface hclass
  | size hname | dispatchVector hname | classInit hname | interfacesInit hname
  | interfaceDescriptor hname =>
    -- the marks of these kinds tell them apart from all others
    exact congrArg (Option.map _) (wholeComponent?_eq_some_iff.mpr ⟨hvalid, hname⟩)

/-- A symbol of one name that was read behind the mark of its kind has the form it was read from. -/
theorem spelled_of_wholeComponent? {kind : String → Symbol} {mark : String} {cs rest : List Char}
    {sym : Symbol} (hvalid : ∀ {name}, IsName name → (kind name).IsValid)
    (hform : ∀ {name text}, SpelledName IsPadded name text →
      (kind name).Spelled IsPadded (mark.toList ++ text))
    (hmark : after? mark.toList cs = some rest) (h : (wholeComponent? rest).map kind = some sym) :
    sym.IsValid ∧ sym.Spelled IsPadded cs := by
  obtain ⟨name, hread, rfl⟩ := Option.map_eq_some_iff.mp h
  obtain ⟨hname, hspelled⟩ := wholeComponent?_eq_some_iff.mp hread
  rw [after?_eq_some_iff.mp hmark]
  exact ⟨hvalid hname, hform hspelled⟩

/-- What is read as a symbol is a form of it, unless it is read as a static field. -/
theorem spelled_of_body? {sym : Symbol} {cs : List Char} (h : body? cs = some sym) :
    (∃ rest, cs = "static_".toList ++ rest ∧ staticField? rest = some sym) ∨
      (sym.IsValid ∧ sym.Spelled IsPadded cs) := by
  unfold body? at h
  split at h
  case h_1 rest hmark => exact .inl ⟨rest, after?_eq_some_iff.mp hmark, h⟩
  refine .inr ?_
  split at h
  case h_1 hmark => exact spelled_of_wholeComponent? id .size hmark h
  split at h
  case h_1 hmark => exact spelled_of_wholeComponent? id .dispatchVector hmark h
  split at h
  case h_1 hmark => exact spelled_of_wholeComponent? id .interfacesInit hmark h
  split at h
  case h_1 hmark => exact spelled_of_wholeComponent? id .interfaceDescriptor hmark h
  split at h
  case h_1 rest hmark =>
    simp only [Option.bind_eq_bind, Option.bind_eq_some_iff] at h
    obtain ⟨⟨interface, rest'⟩, hread, rest'', hmark', name, hname, heq⟩ := h
    cases heq
    obtain ⟨hinterface, text, htext, rfl⟩ := component?_eq_some_iff.mp hread
    obtain ⟨hvalid, hspelled⟩ := wholeComponent?_eq_some_iff.mp hname
    dsimp only at hmark' ⊢
    rw [after?_eq_some_iff.mp hmark, after?_eq_some_iff.mp hmark']
    exact ⟨⟨hinterface, hvalid⟩, .interfaceTable htext hspelled⟩
  split at h
  case h_1 hmark => exact spelled_of_wholeComponent? id .classInit hmark h
  exact spelled_of_procedure? h

theorem decode?_of_toList {mangled : String} {cs : List Char}
    (h : mangled.toList = start.toList ++ cs) : decode? mangled = body? cs := by
  rw [decode?, h, after?_append]
  rfl

/-- A symbol is read back. -/
theorem decode?_encode {sym : Symbol} (h : sym.IsValid) : decode? sym.encode = some sym := by
  obtain ⟨cs, hcs, hspelled⟩ := spelledAs_encode (fun n => show IsPadded n _ from ⟨0, rfl⟩) sym
  rw [decode?_of_toList hcs]
  exact body?_of_spelled h hspelled

end Symbol

end Erasure
