/-
The forms of symbols as a relation.

A mangled name is a mark for its kind, then names after their lengths and argument codes after their
marks. `Symbol.Spelled` is that table, in which it is left open how a number is written: as its
decimal digits (`IsDecimal`), or with zeros before them (`IsPadded`). The main statements:

* `isPadded_iff`: a text of digits, which is not empty, is the padded form of the number it denotes.
* `spelledAs_isDecimal_iff`: with decimal digits, the table is what `Symbol.encode` writes.
-/
import Mathlib.Data.List.Induction
import Mathlib.Data.String.Basic
import Erasure.Symbol.Decoding

namespace Erasure

namespace Symbol

/-! ### Numbers -/

/-- A number written as its decimal digits. -/
def IsDecimal (n : Nat) (digits : List Char) : Prop := digits = Nat.toDigits 10 n

/-- A number written as its decimal digits, with any number of zeros before them. -/
def IsPadded (n : Nat) (digits : List Char) : Prop :=
  ∃ zeros, digits = List.replicate zeros '0' ++ Nat.toDigits 10 n

theorem isDigit_of_mem_toDigits {n : Nat} : ∀ c ∈ Nat.toDigits 10 n, c.isDigit = true := fun _ hc =>
  Nat.isDigit_of_mem_toDigits (by decide) (by decide) hc

theorem toList_toString (n : Nat) : (toString n).toList = Nat.toDigits 10 n := Nat.toList_repr

/-- A digit is the digit of its value. -/
theorem toDigits_of_isDigit {d : Char} (hd : d.isDigit = true) :
    d.toNat - '0'.toNat < 10 ∧ Nat.toDigits 10 (d.toNat - '0'.toNat) = [d] := by
  obtain ⟨hlow, hhigh⟩ := Char.isDigit_iff_toNat.mp hd
  have hzero : '0'.toNat = 48 := rfl
  have hnine : '9'.toNat = 57 := rfl
  have hlt : d.toNat - '0'.toNat < 10 := by omega
  refine ⟨hlt, ?_⟩
  rw [Nat.toDigits_of_lt_base hlt]
  congr 1
  apply Char.toNat_inj.mp
  rw [Nat.toNat_digitChar_of_lt_ten hlt]
  omega

theorem numberOf_concat (digits : List Char) (d : Char) :
    numberOf (digits ++ [d]) = 10 * numberOf digits + (d.toNat - '0'.toNat) := by
  simp [numberOf, List.foldl_append]

/-- A digit after the padded form of a number gives that of the number it goes on to. -/
theorem IsPadded.concat {n : Nat} {digits : List Char} (h : IsPadded n digits) {d : Char}
    (hd : d.isDigit = true) : IsPadded (10 * n + (d.toNat - '0'.toNat)) (digits ++ [d]) := by
  obtain ⟨zeros, rfl⟩ := h
  obtain ⟨hlt, hdigit⟩ := toDigits_of_isDigit hd
  rcases Nat.eq_zero_or_pos n with rfl | hpos
  · -- the digit of zero becomes one more zero in front
    refine ⟨zeros + 1, ?_⟩
    rw [Nat.mul_zero, Nat.zero_add, hdigit, Nat.toDigits_zero, List.replicate_succ']
  · refine ⟨zeros, ?_⟩
    rw [← Nat.toDigits_append_toDigits (by decide) hpos hlt, hdigit, List.append_assoc]

theorem isPadded_numberOf {digits : List Char} (hne : digits ≠ [])
    (hdigits : ∀ c ∈ digits, c.isDigit = true) : IsPadded (numberOf digits) digits := by
  induction digits using List.reverseRecOn with
  | nil => exact absurd rfl hne
  | append_singleton digits d ih =>
    have hd : d.isDigit = true := hdigits d (by simp)
    rw [numberOf_concat]
    by_cases hdigits' : digits = []
    · refine ⟨0, ?_⟩
      rw [hdigits', show numberOf [] = 0 from rfl, Nat.mul_zero, Nat.zero_add,
        (toDigits_of_isDigit hd).2]
      rfl
    · exact (ih hdigits' fun c hc => hdigits c (by simp [hc])).concat hd

/-- A text is the padded form of a number if it is made of digits and denotes that number. -/
theorem isPadded_iff {n : Nat} {digits : List Char} : IsPadded n digits ↔
    digits ≠ [] ∧ (∀ c ∈ digits, c.isDigit = true) ∧ numberOf digits = n := by
  constructor
  · rintro ⟨zeros, rfl⟩
    refine ⟨?_, ?_, ?_⟩
    · exact List.append_ne_nil_of_right_ne_nil _ Nat.toDigits_ne_nil
    · intro c hc
      rcases List.mem_append.mp hc with hzero | hc
      · rw [List.eq_of_mem_replicate hzero]
        rfl
      · exact isDigit_of_mem_toDigits c hc
    · refine Nat.ofDigitChars_eq_foldl.symm.trans ?_
      rw [Nat.ofDigitChars_append, Nat.ofDigitChars_replicate_zero, Nat.mul_zero,
        Nat.ofDigitChars_ten_toDigits]
  · rintro ⟨hne, hdigits, rfl⟩
    exact isPadded_numberOf hne hdigits

/-- The padded form of a number begins with a digit. -/
theorem IsPadded.exists_digit {n : Nat} {digits : List Char} (h : IsPadded n digits) :
    ∃ d ds, digits = d :: ds ∧ d.isDigit = true := by
  obtain ⟨hne, hdigits, -⟩ := isPadded_iff.mp h
  obtain ⟨d, ds, rfl⟩ := List.exists_cons_of_ne_nil hne
  exact ⟨d, ds, rfl, hdigits d List.mem_cons_self⟩

/-! ### The table of forms -/

/-- A name after its length in bytes. -/
def SpelledName (number : Nat → List Char → Prop) (name : String) (cs : List Char) : Prop :=
  ∃ digits, number name.utf8ByteSize digits ∧ cs = digits ++ name.toList

end Symbol

/-- The form of an argument code, with the mark that separates it from what precedes. -/
inductive ArgCode.Spelled (number : Nat → List Char → Prop) : ArgCode → List Char → Prop
  | boolean : Spelled number boolean ['_', 'b']
  | float : Spelled number float ['_', 'f']
  | double : Spelled number double ['_', 'd']
  | int {bits : Nat} {digits : List Char} (h : number bits digits) :
      Spelled number (int bits) ('_' :: 'i' :: digits)
  | array {elem : ArgCode} {cs : List Char} (h : Spelled number elem cs) :
      Spelled number (array elem) ('_' :: 'a' :: cs)
  | reference {name : String} {cs : List Char} (h : Symbol.SpelledName number name cs) :
      Spelled number (reference name) ('_' :: cs)

namespace Symbol

/-- Argument codes one after the other. -/
inductive SpelledCodes (number : Nat → List Char → Prop) : List ArgCode → List Char → Prop
  | nil : SpelledCodes number [] []
  | cons {code : ArgCode} {codes : List ArgCode} {cs rest : List Char}
      (hcode : code.Spelled number cs) (hcodes : SpelledCodes number codes rest) :
      SpelledCodes number (code :: codes) (cs ++ rest)

/-- The argument list of a procedure. -/
def SpelledArgs (number : Nat → List Char → Prop) : List ArgCode → List Char → Prop
  | [], cs => cs = "_void".toList
  | args, cs => SpelledCodes number args cs

/-- The form of a symbol, without what all symbols begin with. -/
inductive Spelled (number : Nat → List Char → Prop) : Symbol → List Char → Prop
  | method {container name : String} {args : List ArgCode} {cs ns as : List Char}
      (hcontainer : SpelledName number container cs) (hname : SpelledName number name ns)
      (hargs : SpelledArgs number args as) :
      Spelled number (method container name args) (cs ++ '_' :: (ns ++ as))
  | constructor {container : String} {args : List ArgCode} {cs as : List Char}
      (hcontainer : SpelledName number container cs) (hargs : SpelledArgs number args as) :
      Spelled number (constructor container args) (cs ++ ("__constructor_".toList ++ as))
  | staticField (classType field : String) :
      Spelled number (staticField classType field)
        ("static_".toList ++ (classType.toList ++ '_' :: field.toList))
  | size {className : String} {cs : List Char} (h : SpelledName number className cs) :
      Spelled number (size className) ("size_".toList ++ cs)
  | dispatchVector {className : String} {cs : List Char} (h : SpelledName number className cs) :
      Spelled number (dispatchVector className) ("dv_".toList ++ cs)
  | interfaceTable {interface className : String} {is cs : List Char}
      (hinterface : SpelledName number interface is) (hclass : SpelledName number className cs) :
      Spelled number (interfaceTable interface className) ("it_".toList ++ (is ++ '_' :: cs))
  | classInit {className : String} {cs : List Char} (h : SpelledName number className cs) :
      Spelled number (classInit className) ("init_".toList ++ cs)
  | interfacesInit {className : String} {cs : List Char} (h : SpelledName number className cs) :
      Spelled number (interfacesInit className) ("it_init_".toList ++ cs)
  | interfaceDescriptor {interface : String} {cs : List Char}
      (h : SpelledName number interface cs) :
      Spelled number (interfaceDescriptor interface) ("itype_".toList ++ cs)

/-- The symbol has the mangled name by the table of forms. -/
def SpelledAs (number : Nat → List Char → Prop) (sym : Symbol) (mangled : String) : Prop :=
  ∃ cs, mangled.toList = start.toList ++ cs ∧ Spelled number sym cs

/-! ### The mangled form -/

section Encode

variable {number : Nat → List Char → Prop} (hnumber : ∀ n, number n (Nat.toDigits 10 n))

include hnumber

theorem spelledName_lengthPrefixed (name : String) :
    SpelledName number name (lengthPrefixed name).toList := by
  refine ⟨_, hnumber _, ?_⟩
  rw [lengthPrefixed, String.toList_append, toList_toString]

theorem spelled_argCode_encode (code : ArgCode) : code.Spelled number code.encode.toList := by
  induction code with
  | boolean => exact .boolean
  | float => exact .float
  | double => exact .double
  | int bits =>
    rw [ArgCode.encode, String.toList_append, toList_toString]
    exact .int (hnumber bits)
  | array elem ih =>
    rw [ArgCode.encode, String.toList_append]
    exact .array ih
  | reference name =>
    rw [ArgCode.encode, String.toList_append]
    exact .reference (spelledName_lengthPrefixed hnumber name)

theorem spelledCodes_encode (codes : List ArgCode) :
    SpelledCodes number codes (String.join (codes.map ArgCode.encode)).toList := by
  rw [String.toList_join]
  induction codes with
  | nil => exact .nil
  | cons code codes ih => exact .cons (spelled_argCode_encode hnumber code) ih

theorem spelledArgs_encodeArgs (args : List ArgCode) :
    SpelledArgs number args (encodeArgs args).toList := by
  cases args with
  | nil => rfl
  | cons code codes => exact spelledCodes_encode hnumber (code :: codes)

/-- What `Symbol.encode` writes has the form of the table, if numbers may be written as their
decimal digits. -/
theorem spelledAs_encode (sym : Symbol) : sym.SpelledAs number sym.encode := by
  have hname := spelledName_lengthPrefixed hnumber
  have hargs := spelledArgs_encodeArgs hnumber
  cases sym with
  | method container name args =>
    exact ⟨_, by simp [encode], .method (hname container) (hname name) (hargs args)⟩
  | constructor container args =>
    exact ⟨_, by simp [encode], .constructor (hname container) (hargs args)⟩
  | staticField classType field => exact ⟨_, by simp [encode], .staticField classType field⟩
  | size className => exact ⟨_, by simp [encode], .size (hname className)⟩
  | dispatchVector className => exact ⟨_, by simp [encode], .dispatchVector (hname className)⟩
  | interfaceTable interface className =>
    exact ⟨_, by simp [encode], .interfaceTable (hname interface) (hname className)⟩
  | classInit className => exact ⟨_, by simp [encode], .classInit (hname className)⟩
  | interfacesInit className => exact ⟨_, by simp [encode], .interfacesInit (hname className)⟩
  | interfaceDescriptor interface =>
    exact ⟨_, by simp [encode], .interfaceDescriptor (hname interface)⟩

end Encode

theorem SpelledName.eq_lengthPrefixed {name : String} {cs : List Char}
    (h : SpelledName IsDecimal name cs) : cs = (lengthPrefixed name).toList := by
  obtain ⟨digits, rfl, rfl⟩ := h
  rw [lengthPrefixed, String.toList_append, toList_toString]

theorem eq_encode_of_spelled {code : ArgCode} {cs : List Char} (h : code.Spelled IsDecimal cs) :
    cs = code.encode.toList := by
  induction h with
  | boolean | float | double => rfl
  | int h => rw [h, ArgCode.encode, String.toList_append, toList_toString]; rfl
  | array _ ih => rw [ih, ArgCode.encode, String.toList_append]; rfl
  | reference h => rw [h.eq_lengthPrefixed, ArgCode.encode, String.toList_append]; rfl

theorem SpelledCodes.eq_encode {codes : List ArgCode} {cs : List Char}
    (h : SpelledCodes IsDecimal codes cs) :
    cs = (String.join (codes.map ArgCode.encode)).toList := by
  rw [String.toList_join]
  induction h with
  | nil => rfl
  | cons hcode _ ih => rw [eq_encode_of_spelled hcode, ih, List.map_cons, List.flatMap_cons]

theorem SpelledArgs.eq_encodeArgs {args : List ArgCode} {cs : List Char}
    (h : SpelledArgs IsDecimal args cs) : cs = (encodeArgs args).toList := by
  cases args with
  | nil => exact h
  | cons code codes => exact SpelledCodes.eq_encode h

/-- With decimal digits, the table gives the mangled form of a symbol and nothing else. -/
theorem spelledAs_isDecimal_iff {sym : Symbol} {mangled : String} :
    sym.SpelledAs IsDecimal mangled ↔ mangled = sym.encode := by
  constructor
  · rintro ⟨cs, hmangled, h⟩
    apply String.toList_inj.mp
    rw [hmangled]
    cases h with
    | method hcontainer hname hargs =>
      simp [encode, hcontainer.eq_lengthPrefixed, hname.eq_lengthPrefixed, hargs.eq_encodeArgs]
    | constructor hcontainer hargs =>
      simp [encode, hcontainer.eq_lengthPrefixed, hargs.eq_encodeArgs]
    | staticField classType field => simp [encode]
    | interfaceTable hinterface hclass =>
      simp [encode, hinterface.eq_lengthPrefixed, hclass.eq_lengthPrefixed]
    | size h | dispatchVector h | classInit h | interfacesInit h | interfaceDescriptor h =>
      simp [encode, h.eq_lengthPrefixed]
  · rintro rfl
    exact spelledAs_encode (fun n => show IsDecimal n _ from rfl) sym

end Symbol

end Erasure
