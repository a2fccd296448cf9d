/-
Symbols of interface tables.

The symbol of an interface table joins two names behind their lengths, whatever the names are as long
as they can be told from the digits before them. The main statements:

* `lengthPrefixed_append_inj`: a name behind its length can be split off the front of a text.
* `encode_interfaceTable_inj`: the symbol of an interface table determines both names.
* `exists_of_isInterfaceTable`: no other symbol is mangled like that of an interface table.
-/
import Erasure.Proofs.Symbol.RoundTrip

namespace Erasure.Symbol

/-! ### Names behind their lengths -/

/-- A name that can be told from a number before it: it is not empty and begins with no digit. -/
structure IsSeparable (name : String) : Prop where
  ne_empty : name ≠ ""
  endsNumber : EndsNumber name.toList

instance (name : String) : Decidable (IsSeparable name) :=
  decidable_of_iff (name ≠ "" ∧ EndsNumber name.toList)
    ⟨fun h => ⟨h.1, h.2⟩, fun h => ⟨h.ne_empty, h.endsNumber⟩⟩

theorem IsSeparable.endsNumber_append {name : String} (h : IsSeparable name) (rest : List Char) :
    EndsNumber (name.toList ++ rest) :=
  h.endsNumber.append (fun hnil => h.ne_empty (String.toList_eq_nil_iff.mp hnil)) rest

theorem toList_lengthPrefixed (name : String) :
    (lengthPrefixed name).toList = Nat.toDigits 10 name.utf8ByteSize ++ name.toList := by
  rw [lengthPrefixed, String.toList_append, toList_toString]

/-- A name behind its length can be split off the front of a text. -/
theorem lengthPrefixed_append_inj {a b : String} (ha : IsSeparable a) (hb : IsSeparable b)
    {xs ys : List Char} (h : (lengthPrefixed a).toList ++ xs = (lengthPrefixed b).toList ++ ys) :
    a = b ∧ xs = ys := by
  rw [toList_lengthPrefixed, toList_lengthPrefixed, List.append_assoc, List.append_assoc] at h
  obtain ⟨hdigits, hrest⟩ :=
    takeWhile_isDigit_append isDigit_of_mem_toDigits (ha.endsNumber_append xs)
  obtain ⟨hdigits', hrest'⟩ :=
    takeWhile_isDigit_append isDigit_of_mem_toDigits (hb.endsNumber_append ys)
  rw [h, hdigits'] at hdigits
  rw [h, hrest'] at hrest
  have hsize : b.utf8ByteSize = a.utf8ByteSize := by
    simpa using congrArg (Nat.ofDigitChars 10 · 0) hdigits
  -- the lengths are equal, so that both names are the first bytes of one text
  have htake := takeBytes?_eq_some_iff.mpr ⟨utf8Len_toList a, Eq.refl (a.toList ++ xs)⟩
  have htake' := takeBytes?_eq_some_iff.mpr ⟨utf8Len_toList b, Eq.refl (b.toList ++ ys)⟩
  rw [← hsize, ← hrest, htake'] at htake
  obtain ⟨hname, hxs⟩ := Prod.mk.inj (Option.some.inj htake)
  exact ⟨String.toList_inj.mp hname.symm, hxs.symm⟩

/-! ### Interface tables -/

theorem toList_encode_interfaceTable (interface className : String) :
    (interfaceTable interface className).encode.toList = start.toList ++ ("it_".toList ++
      ((lengthPrefixed interface).toList ++ '_' :: (lengthPrefixed className).toList)) := by
  simp [encode]

/-- The symbol of an interface table determines the names of the interface and of the class. -/
theorem encode_interfaceTable_inj {i j a b : String} (hi : IsSeparable i) (hj : IsSeparable j)
    (ha : IsSeparable a) (hb : IsSeparable b)
    (h : (interfaceTable i a).encode = (interfaceTable j b).encode) : i = j ∧ a = b := by
  have hlist := congrArg String.toList h
  rw [toList_encode_interfaceTable, toList_encode_interfaceTable] at hlist
  have hnames := List.append_cancel_left (List.append_cancel_left hlist)
  obtain ⟨rfl, hclass⟩ := lengthPrefixed_append_inj hi hj hnames
  have hclass' := (List.cons.inj hclass).2
  rw [← List.append_nil (lengthPrefixed a).toList, ← List.append_nil (lengthPrefixed b).toList]
    at hclass'
  exact ⟨rfl, (lengthPrefixed_append_inj ha hb hclass').1⟩

/-- A text that begins with a name behind its length begins with a digit. -/
theorem exists_digit_lengthPrefixed (name : String) :
    ∃ d ds, (lengthPrefixed name).toList = d :: ds ∧ d.isDigit = true :=
  (spelledName_lengthPrefixed (fun n => show IsPadded n _ from ⟨0, rfl⟩) name).exists_digit

/-- The text is the symbol of an interface table, whatever the names. -/
def IsInterfaceTable (text : String) : Prop :=
  ∃ interface className, text = (interfaceTable interface className).encode

/-- No other symbol is mangled like that of an interface table. -/
theorem exists_of_isInterfaceTable {symbol : Symbol} (h : IsInterfaceTable symbol.encode) :
    ∃ interface className, symbol = interfaceTable interface className := by
  obtain ⟨interface, className, heq⟩ := h
  have hlist := congrArg String.toList heq
  rw [toList_encode_interfaceTable] at hlist
  obtain ⟨d, ds, hdigits, hd⟩ := exists_digit_lengthPrefixed interface
  rw [hdigits] at hlist
  -- the marks of the other kinds differ from `it_` and a digit
  cases symbol with
  | interfaceTable i a => exact ⟨i, a, rfl⟩
  | method container _ _ | constructor container _ =>
    obtain ⟨d', ds', hdigits', hd'⟩ := exists_digit_lengthPrefixed container
    simp only [encode, String.toList_append, List.append_assoc, hdigits'] at hlist
    have hfirst := (List.cons.inj (List.append_cancel_left hlist)).1
    rw [hfirst] at hd'
    exact absurd hd' (by decide)
  | interfacesInit _ =>
    simp only [encode, String.toList_append, List.append_assoc] at hlist
    have hmark := after?_eq_some_iff.mpr (List.append_cancel_left hlist).symm
    have hinit : after? ('i' :: "nit_".toList)
        (d :: (ds ++ '_' :: (lengthPrefixed className).toList)) = some _ := hmark
    rw [after?_of_digit hd rfl] at hinit
    cases hinit
  | staticField _ _ | size _ | dispatchVector _ | classInit _ | interfaceDescriptor _ =>
    simp only [encode, String.toList_append, List.append_assoc] at hlist
    have hmark := after?_eq_some_iff.mpr (List.append_cancel_left hlist).symm
    cases hmark

end Erasure.Symbol
