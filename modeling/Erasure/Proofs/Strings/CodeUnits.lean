/-
The code units of texts.

A text is spelled in the code units of UTF-16, a character beyond the first 65536 as a pair of
surrogates. The main statements:

* `decode_eq_some_iff`: decoding accepts what texts are spelled as, and nothing else.
* `units_inj`: texts with the same code units are equal.
-/
import Erasure.Tree.Builder

namespace Erasure.Utf16

open Builder (utf16Units)

/-- The code units of a text. -/
def units (cs : List Char) : List UInt16 := cs.flatMap utf16Units

/-- The first half of a surrogate pair. -/
def IsHigh (unit : UInt16) : Prop := 0xD800 ≤ unit.toNat ∧ unit.toNat < 0xDC00

/-- The second half of a surrogate pair. -/
def IsLow (unit : UInt16) : Prop := 0xDC00 ≤ unit.toNat ∧ unit.toNat < 0xE000

instance : DecidablePred IsHigh := fun _ => inferInstanceAs (Decidable (_ ∧ _))

instance : DecidablePred IsLow := fun _ => inferInstanceAs (Decidable (_ ∧ _))

/-- The number of the character that a surrogate pair stands for. -/
def pairValue (high low : UInt16) : Nat :=
  0x10000 + (high.toNat - 0xD800) * 0x400 + (low.toNat - 0xDC00)

/-- Reads the characters off their code units. Half a pair stands for no character. -/
def decode : List UInt16 → Option (List Char)
  | [] => some []
  | unit :: rest =>
    if IsHigh unit then
      match rest with
      | [] => none
      | low :: rest =>
        if IsLow low then (decode rest).map (Char.ofNat (pairValue unit low) :: ·) else none
    else if IsLow unit then none
    else (decode rest).map (Char.ofNat unit.toNat :: ·)

/-! ### One character -/

theorem toNat_toUInt16 {n : Nat} (h : n < 0x10000) : n.toUInt16.toNat = n :=
  UInt16.toNat_ofNat_of_lt' h

theorem toNat_ofNat {n : Nat} (h : n.isValidChar) : (Char.ofNat n).toNat = n := by
  rw [Char.ofNat, dif_pos h]
  rfl

theorem utf16Units_of_lt {c : Char} (h : c.toNat < 0x10000) :
    utf16Units c = [c.toNat.toUInt16] := by
  unfold utf16Units
  exact if_pos h

theorem utf16Units_of_not_lt {c : Char} (h : ¬ c.toNat < 0x10000) :
    utf16Units c = [(0xD800 + (c.toNat - 0x10000) / 0x400).toUInt16,
      (0xDC00 + (c.toNat - 0x10000) % 0x400).toUInt16] := by
  unfold utf16Units
  exact if_neg h

/-- A character within the first 65536 is its own code unit, which is no surrogate. -/
theorem utf16Units_single {c : Char} (h : c.toNat < 0x10000) :
    ∃ unit, utf16Units c = [unit] ∧ unit.toNat = c.toNat ∧ ¬ IsHigh unit ∧ ¬ IsLow unit := by
  have hvalid : c.toNat < 0xD800 ∨ 0xDFFF < c.toNat ∧ c.toNat < 0x110000 := c.valid
  refine ⟨c.toNat.toUInt16, utf16Units_of_lt h, toNat_toUInt16 h, ?_, ?_⟩
  · rw [IsHigh, toNat_toUInt16 h]
    omega
  · rw [IsLow, toNat_toUInt16 h]
    omega

/-- Any other character is a surrogate pair. -/
theorem utf16Units_pair {c : Char} (h : ¬ c.toNat < 0x10000) :
    ∃ high low, utf16Units c = [high, low] ∧ IsHigh high ∧ IsLow low ∧
      pairValue high low = c.toNat := by
  have hvalid : c.toNat < 0xD800 ∨ 0xDFFF < c.toNat ∧ c.toNat < 0x110000 := c.valid
  have hunits := utf16Units_of_not_lt h
  generalize c.toNat = n at h hvalid hunits ⊢
  have hhigh : (0xD800 + (n - 0x10000) / 0x400).toUInt16.toNat = 0xD800 + (n - 0x10000) / 0x400 :=
    toNat_toUInt16 (by omega)
  have hlow : (0xDC00 + (n - 0x10000) % 0x400).toUInt16.toNat = 0xDC00 + (n - 0x10000) % 0x400 :=
    toNat_toUInt16 (by omega)
  refine ⟨_, _, hunits, ?_, ?_, ?_⟩
  · unfold IsHigh
    omega
  · unfold IsLow
    omega
  · unfold pairValue
    omega

/-- A unit that is no surrogate spells a character. -/
theorem utf16Units_ofNat {unit : UInt16} (hhigh : ¬ IsHigh unit) (hlow : ¬ IsLow unit) :
    utf16Units (Char.ofNat unit.toNat) = [unit] := by
  have hlt := unit.toNat_lt
  have hvalid : unit.toNat.isValidChar := by
    unfold IsHigh at hhigh
    unfold IsLow at hlow
    unfold Nat.isValidChar
    omega
  have hnat := toNat_ofNat hvalid
  obtain ⟨unit', hunits, hunit', -⟩ := utf16Units_single (hnat.symm ▸ hlt)
  rw [hunits, UInt16.toNat_inj.mp (hunit'.trans hnat)]

/-- A surrogate pair stands for a character beyond the first 65536. -/
theorem pairValue_bounds {high low : UInt16} (hhigh : IsHigh high) (hlow : IsLow low) :
    ¬ pairValue high low < 0x10000 ∧ (pairValue high low).isValidChar := by
  unfold IsHigh at hhigh
  unfold IsLow at hlow
  unfold pairValue Nat.isValidChar
  omega

/-- The halves of a pair are determined by what it stands for. -/
theorem pairValue_inj {high low high' low' : UInt16} (hhigh : IsHigh high) (hlow : IsLow low)
    (hhigh' : IsHigh high') (hlow' : IsLow low') (h : pairValue high low = pairValue high' low') :
    high = high' ∧ low = low' := by
  rw [← UInt16.toNat_inj, ← UInt16.toNat_inj]
  unfold IsHigh at hhigh hhigh'
  unfold IsLow at hlow hlow'
  unfold pairValue at h
  omega

/-- A surrogate pair spells a character. -/
theorem utf16Units_pairValue {high low : UInt16} (hhigh : IsHigh high) (hlow : IsLow low) :
    utf16Units (Char.ofNat (pairValue high low)) = [high, low] := by
  obtain ⟨hlarge, hvalid⟩ := pairValue_bounds hhigh hlow
  have hnat := toNat_ofNat hvalid
  obtain ⟨high', low', hunits, hhigh', hlow', hvalue⟩ := utf16Units_pair (hnat.symm ▸ hlarge)
  obtain ⟨rfl, rfl⟩ := pairValue_inj hhigh' hlow' hhigh hlow (hvalue.trans hnat)
  exact hunits

/-! ### Texts -/

theorem decode_cons_single {unit : UInt16} (hhigh : ¬ IsHigh unit) (hlow : ¬ IsLow unit)
    (rest : List UInt16) :
    decode (unit :: rest) = (decode rest).map (Char.ofNat unit.toNat :: ·) := by
  rw [decode.eq_def]
  exact (if_neg hhigh).trans (if_neg hlow)

theorem decode_cons_pair {high low : UInt16} (hhigh : IsHigh high) (hlow : IsLow low)
    (rest : List UInt16) : decode (high :: low :: rest) =
      (decode rest).map (Char.ofNat (pairValue high low) :: ·) := by
  rw [decode.eq_def]
  exact (if_pos hhigh).trans (if_pos hlow)

theorem decode_utf16Units_append (c : Char) (rest : List UInt16) :
    decode (utf16Units c ++ rest) = (decode rest).map (c :: ·) := by
  by_cases h : c.toNat < 0x10000
  · obtain ⟨unit, hunits, hunit, hhigh, hlow⟩ := utf16Units_single h
    rw [hunits, List.singleton_append, decode_cons_single hhigh hlow, hunit, Char.ofNat_toNat]
  · obtain ⟨high, low, hunits, hhigh, hlow, hvalue⟩ := utf16Units_pair h
    rw [hunits, List.cons_append, List.singleton_append, decode_cons_pair hhigh hlow, hvalue,
      Char.ofNat_toNat]

theorem decode_units (cs : List Char) : decode (units cs) = some cs := by
  induction cs with
  | nil => rfl
  | cons c cs ih =>
    rw [units, List.flatMap_cons, decode_utf16Units_append, ← units, ih]
    rfl

theorem eq_units_of_decode {us : List UInt16} {cs : List Char} (h : decode us = some cs) :
    us = units cs := by
  fun_induction decode us generalizing cs with
  | case1 =>
    cases h
    rfl
  | case2 => cases h
  | case3 high hhigh low rest hlow ih =>
    obtain ⟨cs, hcs, rfl⟩ := Option.map_eq_some_iff.mp h
    rw [units, List.flatMap_cons, utf16Units_pairValue hhigh hlow, ← units, ← ih hcs]
    rfl
  | case4 => cases h
  | case5 => cases h
  | case6 unit rest hhigh hlow ih =>
    obtain ⟨cs, hcs, rfl⟩ := Option.map_eq_some_iff.mp h
    rw [units, List.flatMap_cons, utf16Units_ofNat hhigh hlow, ← units, ← ih hcs]
    rfl

/-- Decoding accepts what texts are spelled as, and nothing else. -/
theorem decode_eq_some_iff {us : List UInt16} {cs : List Char} :
    decode us = some cs ↔ us = units cs :=
  ⟨eq_units_of_decode, fun h => h ▸ decode_units cs⟩

/-- Texts with the same code units are equal. -/
theorem units_inj {cs ds : List Char} (h : units cs = units ds) : cs = ds :=
  Option.some.inj ((decode_units cs).symm.trans (h ▸ decode_units ds))

end Erasure.Utf16
