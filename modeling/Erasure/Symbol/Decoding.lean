/-
Reading mangled symbols.

`Symbol.decode?` splits a mangled name into its parts, on the list of its characters. Lengths
count bytes of the text, so a name ends after that many bytes, which must be the end of a
character. A static field is split at the first `_` after the last `.`.
-/
import Erasure.Symbol.Encoding

namespace Erasure.Symbol

/-! ### Parts -/

/-- What follows a literal text, if the characters begin with it. -/
def after? : (literal cs : List Char) → Option (List Char)
  | [], cs => some cs
  | _ :: _, [] => none
  | l :: literal, c :: cs => if l = c then after? literal cs else none

/-- The number that a list of decimal digits denotes. -/
def numberOf (digits : List Char) : Nat :=
  digits.foldl (fun n d => 10 * n + (d.toNat - '0'.toNat)) 0

/-- The digits at the beginning as a number that fits in 64 bits, and what follows them. -/
def number? (cs : List Char) : Option (Nat × List Char) :=
  let digits := cs.takeWhile Char.isDigit
  if digits.isEmpty || numberOf digits ≥ UInt64.size then none
  else some (numberOf digits, cs.dropWhile Char.isDigit)

/-- The characters that make up the first `n` bytes, and what follows them. -/
def takeBytes? : Nat → List Char → Option (List Char × List Char)
  | 0, cs => some ([], cs)
  | _ + 1, [] => none
  | n + 1, c :: cs =>
    if c.utf8Size ≤ n + 1 then
      (takeBytes? (n + 1 - c.utf8Size) cs).map fun (taken, rest) => (c :: taken, rest)
    else none

/-- A name after its length, and what follows it. -/
def component? (cs : List Char) : Option (String × List Char) := do
  let (length, cs) ← number? cs
  let (name, rest) ← takeBytes? length cs
  if name.isEmpty then none else some (String.ofList name, rest)

/-- A name after its length, with nothing behind it. -/
def wholeComponent? (cs : List Char) : Option String := do
  let (name, rest) ← component? cs
  if rest.isEmpty then some name else none

/-- An argument code whose separating mark has been read, and what follows it. -/
def argCode? : List Char → Option (ArgCode × List Char)
  | 'b' :: cs => some (.boolean, cs)
  | 'f' :: cs => some (.float, cs)
  | 'd' :: cs => some (.double, cs)
  | 'i' :: cs => do
    let (bits, rest) ← number? cs
    if bits < UInt32.size then some (.int bits, rest) else none
  | 'a' :: '_' :: cs => (argCode? cs).map fun (code, rest) => (.array code, rest)
  | cs => (component? cs).map fun (name, rest) => (.reference name, rest)

/-! ### Every part leaves less to read -/

theorem number?_length {cs rest : List Char} {n : Nat} (h : number? cs = some (n, rest)) :
    rest.length ≤ cs.length := by
  unfold number? at h
  dsimp only at h
  split at h
  · simp at h
  · simp only [Option.some.injEq, Prod.mk.injEq] at h
    rw [← h.2]
    exact (List.dropWhile_sublist _).length_le

theorem takeBytes?_length {n : Nat} {cs taken rest : List Char}
    (h : takeBytes? n cs = some (taken, rest)) : rest.length ≤ cs.length := by
  fun_induction takeBytes? n cs generalizing taken with
  | case1 => simp_all
  | case2 => simp at h
  | case3 n c cs _ ih =>
    obtain ⟨⟨t, r⟩, ht, he⟩ := Option.map_eq_some_iff.mp h
    simp only [Prod.mk.injEq] at he
    obtain ⟨-, rfl⟩ := he
    exact Nat.le_trans (ih ht) (Nat.le_succ _)
  | case4 => simp at h

theorem component?_length {cs rest : List Char} {name : String}
    (h : component? cs = some (name, rest)) : rest.length ≤ cs.length := by
  simp only [component?, Option.bind_eq_bind, Option.bind_eq_some_iff] at h
  obtain ⟨⟨n, cs'⟩, hn, ⟨t, r⟩, ht, he⟩ := h
  simp only at ht he
  split at he
  · simp at he
  · simp only [Option.some.injEq, Prod.mk.injEq] at he
    obtain ⟨-, rfl⟩ := he
    exact Nat.le_trans (takeBytes?_length ht) (number?_length hn)

theorem argCode?_length {cs rest : List Char} {code : ArgCode}
    (h : argCode? cs = some (code, rest)) : rest.length ≤ cs.length := by
  fun_induction argCode? cs generalizing code with
  | case1 | case2 | case3 => simp_all
  | case4 cs =>
    simp only [Option.bind_eq_bind, Option.bind_eq_some_iff] at h
    obtain ⟨⟨n, r⟩, hn, he⟩ := h
    simp only at he
    split at he
    · simp only [Option.some.injEq, Prod.mk.injEq] at he
      obtain ⟨-, rfl⟩ := he
      exact Nat.le_trans (number?_length hn) (Nat.le_succ _)
    · simp at he
  | case5 cs ih =>
    obtain ⟨⟨c, r⟩, hc, he⟩ := Option.map_eq_some_iff.mp h
    simp only [Prod.mk.injEq] at he
    obtain ⟨-, rfl⟩ := he
    exact Nat.le_trans (ih hc) (by simp; omega)
  | case6 =>
    obtain ⟨⟨name, r⟩, hc, he⟩ := Option.map_eq_some_iff.mp h
    simp only [Prod.mk.injEq] at he
    obtain ⟨-, rfl⟩ := he
    exact component?_length hc

/-! ### Lists of argument codes -/

/-- Argument codes up to the end, each after its separating mark. -/
def argCodes? (cs : List Char) : Option (List ArgCode) :=
  match cs with
  | [] => some []
  | '_' :: cs =>
    match _h : argCode? cs with
    | some (code, rest) => (argCodes? rest).map (code :: ·)
    | none => none
  | _ => none
termination_by cs.length
decreasing_by
  have := argCode?_length _h
  simp only [List.length_cons]
  omega

/-- The argument list of a procedure: either the mark of an empty one, or at least one code. -/
def args? (cs : List Char) : Option (List ArgCode) :=
  if cs = "_void".toList then some []
  else if cs.isEmpty then none
  else argCodes? cs

/-! ### Symbols -/

/-- A method or constructor. -/
def procedure? (cs : List Char) : Option Symbol := do
  let (container, cs) ← component? cs
  match after? "__constructor_".toList cs with
  | some cs => return constructor container (← args? cs)
  | none => do
    let cs ← after? ['_'] cs
    let (name, cs) ← component? cs
    return method container name (← args? cs)

/-- The characters up to and with the last `.`, and those after it. -/
def splitLastDot (cs : List Char) : List Char × List Char :=
  let last := (cs.reverse.takeWhile (· ≠ '.')).reverse
  (cs.take (cs.length - last.length), last)

/-- A static field: the class type, then the field after the first `_` that follows the last
`.`. -/
def staticField? (cs : List Char) : Option Symbol :=
  if (after? "class.".toList cs).isNone && (after? "interface.".toList cs).isNone then none
  else
    let (qualifier, last) := splitLastDot cs
    match last.dropWhile (· ≠ '_') with
    | _ :: c :: field =>
      some (staticField (String.ofList (qualifier ++ last.takeWhile (· ≠ '_')))
        (String.ofList (c :: field)))
    | _ => none

/-- A symbol without what all symbols begin with. -/
def body? (cs : List Char) : Option Symbol :=
  match after? "static_".toList cs with
  | some cs => staticField? cs
  | none =>
  match after? "size_".toList cs with
  | some cs => (wholeComponent? cs).map size
  | none =>
  match after? "dv_".toList cs with
  | some cs => (wholeComponent? cs).map dispatchVector
  | none =>
  match after? "it_init_".toList cs with
  | some cs => (wholeComponent? cs).map interfacesInit
  | none =>
  match after? "itype_".toList cs with
  | some cs => (wholeComponent? cs).map interfaceDescriptor
  | none =>
  match after? "it_".toList cs with
  | some cs => do
    let (interface, cs) ← component? cs
    let cs ← after? ['_'] cs
    return interfaceTable interface (← wholeComponent? cs)
  | none =>
  match after? "init_".toList cs with
  | some cs => (wholeComponent? cs).map classInit
  | none => procedure? cs

/-- The symbol that a mangled name stands for. -/
def decode? (mangled : String) : Option Symbol := do
  body? (← after? start.toList mangled.toList)

/-- Whether a name begins as mangled symbols do. -/
def isMangled (name : String) : Bool := (after? start.toList name.toList).isSome

/-- The form for readers of a mangled name. -/
def demangle? (mangled : String) : Option String := (decode? mangled).map describe

end Erasure.Symbol
