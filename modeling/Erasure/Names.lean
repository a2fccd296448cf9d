/-
Interned names.

Every text is numbered at its first appearance; the empty text has number zero from the start.
-/
import Erasure.Handle
import Erasure.InternTable

namespace Erasure

/-- The texts that have a number. -/
abbrev Names := InternTable (id : String → String)

namespace Names

/-- The table that knows the empty text only. -/
def initial : Names := InternTable.ofList [""]

/-- The name of a text, numbered now if it is new. -/
def internText (ns : Names) (text : String) : Name × Names :=
  let (i, ns) := ns.intern text
  (⟨i⟩, ns)

/-- The name of a text that has one. -/
def find (ns : Names) (text : String) : Option Name := (ns.find? text).map (⟨·⟩)

/-- The text of a name; a name that was never handed out has the empty text. -/
def text (ns : Names) (n : Name) : String := (ns.get? n.index).getD ""

end Names

end Erasure
