/-
Sets of symbols, in increasing order.
-/

namespace Erasure

/-- Symbols in increasing order, each once. -/
abbrev SymbolSet := List String

namespace SymbolSet

/-- Adds a symbol. -/
def add (symbol : String) : SymbolSet → SymbolSet
  | [] => [symbol]
  | s :: rest =>
    if symbol < s then symbol :: s :: rest
    else if symbol = s then s :: rest
    else s :: add symbol rest

/-- Adds several symbols. -/
def addAll (symbols : List String) (set : SymbolSet) : SymbolSet :=
  symbols.foldl (fun set symbol => set.add symbol) set

end SymbolSet

end Erasure
