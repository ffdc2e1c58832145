/-!
# Names of scopes and slots

Scopes and slots are named by their positions in the scope graph. Every function body
has three slots whose names no program text can hold.
-/

namespace TypeFlow

/-- A scope, by its position in the scope graph. Positions are kept in 32 bits, so a graph has at most
`2 ^ 32` scopes and as many slots; nothing here is meant for larger ones. -/
structure ScopeId where
  index : Nat
deriving DecidableEq

/-- A slot, by its position in the scope graph, which has at most `2 ^ 32` of them. -/
structure SlotId where
  index : Nat
deriving DecidableEq

namespace SlotName

/-- Holds the function itself inside its body. -/
def callee : String := ":callee"

/-- Holds the receivers that calls bind. -/
def this : String := ":this"

/-- Collects the returned values. -/
def ret : String := ":return"

end SlotName

end TypeFlow
