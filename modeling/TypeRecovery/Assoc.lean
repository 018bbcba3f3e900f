/-!
# Association lists

Lists of keys and values in the order in which the keys were first given a value.
-/

namespace TypeRecovery

namespace Assoc

variable {κ α : Type} [DecidableEq κ]

/-- Give a key a value. A key that is there keeps its place, and a new one goes to the end. -/
def set (key : κ) (value : α) : List (κ × α) → List (κ × α)
  | [] => [(key, value)]
  | (k, v) :: rest => if k = key then (k, value) :: rest else (k, v) :: set key value rest

end Assoc

end TypeRecovery
