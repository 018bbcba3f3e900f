import TypeRecovery.DataType.Basic

/-!
# Specificity of data types

Types are ordered by how much they say about a value. The wider type comes first, then the
metatype decides, then the components are compared to a fixed depth, and the older of two types
that still agree comes first.
-/

namespace TypeRecovery

namespace TypeTable

/-- Fields in order, by offset and then by type, where a longer list of fields comes first. -/
def compareFields (order : TypeId → TypeId → Ordering) : List Field → List Field → Ordering
  | [], [] => .eq
  | [], _ :: _ => .gt
  | _ :: _, [] => .lt
  | x :: xs, y :: ys =>
    (compare x.offset y.offset).then <| (order x.type y.type).then <|
      compareFields order xs ys

/-- Longer lists of fields come first; lists of one length are compared field by field. -/
def compareFieldLists (order : TypeId → TypeId → Ordering) (xs ys : List Field) : Ordering :=
  (compare ys.length xs.length).then (compareFields order xs ys)

/-- The components of two shapes, compared by an order on types. Shapes of different kinds agree. -/
def compareShapes (order : TypeId → TypeId → Ordering) : Shape → Shape → Ordering
  | .pointer p _, .pointer q _ => order p q
  | .array e _, .array f _ => order e f
  | .struct xs, .struct ys => compareFieldLists order xs ys
  | .union xs, .union ys => compareFieldLists order xs ys
  | _, _ => .eq

/-- Size and metatype of two types: the wider type comes first, then the lower rank. -/
def compareHeads (t : TypeTable) (a b : TypeId) : Ordering :=
  (compare (t.size b) (t.size a)).then
    (compare (t.metatype a).rank (t.metatype b).rank)

/-- The order of two types whose components are compared down to `level` levels. -/
def compareAt (t : TypeTable) : Nat → TypeId → TypeId → Ordering
  | 0, a, b => if a = b then .eq else (t.compareHeads a b).then (compare a b)
  | level + 1, a, b =>
    if a = b then .eq
    else (t.compareHeads a b).then <|
      (compareShapes (t.compareAt level) (t.shape a) (t.shape b)).then (compare a b)

/-- The number of levels of components that take part in the order. -/
def orderDepth : Nat := 8

/-- The order of specificity; `lt` means that the first type says more. -/
def order (t : TypeTable) (a b : TypeId) : Ordering := t.compareAt orderDepth a b

/-- Whether the first type says strictly more than the second. -/
def moreSpecific (t : TypeTable) (a b : TypeId) : Bool := t.order a b = .lt

/-- The more specific of two types, the first one on a tie. -/
def moreSpecificOf (t : TypeTable) (a b : TypeId) : TypeId := if t.moreSpecific b a then b else a

end TypeTable

end TypeRecovery
