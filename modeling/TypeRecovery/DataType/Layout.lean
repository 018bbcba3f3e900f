import TypeRecovery.DataType.Order

/-!
# Components of data types

Finding the component of a type that occupies given bytes, following a pointer into its pointee,
and choosing the field of a union.
-/

namespace TypeRecovery

namespace TypeTable

/-- Whether the bytes of a field include a given byte. -/
def covers (t : TypeTable) (offset : Nat) (field : Field) : Bool :=
  field.offset ≤ offset ∧ offset < t.fieldEnd field

/-- Unions, and pointers to unions, have to be resolved to a field before they can flow. -/
def needsResolution (t : TypeTable) (id : TypeId) : Bool :=
  match t.shape id with
  | .union _ => true
  | .pointer pointee _ => t.metatype pointee = .union
  | _ => false

/-- The fields of a union; other types have none. -/
def unionFields (t : TypeTable) (id : TypeId) : List Field :=
  match t.shape id with
  | .union fields => fields
  | _ => []

/-- The position of the most specific type of `size` bytes in a list, the first one on ties. The
list starts at position `index`, and `best` is the choice among the positions before it. -/
def bestFieldFrom (t : TypeTable) (size : Nat) :
    Nat → Option (Nat × TypeId) → List Field → Option (Nat × TypeId)
  | _, best, [] => best
  | index, best, field :: rest =>
    if t.size field.type ≠ size then t.bestFieldFrom size (index + 1) best rest
    else
      match best with
      | none => t.bestFieldFrom size (index + 1) (some (index, field.type)) rest
      | some (_, type) =>
        if t.moreSpecific field.type type then
          t.bestFieldFrom size (index + 1) (some (index, field.type)) rest
        else t.bestFieldFrom size (index + 1) best rest

/-- The position of the field of a union that best describes a value of `size` bytes. -/
def bestUnionField? (t : TypeTable) (union : TypeId) (size : Nat) : Option Nat :=
  (t.bestFieldFrom size 0 none (t.unionFields union)).map (·.1)

/-- The component of exactly `size` bytes at `offset`, searched for in types older than `bound`. -/
def pieceBelow (t : TypeTable) : (bound : Nat) → TypeId → (offset size : Nat) → Option TypeId
  | 0, _, _, _ => none
  | bound + 1, id, offset, size =>
    if offset = 0 ∧ size = t.size id then some id
    else if t.size id < offset + size then none
    else
      match t.shape id with
      | .struct fields =>
        match fields.find? (t.covers offset) with
        | some field => t.pieceBelow bound field.type (offset - field.offset) size
        | none => none
      | .array element _ => t.pieceBelow bound element (offset % t.size element) size
      | _ => none

/-- The type of exactly the bytes from `offset` up to `offset + size`, if they form one component.
The search goes from a type to its older components, so its own position bounds the depth. -/
def exactPiece (t : TypeTable) (id : TypeId) (offset size : Nat) : Option TypeId :=
  t.pieceBelow (id + 1) id offset size

/-- A component and the offset that remains within it. -/
structure Descent where
  /-- The component, or a pointer to it. -/
  id : TypeId
  /-- The offset that remains within the component. -/
  rest : Nat
  /-- The table after the types on the way were interned. -/
  table : TypeTable
  deriving DecidableEq, Repr

/-- The component that holds the byte at `offset`. The contents of an address space consist of
unknown bytes. -/
def subType? (t : TypeTable) (id : TypeId) (offset : Nat) : Option Descent :=
  match t.shape id with
  | .struct fields =>
    (fields.find? (t.covers offset)).map fun field => ⟨field.type, offset - field.offset, t⟩
  | .array element _ => some ⟨element, offset % t.size element, t⟩
  | .spacebase _ =>
    let byte := t.unknown 1
    some ⟨byte.id, 0, byte.table⟩
  | _ => none

/-- A pointer to the component of the pointee that holds the byte at `offset`. An array of which
the pointer is the address of an element is left implicit. -/
def stepInto? (t : TypeTable) (ptr pointee : TypeId) (offset : Nat) : Option Descent :=
  if UInt32.size ≤ offset then none
  else
    match t.subType? pointee offset with
    | none => none
    | some part =>
      let target :=
        if t.metatype pointee = .array then part.id else part.table.stripArray part.id
      let result := part.table.pointerSized (t.size ptr) target (t.wordSize ptr)
      some ⟨result.id, part.rest, result.table⟩

/-- One level down from a pointer at a byte offset. With `wrap` an offset outside the pointee is
read as a signed one and reduced to it, and a multiple of its size gives the pointer itself. -/
def downChain? (t : TypeTable) (ptr : TypeId) (offset : Nat) (wrap : Bool) : Option Descent :=
  match t.pointee? ptr with
  | none => none
  | some pointee =>
    if t.size pointee ≠ 0 ∧ t.size pointee ≤ offset then
      if wrap then
        let reduced := (signExtend offset (t.size ptr) % (t.size pointee : Int)).toNat
        if reduced = 0 then some ⟨ptr, 0, t⟩ else t.stepInto? ptr pointee reduced
      else none
    else t.stepInto? ptr pointee offset

/-- The result of following a pointer all the way down: a pointer, if a component starts at the
offset, and the table after the types on the way were interned. -/
structure Landing where
  /-- The pointer to the component. -/
  pointer : Option TypeId
  /-- The table with every type met on the way. -/
  table : TypeTable
  deriving DecidableEq, Repr

/-- Go down from a pointer until nothing of the offset remains, at most `bound` levels. -/
def descendBelow (t : TypeTable) (wrap : Bool) : (bound : Nat) → TypeId → Nat → Landing
  | 0, _, _ => ⟨none, t⟩
  | bound + 1, ptr, offset =>
    match t.downChain? ptr offset wrap with
    | none => ⟨none, t⟩
    | some down =>
      if down.rest = 0 then ⟨some down.id, down.table⟩
      else down.table.descendBelow wrap bound down.id down.rest

/-- Go down from a pointer until nothing of the offset remains. Every level leads to an older
pointee, so the position of the pointer bounds their number. -/
def descend (t : TypeTable) (wrap : Bool) (ptr : TypeId) (offset : Nat) : Landing :=
  t.descendBelow wrap (ptr + 1) ptr offset

end TypeTable

end TypeRecovery
