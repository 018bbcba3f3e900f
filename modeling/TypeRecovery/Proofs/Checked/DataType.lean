import TypeRecovery.Proofs.Checked.Basic
import TypeRecovery.Proofs.DataType.Bounds

/-!
# Checked runs on data types

Reading types, comparing them, and looking for their components, with every type that is read
checked to exist, the ends of fields checked to fit 32 bits, and the sizes of array elements checked
not to be zero.
-/

namespace TypeRecovery

namespace Checked

variable {t : TypeTable} {spaces id : Nat}

/-! ## Single types -/

/-- The type at a position. -/
def type (t : TypeTable) (id : TypeId) : Checked TypeEntry := look t.types id

/-- The size of a type. -/
def size (t : TypeTable) (id : TypeId) : Checked Nat := return (← type t id).size

/-- The name of a type. -/
def name (t : TypeTable) (id : TypeId) : Checked String := return (← type t id).name

/-- The shape of a type. -/
def shape (t : TypeTable) (id : TypeId) : Checked Shape := return (← type t id).shape

/-- The classification of a type. -/
def metatype (t : TypeTable) (id : TypeId) : Checked Metatype := return (← type t id).metatype

/-- A type of the table is looked up without a fault. -/
theorem type_eq (h : t.Has id) : type t id = .ok (t.get id) := by
  rw [type, look_eq h, TypeTable.get, Array.getElem?_eq_getElem h, Option.getD_some]

/-- The size of a type of the table is found. -/
theorem size_eq (h : t.Has id) : size t id = .ok (t.size id) := by
  rw [size, type_eq h, ok_bind]
  rfl

/-- The name of a type of the table is found. -/
theorem name_eq (h : t.Has id) : name t id = .ok (t.name id) := by
  rw [name, type_eq h, ok_bind]
  rfl

private theorem shape_eq (h : t.Has id) : shape t id = .ok (t.shape id) := by
  rw [shape, type_eq h, ok_bind]
  rfl

/-- The classification of a type of the table is found. -/
theorem metatype_eq (h : t.Has id) : metatype t id = .ok (t.metatype id) := by
  rw [metatype, type_eq h, ok_bind]
  rfl

/-- The type a pointer points to. -/
def pointee? (t : TypeTable) (id : TypeId) : Checked (Option TypeId) := do
  match ← shape t id with
  | .pointer pointee _ => return some pointee
  | _ => return none

/-- Bytes per unit of a pointer; one for other types. -/
def wordSize (t : TypeTable) (id : TypeId) : Checked Nat := do
  match ← shape t id with
  | .pointer _ wordSize => return wordSize
  | _ => return 1

/-- The fields of a union; other types have none. -/
def unionFields (t : TypeTable) (id : TypeId) : Checked (List Field) := do
  match ← shape t id with
  | .union fields => return fields
  | _ => return []

/-- The element of an array, and any other type itself. -/
def stripArray (t : TypeTable) (id : TypeId) : Checked TypeId := do
  match ← shape t id with
  | .array element _ => return element
  | _ => return id

/-- Whether a type is a pointer to the contents of an address space. -/
def isSpacebasePointer (t : TypeTable) (id : TypeId) : Checked Bool := do
  match ← pointee? t id with
  | some pointee => return (← metatype t pointee) = .spacebase
  | none => return false

/-- Whether a type has to be resolved to a field before it can flow. -/
def needsResolution (t : TypeTable) (id : TypeId) : Checked Bool := do
  match ← shape t id with
  | .union _ => return true
  | .pointer pointee _ => return (← metatype t pointee) = .union
  | _ => return false

/-- What a type of the table points to is found. -/
theorem pointee?_eq (h : t.Has id) : pointee? t id = .ok (t.pointee? id) := by
  rw [pointee?, shape_eq h, ok_bind, TypeTable.pointee?]
  cases t.shape id <;> rfl

/-- The unit of a pointer of the table is found. -/
theorem wordSize_eq (h : t.Has id) : wordSize t id = .ok (t.wordSize id) := by
  rw [wordSize, shape_eq h, ok_bind, TypeTable.wordSize]
  cases t.shape id <;> rfl

/-- The fields of a union of the table are found. -/
theorem unionFields_eq (h : t.Has id) : unionFields t id = .ok (t.unionFields id) := by
  rw [unionFields, shape_eq h, ok_bind, TypeTable.unionFields]
  cases t.shape id <;> rfl

private theorem stripArray_eq (h : t.Has id) : stripArray t id = .ok (t.stripArray id) := by
  rw [stripArray, shape_eq h, ok_bind, TypeTable.stripArray]
  cases t.shape id <;> rfl

/-- Whether a type points to the contents of a space is found out without a fault. -/
theorem isSpacebasePointer_eq (ht : t.WellFormed) (h : t.Has id) :
    isSpacebasePointer t id = .ok (t.isSpacebasePointer id) := by
  rw [isSpacebasePointer, pointee?_eq h, ok_bind, TypeTable.isSpacebasePointer]
  cases hp : t.pointee? id with
  | none => rfl
  | some pointee =>
    dsimp only
    rw [metatype_eq (ht.has_pointee h hp), ok_bind]
    rfl

/-- Whether a union has to be resolved is found out without a fault. -/
theorem needsResolution_eq (ht : t.WellFormed) (h : t.Has id) :
    needsResolution t id = .ok (t.needsResolution id) := by
  rw [needsResolution, shape_eq h, ok_bind, TypeTable.needsResolution]
  cases hs : t.shape id with
  | pointer pointee wordSize =>
    have hpointee : t.Has pointee :=
      ht.has_component h (by rw [hs]; exact List.mem_singleton_self _)
    dsimp only
    rw [metatype_eq hpointee, ok_bind]
    rfl
  | _ => rfl

/-! ## Pointers -/

/-- A pointer of `size` bytes, whose name is made from that of its pointee. -/
def pointerSized (t : TypeTable) (size : Nat) (pointee : TypeId) (wordSize : Nat) :
    Checked Interned := do
  let pointeeName ← name t pointee
  return t.intern ⟨pointeeName ++ " *", size, .ptr, .pointer pointee (max wordSize 1), rfl⟩

/-- A pointer to unknown bytes of the size of a type. -/
def pointerToBytes (t : TypeTable) (size : Nat) (like : TypeId) (wordSize : Nat) :
    Checked Interned := do
  let bytes := t.unknown (← Checked.size t like)
  pointerSized bytes.table size bytes.id wordSize

/-- A pointer that never nests three pointers. -/
def pointerNoDepth (t : TypeTable) (size : Nat) (pointee : TypeId) (wordSize : Nat) :
    Checked Interned := do
  match ← pointee? t pointee with
  | none => pointerSized t size pointee wordSize
  | some inner =>
    match ← metatype t inner with
    | .ptr => pointerToBytes t size pointee wordSize
    | .unknown =>
      if (← Checked.size t inner) = (← Checked.size t pointee) then return ⟨pointee, t⟩
      else pointerToBytes t size pointee wordSize
    | _ => pointerSized t size pointee wordSize

/-- A pointer to a type of the table is made without a fault. -/
theorem pointerSized_eq (size wordSize : Nat) (h : t.Has id) :
    pointerSized t size id wordSize = .ok (t.pointerSized size id wordSize) := by
  rw [pointerSized, name_eq h, ok_bind]
  rfl

private theorem pointerToBytes_eq (size wordSize : Nat) (h : t.Has id) :
    pointerToBytes t size id wordSize =
      .ok ((t.unknown (t.size id)).table.pointerSized size (t.unknown (t.size id)).id
        wordSize) := by
  rw [pointerToBytes, size_eq h, ok_bind]
  exact pointerSized_eq size wordSize (t.gives_atom (t.size id) .unknown).has

/-- A pointer that is not nested too deeply is made without a fault. -/
theorem pointerNoDepth_eq (ht : t.WellFormed) (size wordSize : Nat) (h : t.Has id) :
    pointerNoDepth t size id wordSize = .ok (t.pointerNoDepth size id wordSize) := by
  rw [pointerNoDepth, pointee?_eq h, ok_bind, TypeTable.pointerNoDepth]
  cases hp : t.pointee? id with
  | none => exact pointerSized_eq size wordSize h
  | some inner =>
    have hinner := ht.has_pointee h hp
    dsimp only
    rw [metatype_eq hinner, ok_bind]
    cases t.metatype inner with
    | ptr => exact pointerToBytes_eq size wordSize h
    | unknown =>
      dsimp only
      rw [size_eq hinner, ok_bind, size_eq h, ok_bind]
      split
      · rfl
      · exact pointerToBytes_eq size wordSize h
    | _ => exact pointerSized_eq size wordSize h

/-! ## The order of specificity -/

/-- Fields in order, by offset and then by type. -/
def compareFields (order : TypeId → TypeId → Checked Ordering) :
    List Field → List Field → Checked Ordering
  | [], [] => .ok .eq
  | [], _ :: _ => .ok .gt
  | _ :: _, [] => .ok .lt
  | x :: xs, y :: ys =>
    andThen (compare x.offset y.offset) do
      andThen (← order x.type y.type) (compareFields order xs ys)

/-- Longer lists of fields come first. -/
def compareFieldLists (order : TypeId → TypeId → Checked Ordering) (xs ys : List Field) :
    Checked Ordering :=
  andThen (compare ys.length xs.length) (compareFields order xs ys)

/-- The components of two shapes, compared by an order on types. -/
def compareShapes (order : TypeId → TypeId → Checked Ordering) : Shape → Shape → Checked Ordering
  | .pointer p _, .pointer q _ => order p q
  | .array e _, .array f _ => order e f
  | .struct xs, .struct ys => compareFieldLists order xs ys
  | .union xs, .union ys => compareFieldLists order xs ys
  | _, _ => .ok .eq

/-- Size and metatype of two types. -/
def compareHeads (t : TypeTable) (a b : TypeId) : Checked Ordering := do
  let x ← type t a
  let y ← type t b
  return (compare y.size x.size).then (compare x.metatype.rank y.metatype.rank)

/-- The order of two types whose components are compared down to `level` levels. -/
def compareAt (t : TypeTable) : Nat → TypeId → TypeId → Checked Ordering
  | 0, a, b => if a = b then .ok .eq else do andThen (← compareHeads t a b) (.ok (compare a b))
  | level + 1, a, b =>
    if a = b then .ok .eq
    else do
      andThen (← compareHeads t a b) do
        let x ← shape t a
        let y ← shape t b
        andThen (← compareShapes (compareAt t level) x y) (.ok (compare a b))

/-- Whether the first type says strictly more than the second. -/
def moreSpecific (t : TypeTable) (a b : TypeId) : Checked Bool :=
  return (← compareAt t TypeTable.orderDepth a b) = .lt

private theorem compareFields_eq {f : TypeId → TypeId → Checked Ordering}
    {order : TypeId → TypeId → Ordering} {xs ys : List Field}
    (h : ∀ x ∈ xs, ∀ y ∈ ys, f x.type y.type = .ok (order x.type y.type)) :
    compareFields f xs ys = .ok (TypeTable.compareFields order xs ys) := by
  induction xs generalizing ys with
  | nil => cases ys <;> rfl
  | cons x xs ih =>
    cases ys with
    | nil => rfl
    | cons y ys =>
      have hhead := h x List.mem_cons_self y List.mem_cons_self
      have htail := ih fun a ha b hb =>
        h a (List.mem_cons_of_mem _ ha) b (List.mem_cons_of_mem _ hb)
      rw [compareFields, hhead, ok_bind, htail, andThen_ok, andThen_ok, TypeTable.compareFields]

private theorem compareShapes_eq {f : TypeId → TypeId → Checked Ordering}
    {order : TypeId → TypeId → Ordering} {a b : Shape}
    (h : ∀ x ∈ a.components, ∀ y ∈ b.components, f x y = .ok (order x y)) :
    compareShapes f a b = .ok (TypeTable.compareShapes order a b) := by
  have hfields {xs ys : List Field} (hx : xs.map (·.type) = a.components)
      (hy : ys.map (·.type) = b.components) :
      compareFieldLists f xs ys = .ok (TypeTable.compareFieldLists order xs ys) := by
    rw [compareFieldLists, compareFields_eq, andThen_ok]
    · rfl
    · intro x hxm y hym
      exact h _ (hx ▸ List.mem_map_of_mem hxm) _ (hy ▸ List.mem_map_of_mem hym)
  cases a <;> cases b <;> try rfl
  · exact h _ (List.mem_singleton_self _) _ (List.mem_singleton_self _)
  · exact h _ (List.mem_singleton_self _) _ (List.mem_singleton_self _)
  · exact hfields rfl rfl
  · exact hfields rfl rfl

/-- The heads of two types are compared without a fault. -/
theorem compareHeads_eq {a b : Nat} (ha : t.Has a) (hb : t.Has b) :
    compareHeads t a b = .ok (t.compareHeads a b) := by
  rw [compareHeads, type_eq ha, ok_bind, type_eq hb, ok_bind]
  rfl

/-- Two types are compared without a fault at every level. -/
theorem compareAt_eq (ht : t.WellFormed) (level : Nat) {a b : Nat} (ha : t.Has a)
    (hb : t.Has b) : compareAt t level a b = .ok (t.compareAt level a b) := by
  induction level generalizing a b with
  | zero =>
    rw [compareAt, TypeTable.compareAt]
    split
    · rfl
    · rw [compareHeads_eq ha hb, ok_bind, andThen_ok]
  | succ level ih =>
    have hshapes : compareShapes (compareAt t level) (t.shape a) (t.shape b) =
        .ok (TypeTable.compareShapes (t.compareAt level) (t.shape a) (t.shape b)) :=
      compareShapes_eq fun x hx y hy => ih (ht.has_component ha hx) (ht.has_component hb hy)
    rw [compareAt, TypeTable.compareAt]
    split
    · rfl
    · rw [compareHeads_eq ha hb, ok_bind, shape_eq ha, ok_bind, shape_eq hb, ok_bind, hshapes,
        ok_bind, andThen_ok, andThen_ok]

/-- Of two types of the table the more specific one is found. -/
theorem moreSpecific_eq (ht : t.WellFormed) {a b : Nat} (ha : t.Has a) (hb : t.Has b) :
    moreSpecific t a b = .ok (t.moreSpecific a b) := by
  rw [moreSpecific, compareAt_eq ht _ ha hb, ok_bind]
  rfl

/-! ## Fields of unions -/

/-- The position of the most specific of the fields of `size` bytes. The fields from position
`index` on are left, and `best` is the choice among those before. -/
def bestFieldFrom (t : TypeTable) (size : Nat) (fields : List Field) :
    Nat → Option Nat → List Field → Checked (Option Nat)
  | _, best, [] => .ok best
  | index, best, field :: rest => do
    if (← Checked.size t field.type) ≠ size then bestFieldFrom t size fields (index + 1) best rest
    else
      match best with
      | none => bestFieldFrom t size fields (index + 1) (some index) rest
      | some b =>
        let chosen ← pick fields b
        if ← moreSpecific t field.type chosen.type then
          bestFieldFrom t size fields (index + 1) (some index) rest
        else bestFieldFrom t size fields (index + 1) best rest

/-- The position of the field of a union that best describes a value of `size` bytes. -/
def bestUnionField? (t : TypeTable) (union : TypeId) (size : Nat) : Checked (Option Nat) := do
  let fields ← unionFields t union
  bestFieldFrom t size fields 0 none fields

/-- The choice made so far is the field at its position. -/
theorem bestFieldFrom_eq (ht : t.WellFormed) (size : Nat) {fields : List Field}
    (hfields : ∀ field ∈ fields, t.Has field.type) (before : List Field) {rest : List Field}
    (hsplit : fields = before ++ rest) (best : Option (Nat × TypeId))
    (hbest : ∀ b ∈ best, ∃ field, fields[b.1]? = some field ∧ field.type = b.2) :
    bestFieldFrom t size fields before.length (best.map (·.1)) rest =
      .ok ((t.bestFieldFrom size before.length best rest).map (·.1)) := by
  induction rest generalizing before best with
  | nil => rfl
  | cons field rest ih =>
    have hfield : t.Has field.type := hfields field (by rw [hsplit]; simp)
    have hnext : fields = (before ++ [field]) ++ rest := by rw [hsplit]; simp
    have hlength : (before ++ [field]).length = before.length + 1 := by simp
    have hnew : ∀ b ∈ some (before.length, field.type),
        ∃ x, fields[b.1]? = some x ∧ x.type = b.2 := by
      rintro b ⟨⟩
      exact ⟨field, by rw [hsplit]; simp, rfl⟩
    have hkeep := ih _ hnext best hbest
    have htake := ih _ hnext _ hnew
    rw [hlength] at hkeep htake
    cases best with
    | none =>
      simp only [Option.map_none, bestFieldFrom, TypeTable.bestFieldFrom, size_eq hfield, ok_bind]
        at hkeep ⊢
      split
      · exact hkeep
      · exact htake
    | some b =>
      obtain ⟨chosen, hchosen, htype⟩ := hbest b rfl
      have hhas : t.Has b.2 := htype ▸ hfields chosen (List.mem_of_getElem? hchosen)
      simp only [Option.map_some, bestFieldFrom, TypeTable.bestFieldFrom, size_eq hfield, ok_bind,
        pick_eq hchosen, htype, moreSpecific_eq ht hfield hhas] at hkeep ⊢
      split
      · exact hkeep
      · split
        · exact htake
        · exact hkeep

/-- The best field of a union is found without a fault. -/
theorem bestUnionField?_eq (ht : t.WellFormed) (h : t.Has id) (size : Nat) :
    bestUnionField? t id size = .ok (t.bestUnionField? id size) := by
  rw [bestUnionField?, unionFields_eq h, ok_bind]
  exact bestFieldFrom_eq ht size (fun _ hf => ht.has_unionField h hf) [] rfl none
    fun _ hb => by cases hb

/-! ## Components -/

/-- Whether the bytes of a field include a given byte. -/
def covers (t : TypeTable) (offset : Nat) (field : Field) : Checked Bool := do
  let stop ← within UInt32.size (field.offset + (← size t field.type))
  return field.offset ≤ offset ∧ offset < stop

/-- The component of exactly `size` bytes at `offset`, searched for in types older than `bound`. -/
def pieceBelow (t : TypeTable) :
    (bound : Nat) → TypeId → (offset size : Nat) → Checked (Option TypeId)
  | 0, _, _, _ => .ok none
  | bound + 1, id, offset, size => do
    let whole ← Checked.size t id
    if offset = 0 ∧ size = whole then return some id
    else if whole < offset + size then return none
    else
      match ← shape t id with
      | .struct fields =>
        match ← fields.findM? (covers t offset) with
        | some field => pieceBelow t bound field.type (← sub offset field.offset) size
        | none => return none
      | .array element _ =>
        pieceBelow t bound element (← mod offset (← Checked.size t element)) size
      | _ => return none

/-- The type of exactly the bytes from `offset` up to `offset + size`. -/
def exactPiece (t : TypeTable) (id : TypeId) (offset size : Nat) : Checked (Option TypeId) :=
  pieceBelow t (id + 1) id offset size

/-- The field of a structure that holds a byte. The ends of all fields fit 32 bits. -/
theorem findM?_covers_eq (ht : t.WellFormed) (hl : t.Laid spaces) (h : t.Has id)
    {fields : List Field} (hs : t.shape id = .struct fields) (offset : Nat) :
    fields.findM? (covers t offset) = .ok (fields.find? (t.covers offset)) := by
  apply findM?_eq
  intro field hfield
  have hhas := ht.has_component h (TypeTable.mem_components_of_struct hs hfield)
  have hend : t.fieldEnd field < UInt32.size :=
    Nat.lt_of_le_of_lt (hl.fieldEnd_le h hs hfield) (hl.size_lt id)
  rw [TypeTable.fieldEnd] at hend
  rw [covers, size_eq hhas, ok_bind, within_eq hend, ok_bind]
  rfl

private theorem offset_le_of_covers {offset : Nat} {field : Field}
    (h : t.covers offset field = true) : field.offset ≤ offset := by
  rw [TypeTable.covers, decide_eq_true_iff] at h
  exact h.1

private theorem pieceBelow_eq (ht : t.WellFormed) (hl : t.Laid spaces) (bound : Nat) (h : t.Has id)
    (offset size : Nat) :
    pieceBelow t bound id offset size = .ok (t.pieceBelow bound id offset size) := by
  induction bound generalizing id offset with
  | zero => rfl
  | succ bound ih =>
    rw [pieceBelow, TypeTable.pieceBelow, size_eq h, ok_bind]
    split
    · rfl
    · split
      · rfl
      · rw [shape_eq h, ok_bind]
        cases hs : t.shape id with
        | struct fields =>
          dsimp only
          rw [findM?_covers_eq ht hl h hs, ok_bind]
          cases hf : fields.find? (t.covers offset) with
          | none => rfl
          | some field =>
            have hhas := ht.has_component h
              (TypeTable.mem_components_of_struct hs (List.mem_of_find?_eq_some hf))
            dsimp only
            rw [sub_eq (offset_le_of_covers (List.find?_some hf)), ok_bind]
            exact ih hhas _
        | array element count =>
          have helement := ht.has_component h (TypeTable.mem_components_of_array hs)
          dsimp only
          rw [size_eq helement, ok_bind, mod_eq (hl.element_pos h hs), ok_bind]
          exact ih helement _
        | _ => rfl

/-- The piece at a place of a type is found without a fault. -/
theorem exactPiece_eq (ht : t.WellFormed) (hl : t.Laid spaces) (h : t.Has id)
    (offset size : Nat) : exactPiece t id offset size = .ok (t.exactPiece id offset size) :=
  pieceBelow_eq ht hl _ h offset size

/-! ## Descents -/

/-- The component that holds the byte at `offset`. -/
def subType? (t : TypeTable) (id : TypeId) (offset : Nat) : Checked (Option TypeTable.Descent) := do
  match ← shape t id with
  | .struct fields =>
    match ← fields.findM? (covers t offset) with
    | some field => return some ⟨field.type, ← sub offset field.offset, t⟩
    | none => return none
  | .array element _ => return some ⟨element, ← mod offset (← size t element), t⟩
  | .spacebase _ =>
    let byte := t.unknown 1
    return some ⟨byte.id, 0, byte.table⟩
  | _ => return none

/-- What a pointer to a component points to: an array is left implicit unless it was the pointee. -/
def target (t : TypeTable) (pointee : TypeId) (part : TypeTable.Descent) : Checked TypeId := do
  if (← metatype t pointee) = .array then return part.id else stripArray part.table part.id

/-- A pointer to the component of the pointee that holds the byte at `offset`. -/
def stepInto? (t : TypeTable) (ptr pointee : TypeId) (offset : Nat) :
    Checked (Option TypeTable.Descent) := do
  if UInt32.size ≤ offset then return none
  else
    match ← subType? t pointee offset with
    | none => return none
    | some part =>
      let target ← target t pointee part
      let result ← pointerSized part.table (← size t ptr) target (← wordSize t ptr)
      return some ⟨result.id, part.rest, result.table⟩

/-- A signed offset reduced to `size` bytes. -/
def reduce (offset : Int) (size : Nat) : Checked Nat :=
  if size = 0 then .error .zeroDivisor else .ok (offset % (size : Int)).toNat

/-- One level down from a pointer at a byte offset. -/
def downChain? (t : TypeTable) (ptr : TypeId) (offset : Nat) (wrap : Bool) :
    Checked (Option TypeTable.Descent) := do
  match ← pointee? t ptr with
  | none => return none
  | some pointee =>
    let pointeeSize ← size t pointee
    if pointeeSize ≠ 0 ∧ pointeeSize ≤ offset then
      if wrap then
        let reduced ← reduce (signExtend offset (← size t ptr)) pointeeSize
        if reduced = 0 then return some ⟨ptr, 0, t⟩ else stepInto? t ptr pointee reduced
      else return none
    else stepInto? t ptr pointee offset

/-- Go down from a pointer until nothing of the offset remains, at most `bound` levels. -/
def descendBelow (t : TypeTable) (wrap : Bool) :
    (bound : Nat) → TypeId → Nat → Checked TypeTable.Landing
  | 0, _, _ => .ok ⟨none, t⟩
  | bound + 1, ptr, offset => do
    match ← downChain? t ptr offset wrap with
    | none => return ⟨none, t⟩
    | some down =>
      if down.rest = 0 then return ⟨some down.id, down.table⟩
      else descendBelow down.table wrap bound down.id down.rest

/-- Go down from a pointer until nothing of the offset remains. -/
def descend (t : TypeTable) (wrap : Bool) (ptr : TypeId) (offset : Nat) :
    Checked TypeTable.Landing :=
  descendBelow t wrap (ptr + 1) ptr offset

private theorem reduce_eq {size : Nat} (h : size ≠ 0) (offset : Int) :
    reduce offset size = .ok (offset % (size : Int)).toNat := if_neg h

/-- The table that a descent leaves behind, if there is a descent, is within bounds. -/
def LaidAfter (spaces : Nat) (down : Option TypeTable.Descent) : Prop :=
  ∀ d ∈ down, d.table.Laid spaces

private theorem subType?_eq (ht : t.WellFormed) (hl : t.Laid spaces) (h : t.Has id) (offset : Nat) :
    subType? t id offset = .ok (t.subType? id offset) ∧
      LaidAfter spaces (t.subType? id offset) := by
  rw [subType?, shape_eq h, ok_bind, TypeTable.subType?]
  cases hs : t.shape id with
  | struct fields =>
    dsimp only
    rw [findM?_covers_eq ht hl h hs, ok_bind]
    cases hf : fields.find? (t.covers offset) with
    | none => exact ⟨rfl, fun _ hd => by cases hd⟩
    | some field =>
      dsimp only [Option.map_some]
      rw [sub_eq (offset_le_of_covers (List.find?_some hf)), ok_bind]
      refine ⟨rfl, ?_⟩
      rintro _ ⟨⟩
      exact hl
  | array element count =>
    dsimp only
    rw [size_eq (ht.has_component h (TypeTable.mem_components_of_array hs)), ok_bind,
      mod_eq (hl.element_pos h hs), ok_bind]
    refine ⟨rfl, ?_⟩
    rintro _ ⟨⟩
    exact hl
  | spacebase space =>
    refine ⟨rfl, ?_⟩
    rintro _ ⟨⟩
    exact hl.atom (by decide) .unknown
  | _ => exact ⟨rfl, fun _ hd => by cases hd⟩

private theorem stepInto?_eq (ht : t.WellFormed) (hl : t.Laid spaces) {ptr pointee : Nat}
    (hptr : t.Has ptr) (hpointee : t.Has pointee) (offset : Nat) :
    stepInto? t ptr pointee offset = .ok (t.stepInto? ptr pointee offset) ∧
      LaidAfter spaces (t.stepInto? ptr pointee offset) := by
  rw [stepInto?, TypeTable.stepInto?]
  split
  · exact ⟨rfl, fun _ hd => by cases hd⟩
  · obtain ⟨heq, hlaid⟩ := subType?_eq ht hl hpointee offset
    rw [heq, ok_bind]
    cases hpart : t.subType? pointee offset with
    | none => exact ⟨rfl, fun _ hd => by cases hd⟩
    | some part =>
      have hgives := TypeTable.gives_subType? ht hpointee hpart
      have hlaid := hlaid part hpart
      have hstrip := (hgives.grows.wellFormed ht).has_stripArray hgives.has
      dsimp only
      rw [target, metatype_eq hpointee, ok_bind, stripArray_eq hgives.has]
      generalize htarget : (if t.metatype pointee = .array then part.id
        else part.table.stripArray part.id) = target
      have hhas : part.table.Has target := by
        rw [← htarget]
        split
        · exact hgives.has
        · exact hstrip
      have hok : (if t.metatype pointee = .array then pure part.id
          else .ok (part.table.stripArray part.id) : Checked TypeId) = .ok target := by
        rw [← htarget]
        split <;> rfl
      rw [hok, ok_bind, size_eq hptr, ok_bind, wordSize_eq hptr, ok_bind,
        pointerSized_eq _ _ hhas, ok_bind]
      refine ⟨rfl, ?_⟩
      rintro _ ⟨⟩
      exact hlaid.pointerSized (hl.size_lt ptr) _ hhas

private theorem downChain?_eq (ht : t.WellFormed) (hl : t.Laid spaces) {ptr : Nat}
    (hptr : t.Has ptr) (offset : Nat) (wrap : Bool) :
    downChain? t ptr offset wrap = .ok (t.downChain? ptr offset wrap) ∧
      LaidAfter spaces (t.downChain? ptr offset wrap) := by
  rw [downChain?, pointee?_eq hptr, ok_bind, TypeTable.downChain?]
  cases hp : t.pointee? ptr with
  | none => exact ⟨rfl, fun _ hd => by cases hd⟩
  | some pointee =>
    have hpointee := ht.has_pointee hptr hp
    dsimp only
    rw [size_eq hpointee, ok_bind]
    split
    · rename_i hout
      cases wrap with
      | false => exact ⟨rfl, fun _ hd => by cases hd⟩
      | true =>
        rw [if_pos rfl, if_pos rfl, size_eq hptr, ok_bind, reduce_eq hout.1, ok_bind]
        split
        · refine ⟨rfl, ?_⟩
          rintro _ ⟨⟩
          exact hl
        · exact stepInto?_eq ht hl hptr hpointee _
    · exact stepInto?_eq ht hl hptr hpointee offset

/-- Descending from a pointer has no fault and keeps the layouts within bounds. -/
theorem descendBelow_eq (ht : t.WellFormed) (hl : t.Laid spaces) {ptr : Nat} (hptr : t.Has ptr)
    (wrap : Bool) (bound offset : Nat) :
    descendBelow t wrap bound ptr offset = .ok (t.descendBelow wrap bound ptr offset) ∧
      (t.descendBelow wrap bound ptr offset).table.Laid spaces := by
  induction bound generalizing t ptr offset with
  | zero => exact ⟨rfl, hl⟩
  | succ bound ih =>
    obtain ⟨heq, hlaid⟩ := downChain?_eq ht hl hptr offset wrap
    rw [descendBelow, TypeTable.descendBelow, heq, ok_bind]
    cases hdown : t.downChain? ptr offset wrap with
    | none => exact ⟨rfl, hl⟩
    | some down =>
      have hgives := TypeTable.gives_downChain? ht hptr hdown
      have hlaid := hlaid down hdown
      dsimp only
      split
      · exact ⟨rfl, hlaid⟩
      · exact ih (hgives.grows.wellFormed ht) hlaid hgives.has _

/-- Going down from a pointer reads only types that exist. -/
theorem descend_eq (ht : t.WellFormed) (hl : t.Laid spaces) {ptr : Nat} (hptr : t.Has ptr)
    (wrap : Bool) (offset : Nat) :
    descend t wrap ptr offset = .ok (t.descend wrap ptr offset) ∧
      (t.descend wrap ptr offset).table.Laid spaces :=
  descendBelow_eq ht hl hptr wrap _ offset

end Checked

end TypeRecovery
