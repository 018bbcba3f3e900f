import TypeRecovery.Proofs.DataType.Growth

/-!
# Tables built by constructor calls

A table is built from the empty one by calls of the type constructors on types that exist. Every
such table keeps components older than the types they are part of. So its order of specificity is a
strict total order at every depth, and no later call changes the order of two types it holds.
-/

namespace TypeRecovery

/-- Interned types with one answer are one type. -/
theorem Interned.answer_inj {a b : Interned} : a.answer = b.answer ↔ a = b := by
  constructor
  · intro h
    cases a
    cases b
    cases h
    rfl
  · exact congrArg Interned.answer

/-- A call gives a type exactly if it answers with the type. -/
theorem Answer.interned_eq_ok_iff {answer : Answer TypeTable TypeId} {result : Interned} :
    answer.interned = .ok result ↔ answer = result.answer := by
  cases answer with
  | ok id table =>
    rw [Answer.interned, Except.ok.injEq, ← Interned.answer_inj]
    rfl
  | error e table => exact ⟨nofun, nofun⟩

namespace TypeTable

/-- A call of a type constructor with its arguments. -/
inductive Call where
  | void
  | base (size : Nat) (metatype : Metatype)
  | unknown (size : Nat)
  | pointer (pointee : TypeId) (wordSize : Nat)
  | pointerSized (size : Nat) (pointee : TypeId) (wordSize : Nat)
  | pointerNoDepth (size : Nat) (pointee : TypeId) (wordSize : Nat)
  | pointerStripArray (size : Nat) (pointee : TypeId) (wordSize : Nat)
  | array (element : TypeId) (count : Nat)
  | struct (name : String) (size : Nat) (fields : List Field)
  | union (name : String) (size : Nat) (fields : List Field)
  | spacebase (space : SpaceId) (spaceName : String)
  deriving DecidableEq, Repr

namespace Call

/-- The types that a call is given. -/
def arguments : Call → List TypeId
  | pointer pointee _ => [pointee]
  | pointerSized _ pointee _ => [pointee]
  | pointerNoDepth _ pointee _ => [pointee]
  | pointerStripArray _ pointee _ => [pointee]
  | array element _ => [element]
  | struct _ _ fields => fields.map (·.type)
  | union _ _ fields => fields.map (·.type)
  | _ => []

/-- The result of a call on a table. -/
def run (t : TypeTable) : Call → Answer TypeTable TypeId
  | void => t.void.answer
  | base size metatype => (t.base size metatype).answer
  | unknown size => (t.unknown size).answer
  | pointer pointee wordSize => (t.pointer pointee wordSize).answer
  | pointerSized size pointee wordSize => (t.pointerSized size pointee wordSize).answer
  | pointerNoDepth size pointee wordSize => (t.pointerNoDepth size pointee wordSize).answer
  | pointerStripArray size pointee wordSize =>
    (t.pointerStripArray size pointee wordSize).answer
  | array element count => t.tryArray element count
  | struct name size fields => t.tryStruct name size fields
  | union name size fields => t.tryUnion name size fields
  | spacebase space spaceName => (t.spacebase space spaceName).answer

end Call

/-- The table that a call leaves behind, whether it succeeds or fails. -/
def perform (t : TypeTable) (c : Call) : TypeTable := (c.run t).state

/-- The second table is reached from the first by calls on types that exist. -/
inductive Reaches (t : TypeTable) : TypeTable → Prop where
  | refl : Reaches t t
  | call {u : TypeTable} (c : Call) : Reaches t u → (∀ id ∈ c.arguments, u.Has id) →
      Reaches t (u.perform c)

/-- A table grown by interning types whatever they are. -/
abbrev Grown (t u : TypeTable) : Prop := GrowsBy (fun _ => True) t u

/-- A constructor grows the table and gives a type of the grown table. -/
structure Built (t : TypeTable) (result : Interned) : Prop where
  /-- The table only grows. -/
  grown : Grown t result.table
  /-- The result exists. -/
  has : result.table.Has result.id

variable {t u : TypeTable} {result : Interned}

/-- A type of a table is built from it. -/
theorem built_self {id : Nat} (h : t.Has id) : t.Built ⟨id, t⟩ := ⟨.refl, h⟩

/-- What is built from a table that was built is built. -/
theorem Built.trans {next : Interned} (h : t.Built result) (h' : result.table.Built next) :
    t.Built next :=
  ⟨h.grown.trans h'.grown, h'.has⟩

/-- A type whose components exist is built by interning it. -/
theorem built_intern (d : DataType) (hd : ∀ c ∈ d.shape.components, t.Has c) :
    t.Built (t.intern d) :=
  ⟨.intern d .refl trivial hd, t.intern_has d⟩

/-- The type `void` is built. -/
theorem built_void (t : TypeTable) : t.Built t.void :=
  built_intern _ fun _ hc => by cases hc

/-- Atoms are built. -/
theorem built_atom (t : TypeTable) (size : Nat) (a : Atom) : t.Built (t.atom size a) :=
  built_intern _ fun _ hc => by cases hc

/-- The contents of a space are built. -/
theorem built_spacebase (t : TypeTable) (space : Nat) (spaceName : String) :
    t.Built (t.spacebase space spaceName) :=
  built_intern _ fun _ hc => by cases hc

/-- Pointers to types of the table are built. -/
theorem built_pointerSized (size : Nat) {pointee : Nat} (wordSize : Nat) (hp : t.Has pointee) :
    t.Built (t.pointerSized size pointee wordSize) := by
  apply built_intern
  intro c hc
  rw [List.mem_singleton.mp hc]
  exact hp

/-- Pointers of limited depth are built. -/
theorem built_pointerNoDepth (size : Nat) {pointee : Nat} (wordSize : Nat) (hp : t.Has pointee) :
    t.Built (t.pointerNoDepth size pointee wordSize) := by
  rw [pointerNoDepth_eq]
  cases t.nesting pointee with
  | shallow => exact built_pointerSized size wordSize hp
  | deep =>
    have hbytes := t.built_atom (t.size pointee) .unknown
    exact hbytes.trans (built_pointerSized size wordSize hbytes.has)
  | full => exact built_self hp

/-- What is left behind by a call: a type in a grown table, or the table as it was. -/
inductive Leaves (t : TypeTable) : Answer TypeTable TypeId → Prop where
  | built {id : TypeId} {u : TypeTable} : t.Built ⟨id, u⟩ → Leaves t (.ok id u)
  | kept (e : GraphError) : Leaves t (.error e t)

/-- A call that answers with a type has built it. -/
theorem Leaves.built_of_eq {answer : Answer TypeTable TypeId} (h : t.Leaves answer)
    (hanswer : answer = result.answer) : t.Built result := by
  rw [hanswer] at h
  cases h with
  | built hbuilt => exact hbuilt

/-- Whatever a call answers, the table that it leaves has grown. -/
theorem Leaves.grown {answer : Answer TypeTable TypeId} (h : t.Leaves answer) :
    Grown t answer.state := by
  cases h with
  | built h => exact h.grown
  | kept => exact .refl

/-- An array is built, or the table is left as it is. -/
theorem leaves_array {element : Nat} (he : t.Has element) (count : Nat) :
    t.Leaves (t.tryArray element count) := by
  simp only [tryArray]
  split
  · exact .kept _
  · split
    · refine .built (built_intern _ ?_)
      intro c hc
      rw [List.mem_singleton.mp hc]
      exact he
    · exact .kept _

/-- A named type is built, or the table is left as it is. -/
theorem leaves_named {d : DataType} (hd : ∀ c ∈ d.shape.components, t.Has c) :
    t.Leaves (t.tryNamed d) := by
  rw [tryNamed]
  split
  · rename_i id hfound
    split
    · exact .built (built_self (find?_eq_some_iff.mp hfound).1)
    · exact .kept _
  · exact .built (built_intern d hd)

/-- A structure is built, or the table is left as it is. -/
theorem leaves_struct {fields : List Field} (hf : ∀ id ∈ fields.map (·.type), t.Has id)
    (name : String) (size : Nat) : t.Leaves (t.tryStruct name size fields) := by
  rw [tryStruct]
  split
  · exact .kept _
  · exact leaves_named hf

/-- A union is built, or the table is left as it is. -/
theorem leaves_union {fields : List Field} (hf : ∀ id ∈ fields.map (·.type), t.Has id)
    (name : String) (size : Nat) : t.Leaves (t.tryUnion name size fields) := by
  rw [tryUnion]
  split
  · exact .kept _
  · exact leaves_named hf

/-- A call on types that exist gives a type, or fails and leaves the table as it is. -/
theorem Call.leaves {c : Call} (ht : t.WellFormed) (hc : ∀ id ∈ c.arguments, t.Has id) :
    t.Leaves (c.run t) := by
  cases c with
  | void => exact .built t.built_void
  | base size metatype => exact .built (t.built_atom size _)
  | unknown size => exact .built (t.built_atom size _)
  | spacebase space spaceName => exact .built (t.built_spacebase space spaceName)
  | pointer pointee wordSize =>
    exact .built (built_pointerSized _ wordSize (hc pointee (List.mem_singleton_self _)))
  | pointerSized size pointee wordSize =>
    exact .built (built_pointerSized size wordSize (hc pointee (List.mem_singleton_self _)))
  | pointerNoDepth size pointee wordSize =>
    exact .built (built_pointerNoDepth size wordSize (hc pointee (List.mem_singleton_self _)))
  | pointerStripArray size pointee wordSize =>
    exact .built (built_pointerSized size wordSize
      (ht.has_stripArray (hc pointee (List.mem_singleton_self _))))
  | array element count => exact leaves_array (hc element (List.mem_singleton_self _)) count
  | struct name size fields => exact leaves_struct hc name size
  | union name size fields => exact leaves_union hc name size

/-- A call on types that exist gives a type, if it gives a result at all. -/
theorem Call.built {c : Call} (ht : t.WellFormed) (hc : ∀ id ∈ c.arguments, t.Has id)
    (h : c.run t = result.answer) : t.Built result :=
  (Call.leaves ht hc).built_of_eq h

/-- A call on types that exist grows the table by interning types whose components exist. -/
theorem perform_grown {c : Call} (ht : t.WellFormed) (hc : ∀ id ∈ c.arguments, t.Has id) :
    Grown t (t.perform c) :=
  (Call.leaves ht hc).grown

/-- A table without types is well-formed. -/
theorem wellFormed_empty (pointerSize : Nat) : (empty pointerSize).WellFormed := by
  intro id c hc
  rw [shape_of_not_has (by simp [Has, empty])] at hc
  cases hc

/-- Calls on a well-formed table only ever grow it. -/
theorem Reaches.grown (h : Reaches t u) (ht : t.WellFormed) : Grown t u := by
  induction h with
  | refl => exact .refl
  | call c _ hc ih => exact ih.trans (perform_grown (ih.wellFormed ht) hc)

/-- Calls after calls. -/
theorem Reaches.trans {w : TypeTable} (h : Reaches t u) (h' : Reaches u w) : Reaches t w := by
  induction h' with
  | refl => exact h
  | call c _ hc ih => exact .call c ih hc

/-- The table after a successful call is reached. -/
theorem Reaches.run {c : Call} (h : Reaches t u) (hc : ∀ id ∈ c.arguments, u.Has id)
    (hrun : c.run u = result.answer) : Reaches t result.table := by
  have hcall := h.call c hc
  rwa [perform, hrun] at hcall

/-- The table after an atom is reached. -/
theorem Reaches.atom (h : Reaches t u) (size : Nat) (a : Atom) :
    Reaches t (u.atom size a).table := by
  have hmetatype : Atom.ofMetatype a.metatype = a := by cases a <;> rfl
  refine h.run (c := .base size a.metatype) (fun _ hid => by cases hid) ?_
  rw [Call.run, TypeTable.base, hmetatype]

/-- Every table built from the empty one has components older than their types. -/
theorem Reaches.wellFormed {pointerSize : Nat} (h : Reaches (empty pointerSize) t) :
    t.WellFormed :=
  (h.grown (wellFormed_empty pointerSize)).wellFormed (wellFormed_empty pointerSize)

/-- A comparison that puts any two different types in one strict order. -/
structure IsStrictTotal (cmp : TypeId → TypeId → Ordering) : Prop where
  /-- Only a type itself is as specific as the type. -/
  eq_iff : ∀ a b, cmp a b = .eq ↔ a = b
  /-- Exchanging two types reverses their order. -/
  swap : ∀ a b, cmp b a = (cmp a b).swap
  /-- Saying strictly more is transitive. -/
  trans : ∀ a b c, cmp a b = .lt → cmp b c = .lt → cmp a c = .lt

/-- The comparison is a strict total order at every depth. -/
theorem compareAt_isStrictTotal (t : TypeTable) (level : Nat) :
    IsStrictTotal (t.compareAt level) where
  eq_iff _ _ := Std.LawfulEqCmp.compare_eq_iff_eq
  swap _ _ := Std.OrientedCmp.eq_swap
  trans _ _ _ := Std.TransCmp.lt_trans

/-- In every table built by constructor calls the order of specificity is a strict total order, at
every depth, and whatever further calls are made, two types that the table holds keep their
order. -/
theorem Reaches.order_isStrictTotal {pointerSize : Nat} (h : Reaches (empty pointerSize) t) :
    IsStrictTotal t.order ∧ (∀ level, IsStrictTotal (t.compareAt level)) ∧
      ∀ u, Reaches t u → ∀ a b, t.Has a → t.Has b →
        u.order a b = t.order a b ∧ ∀ level, u.compareAt level a b = t.compareAt level a b := by
  refine ⟨t.compareAt_isStrictTotal orderDepth, t.compareAt_isStrictTotal, ?_⟩
  intro u hu a b ha hb
  have hext := (hu.grown h.wellFormed).extends
  exact ⟨hext.order h.wellFormed ha hb, fun level => hext.compareAt h.wellFormed level ha hb⟩

/-- An integer and a pointer to it keep their order when a pointer to the pointer is made. -/
theorem Reaches.order_isStrictTotal_of_pointers :
    Reaches (empty 8) (((empty 8).perform (.base 4 .int)).perform (.pointer 0 1)) ∧
      IsStrictTotal (((empty 8).perform (.base 4 .int)).perform (.pointer 0 1)).order ∧
      ((((empty 8).perform (.base 4 .int)).perform (.pointer 0 1)).perform
          (.pointer 1 1)).order 1 0 =
        (((empty 8).perform (.base 4 .int)).perform (.pointer 0 1)).order 1 0 := by
  have hint : Reaches (empty 8) ((empty 8).perform (.base 4 .int)) :=
    .call _ .refl (by decide +kernel)
  have hpointer := Reaches.call (.pointer 0 1) hint (by decide +kernel)
  have hfurther := Reaches.call (.pointer 1 1)
    (Reaches.refl (t := ((empty 8).perform (.base 4 .int)).perform (.pointer 0 1)))
    (by decide +kernel)
  obtain ⟨htotal, -, hkept⟩ := hpointer.order_isStrictTotal
  exact ⟨hpointer, htotal,
    (hkept _ hfurther 1 0 (by decide +kernel) (by decide +kernel)).1⟩

end TypeTable

end TypeRecovery
