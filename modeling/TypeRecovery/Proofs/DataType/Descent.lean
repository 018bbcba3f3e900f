import Mathlib.Algebra.Group.Nat.Defs
import TypeRecovery.Proofs.DataType.Component

/-!
# Where a descent lands

Going down from a pointer at a byte offset follows the components of its pointee. Each level keeps
account of the byte that was asked for: it is what remains of the offset, counted from a component
that is repeated up to the byte, since an array may have been left implicit. Each level leads to an
older component, so the descent ends, and where it lands a component starts at the byte.
-/

namespace TypeRecovery

/-- A number of 32 bits keeps its value when it is read in five bytes or more. -/
theorem signExtend_of_lt {n size : Nat} (hn : n < UInt32.size) (hsize : 5 ≤ size) :
    signExtend n size = n := by
  have hbits : 40 ≤ wordBits (if size = 0 then 8 else size) := by
    rw [if_neg (by omega), wordBits]
    omega
  have hpow : 2 ^ 40 ≤ Nat.pow 2 (wordBits (if size = 0 then 8 else size)) :=
    Nat.pow_le_pow_right (by decide) hbits
  rw [signExtend]
  generalize Nat.pow 2 (wordBits (if size = 0 then 8 else size)) = m at hpow ⊢
  have hhalf : UInt32.size < 2 ^ 40 / 2 := by decide
  apply Int.bmod_eq_of_le <;> omega

namespace TypeTable

/-! ## Units of pointers -/

/-- The units that pointers count in have at least one byte. -/
def UnitsPositive (t : TypeTable) : Prop :=
  ∀ d ∈ t.types, ∀ pointee wordSize, d.shape = .pointer pointee wordSize → 0 < wordSize

variable {t u : TypeTable}

/-- Interning keeps units positive, if a new pointer has positive units. -/
theorem UnitsPositive.intern (h : t.UnitsPositive) {d : DataType}
    (hd : ∀ pointee wordSize, d.shape = .pointer pointee wordSize → 0 < wordSize) :
    (t.intern d).table.UnitsPositive := by
  cases hf : t.find? d.key with
  | some found =>
    rw [intern_of_find? hf]
    exact h
  | none =>
    rw [intern_of_find?_none hf]
    intro x hx
    rcases Array.mem_push.mp hx with hold | rfl
    · exact h x hold
    · exact hd

/-- A sized pointer has positive units. -/
theorem UnitsPositive.pointerSized (h : t.UnitsPositive) (size pointee wordSize : Nat) :
    (t.pointerSized size pointee wordSize).table.UnitsPositive := by
  apply h.intern
  intro p w hs
  cases hs
  omega

/-- A named type that is no pointer keeps units positive. -/
theorem UnitsPositive.named (h : t.UnitsPositive) {d : DataType}
    (hd : ∀ pointee wordSize, d.shape ≠ .pointer pointee wordSize) :
    (t.tryNamed d).state.UnitsPositive := by
  rw [TypeTable.tryNamed]
  split
  · split <;> exact h
  · exact h.intern fun p w hs => absurd hs (hd p w)

/-- A call keeps the units of pointers positive, whether it succeeds or fails. -/
theorem UnitsPositive.perform (h : t.UnitsPositive) (call : Call) :
    (t.perform call).UnitsPositive := by
  rw [TypeTable.perform]
  cases call with
  | void => exact h.intern fun _ _ hs => by cases hs
  | base size metatype => exact h.intern fun _ _ hs => by cases hs
  | unknown size => exact h.intern fun _ _ hs => by cases hs
  | spacebase space name => exact h.intern fun _ _ hs => by cases hs
  | pointer pointee wordSize => exact h.pointerSized _ _ _
  | pointerSized size pointee wordSize => exact h.pointerSized _ _ _
  | pointerStripArray size pointee wordSize => exact h.pointerSized _ _ _
  | pointerNoDepth size pointee wordSize =>
    rw [Call.run, pointerNoDepth_eq]
    cases t.nesting pointee with
    | shallow => exact h.pointerSized _ _ _
    | deep =>
      have hbytes : (t.unknown (t.size pointee)).table.UnitsPositive :=
        h.intern fun _ _ hs => by cases hs
      exact hbytes.pointerSized _ _ _
    | full => exact h
  | array element count =>
    simp only [Call.run, TypeTable.tryArray]
    split
    · exact h
    · split
      · exact h.intern fun _ _ hs => by cases hs
      · exact h
  | struct name size fields =>
    rw [Call.run, TypeTable.tryStruct]
    split
    · exact h
    · exact h.named fun _ _ hs => by cases hs
  | union name size fields =>
    rw [Call.run, TypeTable.tryUnion]
    split
    · exact h
    · exact h.named fun _ _ hs => by cases hs

/-- Every pointer that constructor calls have built counts in units of at least one byte. -/
theorem Reaches.unitsPositive {pointerSize : Nat} (h : Reaches (empty pointerSize) t) :
    t.UnitsPositive := by
  induction h with
  | refl => exact fun d hd => absurd hd (Array.not_mem_empty d)
  | call call _ _ ih => exact ih.perform call

/-! ## The byte that a pointer leads to -/

/-- A pointer of a later table and what remains of an offset lead to a byte of a type: the pointer
points to a component, and counted from a place where the component starts, and from which it is
repeated, the offset reaches the byte. -/
structure LeadsTo (t : TypeTable) (root : TypeId) (byte size wordSize : Nat) (u : TypeTable)
    (ptr : TypeId) (rest : Nat) (pointee : TypeId) (start : Nat) : Prop where
  /-- The table grew by atoms and pointers. -/
  grows : t.Grows u
  /-- The pointer counts in the given units. -/
  shape : u.shape ptr = .pointer pointee wordSize
  /-- It has the given size. -/
  size : u.size ptr = size
  /-- The component is repeated as far as the offset goes. -/
  row : ∀ k, k * t.size pointee ≤ rest → t.ComponentAt root (start + k * t.size pointee) pointee
  /-- The offset reaches the byte. -/
  byte : start + rest = byte
  /-- The component has a size. -/
  sized : 0 < t.size pointee

section Levels

variable {root byte size wordSize ptr rest pointee start : Nat} {down : Descent}

/-- A component that holds the byte is not repeated in front of it. -/
theorem ComponentAt.row (h : t.ComponentAt root start pointee) (hrest : rest < t.size pointee) :
    ∀ k, k * t.size pointee ≤ rest →
      t.ComponentAt root (start + k * t.size pointee) pointee := by
  intro k hk
  have hk0 : k = 0 := by
    by_contra hne
    have hle := Nat.le_mul_of_pos_left (t.size pointee) (Nat.pos_of_ne_zero hne)
    omega
  rw [hk0, Nat.zero_mul, Nat.add_zero]
  exact h

/-- The elements of an array that holds the byte are repeated up to it. -/
theorem ComponentAt.row_element {array element count : Nat} (h : t.ComponentAt root start array)
    (hs : t.shape array = .array element count) (hsize : t.size array = t.size element * count)
    (hrest : rest < t.size array) (k : Nat) (hk : k * t.size element ≤ rest) :
    t.ComponentAt root (start + k * t.size element) element := by
  apply h.trans
  apply ComponentAt.of_element hs
  have hlt : k * t.size element < count * t.size element := by
    rw [Nat.mul_comm count]
    omega
  exact Nat.lt_of_mul_lt_mul_right hlt

/-- The component starts where the counting starts. -/
theorem LeadsTo.component (h : t.LeadsTo root byte size wordSize u ptr rest pointee start) :
    t.ComponentAt root start pointee := by
  have hfirst := h.row 0 (by omega)
  rwa [Nat.zero_mul, Nat.add_zero] at hfirst

/-- When nothing of the offset remains a component starts at the byte. -/
theorem LeadsTo.lands (h : t.LeadsTo root byte size wordSize u ptr 0 pointee start) :
    t.ComponentAt root byte pointee := by
  rw [← h.byte]
  exact h.component

/-- The offset can be counted from the last repetition in front of the byte. -/
theorem LeadsTo.reduce (h : t.LeadsTo root byte size wordSize u ptr rest pointee start) :
    t.LeadsTo root byte size wordSize u ptr (rest % t.size pointee) pointee
      (start + rest / t.size pointee * t.size pointee) := by
  have hlast := h.row (rest / t.size pointee) (Nat.div_mul_le_self rest _)
  have hsplit := Nat.div_add_mod' rest (t.size pointee)
  have hbyte := h.byte
  exact ⟨h.grows, h.shape, h.size, hlast.row (Nat.mod_lt rest h.sized), by omega, h.sized⟩

/-- The target of a level: the element, if the component that holds the byte is an array. -/
theorem leadsTo_pointerSized {target : Nat} (hgrows : t.Grows u) (hw : 0 < wordSize)
    (hhas : u.Has target)
    (hrow : ∀ k, k * t.size target ≤ rest → t.ComponentAt root (start + k * t.size target) target)
    (hbyte : start + rest = byte) (hsized : 0 < t.size target) :
    t.LeadsTo root byte size wordSize (u.pointerSized size target wordSize).table
      (u.pointerSized size target wordSize).id rest target start := by
  obtain ⟨hsize, hshape⟩ := u.get_pointerSized size target wordSize
  have hmore := hgrows.trans (gives_pointerSized size wordSize hhas).grows
  refine ⟨hmore, ?_, hsize, hrow, hbyte, hsized⟩
  rw [hshape, Nat.max_eq_left hw]

/-- One level down leads to the same byte and to an older component. -/
theorem LeadsTo.stepInto? (h : t.LeadsTo root byte size wordSize u ptr rest pointee start)
    (ht : t.WellFormed) (hmade : t.AllMade) (hroot : t.Has root) (hw : 0 < wordSize)
    (hrest : rest < t.size pointee) (hspace : t.metatype pointee ≠ .spacebase)
    (hdown : u.stepInto? ptr pointee rest = some down) :
    ∃ pointee' start' : Nat,
      t.LeadsTo root byte size wordSize down.table down.id down.rest pointee' start' ∧
        pointee' < pointee := by
  have hext := h.grows.extends
  have hhas := h.component.has ht hroot
  have hwf := h.grows.wellFormed ht
  rw [TypeTable.stepInto?, h.size, TypeTable.wordSize, h.shape] at hdown
  split at hdown
  · cases hdown
  · dsimp only at hdown
    rw [subType?, hext.shape hhas] at hdown
    cases hs : t.shape pointee with
    | struct fields =>
      have hmeta : u.metatype pointee ≠ .array := by
        rw [hext.metatype hhas, metatype_of_shape hs]
        exact Metatype.noConfusion
      cases hfind : fields.find? (u.covers rest) with
      | none => simp only [hs, hfind] at hdown; cases hdown
      | some field =>
        have hfield := List.mem_of_find?_eq_some hfind
        have hfhas := ht.has_component hhas (mem_components_of_struct hs hfield)
        have hcovers := List.find?_some hfind
        simp only [covers, fieldEnd, hext.size hfhas, decide_eq_true_eq] at hcovers
        have hcomponent := h.component.trans (.of_field hs hfield)
        have holder := ht _ _ (mem_components_of_struct hs hfield)
        have hbyte : start + field.offset + (rest - field.offset) = byte := by
          have hsum := h.byte
          omega
        have hinside : rest - field.offset < t.size field.type := by omega
        simp only [hs, hfind, Option.map_some, if_neg hmeta, Option.some.injEq] at hdown
        subst hdown
        dsimp only
        rw [hext.stripArray hfhas, stripArray]
        cases hfs : t.shape field.type with
        | array element count =>
          -- the array is left implicit, so its elements are repeated
          obtain ⟨hsize, helement, -⟩ := hmade.array_layout hfs
          have heolder := ht _ _ (mem_components_of_array hfs)
          refine ⟨element, start + field.offset, leadsTo_pointerSized h.grows hw ?_ ?_ hbyte
            helement, by omega⟩
          · exact hext.has (ht.has_component hfhas (mem_components_of_array hfs))
          · exact hcomponent.row_element hfs hsize hinside
        | _ =>
          exact ⟨field.type, start + field.offset, leadsTo_pointerSized h.grows hw
            (hext.has hfhas) (hcomponent.row hinside) hbyte (Nat.zero_lt_of_lt hinside), holder⟩
    | array element count =>
      have hmeta : u.metatype pointee = .array := by
        rw [hext.metatype hhas, metatype_of_shape hs]
        rfl
      obtain ⟨hsize, helement, -⟩ := hmade.array_layout hs
      have hehas := ht.has_component hhas (mem_components_of_array hs)
      have holder := ht _ _ (mem_components_of_array hs)
      have hmod := Nat.mod_lt rest helement
      have hsplit := Nat.div_add_mod' rest (t.size element)
      have hcomponent :
          t.ComponentAt root (start + rest / t.size element * t.size element) element :=
        h.component.row_element hs hsize hrest _ (Nat.div_mul_le_self rest _)
      simp only [hs, hext.size hehas, if_pos hmeta, Option.some.injEq] at hdown
      subst hdown
      refine ⟨element, _, leadsTo_pointerSized h.grows hw (hext.has hehas) (hcomponent.row hmod) ?_
        helement, holder⟩
      have hsum := h.byte
      dsimp only
      omega
    | spacebase space =>
      exact absurd (metatype_of_shape hs) hspace
    | _ => simp only [hs] at hdown; cases hdown

/-- One level down, with the offset reduced to a byte of the pointee, is the pointer itself or a
step into the pointee. -/
theorem downChain?_cases {wrap : Bool} {offset : Nat} (hptr : u.pointee? ptr = some pointee)
    (hwide : 5 ≤ u.size ptr) (hfits : u.size pointee < UInt32.size)
    (hrest : (rest : Int) = signExtend offset (u.size ptr) % (u.size pointee : Int))
    (hsized : 0 < u.size pointee) (hdown : u.downChain? ptr offset wrap = some down) :
    rest = 0 ∧ down = ⟨ptr, 0, u⟩ ∨
      (rest = 0 → offset = 0) ∧ u.stepInto? ptr pointee rest = some down := by
  simp only [downChain?, hptr, ← hrest, Int.toNat_natCast] at hdown
  split at hdown
  · split at hdown
    · split at hdown
      · rename_i hzero
        cases hdown
        exact Or.inl ⟨hzero, rfl⟩
      · rename_i hne
        exact Or.inr ⟨fun hzero => absurd hzero hne, hdown⟩
    · cases hdown
  · rename_i hin
    have hlt : offset < u.size pointee := by omega
    rw [signExtend_of_lt (by omega) hwide, Int.emod_eq_of_lt (by omega) (by omega)] at hrest
    obtain rfl : rest = offset := by omega
    exact Or.inr ⟨id, hdown⟩

/-- Nothing is below a pointer to a type without a size. -/
theorem downChain?_of_unsized (offset : Nat) (wrap : Bool) (hmade : t.AllMade)
    (hptr : t.pointee? ptr = some pointee) (hsize : t.size pointee = 0)
    (hspace : t.metatype pointee ≠ .spacebase) : t.downChain? ptr offset wrap = none := by
  have hnone : t.subType? pointee offset = none := by
    rw [subType?]
    cases hs : t.shape pointee with
    | struct fields =>
      have hends := (hmade.struct_layout hs).2
      have hfind : fields.find? (t.covers offset) = none := by
        rw [List.find?_eq_none]
        intro field hfield
        have hend := hends field hfield
        rw [covers, decide_eq_true_iff]
        omega
      simp only [hfind, Option.map_none]
    | array element count =>
      obtain ⟨hlaid, helement, hcount, -⟩ := hmade.array_layout hs
      have hpos := Nat.mul_pos helement hcount
      omega
    | spacebase space =>
      exact absurd (metatype_of_shape hs) hspace
    | _ => rfl
  simp only [downChain?, hptr, hsize, stepInto?, hnone]
  simp

/-- A base of a space has one byte. -/
theorem Made.spacebase_size {d : DataType} (h : t.Made d) (hmeta : d.metatype = .spacebase) :
    d.size = 1 := by
  cases h with
  | spacebase => rfl
  | atom size a => cases a <;> cases hmeta
  | _ => cases hmeta

/-- One level down, by an offset that is reduced to a byte of the pointee, leads to the same byte,
and to an older component unless nothing remains. -/
theorem LeadsTo.downChain? (h : t.LeadsTo root byte size wordSize u ptr rest pointee start)
    {wrap : Bool} {offset : Nat} (ht : t.WellFormed) (hmade : t.AllMade) (hroot : t.Has root)
    (hw : 0 < wordSize) (hwide : 5 ≤ size) (hfits : t.size root < UInt32.size)
    (hrest : (rest : Int) = signExtend offset size % (t.size pointee : Int))
    (hspace : t.metatype pointee = .spacebase → offset ≠ 0)
    (hdown : u.downChain? ptr offset wrap = some down) :
    ∃ pointee' start' : Nat,
      t.LeadsTo root byte size wordSize down.table down.id down.rest pointee' start' ∧
        (down.rest ≠ 0 → pointee' < pointee) := by
  have hhas := h.component.has ht hroot
  have hend := h.component.end_le hmade
  have hsize := h.grows.extends.size hhas
  have hlt : rest < t.size pointee := by
    have hmod := Int.emod_lt_of_pos (signExtend offset size) (Int.natCast_pos.mpr h.sized)
    omega
  have hptr : u.pointee? ptr = some pointee := pointee?_eq_some_iff.mpr ⟨_, h.shape⟩
  rw [← h.size] at hwide
  rw [← h.size, ← hsize] at hrest
  rcases downChain?_cases hptr hwide (by omega) hrest (by rw [hsize]; exact h.sized) hdown with
    ⟨rfl, rfl⟩ | ⟨hzero, hstep⟩
  · exact ⟨pointee, start, h, fun hne => absurd rfl hne⟩
  · have hnot : t.metatype pointee ≠ .spacebase := by
      intro hmeta
      -- the contents of a space are one byte wide, so nothing of the offset would remain
      have hone := (hmade.get hhas).spacebase_size hmeta
      change t.size pointee = 1 at hone
      exact hspace hmeta (hzero (by omega))
    obtain ⟨pointee', start', hleads, holder⟩ := h.stepInto? ht hmade hroot hw hlt hnot hstep
    exact ⟨pointee', start', hleads, fun _ => holder⟩

end Levels

/-! ## Descents -/

/-- Following a pointer down, level by level and without a bound on their number, until nothing of
the offset remains or nothing is below. -/
inductive Follows (wrap : Bool) : TypeTable → TypeId → Nat → Landing → Prop where
  /-- Nothing is below the pointer. -/
  | stuck {t : TypeTable} {ptr : TypeId} {offset : Nat} :
      t.downChain? ptr offset wrap = none → Follows wrap t ptr offset ⟨none, t⟩
  /-- Nothing of the offset remains. -/
  | landed {t : TypeTable} {ptr : TypeId} {offset : Nat} {down : Descent} :
      t.downChain? ptr offset wrap = some down → down.rest = 0 →
      Follows wrap t ptr offset ⟨some down.id, down.table⟩
  /-- The rest of the offset is followed further. -/
  | onward {t : TypeTable} {ptr : TypeId} {offset : Nat} {down : Descent} {landing : Landing} :
      t.downChain? ptr offset wrap = some down → down.rest ≠ 0 →
      Follows wrap down.table down.id down.rest landing → Follows wrap t ptr offset landing

/-- If there is a pointer, it has the given size and units and points to a component that starts at
the place. -/
def Landing.StartsAt (t : TypeTable) (root : TypeId) (place : Int) (size wordSize : Nat)
    (l : Landing) : Prop :=
  ∀ p ∈ l.pointer, ∃ c byte : Nat, l.table.shape p = .pointer c wordSize ∧
    l.table.size p = size ∧ (byte : Int) = place ∧ t.ComponentAt root byte c

section Descents

variable {root byte size wordSize ptr rest pointee start : Nat}

/-- A descent whose bound exceeds the pointee ends by itself, and where it lands a component starts
at the byte. -/
theorem LeadsTo.descendBelow (h : t.LeadsTo root byte size wordSize u ptr rest pointee start)
    (wrap : Bool) (offset : Nat) {bound : Nat} (ht : t.WellFormed) (hmade : t.AllMade)
    (hroot : t.Has root) (hw : 0 < wordSize) (hwide : 5 ≤ size)
    (hfits : t.size root < UInt32.size)
    (hrest : (rest : Int) = signExtend offset size % (t.size pointee : Int))
    (hspace : t.metatype pointee = .spacebase → offset ≠ 0) (hbound : pointee < bound) :
    Follows wrap u ptr offset (u.descendBelow wrap bound ptr offset) ∧
      (u.descendBelow wrap bound ptr offset).StartsAt t root byte size wordSize := by
  -- the bound goes down with the pointee
  induction bound generalizing u ptr rest pointee start offset with
  | zero => omega
  | succ bound ih =>
    rw [TypeTable.descendBelow]
    cases hd : u.downChain? ptr offset wrap with
    | none => exact ⟨.stuck hd, fun p hp => by cases hp⟩
    | some down =>
      obtain ⟨pointee', start', hleads, holder⟩ :=
        h.downChain? ht hmade hroot hw hwide hfits hrest hspace hd
      dsimp only
      split
      · rename_i hzero
        refine ⟨.landed hd hzero, ?_⟩
        rintro p ⟨⟩
        rw [hzero] at hleads
        exact ⟨pointee', byte, hleads.shape, hleads.size, rfl, hleads.lands⟩
      · rename_i hne
        -- what remains is smaller than the type, so reading it with a sign changes nothing
        have hsmall : down.rest < UInt32.size := by
          have hend := h.component.end_le hmade
          have hmod := Int.emod_lt_of_pos (signExtend offset size) (Int.natCast_pos.mpr h.sized)
          have hbyte := h.byte
          have hbyte' := hleads.byte
          omega
        obtain ⟨hfollows, hlands⟩ := ih hleads.reduce down.rest
          (by rw [signExtend_of_lt hsmall hwide]; rfl) (fun _ => hne)
          (Nat.lt_of_lt_of_le (holder hne) (Nat.le_of_lt_succ hbound))
        exact ⟨.onward hd hne hfollows, hlands⟩

/-- Going down from a pointer ends by itself, and where it lands a component of the pointee starts
at the byte to which the offset, read with its sign, wraps. -/
theorem Reaches.descend_startsAt {pointerSize : Nat} (h : Reaches (empty pointerSize) t)
    (wrap : Bool) (offset : Nat) (hptr : t.shape ptr = .pointer root wordSize)
    (hwide : 5 ≤ t.size ptr) (hfits : t.size root < UInt32.size)
    (hspace : t.metatype root ≠ .spacebase) :
    Follows wrap t ptr offset (t.descend wrap ptr offset) ∧
      (t.descend wrap ptr offset).StartsAt t root
        (signExtend offset (t.size ptr) % (t.size root : Int)) (t.size ptr) wordSize := by
  have ht := h.wellFormed
  obtain ⟨hmade, -⟩ := h.allMade
  have hpointee : t.pointee? ptr = some root := pointee?_eq_some_iff.mpr ⟨_, hptr⟩
  have hhas : t.Has ptr := has_of_shape_ne_void hptr Shape.noConfusion
  have hw : 0 < wordSize := h.unitsPositive _ (get_mem hhas) root wordSize hptr
  have hroot := ht.has_pointee hhas hpointee
  have holder := ht.pointee_lt hpointee
  rw [descend]
  by_cases hsized : t.size root = 0
  · have hnone := downChain?_of_unsized offset wrap hmade hpointee hsized hspace
    rw [descendBelow, hnone]
    exact ⟨.stuck hnone, fun p hp => by cases hp⟩
  · have hpos := Nat.pos_of_ne_zero hsized
    obtain ⟨byte, hbyte⟩ := Int.eq_ofNat_of_zero_le
      (Int.emod_nonneg (signExtend offset (t.size ptr)) (Int.natCast_ne_zero.mpr hsized))
    have hlt : byte < t.size root := by
      have hmod := Int.emod_lt_of_pos (signExtend offset (t.size ptr)) (Int.natCast_pos.mpr hpos)
      omega
    have hstart : t.LeadsTo root byte (t.size ptr) wordSize t ptr byte root 0 :=
      ⟨.refl, hptr, rfl, (ComponentAt.self root).row hlt, Nat.zero_add byte, hpos⟩
    rw [hbyte]
    exact hstart.descendBelow wrap offset ht hmade hroot hw hwide hfits hbyte.symm
      (fun hmeta => absurd hmeta hspace) (by omega)

end Descents

end TypeTable

end TypeRecovery
