import TypeRecovery.Proofs.DataType.Descent

/-!
# Pointers that never nest three deep

A pointer to a type whose own pointee is a pointer, or unknown bytes, is made to point to unknown
bytes instead, so no three pointers follow each other. A pointer to unknown bytes of its own size is
taken for the pointer to itself as it is. It is the only result that may have another size, or count
in other units, than what was asked for.
-/

namespace TypeRecovery

namespace TypeTable

variable {t u : TypeTable} {id : Nat}

/-- A pointer to unknown bytes of the pointer's own size, which is taken for a pointer to itself. -/
def StandsIn (t : TypeTable) (id : TypeId) : Prop :=
  ∃ inner, t.pointee? id = some inner ∧ t.metatype inner = .unknown ∧ t.size inner = t.size id

/-- Nesting is full exactly where a type stands in for deeper pointers. -/
theorem nesting_eq_full_iff : t.nesting id = .full ↔ t.StandsIn id := by
  rw [nesting, StandsIn]
  cases t.pointee? id with
  | none => simp
  | some inner =>
    simp only [Option.some.injEq, exists_eq_left']
    cases t.metatype inner with
    | unknown => by_cases hsize : t.size inner = t.size id <;> simp [hsize]
    | _ => simp

/-- Where nesting is not full, no type stands in for deeper pointers. -/
theorem not_standsIn_of_nesting (h : t.nesting id ≠ .full) : ¬t.StandsIn id :=
  fun hstands => h (nesting_eq_full_iff.mpr hstands)

/-- What is no pointer points to nothing. -/
theorem pointee?_eq_none_of_metatype (h : t.metatype id ≠ .ptr) : t.pointee? id = none := by
  cases hp : t.pointee? id with
  | none => rfl
  | some p => exact absurd (metatype_of_pointee? hp) h

/-- What is pointed to as it is points to no pointer. -/
theorem pointee?_of_nesting_shallow (h : t.nesting id = .shallow) {inner : Nat}
    (hinner : t.pointee? id = some inner) : t.pointee? inner = none := by
  apply pointee?_eq_none_of_metatype
  intro hmeta
  simp [nesting, hinner, hmeta] at h

/-- An interned pointer as its size, its target and its units. -/
structure PointsTo (r : Interned) (size target wordSize : Nat) : Prop where
  /-- It points to the target. -/
  target : r.table.pointee? r.id = some target
  /-- It has the size. -/
  size : r.table.size r.id = size
  /-- It counts in the units. -/
  wordSize : r.table.wordSize r.id = wordSize

/-- A sized pointer points to what it was asked to. -/
theorem pointsTo_pointerSized (t : TypeTable) (size pointee wordSize : Nat) :
    PointsTo (t.pointerSized size pointee wordSize) size pointee (max wordSize 1) := by
  obtain ⟨hsize, hshape⟩ := t.get_pointerSized size pointee wordSize
  exact ⟨by rw [pointee?, hshape], hsize, by rw [TypeTable.wordSize, hshape]⟩

/-- No third pointer follows if none follows what the target points to. -/
theorem PointsTo.no_third {r : Interned} {size target wordSize : Nat}
    (h : PointsTo r size target wordSize)
    (hinner : ∀ inner, r.table.pointee? target = some inner → r.table.pointee? inner = none)
    {other inner : Nat} (hother : r.table.pointee? r.id = some other)
    (hnext : r.table.pointee? other = some inner) : r.table.pointee? inner = none := by
  obtain rfl : target = other := Option.some.inj (h.target.symm.trans hother)
  exact hinner inner hnext

/-- Unknown bytes of a size. -/
structure UnknownBytes (t : TypeTable) (id : TypeId) (size : Nat) : Prop where
  /-- Nothing is known of them. -/
  metatype : t.metatype id = .unknown
  /-- There are that many. -/
  size : t.size id = size

/-- Unknown bytes point to nothing. -/
theorem UnknownBytes.pointee? {size : Nat} (h : t.UnknownBytes id size) : t.pointee? id = none :=
  pointee?_eq_none_of_metatype (by rw [h.metatype]; decide)

/-- A pointer to unknown bytes has no third level. -/
theorem PointsTo.no_third_of_unknownBytes {r : Interned} {size target wordSize bytes : Nat}
    (h : PointsTo r size target wordSize) (hbytes : r.table.UnknownBytes target bytes)
    {other inner : Nat} (hother : r.table.pointee? r.id = some other)
    (hnext : r.table.pointee? other = some inner) : r.table.pointee? inner = none := by
  refine h.no_third (fun inner hinner => ?_) hother hnext
  rw [hbytes.pointee?] at hinner
  cases hinner

/-- A pointer to unknown bytes points to unknown bytes of the size that was asked for. -/
theorem pointsTo_blurredPointer (hmade : t.AllMade) (size bytes wordSize : Nat) :
    ∃ target, PointsTo (t.blurredPointer size bytes wordSize) size target (max wordSize 1) ∧
      (t.blurredPointer size bytes wordSize).table.UnknownBytes target bytes := by
  have hget : ((t.unknown bytes).table.get (t.unknown bytes).id).toDataType =
      ⟨Atom.typeName .unknown bytes, bytes, .unknown, .atom .unknown, rfl⟩ :=
    hmade.get_intern (.atom bytes .unknown) rfl
  have hhas := (t.gives_atom bytes .unknown).has
  have hext := (gives_pointerSized size wordSize hhas).grows.extends
  refine ⟨_, pointsTo_pointerSized _ size _ wordSize, ?_, ?_⟩
  · exact (hext.metatype hhas).trans (congrArg DataType.metatype hget)
  · exact (hext.size hhas).trans (congrArg DataType.size hget)

/-- In every table built by constructor calls, a pointer that never nests three pointers is asked
for with any size and any units. The result is a pointer that points to the type in question or to
unknown bytes of its size, and what its pointee points to is no pointer. It has the size and the
units that were asked for, except where the type in question stands in for a pointer to it and has
others. -/
theorem Reaches.pointerNoDepth_asked_iff {pointerSize : Nat} (h : Reaches (empty pointerSize) t)
    {pointee : Nat} (hp : t.Has pointee) (size wordSize : Nat) {r : Interned}
    (hr : t.pointerNoDepth size pointee wordSize = r) :
    (∃ target, r.table.pointee? r.id = some target ∧
      (target = pointee ∨ r.table.UnknownBytes target (t.size pointee))) ∧
    0 < r.table.wordSize r.id ∧
    (∀ target inner, r.table.pointee? r.id = some target → r.table.pointee? target = some inner →
      r.table.pointee? inner = none) ∧
    (r.table.size r.id = size ∧ r.table.wordSize r.id = max wordSize 1 ↔
      (t.StandsIn pointee → t.size pointee = size ∧ t.wordSize pointee = max wordSize 1)) := by
  have ht := h.wellFormed
  have hext : t.Extends r.table := by
    rw [← hr]
    exact (gives_pointerNoDepth size wordSize hp).grows.extends
  have hunit : 0 < max wordSize 1 := by omega
  rw [pointerNoDepth_eq] at hr
  cases hn : t.nesting pointee with
  | shallow =>
    simp only [hn] at hr
    have hpoints := t.pointsTo_pointerSized size pointee wordSize
    rw [hr] at hpoints
    have hstands : ¬t.StandsIn pointee := not_standsIn_of_nesting (by simp [hn])
    refine ⟨⟨pointee, hpoints.target, Or.inl rfl⟩, hpoints.wordSize ▸ hunit,
      fun _ _ => hpoints.no_third fun inner hinner => ?_,
      fun _ hyes => absurd hyes hstands, fun _ => ⟨hpoints.size, hpoints.wordSize⟩⟩
    rw [hext.pointee? hp] at hinner
    rw [hext.pointee? (ht.has_pointee hp hinner)]
    exact pointee?_of_nesting_shallow hn hinner
  | deep =>
    simp only [hn] at hr
    obtain ⟨target, hpoints, hbytes⟩ :=
      pointsTo_blurredPointer h.allMade.1 size (t.size pointee) wordSize
    rw [hr] at hpoints hbytes
    have hstands : ¬t.StandsIn pointee := not_standsIn_of_nesting (by simp [hn])
    exact ⟨⟨target, hpoints.target, Or.inr hbytes⟩, hpoints.wordSize ▸ hunit,
      fun _ _ => hpoints.no_third_of_unknownBytes hbytes,
      fun _ hyes => absurd hyes hstands, fun _ => ⟨hpoints.size, hpoints.wordSize⟩⟩
  | full =>
    simp only [hn] at hr
    subst hr
    have hstands := nesting_eq_full_iff.mp hn
    obtain ⟨inner, hinner, hmeta, hsize⟩ := hstands
    have hpoints : PointsTo ⟨pointee, t⟩ (t.size pointee) inner (t.wordSize pointee) :=
      ⟨hinner, rfl, rfl⟩
    have hbytes : t.UnknownBytes inner (t.size pointee) := ⟨hmeta, hsize⟩
    refine ⟨⟨inner, hinner, Or.inr hbytes⟩, ?_, fun _ _ => hpoints.no_third_of_unknownBytes hbytes,
      fun hasked _ => hasked, fun hasked => hasked ⟨inner, hinner, hmeta, hsize⟩⟩
    obtain ⟨unit, hshape⟩ := pointee?_eq_some_iff.mp hinner
    rw [TypeTable.wordSize, hshape]
    exact h.unitsPositive _ (get_mem hp) inner unit hshape

/-- An eight-byte pointer to eight unknown bytes stands in for a pointer to it. Asked for with four
bytes and units of two, it is not what was asked for; with eight bytes and single ones it is. -/
theorem Reaches.pointerNoDepth_asked_of_unknown :
    let t := ((empty 8).perform (.unknown 8)).perform (.pointer 0 1)
    let narrow := t.pointerNoDepth 4 1 2
    let wide := t.pointerNoDepth 8 1 1
    ¬(narrow.table.size narrow.id = 4 ∧ narrow.table.wordSize narrow.id = 2) ∧
      wide.table.size wide.id = 8 ∧ wide.table.wordSize wide.id = 1 := by
  intro t narrow wide
  have hbytes : Reaches (empty 8) ((empty 8).perform (.unknown 8)) :=
    .call _ .refl (by decide +kernel)
  have hpointer : Reaches (empty 8) t := .call _ hbytes (by decide +kernel)
  have hhas : t.Has 1 := by decide +kernel
  have hsize : t.size 1 = 8 := by decide +kernel
  have hunit : t.wordSize 1 = 1 := by decide +kernel
  have hstands : t.StandsIn 1 :=
    ⟨0, by decide +kernel, by decide +kernel, by decide +kernel⟩
  obtain ⟨-, -, -, hnarrow⟩ := hpointer.pointerNoDepth_asked_iff hhas 4 2 rfl
  obtain ⟨-, -, -, hwide⟩ := hpointer.pointerNoDepth_asked_iff hhas 8 1 rfl
  refine ⟨fun hasked => ?_, hwide.mpr fun _ => ⟨hsize, hunit⟩⟩
  exact absurd (hsize.symm.trans (hnarrow.mp hasked hstands).1) (by decide)

end TypeTable

end TypeRecovery
