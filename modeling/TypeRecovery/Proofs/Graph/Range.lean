import TypeRecovery.Graph.Basic

/-!
# Ranges of locations

A range of locations is given by two keys. Its lower end is the least key with an offset, and its
upper end is the least key with another offset, which it leaves out, or the greatest key of the
space, which it includes. So the sizes and the ages of values, which keys hold as well, play no part
in whether a value is in the range, and neither do the values of other spaces.
-/

namespace TypeRecovery

/-- A word is the one from a word on and before the next word. -/
theorem eq_iff_before_successor? {start word : UInt64} :
    word = start ↔ start ≤ word ∧ ∀ stop ∈ successor? start, word < stop := by
  rw [successor?, UInt64.le_iff_toNat_le, ← UInt64.toNat_inj]
  have hword := word.toNat_lt
  split
  · rename_i hlast
    have hstart : start.toNat = 2 ^ 64 - 1 := by rw [hlast]; rfl
    simp only [Option.mem_def, reduceCtorEq, false_imp_iff, implies_true, and_true]
    omega
  · rename_i hlast
    have hstart := start.toNat_lt
    have hne : start.toNat ≠ 2 ^ 64 - 1 := fun h => hlast (UInt64.toNat_inj.mp h)
    have hnext : (start + 1).toNat = start.toNat + 1 := by
      rw [UInt64.toNat_add, UInt64.toNat_one, Nat.mod_eq_of_lt (by omega)]
    simp only [Option.mem_def, Option.some.injEq, forall_eq', UInt64.lt_iff_toNat_lt, hnext]
    omega

namespace LocationKey

variable {key : LocationKey} {space : SpaceId} {offset : UInt64}

/-- The keys from the least one with an offset on are those of later spaces, and those of the space
with this offset or a greater one. -/
theorem least_isLE_iff : ((least space offset).compare key).isLE = true ↔
    space < key.space ∨ space = key.space ∧ offset ≤ key.offset := by
  simp only [compare, least, Ordering.isLE_then_iff_or, Nat.compare_eq_lt, Nat.compare_eq_eq,
    Nat.isLE_compare, UInt32.toNat_zero, Nat.zero_le, UInt64.le_iff_toNat_le]
  grind

/-- The keys before the least one with an offset are those of earlier spaces, and those of the space
with a smaller offset. -/
theorem compare_least_eq_lt_iff : key.compare (least space offset) = .lt ↔
    key.space < space ∨ key.space = space ∧ key.offset < offset := by
  simp only [compare, least, Ordering.then_eq_lt, Nat.compare_eq_lt, Nat.compare_eq_eq,
    UInt32.toNat_zero, Nat.not_lt_zero, and_false, or_false, UInt64.lt_iff_toNat_lt]

/-- The keys up to the greatest one of a space are those of the space and of earlier ones. -/
theorem compare_greatest_isLE_iff : (key.compare (greatest space)).isLE = true ↔
    key.space ≤ space := by
  have hoffset := key.offset.toNat_lt
  have hsize := key.size.toNat_lt
  have hid := key.id.toNat_lt
  have hlast : (0xffffffffffffffff : UInt64).toNat = 2 ^ 64 - 1 := rfl
  have hword : (0xffffffff : UInt32).toNat = 2 ^ 32 - 1 := rfl
  simp only [compare, greatest, Ordering.isLE_then_iff_or, Nat.compare_eq_lt, Nat.compare_eq_eq,
    Nat.isLE_compare, hlast, hword]
  grind

/-- Between the least keys with two offsets are the keys of the space with offsets between them. -/
theorem between_least_iff {stop : UInt64} :
    ((least space offset).compare key).isLE = true ∧ key.compare (least space stop) = .lt ↔
      key.space = space ∧ offset ≤ key.offset ∧ key.offset < stop := by
  rw [least_isLE_iff, compare_least_eq_lt_iff]
  grind

/-- From the least key with an offset up to the greatest key of the space are the keys of the space
from the offset on. -/
theorem between_greatest_iff :
    ((least space offset).compare key).isLE = true ∧ (key.compare (greatest space)).isLE = true ↔
      key.space = space ∧ offset ≤ key.offset := by
  rw [least_isLE_iff, compare_greatest_isLE_iff]
  grind

end LocationKey

namespace Graph

variable {g : Graph} {v : VarnodeId} {space : SpaceId} {start : UInt64} {stop : Option UInt64}

/-- A range is made of locations of the graph, in their order. -/
theorem exists_sublist_valuesInRange (g : Graph) (space : SpaceId) (start : UInt64)
    (stop : Option UInt64) :
    ∃ l : List Location, l.Sublist g.locations ∧
      g.valuesInRange space start stop = l.map (·.id) := by
  cases stop with
  | none => exact ⟨_, List.filter_sublist, rfl⟩
  | some stop =>
    rw [valuesInRange]
    split
    · exact ⟨[], List.nil_sublist _, rfl⟩
    · exact ⟨_, List.filter_sublist, rfl⟩

/-- The values found in a range of a space are those with a location in it. -/
theorem mem_valuesInRange : v ∈ g.valuesInRange space start stop ↔
    ∃ l ∈ g.locations, (l.space = space ∧ start ≤ l.offset ∧ ∀ e ∈ stop, l.offset < e) ∧
      l.id = v := by
  cases stop with
  | none =>
    simp only [valuesInRange, valuesBetween, UpperBound.admits, List.mem_map, List.mem_filter,
      Bool.and_eq_true, LocationKey.between_greatest_iff, and_assoc]
    simp [Location.key]
  | some stop =>
    rw [valuesInRange]
    split
    · -- no offset is both from `start` on and before a `stop` that does not exceed it
      rename_i hempty
      simp only [List.not_mem_nil, Option.mem_def, Option.some.injEq, forall_eq', false_iff]
      rintro ⟨l, -, ⟨-, hstart, hstop⟩, -⟩
      exact absurd (UInt64.lt_of_le_of_lt hstart hstop) (UInt64.not_lt.mpr hempty)
    · simp only [valuesBetween, UpperBound.admits, List.mem_map, List.mem_filter,
        Bool.and_eq_true, decide_eq_true_eq, LocationKey.between_least_iff, and_assoc]
      simp [Location.key]

/-- The input that is found has the size, and a location at the address. -/
theorem findInput?_spec {size : Nat} {address : Address} (h : g.findInput? size address = some v) :
    (g.varnode v).input = true ∧ (g.varnode v).size = size ∧
      ∃ l ∈ g.locations, l.space = address.space ∧ l.offset = address.offset ∧ l.id = v := by
  have hfound := List.find?_some h
  simp only [Bool.and_eq_true, decide_eq_true_eq] at hfound
  obtain ⟨l, hl, ⟨hspace, hstart, hstop⟩, hid⟩ :=
    mem_valuesInRange.mp (List.mem_of_find?_eq_some h)
  exact ⟨hfound.1, hfound.2, l, hl, hspace, eq_iff_before_successor?.mpr ⟨hstart, hstop⟩, hid⟩

end Graph

end TypeRecovery
