import TypeRecovery.Proofs.Json.Reader

/-!
# Documents as text

Both layouts in which documents are written read as the document that was written: on one line, and
with one item or member on each line. Nothing is lost, not even how a number was written, the order
and repetition of members, or that a string has no text.
-/

namespace TypeRecovery

namespace Json

/-- What holds of literals, and of lists and records if it holds of what is in them, holds of every
document. -/
theorem induction_on {P : Json → Prop} (null : P .null) (bool : ∀ b, P (.bool b))
    (number : ∀ n, P (.number n)) (string : ∀ text, P (.string text))
    (array : ∀ items : List Json, (∀ j ∈ items, P j) → P (.array items))
    (object : ∀ members : List (Text × Json), (∀ m ∈ members, P m.2) → P (.object members))
    (j : Json) : P j := by
  refine @Json.rec P (fun items => ∀ j ∈ items, P j) (fun members => ∀ m ∈ members, P m.2)
    (fun member => P member.2) null bool number string array object ?_ ?_ ?_ ?_ ?_ j
  · simp
  · intro item items hitem hitems
    exact List.forall_mem_cons.mpr ⟨hitem, hitems⟩
  · simp
  · intro member members hmember hmembers
    exact List.forall_mem_cons.mpr ⟨hmember, hmembers⟩
  · intro key value hvalue
    exact hvalue

/-! ## One line -/

/-- Items are rendered one by one. -/
theorem renderItems_eq_map (items : List Json) : renderItems items = items.map render := by
  induction items with
  | nil => rfl
  | cons item items ih => rw [renderItems, ih, List.map_cons]

/-- Members are rendered one by one, as key and value. -/
theorem toList_renderMembers (members : List (Text × Json)) :
    (renderMembers members).map String.toList =
      members.map (memberText [] fun j => j.render.toList) := by
  induction members with
  | nil => rfl
  | cons member members ih =>
    obtain ⟨key, value⟩ := member
    rw [renderMembers, List.map_cons, ih, List.map_cons]
    simp [memberText]

/-- A rendered value reads as itself. -/
theorem readsAs_render (j : Json) : ReadsAs j.render.toList j := by
  have hblanks : Blanks [] := by simp [Blanks]
  induction j using induction_on with
  | null => exact readsAs_null
  | bool b =>
    cases b with
    | false => exact readsAs_false
    | true => exact readsAs_true
  | number n => exact readsAs_number n
  | string text => exact readsAs_string text
  | array items ih =>
    by_cases hne : items = []
    · subst hne
      exact readsAs_emptyArray
    · have hitems := readsAs_array hblanks hblanks hblanks (fun j => j.render.toList) hne ih
      simpa [render, renderItems_eq_map, row, Function.comp_def] using hitems
  | object members ih =>
    by_cases hne : members = []
    · subst hne
      exact readsAs_emptyObject
    · have hmembers := readsAs_object hblanks hblanks hblanks hblanks (fun j => j.render.toList)
        hne ih
      simpa [render, toList_renderMembers, row] using hmembers

/-- A document that is written on one line is read back. -/
theorem parse?_render (j : Json) : parse? j.render = some j := (readsAs_render j).parse?

/-! ## Indented lines -/

/-- Items are rendered one by one, at one level. -/
theorem prettyItems_eq_map (level : Nat) (items : List Json) :
    prettyItems level items = items.map (prettyAt level) := by
  induction items with
  | nil => rfl
  | cons item items ih => rw [prettyItems, ih, List.map_cons]

/-- Members are rendered one by one, with a blank before the value. -/
theorem toList_prettyMembers (level : Nat) (members : List (Text × Json)) :
    (prettyMembers level members).map String.toList =
      members.map (memberText [' '] fun j => (prettyAt level j).toList) := by
  induction members with
  | nil => rfl
  | cons member members ih =>
    obtain ⟨key, value⟩ := member
    rw [prettyMembers, List.map_cons, ih, List.map_cons]
    simp [memberText]

/-- A line break is blank, at each level. -/
theorem blanks_lineBreak (level : Nat) : Blanks (lineBreak level).toList := by
  intro c hc
  simp only [lineBreak, String.toList_append, String.toList_ofList, List.mem_append,
    List.mem_replicate] at hc
  rcases hc with hnewline | ⟨-, rfl⟩
  · obtain rfl : c = '\n' := by simpa using hnewline
    rfl
  · rfl

/-- Lines between brackets. -/
theorem toList_bracket (level : Nat) (opening closing : String) {lines : List String}
    (hne : lines ≠ []) :
    (bracket level opening closing lines).toList = opening.toList ++ ((lineBreak (level + 1)).toList
      ++ (row (lineBreak (level + 1)).toList (lines.map String.toList) ++
        ((lineBreak level).toList ++ closing.toList))) := by
  simp [bracket, hne, row]

/-- An indented value reads as itself, at each level. -/
theorem readsAs_prettyAt (level : Nat) (j : Json) : ReadsAs (prettyAt level j).toList j := by
  have hspace : Blanks [' '] := by simp [Blanks, isBlank]
  induction j using induction_on generalizing level with
  | null => simpa [prettyAt] using readsAs_null
  | bool b =>
    cases b with
    | false => simpa [prettyAt] using readsAs_false
    | true => simpa [prettyAt] using readsAs_true
  | number n => simpa [prettyAt] using readsAs_number n
  | string text => simpa [prettyAt] using readsAs_string text
  | array items ih =>
    rw [prettyAt]
    by_cases hne : items = []
    · subst hne
      simpa [prettyItems, bracket] using readsAs_emptyArray
    · have hitems := readsAs_array (blanks_lineBreak (level + 1)) (blanks_lineBreak (level + 1))
        (blanks_lineBreak level) (fun j => (prettyAt (level + 1) j).toList) hne
        fun j hj => ih j hj (level + 1)
      rw [prettyItems_eq_map, toList_bracket level _ _ (by simpa using hne), List.map_map]
      exact hitems
  | object members ih =>
    rw [prettyAt]
    by_cases hne : members = []
    · subst hne
      simpa [prettyMembers, bracket] using readsAs_emptyObject
    · have hmembers := readsAs_object (blanks_lineBreak (level + 1)) (blanks_lineBreak (level + 1))
        (blanks_lineBreak level) hspace (fun j => (prettyAt (level + 1) j).toList) hne
        fun m hm => ih m hm (level + 1)
      have hlines : prettyMembers (level + 1) members ≠ [] := by
        intro hnil
        have hmap := toList_prettyMembers (level + 1) members
        rw [hnil] at hmap
        exact hne (by simpa using hmap.symm)
      rw [toList_bracket level _ _ hlines, toList_prettyMembers]
      exact hmembers

/-- A document that is written on indented lines is read back. -/
theorem parse?_pretty (j : Json) : parse? j.pretty = some j := (readsAs_prettyAt 0 j).parse?

end Json

end TypeRecovery
