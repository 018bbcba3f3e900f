import TypeRecovery.Proofs.Description.Meaning

/-!
# Declared types

Types are declared one after the other, and the fields of each are resolved in the table that the
ones before it have left. A declaration is accepted exactly if its fields mean something and are
laid out in order, and a name is declared again only with the layout that it has.
-/

namespace TypeRecovery

open TypeExpr (Names)

namespace TypeTable

variable {t : TypeTable} {stack : SpaceId} {pointerSize : Nat} {env : Declarations} {names : Names}

/-- A field and its meaning determine each other. -/
theorem biUnique_realizesField (ht : t.Distinct) :
    Relator.BiUnique (t.RealizesField stack pointerSize) := by
  constructor
  · rintro ⟨offset, name, m⟩ ⟨offset', name', m'⟩ field h h'
    obtain rfl : offset = offset' := h.offset.symm.trans h'.offset
    obtain rfl : name = name' := h.name.symm.trans h'.name
    obtain rfl : m = m' := h.type.unique_meaning h'.type
    rfl
  · rintro f ⟨offset, name, type⟩ ⟨offset', name', type'⟩ h h'
    obtain rfl : offset = offset' := h.offset.trans h'.offset.symm
    obtain rfl : name = name' := h.name.trans h'.name.symm
    obtain rfl : type = type' := h.type.unique_type ht h'.type
    rfl

/-- Each declared name is known. -/
theorem Agrees.exists_realizes (h : Agrees env names pointerSize t) {name : String}
    {layout : Layout} (hentry : (name, layout) ∈ env) :
    ∃ id, t.RealizesLayout names.stack pointerSize name layout id := by
  obtain ⟨-, hdeclared, -⟩ := h
  generalize names.declared = known at hdeclared
  induction hdeclared with
  | nil => cases hentry
  | @cons head known env rest hx _ ih =>
    rcases List.mem_cons.mp hentry with rfl | hrest
    · exact ⟨known.2, hx.2⟩
    · exact ih hrest

end TypeTable

namespace Description

open TypeTable (Agrees)
open TypeExpr (Denotes)

variable {env : Declarations} {names : Names} {pointerSize : Nat} {fields : List FieldMeaning}
  {acc acc' : List Field × TypeTable}

/-- The fields of a declaration that were resolved so far have meanings. -/
structure Resolves (env : Declarations) (names : Names) (pointerSize : Nat)
    (fields : List FieldMeaning) (acc : List Field × TypeTable) : Prop where
  /-- The table agrees with the declarations before. -/
  agrees : Agrees env names pointerSize acc.2
  /-- The fields have the meanings. -/
  realizes : fields.Forall₂ (acc.2.RealizesField names.stack pointerSize) acc.1

/-- No fields resolve to no fields. -/
theorem resolves_nil {t : TypeTable} (h : Agrees env names pointerSize t) :
    Resolves env names pointerSize [] ([], t) :=
  ⟨h, .nil⟩

/-- A field that denotes a type is resolved after the others. -/
theorem Resolves.append (h : Resolves env names pointerSize fields acc) {d : FieldDecl}
    {f : FieldMeaning} (hoffset : f.offset = d.offset.toNat) (hname : f.name = d.name)
    {r : Interned} (hr : Denotes env names pointerSize acc.2 r f.type) :
    Resolves env names pointerSize (fields ++ [f])
      (acc.1 ++ [⟨d.offset.toNat, d.name, r.id⟩], r.table) :=
  ⟨hr.agrees, List.rel_append (h.realizes.imp fun _ _ hx => hx.mono hr.grown)
    (.cons ⟨hoffset.symm, hname.symm, hr.realizes⟩ .nil)⟩

/-- A field that was added means what was added. -/
theorem Resolves.of_addField (h : Resolves env names pointerSize fields acc) {d : FieldDecl}
    (hok : addField names acc d = .ok acc') :
    ∃ f, FieldMeans env pointerSize d f ∧ Resolves env names pointerSize (fields ++ [f]) acc' := by
  obtain ⟨r, hr, hok⟩ := bind_eq_ok hok
  cases hok
  obtain ⟨m, hm, hdenotes⟩ := TypeExpr.means_of_denote h.agrees hr
  exact ⟨⟨d.offset.toNat, d.name, m⟩, ⟨rfl, rfl, hm⟩,
    h.append (f := ⟨d.offset.toNat, d.name, m⟩) rfl rfl hdenotes⟩

/-- A field that means something can be added. -/
theorem Resolves.addField (h : Resolves env names pointerSize fields acc) {d : FieldDecl}
    {f : FieldMeaning} (hf : FieldMeans env pointerSize d f) :
    ∃ acc', Description.addField names acc d = .ok acc' ∧
      Resolves env names pointerSize (fields ++ [f]) acc' := by
  obtain ⟨r, hr, hdenotes⟩ := TypeExpr.denote_of_means h.agrees hf.type
  refine ⟨_, ?_, h.append hf.offset hf.name hdenotes⟩
  rw [Description.addField, hr]
  rfl

/-- Fields that were added mean what was added. -/
theorem Resolves.of_addFields (h : Resolves env names pointerSize fields acc)
    {decls : List FieldDecl} (hok : decls.foldlM (Description.addField names) acc = .ok acc') :
    ∃ more, decls.Forall₂ (FieldMeans env pointerSize) more ∧
      Resolves env names pointerSize (fields ++ more) acc' := by
  induction decls generalizing fields acc with
  | nil =>
    cases hok
    exact ⟨[], .nil, by rwa [List.append_nil]⟩
  | cons d rest ih =>
    rw [List.foldlM_cons] at hok
    obtain ⟨next, hnext, hok⟩ := bind_eq_ok hok
    obtain ⟨f, hf, hresolves⟩ := h.of_addField hnext
    obtain ⟨more, hmore, hall⟩ := ih hresolves hok
    exact ⟨f :: more, .cons hf hmore, by rwa [List.append_assoc] at hall⟩

/-- Fields that mean something can be added. -/
theorem Resolves.addFields (h : Resolves env names pointerSize fields acc)
    {decls : List FieldDecl} {more : List FieldMeaning}
    (hmore : decls.Forall₂ (FieldMeans env pointerSize) more) :
    ∃ acc', decls.foldlM (Description.addField names) acc = .ok acc' ∧
      Resolves env names pointerSize (fields ++ more) acc' := by
  induction hmore generalizing fields acc with
  | nil => exact ⟨acc, rfl, by rwa [List.append_nil]⟩
  | @cons d f rest more hf _ ih =>
    obtain ⟨next, hnext, hresolves⟩ := h.addField hf
    obtain ⟨acc', hok, hall⟩ := ih hresolves
    refine ⟨acc', ?_, by rwa [List.append_assoc] at hall⟩
    rw [List.foldlM_cons, hnext]
    exact hok

/-- A name can be given to resolved fields exactly if it keeps the layout that it has. -/
theorem Resolves.nameable_iff (h : Resolves env names pointerSize fields acc) (kind : Aggregate)
    (name : String) (size : Nat) :
    acc.2.Nameable (kind.type name size acc.1) ↔
      ∀ entry ∈ env, entry.1 = name → entry.2 = ⟨kind, size, fields⟩ := by
  have hunique : Relator.BiUnique (acc.2.RealizesField names.stack pointerSize) :=
    TypeTable.biUnique_realizesField h.agrees.regular.distinct
  constructor
  · rintro hnameable ⟨name, layout⟩ hentry rfl
    obtain ⟨id, hreal⟩ := h.agrees.exists_realizes hentry
    obtain ⟨known, hget, hknown⟩ := hreal.get
    have hsame := hnameable id hreal.has (by rw [hget, TypeTable.key_type, TypeTable.key_type])
    rw [TypeTable.size, TypeTable.shape, hget, TypeTable.size_type, TypeTable.size_type] at hsame
    obtain ⟨hsize, hshape⟩ := hsame
    obtain ⟨hkind, rfl⟩ : layout.kind = kind ∧ known = acc.1 := by
      generalize layout.kind = kind' at hshape
      cases kind' <;> cases kind <;> cases hshape <;> exact ⟨rfl, rfl⟩
    have hfields : layout.fields = fields := hunique.left.forall₂ hknown h.realizes
    cases layout
    cases hsize
    cases hkind
    cases hfields
    rfl
  · intro hkept id hid hkey
    rw [TypeTable.key_type] at hkey
    obtain ⟨layout, hentry⟩ := h.agrees.only id name hid hkey
    obtain rfl : layout = ⟨kind, size, fields⟩ := hkept _ hentry rfl
    obtain ⟨id', hreal⟩ := h.agrees.exists_realizes hentry
    obtain ⟨known, hget, hknown⟩ := hreal.get
    obtain rfl := h.agrees.regular.distinct id id' hid hreal.has (hkey.trans hreal.isAt.key.symm)
    rw [TypeTable.size, TypeTable.shape, hget, hunique.right.forall₂ hknown h.realizes]
    exact ⟨rfl, rfl⟩

/-- A declaration of resolved fields is accepted exactly if the layout is in order and the name is
new or has it already. -/
theorem Resolves.accepted_iff (h : Resolves env names pointerSize fields acc) (kind : Aggregate)
    (name : String) (size : Nat) :
    (kind.call name size acc.1).Accepted acc.2 ↔
      Layout.Fits pointerSize ⟨kind, size, fields⟩ ∧
        ∀ entry ∈ env, entry.1 = name → entry.2 = ⟨kind, size, fields⟩ := by
  rw [← h.nameable_iff kind name size]
  -- offsets and sizes are all that a layout is judged by
  have hplaces : fields.map (fun f => (f.offset, f.type.size pointerSize)) =
      acc.1.map (fun field => (field.offset, acc.2.size field.type)) := by
    rw [← List.forall₂_eq_eq_eq, List.forall₂_map_left_iff, List.forall₂_map_right_iff]
    exact h.realizes.imp fun f field hf => by rw [hf.offset, hf.type.size]
  have hpairs (R : Nat × Nat → Nat × Nat → Prop) :
      fields.Pairwise (fun x y =>
          R (x.offset, x.type.size pointerSize) (y.offset, y.type.size pointerSize)) ↔
        acc.1.Pairwise fun x y =>
          R (x.offset, acc.2.size x.type) (y.offset, acc.2.size y.type) := by
    have hmap := List.pairwise_map (R := R)
      (f := fun f : FieldMeaning => (f.offset, f.type.size pointerSize)) (l := fields)
    rw [hplaces, List.pairwise_map] at hmap
    exact hmap.symm
  have hall (P : Nat × Nat → Prop) :
      (∀ f ∈ fields, P (f.offset, f.type.size pointerSize)) ↔
        ∀ field ∈ acc.1, P (field.offset, acc.2.size field.type) := by
    have hmap := List.forall_mem_map (P := P)
      (f := fun f : FieldMeaning => (f.offset, f.type.size pointerSize)) (l := fields)
    rw [hplaces, List.forall_mem_map] at hmap
    exact hmap.symm
  cases kind with
  | struct =>
    have hends := hall fun p => p.1 + p.2 ≤ size
    have hplaced := hpairs fun p q => p.1 + p.2 ≤ q.1
    simp only [Layout.Fits, hends, hplaced]
    exact ⟨fun hok => ⟨⟨hok.2.1, hok.1⟩, hok.2.2⟩, fun hok => ⟨hok.1.2, hok.1.1, hok.2⟩⟩
  | union =>
    have hfits := hall fun p => p.1 = 0 ∧ p.2 ≤ size
    simp only [Layout.Fits, hfits]
    exact Iff.rfl

/-- A declaration that is accepted interns its layout. -/
theorem Resolves.run_call (h : Resolves env names pointerSize fields acc) {kind : Aggregate}
    {name : String} {size : Nat} (hok : (kind.call name size acc.1).Accepted acc.2) :
    (kind.call name size acc.1).run acc.2 = (acc.2.intern (kind.type name size acc.1)).answer ∧
      acc.2.Made (kind.type name size acc.1) := by
  have hhas : ∀ field ∈ acc.1, acc.2.Has field.type := by
    intro field hfield
    obtain ⟨i, hi, rfl⟩ := List.getElem_of_mem hfield
    exact (h.realizes.get (h.realizes.length_eq ▸ hi) hi).type.has
  cases kind with
  | struct => exact ⟨TypeTable.Call.run_struct hok, .struct name hhas hok.2.1 hok.1⟩
  | union => exact ⟨TypeTable.Call.run_union hok, .union name hhas hok.1⟩

/-- After a declaration the name stands for the layout. -/
theorem Resolves.declare (h : Resolves env names pointerSize fields acc) {kind : Aggregate}
    {name : String} {size : Nat} (hok : (kind.call name size acc.1).Accepted acc.2) {r : Interned}
    (hr : acc.2.intern (kind.type name size acc.1) = r) :
    Agrees ((name, ⟨kind, size, fields⟩) :: env)
      { names with declared := (name, r.id) :: names.declared } pointerSize r.table := by
  subst hr
  have hext := acc.2.intern_extends (kind.type name size acc.1)
  have hnameable : acc.2.Nameable (kind.type name size acc.1) :=
    (h.nameable_iff kind name size).mpr ((h.accepted_iff kind name size).mp hok).2
  have hget := hnameable.get_intern (by simp)
  refine ⟨h.agrees.regular.intern (h.run_call hok).2, .cons ⟨rfl, acc.2.intern_has _, acc.1, hget,
    h.realizes.imp fun _ _ hx => hx.mono hext⟩
    (h.agrees.declared.imp fun _ _ hx => ⟨hx.1, hx.2.mono hext⟩), fun id other hid hkey => ?_⟩
  rcases TypeTable.has_intern hid with hold | hnew
  · rw [hext.get hold] at hkey
    obtain ⟨layout, hlayout⟩ := h.agrees.only id other hold hkey
    exact ⟨layout, List.mem_cons_of_mem _ hlayout⟩
  · rw [hnew, TypeTable.key_type] at hkey
    cases hkey
    exact ⟨_, List.mem_cons_self⟩

/-- A declaration resolves its fields and then interns its type. -/
theorem addType_eq (types : Types) (d : TypeDecl) : addType types d = (do
    let (fields, table) ← d.fields.foldlM (addField types.names) ([], types.table)
    let t ← ((d.kind.call d.name d.size.toNat fields).run table).interned
    return ⟨{ types.names with declared := (d.name, t.id) :: types.names.declared }, t.table⟩) := by
  rw [addType]
  cases d.kind <;> rfl

/-- A declaration that is accepted has a layout. -/
theorem declaredAs_of_addType {types types' : Types}
    (h : Agrees env types.names pointerSize types.table) {d : TypeDecl}
    (hok : addType types d = .ok types') :
    ∃ layout, DeclaredAs env pointerSize d layout ∧
      Agrees ((d.name, layout) :: env) types'.names pointerSize types'.table := by
  rw [addType_eq] at hok
  obtain ⟨acc, hacc, hok⟩ := bind_eq_ok hok
  obtain ⟨r, hr, hok⟩ := bind_eq_ok hok
  cases hok
  obtain ⟨fields, hfields, hresolves⟩ := (resolves_nil h).of_addFields hacc
  by_cases haccepted : (d.kind.call d.name d.size.toNat acc.1).Accepted acc.2
  · obtain ⟨hfits, hkept⟩ := (hresolves.accepted_iff d.kind d.name d.size.toNat).mp haccepted
    refine ⟨⟨d.kind, d.size.toNat, fields⟩, ⟨rfl, rfl, hfields, hfits, hkept⟩, ?_⟩
    exact hresolves.declare haccepted (Interned.answer_inj.mp
      ((hresolves.run_call haccepted).1.symm.trans (Answer.interned_eq_ok_iff.mp hr)))
  · obtain ⟨e, he⟩ := TypeTable.Call.refuses hresolves.agrees.regular.distinct haccepted
    rw [he] at hr
    cases hr

/-- A declaration that has a layout is accepted. -/
theorem addType_of_declaredAs {types : Types}
    (h : Agrees env types.names pointerSize types.table) {d : TypeDecl} {layout : Layout}
    (hd : DeclaredAs env pointerSize d layout) :
    ∃ types', addType types d = .ok types' ∧
      Agrees ((d.name, layout) :: env) types'.names pointerSize types'.table := by
  obtain ⟨kind, size, fields⟩ := layout
  obtain ⟨rfl, rfl, hfields, hfits, hkept⟩ := hd
  obtain ⟨acc, hacc, hresolves⟩ := (resolves_nil h).addFields hfields
  have haccepted := (hresolves.accepted_iff d.kind d.name d.size.toNat).mpr ⟨hfits, hkept⟩
  have hdeclared := hresolves.declare haccepted rfl
  refine ⟨⟨_, _⟩, ?_, hdeclared⟩
  rw [addType_eq, hacc]
  change ((TypeTable.Call.run _ _).interned >>= _) = _
  rw [(hresolves.run_call haccepted).1]
  rfl

/-- Declarations that were accepted declare something, and the table agrees with it. -/
theorem declares_of_addTypes {types types' : Types}
    (h : Agrees env types.names pointerSize types.table) {decls : List TypeDecl}
    (hok : decls.foldlM addType types = .ok types') :
    ∃ env', Declares pointerSize env decls env' ∧
      Agrees env' types'.names pointerSize types'.table := by
  induction decls generalizing env types with
  | nil =>
    cases hok
    exact ⟨env, .nil, h⟩
  | cons d rest ih =>
    rw [List.foldlM_cons] at hok
    obtain ⟨next, hnext, hok⟩ := bind_eq_ok hok
    obtain ⟨layout, hd, hagrees⟩ := declaredAs_of_addType h hnext
    obtain ⟨env', hrest, hlast⟩ := ih hagrees hok
    exact ⟨env', .cons hd hrest, hlast⟩

/-- Declarations that declare something are accepted. -/
theorem addTypes_of_declares {types : Types}
    (h : Agrees env types.names pointerSize types.table) {decls : List TypeDecl}
    {env' : Declarations} (hdecls : Declares pointerSize env decls env') :
    ∃ types', decls.foldlM addType types = .ok types' ∧
      Agrees env' types'.names pointerSize types'.table := by
  induction hdecls generalizing types with
  | nil => exact ⟨types, rfl, h⟩
  | cons hd _ ih =>
    obtain ⟨next, hnext, hagrees⟩ := addType_of_declaredAs h hd
    obtain ⟨types', hok, hlast⟩ := ih hagrees
    refine ⟨types', ?_, hlast⟩
    rw [List.foldlM_cons, hnext]
    exact hok

end Description

end TypeRecovery
