import Lowering.Proofs.Machine.Layout
import Lowering.Proofs.Unit.Compile
/-!
# The compiler and the machine agree on layouts

The catalog of a unit sizes structures by the types of their fields, the machine by the declarations in the module.
Where the names of structures differ, both come to the same sizes, and a field lies where the catalog puts it.
-/

namespace Lowering

open List
open IR (StructDeclaration)

theorem compileUnit_declaredIn (hm : (compileUnit fileId options u).1 = .ok m)
    (hnames : (m.structures.map StructDeclaration.name).Nodup) : (typesOf fileId u).DeclaredIn m := by
  obtain ⟨m', hm', hstructures, -⟩ := compileUnit_emits fileId options u
  cases hm.symm.trans hm'
  constructor
  case found =>
    intro ref layout href hlayout
    have hmem := declared_mem href hlayout
    rw [← hstructures] at hmem
    exact IR.Module.structure?_of_mem hnames hmem
  case count =>
    rw [hstructures, length_map, ← countP_eq_length_filter]
    exact le_rfl

namespace Catalog

variable {c : Catalog} {t : TypeRef}

theorem size_lt_of (hbound : 8 < bound)
    (hsizes : ∀ s ∈ c.structures, ∀ layout, s.layout? = some layout → layout.size < bound)
    (hsize : c.sizeOf? t = some n) : n < bound := by
  unfold sizeOf? at hsize
  split at hsize
  · next ref _ =>
    obtain ⟨layout, hlayout, rfl⟩ := Option.map_eq_some_iff.1 hsize
    obtain ⟨s, hs, hlayout⟩ := Option.bind_eq_some_iff.1 hlayout
    exact hsizes s (mem_of_getElem? hs) layout hlayout
  · next kind _ _ =>
    cases hsize
    exact Nat.lt_of_le_of_lt (by cases kind <;> decide) hbound
  · grind

/-- A size fits a word if the sizes of structures do. -/
theorem size_lt (hsizes : ∀ s ∈ c.structures, ∀ layout, s.layout? = some layout → layout.size < 2 ^ 64)
    (hsize : c.sizeOf? t = some n) : n < 2 ^ 64 :=
  size_lt_of (by decide) hsizes hsize

theorem LaidOut.fieldsSize_take_le (h : c.LaidOut layout) (index : Nat) :
    c.fieldsSize (layout.fields.take index) ≤ layout.size := by
  have hsplit : c.fieldsSize layout.fields =
      c.fieldsSize (layout.fields.take index) + c.fieldsSize (layout.fields.drop index) := by
    rw [fieldsSize, fieldsSize, fieldsSize, ← sum_append, ← map_append, take_append_drop]
  simp [h.size, hsplit]

theorem usable_lowered (hc : c.Sound)
    (h : ∀ ref, t.structure? = some ref → ∃ s ∈ c.structures, s.ref = ref ∧ s.isLinked = true) :
    c.Usable t.lowered := by
  have hplace :
      ∀ ref, t.structure? = some ref → ∃ s, c.structure? ref.id = some s ∧ s.ref = ref ∧ s.isLinked = true := by
    intro ref href
    obtain ⟨s, hs, rfl, hlinked⟩ := h ref href
    obtain ⟨id, hid⟩ := mem_iff_getElem?.1 hs
    exact ⟨s, by rw [hc.placed id s hid]; exact hid, rfl, hlinked⟩
  refine ⟨lowered_knows fun ref href => ?_, fun _ => lowered_deep, fun ref href => ?_⟩
  · obtain ⟨s, hs, hsref, -⟩ := hplace ref href
    exact ⟨s, hs, hsref⟩
  · have hstructure : t.structure? = some ref := by
      have := structure?_of_linear? href
      unfold TypeRef.lowered at this
      split at this <;> exact this
    obtain ⟨s, hs, -, hlinked⟩ := hplace ref hstructure
    obtain ⟨layout, hlayout⟩ := Option.isSome_iff_exists.1 hlinked
    simp [layout?, *]

end Catalog

/-- **The compiler and the machine agree on layouts.** For a structure `s` that is laid out, `sizeOf` in the module `m`
gives `layout.size`, and `elementAt` puts a field behind all fields before it. For every type `t` that a value can have,
with its structure laid out, `sizeOf` gives what `Catalog.sizeOf?` does. -/
theorem layout_agrees {fileId : Nat} {options : Options} {u : SourceUnit} {m : IR.Module}
    (hm : (compileUnit fileId options u).1 = .ok m) (hnames : (m.structures.map StructDeclaration.name).Nodup)
    (hsizes : ∀ s ∈ (typesOf fileId u).structures, ∀ layout, s.layout? = some layout → layout.size < 2 ^ 64) :
    (∀ s ∈ (typesOf fileId u).structures, ∀ layout, s.layout? = some layout →
      sizeOf m s.ref.irType = .ok layout.size ∧
      ∀ (index : Nat) (i : Int64) (ty : TypeRef), i.toInt = index → layout.at? index = some (index, ty) →
        ∃ sizes : List Nat, sizes.length = index ∧
          (∀ j < index, ((layout.at? j).bind fun term => (typesOf fileId u).sizeOf? term.2) = sizes[j]?) ∧
          elementAt m s.ref.irType i = .ok (sizes.sum, ty.storageType)) ∧
    ∀ t : TypeRef,
      (∀ ref, t.structure? = some ref → ∃ s ∈ (typesOf fileId u).structures, s.ref = ref ∧ s.isLinked = true) →
      ∃ size, (typesOf fileId u).sizeOf? t.lowered = some size ∧ sizeOf m t.lowered.storageType = .ok size := by
  have hc := (typesOf_sound fileId u).1
  have hdeclared := compileUnit_declaredIn hm hnames
  generalize typesOf fileId u = c at *
  refine ⟨fun s hs layout hlayout => ?_, fun t ht => ?_⟩
  · obtain ⟨id, hid⟩ := mem_iff_getElem?.1 hs
    have hlists : c.Lists s.ref := Catalog.lists_ref hc.placed hid
    have hlayout' : c.layout? s.ref = some layout := by
      rw [Catalog.layout?, hc.placed id s hid, Catalog.structure?, hid]
      exact hlayout
    have hsize := hsizes s hs layout hlayout
    refine ⟨?_, fun index i ty hi hterm => ?_⟩
    · have husable : c.Usable ⟨.struct s.ref, 1⟩ := by
        refine ⟨fun ref href => ?_, fun _ _ => by simp, fun ref href => ?_⟩
        · cases href
          exact hlists
        · cases href
          exact ⟨layout, hlayout'⟩
      have hmachine := Catalog.sizeOf_storageType hc hdeclared husable
      have hcatalog : c.sizeOf? ⟨.struct s.ref, 1⟩ = some layout.size := by
        rw [Catalog.sizeOf?]
        simp only [show TypeRef.linear? ⟨.struct s.ref, 1⟩ = some s.ref from rfl, hlayout']
        rfl
      rw [hcatalog, Option.getD_some, Memory.fit_of_lt hsize] at hmachine
      exact hmachine
    · obtain ⟨field, hfield, hterm⟩ := Option.bind_eq_some_iff.1 hterm
      cases hterm
      have hlaidOut := hc.laidOut s.ref layout hlayout'
      have hindex : index < layout.fields.length := (List.getElem?_eq_some_iff.1 hfield).1
      refine ⟨(layout.fields.take index).map fun f => (c.sizeOf? f.ty).getD 0, ?_, fun j hj => ?_, ?_⟩
      · grind
      · have hj' : layout.fields[j]? = some layout.fields[j] := List.getElem?_eq_getElem (by omega)
        obtain ⟨size, hsize⟩ := (hlaidOut.usable _ (mem_of_getElem? hj')).exists_size
        simp [Layout.at?, *]
      · rw [Catalog.elementAt_struct hc hdeclared hlists hlayout' hfield hi,
          Memory.fit_of_lt ((hlaidOut.fieldsSize_take_le index).trans_lt hsize)]
        rfl
  · have husable := Catalog.usable_lowered hc ht
    obtain ⟨size, hsize⟩ := husable.exists_size
    refine ⟨size, hsize, ?_⟩
    rw [Catalog.sizeOf_storageType hc hdeclared husable, hsize]
    exact Memory.fit_of_lt (Catalog.size_lt hsizes hsize)

/-- A node holds two boxes by value, an instance of a template each, and a pointer to the next node. -/
def boxesUnit : SourceUnit where
  structures := [
    { name := "Node"
      fields := [
        ⟨"flag", ⟨0, "Box", [.type "bool"], {}⟩, {}⟩,
        ⟨"next", ⟨1, "Node", [], {}⟩, {}⟩,
        ⟨"weight", ⟨0, "Box", [.type "i32"], {}⟩, {}⟩] },
    { name := "Box"
      parameters := ["T"]
      fields := [⟨"held", "T", {}⟩] }]

/-- In the module of `boxesUnit` a node takes 13 bytes, and the last box of it lies at the ninth. -/
theorem layout_agrees_boxesUnit :
    ∃ m, (compileUnit 0 {} boxesUnit).1 = .ok m ∧ (m.structures.map StructDeclaration.name).Nodup ∧
      (∀ s ∈ (typesOf 0 boxesUnit).structures, ∀ layout, s.layout? = some layout → layout.size < 2 ^ 64) ∧
      ∃ s ∈ (typesOf 0 boxesUnit).structures, sizeOf m s.ref.irType = .ok 13 ∧
        ∃ ty, elementAt m s.ref.irType 2 = .ok (9, ty) := by
  obtain ⟨m, hm, hstructures, -⟩ := compileUnit_emits 0 {} boxesUnit
  have hnames : (m.structures.map StructDeclaration.name).Nodup := by
    rw [hstructures]
    decide +kernel
  have hsizes : ∀ s ∈ (typesOf 0 boxesUnit).structures, ∀ layout, s.layout? = some layout → layout.size < 2 ^ 64 := by
    have hall :
        (typesOf 0 boxesUnit).structures.all (fun s => s.layout?.all fun layout => layout.size < 2 ^ 64) = true := by
      decide +kernel
    intro s hs layout hlayout
    have := all_eq_true.1 hall s hs
    rw [hlayout] at this
    simpa using this
  obtain ⟨hstructs, -⟩ := layout_agrees hm hnames hsizes
  have hnode : ∃ s ∈ (typesOf 0 boxesUnit).structures, ∃ layout, s.layout? = some layout ∧ layout.size = 13 ∧
      (∃ ty, layout.at? 2 = some (2, ty)) ∧
      ((layout.at? 0).bind fun term => (typesOf 0 boxesUnit).sizeOf? term.2) = some 1 ∧
      ((layout.at? 1).bind fun term => (typesOf 0 boxesUnit).sizeOf? term.2) = some 8 :=
    ⟨_, .head _, _, rfl, rfl, ⟨_, rfl⟩, rfl, rfl⟩
  obtain ⟨s, hs, layout, hlayout, hsize, ⟨ty, hty⟩, hfirst, hsecond⟩ := hnode
  obtain ⟨hmachine, helement⟩ := hstructs s hs layout hlayout
  obtain ⟨sizes, hlength, hterms, hoffset⟩ := helement 2 2 ty (by decide) hty
  have hsizes' : sizes = [1, 8] := by
    refine ext_getElem? fun j => ?_
    match j with
    | 0 => rw [← hterms 0 (by decide), hfirst]; rfl
    | 1 => rw [← hterms 1 (by decide), hsecond]; rfl
    | j + 2 => rw [List.getElem?_eq_none (by omega), List.getElem?_eq_none (by simp)]
  rw [hsizes'] at hoffset
  exact ⟨m, hm, hnames, hsizes, s, hs, hsize ▸ hmachine, _, hoffset⟩

end Lowering
