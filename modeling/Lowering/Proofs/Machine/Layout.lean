import Lowering.Proofs.Machine.Memory
import Lowering.Proofs.Machine.Size
import Lowering.Proofs.Types.Catalog
/-!
# The machine lays structures out as the catalog does

A module that declares the structures of a catalog, each under a name of its own, gives every type the size that the
catalog gives it, as long as the size fits a word; and a field lies behind the fields before it.
-/

namespace Lowering

/-- The address of a field, where the end of its structure is a word. -/
theorem elementAddress_bounded {index n : Nat} {zero j : Int64}
    (hd : m.structure? name = some d) (hfield : d.fields[index]? = some field) (hzero : zero.toInt = 0)
    (hj : j.toInt = index) (hsize : sizeOf m ⟨.struct name, 0⟩ = .ok n) (hstop : address.toNat + n < 2 ^ 64) :
    ∃ offset target, totalSize (sizeOf m) 0 (d.fields.take index) = .ok offset ∧
      elementAddress m address ⟨.struct name, 0⟩ [.ok zero, .ok j] = .ok target ∧
      target.toNat = address.toNat + offset := by
  obtain ⟨d', hd', htotal, -⟩ := sizeOf_struct hsize
  cases hd.symm.trans hd'
  obtain ⟨offset, size, hoffset, -, hle⟩ := totalSize_field htotal hfield
  have htgt : address.toNat + offset < 2 ^ 64 := by omega
  refine ⟨offset, UInt64.ofNat (address.toNat + offset), hoffset, ?_, UInt64.toNat_ofNat_of_lt' htgt⟩
  rw [elementAddress_field hd hfield hzero hj, hsize]
  simp only [bind, Except.bind, hoffset, Memory.fit_of_lt htgt]
  rfl

/-- A module declares the structures of a catalog that are laid out, each under a name of its own. -/
structure Catalog.DeclaredIn (c : Catalog) (m : IR.Module) : Prop where
  found : ∀ ref layout, c.Lists ref → c.layout? ref = some layout →
    m.structure? ref.represent = some ⟨ref.represent, layout.fields.map fun f => f.ty.storageType⟩
  count : c.linkedCount ≤ m.structures.length

/-! ### Sizes -/

namespace Catalog

variable {c : Catalog} {m : IR.Module}

theorem typeSize_storageType {structSize} {t : TypeRef} (ht : c.Usable t)
    (h : ∀ ref layout, t.linear? = some ref → c.layout? ref = some layout →
      structSize ref.represent = Memory.fit layout.size) :
    typeSize structSize t.storageType = Memory.fit ((c.sizeOf? t).getD 0) := by
  obtain ⟨head, depth⟩ := t
  rcases head with kind | ref
  · cases depth with
    | zero => cases kind <;> rfl
    | succ => rfl
  match depth with
  | 0 => exact absurd rfl (ht.deep ref rfl)
  | 1 =>
    obtain ⟨layout, hlayout⟩ := ht.linked ref rfl
    rw [sizeOf?]
    simp only [show TypeRef.linear? ⟨.struct ref, 1⟩ = some ref from rfl, hlayout]
    exact h ref layout rfl hlayout
  | depth + 2 => rfl

theorem structSize_eq (hc : c.Sound) (hm : c.DeclaredIn m) (hrank : c.Ranked rank)
    (href : c.Lists ref) (hlayout : c.layout? ref = some layout) (hnesting : rank ref.id < nesting) :
    structSize m nesting ref.represent = Memory.fit layout.size := by
  induction nesting generalizing ref layout with
  | zero => omega
  | succ nesting ih =>
    have hlaidOut := hc.laidOut ref layout hlayout
    rw [structSize, hm.found ref layout href hlayout]
    dsimp only
    rw [totalSize_eq (fun f => (c.sizeOf? f.ty).getD 0) (fun f hf => ?_) (by decide), Nat.zero_add, hlaidOut.size]
    · rfl
    refine typeSize_storageType (hlaidOut.usable f hf) fun inner layout' hinner hlayout' => ?_
    have hlists := (hlaidOut.usable f hf).known inner (structure?_of_linear? hinner)
    exact ih hlists hlayout' (Nat.lt_of_lt_of_le ((hrank ref layout hlayout).2 f hf inner hinner)
      (Nat.le_of_lt_succ hnesting))

theorem sizeOf_irType (hc : c.Sound) (hm : c.DeclaredIn m) (href : c.Lists ref)
    (hlayout : c.layout? ref = some layout) : Lowering.sizeOf m ref.irType = Memory.fit layout.size := by
  obtain ⟨rank, hrank⟩ := hc.ranked
  refine structSize_eq hc hm hrank href hlayout ?_
  exact Nat.lt_succ_of_lt (Nat.lt_of_lt_of_le (hrank ref layout hlayout).1 hm.count)

/-- **The size of a type**, where its structure is laid out. -/
theorem sizeOf_storageType (hc : c.Sound) (hm : c.DeclaredIn m) {t : TypeRef} (ht : c.Usable t) :
    Lowering.sizeOf m t.storageType = Memory.fit ((c.sizeOf? t).getD 0) := by
  refine typeSize_storageType ht fun ref layout href hlayout => ?_
  exact sizeOf_irType hc hm (ht.known ref (structure?_of_linear? href)) hlayout

theorem totalSize_take (hc : c.Sound) (hm : c.DeclaredIn m) (h : c.LaidOut layout) (index : Nat) :
    totalSize (Lowering.sizeOf m) 0 ((layout.fields.map fun f => f.ty.storageType).take index) =
      Memory.fit (c.fieldsSize (layout.fields.take index)) := by
  rw [← List.map_take, totalSize_eq (fun f => (c.sizeOf? f.ty).getD 0)
    (fun f hf => sizeOf_storageType hc hm (h.usable f (List.mem_of_mem_take hf))) (by decide), Nat.zero_add]
  rfl

/-- **The place of a field**: behind the fields before it. -/
theorem elementAt_struct (hc : c.Sound) (hm : c.DeclaredIn m) (href : c.Lists ref)
    (hlayout : c.layout? ref = some layout) {index : Nat} (hfield : layout.fields[index]? = some field) {i : Int64}
    (hi : i.toInt = index) :
    elementAt m ref.irType i = (·, field.ty.storageType) <$> Memory.fit (c.fieldsSize (layout.fields.take index)) := by
  have hfield : (layout.fields.map fun f => f.ty.storageType)[index]? = some field.ty.storageType := by
    simp_all
  rw [← totalSize_take hc hm (hc.laidOut ref layout hlayout)]
  exact elementAt_field (hm.found ref layout href hlayout) hfield hi

/-- **The address of a field**, where the end of its structure is a word. -/
theorem elementAddress_struct (hc : c.Sound) (hm : c.DeclaredIn m) (href : c.Lists ref)
    (hlayout : c.layout? ref = some layout) {index : Nat} (hfield : layout.fields[index]? = some field) {zero i : Int64}
    (hzero : zero.toInt = 0) (hi : i.toInt = index) (hstop : address.toNat + layout.size < 2 ^ 64) :
    elementAddress m address ref.irType [.ok zero, .ok i] =
      .ok (UInt64.ofNat (address.toNat + c.fieldsSize (layout.fields.take index))) := by
  have hsize := (sizeOf_irType hc hm href hlayout).trans (Memory.fit_of_lt ((Nat.le_add_left ..).trans_lt hstop))
  have hfield : (layout.fields.map fun f => f.ty.storageType)[index]? = some field.ty.storageType := by
    simp_all
  obtain ⟨offset, target, hoffset, htgt, hword⟩ :=
    elementAddress_bounded (hm.found ref layout href hlayout) hfield hzero hi hsize hstop
  rw [totalSize_take hc hm (hc.laidOut ref layout hlayout)] at hoffset
  obtain ⟨rfl, -⟩ := Memory.fit_eq_ok hoffset
  rw [← hword, UInt64.ofNat_toNat]
  exact htgt

end Catalog

end Lowering
