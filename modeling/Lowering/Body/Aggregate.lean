import Lowering.Body.Workspace
/-!
# Code for fields and for whole structures

Structures are handled by their address. A field that is a structure itself is its address too; any other field is
loaded when it is read.
-/

namespace Lowering

open IR (Argument Code Instruction Value)

/-- A field that was gone to: the code that finds it, its value or its address, and its type. -/
structure FieldAccess where
  code : Code
  value : Argument
  ty : TypeRef
deriving DecidableEq, Repr

/-- Goes to a field of the structure at `base`. Unless it is read, its address is the result. -/
def accessField (c : Catalog) (ref : StructureRef) (index : Nat) (base : Argument) (reading : Bool) :
    Work FieldAccess := do
  let some layout := c.layout? ref | Work.abort (.unlinkedStructure ref.name)
  let some (_, ty) := layout.at? index | Work.abort (.fieldOutOfRange index)
  let addressType := ty.storageType.pointerTo
  let address ← Work.fresh
  let find : Instruction := .set address (.elementPointer ref.irType base [.i32 0, .i32 index] addressType)
  if reading && !ty.isLinear then
    let value ← Work.fresh
    let load : Instruction := .set value (.load ty.storageType (.register addressType address))
    return ⟨[find, load], .register ty.irType value, ty⟩
  else
    return ⟨[find], .register addressType address, ty⟩

/-- Copies the bytes of the structure at `source` to `destination`. -/
def copyStructure (ref : StructureRef) (destination source : Argument) : Work Code := do
  Work.noteCopy
  let size ← Work.fresh
  let start ← Work.fresh
  let target ← Work.fresh
  return [
    .set size (.sizeOf ref.irType),
    .set start (.bitcast source .bytePointer),
    .set target (.bitcast destination .bytePointer),
    .call .void IR.memcpy [
      .register .bytePointer target,
      .register .bytePointer start,
      .register (.int 64) size,
      ⟨.bool, .bool false⟩]]

/-- Copies the structure at `source` to fresh memory, and gives its address. -/
def cloneStructure (ref : StructureRef) (source : Argument) : Work (Code × Argument) := do
  let storage ← Work.fresh
  let clone : Argument := .register ref.irType.pointerTo storage
  let copy ← copyStructure ref clone source
  return (.set storage (.alloc ref.irType) :: copy, clone)

end Lowering
