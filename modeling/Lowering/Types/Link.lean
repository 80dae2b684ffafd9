import Lowering.Types.Instantiate
/-!
# Laying structures out

The fields of a structure are resolved in order. A structure that is held by value inside another is laid out first, and
meeting a structure again while it is being laid out means that it contains itself.
-/

namespace Lowering.Catalog

def setStatus (c : Catalog) (id : Nat) (status : Status) : Catalog :=
  { c with structures := c.structures.modify id fun s => { s with status } }

/-- Changes the status of the structure at `id`. -/
def mark (c : Catalog) (id : Nat) (change : Status → Status) : Catalog :=
  match c.structure? id with
  | some s => c.setStatus id (change s.status)
  | none => c

/-- Adds a field called `name` of type `ty` to `layout`. Sizes are words: where the sum is none, linking breaks off. -/
def addField (layout : Layout) (name : String) (ty : TypeRef) (span : Span) : Cataloging Layout := do
  let size := layout.size + ((← get).sizeOf? ty).getD 0
  if 0x10000000000000000 ≤ size then
    throw (.error .sizeOverflow span)
  return ⟨layout.fields ++ [⟨name, ty⟩], size⟩

/-- Resolves the fields of a structure behind those of `layout`; `linkInner` lays out the structures among them
first. -/
def linkFields (linkInner : StructureRef → Cataloging Unit) (bindings : Bindings) :
    Layout → List FieldDefinition → Cataloging Layout
  | layout, [] => return layout
  | layout, field :: rest => do
    let name := field.name.symbol
    if layout.fields.any fun f => f.name == name then
      throw (.error (.duplicateField name) field.span)
    let ty ← Cataloging.ask fun c => c.resolveValue bindings field.ty
    if ty.isVoid then
      throw (.error (.invalidVariableType ty) field.ty.span)
    if let some ref := ty.linear? then
      linkInner ref
    linkFields linkInner bindings (← addField layout name ty field.span) rest

/-- Lays out the structure at `id` while those of `stack` are in progress; `linkInner` lays out the structures inside
it, if there is room for more. -/
def linkStructure (linkInner : Option (StructureRef → Cataloging Unit)) (stack : List Nat) (id : Nat) :
    Cataloging Unit := do
  let some s := (← get).structure? id | return
  let circular : Diagnostic := .error (.circularDefinition s.ref.name) s.source.span
  if stack.contains id then
    throw circular
  if s.isLinked then
    return
  if s.hasFailed then
    throw (.error (.invalidType s.ref.name) s.source.span)
  match linkInner with
  | none => throw circular
  | some linkInner =>
    try
      let layout ← linkFields linkInner s.bindings ⟨[], 0⟩ s.source.fields
      modify fun c => c.mark id (.withLayout layout)
    catch d =>
      modify fun c => c.mark id .asBroken
      throw d

/-- Lays out a structure while those of `stack` are in progress; at most `room` more can be. -/
def linkWithin : (room : Nat) → (stack : List Nat) → Nat → Cataloging Unit
  | 0, stack, id => linkStructure none stack id
  | room + 1, stack, id => linkStructure (some fun ref => linkWithin room (id :: stack) ref.id) stack id

/-- Lays out the structure at `id`, unless that was tried before, and tells what is wrong with it. -/
def linkAt (c : Catalog) (id : Nat) : Catalog × Option Diagnostic :=
  match c.structure? id with
  | none => (c, none)
  | some s =>
    if s.isLinked || s.hasFailed then (c, none)
    else
      match linkWithin c.structures.length [] id c with
      | .ok _ c => (c, none)
      | .error d c => (c, some d)

def linkEach : Catalog → List Nat → Catalog × List Diagnostic
  | c, [] => (c, [])
  | c, id :: rest =>
    let (c, problem) := c.linkAt id
    let (c, problems) := linkEach c rest
    (c, problem.toList ++ problems)

/-- Lays out all structures that are pending. Each broken one is told of once. -/
def link (c : Catalog) : Catalog × List Diagnostic :=
  linkEach c (List.range c.structures.length)

end Lowering.Catalog
