import Lowering.Diagnostic.Basic
import Lowering.Text.Base36
/-!
# The types of a unit: structures, structure templates, and the instances of templates

* `Catalog.declare` enters a structure or a template under its name.
* `Catalog.resolve` finds the type that a written type stands for. It never changes the catalog: an instance that was
  not made before is an error.
-/

namespace Lowering

structure Field where
  name : String
  ty : TypeRef
deriving DecidableEq, Repr

/-- The fields of a structure in order, and their size together. -/
structure Layout where
  fields : List Field
  size : Nat
deriving DecidableEq, Repr

namespace Layout

/-- The position and the type of the field of a name. -/
def named? (l : Layout) (name : String) : Option (Nat × TypeRef) := do
  let index ← l.fields.findIdx? fun f => f.name == name
  let field ← l.fields[index]?
  return (index, field.ty)

/-- The position and the type of the field at a position. -/
def at? (l : Layout) (index : Nat) : Option (Nat × TypeRef) := do
  let field ← l.fields[index]?
  return (index, field.ty)

end Layout

/-- What template parameters stand for, as written types. Of two entries for one name the first counts. -/
abbrev Bindings := List (String × TypeRef)

/-- Bindings from pairs in order; of two pairs for one name the last counts. -/
def Bindings.ofPairs (pairs : List (String × TypeRef)) : Bindings := pairs.reverse

/-- How far a structure has come. A `layout` and being `broken` are noted in two places, and nothing in the type keeps
them apart (`Catalog.Sound.single` does). -/
structure Status where
  /-- Set when the structure is linked. -/
  layout : Option Layout := none
  /-- Set when linking the structure has failed. -/
  broken : Bool := false
deriving DecidableEq, Repr

namespace Status

/-- Linking was not tried yet. -/
abbrev pending : Status := {}

/-- Notes a layout, unless there is one. -/
def withLayout (layout : Layout) (status : Status) : Status := { status with layout := status.layout.or (some layout) }

def asBroken (status : Status) : Status := { status with broken := true }

end Status

/-- A structure or an instance of a template. -/
structure Structure where
  ref : StructureRef
  source : StructureDefinition
  /-- What the parameters of its template stand for. -/
  bindings : Bindings
  status : Status := .pending

namespace Structure

def layout? (s : Structure) : Option Layout := s.status.layout

def isLinked (s : Structure) : Bool := s.layout?.isSome

def hasFailed (s : Structure) : Bool := s.status.broken

/-- The declaration of a linked structure in code. -/
def declaration (s : Structure) : Except InternalError IR.StructDeclaration :=
  match s.layout? with
  | some layout => .ok ⟨s.ref.represent, layout.fields.map fun f => f.ty.storageType⟩
  | none => .error (.unlinkedStructure s.ref.name)

end Structure

/-- A structure template, and the places of its instances by the arguments they were made with. -/
structure Template where
  source : StructureDefinition
  instances : List (List TypeRef × Nat) := []

/-- What a name of a type stands for: a structure or a template, by its place. -/
inductive Named where
  | struct (id : Nat)
  | template (id : Nat)
deriving DecidableEq, Repr

/-- The types of a unit besides the built-in ones. -/
structure Catalog where
  /-- Keeps the names in code of different units apart. -/
  fileId : Nat
  names : List (String × Named) := []
  structures : List Structure := []
  templates : List Template := []

namespace Catalog

variable (c : Catalog)

def structure? (id : Nat) : Option Structure := c.structures[id]?

def template? (name : String) : Option (Nat × Template) :=
  match c.names.lookup name with
  | some (.template id) => (id, ·) <$> c.templates[id]?
  | _ => none

def layout? (ref : StructureRef) : Option Layout := (c.structure? ref.id).bind Structure.layout?

/-- The bytes a value of a type takes; `none` for a structure that is not linked. -/
def sizeOf? (ty : TypeRef) : Option Nat :=
  match ty.linear?, ty.primitive? with
  | some ref, _ => Layout.size <$> c.layout? ref
  | none, some kind => some kind.size
  | none, none => some 8

def addStructure (name represent : String) (source : StructureDefinition) (bindings : Bindings) : Catalog :=
  let ref : StructureRef := ⟨c.structures.length, name, represent⟩
  { c with structures := c.structures ++ [{ ref, source, bindings }] }

/-- Enters a structure or a template under its name. -/
def declare (definition : StructureDefinition) : Except Diagnostic Catalog :=
  let name := definition.name.symbol
  if (Primitive.ofName? name).isSome || (c.names.lookup name).isSome then
    .error (.error (.duplicateType name) definition.name.span)
  else if definition.parameters.isEmpty then
    let represent :=
      if definition.external then s!"struct.{name}" else s!"struct.{name}.{Base36.numeral c.fileId}"
    .ok { c.addStructure name represent definition [] with names := (name, .struct c.structures.length) :: c.names }
  else
    .ok { c with
      templates := c.templates ++ [{ source := definition }]
      names := (name, .template c.templates.length) :: c.names }

/-! ### Resolving written types -/

/-- A structure that can be used, at a depth. -/
def use (s : Structure) (depth : UInt64) (span : Span) : Except Diagnostic TypeRef :=
  if s.hasFailed then .error (.error (.invalidType s.ref.name) span) else .ok ⟨.struct s.ref, depth.toNat⟩

def resolveName (bindings : Bindings) (ty : TypeName) : Except Diagnostic TypeRef :=
  let name := ty.name.symbol
  match bindings.lookup name, Primitive.ofName? name with
  | some bound, _ => .ok (bound.offset ty.depth.toInt64.toInt)
  | none, some kind => .ok ⟨.primitive kind, ty.depth.toNat⟩
  | none, none =>
    match c.names.lookup name with
    | none => .error (.error (.unknownType ty.text) ty.span)
    | some (.struct id) =>
      match c.structure? id with
      | some s => use s ty.depth ty.span
      | none => .error (.error (.unknownType ty.text) ty.span)
    | some (.template _) => .error (.error (.unresolvableTemplate ty.text) ty.span)

/-- The instance of a template for some arguments. -/
def instance? (template : Template) (arguments : List TypeRef) : Option Structure :=
  (template.instances.lookup arguments).bind c.structure?

mutual

/-- The type that a written type stands for, at its written depth. -/
def resolve (bindings : Bindings) : TypeName → Except Diagnostic TypeRef
  | ⟨depth, name, [], span⟩ => c.resolveName bindings ⟨depth, name, [], span⟩
  | ⟨depth, name, first :: rest, span⟩ =>
    let written : TypeName := ⟨depth, name, first :: rest, span⟩
    match c.names.lookup name.symbol with
    | none => .error (.error (.unknownType written.text) span)
    | some (.struct _) => .error (.error (.unresolvableTemplate written.text) span)
    | some (.template _) => do
      let argument ← resolveArgument bindings first
      let arguments ← resolveArguments bindings rest
      let found := do
        let (_, template) ← c.template? name.symbol
        c.instance? template (argument :: arguments)
      match found with
      | some s => use s depth span
      | none => .error (.error (.unresolvableTemplate written.text) span)

def resolveArgument (bindings : Bindings) : TemplateArgument → Except Diagnostic TypeRef
  | .type ty => resolve bindings ty
  | .constant constant => .error (.error (.unresolvableTemplate constant.value.text) constant.span)

def resolveArguments (bindings : Bindings) : List TemplateArgument → Except Diagnostic (List TypeRef)
  | [] => .ok []
  | first :: rest => do
    let argument ← resolveArgument bindings first
    let arguments ← resolveArguments bindings rest
    return argument :: arguments

end

/-- The type of a place that holds a value of a written type. -/
def resolveValue (bindings : Bindings) (ty : TypeName) : Except Diagnostic TypeRef :=
  TypeRef.lowered <$> c.resolve bindings ty

end Catalog

end Lowering
