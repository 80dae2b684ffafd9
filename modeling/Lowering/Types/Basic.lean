import Lowering.Tree.Text
import Lowering.Types.Primitive
/-!
# Resolved types

A `TypeRef` is a built-in type or a structure behind some pointers. Values of a structure are held by their address, so
every place that holds one carries a pointer more than was written (`TypeRef.lowered`). A structure behind exactly one
pointer is *linear*: it is the structure's value, and its storage is handed over or copied, never shared. Behind more
pointers it is an ordinary pointer.
-/

namespace Lowering

/-- A structure: its place in the catalog, its name, and the name it has in code. -/
structure StructureRef where
  id : Nat
  name : String
  represent : String
deriving DecidableEq, Repr

def StructureRef.irType (s : StructureRef) : IR.Ty := ⟨.struct s.represent, 0⟩

/-- What a type is behind all pointers. -/
inductive TypeHead where
  | primitive (kind : Primitive)
  | struct (ref : StructureRef)
deriving DecidableEq, Repr

/-- A type behind `depth` pointers. -/
structure TypeRef where
  head : TypeHead
  depth : Nat
deriving DecidableEq, Repr

namespace TypeRef

def primitive (kind : Primitive) : TypeRef := ⟨.primitive kind, 0⟩

instance : Inhabited TypeRef := ⟨primitive .void⟩

/-- No depth goes beyond this one. -/
def depthLimit : Nat := 0xffffffffffffffff

/-- A type behind more or fewer pointers; the depth stops at zero and at the limit. -/
def offset (t : TypeRef) (amount : Int) : TypeRef :=
  { t with depth := min depthLimit (t.depth + amount).toNat }

/-- The type of a place that holds a value of a written type: structures are held by their address. -/
def lowered (t : TypeRef) : TypeRef :=
  match t.head with
  | .primitive _ => t
  | .struct _ => t.offset 1

/-- The structure that a linear type is the value of. -/
def linear? (t : TypeRef) : Option StructureRef :=
  match t.head with
  | .struct ref => if t.depth = 1 then some ref else none
  | .primitive _ => none

def isLinear (t : TypeRef) : Bool := t.linear?.isSome

/-- The built-in type of values that are not behind a pointer. -/
def primitive? (t : TypeRef) : Option Primitive :=
  match t.head with
  | .primitive kind => if t.depth = 0 then some kind else none
  | .struct _ => none

/-- The structure of a type, behind any number of pointers. -/
def structure? (t : TypeRef) : Option StructureRef :=
  match t.head with
  | .struct ref => some ref
  | .primitive _ => none

def isVoid (t : TypeRef) : Bool := t.primitive? == some .void

/-- The type in code of the memory that holds a value. -/
def storageType (t : TypeRef) : IR.Ty :=
  match t.head with
  | .primitive kind => ⟨kind.irBase, t.depth⟩
  | .struct ref => ⟨.struct ref.represent, t.depth - 1⟩

/-- The type in code of a value. A linear value is the address of its storage. -/
def irType (t : TypeRef) : IR.Ty :=
  if t.isLinear then t.storageType.pointerTo else t.storageType

/-- The text of a type as it is written: the pointer that values of structures carry is not shown. -/
def text (t : TypeRef) : String :=
  match t.head with
  | .primitive kind => marked t.depth kind.name
  | .struct ref => marked (t.depth - 1) ref.name

def texts (types : List TypeRef) : String := commaSeparated (types.map text)

end TypeRef

end Lowering
