import Lowering.IR.Basic
/-!
# From the code of a body to a procedure

While a body is lowered its locals have provisional numbers. Flattening numbers them anew without gaps: first the
parameters, then every label and register in the order of definition. It cuts the code into blocks at its labels, checks
that each block ends in exactly one terminator, and notes which blocks lead to which.
-/

namespace Lowering.IR

/-- Why code is not the body of a procedure. The numbers of blocks are the new ones. -/
inductive Malformation where
  /-- A block does not end in a terminator. -/
  | unterminatedBlock (label : Local)
  /-- An instruction stands behind the terminator of a block. -/
  | instructionAfterTerminator (label : Local)
  /-- Instructions stand before the first label. -/
  | missingEntryLabel
  /-- A local is defined twice. -/
  | duplicateLocal (id : Local)
  /-- A local is used and never defined, or a label is wanted and there is none. -/
  | undefinedLocal (id : Local)
deriving DecidableEq, Repr

/-- The locals of a procedure in the order of definition; the new number of a local is its place. -/
abbrev Numbering := List Local

namespace Numbering

/-- The locals that parameters and code define, in order. -/
def collect (parameters : List Argument) (body : Code) : Numbering :=
  parameters.filterMap (fun a => a.value.register?) ++ body.filterMap Instruction.defined?

/-- The first local that is defined a second time. -/
def repeated? : List Local → Numbering → Option Local
  | _, [] => none
  | seen, id :: rest => if seen.contains id then some id else repeated? (id :: seen) rest

variable (numbering : Numbering)

def renumber (id : Local) : Except Malformation Local :=
  match numbering.idxOf? id with
  | some new => .ok new
  | none => .error (.undefinedLocal id)

def operand : Operand → Except Malformation Operand
  | .register id => .register <$> renumber numbering id
  | other => .ok other

def argument (a : Argument) : Except Malformation Argument :=
  Argument.mk a.ty <$> operand numbering a.value

def source (s : Local × Operand) : Except Malformation (Local × Operand) := do
  let label ← renumber numbering s.1
  let value ← operand numbering s.2
  return (label, value)

def value : Value → Except Malformation Value
  | .alloc ty => .ok (.alloc ty)
  | .load ty address => .load ty <$> argument numbering address
  | .elementPointer pointee base indices result => do
    let base ← argument numbering base
    let indices ← indices.mapM (argument numbering)
    return .elementPointer pointee base indices result
  | .binary operator mode ty lhs rhs => do
    let lhs ← operand numbering lhs
    let rhs ← operand numbering rhs
    return .binary operator mode ty lhs rhs
  | .compare predicate ty lhs rhs => do
    let lhs ← operand numbering lhs
    let rhs ← operand numbering rhs
    return .compare predicate ty lhs rhs
  | .bitcast value target => do
    let value ← argument numbering value
    return .bitcast value target
  | .convert conversion value target => do
    let value ← argument numbering value
    return .convert conversion value target
  | .sizeOf ty => .ok (.sizeOf ty)
  | .call returnType callee arguments => .call returnType callee <$> arguments.mapM (argument numbering)
  | .phi ty sources => .phi ty <$> sources.mapM (source numbering)

def instruction : Instruction → Except Malformation Instruction
  | .label id => .label <$> renumber numbering id
  | .set destination v => do
    let destination ← renumber numbering destination
    let v ← value numbering v
    return .set destination v
  | .store address v => do
    let address ← argument numbering address
    let v ← argument numbering v
    return .store address v
  | .call returnType callee arguments => .call returnType callee <$> arguments.mapM (argument numbering)
  | .branch condition positive negative => do
    let condition ← argument numbering condition
    let positive ← renumber numbering positive
    let negative ← renumber numbering negative
    return .branch condition positive negative
  | .jump target => .jump <$> renumber numbering target
  | .ret none => .ok (.ret none)
  | .ret (some v) => do
    let v ← argument numbering v
    return .ret (some v)

end Numbering

/-- Code that is being cut into blocks: the blocks so far, last first, and whether the last of them has ended. -/
structure Cut where
  blocks : List Block := []
  ended : Bool := true
deriving DecidableEq, Repr

namespace Cut

def lastLabel (c : Cut) : Local :=
  match c.blocks with
  | [] => 0
  | b :: _ => b.label

def push (c : Cut) : Instruction → Except Malformation Cut
  | .label id =>
    if c.ended then .ok ⟨⟨id, [], []⟩ :: c.blocks, false⟩ else .error (.unterminatedBlock c.lastLabel)
  | i =>
    match c.blocks with
    | [] => .error .missingEntryLabel
    | b :: rest =>
      if c.ended then .error (.instructionAfterTerminator b.label)
      else .ok ⟨{ b with instructions := b.instructions ++ [i] } :: rest, i.isTerminator⟩

end Cut

def cutBlocks (numbering : Numbering) : Cut → Code → Except Malformation (List Block)
  | cut, [] => if cut.ended then .ok cut.blocks.reverse else .error (.unterminatedBlock cut.lastLabel)
  | cut, i :: rest => do
    let i ← numbering.instruction i
    let cut ← cut.push i
    cutBlocks numbering cut rest

/-- The blocks together with their predecessors. -/
def connect (blocks : List Block) : Except Malformation (List Block) :=
  match (blocks.flatMap Block.successors).find? (fun id => blocks.all fun b => b.label != id) with
  | some id => .error (.undefinedLocal id)
  | none =>
    .ok (blocks.map fun b =>
      { b with predecessors := (blocks.filter fun p => p.successors.contains b.label).map Block.label })

def flatten (name : String) (returnType : Ty) (parameters : List Argument) (external : Bool) (body : Code) :
    Except Malformation Procedure := do
  let numbering := Numbering.collect parameters body
  if let some id := Numbering.repeated? [] numbering then
    throw (.duplicateLocal id)
  let parameters ← parameters.mapM numbering.argument
  let blocks ← cutBlocks numbering {} body
  let blocks ← connect blocks
  return ⟨name, returnType, parameters, external, blocks⟩

end Lowering.IR
