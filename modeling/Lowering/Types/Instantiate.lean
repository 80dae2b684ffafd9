import Lowering.Types.Catalog
/-!
# Making the instances of templates that a written type needs

An instance is made for every list of arguments a template is used with, and then for every template that the fields of
the new instance use. A template can ask for ever larger instances of itself, so the nesting is limited.
-/

namespace Lowering

/-- Steps that change a catalog. What was changed before a failure stays. -/
abbrev Cataloging := EStateM Diagnostic Catalog

namespace Cataloging

/-- A question about the catalog that may fail. -/
def ask {α : Type} (question : Catalog → Except Diagnostic α) : Cataloging α := do
  match question (← get) with
  | .ok a => return a
  | .error d => throw d

end Cataloging

namespace Catalog

/-- How deep templates may ask for templates. -/
def nestingLimit : Nat := 32

def instanceName (template : String) (arguments : List TypeRef) : String :=
  applied template (arguments.map TypeRef.text)

def addInstance (c : Catalog) (id : Nat) (template : Template) (arguments : List TypeRef) : Catalog :=
  let source := template.source
  let name := source.name.symbol
  let represent := s!"struct.{name}.{Base36.numeral c.fileId}.{Base36.numeral template.instances.length}"
  let bindings := Bindings.ofPairs ((source.parameters.map Identifier.symbol).zip arguments)
  let entry := (arguments, c.structures.length)
  { c.addStructure (instanceName name arguments) represent source bindings with
    templates := c.templates.set id { template with instances := template.instances ++ [entry] } }

/-- Makes the instance of a template for a written type whose arguments are already made. `deeper` makes the instances
its fields need. -/
def makeInstance (deeper : Bindings → TypeName → Cataloging Unit) (bindings : Bindings) (ty : TypeName) (id : Nat) :
    Cataloging Unit := do
  let arguments ← Cataloging.ask fun c => c.resolveArguments bindings ty.arguments
  let some template := (← get).templates[id]? | return
  let source := template.source
  if arguments.length ≠ source.parameters.length then
    throw (.error (.unresolvableTemplate ty.text) ty.span)
  if (template.instances.lookup arguments).isSome then
    return
  modify fun c => c.addInstance id template arguments
  let inner := Bindings.ofPairs ((source.parameters.map Identifier.symbol).zip arguments)
  source.fields.forM fun field => deeper inner field.ty

mutual

/-- Makes the instances that a written type needs, where `deeper` does so one level further down, if there is one. -/
def walk (deeper : Option (Bindings → TypeName → Cataloging Unit)) (bindings : Bindings) :
    TypeName → Cataloging Unit
  | ⟨depth, name, arguments, span⟩ => do
    match (← get).template? name.symbol, deeper with
    | none, _ => walkArguments deeper bindings arguments
    | some _, none => throw (.error (.templateDepth name.symbol) span)
    | some (id, _), some deeper =>
      (arguments.filterMap TemplateArgument.type?).forM (deeper bindings)
      makeInstance deeper bindings ⟨depth, name, arguments, span⟩ id

def walkArguments (deeper : Option (Bindings → TypeName → Cataloging Unit)) (bindings : Bindings) :
    List TemplateArgument → Cataloging Unit
  | [] => return
  | .type ty :: rest => do
    walk deeper bindings ty
    walkArguments deeper bindings rest
  | .constant _ :: rest => walkArguments deeper bindings rest

end

/-- Makes the instances that a written type needs, `levels` deep. -/
def instantiateWithin : (levels : Nat) → Bindings → TypeName → Cataloging Unit
  | 0 => walk none
  | levels + 1 => walk (some (instantiateWithin levels))

/-- Makes the instances that a written type needs. -/
def instantiate (bindings : Bindings) (ty : TypeName) : Cataloging Unit :=
  instantiateWithin (nestingLimit + 1) bindings ty

end Catalog

end Lowering
