import Lowering.Body.Expression
import Lowering.Proofs.Ensures
/-!
# A step that fails does so with an error, never with a mere warning

Whatever cannot be answered about a program is an error in it. So a program without reported errors is one for which
every question was answered.
-/

namespace Lowering

def Cause.isPlain : Cause → Bool
  | .circularDefinition _ | .missingReturn => false
  | _ => true

/-- An error in one place of the program: neither the one that something contains itself, nor the one that a body comes
to its end. -/
def Diagnostic.IsPlain (d : Diagnostic) : Prop := d.isError = true ∧ d.cause.isPlain = true

theorem Diagnostic.IsPlain.not_circular {d : Diagnostic} (h : d.IsPlain) (name : String) :
    d.cause ≠ .circularDefinition name := by
  intro hcause
  have hplain := h.2
  rw [hcause] at hplain
  cases hplain

/-- If there is no answer, then because of a plain error in the program. -/
def Blames {α : Type} (answer : Except Diagnostic α) : Prop := ∀ d, answer = .error d → d.IsPlain

namespace Blames

variable {α β : Type} {x : Except Diagnostic α}

theorem ok (a : α) : Blames (.ok a : Except Diagnostic α) := fun _ h => nomatch h

theorem error (h : d.IsPlain) : Blames (.error d : Except Diagnostic α) := by
  rintro _ ⟨⟩
  exact h

theorem bind {f : α → Except Diagnostic β} (hx : Blames x) (hf : ∀ a, Blames (f a)) : Blames (x >>= f) := by
  cases x with
  | error d => exact error (hx d rfl)
  | ok a => exact hf a

theorem mapM {f : α → Except Diagnostic β} (hf : ∀ a, Blames (f a)) (as : List α) : Blames (as.mapM f) := by
  induction as with
  | nil => exact ok []
  | cons a as ih =>
    rw [List.mapM_cons]
    exact bind (hf a) fun b => bind ih fun bs => ok (b :: bs)

end Blames

/-! ### Types -/

namespace Catalog

variable {c : Catalog} {bindings : Bindings}

theorem use_blames (s : Structure) (depth : UInt64) (span : Span) : Blames (use s depth span) := by
  unfold use
  split
  · exact .error ⟨rfl, rfl⟩
  · exact .ok _

theorem resolveName_blames (ty : TypeName) : Blames (c.resolveName bindings ty) := by
  unfold resolveName
  dsimp only
  split
  · exact .ok _
  · exact .ok _
  split
  · exact .error ⟨rfl, rfl⟩
  · split
    · exact use_blames _ _ _
    · exact .error ⟨rfl, rfl⟩
  · exact .error ⟨rfl, rfl⟩

mutual

theorem resolve_blames : ∀ ty : TypeName, Blames (c.resolve bindings ty)
  | ⟨depth, name, [], span⟩ => resolveName_blames _
  | ⟨depth, name, first :: rest, span⟩ => by
    rw [resolve]
    dsimp only
    split
    · exact .error ⟨rfl, rfl⟩
    · exact .error ⟨rfl, rfl⟩
    · refine (resolveArgument_blames first).bind fun argument =>
        (resolveArguments_blames rest).bind fun arguments => ?_
      split
      · exact use_blames _ _ _
      · exact .error ⟨rfl, rfl⟩

theorem resolveArgument_blames : ∀ argument : TemplateArgument, Blames (c.resolveArgument bindings argument)
  | .type ty => resolve_blames ty
  | .constant _ => .error ⟨rfl, rfl⟩

theorem resolveArguments_blames : ∀ arguments : List TemplateArgument, Blames (c.resolveArguments bindings arguments)
  | [] => .ok []
  | first :: rest =>
    (resolveArgument_blames first).bind fun _ =>
      (resolveArguments_blames rest).bind fun _ => .ok _

end

theorem resolveValue_blames (ty : TypeName) : Blames (c.resolveValue bindings ty) :=
  (resolve_blames ty).bind fun _ => .ok _

/-! ### Places -/

theorem ofAccess_blames (access : Access) : Blames (FieldKey.ofAccess access) := by
  unfold FieldKey.ofAccess
  split
  · exact .ok _
  · split
    · exact .ok _
    · exact .error ⟨rfl, rfl⟩
  · exact .error ⟨rfl, rfl⟩

theorem fieldOf_blames (ty : TypeRef) (key : FieldKey) (span : Span) : Blames (c.fieldOf ty key span) := by
  unfold fieldOf
  dsimp only
  split
  · split
    · exact .error ⟨rfl, rfl⟩
    split
    · exact .ok _
    · exact .error ⟨rfl, rfl⟩
  · exact .error ⟨rfl, rfl⟩

theorem follow_blames (ty : TypeRef) (accesses : List Access) : Blames (c.follow ty accesses) := by
  induction accesses generalizing ty with
  | nil => exact .ok _
  | cons access rest ih =>
    exact (ofAccess_blames access).bind fun key => (fieldOf_blames ty key access.span).bind fun step =>
      (ih step.ty).bind fun _ => .ok _

end Catalog

theorem Scope.lookup_blames (s : Scope) (name : Identifier) : Blames (s.lookup name) := by
  unfold lookup
  split
  · exact .ok _
  · exact .error ⟨rfl, rfl⟩

theorem Scope.locate_blames (s : Scope) (c : Catalog) (p : Place) : Blames (s.locate c p) := by
  refine (s.lookup_blames p.name).bind fun root => ?_
  split
  · exact .error ⟨rfl, rfl⟩
  · exact (Catalog.follow_blames _ _).bind fun _ => .ok _

/-! ### Operations -/

theorem operandType_blames (operation : String) (lhs rhs : TypeRef) (span : Span) :
    Blames (operandType operation lhs rhs span) := by
  unfold operandType
  dsimp only
  split
  · split
    · exact .error ⟨rfl, rfl⟩
    split
    · exact .error ⟨rfl, rfl⟩
    · exact .ok _
  · exact .error ⟨rfl, rfl⟩

theorem arithmetic_blames (operator : ArithmeticOperator) (lhs rhs : Ready) (span : Span) :
    Blames (arithmetic operator lhs rhs span) := by
  refine (operandType_blames _ _ _ _).bind fun kind => ?_
  split
  · exact .error ⟨rfl, rfl⟩
  · exact .ok _

theorem comparison_blames (operator : CompareOperator) (lhs rhs : Ready) (span : Span) :
    Blames (comparison operator lhs rhs span) := by
  refine (operandType_blames _ _ _ _).bind fun kind => ?_
  split
  · exact .ok _
  · exact .error ⟨rfl, rfl⟩

theorem Ready.expectBool_blames (operand : Ready) (span : Span) : Blames (operand.expectBool span) := by
  unfold expectBool
  split
  · exact .ok _
  · exact .error ⟨rfl, rfl⟩

/-! ### Signatures -/

theorem Function.resolveSignature_blames (c : Catalog) (definition : FunctionDefinition) :
    Blames (resolveSignature c definition) := by
  refine (Catalog.resolveValue_blames _).bind fun _ => (Blames.mapM (fun p => ?_) _).bind fun _ => .ok _
  refine (Catalog.resolveValue_blames _).bind fun ty => ?_
  split
  · exact .error ⟨rfl, rfl⟩
  · exact .ok _

end Lowering
