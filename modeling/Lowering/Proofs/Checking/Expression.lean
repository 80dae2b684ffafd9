import Lowering.Proofs.Body.Expression
/-!
# The types of expressions, without any code

All that the checks of a body see of its variables is their names and types (`Outline`). `checkExpr` makes the same
checks as the lowering of an expression, in the same order, and gives its type or the first problem.

`HasType` states the rules that decide which expressions are accepted. The checks accept exactly what can be derived by
them (`checkOperand_eq_ok_iff`).
-/

namespace Lowering

/-! ### Outlines -/

/-- What is to be seen of variables without looking at their values. -/
structure Outline where
  /-- The names and types of all variables, those of the parents first. -/
  vars : List (String × TypeRef) := []
  /-- How many of them were declared in a parent. -/
  inherited : Nat := 0
deriving DecidableEq, Repr

namespace Outline

variable (o : Outline)

/-- The variables as a branch sees them. -/
def child : Outline := { o with inherited := o.vars.length }

/-- Whether a name is declared in this very scope. -/
def owns (name : String) : Bool := (o.vars.drop o.inherited).any fun v => v.1 == name

/-- The type of the last variable of a name. -/
def find? (name : String) : Option TypeRef := o.vars.reverse.lookup name

/-- One variable more. -/
def push (name : String) (ty : TypeRef) : Outline := { o with vars := o.vars ++ [(name, ty)] }

def typeOf (c : Catalog) (p : Place) : Except Diagnostic TypeRef :=
  match o.find? p.name.symbol with
  | none => .error (.error (.undeclaredVariable p.name.symbol) p.name.span)
  | some ty => Prod.snd <$> c.follow ty p.accesses

end Outline

/-! ### Checks -/

def Constant.type (c : Constant) : Except Diagnostic TypeRef :=
  match c.value with
  | .integer n =>
    if n.toInt < -0x80000000 ∨ 0x80000000 ≤ n.toInt then .error (.error (.constantOutOfRange n.toInt) c.span)
    else .ok (.primitive .i32)
  | .float _ => .ok (.primitive .f64)
  | .boolean _ => .ok (.primitive .bool)
  | .string _ => .ok ((TypeRef.primitive .string).offset 1)

def ArithmeticOperator.type (operator : ArithmeticOperator) (lhs rhs : TypeRef) (span : Span) :
    Except Diagnostic TypeRef := do
  let kind ← operandType "arithmetic" lhs rhs span
  if !kind.isNumeric then
    throw (.error (.unsupportedOperator operator.text lhs) span)
  return lhs

def CompareOperator.type (operator : CompareOperator) (lhs rhs : TypeRef) (span : Span) :
    Except Diagnostic TypeRef := do
  let kind ← operandType "comparison" lhs rhs span
  if (operator.predicate? kind).isNone then
    throw (.error (.unsupportedOperator operator.text lhs) span)
  return .primitive .bool

/-- Checks that a type is that of truth values. -/
def TypeRef.expectBool (ty : TypeRef) (span : Span) : Except Diagnostic Unit :=
  if ty.primitive? = some .bool then .ok () else .error (.error (.nonBooleanOperand ty) span)

def Registry.resultType (r : Registry) (name : String) (types : List TypeRef) (span : Span) :
    Except Diagnostic TypeRef :=
  match r.find name types with
  | some (.conversion _ target) => .ok (.primitive target)
  | some (.function _ f) =>
    match f.signature with
    | some signature => .ok signature.returnType
    | none => .error (.error (.unknownFunction name types) span)
  | none => .error (.error (.unknownFunction name types) span)

/-- Whether an expression is a call. Only calls may give nothing. -/
def Expr.isCall : Expr → Bool
  | .call _ => true
  | _ => false

/-- Checks that an expression of a type can be used as an operand. -/
def Expr.operandType (e : Expr) (ty : TypeRef) : Except Diagnostic TypeRef :=
  if e.isCall && ty.isVoid then .error (.error .voidValue e.span) else .ok ty

mutual

def checkExpr (c : Catalog) (r : Registry) (o : Outline) : Expr → Except Diagnostic TypeRef
  | .constant constant => constant.type
  | .place p => o.typeOf c p
  | .call call => checkCall c r o call
  | .arithmetic operator lhs rhs span => do
    let left ← lhs.operandType (← checkExpr c r o lhs)
    let right ← rhs.operandType (← checkExpr c r o rhs)
    operator.type left right span
  | .compare operator lhs rhs span => do
    let left ← lhs.operandType (← checkExpr c r o lhs)
    let right ← rhs.operandType (← checkExpr c r o rhs)
    operator.type left right span
  | .logical _ lhs rhs _ => do
    let left ← lhs.operandType (← checkExpr c r o lhs)
    left.expectBool lhs.span
    let right ← rhs.operandType (← checkExpr c r o rhs)
    right.expectBool rhs.span
    return left
  | .not operand _ => do
    let ty ← operand.operandType (← checkExpr c r o operand)
    ty.expectBool operand.span
    return ty

def checkCall (c : Catalog) (r : Registry) (o : Outline) : Call → Except Diagnostic TypeRef
  | ⟨⟨name, [], _⟩, es, span⟩ => do
    let types ← checkOperands c r o es
    r.resultType name.symbol types span
  | ⟨⟨_, access :: _, _⟩, _, _⟩ => .error (.error (.unsupportedConstruct "method calls") access.span)

def checkOperands (c : Catalog) (r : Registry) (o : Outline) : List Expr → Except Diagnostic (List TypeRef)
  | [] => return []
  | e :: es => do
    let ty ← e.operandType (← checkExpr c r o e)
    let types ← checkOperands c r o es
    return ty :: types

end

/-- The type of an operand, which has to be a certain one if one is expected. -/
def checkOperand (c : Catalog) (r : Registry) (o : Outline) (e : Expr) (expected : Option TypeRef) :
    Except Diagnostic TypeRef := do
  let ty ← checkExpr c r o e
  if let some expected := expected then
    if ty ≠ expected then
      throw (.error (.typeMismatch expected ty) e.span)
  e.operandType ty

/-! ### Rules -/

/-- Accesses lead from values of a type to values of another: each to a field of a structure that is laid out, by its
name or by a constant position. -/
inductive Catalog.Selects (c : Catalog) : TypeRef → List Access → TypeRef → Prop where
  | here {ty : TypeRef} : Selects c ty [] ty
  | name {ref : StructureRef} {depth : Nat} {layout : Layout} {name : Identifier} {field : Field} {rest : List Access}
      {ty : TypeRef} (hdepth : depth = 1 ∨ depth = 2) (hlayout : c.layout? ref = some layout)
      (hfield : layout.fields.find? (fun f => f.name == name.symbol) = some field)
      (hrest : Selects c field.ty rest ty) : Selects c ⟨.struct ref, depth⟩ (.field name :: rest) ty
  | position {ref : StructureRef} {depth : Nat} {layout : Layout} {n : Int64} {inner span : Span} {field : Field}
      {rest : List Access} {ty : TypeRef} (hdepth : depth = 1 ∨ depth = 2) (hlayout : c.layout? ref = some layout)
      (hsign : 0 ≤ n.toInt) (hfield : layout.fields[n.toInt.toNat]? = some field) (hrest : Selects c field.ty rest ty) :
      Selects c ⟨.struct ref, depth⟩ (.index (.constant ⟨.integer n, inner⟩) span :: rest) ty

/-- What a call of a name gives for arguments of some types: the result of a function that takes them, or a number of
the type of that name if no function does. -/
inductive Registry.Gives (r : Registry) (name : String) (types : List TypeRef) : TypeRef → Prop where
  | function {f : Function} {signature : Signature} (hf : f ∈ r.functions) (hname : f.name = name)
      (hok : f.failed = false) (hsig : f.signature = some signature) (htypes : signature.parameters = types) :
      Gives r name types signature.returnType
  | conversion {source target : Primitive} (hnone : ∀ f ∈ r.functions, f.name = name → f.accepts types = false)
      (htgt : Primitive.ofName? name = some target) (htypes : types = [.primitive source])
      (hnums : source.isNumeric = true ∧ target.isNumeric = true) : Gives r name types (.primitive target)

/-- Whether values of a built-in type can be compared by an operator: numbers by all, truth values for equality. -/
def CompareOperator.Compares (operator : CompareOperator) (kind : Primitive) : Prop :=
  kind.isNumeric = true ∨ kind = .bool ∧ (operator = .equal ∨ operator = .notEqual)

mutual

/-- The rules for the types of expressions. -/
inductive HasType (c : Catalog) (r : Registry) (o : Outline) : Expr → TypeRef → Prop where
  | integer {n : Int64} {span : Span} (hlower : -2 ^ 31 ≤ n.toInt) (hupper : n.toInt < 2 ^ 31) :
      HasType c r o (.constant ⟨.integer n, span⟩) (.primitive .i32)
  | float {x : Binary64} {span : Span} : HasType c r o (.constant ⟨.float x, span⟩) (.primitive .f64)
  | boolean {b : Bool} {span : Span} : HasType c r o (.constant ⟨.boolean b, span⟩) (.primitive .bool)
  | string {s : String} {span : Span} : HasType c r o (.constant ⟨.string s, span⟩) ⟨.primitive .string, 1⟩
  | place {name : Identifier} {accesses : List Access} {span : Span} {base ty : TypeRef}
      (hname : o.find? name.symbol = some base) (haccesses : c.Selects base accesses ty) :
      HasType c r o (.place ⟨name, accesses, span⟩) ty
  | call {name : Identifier} {inner span : Span} {es : List Expr} {types : List TypeRef} {ty : TypeRef}
      (hargs : HaveTypes c r o es types) (hgives : r.Gives name.symbol types ty) (hvoid : ty.isVoid = false) :
      HasType c r o (.call ⟨⟨name, [], inner⟩, es, span⟩) ty
  | arithmetic {operator : ArithmeticOperator} {lhs rhs : Expr} {span : Span} {kind : Primitive}
      (hlhs : HasType c r o lhs (.primitive kind)) (hrhs : HasType c r o rhs (.primitive kind))
      (hkind : kind.isNumeric = true) : HasType c r o (.arithmetic operator lhs rhs span) (.primitive kind)
  | compare {operator : CompareOperator} {lhs rhs : Expr} {span : Span} {kind : Primitive}
      (hlhs : HasType c r o lhs (.primitive kind)) (hrhs : HasType c r o rhs (.primitive kind))
      (hkind : operator.Compares kind) : HasType c r o (.compare operator lhs rhs span) (.primitive .bool)
  | logical {operator : LogicalOperator} {lhs rhs : Expr} {span : Span} (hlhs : HasType c r o lhs (.primitive .bool))
      (hrhs : HasType c r o rhs (.primitive .bool)) : HasType c r o (.logical operator lhs rhs span) (.primitive .bool)
  | not {operand : Expr} {span : Span} (hoperand : HasType c r o operand (.primitive .bool)) :
      HasType c r o (.not operand span) (.primitive .bool)

/-- The types of expressions in order. -/
inductive HaveTypes (c : Catalog) (r : Registry) (o : Outline) : List Expr → List TypeRef → Prop where
  | nil : HaveTypes c r o [] []
  | cons {e : Expr} {ty : TypeRef} {es : List Expr} {types : List TypeRef} (hfirst : HasType c r o e ty)
      (hrest : HaveTypes c r o es types) : HaveTypes c r o (e :: es) (ty :: types)

end

/-! ### Checks follow the rules -/

section Rules

variable {c : Catalog} {r : Registry} {o : Outline} {ty lhs rhs : TypeRef} {layout : Layout} {span : Span}

theorem Constant.type_eq_ok_iff {constant : Constant} :
    constant.type = .ok ty ↔ HasType c r o (.constant constant) ty := by
  obtain ⟨value, span⟩ := constant
  constructor
  · intro h
    cases value with
    | integer n =>
      unfold Constant.type at h
      dsimp only at h
      split at h
      · cases h
      rename_i hrange
      cases h
      exact .integer (by omega) (by omega)
    | float => cases h; exact .float
    | boolean => cases h; exact .boolean
    | string => cases h; exact .string
  intro h
  cases h with
  | integer => exact if_neg (by omega)
  | float | boolean | string => rfl

theorem Layout.named?_eq_some_iff :
    (∃ index, layout.named? name = some (index, ty)) ↔
      ∃ field, layout.fields.find? (fun f => f.name == name) = some field ∧ field.ty = ty := by
  unfold Layout.named?
  constructor
  · rintro ⟨index, h⟩
    obtain ⟨i, hi, h⟩ := Option.bind_eq_some_iff.1 h
    obtain ⟨field, hfield, h⟩ := Option.bind_eq_some_iff.1 h
    cases h
    obtain ⟨hlt, hname, hbefore⟩ := List.findIdx?_eq_some_iff_getElem.1 hi
    have hget : layout.fields[index] = field := (List.getElem?_eq_some_iff.1 hfield).2
    exact ⟨field,
      List.find?_eq_some_iff_getElem.2 ⟨hget ▸ hname, index, hlt, hget, fun j hj => by simpa using hbefore j hj⟩, rfl⟩
  rintro ⟨field, h, rfl⟩
  obtain ⟨hname, index, hlt, hget, hbefore⟩ := List.find?_eq_some_iff_getElem.1 h
  have hi : layout.fields.findIdx? (fun f => f.name == name) = some index :=
    List.findIdx?_eq_some_iff_getElem.2 ⟨hlt, hget ▸ hname, fun j hj => by simpa using hbefore j hj⟩
  simp [hi, ← hget, hlt]

theorem Layout.at?_eq_some_iff :
    (∃ index, layout.at? n = some (index, ty)) ↔ ∃ field, layout.fields[n]? = some field ∧ field.ty = ty := by
  unfold Layout.at?
  constructor
  · grind
  · simp_all

theorem Catalog.follow_cons (hkey : FieldKey.ofAccess access = .ok key)
    (hdepth : depth = 1 ∨ depth = 2) (hlayout : c.layout? ref = some layout) {inner : TypeRef}
    (hlook : key.lookup layout = some (index, inner)) (hrest : c.follow inner rest = .ok (steps, ty)) :
    c.follow ⟨.struct ref, depth⟩ (access :: rest) = .ok (⟨ref, index, inner⟩ :: steps, ty) := by
  have hstep : c.fieldOf ⟨.struct ref, depth⟩ key access.span = .ok ⟨ref, index, inner⟩ := by
    have hfield : (c.layout? ref).bind key.lookup = some (index, inner) := by
      grind
    unfold Catalog.fieldOf
    simp only [TypeRef.structure?, hfield]
    rw [if_neg (by omega)]
    rfl
  rw [Catalog.follow]
  simp only [hkey, hstep, hrest, bind, Except.bind]
  rfl

theorem Catalog.follow_eq_ok_iff {base : TypeRef} :
    (∃ steps, c.follow base accesses = .ok (steps, ty)) ↔ c.Selects base accesses ty := by
  constructor
  · intro h
    induction accesses generalizing base with
    | nil =>
      obtain ⟨steps, h⟩ := h
      cases h
      exact .here
    | cons access rest ih =>
      obtain ⟨steps, h⟩ := h
      obtain ⟨key, hkey, h⟩ := bind_eq_ok h
      obtain ⟨step, hstep, h⟩ := bind_eq_ok h
      obtain ⟨⟨steps', ty'⟩, hrest, h⟩ := bind_eq_ok h
      cases h
      obtain ⟨⟨hstruct, hdepth⟩, layout, hlayout, hlook⟩ := Catalog.fieldOf_eq_ok hstep
      have hrest := ih ⟨steps', hrest⟩
      obtain ⟨head, depth⟩ := base
      cases TypeRef.structure?_eq_some hstruct
      unfold FieldKey.ofAccess at hkey
      split at hkey
      · cases hkey
        obtain ⟨field, hfield, hty⟩ := Layout.named?_eq_some_iff.1 ⟨_, hlook⟩
        exact .name hdepth hlayout hfield (hty ▸ hrest)
      · next n _ _ =>
        split at hkey
        · next hn =>
          cases hkey
          obtain ⟨field, hfield, hty⟩ := Layout.at?_eq_some_iff.1 ⟨_, hlook⟩
          exact .position hdepth hlayout hn hfield (hty ▸ hrest)
        · cases hkey
      · cases hkey
  intro h
  induction h with
  | here => exact ⟨[], rfl⟩
  | @name ref depth layout name field rest ty hdepth hlayout hfield _ ih =>
    obtain ⟨steps, hsteps⟩ := ih
    obtain ⟨index, hlook⟩ := Layout.named?_eq_some_iff.2 ⟨field, hfield, rfl⟩
    have hkey : FieldKey.ofAccess (.field name) = .ok (.byName name.symbol) := rfl
    exact ⟨_, Catalog.follow_cons hkey hdepth hlayout hlook hsteps⟩
  | @position ref depth layout n inner span field rest ty hdepth hlayout hsign hfield _ ih =>
    obtain ⟨steps, hsteps⟩ := ih
    obtain ⟨index, hlook⟩ := Layout.at?_eq_some_iff.2 ⟨field, hfield, rfl⟩
    have hkey : FieldKey.ofAccess (.index (.constant ⟨.integer n, inner⟩) span) = .ok (.byIndex n.toInt.toNat) :=
      if_pos hsign
    exact ⟨_, Catalog.follow_cons hkey hdepth hlayout hlook hsteps⟩

theorem Outline.typeOf_eq_ok_iff : o.typeOf c p = .ok ty ↔ HasType c r o (.place p) ty := by
  obtain ⟨name, accesses, span⟩ := p
  constructor
  · intro h
    unfold Outline.typeOf at h
    split at h
    · cases h
    · next base hbase =>
      obtain ⟨⟨steps, ty'⟩, hfollow, rfl⟩ := map_eq_ok h
      exact .place hbase (Catalog.follow_eq_ok_iff.1 ⟨steps, hfollow⟩)
  intro h
  cases h with
  | place hname haccesses =>
    obtain ⟨steps, hfollow⟩ := Catalog.follow_eq_ok_iff.2 haccesses
    unfold Outline.typeOf
    simp_all

theorem operandType_eq_ok_iff :
    operandType operation lhs rhs span = .ok kind ↔ lhs = .primitive kind ∧ rhs = .primitive kind := by
  refine ⟨operandType_eq_ok, ?_⟩
  rintro ⟨rfl, rfl⟩
  have hkind : (TypeRef.primitive kind).primitive? = some kind := rfl
  simp only [operandType, hkind, ne_eq, not_true_eq_false, if_false]
  rfl

theorem ArithmeticOperator.type_eq_ok_iff {operator : ArithmeticOperator} :
    operator.type lhs rhs span = .ok ty ↔
      ∃ kind, lhs = .primitive kind ∧ rhs = .primitive kind ∧ kind.isNumeric = true ∧ ty = .primitive kind := by
  unfold ArithmeticOperator.type
  rw [bind_eq_ok_iff]
  constructor
  · rintro ⟨kind, hkind, h⟩
    obtain ⟨rfl, rfl⟩ := operandType_eq_ok_iff.1 hkind
    dsimp only at h
    split at h
    · cases h
    rename_i hnum
    cases h
    exact ⟨kind, rfl, rfl, by simpa using hnum, rfl⟩
  rintro ⟨kind, rfl, rfl, hnum, rfl⟩
  refine ⟨kind, operandType_eq_ok_iff.2 ⟨rfl, rfl⟩, ?_⟩
  rw [if_neg (by simp [hnum])]
  rfl

theorem CompareOperator.predicate?_isSome {operator : CompareOperator} :
    (operator.predicate? kind).isNone = false ↔ operator.Compares kind := by
  unfold CompareOperator.Compares
  cases kind <;> cases operator <;> decide

theorem CompareOperator.type_eq_ok_iff {operator : CompareOperator} :
    operator.type lhs rhs span = .ok ty ↔
      ∃ kind, lhs = .primitive kind ∧ rhs = .primitive kind ∧ operator.Compares kind ∧ ty = .primitive .bool := by
  unfold CompareOperator.type
  rw [bind_eq_ok_iff]
  constructor
  · rintro ⟨kind, hkind, h⟩
    obtain ⟨rfl, rfl⟩ := operandType_eq_ok_iff.1 hkind
    dsimp only at h
    split at h
    · cases h
    rename_i hpred
    cases h
    exact ⟨kind, rfl, rfl, predicate?_isSome.1 (Bool.eq_false_iff.2 hpred), rfl⟩
  rintro ⟨kind, rfl, rfl, hcompares, rfl⟩
  refine ⟨kind, operandType_eq_ok_iff.2 ⟨rfl, rfl⟩, ?_⟩
  rw [if_neg (by simp [predicate?_isSome.2 hcompares])]
  rfl

theorem TypeRef.expectBool_bind_eq_ok_iff {α : Type} {k} {a : α} :
    (ty.expectBool span >>= k) = .ok a ↔ ty = .primitive .bool ∧ k () = .ok a := by
  unfold TypeRef.expectBool
  constructor
  · intro h
    split at h
    · next hbool => exact ⟨Catalog.primitive?_eq_some hbool, h⟩
    · cases h
  · rintro ⟨rfl, h⟩
    exact h

/-! Calls. -/

/-- Two functions of one name do not take arguments of the same types. -/
def Function.Distinct (f g : Function) : Prop :=
  f.name = g.name → ∀ types, f.accepts types = true → g.accepts types = false

/-- No two functions of one name take arguments of the same types. -/
def Registry.Unambiguous (r : Registry) : Prop := r.functions.Pairwise Function.Distinct

theorem Registry.Unambiguous.find_eq (hr : r.Unambiguous) (hf : f ∈ r.functions) {types : List TypeRef}
    (haccepts : f.accepts types = true) : ∃ id, r.find f.name types = some (.function id f) := by
  unfold Registry.find
  split
  · next id hid =>
    obtain ⟨hlt, hfound, -⟩ := List.findIdx?_eq_some_iff_getElem.1 hid
    obtain ⟨i, hi, hget⟩ := List.getElem_of_mem hf
    rw [Bool.and_eq_true, beq_iff_eq] at hfound
    have hsame : r.functions[id] = f := by
      -- Two different ones would both take the arguments.
      rcases Nat.lt_trichotomy id i with hlt' | rfl | hlt'
      · have := List.pairwise_iff_getElem.1 hr id i hlt hi hlt' (by rw [hget]; exact hfound.1) types hfound.2
        simp_all
      · exact hget
      · have := List.pairwise_iff_getElem.1 hr i id hi hlt hlt' (by rw [hget]; exact hfound.1.symm) types
          (by rw [hget]; exact haccepts)
        simp_all
    simp [Registry.function?, *]
  · simp_all

theorem Registry.resultType_eq_ok_iff (hr : r.Unambiguous) {types : List TypeRef} :
    r.resultType name types span = .ok ty ↔ r.Gives name types ty := by
  constructor
  · intro h
    rcases hfind : r.find name types with _ | callee
    · rw [Registry.resultType, hfind] at h; cases h
    obtain ⟨id, f, rfl, hf, rfl, haccepts⟩ | ⟨source, target, rfl, rfl, hsrc, htgt, hname⟩ :=
      Registry.find_cases hfind
    · obtain ⟨hok, signature, hsig, htypes⟩ := Function.accepts_iff.1 haccepts
      simp only [Registry.resultType, hfind, hsig, Except.ok.injEq] at h
      cases h
      exact .function (List.mem_of_getElem? hf) rfl hok hsig htypes
    simp only [Registry.resultType, hfind, Except.ok.injEq] at h
    cases h
    refine .conversion (fun f hf hname => ?_) hname rfl ⟨hsrc, htgt⟩
    by_contra haccepts
    obtain ⟨id, hfn⟩ := hr.find_eq hf (by simpa using haccepts)
    simp_all
  intro h
  unfold Registry.resultType
  cases h with
  | @function f signature hf hname hok hsig htypes =>
    obtain ⟨id, hfind⟩ := hr.find_eq hf (Function.accepts_iff.2 ⟨hok, signature, hsig, htypes⟩)
    simp_all
  | @conversion source target hnone htgt htypes hnums =>
    have hindex : (r.functions.findIdx? fun f => f.name == name && f.accepts types) = none := by
      simp_all
    have hfind : r.find name types = some (.conversion source target) := by
      rw [Registry.find, hindex, htypes]
      exact Registry.findConversion_eq_some_iff.2 ⟨source, target, rfl, rfl, hnums.1, hnums.2, htgt⟩
    simp [hfind]

/-! Expressions. -/

theorem bind_operandType_eq_ok_iff {e : Expr} (he : e.isCall = false) {x : Except Diagnostic TypeRef} :
    (x >>= e.operandType) = .ok ty ↔ x = .ok ty := by
  rw [bind_eq_ok_iff]
  simp [Expr.operandType, he]

theorem use_bind_eq_ok_iff {α : Type} {e : Expr} {x : Except Diagnostic TypeRef}
    {k : TypeRef → Except Diagnostic α} {a} :
    (x >>= fun ty => e.operandType ty >>= k) = .ok a ↔ ∃ ty, (x >>= e.operandType) = .ok ty ∧ k ty = .ok a := by
  rw [← bind_assoc, bind_eq_ok_iff]

theorem Expr.operandType_call_eq_ok_iff {call} {ty' : TypeRef} :
    (Expr.call call).operandType ty = .ok ty' ↔ ty = ty' ∧ ty'.isVoid = false := by
  grind [Expr.isCall, Expr.operandType]

mutual

/-- An expression can be used as an operand exactly if it has a type by the rules. -/
theorem checkExpr_iff (hr : r.Unambiguous) : ∀ (e : Expr) (ty : TypeRef),
    (checkExpr c r o e >>= e.operandType) = .ok ty ↔ HasType c r o e ty
  | .constant constant, ty => by
    rw [bind_operandType_eq_ok_iff rfl, checkExpr]
    exact Constant.type_eq_ok_iff
  | .place p, ty => by
    rw [bind_operandType_eq_ok_iff rfl, checkExpr]
    exact Outline.typeOf_eq_ok_iff
  | .call ⟨⟨name, [], inner⟩, es, span⟩, ty => by
    rw [checkExpr, checkCall, bind_eq_ok_iff]
    constructor
    · rintro ⟨result, h, hused⟩
      obtain ⟨types, htypes, hres⟩ := bind_eq_ok h
      obtain ⟨rfl, hvoid⟩ := Expr.operandType_call_eq_ok_iff.1 hused
      exact .call ((checkOperands_iff hr es types).1 htypes) ((Registry.resultType_eq_ok_iff hr).1 hres) hvoid
    intro h
    cases h with
    | @call _ _ _ _ types _ hargs hgives hvoid =>
      refine ⟨ty, bind_eq_ok_iff.2 ⟨types, (checkOperands_iff hr es types).2 hargs, ?_⟩,
        Expr.operandType_call_eq_ok_iff.2 ⟨rfl, hvoid⟩⟩
      exact (Registry.resultType_eq_ok_iff hr).2 hgives
  | .call ⟨⟨name, access :: accesses, inner⟩, es, span⟩, ty => by
    rw [checkExpr, checkCall, bind_eq_ok_iff]
    constructor
    · simp
    · intro h
      cases h
  | .arithmetic operator lhs rhs span, ty => by
    rw [bind_operandType_eq_ok_iff rfl, checkExpr]
    simp only [use_bind_eq_ok_iff, checkExpr_iff hr lhs, checkExpr_iff hr rhs, ArithmeticOperator.type_eq_ok_iff]
    constructor
    · rintro ⟨_, hlhs, _, hrhs, kind, rfl, rfl, hkind, rfl⟩
      exact .arithmetic hlhs hrhs hkind
    intro h
    cases h with
    | @arithmetic _ _ _ _ kind hlhs hrhs hkind => exact ⟨_, hlhs, _, hrhs, kind, rfl, rfl, hkind, rfl⟩
  | .compare operator lhs rhs span, ty => by
    rw [bind_operandType_eq_ok_iff rfl, checkExpr]
    simp only [use_bind_eq_ok_iff, checkExpr_iff hr lhs, checkExpr_iff hr rhs, CompareOperator.type_eq_ok_iff]
    constructor
    · rintro ⟨_, hlhs, _, hrhs, kind, rfl, rfl, hkind, rfl⟩
      exact .compare hlhs hrhs hkind
    intro h
    cases h with
    | @compare _ _ _ _ kind hlhs hrhs hkind => exact ⟨_, hlhs, _, hrhs, kind, rfl, rfl, hkind, rfl⟩
  | .logical operator lhs rhs span, ty => by
    rw [bind_operandType_eq_ok_iff rfl, checkExpr]
    simp only [use_bind_eq_ok_iff, checkExpr_iff hr lhs, checkExpr_iff hr rhs, TypeRef.expectBool_bind_eq_ok_iff]
    constructor
    · rintro ⟨_, hlhs, rfl, _, hrhs, rfl, h⟩
      cases h
      exact .logical hlhs hrhs
    intro h
    cases h with
    | logical hlhs hrhs => exact ⟨_, hlhs, rfl, _, hrhs, rfl, rfl⟩
  | .not operand span, ty => by
    rw [bind_operandType_eq_ok_iff rfl, checkExpr]
    simp only [use_bind_eq_ok_iff, checkExpr_iff hr operand, TypeRef.expectBool_bind_eq_ok_iff]
    constructor
    · rintro ⟨_, hoperand, rfl, h⟩
      cases h
      exact .not hoperand
    intro h
    cases h with
    | not hoperand => exact ⟨_, hoperand, rfl, rfl⟩

theorem checkOperands_iff (hr : r.Unambiguous) : ∀ (es : List Expr) (types : List TypeRef),
    checkOperands c r o es = .ok types ↔ HaveTypes c r o es types
  | [], types => by
    rw [checkOperands]
    constructor
    · intro h
      cases h
      exact .nil
    intro h
    cases h
    rfl
  | e :: es, types => by
    rw [checkOperands]
    simp only [use_bind_eq_ok_iff, checkExpr_iff hr e]
    simp only [bind_eq_ok_iff, checkOperands_iff hr es]
    constructor
    · rintro ⟨ty, hty, rest, hrest, h⟩
      cases h
      exact .cons hty hrest
    intro h
    cases h with
    | cons hty hrest => exact ⟨_, hty, _, hrest, rfl⟩

end

/-- **The checks accept exactly what the rules allow.** -/
theorem checkOperand_eq_ok_iff (hr : r.Unambiguous) (e : Expr) (ty : TypeRef) :
    checkOperand c r o e none = .ok ty ↔ HasType c r o e ty :=
  checkExpr_iff hr e ty

end Rules

end Lowering
