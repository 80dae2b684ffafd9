import Lowering.IR.Basic
/-!
# Well-typed straight code

A `Typing` lists the registers that are set at some point of the code, with their types. `Straight` says of a run of
instructions without labels and terminators that every operand is set before it is used and is used at the type it was
set at, that memory is accessed at the type its address promises, and that calls and fields agree with what they refer
to (`Surroundings`). What is true with fewer registers stays true with more, so code can be moved behind other code.

Types alone do not make an instruction one that a machine has: a structure fits no register, and there is no logical
operation on floats. What types leave open is said of each value by itself (`Value.Feasible`).

The byte copy takes addresses of bytes, whatever lies there. For it the address of a structure is made one of bytes;
that is done right before the copy and for nothing else, so such registers are not left to other code (`kept`).
-/

namespace Lowering.IR

open List

/-- Registers with their types. -/
abbrev Typing := List (Local × Ty)

/-- The types that something callable takes and gives. -/
structure Prototype where
  name : String
  parameters : List Ty
  returnType : Ty
deriving DecidableEq, Repr

/-- The byte copy takes two addresses, a length, and a flag. -/
def Prototype.memcpy : Prototype := ⟨IR.memcpy, [.bytePointer, .bytePointer, .int 64, .bool], .void⟩

/-- What code refers to outside its procedure. -/
structure Surroundings where
  structures : List StructDeclaration
  prototypes : List Prototype

/-- What code may do with its surroundings. -/
structure Setting extends Surroundings where
  /-- The types that memory is allocated for. -/
  allots : Ty → Prop
  /-- The names that are called, apart from the byte copy of structures. -/
  calls : String → Prop
  /-- The types of the numbers that are widened with zeros. -/
  widens : Ty → Prop

instance : Coe Setting Surroundings := ⟨Setting.toSurroundings⟩

/-- The field of the type `field` is at `index` in the structure of a name. -/
def Surroundings.Selects (env : Surroundings) (name : String) (index : Nat) (field : Ty) : Prop :=
  ∃ d ∈ env.structures, d.name = name ∧ d.fields[index]? = some field

/-! ### Operands and instructions -/

/-- An operand has a value of the type: a register was set to one, a constant is of that kind. -/
def Operand.Fits (Γ : Typing) (ty : Ty) : Operand → Prop
  | .register id => (id, ty) ∈ Γ
  | .int _ => ∃ bits, ty = .int bits
  | .float _ => ∃ bits, ty = ⟨.float bits, 0⟩
  | .bool _ => ty = .bool
  | .bytes data => ty = ⟨.array data.length (.int 8), 0⟩

def Argument.Fits (Γ : Typing) (a : Argument) : Prop := a.value.Fits Γ a.ty

/-- A call passes what its callee takes. -/
def CallTyped (env : Surroundings) (Γ : Typing) (returnType : Ty) (callee : String) (arguments : List Argument) :
    Prop :=
  (∀ a ∈ arguments, a.Fits Γ) ∧ ⟨callee, arguments.map Argument.ty, returnType⟩ ∈ env.prototypes

/-- A value that can be computed from registers that are set. Phis are treated where blocks meet. -/
def Value.Typed (env : Surroundings) (Γ : Typing) : Value → Prop
  | .alloc _ => True
  | .load ty address => address.Fits Γ ∧ address.ty.pointee? = some ty
  | .elementPointer pointee base indices result =>
    base.Fits Γ ∧ base.ty.pointee? = some pointee ∧
      ∃ name index field, pointee = ⟨.struct name, 0⟩ ∧ indices = [.i32 0, .i32 (index : Nat)] ∧
        env.Selects name index field ∧ result = field.pointerTo
  | .binary _ _ ty lhs rhs => lhs.Fits Γ ty ∧ rhs.Fits Γ ty
  | .compare _ ty lhs rhs => lhs.Fits Γ ty ∧ rhs.Fits Γ ty
  | .bitcast value _ => value.Fits Γ
  | .convert _ value _ => value.Fits Γ
  | .sizeOf _ => True
  | .call returnType callee arguments => CallTyped env Γ returnType callee arguments
  | .phi .. => False

/-- A store writes a value of the type its address leads to. -/
def StoreTyped (Γ : Typing) (address value : Argument) : Prop :=
  address.Fits Γ ∧ value.Fits Γ ∧ address.ty.pointee? = some value.ty

/-- A type whose values fit a register. -/
def Ty.IsScalar (ty : Ty) : Prop := ty.pointer ≠ 0 ∨ ∃ bits ≤ 64, ty.base = .int bits ∨ ty.base = .float bits

/-- A type whose size is known: its structures are declared. -/
def Base.Sized (env : Surroundings) : Base → Prop
  | .struct name => ∃ d ∈ env.structures, d.name = name
  | .array _ element => element.Sized env
  | .void | .int _ | .float _ => True

/-- A type whose size is known, as that of every pointer is. -/
def Ty.Sized (env : Surroundings) (ty : Ty) : Prop := ty.pointer = 0 → ty.base.Sized env

/-- A type of numbers, which are computed with. -/
def Ty.IsNumeric (ty : Ty) : Prop := ty.pointer = 0 ∧ ty.IsScalar

def Ty.isInt (ty : Ty) : Bool :=
  match ty.base, ty.pointer with
  | .int _, 0 => true
  | _, _ => false

/-- Whether a conversion reads a number as one of its type, and cuts nothing off that is not there. -/
def Conversion.suits (source target : Ty) : Conversion → Bool
  | .trunc =>
    match source.base, target.base with
    | .int bits, .int bits' => bits' ≤ bits
    | _, _ => false
  | .zext | .sext | .sitofp | .uitofp => true
  | .fptrunc | .fpext | .fptosi | .fptoui => !source.isInt

/-- A value that is computed in registers, and from memory that has a size. A string is the address of its first
byte. -/
def Value.Feasible (env : Setting) : Value → Prop
  | .alloc ty => ty.Sized env ∧ env.allots ty
  | .load ty _ => ty.IsScalar
  | .elementPointer .. => True
  | .binary operator mode ty _ _ =>
    ty.IsNumeric ∧ (mode = .float → operator ∉ [.and, .or, .xor] ∧ ty.isInt = false)
  | .compare predicate ty _ _ => ty.IsNumeric ∧ (predicate.isFloat = true → ty.isInt = false)
  | .bitcast value target => (∃ length, value.ty = ⟨.array (length + 1) (.int 8), 1⟩) ∧ target = .bytePointer
  | .convert conversion value target =>
    value.ty.IsNumeric ∧ target.pointer = 0 ∧ conversion.suits value.ty target = true
  | .sizeOf ty => ty.Sized env
  | .call returnType callee _ => returnType.isVoid = false ∧ env.calls callee
  | .phi .. => True

/-- A value that fits a register, or the bytes of a constant, can be stored. -/
def Argument.IsStorable (value : Argument) : Prop := value.ty.IsScalar ∨ ∃ data, value.value = .bytes data

/-- The registers that code sets, with their types. -/
def results (code : Code) : Typing :=
  code.filterMap fun
    | .set destination value => some (destination, value.resultType)
    | _ => none

/-- The registers that are set behind code. -/
def Typing.after (Γ : Typing) (code : Code) : Typing := results code ++ Γ

def Base.isStruct : Base → Bool
  | .struct _ => true
  | _ => false

/-- Whether a value is the address of a structure as one of bytes. -/
def Value.isRaw : Value → Bool
  | .bitcast value _ => value.ty.base.isStruct
  | _ => false

/-- The registers that code sets and leaves to other code. -/
def kept (code : Code) : Typing :=
  code.filterMap fun
    | .set destination value => if value.isRaw then none else some (destination, value.resultType)
    | _ => none

/-- The registers that can be used behind code. -/
def Typing.past (Γ : Typing) (code : Code) : Typing := kept code ++ Γ

/-- A well-typed instruction by itself: no label, terminator or phi, and no part of a byte copy. -/
def Instruction.Simple (env : Setting) (Γ : Typing) : Instruction → Prop
  | .set _ value => value.Typed env Γ ∧ value.Feasible env
  | .store address value => StoreTyped Γ address value ∧ value.IsStorable
  | .call returnType callee arguments => CallTyped env Γ returnType callee arguments ∧ env.calls callee
  | _ => False

/-- What comes before the byte copy of a structure: its size, and where it lies and goes to as addresses of bytes. -/
def copyStart (name : String) (size start target : Local) (source destination : Argument) : Code :=
  [.set size (.sizeOf ⟨.struct name, 0⟩), .set start (.bitcast source .bytePointer),
    .set target (.bitcast destination .bytePointer)]

def copyCall (size start target : Local) : Instruction :=
  .call .void memcpy
    [.register .bytePointer target, .register .bytePointer start, .register (.int 64) size, ⟨.bool, .bool false⟩]

/-- The addresses of structures of a name that can be copied. -/
structure CopyTyped (env : Surroundings) (Γ : Typing) (name : String) (source destination : Argument) : Prop where
  sourceFits : source.Fits Γ
  sourceType : source.ty = ⟨.struct name, 1⟩
  destinationFits : destination.Fits Γ
  destinationType : destination.ty = ⟨.struct name, 1⟩
  declared : ∃ d ∈ env.structures, d.name = name
  memcpy : .memcpy ∈ env.prototypes

/-- Well-typed instructions without labels, terminators and phis. -/
inductive Straight (env : Setting) : Typing → Code → Prop where
  | nil (Γ : Typing) : Straight env Γ []
  | cons {Γ : Typing} {i : Instruction} {rest : Code} (hi : i.Simple env Γ) (h : Straight env (Γ.past [i]) rest) :
      Straight env Γ (i :: rest)
  | copy {Γ : Typing} {name : String} {size start target : Local} {source destination : Argument} {rest : Code}
      (hcopy : CopyTyped env Γ name source destination) (h : Straight env ((size, .int 64) :: Γ) rest) :
      Straight env Γ (copyStart name size start target source destination ++ copyCall size start target :: rest)

/-! ### Registers that are set -/

variable {x : Local × Ty}

section Results

@[simp] theorem results_set (destination : Local) (value : Value) (rest : Code) :
    results (.set destination value :: rest) = (destination, value.resultType) :: results rest := rfl

@[simp] theorem results_append (code more : Code) : results (code ++ more) = results code ++ results more :=
  filterMap_append

variable {Γ Δ : Typing} {code more : Code}

theorem Typing.mem_after : x ∈ Γ.after code ↔ x ∈ results code ∨ x ∈ Γ := mem_append

theorem Typing.subset_after (Γ : Typing) (code : Code) : Γ ⊆ Γ.after code := subset_append_right ..

end Results

/-! ### Registers that are kept -/

section Kept

variable {Γ Δ : Typing} {code more : Code} {value : Value}

@[simp] theorem kept_append (code more : Code) : kept (code ++ more) = kept code ++ kept more := filterMap_append

theorem kept_set (h : value.isRaw = false) (destination : Local) (rest : Code) :
    kept (.set destination value :: rest) = (destination, value.resultType) :: kept rest := by
  simp [kept, h]

theorem kept_subset_results (code : Code) : kept code ⊆ results code := by
  intro x hx
  obtain ⟨i, hi, hx⟩ := mem_filterMap.1 hx
  refine mem_filterMap.2 ⟨i, hi, ?_⟩
  grind

theorem Value.Feasible.isRaw (h : value.Feasible env) : value.isRaw = false := by
  cases value with
  | bitcast value target =>
    obtain ⟨⟨length, hty⟩, -⟩ := h
    show value.ty.base.isStruct = false
    rw [hty]
    rfl
  | _ => rfl

theorem CopyTyped.kept (h : CopyTyped env Γ name source destination)
    (size start target : Local) (rest : Code) :
    IR.kept (copyStart name size start target source destination ++ copyCall size start target :: rest) =
      (size, .int 64) :: IR.kept rest := by
  simp [IR.kept, copyStart, copyCall, Value.isRaw, h.sourceType, h.destinationType, Base.isStruct, Value.resultType]

theorem Typing.mem_past : x ∈ Γ.past code ↔ x ∈ kept code ∨ x ∈ Γ := mem_append

theorem Typing.subset_past (Γ : Typing) (code : Code) : Γ ⊆ Γ.past code := subset_append_right ..

theorem Typing.past_mono (h : Γ ⊆ Δ) (code : Code) : Γ.past code ⊆ Δ.past code := by
  intro x hx
  exact mem_past.2 ((mem_past.1 hx).imp_right fun h' => h h')

/-- The registers kept behind one code and then another, in whichever order the two are listed. -/
theorem Typing.mem_past_append : x ∈ Γ.past (code ++ more) ↔ x ∈ (Γ.past code).past more := by
  grind [mem_past, kept_append]

theorem Typing.mem_past_set (h : value.isRaw = false) (destination : Local) :
    (destination, value.resultType) ∈ Γ.past [.set destination value] :=
  mem_past.2 (.inl (by rw [kept_set h]; exact .head _))

end Kept

/-! ### Locals that are defined -/

section Definitions

/-- The locals that code defines, in order. -/
def definitions (code : Code) : List Local := code.filterMap Instruction.defined?

@[simp] theorem definitions_nil : definitions [] = [] := rfl

@[simp] theorem definitions_append (code more : Code) :
    definitions (code ++ more) = definitions code ++ definitions more :=
  filterMap_append

@[simp] theorem definitions_set (destination : Local) (value : Value) (rest : Code) :
    definitions (.set destination value :: rest) = destination :: definitions rest := rfl

@[simp] theorem definitions_label (id : Local) (rest : Code) :
    definitions (.label id :: rest) = id :: definitions rest := rfl

@[simp] theorem definitions_branch (condition : Argument) (positive negative : Local) (rest : Code) :
    definitions (.branch condition positive negative :: rest) = definitions rest := rfl

@[simp] theorem definitions_ret (value : Option Argument) (rest : Code) :
    definitions (.ret value :: rest) = definitions rest := rfl

variable {code : Code}

theorem mem_definitions_of_mem_results (h : x ∈ results code) : x.1 ∈ definitions code := by
  obtain ⟨i, hi, hx⟩ := mem_filterMap.1 h
  refine mem_filterMap.2 ⟨i, hi, ?_⟩
  cases i with
  | set => cases hx; rfl
  | _ => cases hx

theorem mem_definitions_of_mem_kept (h : x ∈ kept code) : x.1 ∈ definitions code :=
  mem_definitions_of_mem_results (kept_subset_results code h)

theorem kept_eq_nil (h : definitions code = []) : kept code = [] := by
  refine eq_nil_iff_forall_not_mem.2 fun x hx => ?_
  have := mem_definitions_of_mem_kept hx
  rw [h] at this
  cases this

end Definitions

/-! ### More registers do no harm -/

section Mono

variable {env : Setting} {Γ Δ : Typing}

theorem Operand.Fits.mono {operand : Operand} (h : operand.Fits Γ ty) (hsub : Γ ⊆ Δ) : operand.Fits Δ ty := by
  cases operand with
  | register => exact hsub h
  | int | float | bool | bytes => exact h

theorem Argument.Fits.mono {a : Argument} (h : a.Fits Γ) (hsub : Γ ⊆ Δ) : a.Fits Δ := Operand.Fits.mono h hsub

theorem CallTyped.mono {returnType : Ty} (h : CallTyped env Γ returnType callee arguments) (hsub : Γ ⊆ Δ) :
    CallTyped env Δ returnType callee arguments :=
  ⟨fun a ha => (h.1 a ha).mono hsub, h.2⟩

theorem Value.Typed.mono {value : Value} (h : value.Typed env Γ) (hsub : Γ ⊆ Δ) : value.Typed env Δ := by
  cases value with
  | alloc => trivial
  | load | elementPointer => exact ⟨h.1.mono hsub, h.2⟩
  | binary | compare => exact ⟨h.1.mono hsub, h.2.mono hsub⟩
  | bitcast | convert => exact Argument.Fits.mono h hsub
  | sizeOf => trivial
  | call => exact CallTyped.mono h hsub
  | phi => exact h

theorem StoreTyped.mono (h : StoreTyped Γ address value) (hsub : Γ ⊆ Δ) : StoreTyped Δ address value :=
  ⟨h.1.mono hsub, h.2.1.mono hsub, h.2.2⟩

theorem Instruction.Simple.mono {i : Instruction} (h : i.Simple env Γ) (hsub : Γ ⊆ Δ) : i.Simple env Δ := by
  cases i with
  | set | store | call => exact ⟨h.1.mono hsub, h.2⟩
  | label | branch | jump | ret => exact h

theorem CopyTyped.mono (h : CopyTyped env Γ name source destination) (hsub : Γ ⊆ Δ) :
    CopyTyped env Δ name source destination :=
  ⟨h.sourceFits.mono hsub, h.sourceType, h.destinationFits.mono hsub, h.destinationType, h.declared, h.memcpy⟩

theorem Straight.mono (h : Straight env Γ code) (hsub : Γ ⊆ Δ) : Straight env Δ code := by
  induction h generalizing Δ with
  | nil => exact .nil Δ
  | cons hi _ ih => exact .cons (hi.mono hsub) (ih (Typing.past_mono hsub _))
  | copy hcopy _ ih => exact .copy (hcopy.mono hsub) (ih (cons_subset_cons _ hsub))

theorem Straight.single (h : i.Simple env Γ) : Straight env Γ [i] := .cons h (.nil _)

theorem Straight.append (h : Straight env Γ code) (hmore : Straight env (Γ.past code) more) :
    Straight env Γ (code ++ more) := by
  induction h with
  | nil => exact hmore
  | @cons Γ i rest hi _ ih =>
    refine .cons hi (ih (hmore.mono fun x hx => ?_))
    rwa [← singleton_append, Typing.mem_past_append] at hx
  | @copy Γ name size start target source destination rest hcopy _ ih =>
    refine .copy hcopy (ih (hmore.mono fun x hx => ?_))
    grind [Typing.mem_past, hcopy.kept]

end Mono

end Lowering.IR
