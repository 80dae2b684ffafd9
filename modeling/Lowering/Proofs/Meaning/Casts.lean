import Lowering.Proofs.Meaning.Scalar
/-!
# Casts between integers

A cast keeps the integer modulo the width of its target, whether it takes an instruction or reuses the operand. Casts
that follow each other come to the last one, as long as every type in between has the integer.
-/

namespace Lowering

namespace Primitive

variable {kind : Primitive}

instance (kind : Primitive) (n : Int) : Decidable (kind.InRange n) := inferInstanceAs (Decidable (kind.wrap n = n))

/-- The integer that the bits of a word stand for. -/
def decode (kind : Primitive) (w : UInt64) : Int :=
  if kind.isSigned then (Word.signed kind.bits w).toInt else w.toNat

theorem toNat_encode (kind : Primitive) (n : Int) : (kind.encode n).toNat = (BitVec.ofInt kind.bits n).toNat := by
  rw [← mask_encode, Word.toNat_mask_eq_low, low_encode]

theorem decode_encode (hkind : kind.category = .int) (n : Int) : kind.decode (kind.encode n) = kind.wrap n := by
  unfold decode wrap
  cases kind.isSigned with
  | true =>
    rw [if_pos rfl, if_pos rfl, Word.toInt_signed_eq_low (bits_pos hkind) kind.bits_le, low_encode, BitVec.toInt_ofInt]
  | false =>
    rw [if_neg (by decide), if_neg (by decide), toNat_encode, BitVec.toNat_ofInt, Int.toNat_of_nonneg]
    exact Int.emod_nonneg _ (Int.natCast_ne_zero.2 (Nat.two_pow_pos _).ne')

theorem wrap_emod (kind : Primitive) (n : Int) : kind.wrap n % (2 ^ kind.bits : Nat) = n % (2 ^ kind.bits : Nat) := by
  unfold wrap
  split
  · exact Int.bmod_emod
  · exact Int.emod_emod ..

end Primitive

/-- Brings an operand to one type after another. What a cast makes is the operand of the next one, in a register if it
takes an instruction to make. -/
def castThrough (m : IR.Module) (id : IR.Local) : List Primitive → Frame → Ready → Primitive → Effect Scalar
  | [], frame, operand, _ => frame.registers.argument operand.argument
  | target :: targets, frame, operand, source =>
    match (convert operand source target).output with
    | .bare argument => castThrough m id targets frame { operand with argument } target
    | .compound value => do
      let frame ← frame.deliver id (match ← evaluate m frame value with | .done x => some x | .call .. => none)
      castThrough m id targets frame { operand with argument := .register target.irType id } target

/-- An operand that is an integer of a type: a constant, or a register with its bits. -/
structure IR.Argument.Is (a : IR.Argument) (R : Registers) (kind : Primitive) (n : Int) : Prop where
  ty : a.ty = kind.irType
  value : a.value = .int n ∨ ∃ id, a.value = .register id ∧ R.get? id = some (.int (kind.encode n))

section Casts

variable {frame : Frame} {operand : Ready} {source target : Primitive} {n : Int}

theorem IR.Argument.Is.argument_eq {a : IR.Argument} (h : a.Is R source n) (hsrc : source.category = .int) :
    R.argument a = .ok (.int (source.encode n)) := by
  obtain ⟨ty, value⟩ := a
  obtain ⟨rfl, rfl | ⟨id, rfl, hid⟩⟩ := h
  · simp [Registers.argument, Registers.operand, Meaning.wordBits_irType hsrc, Primitive.encode]
  · exact Registers.argument_register hid

variable (m : IR.Module) (id : IR.Local) (M : Memory) (hsrc : source.category = .int) (htgt : target.category = .int)
  (hn : source.InRange n) (h : operand.argument.Is frame.registers source n)
include hsrc htgt hn h

/-- One cast leaves the integer in an operand of the target. -/
theorem castThrough_cons (targets : List Primitive) :
    ∃ frame' operand', operand'.argument.Is frame'.registers target n ∧
      castThrough m id (target :: targets) frame operand source M =
        castThrough m id targets frame' operand' target M := by
  have hinteger := Meaning.conversion_integers hsrc htgt n hn
  rw [castThrough, convert]
  rcases hconv : source.conversion target with _ | conversion
  · rw [hconv] at hinteger
    refine ⟨frame, { operand with argument := ⟨target.irType, operand.argument.value⟩ },
      ⟨rfl, h.value.imp_right ?_⟩, rfl⟩
    rintro ⟨id, hvalue, hid⟩
    exact ⟨id, hvalue, by rw [hid, hinteger]⟩
  rw [hconv] at hinteger
  have hvalue : evaluate m frame (.convert conversion operand.argument target.irType) M =
      .ok (.done (.int (target.encode n))) M := by
    rw [evaluate, Effect.lift_bind (h.argument_eq hsrc), h.ty, hinteger]
    rfl
  refine ⟨{ frame with registers := frame.registers.set id (.int (target.encode n)) },
    { operand with argument := .register target.irType id },
    ⟨rfl, .inr ⟨id, rfl, Registers.get?_set_self ..⟩⟩, ?_⟩
  simp only [bind, EStateM.bind, hvalue]
  rfl

theorem castThrough_append {through : List Primitive}
    (hthrough : ∀ kind ∈ through, kind.category = .int ∧ kind.InRange n) :
    castThrough m id (through ++ [target]) frame operand source M = .ok (.int (target.encode n)) M := by
  induction through generalizing frame operand source with
  | nil =>
    obtain ⟨frame', operand', hoperand, hcast⟩ := castThrough_cons m id M hsrc htgt hn h []
    rw [List.nil_append, hcast, castThrough, hoperand.argument_eq htgt]
    rfl
  | cons kind through ih =>
    obtain ⟨hkind, hin⟩ := hthrough kind (.head _)
    obtain ⟨frame', operand', hoperand, hcast⟩ := castThrough_cons m id M hsrc hkind hn h (through ++ [target])
    rw [List.cons_append, hcast]
    exact ih hkind hin hoperand fun kind hkind => hthrough kind (.tail _ hkind)

end Casts

/-- **Casts between integers keep the integer modulo the width of the target.** An `operand` that holds `n` at `source`
is cast to a word that holds `n` modulo `2 ^ target.bits` (`castThrough`), which is `n` if `target` has it; types to go
`through` that have it make no difference. -/
theorem casts_keep_integers (m : IR.Module) (id : IR.Local) (M : Memory) {frame : Frame} {operand : Ready}
    {source target : Primitive} {n : Int} (hsrc : source.category = .int) (htgt : target.category = .int)
    (hn : source.InRange n) (h : operand.argument.Is frame.registers source n) :
    ∃ w : UInt64, castThrough m id [target] frame operand source M = .ok (.int w) M ∧
      w.toNat < 2 ^ target.bits ∧
      target.decode w % (2 ^ target.bits : Nat) = n % (2 ^ target.bits : Nat) ∧
      (target.InRange n → target.decode w = n) ∧
      ∀ through : List Primitive, (∀ kind ∈ through, kind.category = .int ∧ kind.InRange n) →
        castThrough m id (through ++ [target]) frame operand source M = .ok (.int w) M := by
  have hcast {through} := @castThrough_append frame operand source target n m id M hsrc htgt hn h through
  refine ⟨target.encode n, hcast (List.forall_mem_nil _), ?_, ?_, fun hin => ?_, fun through => hcast⟩
  · rw [Primitive.toNat_encode]
    exact BitVec.isLt _
  · rw [Primitive.decode_encode htgt]
    exact target.wrap_emod n
  · rw [Primitive.decode_encode htgt, hin]

/-- Minus one as a constant of eight bits, cast to 32 bits without a sign by way of 64 bits. -/
theorem casts_keep_minus_one :
    ∃ w : UInt64, castThrough ⟨[], []⟩ 0 [.i64, .u32] ⟨⟨"main", .void, [], false, []⟩, 0, [], none, []⟩
      ⟨[], ⟨.int 8, .int (-1)⟩, .primitive .i8, .temporary, []⟩ .i8 .empty = .ok (.int w) .empty ∧
      Primitive.u32.decode w % (2 ^ 32 : Nat) = 0xffffffff := by
  obtain ⟨w, -, -, hdecode, -, hthrough⟩ := @casts_keep_integers ⟨[], []⟩ 0 .empty
    ⟨⟨"main", .void, [], false, []⟩, 0, [], none, []⟩
      ⟨[], ⟨.int 8, .int (-1)⟩, .primitive .i8, .temporary, []⟩ .i8 .u32 (-1)
    rfl rfl (by decide) ⟨rfl, .inl rfl⟩
  exact ⟨w, hthrough [.i64] (by decide), hdecode⟩

end Lowering
