import Lowering.Proofs.Simulation.Places
/-!
# What callers and procedures expect of each other

A caller hands values over (`Passed`): numbers as they are, structures by their addresses, each in memory that nobody
else uses any more. A structure comes back in memory that the caller provides, any other result as it is (`Returned`).
The procedure may use what was handed over as it likes, and new memory, but it leaves everything below alone.

`Serves` says that procedures keep to this, and do what calls of functions mean.
-/

namespace Lowering

open IR (Argument Code Local)
open Meaning

/-! ### Making calls -/

/-- A step that goes on to a certain moment. -/
def Effect.Leads (m : IR.Module) (p : Effect Progress) (M : Memory) (s : Moment) : Prop :=
  ∃ next : Moment, p M = .ok (.running next.frame next.callers) next.memory ∧ Moment.Steps m next s

/-- A step that fails, at once or later. -/
def Effect.Breaks (m : IR.Module) (p : Effect Progress) (M : Memory) (e : EvalError) : Prop :=
  (∃ M', p M = .error e M') ∨
    ∃ next : Moment, p M = .ok (.running next.frame next.callers) next.memory ∧ Moment.Halts m next (.error e)

section Calls

variable {site : Site} {R : Registers} {M : Memory} {ty : IR.Ty} {callee : String} {arguments : List Argument}
  {values : List Scalar} {rest : Code} {s : Moment} {e : EvalError}

theorem Moment.step_call (hvals : R.arguments arguments = .ok values) :
    step site.program (site.holding R rest) site.callers (.call ty callee arguments) M =
      call site.program (site.holding R rest) site.callers none callee values M := Effect.lift_bind hvals _ M

theorem Moment.step_set_call (hvals : R.arguments arguments = .ok values) (r : Local) :
    step site.program (site.holding R rest) site.callers (.set r (.call ty callee arguments)) M =
      call site.program (site.holding R rest) site.callers (some r) callee values M := by
  have heval : evaluate site.program (site.holding R rest) (.call ty callee arguments) M =
      .ok (.call callee values) M := Effect.lift_bind hvals _ M
  rw [step]
  simp [bind, EStateM.bind, heval]

theorem Effect.Leads.steps (hi : i.isLabel = false) {p : Effect Progress}
    (hp : step site.program (site.holding R rest) site.callers i M = p M) (h : p.Leads site.program M s) :
    Moment.Steps site.program ⟨site.holding R ([i] ++ rest), site.callers, M⟩ s := by
  obtain ⟨next, hnext, hsteps⟩ := h
  exact .head ⟨i, rest.untilLabel, IR.Code.untilLabel_cons hi rest, hp.trans hnext⟩ hsteps

theorem Effect.Breaks.halts (hi : i.isLabel = false) {p : Effect Progress}
    (hp : step site.program (site.holding R rest) site.callers i M = p M) (h : p.Breaks site.program M e) :
    Moment.Halts site.program ⟨site.holding R ([i] ++ rest), site.callers, M⟩ (.error e) := by
  obtain ⟨M', herr⟩ | ⟨next, hnext, hhalts⟩ := h
  · exact ⟨_, M', .refl _, i, rest.untilLabel, IR.Code.untilLabel_cons hi rest, hp.trans herr⟩
  · exact Moment.Steps.halts (.single ⟨i, rest.untilLabel, IR.Code.untilLabel_cons hi rest, hp.trans hnext⟩) hhalts

end Calls

/-! ### Handing over -/

/-- Values that are handed over. Structures lie in a range of memory one behind the other. -/
inductive Passed (c : Catalog) (M : Memory) : (low high : Nat) → List Value → List Scalar → Prop where
  | nil {low high : Nat} (h : low ≤ high) : Passed c M low high [] []
  | scalar {low high : Nat} {x : Value} {xs : List Value} {ss : List Scalar} (hx : x.Fits c)
      (hscalar : x.isStruct = false) (h : Passed c M low high xs ss) : Passed c M low high (x :: xs) (x.scalar :: ss)
  | struct {low high a : Nat} {x : Value} {xs : List Value} {ss : List Scalar} (hx : x.Fits c)
      (hstruct : x.isStruct = true)
      (hlow : low ≤ a) (hholds : M.Holds a x) (h : Passed c M (a + x.bytes.length) high xs ss) :
      Passed c M low high (x :: xs) (.address a :: ss)

namespace Passed

variable {c : Catalog} {M M' : Memory} {low high : Nat} {xs : List Value} {ss : List Scalar}

theorem le (h : Passed c M low high xs ss) : low ≤ high := by
  induction h with
  | nil h => exact h
  | scalar _ _ _ ih => exact ih
  | struct _ _ hlow _ _ ih => omega

theorem lower (h : Passed c M low high xs ss) (hlow : low' ≤ low) : Passed c M low' high xs ss := by
  induction h generalizing low' with
  | nil h => exact .nil (hlow.trans h)
  | scalar hx hscalar _ ih => exact .scalar hx hscalar (ih hlow)
  | struct hx hstruct hlow' hholds hrest => exact .struct hx hstruct (hlow.trans hlow') hholds hrest

theorem mono (h : Passed c M low high xs ss) (hsize : M.size ≤ M'.size)
    (hbytes : ∀ b, low ≤ b → b < high → M'.byteAt b = M.byteAt b) : Passed c M' low high xs ss := by
  induction h with
  | nil h => exact .nil h
  | scalar hx hscalar _ ih => exact .scalar hx hscalar (ih hbytes)
  | struct hx hstruct hlow hholds hrest ih =>
    have hend := hrest.le
    refine .struct hx hstruct hlow (hholds.of_bytes hsize fun b hb => ?_) (ih fun b hb hb' => ?_)
    · exact hbytes b (hlow.trans hb.1) (hb.2.trans_le hend)
    · exact hbytes b (hlow.trans ((Nat.le_add_right ..).trans hb)) hb'

theorem cons (hx : x.Fits c) (hstruct : x.isStruct = true → low ≤ a ∧ M.Holds a x) (hlow : low ≤ middle)
    (hmiddle : x.isStruct = true → a + x.bytes.length ≤ middle) (h : Passed c M middle high xs ss) :
    Passed c M low high (x :: xs) (x.handle a :: ss) := by
  cases hkind : x.isStruct with
  | true =>
    obtain ⟨ha, hholds⟩ := hstruct hkind
    rw [Value.handle_struct hkind]
    exact .struct hx hkind ha hholds (h.lower (hmiddle hkind))
  | false =>
    rw [Value.handle_scalar hkind]
    exact .scalar hx hkind (h.lower hlow)

end Passed

theorem TypeRef.isVoid_irType {t : TypeRef} (h : t.isVoid = true) : t.irType.isVoid = true := by
  rw [Catalog.primitive?_eq_some (by simpa [TypeRef.isVoid] using h : t.primitive? = some .void)]
  rfl

/-- What comes back from a procedure for the result of a function. -/
def Returned (c : Catalog) (M : Memory) (slot : Nat) (t : TypeRef) (result : Option Value) (out : Option Scalar) :
    Prop :=
  if t.isVoid then result = none ∧ out = none
  else ∃ x, result = some x ∧ x.Fits c ∧ x.ty = t ∧ if x.isStruct then M.Holds slot x ∧
    out = none else out = some x.scalar

theorem Returned.of_not_void {t : TypeRef} (h : Returned c M slot t result out)
    (hvoid : t.isVoid = false) :
    ∃ x, result = some x ∧ x.Fits c ∧ x.ty = t ∧ if x.isStruct then M.Holds slot x ∧
      out = none else out = some x.scalar := by
  rwa [Returned, hvoid, if_neg Bool.false_ne_true] at h

/-- The address that goes before the values that are handed over. -/
def slotOf (t : TypeRef) (slot : Nat) : List Scalar := if t.isLinear then [.address slot] else []

/-- **Calls do what they mean**, whoever makes them while `callers` wait. -/
def Serves (m : IR.Module) (c : Catalog) (r : Registry) (meaning : Function → List Value → Eval (Option Value))
    (callers : List Caller) : Prop :=
  ∀ f ∈ r.functions, f.failed = false → ∀ types, f.Linked c types → ∀ (frame : Frame) (destination : Option Local)
    {vs : List Value} {ss : List Scalar} {M : Memory} {low high slot : Nat},
      M.Proper → vs.map Value.ty = types.parameters → Passed c M low high vs ss → high ≤ M.size →
      (types.returnType.isLinear = true →
        high ≤ slot ∧ ∃ size, c.sizeOf? types.returnType = some size ∧ M.Has slot size) →
      (∀ r, destination = some r → types.returnType.isLinear = false ∧ types.returnType.isVoid = false) →
        Ensures (meaning f vs) M.size
          (fun result used => ∃ M' out frame', M'.size = used ∧ M'.Proper ∧ M.size ≤ M'.size ∧
            (∀ b < low, M'.byteAt b = M.byteAt b) ∧ Returned c M' slot types.returnType result out ∧
            frame.deliver destination out = .ok frame' ∧
            Effect.Leads m (call m frame callers destination f.represent (slotOf types.returnType slot ++ ss)) M
              ⟨frame', callers, M'⟩)
          fun stop _ => ∃ e, stop = .fails e ∧
            Effect.Breaks m (call m frame callers destination f.represent (slotOf types.returnType slot ++ ss)) M e

/-! ### Scenes -/

/-- Where a body is lowered and its code is run. -/
structure Scene where
  ctx : Context
  program : IR.Module
  callers : List Caller
  /-- What calls mean. -/
  call : Function → List Value → Eval (Option Value)
  /-- The numbers that are written in the body. -/
  numbers : Binary64 → Prop

namespace Scene

variable (k : Scene)

abbrev catalog : Catalog := k.ctx.catalog

/-- What evaluation depends on, with the memory that a machine has. -/
def setting : Setting := ⟨k.ctx.catalog, k.ctx.registry, some Memory.limit, k.call⟩

/-- A frame of the program runs while the callers wait. -/
structure Hosts (site : Site) : Prop where
  program : site.program = k.program
  callers : site.callers = k.callers

/-- A scene in good order. -/
structure Sound : Prop where
  laid : k.catalog.LaidIn k.program
  direct : k.catalog.Direct
  settled : k.catalog.Settled
  registry : k.ctx.registry.Sound k.catalog
  serves : Serves k.program k.catalog k.ctx.registry k.call k.callers
  /-- Numbers of the body that are equal are the same. -/
  numbers : ∀ x y, k.numbers x → k.numbers y → x.equal y = true → x = y

variable {k}

theorem Sound.laidIn (h : k.Sound) (hsite : k.Hosts site) : k.catalog.LaidIn site.program :=
  hsite.program ▸ h.laid

end Scene

end Lowering
