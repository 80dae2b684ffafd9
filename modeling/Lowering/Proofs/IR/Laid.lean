import Lowering.Proofs.IR.Typing
import Mathlib.Data.List.Forall2
/-!
# Structured code

`Laid p code exit stations` says that `code`, continuing the block at the point `p`, is put together from straight code,
returns and conditionals only, and that control comes out of it at `exit`, or not at all. A point is the label of the
block that code is going into and the registers that are set there. The blocks that `code` opens are its `stations`:
each with the registers that can be relied on in it, and the points that control arrives from.

Nothing in this description mentions paths. That a register is set on every path to its use comes from it all the same
(`Lowering.Proofs.IR.WellFormed`), because what is relied on in a station is known at each of its arrivals.
-/

namespace Lowering.IR

/-- A point in a block: its label, and the registers that are set. -/
structure Point where
  label : Local
  known : Typing

/-- A block: its label, the registers that can be relied on in it, and the points that control arrives from. -/
structure Station where
  label : Local
  entry : Typing
  arrivals : List Point

/-- The sources of a phi are one for each arrival, in order, with a value that is known there. -/
def SourcesFit (arrivals : List Point) (ty : Ty) (sources : List (Local × Operand)) : Prop :=
  List.Forall₂ (fun source arrival => source.1 = arrival.label ∧ source.2.Fits arrival.known ty) sources arrivals

/-- An instruction that sets a register to a phi over some arrivals. -/
def PhiFits (arrivals : List Point) (i : Instruction) : Prop :=
  ∃ destination ty sources, i = .set destination (.phi ty sources) ∧ SourcesFit arrivals ty sources ∧ ty.IsScalar ∧
    sources ≠ []

/-- What leaves a block for the place where branches meet, unless control left the procedure before. -/
def closing (join : Local) : Option Point → Code
  | none => []
  | some _ => [.jump join]

@[simp] theorem definitions_closing (join : Local) (exit : Option Point) : definitions (closing join exit) = [] := by
  cases exit <;> rfl

/-- The place where branches meet. If no branch arrives there is none. -/
inductive Meets (arrivals : List Point) (join : Local) : Code → Option Point → List Station → Prop where
  | nowhere (hnone : arrivals = []) : Meets arrivals join [] none []
  | somewhere (entry : Typing) (phis : Code) (hsome : arrivals ≠ []) (hentry : ∀ a ∈ arrivals, entry ⊆ a.known)
      (hphis : ∀ i ∈ phis, PhiFits arrivals i) :
      Meets arrivals join (.label join :: phis) (some ⟨join, entry.past phis⟩) [⟨join, entry, arrivals⟩]

/-- A procedure of a type may be left with a result. -/
def ReturnTyped (Γ : Typing) (returnType : Ty) : Option Argument → Prop
  | none => returnType = .void
  | some value => value.Fits Γ ∧ value.ty = returnType

/-- A branch goes by a truth value. -/
def ConditionTyped (Γ : Typing) (condition : Argument) : Prop := condition.Fits Γ ∧ condition.ty = .bool

/-- Structured code from a point to an exit. -/
inductive Laid (env : Setting) (returnType : Ty) : Point → Code → Option Point → List Station → Prop where
  | straight (p : Point) {code : Code} (h : Straight env p.known code) :
      Laid env returnType p code (some ⟨p.label, p.known.past code⟩) []
  | ret (p : Point) {value : Option Argument} (h : ReturnTyped p.known returnType value) :
      Laid env returnType p [.ret value] none []
  | seq {p q : Point} {exit : Option Point} {code more : Code} {stations others : List Station}
      (h : Laid env returnType p code (some q) stations) (hmore : Laid env returnType q more exit others) :
      Laid env returnType p (code ++ more) exit (stations ++ others)
  /-- A conditional with one branch. -/
  | one {p : Point} {condition : Argument} {start join : Local} {entry : Typing} {body meeting : Code}
      {exit out : Option Point} {stations met : List Station} (hcond : ConditionTyped p.known condition)
      (hentry : entry ⊆ p.known) (hbody : Laid env returnType ⟨start, entry⟩ body exit stations)
      (hmeets : Meets (p :: exit.toList) join meeting out met) :
      Laid env returnType p
        (.branch condition start join :: .label start :: body ++ closing join exit ++ meeting) out
        (⟨start, entry, [p]⟩ :: stations ++ met)
  /-- A conditional with two branches. -/
  | two {p : Point} {condition : Argument} {start start' join : Local} {entry entry' : Typing}
      {body body' meeting : Code} {exit exit' out : Option Point} {stations stations' met : List Station}
      (hcond : ConditionTyped p.known condition) (hentry : entry ⊆ p.known) (hentry' : entry' ⊆ p.known)
      (hbody : Laid env returnType ⟨start, entry⟩ body exit stations)
      (hbody' : Laid env returnType ⟨start', entry'⟩ body' exit' stations')
      (hmeets : Meets (exit.toList ++ exit'.toList) join meeting out met) :
      Laid env returnType p
        (.branch condition start start' :: .label start :: body ++ closing join exit ++
          (.label start' :: body' ++ closing join exit') ++ meeting) out
        (⟨start, entry, [p]⟩ :: stations ++ (⟨start', entry', [p]⟩ :: stations' ++ met))

end Lowering.IR
