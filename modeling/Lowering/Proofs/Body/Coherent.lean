import Lowering.Proofs.Body.Carries
import Lowering.Proofs.Body.Variables
/-!
# What the variables of a scope stand for, in registers and memory

A variable denotes the value that is known of it, or else what lies in its storage. A scope is *coherent* with registers
and memory if every variable denotes something, and what is known of a variable that is not dirty lies in its storage as
well (`Scope.Coherent`).

What a variable denotes depends on the registers that it uses. As long as those come before a number, nothing that is
done with later registers matters (`Variable.Below`).
-/

namespace Lowering

open IR (Operand)

/-! ### Registers that come before a number -/

/-- An operand that reads no register from a number on. -/
def IR.Operand.Below (n : Nat) (o : Operand) : Prop := ∀ id, o.register? = some id → id < n

variable {n : Nat} {o : Operand}

theorem IR.Operand.Below.mono (h : o.Below n) (hn : n ≤ n') : o.Below n' :=
  fun id hid => (h id hid).trans_le hn

theorem IR.Operand.below_register {id} (h : id < n) : (Operand.register id).Below n := by
  intro other hother
  cases hother
  exact h

namespace Registers

variable {n n' first last : Nat} {R R' R'' : Registers}

/-- Registers that come before a number have the same values. -/
def AgreeBelow (n : Nat) (R R' : Registers) : Prop := ∀ id, id < n → R'.get? id = R.get? id

theorem AgreeBelow.refl (n : Nat) (R : Registers) : AgreeBelow n R R := fun _ _ => rfl

theorem AgreeBelow.trans (h : AgreeBelow n R R') (h' : AgreeBelow n R' R'') : AgreeBelow n R R'' :=
  fun id hid => (h' id hid).trans (h id hid)

theorem AgreeBelow.mono (h : AgreeBelow n R R') (hn : n' ≤ n) : AgreeBelow n' R R' :=
  fun id hid => h id (hid.trans_le hn)

theorem AgreeBelow.set {id} (h : n ≤ id) (R : Registers) (x : Scalar) : AgreeBelow n R (R.set id x) := by
  intro other hother
  rw [get?_set, if_neg (by rintro rfl; exact Nat.not_lt.2 h hother)]

theorem Changes.agreeBelow (h : Changes first last R R') : AgreeBelow first R R' :=
  fun id hid => h id (by omega)

theorem AgreeBelow.operand (h : AgreeBelow n R R') (ho : o.Below n) (ty : IR.Ty) :
    R'.operand ty o = R.operand ty o :=
  operand_congr (fun id hid => h id (ho id hid)) ty

end Registers

/-- All that is known of a variable can be found in registers that come before a number. -/
structure Variable.Below (n : Nat) (v : Variable) : Prop where
  cache : ∀ o, v.cache = some o → o.Below n
  storage : ∀ address, v.storage = some address → address.value.Below n

theorem Variable.Below.mono {v : Variable} (h : v.Below n) (hn : n ≤ n') : v.Below n' :=
  ⟨fun o ho => (h.cache o ho).mono hn, fun address haddr => (h.storage address haddr).mono hn⟩

theorem Variable.Below.uses {v : Variable} (h : v.Below n) (hr : v.Uses r) : r < n := by
  obtain ⟨o, ho, hr⟩ | ⟨address, haddr, hr⟩ := hr
  · exact h.cache o ho r hr
  · exact h.storage address haddr r hr

/-- All that is known of variables can be found in registers that come before a number. -/
def Scope.Below (n : Nat) (s : Scope) : Prop := ∀ v ∈ s.vars, v.Below n

/-! ### What variables denote -/

namespace Variable

variable (m : IR.Module) (R : Registers) (M : Memory)

/-- What lies in the storage of a variable. -/
def content (v : Variable) : Option Scalar :=
  v.storage.bind fun address => (R.load m M v.ty.storageType address).toOption

/-- The value of a variable: what is known of it, or else what lies in its storage. -/
def denoted (v : Variable) : Option Scalar :=
  match v.cache with
  | some o => (R.operand v.ty.irType o).toOption
  | none => v.content m R M

/-- A variable denotes a value, and its storage has it too unless it has to be written back. -/
structure Denotes (v : Variable) (x : Scalar) : Prop where
  value : v.denoted m R M = some x
  clean : v.ty.isLinear = false → v.cache.isSome = true → v.dirty = false → v.content m R M = some x

variable {m R M} {R' : Registers} {v : Variable} {x : Scalar}

theorem load_of_content (hstor : v.storage = some address) (h : v.content m R M = some x) :
    R.load m M v.ty.storageType address = .ok x := by
  rw [Variable.content, hstor] at h
  exact toOption_eq_some.1 h

theorem denoted_of_known (h : v.cache = some o) : v.denoted m R M = (R.operand v.ty.irType o).toOption := by
  simp [denoted, h]

theorem denoted_of_unknown (h : v.cache = none) : v.denoted m R M = v.content m R M := by
  simp [denoted, h]

/-- The storage of a variable that need not be written back has its value. -/
theorem Denotes.content (h : v.Denotes m R M x) (hlin : v.ty.isLinear = false) (hdirty : v.dirty = false) :
    v.content m R M = some x := by
  cases hcache : v.cache with
  | none => rw [← denoted_of_unknown hcache, h.value]
  | some => exact h.clean hlin (by rw [hcache]; rfl) hdirty

theorem content_congr (h : ∀ r, v.Uses r → R'.get? r = R.get? r) : v.content m R' M = v.content m R M := by
  unfold Variable.content Registers.load Registers.argument
  cases hstor : v.storage with
  | none => rfl
  | some address => simp [Registers.operand_congr fun r hr => h r (.inr ⟨address, hstor, hr⟩)]

theorem Denotes.congr (hx : v.Denotes m R M x) (h : ∀ r, v.Uses r → R'.get? r = R.get? r) : v.Denotes m R' M x where
  value := by
    rw [← hx.value]
    cases hcache : v.cache with
    | none => simp [denoted_of_unknown hcache, content_congr h]
    | some o =>
      rw [denoted_of_known hcache, denoted_of_known hcache, Registers.operand_congr
        fun r hr => h r (.inl ⟨o, hcache, hr⟩)]
  clean hlin hcache hdirty := (content_congr h).trans (hx.clean hlin hcache hdirty)

theorem Denotes.known (hx : v.Denotes m R M x) {dirty} (hdirty : dirty = false → v.dirty = false)
    (ho : R.operand v.ty.irType o = .ok x) : Variable.Denotes m R M { v with cache := some o, dirty } x where
  value := (denoted_of_known rfl).trans (toOption_eq_some.2 ho)
  clean hlin _ hclean := hx.content hlin (hdirty hclean)

end Variable

/-- Every variable of a scope denotes a value. -/
def Scope.Coherent (m : IR.Module) (R : Registers) (M : Memory) (s : Scope) : Prop :=
  ∀ v ∈ s.vars, ∃ x, v.Denotes m R M x

end Lowering
