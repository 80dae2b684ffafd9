import Lowering.Proofs.Body.Carries
import Lowering.Proofs.Simulation.Simulates
/-!
# Where the variables of an evaluation are while code runs

A variable of the evaluation is a variable of the scope that the code was lowered in, known by the same position. Behind
it are bytes at a place of its own. `Variable.Holds` says what stands for its value: a structure lies at its place, and
the address of the place is known; any other value is the one that is known, or the one that lies at the place when none
is. What is known and not written back yet makes no difference.

`Scope.Holds` says this of all variables, and that no two of them share a byte. Running code may change what is known
and what lies where, as long as each variable still stands for its value.
-/

namespace Lowering

open List
open Meaning

/-! ### Variables by position -/

namespace Meaning.Env

/-- The variable at a position, counted from the one declared first. -/
def at? : Env → Nat → Option (String × Value)
  | [], _ => none
  | entry :: rest, id => if id = rest.length then some entry else at? rest id

/-- Gives the variable at a position a new value. -/
def put : Env → Nat → Value → Env
  | [], _, _ => []
  | entry :: rest, id, x => if id = rest.length then (entry.1, x) :: rest else entry :: put rest id x

attribute [local grind =] at? put

variable {env inner : Env} {id : Nat} {entry : String × Value} {name : String} {x y : Value}

theorem at?_lt (h : env.at? id = some entry) : id < env.length := by
  induction env with
  | nil => cases h
  | cons first rest ih =>
    rw [at?] at h
    grind

@[simp] theorem at?_push (env : Env) (entry : String × Value) : at? (entry :: env) env.length = some entry := by
  rw [at?, if_pos rfl]

theorem at?_cons_of_lt (h : id < env.length) : at? (entry :: env) id = env.at? id := by
  rw [at?, if_neg (Nat.ne_of_lt h)]

@[simp] theorem length_put (env : Env) (id : Nat) (x : Value) : (env.put id x).length = env.length := by
  induction env with
  | nil => rfl
  | cons first rest ih =>
    rw [put]
    grind

theorem at?_put_self (h : env.at? id = some entry) (x : Value) : (env.put id x).at? id = some (entry.1, x) := by
  induction env with
  | nil => cases h
  | cons first rest ih =>
    grind [length_put]

theorem at?_put_of_ne (h : other ≠ id) (env : Env) (x : Value) : (env.put id x).at? other = env.at? other := by
  induction env with
  | nil => rfl
  | cons first rest ih =>
    rw [put]
    split
    · simp_all [at?]
    · rw [at?, at?, length_put, ih]

theorem put_self (h : env.at? id = some entry) : env.put id entry.2 = env := by
  induction env with
  | nil => rfl
  | cons first rest ih =>
    grind

theorem get?_of_at? (h : env.at? id = some (name, x))
    (hlater : ∀ other entry, id < other → env.at? other = some entry → entry.1 ≠ name) : env.get? name = some x := by
  induction env with
  | nil => cases h
  | cons first rest ih =>
    rw [at?] at h
    rw [get?, lookup_cons]
    split at h
    · simp_all
    have hlt := at?_lt h
    have hne : first.1 ≠ name := hlater rest.length first hlt (at?_push rest first)
    rw [beq_false_of_ne hne.symm]
    exact ih h fun other entry hother hentry =>
      hlater other entry hother ((at?_cons_of_lt (at?_lt hentry)).trans hentry)

theorem set_eq_put (h : env.at? id = some (name, x))
    (hlater : ∀ other entry, id < other → env.at? other = some entry → entry.1 ≠ name) (y : Value) :
    env.set name y = env.put id y := by
  induction env with
  | nil => cases h
  | cons first rest ih =>
    obtain ⟨key, old⟩ := first
    rw [at?] at h
    rw [set, put]
    split at h
    · simp_all
    rename_i hid
    have hlt := at?_lt h
    have hne : key ≠ name := hlater rest.length (key, old) hlt (at?_push rest _)
    rw [if_neg hne, if_neg hid, ih h fun other entry hother hentry =>
      hlater other entry hother ((at?_cons_of_lt (at?_lt hentry)).trans hentry)]

theorem length_leave (h : env.length ≤ inner.length) : (env.leave inner).length = env.length := by
  rw [leave, length_drop]
  omega

theorem at?_drop (count : Nat) (h : id + count < inner.length) : at? (inner.drop count) id = inner.at? id := by
  induction count generalizing inner with
  | zero => rfl
  | succ count ih =>
    rcases inner with _ | ⟨first, rest⟩
    · cases h
    rw [length_cons] at h
    rw [drop_succ_cons, ih (by omega), at?_cons_of_lt (by omega)]

theorem at?_leave (h : env.length ≤ inner.length) (hid : id < env.length) : (env.leave inner).at? id = inner.at? id :=
  at?_drop _ (by omega)

end Meaning.Env

/-! ### Bytes of values -/

/-- A byte of a value that lies at an address. -/
def Meaning.Value.Covers (x : Value) (a b : Nat) : Prop := a ≤ b ∧ b < a + x.bytes.length

/-- A byte of a variable. -/
def Meaning.Env.Owns (env : Env) (place : Nat → Nat) (b : Nat) : Prop :=
  ∃ id entry, env.at? id = some entry ∧ entry.2.Covers (place id) b

theorem Meaning.Value.isLinear_ty (x : Value) : x.ty.isLinear = x.isStruct := by cases x <;> rfl

namespace Meaning.Env

variable {env env' : Env} {place : Nat → Nat} {id a b : Nat} {entry : String × Value} {x : Value}

/-- No two variables share a byte. -/
def Apart (env : Env) (place : Nat → Nat) : Prop :=
  ∀ id other entry entry', id ≠ other → env.at? id = some entry → env.at? other = some entry' →
    ∀ b, entry.2.Covers (place id) b → ¬ entry'.2.Covers (place other) b

/-- A position at which there is a value, among variables that were there before. -/
def Places (env : Env) (id : Nat) (x : Value) (env' : Env) : Prop :=
  ∀ other entry, env'.at? other = some entry → (other = id ∧ entry.2 = x) ∨ (other ≠ id ∧ env.at? other = some entry)

theorem places_put (h : env.at? id = some entry) (x : Value) : env.Places id x (env.put id x) := by
  intro other found hfound
  by_cases hother : other = id
  · subst hother
    rw [at?_put_self h] at hfound
    grind
  · exact .inr ⟨hother, by rwa [at?_put_of_ne hother] at hfound⟩

theorem places_push (name : String) (x : Value) (env : Env) : env.Places env.length x ((name, x) :: env) := by
  intro other found hfound
  grind [at?]

theorem Places.owns (h : env.Places id x env') (hb : env'.Owns (Function.update place id a) b) :
    env.Owns place b ∨ x.Covers a b := by
  obtain ⟨other, entry, hentry, hcovers⟩ := hb
  obtain ⟨rfl, rfl⟩ | ⟨hother, hold⟩ := h other entry hentry
  · simp_all
  · rw [Function.update_of_ne hother] at hcovers
    exact .inl ⟨other, entry, hold, hcovers⟩

theorem Places.apart (h : env.Places id x env') (hapart : env.Apart place)
    (hothers : ∀ other entry, other ≠ id → env.at? other = some entry → ∀ b, entry.2.Covers (place other) b →
      ¬ x.Covers a b) : env'.Apart (Function.update place id a) := by
  intro first second entry entry' hne hentry hentry' b hb hb'
  obtain ⟨rfl, rfl⟩ | ⟨hfirst, hold⟩ := h first entry hentry
  · obtain ⟨rfl, -⟩ | ⟨hsecond, hold'⟩ := h second entry' hentry'
    · exact hne rfl
    · grind
  rw [Function.update_of_ne hfirst] at hb
  obtain ⟨rfl, rfl⟩ | ⟨hsecond, hold'⟩ := h second entry' hentry'
  · grind
  · rw [Function.update_of_ne hsecond] at hb'
    exact hapart first second entry entry' hne hold hold' b hb hb'

end Meaning.Env

variable {a : Nat}

theorem Memory.Holds.of_bytes {M M' : Memory} (h : M.Holds a x) (hsize : M.size ≤ M'.size)
    (hbytes : ∀ b, x.Covers a b → M'.byteAt b = M.byteAt b) : M'.Holds a x :=
  h.congr hsize fun b hlow hhigh => hbytes b ⟨hlow, hhigh⟩

theorem Memory.Has.patch {M : Memory} (h : M.Has a x.bytes.length) :
    (M.patch a x.bytes).Holds a x ∧ ∀ b, ¬ x.Covers a b → (M.patch a x.bytes).byteAt b = M.byteAt b := by
  refine ⟨⟨⟨h.guarded, by rw [Memory.size_patch]; exact h.allocated⟩, Memory.slice_patch M a _ h.allocated⟩,
    fun b hb => ?_⟩
  rw [Memory.byteAt_patch M a _ h.allocated]
  exact if_neg hb

/-! ### Variables -/

variable {c : Catalog} {R R' : Registers} {M M' : Memory} {v : Variable} {a : Nat} {x : Value} {s : Scope}
  {place : Nat → Nat} {env : Env}

/-- A variable stands for a value that belongs at an address. -/
structure Variable.Holds (c : Catalog) (R : Registers) (M : Memory) (v : Variable) (a : Nat) (x : Value) : Prop where
  ty : v.ty = x.ty
  fits : x.Fits c
  has : M.Has a x.bytes.length
  /-- A structure lies at its address. -/
  linear : v.ty.isLinear = true → v.storage = none ∧ M.Holds a x ∧
    ∃ value, v.cache = some value ∧ R.operand v.ty.irType value = .ok (.address a)
  stored : v.ty.isLinear = false → ∃ address, v.storage = some address ∧ R.argument address = .ok (.address a)
  cached : v.ty.isLinear = false → ∀ value, v.cache = some value → R.operand v.ty.irType value = .ok x.scalar
  kept : v.ty.isLinear = false → v.cache = none → M.Holds a x
  dirty : v.dirty = true → ∃ value, v.cache = some value

theorem Variable.Holds.congr (h : v.Holds c R M a x) (hR : ∀ r, v.Uses r → R'.get? r = R.get? r)
    (hsize : M.size ≤ M'.size) (hbytes : ∀ b, x.Covers a b → M'.byteAt b = M.byteAt b) : v.Holds c R' M' a x where
  ty := h.ty
  fits := h.fits
  has := h.has.mono hsize
  linear hlin := by
    obtain ⟨hstor, hholds, value, hvalue, haddr⟩ := h.linear hlin
    refine ⟨hstor, hholds.of_bytes hsize hbytes, value, hvalue, ?_⟩
    rwa [Registers.operand_congr fun r hr => hR r (.inl ⟨value, hvalue, hr⟩)]
  stored hlin := by
    obtain ⟨address, hstor, haddr⟩ := h.stored hlin
    refine ⟨address, hstor, ?_⟩
    rwa [Registers.argument, Registers.operand_congr fun r hr => hR r (.inr ⟨address, hstor, hr⟩)]
  cached hlin value hvalue := by
    rw [Registers.operand_congr fun r hr => hR r (.inl ⟨value, hvalue, hr⟩)]
    exact h.cached hlin value hvalue
  kept hlin hcache := (h.kept hlin hcache).of_bytes hsize hbytes
  dirty := h.dirty

theorem Variable.Holds.exists_get? (h : v.Holds c R M a x) (hr : v.Uses r) : ∃ u, R.get? r = some u := by
  cases hlin : v.ty.isLinear with
  | true =>
    obtain ⟨hstor, -, value, hvalue, haddr⟩ := h.linear hlin
    obtain ⟨o, ho, hr⟩ | ⟨address, haddr', -⟩ := hr
    · cases hvalue.symm.trans ho
      exact ⟨_, Registers.get?_of_operand haddr hr⟩
    · cases hstor.symm.trans haddr'
  | false =>
    obtain ⟨address, hstor, haddr⟩ := h.stored hlin
    obtain ⟨o, ho, hr⟩ | ⟨address', haddr', hr⟩ := hr
    · exact ⟨_, Registers.get?_of_operand (h.cached hlin o ho) hr⟩
    · cases hstor.symm.trans haddr'
      exact ⟨_, Registers.get?_of_operand haddr hr⟩

theorem Variable.Holds.mono (h : v.Holds c R M a x) (hR : R.Le R') (hsize : M.size ≤ M'.size)
    (hbytes : ∀ b, x.Covers a b → M'.byteAt b = M.byteAt b) : v.Holds c R' M' a x := by
  refine h.congr (fun r hr => ?_) hsize hbytes
  obtain ⟨u, hu⟩ := h.exists_get? hr
  rw [hu, hR r u hu]

/-- The variables of a scope stand for those of an evaluation, each at a place of its own. -/
structure Scope.Holds (c : Catalog) (R : Registers) (M : Memory) (s : Scope) (place : Nat → Nat) (env : Env) :
    Prop where
  length : env.length = s.vars.length
  vars : ∀ id v, s.get? id = some v → ∃ x, env.at? id = some (v.name, x) ∧ v.Holds c R M (place id) x
  apart : env.Apart place

namespace Scope.Holds

variable {id : Nat} {v : Variable} {x : Value} (h : s.Holds c R M place env)
include h

theorem exists_var (hentry : env.at? id = some entry) :
    ∃ v, s.get? id = some v ∧ v.name = entry.1 ∧ v.Holds c R M (place id) entry.2 := by
  have hid : id < s.vars.length := h.length ▸ Env.at?_lt hentry
  have hv : s.get? id = some s.vars[id] := List.getElem?_eq_getElem hid
  obtain ⟨x, hx, hholds⟩ := h.vars id _ hv
  grind

theorem lt_of_owns (hb : env.Owns place b) : b < M.size := by
  obtain ⟨id, entry, hentry, -, hhigh⟩ := hb
  obtain ⟨v, -, -, hholds⟩ := h.exists_var hentry
  exact hhigh.trans_le hholds.has.allocated

/-- Variables go on standing for their values if each of them does. -/
theorem transport
    (hvars : ∀ id (v : Variable) x, env.at? id = some (v.name, x) → v.Holds c R M (place id) x →
      v.Holds c R' M' (place id) x) :
    s.Holds c R' M' place env where
  length := h.length
  vars id v hv := by
    obtain ⟨x, hx, hholds⟩ := h.vars id v hv
    exact ⟨x, hx, hvars id v x hx hholds⟩
  apart := h.apart

/-- Variables go on standing for their values where their bytes stay as they are. -/
theorem mono (hR : R.Le R') (hsize : M.size ≤ M'.size) (hbytes : ∀ b, env.Owns place b → M'.byteAt b = M.byteAt b) :
    s.Holds c R' M' place env :=
  h.transport fun id _ _ hx hholds => hholds.mono hR hsize fun b hb => hbytes b ⟨id, _, hx, hb⟩

theorem congr {s' : Scope} (hvars : s'.vars = s.vars) : s'.Holds c R M place env where
  length := by rw [hvars]; exact h.length
  vars id v hv := h.vars id v (by rwa [Scope.get?, hvars] at hv)
  apart := h.apart

/-- **A variable changes**, what is known of it or where it is or what it stands for, and the others stay. -/
theorem update (hv : s.get? id = some v) (hname : v'.name = v.name) (hR : R.Le R')
    (hsize : M.size ≤ M'.size) (hholds : v'.Holds c R' M' a x)
    (hothers : ∀ other entry, other ≠ id → env.at? other = some entry → ∀ b, entry.2.Covers (place other) b →
      M'.byteAt b = M.byteAt b ∧ ¬ x.Covers a b) :
    (s.put id v').Holds c R' M' (Function.update place id a) (env.put id x) := by
  obtain ⟨old, hold, -⟩ := h.vars id v hv
  constructor
  case length => rw [Env.length_put, h.length, Scope.put, length_set]
  case vars =>
    intro other u hu
    obtain ⟨rfl, rfl⟩ | ⟨hne, hu⟩ := Scope.get?_put hu
    · exact ⟨x, by rw [Env.at?_put_self hold, hname], by rwa [Function.update_self]⟩
    obtain ⟨y, hy, hholds'⟩ := h.vars other u hu
    refine ⟨y, by rw [Env.at?_put_of_ne hne, hy], ?_⟩
    rw [Function.update_of_ne hne]
    exact hholds'.mono hR hsize fun b hb => (hothers other _ hne hy b hb).1
  case apart =>
    exact (Env.places_put hold x).apart h.apart fun other entry hother hentry b hb =>
      (hothers other entry hother hentry b hb).2

theorem refresh (hv : s.get? id = some v) (hname : v'.name = v.name) (hR : R.Le R')
    (hsize : M.size ≤ M'.size) (hx : env.at? id = some (v.name, x)) (hholds : v'.Holds c R' M' (place id) x)
    (hothers : ∀ other entry, other ≠ id → env.at? other = some entry → ∀ b, entry.2.Covers (place other) b →
      M'.byteAt b = M.byteAt b) : (s.put id v').Holds c R' M' place env := by
  have hupdate := h.update hv hname hR hsize hholds fun other entry hother hentry b hb =>
    ⟨hothers other entry hother hentry b hb, fun hb' => h.apart other id entry _ hother hentry hx b hb hb'⟩
  rwa [Function.update_eq_self, Env.put_self hx] at hupdate

/-- **A new variable.** -/
theorem push (hv : v.Holds c R M a x) (hapart : ∀ b, x.Covers a b → ¬ env.Owns place b) :
    (s.push v).Holds c R M (Function.update place env.length a) ((v.name, x) :: env) := by
  constructor
  case length => rw [length_cons, h.length, Scope.push, length_append, length_singleton]
  case vars =>
    intro id u hu
    obtain ⟨hid, rfl⟩ | hu := Scope.get?_push hu
    · simp [← h.length, *]
    obtain ⟨y, hy, hholds⟩ := h.vars id u hu
    have hid := Env.at?_lt hy
    refine ⟨y, by rw [Env.at?_cons_of_lt hid, hy], ?_⟩
    rwa [Function.update_of_ne (Nat.ne_of_lt hid)]
  case apart =>
    exact (Env.places_push v.name x env).apart h.apart fun other entry _ hentry b hb hb' =>
      hapart b hb' ⟨other, entry, hentry, hb⟩

theorem find? (hid : s.find? name = some id) :
    ∃ v x, s.get? id = some v ∧ v.name = name ∧ env.at? id = some (name, x) ∧ v.Holds c R M (place id) x ∧
      env.get? name = some x ∧ ∀ y, env.set name y = env.put id y := by
  obtain ⟨v, hv, rfl, hlater⟩ := Scope.find?_eq_some hid
  obtain ⟨x, hx, hholds⟩ := h.vars id v hv
  have hlater' : ∀ other entry, id < other → env.at? other = some entry → entry.1 ≠ v.name := by
    intro other entry hother hentry
    obtain ⟨u, hu, hname, -⟩ := h.exists_var hentry
    rw [← hname]
    exact hlater other u hother hu
  exact ⟨v, x, hv, rfl, hx, hholds, Env.get?_of_at? hx hlater', Env.set_eq_put hx hlater'⟩

end Scope.Holds

/-! ### What code leaves alone -/

/-- What code that evaluates an expression leaves alone: every register outside of a range, and all bytes but for those
of variables and new ones. -/
structure Quiet (env : Env) (place : Nat → Nat) (first last : Nat) (R : Registers) (M : Memory) (R' : Registers)
    (M' : Memory) : Prop where
  changes : Registers.Changes first last R R'
  le : R.Le R'
  proper : M'.Proper
  size : M.size ≤ M'.size
  spares : ∀ b, b < M.size → ¬ env.Owns place b → M'.byteAt b = M.byteAt b

namespace Quiet

variable {first second last : Nat} {R'' : Registers} {M'' : Memory}

theorem refl (env : Env) (place : Nat → Nat) (first last : Nat) (R : Registers) (hM : M.Proper) :
    Quiet env place first last R M R M :=
  ⟨.refl first last R, .refl R, hM, le_rfl, fun _ _ _ => rfl⟩

theorem mono (h : Quiet env place first last R M R' M') (hfirst : first' ≤ first)
    (hlast : last ≤ last') : Quiet env place first' last' R M R' M' :=
  ⟨h.changes.mono hfirst hlast, h.le, h.proper, h.size, h.spares⟩

theorem trans (h : Quiet env place first last R M R' M') (h' : Quiet env place first last R' M' R'' M'') :
    Quiet env place first last R M R'' M'' where
  changes := h.changes.trans h'.changes
  le := h.le.trans h'.le
  proper := h'.proper
  size := h.size.trans h'.size
  spares b hb howns := (h'.spares b (hb.trans_le h.size) howns).trans (h.spares b hb howns)

theorem append (h : Quiet env place first second R M R' M') (h' : Quiet env place second last R' M' R'' M'')
    (hfirst : first ≤ second) (hsecond : second ≤ last) : Quiet env place first last R M R'' M'' :=
  (h.mono le_rfl hsecond).trans (h'.mono hfirst le_rfl)

theorem set {id} (hfirst : first ≤ id) (hlast : id < last) (hblank : R.get? id = none) (hM : M.Proper) (u : Scalar) :
    Quiet env place first last R M (R.set id u) M :=
  ⟨.set hfirst hlast R u, .set hblank u, hM, le_rfl, fun _ _ _ => rfl⟩

end Quiet

end Lowering
