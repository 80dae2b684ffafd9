import Lowering.Proofs.Body.Coherent
import Lowering.Proofs.Machine.Scalar
/-!
# A scope behaves like a plain store

A `Session` is a scope in use, together with the machine that runs the code of every operation, and a plain list of
values: a new variable is added with the value it comes with or with zero, and writing replaces a value. Nothing else
changes the list. What is read from the scope is what the list has, whether values are kept in registers or not.

Variables have memory of their own, so a store to one of them leaves the others alone (`Session.Sound`).
-/

namespace Lowering

open List
open IR (Argument Code Local Operand)

/-! ### Variables and their memory -/

/-- The memory of a variable: its address and its size. -/
def Variable.At (m : IR.Module) (R : Registers) (v : Variable) (a : UInt64) (k : Nat) : Prop :=
  ∃ address, v.storage = some address ∧ R.argument address = .ok (.int a) ∧ sizeOf m v.ty.storageType = .ok k

/-- The bytes of a variable. -/
def Variable.Covers (m : IR.Module) (R : Registers) (v : Variable) (b : Nat) : Prop :=
  ∃ a k, v.At m R a k ∧ a.toNat ≤ b ∧ b < a.toNat + k

/-- A variable stands for a value: known values and, unless they have to be written back, stored ones are this one. -/
structure Variable.Stands (m : IR.Module) (R : Registers) (M : Memory) (v : Variable) (x : Scalar) : Prop where
  known : v.ty.isLinear = false → ∀ o, v.cache = some o → R.operand v.ty.irType o = .ok x ∧ v.ty.isScalar = true
  range : v.ty.isScalar = true → x.HasType v.ty.irType
  kept : v.ty.isScalar = true → v.dirty = false → v.content m R M = some x
  /-- A linear variable has an address. -/
  address : v.ty.isLinear = true → ∀ o, v.cache = some o → ∃ a, R.operand v.ty.irType o = .ok a

namespace Variable

variable {m : IR.Module} {R R' : Registers} {M M' : Memory} {v v' : Variable} {a a' : UInt64} {k k' n : Nat}
    {x : Scalar}

theorem At.unique (h : v.At m R a k) (h' : v.At m R a' k') : a = a' ∧ k = k' := by
  obtain ⟨address, hstor, haddr, hsize⟩ := h
  obtain ⟨address', hstor', haddr', hsize'⟩ := h'
  simp_all

theorem At.sized (h : v.At m R a k) : sizeOf m v.ty.storageType = .ok k := by
  obtain ⟨-, -, -, hsize⟩ := h
  exact hsize

theorem At.address (h : v.At m R a k) {address} (hstor : v.storage = some address) :
    R.argument address = .ok (.int a) := by
  obtain ⟨address', hstor', haddr, -⟩ := h
  simp_all

theorem At.not_linear (h : v.At m R a k) (hv : v.Formed caching) : v.ty.isLinear = false := by
  obtain ⟨address, hstor, -, -⟩ := h
  exact hv.not_linear hstor

theorem At.same (h : v.At m R a k) (hsame : v.Same v') : v'.At m R a k := by
  obtain ⟨address, hstor, haddr, hsize⟩ := h
  exact ⟨address, hsame.storage.trans hstor, haddr, by rw [hsame.ty]; exact hsize⟩

theorem at_below (hv : v.Below n) (hR : R.AgreeBelow n R') : v.At m R' a k ↔ v.At m R a k := by
  refine exists_congr fun address => and_congr_right fun hstor => ?_
  unfold Registers.argument
  rw [hR.operand (hv.storage address hstor)]

theorem At.content (h : v.At m R a k) : v.content m R M = (loadScalar m M v.ty.storageType a).toOption := by
  obtain ⟨address, hstor, haddr, -⟩ := h
  unfold Variable.content Registers.load
  rw [hstor, Option.bind_some, haddr]
  rfl

theorem Stands.of_linear (hlin : v.ty.isLinear = true)
    (haddr : ∀ o, v.cache = some o → ∃ a, R.operand v.ty.irType o = .ok a) : v.Stands m R M x := by
  have hnot : v.ty.isScalar = false := Bool.eq_false_iff.2 fun hscalar => by
    rw [TypeRef.isLinear_of_isScalar hscalar] at hlin
    cases hlin
  constructor
  · simp_all
  · simp [hnot]
  · simp [hnot]
  · exact fun _ => haddr

theorem Stands.of_known (hlin : v.ty.isLinear = false) (hcache : v.cache = some o) (hdirty : v.dirty = true)
    (ho : R.operand v.ty.irType o = .ok x) (hx : x.HasType v.ty.irType) : v.Stands m R M x := by
  constructor
  · intro _ o' ho'
    cases hcache.symm.trans ho'
    exact ⟨ho, hx.isScalar hlin⟩
  · exact fun _ => hx
  · simp [hdirty]
  · simp [hlin]

theorem Stands.of_stored (hcache : v.cache = none)
    (hx : v.ty.isScalar = true → x.HasType v.ty.irType ∧ v.content m R M = some x) : v.Stands m R M x := by
  constructor
  · simp [hcache]
  · exact fun hscalar => (hx hscalar).1
  · exact fun hscalar _ => (hx hscalar).2
  · simp [hcache]

/-- A variable stands for the same value as long as its bytes and the registers in use stay as they are. -/
theorem Stands.frame (h : v.Stands m R M x) (hv : v.Below n) (hR : R.AgreeBelow n R')
    (hcontent : v.ty.isScalar = true → v.content m R' M' = v.content m R M) : v.Stands m R' M' x where
  known hlin o ho := by
    rw [hR.operand (hv.cache o ho)]
    exact h.known hlin o ho
  range := h.range
  kept hscalar hdirty := (hcontent hscalar).trans (h.kept hscalar hdirty)
  address hlin o ho := by
    rw [hR.operand (hv.cache o ho)]
    exact h.address hlin o ho

end Variable

/-! ### Sessions -/

/-- A scope in use: the machine that runs its code, and the values that a plain store would have. -/
structure Session where
  work : Workspace
  registers : Registers
  memory : Memory
  store : List Scalar

namespace Session

/-- An operand that was made before, and has a value in the range of a type. -/
structure Offers (s : Session) (value : Argument) (ty : TypeRef) (x : Scalar) : Prop where
  typed : value.ty = ty.irType
  below : value.value.Below s.work.fresh
  evaluates : s.registers.argument value = .ok x
  range : x.HasType ty.irType

/-- A scope whose variables stand for the values of the plain store, each with memory of its own. -/
structure Sound (m : IR.Module) (s : Session) : Prop where
  proper : s.memory.Proper
  length : s.store.length = s.work.scope.vars.length
  formed : s.work.scope.Formed
  below : s.work.scope.Below s.work.fresh
  placed : ∀ v ∈ s.work.scope.vars, v.ty.isLinear = false → ∃ a k, v.At m s.registers a k ∧ s.memory.Has a.toNat k
  apart : ∀ id id' v v' a a' k k', id ≠ id' → s.work.scope.get? id = some v → s.work.scope.get? id' = some v' →
    v.At m s.registers a k → v'.At m s.registers a' k' → a.toNat + k ≤ a'.toNat ∨ a'.toNat + k' ≤ a.toNat
  values : ∀ id v x, s.work.scope.get? id = some v → s.store[id]? = some x → v.Stands m s.registers s.memory x

/-- The machine goes on without setting registers in use, and changes bytes of some places only. -/
structure Spares (s : Session) (R' : Registers) (M' : Memory) (touched : Nat → Prop) : Prop where
  registers : s.registers.AgreeBelow s.work.fresh R'
  proper : M'.Proper
  size : s.memory.size ≤ M'.size
  bytes : ∀ b, ¬ touched b → M'.byteAt b = s.memory.byteAt b

variable {m : IR.Module} {s : Session} {R' : Registers} {M' : Memory} {touched : Nat → Prop} {id : Nat}
  {v v' : Variable} {x : Scalar} {fresh' : Nat}

theorem Spares.refl (h : s.memory.Proper) (touched : Nat → Prop) : s.Spares s.registers s.memory touched :=
  ⟨.refl _ _, h, le_rfl, fun _ _ => rfl⟩

theorem Offers.operand {ty : TypeRef} (h : s.Offers value ty x) :
    s.registers.operand ty.irType value.value = .ok x := by
  rw [← h.typed]
  exact h.evaluates

/-- Operands keep their values while registers in use are not set. -/
theorem Offers.mono {s' : Session} {ty : TypeRef} (h : s.Offers value ty x) (hfresh : s.work.fresh ≤ s'.work.fresh)
    (hR : s.registers.AgreeBelow s.work.fresh s'.registers) :
    s'.Offers value ty x where
  typed := h.typed
  below := h.below.mono hfresh
  evaluates := (hR.operand h.below _).trans h.evaluates
  range := h.range

theorem Spares.set (h : s.memory.Proper) (touched : Nat → Prop) (x : Scalar) :
    s.Spares (s.registers.set s.work.fresh x) s.memory touched :=
  ⟨.set le_rfl _ _, h, le_rfl, fun _ _ => rfl⟩

theorem Sound.exists_value (h : s.Sound m) (hv : s.work.scope.get? id = some v) : ∃ x, s.store[id]? = some x :=
  ⟨_, List.getElem?_eq_getElem (h.length ▸ (List.getElem?_eq_some_iff.1 hv).1)⟩

theorem Sound.at_iff (h : s.Sound m) (hs : s.Spares R' M' touched) (hv : v ∈ s.work.scope.vars) :
    v.At m R' a k ↔ v.At m s.registers a k :=
  Variable.at_below (h.below v hv) hs.registers

theorem Sound.placed_spared (h : s.Sound m) (hs : s.Spares R' M' touched) (hv : v ∈ s.work.scope.vars)
    (hlin : v.ty.isLinear = false) : ∃ a k, v.At m R' a k ∧ M'.Has a.toNat k ∧ a.toNat + k ≤ s.memory.size := by
  obtain ⟨a, k, hat, hhas⟩ := h.placed v hv hlin
  exact ⟨a, k, (h.at_iff hs hv).2 hat, hhas.mono hs.size, hhas.allocated⟩

theorem Sound.stands_spared (h : s.Sound m) (hs : s.Spares R' M' touched) (hv : s.work.scope.get? id = some v)
    (hx : s.store[id]? = some x)
    (huntouched : ∀ a k, v.At m s.registers a k → ∀ b, a.toNat ≤ b → b < a.toNat + k → ¬ touched b) :
    v.Stands m R' M' x := by
  have hmem := Scope.mem_of_get? hv
  refine (h.values id v x hv hx).frame (h.below v hmem) hs.registers fun hscalar => ?_
  obtain ⟨a, k, hat, hhas⟩ := h.placed v hmem (TypeRef.isLinear_of_isScalar hscalar)
  rw [hat.content, ((h.at_iff hs hmem).2 hat).content,
    loadScalar_congr hat.sized h.proper hs.proper hhas (hhas.mono hs.size)
      fun b hb hb' => hs.bytes b (huntouched a k hat b hb hb')]

/-- One variable is changed, along with its own bytes. -/
theorem Sound.update (h : s.Sound m) (hs : s.Spares R' M' (v.Covers m s.registers))
    (hv : s.work.scope.get? id = some v) (hx : v'.Stands m R' M' x) (hsame : v.Same v')
    (hformed : v'.Formed s.work.scope.caching) (hfresh : s.work.fresh ≤ fresh') (hbelow : v'.Below fresh') :
    Sound m ⟨{ s.work with fresh := fresh', scope := s.work.scope.put id v' }, R', M', s.store.set id x⟩ := by
  -- no variable has moved, so that places are as far apart as they were
  have hplace : ∀ id' u a k, (s.work.scope.put id v').get? id' = some u → u.At m R' a k →
      ∃ u', s.work.scope.get? id' = some u' ∧ u'.At m s.registers a k := by
    intro id' u a k hu hat
    obtain ⟨rfl, rfl⟩ | ⟨-, hu⟩ := Scope.get?_put hu
    · exact ⟨v, hv, (h.at_iff hs (Scope.mem_of_get? hv)).1 (hat.same hsame.symm)⟩
    · exact ⟨u, hu, (h.at_iff hs (Scope.mem_of_get? hu)).1 hat⟩
  constructor
  case proper => exact hs.proper
  case length => exact (length_set ..).trans (h.length.trans (length_set ..).symm)
  case formed => exact h.formed.put id hformed
  case below =>
    intro u hu
    rcases Scope.mem_put hu with hu | rfl
    · exact (h.below u hu).mono hfresh
    · exact hbelow
  case placed =>
    intro u hu hlin
    rcases Scope.mem_put hu with hu | rfl
    · obtain ⟨a, k, hat, hhas, -⟩ := h.placed_spared hs hu hlin
      exact ⟨a, k, hat, hhas⟩
    · obtain ⟨a, k, hat, hhas, -⟩ := h.placed_spared hs (Scope.mem_of_get? hv) (by rw [← hsame.ty]; exact hlin)
      exact ⟨a, k, hat.same hsame, hhas⟩
  case apart =>
    intro id1 id2 u1 u2 a1 a2 k1 k2 hne hu1 hu2 hat1 hat2
    obtain ⟨u1', hu1', hat1'⟩ := hplace id1 u1 a1 k1 hu1 hat1
    obtain ⟨u2', hu2', hat2'⟩ := hplace id2 u2 a2 k2 hu2 hat2
    exact h.apart id1 id2 u1' u2' a1 a2 k1 k2 hne hu1' hu2' hat1' hat2'
  case values =>
    intro id' u y hu hy
    obtain ⟨rfl, rfl⟩ | ⟨hne, hu⟩ := Scope.get?_put hu
    · grind
    rw [List.getElem?_set_ne (Ne.symm hne)] at hy
    refine h.stands_spared hs hu hy fun a k hat b hb hb' hb'' => ?_
    obtain ⟨a', k', hat', hge, hlt⟩ := hb''
    have := h.apart id' id u v a a' k k' hne hu hv hat hat'
    omega

/-- Another thing is known of a variable, but its value is the same. -/
theorem Sound.update_known (h : s.Sound m) (hs : s.Spares R' M' (v.Covers m s.registers))
    (hv : s.work.scope.get? id = some v) (hstore : s.store[id]? = some x) (hx : v'.Stands m R' M' x) (hsame : v.Same v')
    (hformed : v'.Formed s.work.scope.caching) (hfresh : s.work.fresh ≤ fresh') (hbelow : v'.Below fresh') :
    Sound m ⟨{ s.work with fresh := fresh', scope := s.work.scope.put id v' }, R', M', s.store⟩ := by
  have hsound := h.update hs hv hx hsame hformed hfresh hbelow
  grind [set_getElem_self]

/-- One variable is added, with memory that was not in use. -/
theorem Sound.add (h : s.Sound m) (hs : s.Spares R' M' fun b => s.memory.size ≤ b)
    (hformed : v.Formed s.work.scope.caching) (hfresh : s.work.fresh ≤ fresh') (hbelow : v.Below fresh')
    (hplaced : v.ty.isLinear = false → ∃ a k, v.At m R' a k ∧ M'.Has a.toNat k ∧ s.memory.size ≤ a.toNat)
    (hx : v.Stands m R' M' x) :
    Sound m ⟨{ s.work with fresh := fresh', scope := s.work.scope.push v }, R', M', s.store ++ [x]⟩ := by
  -- what was there before ends where the memory ended, and the new variable begins there
  have hold : ∀ id' u a k, s.work.scope.get? id' = some u → u.At m R' a k → a.toNat + k ≤ s.memory.size := by
    intro id' u a k hu hat
    have hmem := Scope.mem_of_get? hu
    obtain ⟨a', k', hat', -, hle⟩ := h.placed_spared hs hmem (hat.not_linear (h.formed u hmem))
    obtain ⟨rfl, rfl⟩ := hat.unique hat'
    exact hle
  have hnew : ∀ a k, v.At m R' a k → s.memory.size ≤ a.toNat := by
    intro a k hat
    obtain ⟨a', k', hat', -, hle⟩ := hplaced (hat.not_linear hformed)
    obtain ⟨rfl, rfl⟩ := hat.unique hat'
    exact hle
  constructor
  case proper => exact hs.proper
  case length => simp [Scope.push, h.length]
  case formed => exact h.formed.push hformed
  case below =>
    intro u hu
    rcases Scope.mem_push hu with hu | rfl
    · exact (h.below u hu).mono hfresh
    · exact hbelow
  case placed =>
    intro u hu hlin
    rcases Scope.mem_push hu with hu | rfl
    · obtain ⟨a, k, hat, hhas, -⟩ := h.placed_spared hs hu hlin
      exact ⟨a, k, hat, hhas⟩
    · grind
  case apart =>
    intro id1 id2 u1 u2 a1 a2 k1 k2 hne hu1 hu2 hat1 hat2
    obtain ⟨hid1, rfl⟩ | hu1 := Scope.get?_push hu1
    · obtain ⟨hid2, rfl⟩ | hu2 := Scope.get?_push hu2
      · exact absurd (hid1.trans hid2.symm) hne
      · exact .inr ((hold id2 u2 a2 k2 hu2 hat2).trans (hnew a1 k1 hat1))
    have hle := hold id1 u1 a1 k1 hu1 hat1
    obtain ⟨hid2, rfl⟩ | hu2 := Scope.get?_push hu2
    · exact .inl (hle.trans (hnew a2 k2 hat2))
    · exact h.apart id1 id2 u1 u2 a1 a2 k1 k2 hne hu1 hu2 ((h.at_iff hs (Scope.mem_of_get? hu1)).1 hat1)
        ((h.at_iff hs (Scope.mem_of_get? hu2)).1 hat2)
  case values =>
    intro id' u y hu hy
    obtain ⟨rfl, rfl⟩ | hu := Scope.get?_push hu
    · simp_all [← h.length]
    have hlt : id' < s.store.length := h.length ▸ (List.getElem?_eq_some_iff.1 hu).1
    rw [List.getElem?_append_left hlt] at hy
    refine h.stands_spared hs hu hy fun a k hat b _ hb' => ?_
    have := hold id' u a k hu ((h.at_iff hs (Scope.mem_of_get? hu)).2 hat)
    omega

/-! ### Single instructions -/

section Machine

variable {site : Site} {address : Argument} {o : Operand} {size : Nat}

theorem Sound.store_runs (h : s.Sound site.program) (hv : s.work.scope.get? id = some v)
    (hstor : v.storage = some address) (hlin : v.ty.isLinear = false) (ho : s.registers.operand v.ty.irType o = .ok x)
    (hx : x.HasType v.ty.irType) :
    ∃ M', site.Runs [.store address ⟨v.ty.irType, o⟩] s.registers s.memory s.registers M' ∧
      s.Spares s.registers M' (v.Covers site.program s.registers) ∧
      v.content site.program s.registers M' = some x := by
  obtain ⟨a, k, hat, hhas⟩ := h.placed v (Scope.mem_of_get? hv) hlin
  obtain ⟨size, word, hlies⟩ := hx.liesAs site.program
  have hty := TypeRef.irType_of_not_linear hlin
  cases hat.sized.symm.trans (hty ▸ hlies.sized)
  refine ⟨s.memory.patch a.toNat (Word.toBytes k word), .keep (hat.address hstor) ho (hlies.store h.proper hhas),
    ⟨.refl _ _, h.proper.patch _ _, ?_, fun b hb => ?_⟩, ?_⟩
  · rw [Memory.size_patch]
  · rw [Memory.byteAt_patch _ _ _ (by rw [Word.length_toBytes]; exact hhas.allocated), if_neg]
    rw [Word.length_toBytes]
    exact fun hcovers => hb ⟨a, k, hat, hcovers⟩
  · rw [hat.content, ← hty, hlies.load_patch h.proper hhas]
    rfl

theorem Sound.alloc_spares (h : s.Sound m) (hroom : s.memory.size + size ≤ Memory.limit) :
    s.Spares (s.registers.set s.work.fresh (.int (UInt64.ofNat s.memory.size))) (s.memory.grow (max size 1))
      fun b => s.memory.size ≤ b where
  registers := .set le_rfl _ _
  proper := h.proper.grow hroom
  size := by simp
  bytes b _ := Memory.byteAt_grow ..

theorem Sound.toNat_size (h : s.Sound m) : (UInt64.ofNat s.memory.size).toNat = s.memory.size :=
  UInt64.toNat_ofNat_of_lt (h.proper.limited.trans_lt (by decide))

theorem new_at (hsize : sizeOf m v.ty.storageType = .ok size)
    (hstor : v.storage = some (.register v.ty.storageType.pointerTo s.work.fresh)) :
    v.At m (s.registers.set s.work.fresh (.int (UInt64.ofNat s.memory.size))) (UInt64.ofNat s.memory.size) size :=
  ⟨_, hstor, Registers.argument_set_self .., hsize⟩

theorem Sound.new_has (h : s.Sound m) (size : Nat) :
    (s.memory.grow (max size 1)).Has (UInt64.ofNat s.memory.size).toNat size := by
  rw [h.toNat_size]
  exact h.proper.has_new size

theorem Sound.new_content (h : s.Sound m) (hroom : s.memory.size + size ≤ Memory.limit)
    (hsize : sizeOf m v.ty.storageType = .ok size)
    (hstor : v.storage = some (.register v.ty.storageType.pointerTo s.work.fresh)) (hscalar : v.ty.isScalar = true) :
    v.content m (s.registers.set s.work.fresh (.int (UInt64.ofNat s.memory.size))) (s.memory.grow (max size 1)) =
      some (.zero v.ty.irType) := by
  obtain ⟨size', hlies⟩ := Scalar.zero_liesAs hscalar m
  cases hlies.sized.symm.trans hsize
  have hload := hlies.load_zero (h.proper.grow hroom) (h.new_has size) fun b hb _ => by
    rw [Memory.byteAt_grow]
    exact Memory.byteAt_of_size_le (by rw [h.toNat_size] at hb; exact hb)
  rw [(new_at hsize hstor).content, hload, TypeRef.irType_of_not_linear (TypeRef.isLinear_of_isScalar hscalar)]
  rfl

end Machine

/-! ### Operations -/

section Operations

variable {site : Site} {w' : Workspace} {code : Code} {size : Nat} {ty : TypeRef} {value : Argument}

/-- The code of an operation is run: no register in use is set, and the session is sound again. -/
def Advances (site : Site) (s : Session) (code : Code) (w' : Workspace) (store' : List Scalar) : Prop :=
  ∃ R' M', site.Runs code s.registers s.memory R' M' ∧ s.registers.AgreeBelow s.work.fresh R' ∧
    s.work.fresh ≤ w'.fresh ∧ Sound site.program ⟨w', R', M', store'⟩

/-- There is memory for a value of a type. -/
def HasRoom (m : IR.Module) (s : Session) (ty : TypeRef) : Prop :=
  ∃ size, sizeOf m ty.storageType = .ok size ∧ s.memory.size + size ≤ Memory.limit

theorem Sound.add_linear (h : s.Sound m) (hs : s.Spares R' M' fun b => s.memory.size ≤ b)
    (hformed : v.Formed s.work.scope.caching) (hlin : v.ty.isLinear = true) (hfresh : s.work.fresh ≤ fresh')
    (hcache : v.cache = some o) (ho : o.Below fresh') (ha : R'.operand v.ty.irType o = .ok a) (x : Scalar) :
    Sound m ⟨{ s.work with fresh := fresh', scope := s.work.scope.push v }, R', M', s.store ++ [x]⟩ := by
  refine h.add hs hformed hfresh ⟨fun o' ho' => ?_, fun address haddr => ?_⟩ (fun hnormal => ?_)
    (.of_linear hlin fun o' ho' => ⟨a, ?_⟩)
  · grind
  · rw [(hformed.linear hlin).1] at haddr
    cases haddr
  · simp_all
  · simp_all

theorem Sound.add_allocated (h : s.Sound m) (hsize : sizeOf m v.ty.storageType = .ok size)
    (hroom : s.memory.size + size ≤ Memory.limit) (hformed : v.Formed s.work.scope.caching)
    (hstor : v.storage = some (.register v.ty.storageType.pointerTo s.work.fresh))
    (hcache : ∀ o, v.cache = some o → o.Below s.work.fresh)
    (hx : v.Stands m (s.registers.set s.work.fresh (.int (UInt64.ofNat s.memory.size)))
      (s.memory.grow (max size 1)) x) :
    Sound m ⟨{ s.work with fresh := s.work.fresh + 1, scope := s.work.scope.push v },
      s.registers.set s.work.fresh (.int (UInt64.ofNat s.memory.size)), s.memory.grow (max size 1),
        s.store ++ [x]⟩ := by
  refine h.add (h.alloc_spares hroom) hformed (Nat.le_succ _)
    ⟨fun o ho => (hcache o ho).mono (Nat.le_succ _), fun address haddr => ?_⟩
    (fun _ => ⟨_, _, new_at hsize hstor, h.new_has size, Nat.le_of_eq h.toNat_size.symm⟩) hx
  cases hstor.symm.trans haddr
  exact IR.Operand.below_register (Nat.lt_succ_self _)

theorem Sound.new_stands (h : s.Sound m) (hsize : sizeOf m v.ty.storageType = .ok size)
    (hroom : s.memory.size + size ≤ Memory.limit)
    (hstor : v.storage = some (.register v.ty.storageType.pointerTo s.work.fresh)) (hcache : v.cache = none) :
    v.Stands m (s.registers.set s.work.fresh (.int (UInt64.ofNat s.memory.size))) (s.memory.grow (max size 1))
      (.zero v.ty.irType) := by
  refine .of_stored hcache fun hscalar => ⟨?_, h.new_content hroom hsize hstor hscalar⟩
  rw [TypeRef.irType_of_not_linear (TypeRef.isLinear_of_isScalar hscalar)]
  exact (Scalar.zero_hasType hscalar).1

section Sessions

variable (h : s.Sound site.program)
include h

theorem Sound.declare (hop : declareVariable ty name s.work = .ok (id, code) w') (hroom : s.HasRoom site.program ty) :
    s.Advances site code w' (s.store ++ [.zero ty.irType]) := by
  obtain ⟨size, hsize, hroom⟩ := hroom
  obtain ⟨-, -, hres, rfl⟩ := (declareVariable_ensures ty name s.work).of_ok hop
  cases hres
  refine ⟨_, _, .alloc hsize hroom, (h.alloc_spares hroom).registers, Nat.le_succ _, ?_⟩
  have hformed := Variable.Formed.declared s.work.scope.caching name.symbol ty s.work.fresh
  by_cases hlin : ty.isLinear = true
  · have hdecl : Variable.declared name.symbol ty s.work.fresh =
        ⟨name.symbol, ty, none, some (.register s.work.fresh), false⟩ := by
      simp [Variable.declared, hlin, Argument.register]
    rw [hdecl] at hformed ⊢
    exact h.add_linear (h.alloc_spares hroom) hformed hlin (Nat.le_succ _) rfl
      (IR.Operand.below_register (Nat.lt_succ_self _)) (Registers.argument_set_self ..) _
  · have hdecl : Variable.declared name.symbol ty s.work.fresh =
        ⟨name.symbol, ty, some (.register ty.storageType.pointerTo s.work.fresh), none, false⟩ := by
      simp [Variable.declared, hlin]
    rw [hdecl] at hformed ⊢
    exact h.add_allocated hsize hroom hformed rfl (fun o ho => by cases ho) (h.new_stands hsize hroom rfl rfl)

/-- Writing to a variable that keeps what is known of it in its memory only. -/
theorem Sound.write_through (hv : s.work.scope.get? id = some v) (hlin : v.ty.isLinear = false) {address value}
    (hstor : v.storage = some address) (hvalue : s.Offers value v.ty x) :
    s.Advances site [.store address value]
      { s.work with scope := s.work.scope.put id { v with cache := none, dirty := false } } (s.store.set id x) := by
  obtain ⟨ty, o⟩ := value
  cases hvalue.typed
  obtain ⟨M', hruns, hspares, hcontent⟩ := h.store_runs hv hstor hlin hvalue.evaluates hvalue.range
  have hmem := Scope.mem_of_get? hv
  refine ⟨_, M', hruns, hspares.registers, le_rfl, ?_⟩
  exact h.update hspares hv (.of_stored rfl fun _ => ⟨hvalue.range, hcontent⟩) ⟨rfl, rfl, rfl⟩
    ((h.formed v hmem).unknown hlin) le_rfl ⟨fun o ho => (by cases ho), (h.below v hmem).storage⟩

/-- A variable is added along with its value, which is stored at once. -/
theorem Sound.add_stored (hlin : ty.isLinear = false) (hvalue : s.Offers value ty x)
    (hsize : sizeOf site.program ty.storageType = .ok size) (hroom : s.memory.size + size ≤ Memory.limit)
    (name : String) : s.Advances site [.set s.work.fresh (.alloc ty.storageType),
        .store (.register ty.storageType.pointerTo s.work.fresh) value]
      { s.work with
        fresh := s.work.fresh + 1
        scope := s.work.scope.push ⟨name, ty, some (.register ty.storageType.pointerTo s.work.fresh), none, false⟩ }
      (s.store ++ [x]) := by
  have hspares := h.alloc_spares hroom
  have hformed : Variable.Formed s.work.scope.caching
      ⟨name, ty, some (.register ty.storageType.pointerTo s.work.fresh), none, false⟩ := by
    constructor <;> simp [hlin]
  -- first the variable is there with zero in its memory, then the value is stored
  have hadded := h.add_allocated hsize hroom hformed rfl (fun o ho => by cases ho) (h.new_stands hsize hroom rfl rfl)
  obtain ⟨R', M', hruns, hagree, -, hsound⟩ := hadded.write_through (Scope.get?_push_self ..) hlin rfl
    (hvalue.mono (Nat.le_succ _) hspares.registers)
  have hstore : (s.store ++ [Scalar.zero ty.irType]).set s.work.scope.vars.length x = s.store ++ [x] := by
    simp [← h.length]
  rw [Scope.put_push, hstore] at hsound
  exact ⟨R', M', .append (.alloc hsize hroom) hruns, hspares.registers.trans (hagree.mono (Nat.le_succ _)),
    Nat.le_succ _, hsound⟩

theorem Sound.parameter (hop : declareParameter p s.work = .ok code w') (hvalue : s.Offers p.value p.ty x)
    (hroom : p.ty.isLinear = false → s.HasRoom site.program p.ty) : s.Advances site code w' (s.store ++ [x]) := by
  obtain ⟨-, rfl, rfl⟩ := (declareParameter_ensures p s.work).of_ok hop
  have hformed := Variable.Formed.ofIncoming p s.work.scope.caching s.work.fresh
  unfold Incoming.code Incoming.toVariable at *
  by_cases hlin : p.ty.isLinear = true
  · simp only [if_pos hlin] at hformed ⊢
    refine ⟨_, _, .nil, .refl _ _, le_rfl, ?_⟩
    exact h.add_linear (.refl h.proper _) hformed hlin le_rfl rfl hvalue.below hvalue.operand x
  simp only [if_neg hlin] at hformed ⊢
  rw [Bool.not_eq_true] at hlin
  obtain ⟨size, hsize, hroom⟩ := hroom hlin
  by_cases hcaching : s.work.scope.caching = true
  · simp only [if_pos hcaching] at hformed ⊢
    refine ⟨_, _, .alloc hsize hroom, (h.alloc_spares hroom).registers, Nat.le_succ _,
      h.add_allocated hsize hroom (hcaching ▸ hformed) rfl (fun o ho => ?_) ?_⟩
    · cases ho
      exact hvalue.below
    refine .of_known hlin rfl rfl ?_ hvalue.range
    rw [(h.alloc_spares hroom).registers.operand hvalue.below]
    exact hvalue.operand
  · simp only [if_neg hcaching] at hformed ⊢
    exact h.add_stored hlin hvalue hsize hroom _

theorem Sound.write (hop : writeVariable id value s.work = .ok code w') (hv : s.work.scope.get? id = some v)
    (hvalue : s.Offers value v.ty x) : s.Advances site code w' (s.store.set id x) := by
  have hmem := Scope.mem_of_get? hv
  have hformed := h.formed v hmem
  have hbelow (dirty : Bool) : Variable.Below s.work.fresh { v with cache := some value.value, dirty } := by
    refine ⟨fun o ho => ?_, (h.below v hmem).storage⟩
    cases ho
    exact hvalue.below
  obtain ⟨v', hv', hcases⟩ := (writeVariable_ensures id value s.work).of_ok hop
  cases hv.symm.trans hv'
  obtain ⟨hlin, rfl, rfl⟩ | ⟨hlin, address, hstor, ⟨hcaching, rfl, rfl⟩ | ⟨hcaching, rfl, rfl⟩⟩ := hcases
  · refine ⟨_, _, .nil, .refl _ _, le_rfl, ?_⟩
    refine h.update (.refl h.proper _) hv (.of_linear hlin fun o ho => ⟨x, ?_⟩) ⟨rfl, rfl, rfl⟩
      (hformed.known (.inl hlin) _ _) le_rfl (hbelow _)
    cases ho
    exact hvalue.operand
  · refine ⟨_, _, .nil, .refl _ _, le_rfl, ?_⟩
    exact h.update (.refl h.proper _) hv (.of_known hlin rfl rfl hvalue.operand hvalue.range) ⟨rfl, rfl, rfl⟩
      (hformed.known (.inr hcaching) _ _) le_rfl (hbelow _)
  · exact h.write_through hv hlin hstor hvalue

theorem Sound.flush (hop : flushVariable id s.work = .ok code w') : s.Advances site code w' s.store := by
  obtain ⟨v, hv, ⟨address, o, hdirty, hstor, hcache, rfl, rfl⟩ | ⟨rfl, rfl⟩⟩ :=
    (flushVariable_ensures id s.work).of_ok hop
  · have hmem := Scope.mem_of_get? hv
    have hformed := h.formed v hmem
    have hlin := hformed.not_linear hstor
    obtain ⟨x, hx⟩ := h.exists_value hv
    have hstands := h.values id v x hv hx
    obtain ⟨ho, hscalar⟩ := hstands.known hlin o hcache
    obtain ⟨M', hruns, hspares, hcontent⟩ := h.store_runs hv hstor hlin ho (hstands.range hscalar)
    -- the known value is now the stored one as well
    have hflushed : Variable.Stands site.program s.registers M' { v with dirty := false } x :=
      ⟨hstands.known, hstands.range, fun _ _ => hcontent, hstands.address⟩
    refine ⟨_, M', hruns, .refl _ _, le_rfl, ?_⟩
    exact h.update_known hspares hv hx hflushed ⟨rfl, rfl, rfl⟩ hformed.flushed le_rfl
      ⟨(h.below v hmem).cache, (h.below v hmem).storage⟩
  · exact ⟨_, _, .nil, .refl _ _, le_rfl, h⟩

/-- Loading a variable that is not known gives the value of the plain store. -/
theorem Sound.read_stored (hv : s.work.scope.get? id = some v) (hx : s.store[id]? = some x)
    (hcache : v.cache = none) (hstor : v.storage = some address) (hscalar : v.ty.isScalar = true) :
    site.Runs [.set s.work.fresh (.load v.ty.storageType address)] s.registers s.memory
      (s.registers.set s.work.fresh x) s.memory ∧
    Sound site.program ⟨{ s.work with
        fresh := s.work.fresh + 1
        scope := if s.work.scope.caching then s.work.scope.put id { v with cache := some (.register s.work.fresh) }
          else s.work.scope }, s.registers.set s.work.fresh x, s.memory, s.store⟩ := by
  have hmem := Scope.mem_of_get? hv
  have hformed := h.formed v hmem
  have hbelow := h.below v hmem
  have hstands := h.values id v x hv hx
  have hclean : v.dirty = false := Bool.eq_false_iff.2 fun hdirty => by
    obtain ⟨o, ho⟩ := hformed.dirty hdirty
    grind
  have hkept := hstands.kept hscalar hclean
  have hspares : s.Spares _ s.memory (v.Covers site.program s.registers) := .set h.proper _ x
  have hcontent := (Variable.content_congr fun r hr => hspares.registers r (hbelow.uses hr)).trans hkept
  refine ⟨.fetch (Variable.load_of_content hstor hkept), ?_⟩
  by_cases hcaching : s.work.scope.caching = true
  · simp only [if_pos hcaching]
    have hknown : Variable.Stands site.program (s.registers.set s.work.fresh x) s.memory
        { v with cache := some (.register s.work.fresh) } x := by
      refine ⟨fun _ o ho => ?_, hstands.range, fun _ _ => hcontent, fun hlin => ?_⟩
      · cases ho
        exact ⟨Registers.argument_set_self .., hscalar⟩
      · rw [TypeRef.isLinear_of_isScalar hscalar] at hlin
        cases hlin
    refine h.update_known hspares hv hx hknown ⟨rfl, rfl, rfl⟩ (hformed.known (.inr hcaching) _ _) (Nat.le_succ _)
      ⟨fun o ho => ?_, (hbelow.mono (Nat.le_succ _)).storage⟩
    cases ho
    exact IR.Operand.below_register (Nat.lt_succ_self _)
  simp only [if_neg hcaching]
  have hsame : v.Stands site.program (s.registers.set s.work.fresh x) s.memory x :=
    hstands.frame hbelow hspares.registers fun _ => hcontent.trans hkept.symm
  have hsound := h.update_known hspares hv hx hsame ⟨rfl, rfl, rfl⟩ hformed (Nat.le_succ _)
    (hbelow.mono (Nat.le_succ _))
  rw [Scope.put_get? hv] at hsound
  exact hsound

/-- Reading a variable gives the value of the plain store. -/
theorem Sound.read (hop : readVariable id s.work = .ok (code, value) w') (hv : s.work.scope.get? id = some v)
    (hscalar : v.ty.isLinear = false → v.ty.isScalar = true) :
    ∃ R', site.Runs code s.registers s.memory R' s.memory ∧ (Sound site.program ⟨w', R', s.memory, s.store⟩ ∧
      (s.work.fresh : Nat) ≤ w'.fresh ∧ s.registers.AgreeBelow s.work.fresh R') ∧
      value.ty = v.ty.irType ∧ ∀ x, v.ty.isLinear = false → s.store[id]? = some x → R'.argument value = .ok x := by
  have hformed := h.formed.get? hv
  obtain ⟨x, hx⟩ := h.exists_value hv
  obtain ⟨v', hv', hcases⟩ := (readVariable_ensures id s.work).of_ok hop
  cases hv.symm.trans hv'
  obtain ⟨o, hcache, hres, rfl⟩ | ⟨address, hcache, hstor, hres, rfl⟩ := hcases
  · cases hres
    refine ⟨_, .nil, ⟨h, le_rfl, .refl _ _⟩, rfl, fun y hlin hy => ?_⟩
    exact ((h.values id v y hv hy).known hlin o hcache).1
  cases hres
  obtain ⟨hruns, hsound⟩ := h.read_stored hv hx hcache hstor (hscalar (hformed.not_linear hstor))
  refine ⟨_, hruns, ⟨hsound, Nat.le_succ _, .set le_rfl _ _⟩, rfl, fun y _ hy => ?_⟩
  cases hx.symm.trans hy
  exact Registers.argument_set_self ..

end Sessions

theorem alloc_fails (h : ¬ s.HasRoom site.program ty) (r : Local) :
    ∃ e, site.Fails [.set r (.alloc ty.storageType)] s.registers s.memory e :=
  Site.Fails.alloc fun size hsize => Nat.lt_of_not_le fun hroom => h ⟨size, hsize, hroom⟩

theorem Sound.parameter_or_fails (h : s.Sound site.program) (hop : declareParameter p s.work = .ok code w')
    (hvalue : s.Offers p.value p.ty x) :
    s.Advances site code w' (s.store ++ [x]) ∨ ∃ e, site.Fails code s.registers s.memory e := by
  by_cases hroom : p.ty.isLinear = false → s.HasRoom site.program p.ty
  · exact .inl (h.parameter hop hvalue hroom)
  obtain ⟨hlin, hroom⟩ := Classical.not_imp.1 hroom
  obtain ⟨e, hfails⟩ := alloc_fails hroom s.work.fresh
  obtain ⟨-, rfl, -⟩ := (declareParameter_ensures p s.work).of_ok hop
  refine .inr ⟨e, ?_⟩
  unfold Incoming.code
  rw [if_neg (Bool.eq_false_iff.1 hlin)]
  split
  · exact hfails
  · exact hfails.append _

theorem Sound.parameters_or_fails (h : s.Sound site.program) (hop : declareParameters ps s.work = .ok code w')
    (hvals : Forall₂ (fun p x => s.Offers p.value p.ty x) ps xs) :
    s.Advances site code w' (s.store ++ xs) ∨ ∃ e, site.Fails code s.registers s.memory e := by
  induction ps generalizing s xs code with
  | nil =>
    cases hvals
    cases hop
    rw [append_nil]
    exact .inl ⟨_, _, .nil, .refl _ _, le_rfl, h⟩
  | cons p ps ih =>
    cases hvals with
    | @cons _ x _ xs hvalue hvals =>
      obtain ⟨first, more, w1, hfirst, hmore, rfl⟩ := declareParameters_cons hop
      obtain ⟨R1, M1, hruns, hagree, hfresh, hsound⟩ | ⟨e, hfails⟩ := h.parameter_or_fails hfirst hvalue
      · -- the operands that are still to come have the values they had
        have hvals1 : Forall₂ (fun p y => Offers ⟨w1, R1, M1, s.store ++ [x]⟩ p.value p.ty y) ps xs :=
          hvals.imp fun p y hp => hp.mono hfresh hagree
        obtain ⟨R2, M2, hruns2, hagree2, hfresh2, hsound2⟩ | ⟨e, hfails⟩ := ih hsound hmore hvals1
        · rw [append_assoc] at hsound2
          exact .inl ⟨R2, M2, hruns.append hruns2, hagree.trans (hagree2.mono hfresh), hfresh.trans hfresh2, hsound2⟩
        · exact .inr ⟨e, hruns.fails hfails⟩
      · exact .inr ⟨e, hfails.append more⟩

/-- What is not a scalar is not read: its code fails. -/
theorem Sound.read_fails (h : s.Sound site.program) (hop : readVariable id s.work = .ok (code, value) w')
    (hv : s.work.scope.get? id = some v) (hlin : v.ty.isLinear = false) (hscalar : v.ty.isScalar = false) :
    ∃ e, site.Fails code s.registers s.memory e := by
  obtain ⟨x, hx⟩ := h.exists_value hv
  obtain ⟨v', hv', hcases⟩ := (readVariable_ensures id s.work).of_ok hop
  cases hv.symm.trans hv'
  obtain ⟨o, hcache, -, -⟩ | ⟨address, -, hstor, hres, -⟩ := hcases
  · obtain ⟨-, hknown⟩ := (h.values id v x hv hx).known hlin o hcache
    simp_all
  cases hres
  obtain ⟨a, k, hat, -⟩ := h.placed v (Scope.mem_of_get? hv) hlin
  obtain ⟨e, he⟩ := loadScalar_of_not_isScalar hscalar hlin site.program s.memory a
  refine ⟨e, .fetch ?_⟩
  unfold Registers.load
  rw [hat.address hstor]
  exact he

end Operations

/-! ### Runs -/

section Runs

variable (site : Site)

/-- One operation, whose code is run. Parameters bring their values, other new variables begin with zero, and only
writing changes the value of a variable. -/
inductive Step : Session → Session → Prop where
  | parameters {s : Session} {ps : List Incoming} {xs : List Scalar} {code : Code} {w' : Workspace} {R' : Registers}
      {M' : Memory} (hop : declareParameters ps s.work = .ok code w')
      (hvals : Forall₂ (fun p x => s.Offers p.value p.ty x) ps xs)
      (hruns : site.Runs code s.registers s.memory R' M') : Step s ⟨w', R', M', s.store ++ xs⟩
  | declare {s : Session} {ty : TypeRef} {name : Identifier} {id : Nat} {code : Code} {w' : Workspace} {R' : Registers}
      {M' : Memory} (hop : declareVariable ty name s.work = .ok (id, code) w')
      (hruns : site.Runs code s.registers s.memory R' M') : Step s ⟨w', R', M', s.store ++ [.zero ty.irType]⟩
  | read {s : Session} {id : Nat} {code : Code} {value : Argument} {w' : Workspace} {R' : Registers} {M' : Memory}
      (hop : readVariable id s.work = .ok (code, value) w') (hruns : site.Runs code s.registers s.memory R' M') :
      Step s ⟨w', R', M', s.store⟩
  | write {s : Session} {id : Nat} {v : Variable} {value : Argument} {x : Scalar} {code : Code} {w' : Workspace}
      {R' : Registers} {M' : Memory} (hop : writeVariable id value s.work = .ok code w')
      (hv : s.work.scope.get? id = some v) (hvalue : s.Offers value v.ty x)
      (hruns : site.Runs code s.registers s.memory R' M') : Step s ⟨w', R', M', s.store.set id x⟩
  | flush {s : Session} {id : Nat} {code : Code} {w' : Workspace} {R' : Registers} {M' : Memory}
      (hop : flushVariable id s.work = .ok code w') (hruns : site.Runs code s.registers s.memory R' M') :
      Step s ⟨w', R', M', s.store⟩

/-- Any number of operations. -/
inductive Reached (start : Session) : Session → Prop where
  | refl : Reached start start
  | step {s s' : Session} (h : Reached start s) (hstep : Step site s s') : Reached start s'

variable {site}

theorem Advances.sound (h : s.Advances site code w' store')
    (hruns : site.Runs code s.registers s.memory R' M') : Sound site.program ⟨w', R', M', store'⟩ := by
  obtain ⟨R'', M'', hruns', -, -, hsound⟩ := h
  obtain ⟨rfl, rfl⟩ := hruns.unique hruns'
  exact hsound

/-- **Every operation keeps a session sound.** -/
theorem Sound.step (h : s.Sound site.program) (hstep : Step site s s') : s'.Sound site.program := by
  cases hstep with
  | parameters hop hvals hruns =>
    obtain hadvances | ⟨e, hfails⟩ := h.parameters_or_fails hop hvals
    · exact hadvances.sound hruns
    · exact absurd hfails hruns.not_fails
  | @declare ty name id code w' R' M' hop hruns =>
    by_cases hroom : s.HasRoom site.program ty
    · exact (h.declare hop hroom).sound hruns
    obtain ⟨e, hfails⟩ := alloc_fails hroom s.work.fresh
    obtain ⟨-, -, hres, -⟩ := (declareVariable_ensures ty name s.work).of_ok hop
    cases hres
    exact absurd hfails hruns.not_fails
  | @read id code value w' R' M' hop hruns =>
    obtain ⟨v, hv, -⟩ := (readVariable_ensures id s.work).of_ok hop
    by_cases hscalar : v.ty.isLinear = false → v.ty.isScalar = true
    · obtain ⟨R'', hruns', ⟨hsound, -⟩, -⟩ := h.read hop hv hscalar
      obtain ⟨rfl, rfl⟩ := hruns.unique hruns'
      exact hsound
    obtain ⟨hlin, hscalar⟩ := Classical.not_imp.1 hscalar
    obtain ⟨e, hfails⟩ := h.read_fails hop hv hlin (Bool.eq_false_iff.2 hscalar)
    exact absurd hfails hruns.not_fails
  | write hop hv hvalue hruns => exact (h.write hop hv hvalue).sound hruns
  | flush hop hruns => exact (h.flush hop).sound hruns

theorem sound_nil (hM : M.Proper) (m : IR.Module) (caching : Bool) (fresh : Nat) (R : Registers) :
    Sound m ⟨{ fresh, scope := { caching } }, R, M, []⟩ where
  proper := hM
  length := rfl
  formed v hv := by cases hv
  below v hv := by cases hv
  placed v hv := by cases hv
  apart id id' v v' a a' k k' _ hv := by cases hv
  values id v x hv := by cases hv

theorem Reached.sound (h : Reached site start s) (hstart : start.Sound site.program) : s.Sound site.program := by
  induction h with
  | refl => exact hstart
  | step _ hstep ih => exact ih.step hstep

end Runs

/-- What can be relied on while a scope is used. -/
structure Plain (site : Site) (s : Session) : Prop where
  /-- A name means a variable that is there. -/
  names : ∀ name id, s.work.scope.find? name = some id → id < s.work.scope.vars.length ∧
    ∃ v, s.work.scope.get? id = some v ∧ v.name = name
  /-- Normal variables have storage, linear ones an address and no storage; only known values are dirty, and without
  caching no value of a normal variable is known. -/
  formed : s.work.scope.Formed
  /-- A known value that need not be written back lies in storage. -/
  clean : ∀ v ∈ s.work.scope.vars, v.ty.isLinear = false → ∀ o, v.cache = some o → v.dirty = false →
    ∃ x, s.registers.operand v.ty.irType o = .ok x ∧ v.content site.program s.registers s.memory = some x
  /-- Reading a variable gives the value of the plain store. -/
  reads : ∀ id v, s.work.scope.get? id = some v → v.ty.isScalar = true → ∃ x code value w' R',
    s.store[id]? = some x ∧ readVariable id s.work = .ok (code, value) w' ∧ value.ty = v.ty.irType ∧
    site.Runs code s.registers s.memory R' s.memory ∧ R'.argument value = .ok x
  /-- Values can be written and written back. -/
  writes : ∀ id v value x, s.work.scope.get? id = some v → s.Offers value v.ty x →
    ∃ code w' R' M', writeVariable id value s.work = .ok code w' ∧ site.Runs code s.registers s.memory R' M'
  flushes : ∀ id v, s.work.scope.get? id = some v →
    ∃ code w' R' M', flushVariable id s.work = .ok code w' ∧ site.Runs code s.registers s.memory R' M'
  /-- A variable can be declared while there is memory. -/
  declares : ∀ ty name, s.work.scope.owns name.symbol = false → ty.isVoid = false → s.HasRoom site.program ty →
    ∃ result w' R' M', declareVariable ty name s.work = .ok result w' ∧ site.Runs result.2 s.registers s.memory R' M'

/-- **A scope behaves like a plain store**, with or without `caching`, whatever was declared, read, written and written
back on the way to the session `s` (`Reached`): the code of `readVariable` gives what `s.store` holds, and more can be
written, written back and declared (`Session.Plain`). -/
theorem scope_is_plain_store {site : Site} {caching : Bool} {fresh : Nat} {R : Registers} {M : Memory} (hM : M.Proper)
    {s : Session} (h : Reached site ⟨{ fresh, scope := { caching } }, R, M, []⟩ s) : s.Plain site := by
  have hsound := h.sound (sound_nil hM site.program caching fresh R)
  constructor
  case names =>
    intro name id hid
    obtain ⟨v, hv, hname, -⟩ := Scope.find?_eq_some hid
    exact ⟨(List.getElem?_eq_some_iff.1 hv).1, v, hv, hname⟩
  case formed => exact hsound.formed
  case clean =>
    intro v hv hlinear o ho hclean
    obtain ⟨id, hid⟩ := mem_iff_getElem?.1 hv
    obtain ⟨x, hx⟩ := hsound.exists_value hid
    have hstands := hsound.values id v x hid hx
    obtain ⟨hvalue, hscalar⟩ := hstands.known hlinear o ho
    exact ⟨x, hvalue, hstands.kept hscalar hclean⟩
  case reads =>
    intro id v hv hscalar
    obtain ⟨x, hx⟩ := hsound.exists_value hv
    obtain ⟨⟨code, value⟩, w', hop⟩ := readVariable_ok hv (hsound.formed.get? hv)
    obtain ⟨R', hruns, -, hty, hvalue⟩ := hsound.read hop hv fun _ => hscalar
    exact ⟨x, code, value, w', R', hx, hop, hty, hruns, hvalue x (TypeRef.isLinear_of_isScalar hscalar) hx⟩
  case writes =>
    intro id v value x hv hvalue
    obtain ⟨code, w', hop⟩ := writeVariable_ok hv (hsound.formed.get? hv) value
    obtain ⟨R', M', hruns, -⟩ := hsound.write hop hv hvalue
    exact ⟨code, w', R', M', hop, hruns⟩
  case flushes =>
    intro id v hv
    obtain ⟨code, w', hop⟩ := flushVariable_ok hv
    obtain ⟨R', M', hruns, -⟩ := hsound.flush hop
    exact ⟨code, w', R', M', hop, hruns⟩
  case declares =>
    intro ty name howns hvoid hroom
    obtain ⟨⟨id, code⟩, w', hop⟩ := declareVariable_ok howns hvoid
    obtain ⟨R', M', hruns, -⟩ := hsound.declare hop hroom
    exact ⟨(id, code), w', R', M', hop, hruns⟩

/-! ### A flag -/

namespace Flag

/-- A machine that has not run yet, in an empty procedure. -/
def site : Site := ⟨{}, ⟨⟨"main", .void, [], false, []⟩, 0, [], none, []⟩, []⟩

/-- A scope that keeps no values in registers. -/
def start : Session := ⟨{ scope := { caching := false } }, [], .empty, []⟩

end Flag

/-- A flag is declared and set; then it is read from memory. -/
theorem flag_is_plain_store : ∃ s, Reached Flag.site Flag.start s ∧ s.store = [.int 1] ∧ ∃ code value w' R',
    readVariable 0 s.work = .ok (code, value) w' ∧ Flag.site.Runs code s.registers s.memory R' s.memory ∧
    code.length = 1 ∧ R'.argument value = .ok (.int 1) := by
  have hstart : Flag.start.Plain Flag.site := scope_is_plain_store Memory.proper_empty .refl
  obtain ⟨⟨id, code1⟩, w1, R1, M1, hdeclare, hruns1⟩ := hstart.declares (.primitive .bool) ⟨"x", {}⟩ rfl rfl
    ⟨1, rfl, by decide⟩
  have hreached1 : Reached Flag.site Flag.start _ := .step .refl (.declare hdeclare hruns1)
  cases hdeclare
  obtain ⟨code2, w2, R2, M2, hwrite, hruns2⟩ := (scope_is_plain_store Memory.proper_empty hreached1).writes 0 _
    ⟨.bool, .bool true⟩ (.int 1) rfl ⟨rfl, fun _ h => (by cases h), rfl, .int (by decide) (by decide)⟩
  have hreached2 : Reached Flag.site Flag.start _ := .step hreached1
    (.write hwrite rfl ⟨rfl, fun _ h => (by cases h), rfl, .int (by decide) (by decide)⟩ hruns2)
  cases hwrite
  obtain ⟨x, code, value, w', R', hx, hread, -, hruns, hvalue⟩ :=
    (scope_is_plain_store Memory.proper_empty hreached2).reads 0 _ rfl rfl
  cases hx
  refine ⟨_, hreached2, rfl, code, value, w', R', hread, hruns, ?_, hvalue⟩
  cases hread
  rfl

end Session

end Lowering
